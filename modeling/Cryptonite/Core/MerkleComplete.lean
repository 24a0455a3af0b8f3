import Cryptonite.Core.PartialMerkle

/-!
# Completeness of partial Merkle trees

A `CPartialMerkleTree` is built for a list of hashes, written to a stream, read and asked for its
matches. The tree that is built is the tree of the list, pruned (`prune`): it has the same root, and
its leaves are the hashes that are marked. Writing fills up the last byte of the bits, which
`ExtractMatches` allows. So all of it comes back (`extractMatches_build`), as long as the vectors
are not longer than what can be read from a stream.
-/

namespace Cryptonite

open Codec Loop MerkleTree PrunedTree

variable {n : ℕ}

/-! ## On the wire -/

theorem packByte_lt (bits : List Bool) : packByte bits < 2 ^ bits.length := by
  induction bits with
  | nil => exact Nat.one_pos
  | cons b bits ih =>
    rw [packByte, List.length_cons, pow_succ]
    have hb := b.toNat_le
    omega

theorem testBit_packByte (bits : List Bool) (i : ℕ) :
    (packByte bits).testBit i = bits.getD i false := by
  induction bits generalizing i with
  | nil => simp [packByte]
  | cons b bits ih =>
    rcases i with _ | i
    · rw [packByte, Nat.testBit_zero]
      rcases b <;> simp [Nat.add_mod]
    · have hdiv : (b.toNat + 2 * packByte bits) / 2 = packByte bits := by
        have hb := b.toNat_le
        omega
      rw [packByte, Nat.testBit_succ, hdiv, ih]
      rfl

theorem unpackByte_packByte {bits : List Bool} (h : bits.length ≤ 8) :
    (List.range 8).map (UInt8.ofNat (packByte bits)).toNat.testBit =
      bits ++ List.replicate (8 - bits.length) false := by
  have hlt : packByte bits < 256 :=
    (packByte_lt bits).trans_le (Nat.pow_le_pow_right two_pos h)
  rw [UInt8.toNat_ofNat_of_lt' hlt]
  refine List.ext_getElem (by simp; omega) fun i hi _ ↦ ?_
  rw [List.getElem_map, List.getElem_range, testBit_packByte, List.getElem_append]
  split
  · next hlt => rw [List.getD_eq_getElem _ _ hlt]
  · next hge => rw [List.getD_eq_default _ _ (Nat.le_of_not_lt hge), List.getElem_replicate]

/-- The bits are read back, with zeros up to the end of the last byte. -/
theorem unpackBits_packBytes : ∀ {bits : List Bool}, bits.length ≤ 8 * n →
    unpackBits (packBytes n bits) = bits ++ List.replicate (8 * n - bits.length) false := by
  induction n with
  | zero =>
    intro bits h
    rw [List.eq_nil_of_length_eq_zero (Nat.le_zero.mp h)]
    rfl
  | succ n ih =>
    intro bits h
    have hdrop : (bits.drop 8).length ≤ 8 * n := by
      rw [List.length_drop]
      omega
    have hrest := ih hdrop
    have hbyte := unpackByte_packByte (List.length_take_le 8 bits)
    rw [unpackBits] at hrest ⊢
    rw [packBytes, List.flatMap_cons, hbyte, hrest]
    rcases Nat.le_total 8 bits.length with hle | hle
    · have htake : 8 - (bits.take 8).length = 0 := by
        rw [List.length_take]
        omega
      have hpad : 8 * n - (bits.drop 8).length = 8 * (n + 1) - bits.length := by
        rw [List.length_drop]
        omega
      rw [htake, hpad, List.replicate_zero, List.append_nil, ← List.append_assoc,
        List.take_append_drop]
    · rw [List.take_of_length_le hle, List.drop_eq_nil_of_le hle, List.length_nil, List.nil_append,
        List.append_assoc, List.replicate_append_replicate]
      congr 2
      omega

theorem length_packBytes (n : ℕ) (bits : List Bool) : (packBytes n bits).length = n := by
  induction n generalizing bits with
  | zero => rfl
  | succ n ih => rw [packBytes, List.length_cons, ih]

theorem inverts_readUInt256 :
    Inverts Set.univ readUInt256 fun hash : UInt256 ↦ leBytes 32 hash.toNat where
  read_append := by
    intro hash _ r
    rw [readUInt256, (Inverts.readNat 32).read_append hash.isLt]
    simp
  mem := fun _ ↦ trivial
  eq_append := by
    intro src r hash h
    simp only [readUInt256, Option.bind_eq_bind, Option.bind_eq_some_iff, Option.some.injEq,
      Prod.mk.injEq, Prod.exists] at h
    obtain ⟨n, src', hread, rfl, rfl⟩ := h
    have hlt : n < 2 ^ 256 := (Inverts.readNat 32).mem hread
    rw [BitVec.toNat_ofNat, Nat.mod_eq_of_lt hlt]
    exact (Inverts.readNat 32).eq_append hread

theorem readCompactSize_of_gt (hgt : MAX_SIZE < n) (hlt : n < 2 ^ 32) (r : List UInt8) :
    readCompactSize (writeCompactSize n ++ r) = none := by
  have hmax : 0x02000000 < n := hgt
  rw [writeCompactSize, if_neg (by omega), if_neg (by omega), if_pos (by omega), List.cons_append,
    readCompactSize, if_neg (by decide), if_neg (by decide), if_pos rfl, readWideSize,
    (Inverts.readNat 4).read_append hlt]
  simp [hgt]

namespace PartialMerkleTree

/-- What is read of a tree that has been written: the bits fill up the last byte. -/
def readBack (tree : PartialMerkleTree) : PartialMerkleTree :=
  ⟨tree.nTransactions, tree.vBits ++ List.replicate
    (8 * ((tree.vBits.length + 7) / 8) - tree.vBits.length) false, tree.vHash, false⟩

theorem unserialize_serialize {tree : PartialMerkleTree} (hhash : tree.vHash.length ≤ MAX_SIZE)
    (hbits : (tree.vBits.length + 7) / 8 ≤ MAX_SIZE) (r : List UInt8) :
    unserialize (tree.serialize ++ r) = some (tree.readBack, r) := by
  have hcount := (Inverts.readNat 4).read_append tree.nTransactions.toNat_lt
  have hvHash := (inverts_readVector inverts_readUInt256).read_append
    ⟨hhash, fun _ _ ↦ Set.mem_univ _⟩
  have hlength : (packBits tree.vBits).length ≤ MAX_SIZE := by
    rw [packBits, length_packBytes]
    exact hbits
  have hvBytes := inverts_readByteVector.read_append hlength
  have hunpack : unpackBits (packBits tree.vBits) = tree.readBack.vBits :=
    unpackBits_packBytes (by omega)
  simp only [unserialize, serialize, List.append_assoc, hcount, hvHash, hvBytes, hunpack,
    Option.bind_eq_bind, Option.bind_some, UInt32.ofNat_toNat]
  rfl

theorem unserialize_serialize_of_gt {tree : PartialMerkleTree} (hgt : MAX_SIZE < tree.vHash.length)
    (hlt : tree.vHash.length < 2 ^ 32) (r : List UInt8) :
    unserialize (tree.serialize ++ r) = none := by
  have hcount := (Inverts.readNat 4).read_append tree.nTransactions.toNat_lt
  simp only [unserialize, serialize, writeVector, List.append_assoc, hcount, readVector,
    readCompactSize_of_gt hgt hlt, Option.bind_eq_bind, Option.bind_some, Option.bind_none]

end PartialMerkleTree

/-! ## What is built -/

section Leaves

variable {α β : Type*}

theorem leavesBelow_succ (height pos : ℕ) (l : List α) : leavesBelow (height + 1) pos l =
      leavesBelow height (pos * 2) l ++ leavesBelow height (pos * 2 + 1) l := by
  have hpow : 2 ^ (height + 1) = 2 ^ height + 2 ^ height := by rw [pow_succ, Nat.mul_two]
  have hleft : pos * (2 ^ height + 2 ^ height) = pos * 2 * 2 ^ height := by ring
  rw [leavesBelow, leavesBelow, leavesBelow, hpow, hleft, List.take_add, List.drop_drop,
    Nat.succ_mul]

theorem leavesBelow_map (f : α → β) (height pos : ℕ) (l : List α) :
    leavesBelow height pos (l.map f) = (leavesBelow height pos l).map f := by
  rw [leavesBelow, leavesBelow, List.map_take, List.map_drop]

variable {height pos : ℕ} {l : List α}

theorem leavesBelow_eq_nil (h : l.length ≤ pos * 2 ^ height) : leavesBelow height pos l = [] := by
  rw [leavesBelow, List.drop_eq_nil_of_le h, List.take_nil]

theorem leavesBelow_zero (pos : ℕ) (l : List α) : leavesBelow 0 pos l = l[pos]?.toList := by
  rw [leavesBelow, pow_zero, Nat.mul_one, List.take_one, List.head?_drop]

theorem one_le_length_leavesBelow (h : pos * 2 ^ height < l.length) :
    1 ≤ (leavesBelow height pos l).length := by
  have hpow := Nat.two_pow_pos height
  rw [leavesBelow, List.length_take, List.length_drop]
  omega

def chosen (marked : List (α × Bool)) : List α := (marked.filter Prod.snd).map Prod.fst

theorem chosen_append (l l' : List (α × Bool)) : chosen (l ++ l') = chosen l ++ chosen l' := by
  rw [chosen, List.filter_append, List.map_append, chosen, chosen]

theorem chosen_eq_nil {l : List (α × Bool)} (h : l.any Prod.snd = false) : chosen l = [] := by
  rw [chosen, List.map_eq_nil_iff, List.filter_eq_nil_iff]
  intro entry hentry
  simpa using List.any_eq_false.mp h entry hentry

end Leaves

/-- The pruned tree that `TraverseAndBuild` writes. -/
def prune (H : List UInt8 → UInt256) (nTransactions : UInt32) (vTxid : List UInt256)
    (vMatch : List Bool) : ℕ → ℕ → PrunedTree UInt256
  | 0, pos =>
    if parentOfMatch nTransactions vMatch 0 pos then .hit (calcHash H nTransactions vTxid 0 pos)
    else .stub (calcHash H nTransactions vTxid 0 pos)
  | height + 1, pos =>
    if parentOfMatch nTransactions vMatch (height + 1) pos then
      if pos * 2 + 1 < calcTreeWidth nTransactions height then
        .double (prune H nTransactions vTxid vMatch height (pos * 2))
          (prune H nTransactions vTxid vMatch height (pos * 2 + 1))
      else .single (prune H nTransactions vTxid vMatch height (pos * 2))
    else .stub (calcHash H nTransactions vTxid (height + 1) pos)

section Prune

variable (H : List UInt8 → UInt256) (nTransactions : UInt32) (vTxid : List UInt256)
  (vMatch : List Bool)

theorem traverseAndBuild_eq (height pos : ℕ) :
    traverseAndBuild H nTransactions vTxid vMatch height pos =
      ((prune H nTransactions vTxid vMatch height pos).bits,
        (prune H nTransactions vTxid vMatch height pos).hashes) := by
  induction height generalizing pos with
  | zero =>
    rw [traverseAndBuild, prune]
    rcases parentOfMatch nTransactions vMatch 0 pos <;> rfl
  | succ height ih =>
    rw [traverseAndBuild, prune]
    split
    · split <;> simp [ih]
    · rfl

theorem fits_prune (height pos : ℕ) : (prune H nTransactions vTxid vMatch height pos).Fits
      (fun h p ↦ p * 2 + 1 < calcTreeWidth nTransactions h) height pos := by
  induction height generalizing pos with
  | zero =>
    rw [prune]
    split
    · exact .hit
    · exact .stub
  | succ height ih =>
    rw [prune]
    split
    · split
      next hwide => exact .double hwide (ih _) (ih _)
      next hwide => exact .single hwide (ih _)
    · exact .stub

theorem value_prune (height pos : ℕ) :
    (prune H nTransactions vTxid vMatch height pos).value (H ∘ merklePair) =
      calcHash H nTransactions vTxid height pos := by
  induction height generalizing pos with
  | zero =>
    rw [prune]
    split <;> rfl
  | succ height ih =>
    rw [prune, calcHash]
    split
    · split <;> simp [ih]
    · simp only [value]

end Prune

section Built

variable {H : List UInt8 → UInt256} {vTxid : List UInt256} {vMatch : List Bool}
  (hn : vTxid.length ≤ 2 ^ 30) (hlength : vMatch.length = vTxid.length)
include hn hlength

theorem parentOfMatch_eq (height pos : ℕ) :
    parentOfMatch (UInt32.ofNat vTxid.length) vMatch height pos =
      (leavesBelow height pos (vTxid.zip vMatch)).any Prod.snd := by
  have hcount : (UInt32.ofNat vTxid.length).toNat = vTxid.length :=
    UInt32.toNat_ofNat_of_lt' (by change vTxid.length < 2 ^ 32; omega)
  have hmarks : vMatch.take vTxid.length = (vTxid.zip vMatch).map Prod.snd := by
    rw [List.map_snd_zip hlength.le, ← hlength, List.take_length]
  rw [parentOfMatch, hcount, hmarks, leavesBelow_map, List.any_map]
  rfl

variable {height : ℕ}

theorem matched_prune (hh : height ≤ 31) (pos : ℕ) :
    (prune H (UInt32.ofNat vTxid.length) vTxid vMatch height pos).matched =
      chosen (leavesBelow height pos (vTxid.zip vMatch)) := by
  have hzip : (vTxid.zip vMatch).length = vTxid.length := by
    rw [List.length_zip, hlength, Nat.min_self]
  induction height generalizing pos with
  | zero =>
    rw [prune, parentOfMatch_eq hn hlength, leavesBelow_zero, calcHash]
    rcases hentry : (vTxid.zip vMatch)[pos]? with _ | ⟨hash, fMatch⟩
    · rfl
    · have hhash : vTxid[pos]? = some hash := (List.getElem?_zip_eq_some.mp hentry).1
      rw [List.getD_eq_getElem?_getD, hhash]
      rcases fMatch <;> rfl
  | succ height ih =>
    rw [prune, parentOfMatch_eq hn hlength]
    split
    case isTrue =>
      rw [leavesBelow_succ, chosen_append]
      split
      case isTrue => rw [matched, ih (by omega), ih (by omega)]
      case isFalse hwide =>
        rw [wide_iff hn (by omega), Nat.not_lt] at hwide
        rw [matched, ih (by omega), leavesBelow_eq_nil (hzip.le.trans hwide)]
        exact (List.append_nil _).symm
    case isFalse hany => exact (chosen_eq_nil (Bool.eq_false_of_not_eq_true hany)).symm

omit hlength in
theorem length_hashes_prune_le (hh : height ≤ 31) {pos : ℕ}
    (hpos : pos * 2 ^ height < vTxid.length) :
    (prune H (UInt32.ofNat vTxid.length) vTxid vMatch height pos).hashes.length ≤
      (leavesBelow height pos vTxid).length := by
  induction height generalizing pos with
  | zero =>
    rw [prune]
    split <;> exact one_le_length_leavesBelow hpos
  | succ height ih =>
    have hleft : pos * 2 * 2 ^ height < vTxid.length := by
      rwa [Nat.mul_assoc, ← pow_succ']
    rw [prune]
    split
    · rw [leavesBelow_succ, List.length_append]
      split
      case isTrue hwide =>
        rw [hashes, List.length_append]
        exact Nat.add_le_add (ih (by omega) hleft)
          (ih (by omega) ((wide_iff hn (by omega) _).mp hwide))
      case isFalse => exact (ih (by omega) hleft).trans (Nat.le_add_right _ _)
    · exact one_le_length_leavesBelow hpos

omit hlength in
theorem getElem?_iterate_level {height : ℕ} (hh : height ≤ 31) {pos : ℕ}
    (hpos : pos * 2 ^ height < vTxid.length) : ((level (H ∘ merklePair))^[height] vTxid)[pos]? =
      some (calcHash H (UInt32.ofNat vTxid.length) vTxid height pos) := by
  induction height generalizing pos with
  | zero =>
    rw [pow_zero, Nat.mul_one] at hpos
    rw [Function.iterate_zero, id, calcHash, List.getD_eq_getElem _ _ hpos,
      List.getElem?_eq_getElem hpos]
  | succ height ih =>
    have hleft : pos * 2 * 2 ^ height < vTxid.length := by
      rwa [Nat.mul_assoc, ← pow_succ']
    rw [Function.iterate_succ_apply', getElem?_level, Nat.mul_comm 2 pos,
      ih (by omega) hleft, calcHash]
    split
    case isTrue hwide =>
      rw [ih (by omega) ((wide_iff hn (by omega) _).mp hwide)]
      rfl
    case isFalse hwide =>
      have hend : ((level (H ∘ merklePair))^[height] vTxid)[pos * 2 + 1]? = none := by
        rw [List.getElem?_eq_none_iff, length_iterate_level, ← calcTreeWidth_eq hn (by omega)]
        exact Nat.le_of_not_lt hwide
      rw [hend]
      rfl

end Built

namespace PartialMerkleTree

/-! ## Completeness -/

section Complete

variable (H : List UInt8 → UInt256) {vTxid : List UInt256} {vMatch : List Bool}
  (hne : vTxid ≠ []) (hn : vTxid.length ≤ 2 ^ 30) (hlength : vMatch.length = vTxid.length)

/-- The pruned tree that the constructor writes. -/
def built (vTxid : List UInt256) (vMatch : List Bool) : PrunedTree UInt256 :=
  prune H (UInt32.ofNat vTxid.length) vTxid vMatch (treeHeight (UInt32.ofNat vTxid.length)) 0

theorem vBits_build (vTxid : List UInt256) (vMatch : List Bool) :
    (build H vTxid vMatch).vBits = (built H vTxid vMatch).bits := by
  rw [build, traverseAndBuild_eq]
  rfl

theorem vHash_build (vTxid : List UInt256) (vMatch : List Bool) :
    (build H vTxid vMatch).vHash = (built H vTxid vMatch).hashes := by
  rw [build, traverseAndBuild_eq]
  rfl

include hne hn

theorem treeHeight_length : treeHeight (UInt32.ofNat vTxid.length) = Nat.clog 2 vTxid.length :=
  treeHeight_eq hn (List.length_pos_iff.mpr hne)

omit hne in
theorem clog_length_le : Nat.clog 2 vTxid.length ≤ 31 :=
  (Nat.clog_le_of_le_pow hn).trans (by decide)

theorem value_built :
    (built H vTxid vMatch).value (H ∘ merklePair) = merkleRoot H vTxid.length vTxid := by
  have hpos : 0 * 2 ^ Nat.clog 2 vTxid.length < vTxid.length := by
    rw [Nat.zero_mul]
    exact List.length_pos_iff.mpr hne
  have hroot := @getElem?_iterate_level H vTxid hn _ (clog_length_le hn) 0 hpos
  rw [iterate_clog hne 0, List.getElem?_cons_zero] at hroot
  rw [built, value_prune, treeHeight_length hne hn, merkleRoot_eq]
  exact (Option.some.inj hroot).symm

theorem length_hashes_built_le : (built H vTxid vMatch).hashes.length ≤ vTxid.length := by
  rw [built, treeHeight_length hne hn]
  refine (length_hashes_prune_le hn (clog_length_le hn) ?_).trans ?_
  · rw [Nat.zero_mul]
    exact List.length_pos_iff.mpr hne
  · rw [leavesBelow, Nat.zero_mul, List.drop_zero]
    exact List.length_take_le' _ _

theorem length_bits_built_lt :
    (built H vTxid vMatch).bits.length < 2 ^ (Nat.clog 2 vTxid.length + 1) := by
  rw [← treeHeight_length hne hn]
  exact (fits_prune H _ vTxid vMatch _ 0).length_bits_lt

include hlength

theorem matched_built : (built H vTxid vMatch).matched = chosen (vTxid.zip vMatch) := by
  have hall : leavesBelow (Nat.clog 2 vTxid.length) 0 (vTxid.zip vMatch) = vTxid.zip vMatch := by
    rw [leavesBelow, Nat.zero_mul, List.drop_zero]
    refine List.take_of_length_le ?_
    rw [List.length_zip, hlength, Nat.min_self]
    exact Nat.le_pow_clog one_lt_two _
  rw [built, treeHeight_length hne hn, matched_prune hn hlength (clog_length_le hn), hall]

theorem extractMatches_readBack : (build H vTxid vMatch).readBack.extractMatches H =
    (merkleRoot H vTxid.length vTxid, chosen (vTxid.zip vMatch)) := by
  have hcount : (UInt32.ofNat vTxid.length).toNat = vTxid.length :=
    UInt32.toNat_ofNat_of_lt' (by change vTxid.length < 2 ^ 32; omega)
  have hpos := List.length_pos_iff.mpr hne
  have hhashes := @length_hashes_built_le H vTxid vMatch hne hn
  have hle := (built H vTxid vMatch).length_hashes_le
  have hvBits : (build H vTxid vMatch).readBack.vBits = (built H vTxid vMatch).bits ++
      List.replicate (8 * (((built H vTxid vMatch).bits.length + 7) / 8) -
        (built H vTxid vMatch).bits.length) false := by
    rw [readBack, vBits_build]
  have hvHash : (build H vTxid vMatch).readBack.vHash = (built H vTxid vMatch).hashes :=
    vHash_build H vTxid vMatch
  have hread := @traverseAndExtract_eq (build H vTxid vMatch).readBack H _ 0 _
    (fits_prune H (UInt32.ofNat vTxid.length) vTxid vMatch (treeHeight _) 0) ⟨0, 0, [], false⟩
    _ [] hvBits (by rw [List.append_nil]; exact hvHash)
  rw [← built, value_built H hne hn, matched_built H hne hn hlength, Nat.zero_add, Nat.zero_add,
    List.nil_append] at hread
  refine extractMatches_of_traversal (fun hzero ↦ ?_) ?_ ?_ hread rfl ?_ ?_
  · rw [show (build H vTxid vMatch).readBack.nTransactions = UInt32.ofNat vTxid.length from rfl]
      at hzero
    rw [hzero] at hcount
    exact absurd hcount (Nat.ne_of_lt hpos)
  · rw [hvHash]
    exact hhashes.trans hcount.ge
  · rw [hvHash, hvBits, List.length_append]
    omega
  · rw [hvBits, List.length_append, List.length_replicate]
    dsimp only
    omega
  · rw [hvHash]

omit hlength hn in
theorem readable_of_length_le (hmax : vTxid.length ≤ MAX_SIZE) :
    (build H vTxid vMatch).vHash.length ≤ MAX_SIZE ∧
      ((build H vTxid vMatch).vBits.length + 7) / 8 ≤ MAX_SIZE := by
  have hsize : MAX_SIZE = 2 ^ 25 := rfl
  have hn : vTxid.length ≤ 2 ^ 30 := by omega
  have hhashes := @length_hashes_built_le H vTxid vMatch hne hn
  have hbits := @length_bits_built_lt H vTxid vMatch hne hn
  have hclog : Nat.clog 2 vTxid.length ≤ 25 := Nat.clog_le_of_le_pow hmax
  have hpow : 2 ^ (Nat.clog 2 vTxid.length + 1) ≤ 2 ^ 26 :=
    Nat.pow_le_pow_right two_pos (by omega)
  rw [vHash_build, vBits_build]
  exact ⟨hhashes.trans hmax, by omega⟩

omit hn in
/-- **Completeness.** What is built for a list of hashes that can be read, written and read again,
has the root of the list and the hashes that are marked. -/
theorem extractMatches_build (hmax : vTxid.length ≤ MAX_SIZE) :
    ∃ tree, unserialize (build H vTxid vMatch).serialize = some (tree, []) ∧
      tree.extractMatches H = (merkleRoot H vTxid.length vTxid, chosen (vTxid.zip vMatch)) := by
  obtain ⟨hhash, hbits⟩ := @readable_of_length_le H vTxid vMatch hne hmax
  have hread := unserialize_serialize hhash hbits []
  rw [List.append_nil] at hread
  exact ⟨_, hread, extractMatches_readBack H hne (hmax.trans (by decide)) hlength⟩

end Complete

/-- The second of three hashes. -/
theorem extractMatches_build_three :
    ∃ tree, unserialize (build Sha256.sha256d [5, 6, 7] [false, true, false]).serialize =
        some (tree, []) ∧
      tree.extractMatches Sha256.sha256d = (merkleRoot Sha256.sha256d 3 [5, 6, 7], [6]) := by
  exact @extractMatches_build Sha256.sha256d [5, 6, 7] [false, true, false] (by decide) (by decide)
    (by decide)

/-- Of `MAX_SIZE + 1` hashes that are all marked, none comes through. -/
theorem unserialize_build_replicate : unserialize (build Sha256.sha256d
    (List.replicate (MAX_SIZE + 1) 0) (List.replicate (MAX_SIZE + 1) true)).serialize = none := by
  have hsize : MAX_SIZE = 2 ^ 25 := rfl
  have hlength : (List.replicate (MAX_SIZE + 1) (0 : UInt256)).length = MAX_SIZE + 1 :=
    List.length_replicate
  have hn : (List.replicate (MAX_SIZE + 1) (0 : UInt256)).length ≤ 2 ^ 30 := by omega
  have hne : List.replicate (MAX_SIZE + 1) (0 : UInt256) ≠ [] := List.cons_ne_nil _ _
  have hmatched :=
    @matched_built Sha256.sha256d _ (List.replicate (MAX_SIZE + 1) true) hne hn (by simp)
  have hle := (built Sha256.sha256d (List.replicate (MAX_SIZE + 1) 0)
    (List.replicate (MAX_SIZE + 1) true)).length_matched_le
  rw [hmatched, chosen, List.zip_replicate, Nat.min_self, List.filter_replicate] at hle
  have hhashes := @length_hashes_built_le Sha256.sha256d _ (List.replicate (MAX_SIZE + 1) true)
    hne hn
  have hnone := @unserialize_serialize_of_gt (build Sha256.sha256d
      (List.replicate (MAX_SIZE + 1) 0) (List.replicate (MAX_SIZE + 1) true))
    (by rw [vHash_build]; exact Nat.lt_of_succ_le (by simpa using hle))
    (by rw [vHash_build]; omega) []
  rwa [List.append_nil] at hnone


end PartialMerkleTree

end Cryptonite
