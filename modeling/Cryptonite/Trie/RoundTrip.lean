import Cryptonite.Trie.Prove
import Cryptonite.Trie.SliceCorrect

/-!
# From `SubTrie` to `Deserialize`

A node that answers a request for a range writes a slice with `SubTrie`, the other side reads it
with `Deserialize` and examines it with `Prove`. What travels is described by `cut`: the trie with
every child outside the range replaced by its digest. `SubTrie` writes the encoding of `cut`
(`subTrie_out`), the decoder reads it back (`deserialize_encode`), the children that are cut off
have no key of the range (`hidden_cut`), and the right-most path of `cut` never ends too early for
`Prove` (`not_refused_cut`).
-/

namespace Cryptonite

open Patricia Codec

variable {H : List UInt8 → UInt256} {left right : UInt160}

/-! ## The encoding of a tree -/

/-- The bytes of a tree, type byte first. -/
def encode : TrieNode → List UInt8
  | .leaf _ k v => NodeType.leaf.toByte :: leafPreimage k v
  | .node _ key bits l r => NodeType.branch.toByte :: UInt8.ofNat bits ::
      (leBytes 20 key.toNat ++ (encode l ++ encode r))
  | .stub h => NodeType.hash.toByte :: leBytes 32 h.toNat

/-- A tree the decoder could have made. -/
def Blank : TrieNode → Prop
  | .leaf c _ _ => c = NodeCache.newLeaf
  | .node c _ bits l r => c = NodeCache.newBranch ∧ bits < 256 ∧ Blank l ∧ Blank r
  | .stub _ => True

theorem length_encode_ge (t : TrieNode) : 33 ≤ (encode t).length := by
  induction t with
  | leaf c k v => simp [encode, length_leafPreimage]
  | node c key bits l r ihl ihr => simp only [encode, List.length_cons, List.length_append]; omega
  | stub h => simp [encode]

theorem ofByte_toByte (type : NodeType) : NodeType.ofByte type.toByte = some type := by
  cases type <;> rfl

theorem deserializeLeaf_leafPreimage (k : UInt160) (v : AccountData) (more : List UInt8) :
    deserializeLeaf (leafPreimage k v ++ more) = some (.leaf NodeCache.newLeaf k v, 52) := by
  have hword : ∀ x : UInt64, UInt64.ofNat (leNat (leBytes 8 x.toNat)) = x := fun x ↦ by
    rw [leNat_leBytes_of_lt (by exact x.toNat_lt), UInt64.ofNat_toNat]
  have hkey : BitVec.ofNat 160 (leNat (leBytes 20 k.toNat)) = k := by
    rw [leNat_leBytes_of_lt (by exact k.isLt), BitVec.ofNat_toNat, BitVec.setWidth_eq]
  have hlen : ¬(leafPreimage k v ++ more).length < 52 := by
    rw [List.length_append, length_leafPreimage]
    omega
  rw [deserializeLeaf, if_neg hlen]
  simp [leafPreimage, List.drop_append, List.drop_of_length_le, hword, hkey]

variable {key : UInt160} {bits max : ℕ} {t : TrieNode} {buf buf' : SliceBuf}

theorem Reads.of_children {typeL typeR : NodeType} {l r : TrieNode} {bytesL bytesR : List UInt8}
    (hbits : bits < 256) (hlenL : 20 ≤ bytesL.length) (hlenR : 20 ≤ bytesR.length)
    (hl : ∀ more, Reads typeL (bytesL ++ more) l bytesL.length)
    (hr : ∀ more, Reads typeR (bytesR ++ more) r bytesR.length) (more : List UInt8) :
    Reads .branch ((UInt8.ofNat bits :: leBytes 20 key.toNat) ++ (typeL.toByte ::
        (bytesL ++ (typeR.toByte :: (bytesR ++ more)))))
      (.node NodeCache.newBranch key bits l r) (23 + bytesL.length + bytesR.length) := by
  have hdrop : ((UInt8.ofNat bits :: leBytes 20 key.toNat) ++ (typeL.toByte ::
      (bytesL ++ (typeR.toByte :: (bytesR ++ more))))).drop 21
      = typeL.toByte :: (bytesL ++ (typeR.toByte :: (bytesR ++ more))) :=
    List.drop_left' (by simp)
  have hread := @Reads.branch ((UInt8.ofNat bits :: leBytes 20 key.toNat) ++ (typeL.toByte ::
      (bytesL ++ (typeR.toByte :: (bytesR ++ more))))) (typeR.toByte :: (bytesR ++ more)) typeL
    typeR l r bytesL.length bytesR.length (by simp; omega) (by rw [hdrop]; simp; omega)
    (by rw [hdrop]; exact ofByte_toByte typeL) (by rw [hdrop]; exact hl _)
    (by rw [hdrop]; exact (List.drop_left' rfl).symm) (by simp; omega) (ofByte_toByte typeR)
    (hr more)
  have hkey : BitVec.ofNat 160 (leNat (leBytes 20 key.toNat)) = key := by
    rw [leNat_leBytes_of_lt (by exact key.isLt), BitVec.ofNat_toNat, BitVec.setWidth_eq]
  rw [List.cons_append, List.drop_succ_cons, List.drop_zero,
    List.take_left' (length_leBytes 20 key.toNat), hkey, List.headD_cons,
    UInt8.toNat_ofNat_of_lt' hbits] at hread
  exact hread

/-- The decoder reads a tree back from its encoding, and takes all of it. -/
theorem reads_encode : ∀ {t : TrieNode}, Blank t → ∃ type bytes,
    encode t = NodeType.toByte type :: bytes ∧
      ∀ more, Reads type (bytes ++ more) t bytes.length := by
  intro t
  induction t with
  | leaf c k v =>
    intro hblank
    refine ⟨.leaf, leafPreimage k v, rfl, fun more ↦ ?_⟩
    rw [length_leafPreimage, (hblank : c = NodeCache.newLeaf)]
    exact .leaf (deserializeLeaf_leafPreimage k v more)
  | stub h =>
    intro _
    refine ⟨.hash, leBytes 32 h.toNat, rfl, fun more ↦ ?_⟩
    have hread : Reads .hash (leBytes 32 h.toNat ++ more) _ 32 := .hash (by simp)
    rwa [List.take_left' (length_leBytes 32 h.toNat), leNat_leBytes_of_lt (by exact h.isLt),
      BitVec.ofNat_toNat, BitVec.setWidth_eq, ← length_leBytes 32 h.toNat] at hread
  | node c key bits l r ihl ihr =>
    rintro ⟨rfl, hbits, hl, hr⟩
    obtain ⟨typeL, bytesL, hencL, hreadL⟩ := ihl hl
    obtain ⟨typeR, bytesR, hencR, hreadR⟩ := ihr hr
    have hlenL := length_encode_ge l
    have hlenR := length_encode_ge r
    rw [hencL, List.length_cons] at hlenL
    rw [hencR, List.length_cons] at hlenR
    refine ⟨.branch, UInt8.ofNat bits :: (leBytes 20 key.toNat ++ (encode l ++ encode r)), rfl,
      fun more ↦ ?_⟩
    have hsrc : UInt8.ofNat bits :: (leBytes 20 key.toNat ++ (encode l ++ encode r)) ++ more
        = (UInt8.ofNat bits :: leBytes 20 key.toNat) ++ (typeL.toByte ::
          (bytesL ++ (typeR.toByte :: (bytesR ++ more)))) := by
      rw [hencL, hencR]
      simp
    have hlen : (UInt8.ofNat bits :: (leBytes 20 key.toNat ++ (encode l ++ encode r))).length
        = 23 + bytesL.length + bytesR.length := by
      rw [hencL, hencR]
      simp
      omega
    rw [hsrc, hlen]
    exact .of_children hbits (by omega) (by omega) hreadL hreadR more

theorem deserialize_encode (h : Blank t) : deserialize (encode t) = some (findChildren t).2 := by
  obtain ⟨type, bytes, henc, hread⟩ := reads_encode h
  refine deserialize_eq_some_iff.mpr ⟨length_encode_ge t, type, t, bytes.length, ?_, ?_, rfl⟩
  · rw [henc]
    exact ofByte_toByte type
  · rw [henc]
    simpa using hread []

theorem erase_findChildren (t : TrieNode) : (findChildren t).2.erase = t.erase := by
  induction t with
  | leaf c k v => rfl
  | node c key bits l r ihl ihr => rw [findChildren, Trie.erase, Trie.erase, ihl, ihr]
  | stub h => rfl

theorem leaves_findChildren (t : TrieNode) : (findChildren t).2.leaves = t.leaves := by
  induction t with
  | leaf c k v => rfl
  | node c key bits l r ihl ihr => rw [findChildren, Trie.leaves, Trie.leaves, ihl, ihr]
  | stub h => rfl

theorem placed_findChildren : ∀ {d : ℕ} {p : UInt160}, t.Placed d p →
    (findChildren t).2.Placed d p := by
  induction t with
  | leaf c k v => exact id
  | node c key bits l r ihl ihr =>
    exact fun ⟨hb, hk, hl, hr⟩ ↦ ⟨hb, hk, ihl hl, ihr hr⟩
  | stub h => exact id

theorem endsHidden_of_findChildren {t : TrieNode} : ∀ {d : ℕ} {p : UInt160},
    EndsHidden right d p (findChildren t).2 → EndsHidden right d p t := by
  induction t with
  | leaf c k v => exact id
  | node c key bits l r _ ihr => exact fun h ↦ ⟨h.1, ihr h.2⟩
  | stub h => exact id

/-! ## The tree that is written -/

/-- The slice of a trie below the prefix `p` of length `d`: a child is shown by its digest when it
lies before `left`, and a right child also when it begins after `right`. -/
def cut (H : List UInt8 → UInt256) (left right : UInt160) :
    ℕ → UInt160 → Bool → TrieNode → TrieNode
  | _, _, true, t => .stub (digest H t)
  | _, _, false, .leaf _ k v => .leaf NodeCache.newLeaf k v
  | d, p, false, .node _ key bits l r =>
    let mid := descend d p key bits true
    .node NodeCache.newBranch key bits
      (cut H left right (d + bits + 1) (descend d p key bits false) (decide (mid ≤ left)) l)
      (cut H left right (d + bits + 1) mid
        (decide (mid < truncate left (d + bits + 1)) || decide (right < mid)) r)
  | _, _, false, .stub h => .stub h

theorem cut_true (d : ℕ) (p : UInt160) (t : TrieNode) :
    cut H left right d p true t = .stub (digest H t) := by rw [cut]

theorem blank_cut : ∀ {t : TrieNode} {d : ℕ} {p : UInt160} {hashOnly : Bool}, t.Canon d p →
    Blank (cut H left right d p hashOnly t) := by
  intro t
  induction t with
  | leaf c k v =>
    intro d p hashOnly _
    rcases hashOnly with _ | _
    · rfl
    · trivial
  | node c key bits l r ihl ihr =>
    rintro d p hashOnly ⟨hb, -, hl, hr⟩
    rcases hashOnly with _ | _
    · exact ⟨rfl, by omega, ihl hl, ihr hr⟩
    · trivial
  | stub h => exact fun hcanon ↦ hcanon.elim

theorem collapses_cut : ∀ {t : TrieNode} {d : ℕ} {p : UInt160} {hashOnly : Bool}, t.Canon d p →
    Trie.Collapses (digest H) t (cut H left right d p hashOnly t) := by
  intro t
  induction t with
  | leaf c k v =>
    intro d p hashOnly _
    rcases hashOnly with _ | _
    · exact .leaf _ _ k v
    · exact .stub _
  | node c key bits l r ihl ihr =>
    rintro d p hashOnly ⟨-, -, hl, hr⟩
    rcases hashOnly with _ | _
    · exact .node _ _ key bits (ihl hl) (ihr hr)
    · exact .stub _
  | stub h => exact fun hcanon ↦ hcanon.elim

/-- A child that is cut off has no key of the range. -/
theorem hidden_cut : ∀ {t : TrieNode} {d : ℕ} {p : UInt160}, SupportedIn 0 d p → t.Canon d p →
    ∀ u ∈ Trie.hidden t (cut H left right d p false t), ∀ x, left ≤ x → x ≤ right →
      u.toMap x = none := by
  intro t
  induction t with
  | leaf c k v => exact fun _ _ u hu ↦ absurd hu List.not_mem_nil
  | node c key bits l r ihl ihr =>
    intro d p hp hcanon u hu x hleft hright
    obtain ⟨hb, hk, hl, hr⟩ := hcanon
    have hpl := supportedIn_descend hp hb hk false
    have hpr := supportedIn_descend hp hb hk true
    rw [cut, Trie.hidden, List.mem_append] at hu
    rcases hu with hu | hu
    · by_cases hcut : descend d p key bits true ≤ left
      · rw [decide_eq_true hcut, cut_true, Trie.mem_hidden_stub] at hu
        rw [hu]
        refine hl.toMap_eq_none hpl fun hx ↦ BitVec.lt_irrefl x ?_
        exact Std.lt_of_lt_of_le (lt_descend_true hp hb hk hx) (BitVec.le_trans hcut hleft)
      · rw [decide_eq_false hcut] at hu
        exact ihl hpl hl u hu x hleft hright
    · by_cases hcut : descend d p key bits true < truncate left (d + bits + 1) ∨
          right < descend d p key bits true
      · rw [← Bool.decide_or, decide_eq_true hcut, cut_true, Trie.mem_hidden_stub] at hu
        rw [hu]
        refine hr.toMap_eq_none hpr fun hx ↦ BitVec.lt_irrefl x ?_
        rcases hcut with hlt | hlt
        · exact Std.lt_of_lt_of_le (hx.lt_of_lt_truncate hlt) hleft
        · exact Std.lt_of_le_of_lt hright (Std.lt_of_lt_of_le hlt (hx.le hpr))
      · rw [← Bool.decide_or, decide_eq_false hcut] at hu
        exact ihr hpr hr u hu x hleft hright
  | stub h => exact fun _ hcanon ↦ hcanon.elim

theorem hashRight_eq_false {mid : UInt160} (hlt : left < mid) (hle : mid ≤ right) (n : ℕ) :
    (decide (mid < truncate left n) || decide (right < mid)) = false := by
  rw [Bool.or_eq_false_iff, decide_eq_false_iff_not, decide_eq_false_iff_not]
  exact ⟨fun h ↦ BitVec.lt_asymm hlt (Std.lt_of_lt_of_le h (and_le left _)), BitVec.not_lt.mpr hle⟩

theorem not_endsHidden_cut : ∀ {t : TrieNode} {d : ℕ} {p : UInt160}, t.Canon d p → left < p →
    ¬EndsHidden right d p (cut H left right d p false t) := by
  intro t
  induction t with
  | leaf c k v => exact fun _ _ h ↦ h
  | node c key bits l r _ ihr =>
    intro d p hcanon hlt h
    have hmid := Std.lt_of_lt_of_le hlt (le_descend d p key bits true)
    rw [cut, EndsHidden, hashRight_eq_false hmid h.1] at h
    exact ihr hcanon.2.2.2 hmid h.2
  | stub h => exact fun hcanon ↦ hcanon.elim

theorem not_refused_cut (hcanon : t.Canon 0 0) :
    ¬Refused left right (findChildren (cut H left right 0 0 false t)).2 := by
  rcases t with ⟨c, k, v⟩ | ⟨c, key, bits, l, r⟩ | h
  · exact nofun
  · intro hrefused
    obtain ⟨hroot, hends⟩ := refused_node_iff.mp hrefused
    have hends := @endsHidden_of_findChildren right
      (cut H left right 0 0 false (.node c key bits l r)) 0 0 hends
    rw [cut, EndsHidden, hashRight_eq_false hroot hends.1] at hends
    exact not_endsHidden_cut hcanon.2.2.2 hroot hends.2
  · exact hcanon.elim

/-! ## What `SubTrie` writes -/

theorem hashNode_out {max : ℕ} {buf buf' : SliceBuf} {t t' : TrieNode}
    (hcoherent : TrieNode.Coherent H t) (h : hashNode H max buf t = (true, buf', t')) :
    buf'.out = buf.out ++ encode (.stub (digest H t)) := by
  rw [hashNode] at h
  split at h
  · cases h
  · rw [Prod.mk.injEq, Prod.mk.injEq] at h
    rw [← h.2.1, (hcoherent.hash_spec).1]
    rfl

theorem serializeLeaf_out {k : UInt160} {v : AccountData}
    (h : serializeLeaf max buf k v = (true, buf')) :
    buf'.out = buf.out ++ encode (.leaf NodeCache.newLeaf k v) := by
  rw [serializeLeaf] at h
  split at h
  · cases h
  · dsimp only at h
    split at h
    · cases h
    · rw [Prod.mk.injEq] at h
      rw [← h.2]
      simp [SliceBuf.push, encode]

theorem serializeBranch_out (h : serializeBranch max buf key bits = (true, buf')) :
    buf'.out = buf.out ++ (NodeType.branch.toByte :: UInt8.ofNat bits :: leBytes 20 key.toNat) := by
  rw [serializeBranch] at h
  split at h
  · cases h
  · rw [Prod.mk.injEq] at h
    rw [← h.2]
    rfl

theorem or_shl_eq_descend {d : ℕ} {p : UInt160} (hb : d + bits < 160) :
    p ||| key ||| shl 1 (sub32 (sub32 160 (d + bits)) 1) = descend d p key bits true := by
  rw [sub32_of_le hb.le (by norm_num), sub32_of_le (by omega) (by omega), shl_eq, descend, sideBit,
    bitAt]
  congr 2
  omega

/-- `SubTrie` writes the encoding of the slice. -/
theorem subTrie_out : ∀ {t t' : TrieNode} {d : ℕ} {p : UInt160} {hashOnly : Bool}
    {buf buf' : SliceBuf}, SupportedIn 0 d p → t.Canon d p → TrieNode.Coherent H t →
      subTrie H left right max t p d hashOnly buf = .ok (true, buf', t') →
      buf'.out = buf.out ++ encode (cut H left right d p hashOnly t) := by
  have hhash : ∀ {t t' : TrieNode} {d : ℕ} {p : UInt160} {buf buf' : SliceBuf},
      TrieNode.Coherent H t → subTrie H left right max t p d true buf = .ok (true, buf', t') →
      buf'.out = buf.out ++ encode (cut H left right d p true t) := by
    intro t t' d p buf buf' hcoherent h
    rw [cut_true]
    refine @hashNode_out H max buf buf' t t' hcoherent ?_
    rcases t with _ | _ | _ <;> exact Except.ok.inj h
  intro t
  induction t with
  | leaf c k v =>
    intro t' d p hashOnly buf buf' hp hcanon hcoherent h
    rcases hashOnly with _ | _
    · rcases hleaf : serializeLeaf max { buf with nodes := buf.nodes + 1 } k v with ⟨ok, out⟩
      rw [subTrie, hleaf] at h
      obtain ⟨rfl, rfl, -⟩ : ok = true ∧ out = buf' ∧ _ = t' := by
        simpa [pure, Except.pure] using h
      have hout := serializeLeaf_out hleaf
      exact hout
    · exact hhash hcoherent h
  | node c key nbits l r ihl ihr =>
    intro t' d p hashOnly buf buf' hp hcanon hcoherent h
    rcases hashOnly with _ | _
    · obtain ⟨hb, hk, hl, hr⟩ := hcanon
      have hlow : p ||| key = descend d p key nbits false := (BitVec.or_zero).symm
      rw [subTrie] at h
      dsimp only at h
      rw [or_shl_eq_descend hb, highMask_eq, hlow] at h
      split at h
      · simp [pure, Except.pure] at h
      · next buf₀ hbranch =>
        obtain ⟨⟨_ | _, buf₁, l'⟩, hsubL, h⟩ := Except.bind_eq_ok_iff.mp h
        · simp [pure, Except.pure] at h
        · obtain ⟨⟨ok, buf₂, r'⟩, hsubR, h⟩ := Except.bind_eq_ok_iff.mp h
          obtain ⟨rfl, rfl, -⟩ : ok = true ∧ buf₂ = buf' ∧ _ = t' := by
            simpa [pure, Except.pure] using h
          have houtL := ihl (supportedIn_descend hp hb hk false) hl hcoherent.2.1 hsubL
          have houtR := ihr (supportedIn_descend hp hb hk true) hr hcoherent.2.2 hsubR
          rw [decide_eq_decide.mpr (lt_truncate_iff hp hb hk)] at houtL
          rw [houtR, houtL, serializeBranch_out hbranch, cut, encode, List.append_assoc,
            List.append_assoc, List.cons_append, List.cons_append]
    · exact hhash hcoherent h
  | stub h => exact fun _ hcanon ↦ hcanon.elim

/-! ## The round trip -/

section RoundTrip

variable {trie trie' : TrieNode} {max : ℕ} {nodes : UInt32} {buf : SliceBuf}

theorem deserialize_of_subTrie (hcanon : trie.Canon 0 0) (hcoherent : TrieNode.Coherent H trie)
    (h : subTrie H left right max trie 0 0 false ⟨[], nodes⟩ = .ok (true, buf, trie')) :
    buf.out = encode (cut H left right 0 0 false trie) ∧
      deserialize buf.out = some (findChildren (cut H left right 0 0 false trie)).2 := by
  have hout := subTrie_out (supportedIn_zero 0 0) hcanon hcoherent h
  rw [List.nil_append] at hout
  exact ⟨hout, hout ▸ deserialize_encode (blank_cut hcanon)⟩

theorem toMap_cut (hcanon : trie.Canon 0 0) {k : UInt160} (hleft : left ≤ k) (hright : k ≤ right)
    {v : AccountData} (hv : trie.toMap k = some v) :
    (cut H left right 0 0 false trie).toMap k = some v := by
  have hview := @collapses_cut H left right trie 0 0 false hcanon
  have hshows := (hview.shows_iff (supportedIn_zero 0 0) hcanon
    {k | left ≤ k ∧ k ≤ right}).mpr fun u hu k hk ↦
      hidden_cut (supportedIn_zero 0 0) hcanon u hu k hk.1 hk.2
  exact hshows k ⟨hleft, hright⟩ v hv

theorem digest_of_collapses {t s : TrieNode} (h : Trie.Collapses (digest H) t s) :
    digest H s = digest H t := by
  induction h with
  | leaf c c' k v => rfl
  | node c c' key bits _ _ ihl ihr => rw [digest, digest, ihl, ihr]
  | stub t => rfl

/-- **Honest slices are accepted.** What `SubTrie` writes for a range decodes, and `Prove` accepts
it for that range. -/
theorem honest_slice_accepted (htrie : Valid H trie)
    (h : subTrie H left right max trie 0 0 false ⟨[], nodes⟩ = .ok (true, buf, trie')) :
    ∃ slice, deserialize buf.out = some slice ∧ prove (some slice) left right = true := by
  refine ⟨_, (deserialize_of_subTrie htrie.canon htrie.coherent h).2, (prove_eq_true_iff ?_).mpr ?_⟩
  · exact placed_findChildren ((collapses_cut htrie.canon).placed htrie.canon)
  · exact not_refused_cut htrie.canon

/-- **Slices are faithful.** What `SubTrie` writes for a range decodes to a tree with the hash of
the trie and with every account of the range, and the decoder takes every byte. -/
theorem slice_faithful (htrie : Valid H trie)
    (h : subTrie H left right max trie 0 0 false ⟨[], nodes⟩ = .ok (true, buf, trie')) :
    ∃ slice, deserialize buf.out = some slice ∧
      (TrieNode.hash H slice).1 = (TrieNode.hash H trie).1 ∧
      (∀ k, left ≤ k → k ≤ right → ∀ v, trie.toMap k = some v → slice.toMap k = some v) ∧
      ∃ type root, NodeType.ofByte (buf.out.headD 0) = some type ∧
        deserializeI buf.out.tail.length type buf.out.tail = some (root, buf.out.tail.length) ∧
        (findChildren root).2 = slice := by
  obtain ⟨hout, hslice⟩ := deserialize_of_subTrie htrie.canon htrie.coherent h
  have hview := @collapses_cut H left right trie 0 0 false htrie.canon
  refine ⟨_, hslice, ?_, ?_, ?_⟩
  · rw [((received_of_deserialize hslice).coherent.hash_spec).1, (htrie.coherent.hash_spec).1,
      ← digest_erase, erase_findChildren, digest_erase, digest_of_collapses hview]
  · rw [Trie.toMap_congr (erase_findChildren _)]
    exact fun k hleft hright v hv ↦ toMap_cut htrie.canon hleft hright hv
  · obtain ⟨type, bytes, henc, hread⟩ := reads_encode
      (@blank_cut H left right trie 0 0 false htrie.canon)
    refine ⟨type, _, ?_, (deserializeI_eq_some_iff le_rfl).mpr ?_, rfl⟩
    · rw [hout, henc]
      exact ofByte_toByte type
    · rw [hout, henc]
      simpa using hread []

end RoundTrip

set_option maxRecDepth 10000 in
theorem subTrie_upper : ∃ buf trie',
    subTrie Sha256.sha256d (bitAt 0) (BitVec.allOnes 160) 1000 twoAccounts 0 0 false ⟨[], 0⟩
      = .ok (true, buf, trie') ∧ buf.out = upperBytes := by
  refine ⟨⟨upperBytes, 1⟩, .node { NodeCache.newBranch with children := 2 } 0 0
    (TrieNode.hash Sha256.sha256d (.leaf NodeCache.newLeaf 0 .init)).2
    (.leaf NodeCache.newLeaf (bitAt 0) .init), ?_, rfl⟩
  decide +kernel

/-- The upper half is accepted. -/
theorem honest_slice_accepted_upper :
    ∃ slice, deserialize upperBytes = some slice ∧
      prove (some slice) (bitAt 0) (BitVec.allOnes 160) = true := by
  obtain ⟨buf, trie', h, hout⟩ := subTrie_upper
  exact hout ▸ honest_slice_accepted valid_twoAccounts h

/-- The upper half is read back. -/
theorem slice_faithful_upper :
    ∃ slice, deserialize upperBytes = some slice ∧
      (TrieNode.hash Sha256.sha256d slice).1 = (TrieNode.hash Sha256.sha256d twoAccounts).1 ∧
      slice.toMap (bitAt 0) = some .init := by
  obtain ⟨buf, trie', h, hout⟩ := subTrie_upper
  obtain ⟨slice, hslice, hhash, hshows, -⟩ := slice_faithful valid_twoAccounts h
  exact ⟨slice, hout ▸ hslice, hhash, hshows (bitAt 0) (by decide) (by decide) .init (by decide)⟩

end Cryptonite
