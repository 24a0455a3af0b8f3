import Cryptonite.Trie.Prove

/-!
# Accepting a slice

`TrieSync::AcceptSlice` of `triesync.cpp`: a slice that was asked for arrives, is decoded, compared
with the account root of its block and handed to `Prove`. The buffer is decoded as if it were
`MAX_TRIE_SLICE_SIZE` bytes long, so that whatever follows it in memory is an argument here.

A slice with the right hash is the account trie with some subtrees collapsed, and `Prove` should
make sure that no collapsed subtree holds an account of the range. `slice_complete_iff` says when
it does.

Since the buffer is read beyond its end, the verdict on a slice can depend on what is found there.
It does not if the data decodes by itself; `decided_iff` says that otherwise a slice must not be the
beginning of one that would be accepted.
-/

namespace Cryptonite

open Patricia Codec

def MAX_TRIE_SLICE_SIZE : ℕ := 100000

structure Slice where
  /-- `m_block`. -/
  block : UInt256
  /-- `m_left`. -/
  left : UInt160
  /-- `m_right`. -/
  right : UInt160
  /-- `m_data`. -/
  data : List UInt8
  deriving DecidableEq, Repr

/-- What `AcceptSlice` reads and writes of `TrieSync`. A multimap is the list of its entries in the
order of their keys, the addresses of block index entries. -/
structure TrieSync where
  log2size : ℕ
  slicesRequested : List (ℕ × Slice)
  slices : List (ℕ × Slice)

/-- `multimap::insert`: behind the entries with the same key. -/
def multimapInsert (entry : ℕ × Slice) (entries : List (ℕ × Slice)) : List (ℕ × Slice) :=
  entries.takeWhile (fun e ↦ e.1 ≤ entry.1) ++ entry :: entries.dropWhile (fun e ↦ e.1 ≤ entry.1)

namespace TrieSync

/-- `TrieSync::RemoveRequest`: the first request for the same block and range. -/
def removeRequest (sync : TrieSync) (slice : Slice) : Option ℕ × TrieSync :=
  let same (e : ℕ × Slice) : Bool :=
    e.2.block = slice.block && e.2.left = slice.left && e.2.right = slice.right
  ((sync.slicesRequested.find? same).map Prod.fst,
    { sync with slicesRequested := sync.slicesRequested.eraseP same })

section AcceptSlice

variable (H : List UInt8 → UInt256) (mapBlockIndex : UInt256 → Option ℕ)
  (hashAccountRoot : ℕ → UInt256) (beyond : ℕ → UInt8)

/-- The bytes `Deserialize` is given: the slice's own, and those behind them. -/
def sliceBytes (slice : Slice) : List UInt8 :=
  slice.data ++ (List.range (MAX_TRIE_SLICE_SIZE - slice.data.length)).map beyond

def acceptSlice (sync : TrieSync) (slice : Slice) : Bool × TrieSync :=
  let (pindex, sync) := sync.removeRequest slice
  if slice.data.length > MAX_TRIE_SLICE_SIZE then (false, sync)
  else
    match deserialize (sliceBytes beyond slice), mapBlockIndex slice.block with
    | none, _ => (false, sync)
    | some _, none => (false, sync)
    | some root, some pindexSlice =>
      -- `Hash` fills caches, which `Prove` does not read
      if (TrieNode.hash H root).1 ≠ hashAccountRoot pindexSlice then (false, sync)
      else
        let valid := prove (some root) slice.left slice.right
        let sync :=
          match valid, pindex with
          | true, some p => { sync with slices := multimapInsert (p, slice) sync.slices }
          | _, _ => sync
        (valid, { sync with log2size := sync.log2size - 1 })

variable {H mapBlockIndex hashAccountRoot beyond}

/-- A slice is accepted when it is small enough, decodes to a tree with the account root of its
block, and passes `Prove`. -/
theorem acceptSlice_eq_true_iff {sync : TrieSync} {slice : Slice} :
    (acceptSlice H mapBlockIndex hashAccountRoot beyond sync slice).1 = true ↔
      slice.data.length ≤ MAX_TRIE_SLICE_SIZE ∧ ∃ root p,
        deserialize (sliceBytes beyond slice) = some root ∧ mapBlockIndex slice.block = some p ∧
        (TrieNode.hash H root).1 = hashAccountRoot p ∧
        prove (some root) slice.left slice.right = true := by
  rw [acceptSlice]
  dsimp only
  split
  · next hsize => exact iff_of_false (by simp) fun h ↦ absurd h.1 (by omega)
  · next hsize =>
    rcases deserialize (sliceBytes beyond slice) with _ | root
    · simp
    · rcases mapBlockIndex slice.block with _ | p
      · simp
      · dsimp only
        split
        · next hne => exact iff_of_false (by simp) fun ⟨_, _, _, rfl, rfl, h, _⟩ ↦ hne h
        · next heq =>
          rw [not_not] at heq
          exact ⟨fun h ↦ ⟨not_lt.mp hsize, root, p, rfl, rfl, heq, h⟩,
            fun ⟨_, _, _, rfl, rfl, _, h⟩ ↦ h⟩

end AcceptSlice

end TrieSync

/-! ## What an accepted slice shows -/

section Complete

variable {H : List UInt8 → UInt256} {left right : UInt160}

/-- **What `Prove` guarantees.** Let a slice have the hash of an account trie, and let no two byte
strings hashed in the two collide. That `Prove` vouches for every account of the range holds
exactly when no collapsed subtree has an account in the range, or when the slice is one of those
that `Prove` refuses. -/
theorem slice_complete_iff {trie slice : TrieNode} {src : List UInt8} (htrie : Valid H trie)
    (hslice : deserialize src = some slice)
    (hinj : Set.InjOn H {m | m ∈ preimages H trie ++ preimages H slice})
    (hhash : (TrieNode.hash H slice).1 = (TrieNode.hash H trie).1) :
    (prove (some slice) left right = true → ∀ k, left ≤ k → k ≤ right → ∀ v,
      trie.toMap k = some v → slice.toMap k = some v) ↔
    (∀ u ∈ Trie.hidden trie slice, ∀ k, left ≤ k → k ≤ right → u.toMap k = none) ∨
      Refused left right slice := by
  have hrec := received_of_deserialize hslice
  rw [(hrec.coherent.hash_spec).1, (htrie.coherent.hash_spec).1] at hhash
  have hview := collapses_of_digest_eq hrec htrie.canon hinj hhash
  have hshows := hview.shows_iff (supportedIn_zero 0 0) htrie.canon {k | left ≤ k ∧ k ≤ right}
  simp only [Set.mem_ofPred_eq, and_imp] at hshows
  rw [prove_eq_true_iff (hview.placed htrie.canon), hshows, or_comm]
  exact or_iff_not_imp_left.symm

/-- Over the upper half of the keys the slice shows all there is. -/
theorem slice_complete_upper : prove (some upperSlice) (bitAt 0) (BitVec.allOnes 160) = true ∧
    ∀ k : UInt160, bitAt 0 ≤ k → k ≤ BitVec.allOnes 160 → ∀ v,
      twoAccounts.toMap k = some v → upperSlice.toMap k = some v := by
  have hprove : prove (some upperSlice) (bitAt 0) (BitVec.allOnes 160) = true := by
    decide +kernel
  refine ⟨hprove, (slice_complete_iff valid_twoAccounts deserialize_upperBytes injOn_twoAccounts
    rfl).mpr (.inl fun u hu k hk _ ↦ ?_) hprove⟩
  rw [List.mem_singleton.mp hu]
  exact if_neg (by rintro rfl; exact absurd hk (by decide))

/-- Over the whole range of keys the slice is accepted as well, and the lower account is missing
from it. -/
theorem lower_account_hidden : Valid Sha256.sha256d twoAccounts ∧
    deserialize upperBytes = some upperSlice ∧
    (TrieNode.hash Sha256.sha256d upperSlice).1 = (TrieNode.hash Sha256.sha256d twoAccounts).1 ∧
    prove (some upperSlice) 0 (BitVec.allOnes 160) = true ∧
    twoAccounts.toMap 0 = some .init ∧ upperSlice.toMap 0 = none ∧
    ∀ beyond sync, (TrieSync.acceptSlice Sha256.sha256d (fun _ ↦ some 0)
      (fun _ ↦ (TrieNode.hash Sha256.sha256d twoAccounts).1) beyond sync
      ⟨0, 0, BitVec.allOnes 160, upperBytes⟩).1 = true := by
  have hprove : prove (some upperSlice) 0 (BitVec.allOnes 160) = true := by decide +kernel
  refine ⟨valid_twoAccounts, deserialize_upperBytes, rfl, hprove, by decide, by decide,
    fun beyond sync ↦ TrieSync.acceptSlice_eq_true_iff.mpr ⟨?_, upperSlice, 0,
      deserialize_append deserialize_upperBytes _, rfl, rfl, hprove⟩⟩
  simp [upperBytes, MAX_TRIE_SLICE_SIZE, length_leafPreimage]

end Complete

/-! ## What the verdict depends on -/

section Verdict

variable {H : List UInt8 → UInt256} {accountRoot : Option UInt256} {slice : Slice}

/-- `AcceptSlice` decides on a slice by its fields and the account root of its block, and what it
accepts can be decoded again from the data alone, as `Build` does. -/
structure Decided (H : List UInt8 → UInt256) (accountRoot : Option UInt256) (slice : Slice) :
    Prop where
  same : ∀ {mapBlockIndex mapBlockIndex' hashAccountRoot hashAccountRoot'},
    (mapBlockIndex slice.block).map hashAccountRoot = accountRoot →
    (mapBlockIndex' slice.block).map hashAccountRoot' = accountRoot → ∀ beyond beyond' sync sync',
    (TrieSync.acceptSlice H mapBlockIndex hashAccountRoot beyond sync slice).1 =
      (TrieSync.acceptSlice H mapBlockIndex' hashAccountRoot' beyond' sync' slice).1
  decodes : ∀ {mapBlockIndex hashAccountRoot beyond sync},
    (mapBlockIndex slice.block).map hashAccountRoot = accountRoot →
    (TrieSync.acceptSlice H mapBlockIndex hashAccountRoot beyond sync slice).1 = true →
    ∃ root, deserialize slice.data = some root ∧ some (TrieNode.hash H root).1 = accountRoot

/-- A slice that decodes by itself is read in the same way whatever follows it. -/
theorem deserialize_sliceBytes {root : TrieNode} (h : deserialize slice.data = some root)
    (beyond : ℕ → UInt8) : deserialize (TrieSync.sliceBytes beyond slice) = some root :=
  deserialize_append h _

theorem acceptSlice_of_deserialize {root : TrieNode} (h : deserialize slice.data = some root)
    {mapBlockIndex : UInt256 → Option ℕ} {hashAccountRoot : ℕ → UInt256} {beyond : ℕ → UInt8}
    {sync : TrieSync} (hroot : (mapBlockIndex slice.block).map hashAccountRoot = accountRoot) :
    (TrieSync.acceptSlice H mapBlockIndex hashAccountRoot beyond sync slice).1 = true ↔
      slice.data.length ≤ MAX_TRIE_SLICE_SIZE ∧ some (TrieNode.hash H root).1 = accountRoot ∧
        prove (some root) slice.left slice.right = true := by
  rw [TrieSync.acceptSlice_eq_true_iff, deserialize_sliceBytes h, ← hroot]
  refine and_congr_right fun _ ↦ ⟨?_, fun ⟨hhash, hprove⟩ ↦ ?_⟩
  · rintro ⟨root', p, hroot', hp, hhash, hprove⟩
    cases hroot'
    rw [hp, hhash]
    exact ⟨rfl, hprove⟩
  · obtain ⟨p, hp, hhash⟩ := Option.map_eq_some_iff.mp hhash.symm
    exact ⟨root, p, rfl, hp, hhash.symm, hprove⟩

/-- The data is the beginning of bytes that decode to a tree with the account root, and `Prove`
accepts that for the range. -/
def Slice.Begins (H : List UInt8 → UInt256) (accountRoot : Option UInt256) (slice : Slice) : Prop :=
  ∃ more root, (slice.data ++ more).length ≤ MAX_TRIE_SLICE_SIZE ∧
    deserialize (slice.data ++ more) = some root ∧ some (TrieNode.hash H root).1 = accountRoot ∧
    prove (some root) slice.left slice.right = true

theorem exists_sliceBytes {more : List UInt8}
    (h : (slice.data ++ more).length ≤ MAX_TRIE_SLICE_SIZE) :
    ∃ beyond rest, TrieSync.sliceBytes beyond slice = slice.data ++ more ++ rest := by
  rw [List.length_append] at h
  refine ⟨fun i ↦ more.getD i 0,
    List.replicate (MAX_TRIE_SLICE_SIZE - slice.data.length - more.length) 0, ?_⟩
  rw [TrieSync.sliceBytes, List.append_assoc, List.append_cancel_left_eq]
  refine List.ext_getElem (by simp; omega) fun i _ _ ↦ ?_
  rw [List.getElem_map, List.getElem_range, List.getElem_append]
  split_ifs with hi
  · exact List.getD_eq_getElem _ _ hi
  · rw [List.getD_eq_default _ _ (not_lt.mp hi), List.getElem_replicate]

/-- Whatever the memory holds, only a beginning is accepted. -/
theorem begins_of_acceptSlice {mapBlockIndex : UInt256 → Option ℕ} {hashAccountRoot : ℕ → UInt256}
    {beyond : ℕ → UInt8} {sync : TrieSync}
    (hroot : (mapBlockIndex slice.block).map hashAccountRoot = accountRoot)
    (h : (TrieSync.acceptSlice H mapBlockIndex hashAccountRoot beyond sync slice).1 = true) :
    slice.Begins H accountRoot := by
  obtain ⟨hlength, root, p, hread, hp, hhash, hprove⟩ := TrieSync.acceptSlice_eq_true_iff.mp h
  refine ⟨_, root, ?_, hread, ?_, hprove⟩
  · rw [List.length_append, List.length_map, List.length_range]
    omega
  · rw [← hroot, hp, hhash]
    rfl

/-- **Acceptance by the slice alone.** It is so for a slice iff the data decodes by itself, or is
not the beginning of anything that would be accepted. -/
theorem decided_iff : Decided H accountRoot slice ↔
    (deserialize slice.data).isSome = true ∨ ¬slice.Begins H accountRoot := by
  constructor
  · intro hdecided
    refine or_iff_not_imp_left.mpr fun hnone hbegins ↦ ?_
    obtain ⟨more, root, hlength, hread, rfl, hprove⟩ := hbegins
    obtain ⟨beyond, rest, hbytes⟩ := exists_sliceBytes hlength
    have haccepted := @TrieSync.acceptSlice_eq_true_iff H (fun _ ↦ some 0)
      (fun _ ↦ (TrieNode.hash H root).1) beyond ⟨0, [], []⟩ slice
    obtain ⟨root', hroot', -⟩ := hdecided.decodes rfl (haccepted.mpr
      ⟨by rw [List.length_append] at hlength; omega, root, 0,
        by rw [hbytes]; exact deserialize_append hread rest, rfl, rfl, hprove⟩)
    exact hnone (by rw [hroot']; rfl)
  · rintro (hsome | hbegins)
    · obtain ⟨root, hdata⟩ := Option.isSome_iff_exists.mp hsome
      refine ⟨fun hroot hroot' beyond beyond' sync sync' ↦ ?_, fun hroot haccepted ↦ ?_⟩
      · rw [Bool.eq_iff_iff, acceptSlice_of_deserialize hdata hroot,
          acceptSlice_of_deserialize hdata hroot']
      · exact ⟨root, hdata, ((acceptSlice_of_deserialize hdata hroot).mp haccepted).2.1⟩
    · refine ⟨fun hroot hroot' beyond beyond' sync sync' ↦ ?_, fun hroot haccepted ↦ ?_⟩
      · rw [Bool.eq_iff_iff]
        exact iff_of_false (fun h ↦ hbegins (begins_of_acceptSlice hroot h))
          fun h ↦ hbegins (begins_of_acceptSlice hroot' h)
      · exact absurd (begins_of_acceptSlice hroot haccepted) hbegins

/-- The slice of the upper half is complete. -/
theorem decided_iff_upper : Decided Sha256.sha256d
    (some (TrieNode.hash Sha256.sha256d twoAccounts).1)
    ⟨0, bitAt 0, BitVec.allOnes 160, upperBytes⟩ :=
  decided_iff.mpr (.inl (by rw [deserialize_upperBytes]; rfl))

def cutSlice : Slice := ⟨0, bitAt 0, BitVec.allOnes 160, upperBytes.dropLast⟩

theorem sliceBytes_cutSlice (b : UInt8) : ∃ more,
    TrieSync.sliceBytes (fun _ ↦ b) cutSlice = (upperBytes.dropLast ++ [b]) ++ more := by
  have hlength : MAX_TRIE_SLICE_SIZE - cutSlice.data.length
      = MAX_TRIE_SLICE_SIZE - upperBytes.length + 1 := by
    simp [cutSlice, upperBytes, MAX_TRIE_SLICE_SIZE, length_leafPreimage]
  refine ⟨List.replicate (MAX_TRIE_SLICE_SIZE - upperBytes.length) b, ?_⟩
  rw [TrieSync.sliceBytes, List.map_const', List.length_range, hlength, List.replicate_succ,
    List.append_assoc, List.singleton_append]
  rfl

def zeroSlice : TrieNode :=
  .node { NodeCache.newBranch with children := 2 } 0 0
    (.stub (Sha256.sha256d (leafPreimage 0 .init))) (.leaf NodeCache.newLeaf 0 .init)

set_option maxRecDepth 10000 in
/-- The cut slice is accepted if the missing byte happens to follow, and refused if it is zero. Its
data alone does not decode. -/
theorem accepted_with_what_follows :
    (∀ sync, (TrieSync.acceptSlice Sha256.sha256d (fun _ ↦ some 0)
      (fun _ ↦ (TrieNode.hash Sha256.sha256d twoAccounts).1) (fun _ ↦ 128) sync cutSlice).1
        = true) ∧
    (∀ sync, (TrieSync.acceptSlice Sha256.sha256d (fun _ ↦ some 0)
      (fun _ ↦ (TrieNode.hash Sha256.sha256d twoAccounts).1) (fun _ ↦ 0) sync cutSlice).1
        = false) ∧
    deserialize cutSlice.data = none := by
  have hlength : cutSlice.data.length ≤ MAX_TRIE_SLICE_SIZE := by
    simp [cutSlice, upperBytes, MAX_TRIE_SLICE_SIZE, length_leafPreimage]
  refine ⟨fun sync ↦ ?_, fun sync ↦ ?_, by decide +kernel⟩
  · obtain ⟨more, hbytes⟩ := sliceBytes_cutSlice 128
    have hread : deserialize (TrieSync.sliceBytes (fun _ ↦ 128) cutSlice) = some upperSlice := by
      rw [hbytes]
      refine deserialize_append ?_ more
      decide +kernel
    exact TrieSync.acceptSlice_eq_true_iff.mpr
      ⟨hlength, upperSlice, 0, hread, rfl, rfl, by decide +kernel⟩
  · obtain ⟨more, hbytes⟩ := sliceBytes_cutSlice 0
    have hread : deserialize (TrieSync.sliceBytes (fun _ ↦ 0) cutSlice) = some zeroSlice := by
      rw [hbytes]
      refine deserialize_append ?_ more
      decide +kernel
    have hhash : (TrieNode.hash Sha256.sha256d zeroSlice).1 ≠
        (TrieNode.hash Sha256.sha256d twoAccounts).1 := by
      decide +kernel
    rw [← Bool.not_eq_true, TrieSync.acceptSlice_eq_true_iff]
    rintro ⟨-, root, p, hroot, -, hroothash, -⟩
    obtain rfl := Option.some.inj (hread.symm.trans hroot)
    exact hhash hroothash

end Verdict

end Cryptonite
