import Cryptonite.Sync.Gap

/-!
# Is there enough to build the trie

`TrieSync::ReadyToBuild` of `triesync.cpp` drops the slices that have become useless and then moves
a frontier from slice to slice, over the keys from the left to the right. The frontier is the last
key that is covered, and it starts at key zero, which no slice need cover.

So the test is whether the slices cover every key but zero (`readyToBuild_iff`), and it goes wrong
when zero is the only key they miss (`readyToBuild_exact_iff`).
-/

namespace Cryptonite

open Loop

/-! ## The model -/

/-- The header chain, with the blocks that are there. -/
structure SyncNode extends SyncView where
  /-- `nStatus & BLOCK_HAVE_DATA`. -/
  haveData : ℕ → Bool
  /-- `fLoading || IsInitialBlockDownload()`. -/
  busy : Bool

namespace SyncNode

variable (node : SyncNode)

/-- The loop of `GetSyncPoint` over the tip and its ancestors: `pindex` and `count`. -/
def syncWalk : List ℕ → ℕ → Option ℕ × ℕ
  | [], count => (none, count)
  | p :: rest, count =>
    if !node.haveData p ∧ (node.tree.nHeight p : ℤ) + 5 < node.height then (some p, count)
    else if count + 1 > node.MIN_HISTORY.toNat then (some p, count + 1)
    else syncWalk rest (count + 1)

def getSyncPoint : Option ℕ :=
  if node.busy then none
  else
    let walk := node.syncWalk (node.tree.blocks node.chainHeaders.tip) 0
    if walk.2 ≥ node.MIN_HISTORY.toNat then walk.1 else none

def canSync : Bool := node.getSyncPoint.isSome

/-- A slice is of use: its block is in the header chain, deep enough, and none of the blocks from it
on is missing. -/
def tenable (p : ℕ) : Bool :=
  node.tree.contains node.chainHeaders p &&
    decide (node.height - node.tree.nHeight p ≥ node.MIN_HISTORY.toNat) &&
    (List.range node.MIN_HISTORY.toNat).all fun i ↦
      (node.chainHeaders.get (node.tree.nHeight p + i)).any node.haveData

/-- `TrieSync::Update`. A slice that is of no use is erased from the map while the loop stands on
it; `erased` is what the loop then comes to. -/
def update (erased : Exec (List (ℕ × Slice))) (sync : TrieSync) : Exec TrieSync :=
  if sync.slices.all fun e ↦ node.tenable e.1 then .ok sync
  else erased.map fun slices ↦ { sync with slices }

/-- A round of the loop of `ReadyToBuild`: `left_required` after it. -/
def advance (slices : List (ℕ × Slice)) (left_required : UInt160) : Option UInt160 :=
  (slices.find? fun e ↦ decide (e.2.left ≤ left_required + 1) &&
    decide (e.2.right > left_required)).map fun e ↦ e.2.right

/-- `TrieSync::ReadyToBuild`. Every round but the last passes the end of another slice. -/
def readyToBuild (erased : Exec (List (ℕ × Slice))) (sync : TrieSync) : Exec Bool := do
  let sync ← node.update erased sync
  if !node.canSync then pure false
  else
    let left_required := whileSome (advance sync.slices) sync.slices.length 0
    pure (left_required = maxKey)

/-! ## The frontier -/

variable {slices : List (ℕ × Slice)} {left_required left_required' : UInt160}

theorem exists_of_advance (h : advance slices left_required = some left_required') :
    ∃ e ∈ slices, e.2.left ≤ left_required + 1 ∧ left_required < e.2.right ∧
      left_required' = e.2.right := by
  obtain ⟨e, hfind, rfl⟩ := Option.map_eq_some_iff.mp h
  have htest := List.find?_some hfind
  rw [Bool.and_eq_true, decide_eq_true_iff, decide_eq_true_iff] at htest
  exact ⟨e, List.mem_of_find?_eq_some hfind, htest.1, htest.2, rfl⟩

theorem succ_notMem_of_advance (h : advance slices left_required = none)
    (hmax : left_required ≠ maxKey) : left_required + 1 ∉ covered slices := by
  rintro ⟨e, he, hleft, hright⟩
  rw [advance, Option.map_eq_none_iff, List.find?_eq_none] at h
  refine h e he ?_
  rw [BitVec.le_def, toNat_add_one (toNat_lt_of_ne_maxKey hmax)] at hright
  rw [Bool.and_eq_true, decide_eq_true_iff, decide_eq_true_iff]
  exact ⟨hleft, BitVec.lt_def.mpr hright⟩

theorem countP_lt_of_advance (h : advance slices left_required = some left_required') :
    slices.countP (fun e ↦ decide (left_required' < e.2.right)) <
      slices.countP fun e ↦ decide (left_required < e.2.right) := by
  obtain ⟨e, he, -, hright, rfl⟩ := exists_of_advance h
  have hmono : ∀ l : List (ℕ × Slice), l.countP (fun e' ↦ decide (e.2.right < e'.2.right)) ≤
      l.countP fun e' ↦ decide (left_required < e'.2.right) := by
    refine fun l ↦ List.countP_mono_left fun e' _ hpast ↦ ?_
    rw [decide_eq_true_iff] at hpast ⊢
    exact Nat.lt_trans hright hpast
  obtain ⟨a, b, rfl⟩ := List.append_of_mem he
  have ha := hmono a
  have hb := hmono b
  have hself : ¬e.2.right < e.2.right := Nat.lt_irrefl _
  simp only [List.countP_append, List.countP_cons, hright, hself, decide_true, decide_false,
    if_true, Bool.false_eq_true, if_false]
  omega

/-- The frontier ends with keys from one on that are covered, at a slice that nothing continues. -/
theorem frontier_spec (slices : List (ℕ × Slice)) :
    (∀ k : UInt160, 0 < k → k ≤ whileSome (advance slices) slices.length 0 →
      k ∈ covered slices) ∧
    advance slices (whileSome (advance slices) slices.length 0) = none := by
  refine @whileSome_spec _ _ (fun l : UInt160 ↦ ∀ k : UInt160, 0 < k → k ≤ l → k ∈ covered slices)
    (fun l ↦ slices.countP fun e ↦ decide (l < e.2.right))
    (fun l l' hl h ↦ ⟨?_, countP_lt_of_advance h⟩) slices.length 0
    (fun k hpos hle ↦ absurd hle (BitVec.not_le.mpr hpos)) List.countP_le_length
  obtain ⟨e, he, hleft, hright, rfl⟩ := exists_of_advance h
  intro k hpos hle
  by_cases hk : k ≤ l
  · exact hl k hpos hk
  · have hbound := e.2.right.isLt
    rw [BitVec.lt_def] at hright
    rw [BitVec.le_def, toNat_add_one (by omega)] at hleft
    refine ⟨e, he, BitVec.le_def.mpr ?_, hle⟩
    rw [BitVec.not_le, BitVec.lt_def] at hk
    omega

/-- The frontier gets to the end iff the slices cover every key but zero. -/
theorem frontier_eq_maxKey_iff (slices : List (ℕ × Slice)) :
    whileSome (advance slices) slices.length 0 = maxKey ↔
      ∀ k : UInt160, k ≠ 0 → k ∈ covered slices := by
  obtain ⟨hcovered, hend⟩ := frontier_spec slices
  constructor
  · intro hmax k hne
    refine hcovered k (BitVec.lt_def.mpr (Nat.pos_of_ne_zero fun h0 ↦
      hne (BitVec.eq_of_toNat_eq h0))) ?_
    rw [hmax]
    exact le_maxKey k
  · intro hall
    by_contra hmax
    refine succ_notMem_of_advance hend hmax (hall _ fun h0 ↦ ?_)
    have hsucc := toNat_add_one (toNat_lt_of_ne_maxKey hmax)
    rw [h0] at hsucc
    exact absurd hsucc.symm (Nat.succ_ne_zero _)

variable {node} {erased : Exec (List (ℕ × Slice))} {sync sync' : TrieSync}

theorem readyToBuild_iff (hupdate : node.update erased sync = .ok sync') :
    node.readyToBuild erased sync = .ok true ↔
      node.canSync = true ∧ ∀ k : UInt160, k ≠ 0 → k ∈ covered sync'.slices := by
  rw [readyToBuild, hupdate, ← frontier_eq_maxKey_iff]
  cases node.canSync with
  | false => simp [bind, Except.bind, pure, Except.pure]
  | true => simp [bind, Except.bind, pure, Except.pure]

/-- **The coverage test.** With the slices that `Update` leaves, `ReadyToBuild` returns true only if
they cover every key, and always if they do, unless zero is the only key they do not cover. -/
theorem readyToBuild_exact_iff (hupdate : node.update erased sync = .ok sync') :
    ((node.readyToBuild erased sync = .ok true → ∀ k, k ∈ covered sync'.slices) ∧
      ((∀ k, k ∈ covered sync'.slices) → node.canSync = true →
        node.readyToBuild erased sync = .ok true)) ↔
    (node.canSync = true → (∀ k : UInt160, k ≠ 0 → k ∈ covered sync'.slices) →
      (0 : UInt160) ∈ covered sync'.slices) := by
  rw [readyToBuild_iff hupdate]
  constructor
  · rintro ⟨hsound, -⟩ hsync hall
    exact hsound ⟨hsync, hall⟩ 0
  · intro hzero
    refine ⟨fun hready k ↦ ?_, fun hall hsync ↦ ⟨hsync, fun k _ ↦ hall k⟩⟩
    by_cases hk : k = 0
    · rw [hk]
      exact hzero hready.1 hready.2
    · exact hready.2 k hk

def twoBlocks : SyncNode := { twoHeaders with haveData := fun _ ↦ true, busy := false }

/-- Two slices that cover all keys. -/
theorem readyToBuild_exact_halves :
    twoBlocks.readyToBuild (.error .nullDeref) (holding [(10, maxKey), (0, 9)]).toTrieSync
        = .ok true ∧
      (twoBlocks.readyToBuild (.error .nullDeref) (holding [(10, maxKey), (0, 9)]).toTrieSync
        = .ok true →
        ∀ k, k ∈ covered (holding [(10, maxKey), (0, 9)]).toTrieSync.slices) := by
  refine ⟨by decide +kernel, ((readyToBuild_exact_iff (if_pos (by decide +kernel))).mpr
    fun _ _ ↦ ?_).1⟩
  exact mem_covered_slicesOf.mpr (by decide)

/-- A slice that covers all keys but zero is enough. -/
theorem ready_without_zero :
    twoBlocks.update (.error .nullDeref) (holding [(1, maxKey)]).toTrieSync
        = .ok (holding [(1, maxKey)]).toTrieSync ∧
      twoBlocks.readyToBuild (.error .nullDeref) (holding [(1, maxKey)]).toTrieSync = .ok true ∧
      0 ∉ covered (holding [(1, maxKey)]).toTrieSync.slices := by
  refine ⟨if_pos (by decide +kernel), by decide +kernel, fun h ↦ ?_⟩
  exact absurd (mem_covered_slicesOf.mp h) (by decide)

end SyncNode

end Cryptonite
