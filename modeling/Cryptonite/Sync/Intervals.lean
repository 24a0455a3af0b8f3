import Cryptonite.Foundation.Loop
import Cryptonite.Sync.Build

/-!
# The ranges that are taken

`TrieSync::GetIntervals` of `triesync.cpp` makes a list of the ranges of some slices as short as it
can. Two intervals that overlap, or of which one begins right behind the other, are put into one,
and the search starts again from the front of the list.

This is the loop `Loop.coalesce`, and what there is to prove about it here is that `overlap` holds
of two intervals exactly if they have no key between them. The intervals it leaves cover the keys of
the slices, and between any two of them there is a key that none covers (`getIntervals_spec`).
-/

namespace Cryptonite

open Loop

structure Interval where
  left : UInt160
  right : UInt160
  deriving DecidableEq, Repr

def maxKey : UInt160 := BitVec.allOnes 160

def incUInt160 (x : UInt160) : UInt160 := if x = maxKey then maxKey else x + 1

def overlapLeft (it it2 : Interval) : Bool :=
  decide (it2.left ≤ incUInt160 it.right) && decide (it2.left ≥ it.left)

def overlap (it it2 : Interval) : Bool := overlapLeft it it2 || overlapLeft it2 it

/-- `*it`, when `*it2` has been put into it. -/
def widen (it it2 : Interval) : Interval :=
  let it := if it2.right > it.right then { it with right := it2.right } else it
  if it2.left < it.left then { it with left := it2.left } else it

def intervalsOf (slices : List (ℕ × Slice)) : List Interval :=
  slices.map fun e ↦ ⟨e.2.left, e.2.right⟩

/-- `TrieSync::GetIntervals`. Every round but the last makes the list shorter. -/
def getIntervals (slices : List (ℕ × Slice)) : List Interval :=
  coalesce overlap widen (intervalsOf slices)

def Interval.range (it : Interval) : Set UInt160 := {k | it.left ≤ k ∧ k ≤ it.right}

/-! ## Overlaps -/

theorem toNat_maxKey : maxKey.toNat = 2 ^ 160 - 1 := rfl

theorem le_maxKey (k : UInt160) : k ≤ maxKey := by
  rw [BitVec.le_def, toNat_maxKey]
  omega

variable {x k : UInt160} {it it2 : Interval}

theorem toNat_add_one (h : x.toNat < 2 ^ 160 - 1) : (x + 1).toNat = x.toNat + 1 := by
  rw [BitVec.toNat_add, Nat.mod_eq_of_lt (by simp; omega)]
  rfl

theorem toNat_lt_of_ne_maxKey (h : x ≠ maxKey) : x.toNat < 2 ^ 160 - 1 := by
  have hne : x.toNat ≠ 2 ^ 160 - 1 := fun heq ↦ h (BitVec.eq_of_toNat_eq heq)
  have hlt := x.isLt
  omega

theorem le_incUInt160_iff {y : UInt160} : y ≤ incUInt160 x ↔ y.toNat ≤ x.toNat + 1 := by
  rw [BitVec.le_def, incUInt160]
  split
  · next hx =>
    have hy := y.isLt
    rw [hx, toNat_maxKey]
    omega
  · next hx => rw [toNat_add_one (toNat_lt_of_ne_maxKey hx)]

theorem overlap_eq_true_iff : overlap it it2 = true ↔
    (it2.left.toNat ≤ it.right.toNat + 1 ∧ it.left.toNat ≤ it2.left.toNat) ∨
      (it.left.toNat ≤ it2.right.toNat + 1 ∧ it2.left.toNat ≤ it.left.toNat) := by
  simp only [overlap, overlapLeft, Bool.or_eq_true, Bool.and_eq_true, decide_eq_true_iff,
    le_incUInt160_iff]
  rfl

theorem toNat_widen (it it2 : Interval) :
    (widen it it2).left.toNat = min it.left.toNat it2.left.toNat ∧
      (widen it it2).right.toNat = max it.right.toNat it2.right.toNat := by
  simp only [widen, gt_iff_lt, BitVec.lt_def]
  split <;> split <;> constructor <;> simp_all <;> omega

theorem mem_range_iff :
    k ∈ it.range ↔ it.left.toNat ≤ k.toNat ∧ k.toNat ≤ it.right.toNat := Iff.rfl

theorem range_widen (h : it.left ≤ it.right) (h2 : it2.left ≤ it2.right)
    (hoverlap : overlap it it2 = true) :
    (widen it it2).left ≤ (widen it it2).right ∧ (widen it it2).range = it.range ∪ it2.range := by
  obtain ⟨hleft, hright⟩ := toNat_widen it it2
  rw [overlap_eq_true_iff] at hoverlap
  rw [BitVec.le_def] at h h2 ⊢
  refine ⟨by omega, Set.ext fun k ↦ ?_⟩
  rw [Set.mem_union, mem_range_iff, mem_range_iff, mem_range_iff, hleft, hright]
  omega

/-! ## The intervals -/

/-- One interval lies below another, and there is a key between them. -/
def Interval.Below (it it2 : Interval) : Prop := it.right.toNat + 1 < it2.left.toNat

theorem below_of_overlap_eq_false (h : overlap it it2 = false) : it.Below it2 ∨ it2.Below it := by
  rw [← Bool.not_eq_true, overlap_eq_true_iff] at h
  rw [Interval.Below, Interval.Below]
  omega

/-- What `GetIntervals` leaves. -/
structure Spread (intervals : List Interval) (K : Set UInt160) : Prop where
  nonempty : ∀ it ∈ intervals, it.left ≤ it.right
  mem_iff : ∀ k, k ∈ K ↔ ∃ it ∈ intervals, k ∈ it.range
  apart : intervals.Pairwise fun it it2 ↦ it.Below it2 ∨ it2.Below it

theorem exists_mem_intervalsOf {slices : List (ℕ × Slice)} :
    (∃ it ∈ intervalsOf slices, k ∈ it.range) ↔ k ∈ covered slices := by
  simp only [intervalsOf, List.mem_map, exists_exists_and_eq_and]
  rfl

variable {slices : List (ℕ × Slice)}

theorem spread_getIntervals (h : ∀ e ∈ slices, e.2.left ≤ e.2.right) :
    Spread (getIntervals slices) (covered slices) ∧
      mergeOnce overlap widen (getIntervals slices) = none := by
  have hstart : ∀ it ∈ intervalsOf slices, it.left ≤ it.right := by
    intro it hit
    obtain ⟨e, he, rfl⟩ := List.mem_map.mp hit
    exact h e he
  obtain ⟨⟨hle, hkeys⟩, hend⟩ := @coalesce_spec _ overlap widen _ Interval.range _
    (fun _ _ hx hy ↦ range_widen hx hy) _ hstart
  refine ⟨⟨hle, fun k ↦ ?_, ?_⟩, hend⟩
  · rw [← exists_mem_intervalsOf, ← hkeys]
    rfl
  · exact (mergeOnce_eq_none_iff.mp hend).imp below_of_overlap_eq_false

/-- The key right behind an interval that lies below another is not covered. -/
theorem Spread.succ_notMem {intervals : List Interval} {K : Set UInt160}
    (h : Spread intervals K) (hit : it ∈ intervals) (hbelow : it.Below it2) :
    it.right + 1 ∉ K ∧ (it.right + 1).toNat = it.right.toNat + 1 := by
  have hlt := it2.left.isLt
  have hsucc : (it.right + 1).toNat = it.right.toNat + 1 := by
    rw [Interval.Below] at hbelow
    exact toNat_add_one (by omega)
  refine ⟨fun hmem ↦ ?_, hsucc⟩
  obtain ⟨it3, hit3, hrange⟩ := (h.mem_iff _).mp hmem
  rw [mem_range_iff, hsucc] at hrange
  have hle := h.nonempty it hit
  rw [BitVec.le_def] at hle
  by_cases heq : it = it3
  · subst heq
    omega
  · have hsymm : Std.Symm fun it it2 : Interval ↦ it.Below it2 ∨ it2.Below it := ⟨fun _ _ ↦ Or.symm⟩
    rcases h.apart.forall hit hit3 heq with hlow | hhigh
    · rw [Interval.Below] at hlow
      omega
    · rw [Interval.Below] at hhigh
      omega

/-- **Merging.** For slices whose ranges are not empty the loop of `GetIntervals` ends. The
intervals cover the keys of the slices, and between any two of them there is a key that is not
covered. -/
theorem getIntervals_spec (h : ∀ e ∈ slices, e.2.left ≤ e.2.right) :
    (mergeOnce overlap widen (getIntervals slices) = none ∧ ∀ n ≥ slices.length,
      whileSome (mergeOnce overlap widen) n (intervalsOf slices) = getIntervals slices) ∧
    (∀ k, (∃ it ∈ getIntervals slices, k ∈ it.range) ↔ k ∈ covered slices) ∧
    (getIntervals slices).Pairwise fun it it2 ↦ ∃ k, k ∉ covered slices ∧
      (it.right < k ∧ k < it2.left ∨ it2.right < k ∧ k < it.left) := by
  obtain ⟨hspread, hend⟩ := spread_getIntervals h
  refine ⟨⟨hend, fun n hn ↦ whileSome_stable hend ?_⟩, fun k ↦ (hspread.mem_iff k).symm, ?_⟩
  · rwa [intervalsOf, List.length_map]
  · have hbetween : ∀ {it it2 : Interval}, it ∈ getIntervals slices → it.Below it2 →
        ∃ k, k ∉ covered slices ∧ it.right < k ∧ k < it2.left := by
      intro it it2 hit hbelow
      obtain ⟨hnot, hsucc⟩ := hspread.succ_notMem hit hbelow
      rw [Interval.Below, ← hsucc] at hbelow
      exact ⟨_, hnot, BitVec.lt_def.mpr (by omega), BitVec.lt_def.mpr hbelow⟩
    refine hspread.apart.imp_of_mem fun {it it2} hit hit2 hapart ↦ ?_
    rcases hapart with hbelow | hbelow
    · obtain ⟨k, hnot, hk⟩ := hbetween hit hbelow
      exact ⟨k, hnot, Or.inl hk⟩
    · obtain ⟨k, hnot, hk⟩ := hbetween hit2 hbelow
      exact ⟨k, hnot, Or.inr hk⟩

def slicesOf (ranges : List (UInt160 × UInt160)) : List (ℕ × Slice) :=
  ranges.map fun r ↦ (0, ⟨0, r.1, r.2, []⟩)

theorem mem_covered_slicesOf {ranges : List (UInt160 × UInt160)} :
    k ∈ covered (slicesOf ranges) ↔ ∃ r ∈ ranges, r.1 ≤ k ∧ k ≤ r.2 := by
  constructor
  · rintro ⟨e, he, hk⟩
    obtain ⟨r, hr, rfl⟩ := List.mem_map.mp he
    exact ⟨r, hr, hk⟩
  · rintro ⟨r, hr, hk⟩
    exact ⟨_, List.mem_map_of_mem hr, hk⟩

/-- Two slices that meet, at the upper end of the keys, and one at the lower end. -/
theorem getIntervals_spec_ends :
    getIntervals (slicesOf [(maxKey - 3, maxKey), (0, 9), (maxKey - 9, maxKey - 4)]) =
        [⟨maxKey - 9, maxKey⟩, ⟨0, 9⟩] ∧
      (getIntervals (slicesOf [(maxKey - 3, maxKey), (0, 9), (maxKey - 9, maxKey - 4)])).Pairwise
        fun it it2 ↦ ∃ k, k ∉ covered (slicesOf [(maxKey - 3, maxKey), (0, 9),
          (maxKey - 9, maxKey - 4)]) ∧
          (it.right < k ∧ k < it2.left ∨ it2.right < k ∧ k < it.left) :=
  ⟨by decide, (getIntervals_spec (by decide)).2.2⟩

end Cryptonite
