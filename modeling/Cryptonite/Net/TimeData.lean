import Mathlib.Tactic
import Cryptonite.Foundation.Median

/-!
# The time of the other nodes

Each node that connects tells its time. `AddTimeData` keeps the last 200 differences to our own
clock, one for an address, and takes their median for `nTimeOffset` when there is an odd number of
them. Once there are 200 it is never odd again, and the offset stays as it is.

A median of 70 minutes or more is not used. The test is on `abs64`, which has no value for
`INT64_MIN`: negated it is itself again, and below every bound.
-/

namespace Cryptonite

instance linearOrderInt64 : LinearOrder Int64 where
  le_refl := Int64.le_refl
  le_trans _ _ _ := Int64.le_trans
  le_antisymm _ _ := Int64.le_antisymm
  le_total := Int64.le_total
  toDecidableLE := inferInstance
  toDecidableLT := inferInstance
  lt_iff_le_not_ge a b := by rw [Int64.not_le]; exact ⟨fun h ↦ ⟨Int64.le_of_lt h, h⟩, (·.2)⟩

/-- `CMedianFilter::input`, on the values of a filter. -/
def medianInput (nSize : ℕ) (vValues : List Int64) (value : Int64) : List Int64 :=
  (if vValues.length = nSize then vValues.tail else vValues) ++ [value]

def medianOf (vValues : List Int64) : Int64 :=
  let vSorted := vValues.insertionSort (· ≤ ·)
  let size := vValues.length
  if size % 2 = 1 then vSorted.getD (size / 2) 0
  else (vSorted.getD (size / 2 - 1) 0 + vSorted.getD (size / 2) 0) / 2

/-- `abs64`: there is nothing to negate `INT64_MIN` to. -/
def abs64 (n : Int64) : Int64 := if n ≥ 0 then n else -n

theorem abs64_lt {n bound : Int64} (h : abs64 n < bound) :
    n = Int64.minValue ∨ |n.toInt| < bound.toInt := by
  by_cases hmin : n = Int64.minValue
  · exact .inl hmin
  · refine .inr (abs_lt.mpr ?_)
    rw [abs64] at h
    split_ifs at h with hn
    · rw [ge_iff_le, Int64.le_iff_toInt_le, Int64.toInt_zero] at hn
      rw [Int64.lt_iff_toInt_lt] at h
      omega
    · rw [ge_iff_le, Int64.le_iff_toInt_le, Int64.toInt_zero] at hn
      have hmin' : Int64.minValue.toInt < n.toInt :=
        lt_of_le_of_ne n.minValue_le_toInt fun heq ↦ hmin (Int64.toInt_inj.mp heq.symm)
      rw [Int64.toInt_minValue] at hmin'
      rw [Int64.lt_iff_toInt_lt, Int64.toInt_neg, Int.bmod_eq_of_le (by omega) (by omega)] at h
      omega

/-- The static variables of `AddTimeData`, and `nTimeOffset`. -/
structure TimeData (A : Type) where
  setKnown : Finset A
  vTimeOffsets : List Int64
  nTimeOffset : Int64

namespace TimeData

variable {A : Type} [DecidableEq A]

/-- `AddTimeData`, for an address and the difference of its time to ours. -/
def addTimeData (s : TimeData A) (x : A × Int64) : TimeData A :=
  if x.1 ∈ s.setKnown then s else
    let vTimeOffsets := medianInput 200 s.vTimeOffsets x.2
    let nMedian := medianOf vTimeOffsets
    ⟨insert x.1 s.setKnown, vTimeOffsets,
      if vTimeOffsets.length ≥ 5 ∧ vTimeOffsets.length % 2 = 1 then
        if abs64 nMedian < 70 * 60 then nMedian else 0
      else s.nTimeOffset⟩

def run (samples : List (A × Int64)) : TimeData A := samples.foldl addTimeData ⟨∅, [0], 0⟩

theorem run_concat (samples : List (A × Int64)) (x : A × Int64) :
    run (samples ++ [x]) = (run samples).addTimeData x := by
  rw [run, List.foldl_append]
  rfl

/-- The offset is the old one, or zero, or a median of an odd number of values that is not large. -/
theorem addTimeData_cases (s : TimeData A) (x : A × Int64) :
    (s.addTimeData x).nTimeOffset = s.nTimeOffset ∨ (s.addTimeData x).nTimeOffset = 0 ∨
      abs64 (s.addTimeData x).nTimeOffset < 70 * 60 ∧
        (s.addTimeData x).nTimeOffset = Median.median 0 (s.addTimeData x).vTimeOffsets := by
  rw [addTimeData]
  split_ifs with hknown
  · exact .inl rfl
  · dsimp only
    split_ifs with hodd hsmall
    · exact .inr (.inr ⟨hsmall, if_pos hodd.2⟩)
    · exact .inr (.inl rfl)
    · exact .inl rfl

theorem abs64_nTimeOffset_lt (samples : List (A × Int64)) :
    abs64 (run samples).nTimeOffset < 70 * 60 := by
  induction samples using List.reverseRecOn with
  | nil =>
    rw [show (run ([] : List (A × Int64))).nTimeOffset = 0 from rfl]
    decide
  | append_singleton samples x ih =>
    rw [run_concat]
    rcases (run samples).addTimeData_cases x with h | h | h
    · rwa [h]
    · rw [h]
      decide
    · exact h.1

theorem run_append_of_full {samples : List (A × Int64)}
    (h : (run samples).vTimeOffsets.length = 200) (later : List (A × Int64)) :
    (run (samples ++ later)).vTimeOffsets.length = 200 ∧
      (run (samples ++ later)).nTimeOffset = (run samples).nTimeOffset := by
  induction later using List.reverseRecOn with
  | nil => simpa using h
  | append_singleton later x ih =>
    have hinput : (medianInput 200 (run (samples ++ later)).vTimeOffsets x.2).length = 200 := by
      simp [medianInput, ih.1]
    rw [← List.append_assoc, run_concat, addTimeData]
    split_ifs <;> simp [ih, hinput]

/-- **How far other nodes can move our clock.** By less than 70 minutes, or by `INT64_MIN` seconds;
and not at all once there are 200 differences. -/
theorem nTimeOffset_bounded (samples later : List (A × Int64)) :
    ((run samples).nTimeOffset = Int64.minValue ∨
      |(run samples).nTimeOffset.toInt| < 70 * 60) ∧ ((run samples).vTimeOffsets.length = 200 →
        (run (samples ++ later)).nTimeOffset = (run samples).nTimeOffset) :=
  ⟨abs64_lt (abs64_nTimeOffset_lt samples), fun h ↦ (run_append_of_full h later).2⟩

/-- It does happen. -/
example : (run [(1, Int64.minValue), (2, Int64.minValue), (3, Int64.minValue), (4, 5)]).nTimeOffset
    = Int64.minValue := by decide

theorem median_mem_of_most {l : List Int64} {lo hi : Int64}
    (h : 2 * l.countP (fun v ↦ v < lo ∨ hi < v) < l.length) :
    lo ≤ Median.median 0 l ∧ Median.median 0 l ≤ hi := by
  have hl : l ≠ [] := by
    rintro rfl
    simp at h
  have hlow : l.countP (· < lo) ≤ l.countP (fun v ↦ v < lo ∨ hi < v) :=
    List.countP_mono_left fun v _ hv ↦ by simp_all
  refine ⟨(Median.le_median_iff hl).mpr (by omega), not_lt.mp fun hlt ↦ ?_⟩
  -- what is not above `hi` is below the median
  have hbelow : l.countP (fun v ↦ ¬hi < v) ≤ l.countP (· < Median.median 0 l) :=
    List.countP_mono_left fun v _ hv ↦ by simpa using (not_lt.mp (by simpa using hv)).trans_lt hlt
  have habove : l.countP (fun v ↦ hi < v) ≤ l.countP (fun v ↦ v < lo ∨ hi < v) :=
    List.countP_mono_left fun v _ hv ↦ by simp_all
  have hsplit := @List.length_eq_countP_add_countP _ (fun v ↦ decide (hi < v)) l
  have hmedian := (Median.le_median_iff hl).mp (le_refl (Median.median 0 l))
  simp only [decide_eq_true_eq] at hsplit
  omega

/-- **A majority keeps the clock.** As long as more than half of the differences are in an interval
around zero, so is the offset. -/
theorem nTimeOffset_mem {lo hi : Int64} (hlo : lo ≤ 0) (hhi : 0 ≤ hi) (samples : List (A × Int64))
    (hmost : ∀ r ∈ samples.inits, 2 * (run r).vTimeOffsets.countP (fun v ↦ v < lo ∨ hi < v)
      < (run r).vTimeOffsets.length) :
    lo ≤ (run samples).nTimeOffset ∧ (run samples).nTimeOffset ≤ hi := by
  induction samples using List.reverseRecOn with
  | nil => exact ⟨hlo, hhi⟩
  | append_singleton samples x ih =>
    have hlast := hmost (samples ++ [x]) (by simp)
    rw [run_concat] at hlast ⊢
    rcases (run samples).addTimeData_cases x with h | h | ⟨-, h⟩
    · rw [h]
      exact ih fun r hr ↦ hmost r (by simp_all)
    · simp [h, hlo, hhi]
    · rw [h]
      exact median_mem_of_most hlast

/-- A day off, and in the minority. -/
theorem nTimeOffset_mem_day : ∃ n, (run [(1, 5), (2, 86400), (3, 6), (4, 7)]).nTimeOffset = n ∧
    0 ≤ n ∧ n ≤ 9 :=
  ⟨_, rfl, nTimeOffset_mem (by decide) (by decide) _ (by decide)⟩

end TimeData

end Cryptonite
