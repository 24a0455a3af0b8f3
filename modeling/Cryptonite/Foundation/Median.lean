import Mathlib.Data.List.GetD
import Mathlib.Data.List.Sort

/-!
# Medians

The element in the middle of a sorted list, the upper one if there are two. It is at least `m` if
and only if no more than half of the elements are below `m`, so that nothing needs to be sorted to
reason about it.
-/

namespace Median

variable {α : Type*} [LinearOrder α] {l : List α} {m a d : α}

theorem le_getElem?_iff : ∀ {s : List α} {k : ℕ}, s.Pairwise (· ≤ ·) → s[k]? = some a →
    (m ≤ a ↔ s.countP (· < m) ≤ k)
  | b :: s, k, hs, hk => by
    rw [List.pairwise_cons] at hs
    rcases lt_or_ge b m with hb | hb
    · rw [List.countP_cons_of_pos (by simpa using hb)]
      cases k with
      | zero =>
        obtain rfl : b = a := by simpa using hk
        simp [hb]
      | succ k => rw [le_getElem?_iff hs.2 hk, Nat.add_le_add_iff_right]
    · -- nothing is below `m` from here on
      have hall : ∀ c ∈ b :: s, m ≤ c :=
        List.forall_mem_cons.mpr ⟨hb, fun c hc ↦ hb.trans (hs.1 c hc)⟩
      rw [List.countP_eq_zero.mpr fun c hc ↦ by simpa using hall c hc]
      simp [hall a (List.mem_of_getElem? hk)]

/-- The middle of a list that is not empty. -/
def median (d : α) (l : List α) : α := (l.insertionSort (· ≤ ·)).getD (l.length / 2) d

theorem le_median_iff (hl : l ≠ []) : m ≤ median d l ↔ l.countP (· < m) ≤ l.length / 2 := by
  have hlt : l.length / 2 < (l.insertionSort (· ≤ ·)).length := by
    rw [List.length_insertionSort]
    exact Nat.div_lt_self (List.length_pos_iff.mpr hl) (by decide)
  rw [median, List.getD_eq_getElem _ _ hlt,
    le_getElem?_iff (List.pairwise_insertionSort _ _) (List.getElem?_eq_getElem hlt),
    (List.perm_insertionSort _ _).countP_eq]

end Median
