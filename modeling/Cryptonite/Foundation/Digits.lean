import Mathlib.Data.List.DropRight
import Mathlib.Data.Nat.Digits.Lemmas
import Mathlib.Tactic

/-!
# Numbers in digits

A number in base `B` is the list of its digits, the least significant one first; its value is
`Nat.ofDigits`. Long arithmetic goes through the digits once and lets a carry run along:
`propagate` is this loop, for columns that may be of any size. It changes the columns to digits and
keeps the value, if the carry that is left over counts as one more digit.
-/

namespace Digits

variable {B : ℕ}

/-- The loop with a carry: the digits, and what is carried out. -/
def propagate (B : ℕ) : ℕ → List ℕ → List ℕ × ℕ
  | carry, [] => ([], carry)
  | carry, column :: columns =>
    let n := carry + column
    let rest := propagate B (n / B) columns
    (n % B :: rest.1, rest.2)

@[simp] theorem length_propagate (carry : ℕ) (columns : List ℕ) :
    (propagate B carry columns).1.length = columns.length := by
  induction columns generalizing carry with
  | nil => rfl
  | cons column columns ih => simp [propagate, ih]

theorem propagate_lt (hB : 0 < B) {carry d : ℕ} {columns : List ℕ}
    (hd : d ∈ (propagate B carry columns).1) : d < B := by
  induction columns generalizing carry with
  | nil => exact absurd hd List.not_mem_nil
  | cons column columns ih =>
    rcases List.mem_cons.mp hd with rfl | hd
    · exact Nat.mod_lt _ hB
    · exact ih hd

/-- **The carry loop.** -/
theorem ofDigits_propagate (B carry : ℕ) (columns : List ℕ) :
    Nat.ofDigits B (propagate B carry columns).1 +
      B ^ columns.length * (propagate B carry columns).2 = carry + Nat.ofDigits B columns := by
  induction columns generalizing carry with
  | nil => simp [propagate]
  | cons column columns ih =>
    have hdiv := Nat.mod_add_div (carry + column) B
    have hrest := ih ((carry + column) / B)
    simp only [propagate, Nat.ofDigits_cons, List.length_cons, pow_succ']
    linear_combination B * hrest + hdiv

theorem ofDigits_map_mul (B c : ℕ) (l : List ℕ) :
    Nat.ofDigits B (l.map (c * ·)) = c * Nat.ofDigits B l := by
  induction l with
  | nil => simp
  | cons d l ih => simp only [List.map_cons, Nat.ofDigits_cons, ih]; ring

theorem dropWhile_reverse_eq (hB : 1 < B) {l : List ℕ} (hl : ∀ d ∈ l, d < B) :
    l.reverse.dropWhile (· = 0) = (Nat.digits B (Nat.ofDigits B l)).reverse := by
  induction l using List.reverseRecOn with
  | nil => simp
  | append_singleton l d ih =>
    rw [List.reverse_append, List.reverse_singleton, List.singleton_append]
    by_cases hd : d = 0
    · rw [List.dropWhile_cons_of_pos (by simpa using hd),
        ih fun x hx ↦ hl x (List.mem_append_left _ hx), Nat.ofDigits_append, hd]
      simp
    · rw [List.dropWhile_cons_of_neg (by simpa using hd), Nat.digits_ofDigits B hB _ hl (by simpa)]
      simp

theorem pow_le_pow_of_ratio {b c p q : ℕ} (hq : 0 < q) (hc : 0 < c) (h : b ^ q ≤ c ^ p) (n : ℕ) :
    b ^ n ≤ c ^ (n * p / q + 1) := by
  refine (Nat.pow_le_pow_iff_left hq.ne').mp ?_
  calc (b ^ n) ^ q = (b ^ q) ^ n := by rw [← pow_mul, ← pow_mul, Nat.mul_comm]
    _ ≤ (c ^ p) ^ n := Nat.pow_le_pow_left h n
    _ = c ^ (n * p) := by rw [← pow_mul, Nat.mul_comm]
    _ ≤ c ^ ((n * p / q + 1) * q) := Nat.pow_le_pow_right hc (by
        have := Nat.div_add_mod' (n * p) q
        have := Nat.mod_lt (n * p) hq
        rw [Nat.add_mul]
        omega)
    _ = (c ^ (n * p / q + 1)) ^ q := pow_mul _ _ _

/-! ## Changing the base

Zeros in front are kept, one for one; the rest is the same number. -/

/-- The digits `l`, the most significant one first, from base `b` to base `c`. -/
def rebase (b c : ℕ) (l : List ℕ) : List ℕ :=
  l.takeWhile (· = 0) ++ (Nat.digits c (Nat.ofDigits b (l.dropWhile (· = 0)).reverse)).reverse

variable {b c : ℕ} {l : List ℕ}

theorem dropWhile_digits (hc : 1 < c) (n : ℕ) :
    (Nat.digits c n).reverse.dropWhile (· = 0) = (Nat.digits c n).reverse := by
  rw [dropWhile_reverse_eq hc fun d ↦ Nat.digits_lt_base hc, Nat.ofDigits_digits]

theorem takeWhile_digits (hc : 1 < c) (n : ℕ) : (Nat.digits c n).reverse.takeWhile (· = 0) = [] :=
  List.takeWhile_eq_nil_iff.mpr (List.dropWhile_eq_self_iff.mp (dropWhile_digits hc n))

theorem takeWhile_rebase (hc : 1 < c) (l : List ℕ) :
    (rebase b c l).takeWhile (· = 0) = l.takeWhile (· = 0) := by
  rw [rebase, List.takeWhile_append_of_pos fun d ↦ List.mem_takeWhile_imp, takeWhile_digits hc,
    List.append_nil]

theorem map_takeWhile_eq_zero {α : Type} (f : ℕ → α) (l : List ℕ) :
    (l.takeWhile (· = 0)).map f = List.replicate (l.takeWhile (· = 0)).length (f 0) := by
  refine List.eq_replicate_iff.mpr ⟨List.length_map _, fun x hx ↦ ?_⟩
  obtain ⟨d, hd, rfl⟩ := List.mem_map.mp hx
  rw [show d = 0 by simpa using List.mem_takeWhile_imp hd]

/-- **A change of the base can be undone.** -/
theorem rebase_rebase (hb : 1 < b) (hc : 1 < c) (hl : ∀ d ∈ l, d < b) :
    rebase c b (rebase b c l) = l := by
  have hrest : ∀ d ∈ (l.dropWhile (· = 0)).reverse, d < b :=
    fun d hd ↦ hl d ((List.dropWhile_sublist _).subset (List.mem_reverse.mp hd))
  have hdrop : (rebase b c l).dropWhile (· = 0) =
      (Nat.digits c (Nat.ofDigits b (l.dropWhile (· = 0)).reverse)).reverse := by
    rw [rebase, List.dropWhile_append_of_pos fun d ↦ List.mem_takeWhile_imp, dropWhile_digits hc]
  rw [rebase, takeWhile_rebase hc, hdrop, List.reverse_reverse, Nat.ofDigits_digits,
    ← dropWhile_reverse_eq hb hrest, List.reverse_reverse, List.dropWhile_idempotent,
    List.takeWhile_append_dropWhile]

theorem rebase_lt (hc : 1 < c) {d : ℕ} (hd : d ∈ rebase b c l) : d < c := by
  rcases List.mem_append.mp hd with hd | hd
  · have : d = 0 := by simpa using List.mem_takeWhile_imp hd
    omega
  · exact Nat.digits_lt_base hc (List.mem_reverse.mp hd)

end Digits
