import Mathlib.Data.Nat.Bitwise
import Mathlib.Tactic

/-!
# Bit positions of fixed-width keys

A key is a `BitVec w`, read from its most significant bit down, so that position `0` is the bit a
binary trie branches on first. Everything a compressed trie does with keys reduces to three
notions: the prefix of length `d` (`Under`), a fragment occupying the positions `[lo, hi)` and zero
elsewhere (`SupportedIn`), and the one-bit key `bitAt i`.

Fragments are *absolutely aligned*: the bits a node contributes stay at the positions they have in
the full key, so a prefix is assembled by `|||` and never by shifting. The price is that every
statement below carries the positions it speaks about; the gain is that extensionality by position,
`BitVec.eq_of_getMsbD_eq`, settles all of them.
-/

namespace Patricia

variable {w : ℕ}

/-! ## Prefixes and fragments -/

/-- The keys `p` and `k` agree on their `d` leading bits. -/
def Under (d : ℕ) (p k : BitVec w) : Prop := ∀ i < d, k.getMsbD i = p.getMsbD i

/-- Every set bit of `key` sits at a position of `[lo, hi)`. -/
def SupportedIn (lo hi : ℕ) (key : BitVec w) : Prop :=
  ∀ i, key.getMsbD i = true → lo ≤ i ∧ i < hi

theorem Under.refl (d : ℕ) (p : BitVec w) : Under d p p := fun _ _ ↦ rfl

variable {d lo hi i j n : ℕ} {p k key a b : BitVec w}

theorem Under.symm (h : Under d p k) : Under d k p :=
  fun i hi ↦ (h i hi).symm

theorem Under.mono {e : ℕ} (h : Under e p k) (hde : d ≤ e) : Under d p k :=
  fun i hi ↦ h i (hi.trans_le hde)

theorem SupportedIn.getMsbD_of_ge (h : SupportedIn lo hi key)
    (hi' : hi ≤ i) : key.getMsbD i = false := by
  by_contra hne
  exact absurd (h i (by simpa using hne)).2 (by omega)

theorem SupportedIn.getMsbD_of_lt (h : SupportedIn lo hi key)
    (hlo : i < lo) : key.getMsbD i = false := by
  by_contra hne
  exact absurd (h i (by simpa using hne)).1 (by omega)

theorem supportedIn_zero (lo hi : ℕ) : SupportedIn lo hi (0#w) := by
  intro i h
  simp at h

theorem SupportedIn.mono {lo' hi' : ℕ} (h : SupportedIn lo hi key)
    (hlo : lo' ≤ lo) (hhi : hi ≤ hi') : SupportedIn lo' hi' key :=
  fun i hi ↦ ⟨hlo.trans (h i hi).1, (h i hi).2.trans_le hhi⟩

theorem SupportedIn.or (ha : SupportedIn lo hi a)
    (hb : SupportedIn lo hi b) : SupportedIn lo hi (a ||| b) := by
  intro i h
  rw [BitVec.getMsbD_or, Bool.or_eq_true] at h
  exact h.elim (ha i) (hb i)

theorem SupportedIn.ext (ha : SupportedIn lo hi a)
    (hb : SupportedIn lo hi b) (h : ∀ i, lo ≤ i → i < hi → a.getMsbD i = b.getMsbD i) : a = b := by
  refine BitVec.eq_of_getMsbD_eq fun i _ ↦ ?_
  by_cases hlo : lo ≤ i
  · by_cases hhi : i < hi
    · exact h i hlo hhi
    · rw [ha.getMsbD_of_ge (by omega), hb.getMsbD_of_ge (by omega)]
  · rw [ha.getMsbD_of_lt (by omega), hb.getMsbD_of_lt (by omega)]

/-! ## The one-bit key -/

/-- The key whose only set bit is at position `i`. -/
def bitAt (i : ℕ) : BitVec w := 1#w <<< (w - 1 - i)

theorem getMsbD_bitAt (hi : i < w) : (bitAt i : BitVec w).getMsbD j = decide (j = i) := by
  rw [bitAt, BitVec.getMsbD_shiftLeft, BitVec.getMsbD_one]
  have hw : 0 < w := by omega
  have heq : (j + (w - 1 - i) = w - 1) ↔ j = i := by omega
  simp only [heq, hw, decide_true, Bool.and_true]

/-- The branch bit at position `i`: set on the right side only. -/
def sideBit (i : ℕ) (right : Bool) : BitVec w := if right then bitAt i else 0#w

theorem getMsbD_sideBit (right : Bool) (hi : i < w) :
    (sideBit i right : BitVec w).getMsbD j = (right && decide (j = i)) := by
  cases right
  · simp [sideBit]
  · simp [sideBit, getMsbD_bitAt hi]

theorem supportedIn_sideBit (right : Bool) (hi : i < w) :
    SupportedIn i (i + 1) (sideBit i right : BitVec w) := by
  intro j hj
  rw [getMsbD_sideBit right hi, Bool.and_eq_true, decide_eq_true_iff] at hj
  omega

/-! ## Cutting out a window -/

/-- The bits of `k` at the positions `[lo, lo + n)`, everything else cleared, computed by three
shifts. -/
def slice (k : BitVec w) (lo n : ℕ) : BitVec w := ((k <<< lo) >>> (w - n)) <<< (w - n - lo)

theorem getMsbD_slice (h : lo + n ≤ w) (i : ℕ) :
    (slice k lo n).getMsbD i = (decide (lo ≤ i ∧ i < lo + n) && k.getMsbD i) := by
  rw [slice, BitVec.getMsbD_shiftLeft, BitVec.getMsbD_ushiftRight, BitVec.getMsbD_shiftLeft]
  by_cases hlo : lo ≤ i
  · by_cases hhi : i < lo + n
    · have h1 : i + (w - n - lo) < w := by omega
      have h2 : ¬i + (w - n - lo) < w - n := by omega
      have h3 : i + (w - n - lo) - (w - n) + lo = i := by omega
      simp only [h1, h2, h3, hlo, hhi, decide_true, decide_false, Bool.not_false, Bool.true_and,
        and_self]
    · have h1 : ¬i + (w - n - lo) < w := by omega
      simp only [h1, hhi, decide_false, Bool.false_and, and_false]
  · by_cases hn : i + (w - n - lo) < w - n
    · simp only [hn, hlo, decide_true, Bool.not_true, Bool.false_and, Bool.and_false, false_and,
        decide_false]
    · omega

theorem supportedIn_slice (h : lo + n ≤ w) : SupportedIn lo (lo + n) (slice k lo n) := by
  intro i hi
  rw [getMsbD_slice h, Bool.and_eq_true, decide_eq_true_iff] at hi
  exact hi.1

theorem slice_eq_self (h : lo + n ≤ w)
    (hkey : SupportedIn lo (lo + n) key) : slice key lo n = key := by
  refine (supportedIn_slice h).ext hkey fun i hlo hhi ↦ ?_
  rw [getMsbD_slice h]
  simp [hlo, hhi]

theorem slice_eq_iff (h : lo + n ≤ w) (hkey : SupportedIn lo (lo + n) key) :
    slice k lo n = key ↔ ∀ i, lo ≤ i → i < lo + n → k.getMsbD i = key.getMsbD i := by
  constructor
  · intro heq i hlo hhi
    rw [← heq, getMsbD_slice h]
    simp [hlo, hhi]
  · intro hall
    refine (supportedIn_slice h).ext hkey fun i hlo hhi ↦ ?_
    rw [getMsbD_slice h, ← hall i hlo hhi]
    simp [hlo, hhi]

/-! ## The first position of disagreement -/

/-- How many leading bits two keys share, read off by shifting both left; `fuel` bounds the
number of shifts. -/
def leadingEqual : ℕ → BitVec w → BitVec w → ℕ
  | 0, _, _ => 0
  | fuel + 1, a, b => if a.msb = b.msb then leadingEqual fuel (a <<< 1) (b <<< 1) + 1 else 0

theorem msb_shiftLeft_eq_getMsbD (k : BitVec w) (d : ℕ) : (k <<< d).msb = k.getMsbD d := by
  rw [BitVec.msb, BitVec.getMsbD_shiftLeft, Nat.zero_add]

theorem leadingEqual_shiftLeft :
    ∀ (fuel d n : ℕ), n < fuel → (∀ i < n, a.getMsbD (d + i) = b.getMsbD (d + i)) →
      a.getMsbD (d + n) ≠ b.getMsbD (d + n) → leadingEqual fuel (a <<< d) (b <<< d) = n := by
  intro fuel
  induction fuel with
  | zero => intro d n hn; omega
  | succ fuel ih =>
    intro d n hn hsame hdiff
    rw [leadingEqual, msb_shiftLeft_eq_getMsbD, msb_shiftLeft_eq_getMsbD]
    cases n with
    | zero => rw [if_neg (by simpa using hdiff)]
    | succ n =>
      rw [if_pos (by simpa using hsame 0 (by omega)), ← BitVec.shiftLeft_add,
        ← BitVec.shiftLeft_add]
      congr 1
      refine ih (d + 1) n (by omega) (fun i hi ↦ ?_) ?_
      · have := hsame (i + 1) (by omega)
        rwa [(by omega : d + (i + 1) = d + 1 + i)] at this
      · rwa [(by omega : d + (n + 1) = d + 1 + n)] at hdiff

theorem exists_first_diff (hi : d ≤ i) (hne : a.getMsbD i ≠ b.getMsbD i) :
    ∃ n, d + n ≤ i ∧ (∀ j < n, a.getMsbD (d + j) = b.getMsbD (d + j)) ∧
      a.getMsbD (d + n) ≠ b.getMsbD (d + n) := by
  classical
  have hex : ∃ n, a.getMsbD (d + n) ≠ b.getMsbD (d + n) :=
    ⟨i - d, by rwa [Nat.add_sub_cancel' hi]⟩
  refine ⟨Nat.find hex, ?_, fun j hj ↦ not_not.mp (Nat.find_min hex hj), Nat.find_spec hex⟩
  have hle : Nat.find hex ≤ i - d :=
    Nat.find_min' hex (by rwa [Nat.add_sub_cancel' hi])
  omega

theorem lt_width_of_getMsbD_ne (h : a.getMsbD i ≠ b.getMsbD i) : i < w := by
  by_contra hge
  rw [BitVec.getMsbD_of_ge _ _ (not_lt.mp hge), BitVec.getMsbD_of_ge _ _ (not_lt.mp hge)] at h
  exact h rfl

/-! ## Order -/

theorem testBit_toNat_eq_getMsbD (k : BitVec w) (hi : i < w) :
    k.toNat.testBit i = k.getMsbD (w - 1 - i) := by
  rw [BitVec.testBit_toNat, BitVec.getMsbD_eq_getLsbD, decide_eq_true (by omega), Bool.true_and,
    (by omega : w - 1 - (w - 1 - i) = i)]

theorem lt_of_first_diff (hsame : Under n a b)
    (ha : a.getMsbD n = false) (hb : b.getMsbD n = true) : a < b := by
  have hn : n < w := lt_width_of_getMsbD_ne (a := a) (b := b) (by simp [ha, hb])
  rw [BitVec.lt_def]
  refine Nat.lt_of_testBit (w - 1 - n) ?_ ?_ fun j hj ↦ ?_
  · rw [testBit_toNat_eq_getMsbD a (by omega), (by omega : w - 1 - (w - 1 - n) = n), ha]
  · rw [testBit_toNat_eq_getMsbD b (by omega), (by omega : w - 1 - (w - 1 - n) = n), hb]
  · by_cases hjw : j < w
    · rw [testBit_toNat_eq_getMsbD a hjw, testBit_toNat_eq_getMsbD b hjw]
      exact (hsame _ (by omega)).symm
    · rw [Nat.testBit_eq_false_of_lt (a.isLt.trans_le (Nat.pow_le_pow_right (by omega)
        (by omega))), Nat.testBit_eq_false_of_lt (b.isLt.trans_le (Nat.pow_le_pow_right (by omega)
        (by omega)))]

/-- Shifting two keys past their common prefix leaves the first difference to decide the order. -/
theorem shiftLeft_lt_iff (hsame : ∀ j < n, a.getMsbD (d + j) = b.getMsbD (d + j))
    (hne : a.getMsbD (d + n) ≠ b.getMsbD (d + n)) :
    a <<< d < b <<< d ↔ a.getMsbD (d + n) = false := by
  have hbit : ∀ (k : BitVec w) (j : ℕ), (k <<< d).getMsbD j = k.getMsbD (d + j) := by
    intro k j
    rw [BitVec.getMsbD_shiftLeft, Nat.add_comm]
  have hshift : Under n (a <<< d) (b <<< d) := fun j hj ↦ by rw [hbit, hbit, hsame j hj]
  constructor
  · intro hlt
    by_contra ha
    rw [Bool.not_eq_false] at ha
    have hb : b.getMsbD (d + n) = false := Bool.eq_false_iff.mpr (ha ▸ hne.symm)
    have hgt : b <<< d < a <<< d :=
      lt_of_first_diff hshift.symm ((hbit b n).trans hb) ((hbit a n).trans ha)
    rw [BitVec.lt_def] at hlt hgt
    exact lt_asymm hlt hgt
  · intro ha
    have hb : b.getMsbD (d + n) = true := Bool.eq_true_of_not_eq_false (ha ▸ hne.symm)
    exact lt_of_first_diff hshift ((hbit a n).trans ha) ((hbit b n).trans hb)

theorem shiftLeft_ne (hne : a.getMsbD (d + n) ≠ b.getMsbD (d + n)) : a <<< d ≠ b <<< d := by
  intro heq
  refine hne ?_
  have h := congrArg (fun k : BitVec w ↦ k.getMsbD n) heq
  simpa only [BitVec.getMsbD_shiftLeft, Nat.add_comm n d] using h

end Patricia
