import Mathlib.Data.List.Basic
import Mathlib.Tactic.IntervalCases

/-!
# Bits in a table of bytes

A table of bytes is read and written bit by bit: bit `n` is bit `n % 8` of byte `n / 8`. Setting a
bit sets that bit and clears none.
-/

namespace BitTable

variable {v : List UInt8} {n m : ℕ}

/-- The byte in which only bit `n % 8` is set. -/
def mask (n : ℕ) : UInt8 := 1 <<< UInt8.ofNat (n % 8)

def bit (v : List UInt8) (n : ℕ) : Bool := v[n / 8]?.any fun b ↦ b &&& mask n ≠ 0

def setBit (v : List UInt8) (n : ℕ) : List UInt8 := v.modify (n / 8) (· ||| mask n)

theorem mask_ne_zero (n : ℕ) : mask n ≠ 0 := by
  have hlt : n % 8 < 8 := Nat.mod_lt n (by decide)
  rw [mask]
  interval_cases n % 8 <;> decide

theorem bit_iff : bit v n = true ↔ ∃ b, v[n / 8]? = some b ∧ b &&& mask n ≠ 0 := by
  rw [bit, Option.any_eq_true]
  simp only [decide_eq_true_eq]

theorem length_setBit (v : List UInt8) (n : ℕ) : (setBit v n).length = v.length :=
  List.length_modify ..

theorem or_and_mask (b c d : UInt8) : (b ||| c) &&& d = b &&& d ||| c &&& d :=
  UInt8.eq_of_toBitVec_eq BitVec.and_or_distrib_right

theorem bit_setBit_self (h : n < v.length * 8) : bit (setBit v n) n = true := by
  have hlt : n / 8 < v.length := by omega
  refine bit_iff.mpr ⟨v[n / 8] ||| mask n, ?_, ?_⟩
  · rw [setBit, List.getElem?_modify_eq, List.getElem?_eq_getElem hlt]
    rfl
  · rw [or_and_mask, UInt8.and_self]
    intro hzero
    exact mask_ne_zero n (UInt8.or_eq_zero_iff.mp hzero).2

theorem bit_setBit_of_bit (n : ℕ) (h : bit v m = true) : bit (setBit v n) m = true := by
  obtain ⟨b, hb, hbit⟩ := bit_iff.mp h
  by_cases heq : n / 8 = m / 8
  · refine bit_iff.mpr ⟨b ||| mask n, ?_, ?_⟩
    · rw [setBit, heq, List.getElem?_modify_eq, hb]
      rfl
    · rw [or_and_mask]
      exact fun hzero ↦ hbit (UInt8.or_eq_zero_iff.mp hzero).1
  · refine bit_iff.mpr ⟨b, ?_, hbit⟩
    simp only [setBit, List.getElem?_modify, hb, Option.map_eq_map, Option.map_some, if_neg heq]

theorem exists_ne_zero_of_bit (h : bit v n = true) : ∃ b ∈ v, b ≠ 0 := by
  obtain ⟨b, hb, hbit⟩ := bit_iff.mp h
  refine ⟨b, List.mem_of_getElem? hb, ?_⟩
  rintro rfl
  exact hbit UInt8.zero_and

/-! ## Several bits -/

theorem length_setBits (v : List UInt8) (ns : List ℕ) : (ns.foldl setBit v).length = v.length := by
  induction ns generalizing v with
  | nil => rfl
  | cons n ns ih => rw [List.foldl_cons, ih, length_setBit]

theorem bit_setBits_of_bit (ns : List ℕ) (h : bit v m = true) :
    bit (ns.foldl setBit v) m = true := by
  induction ns generalizing v with
  | nil => exact h
  | cons n ns ih => exact ih (bit_setBit_of_bit n h)

theorem bit_setBits_of_mem {ns : List ℕ} (hm : m ∈ ns) (h : m < v.length * 8) :
    bit (ns.foldl setBit v) m = true := by
  induction ns generalizing v with
  | nil => exact absurd hm List.not_mem_nil
  | cons n ns ih =>
    rcases List.mem_cons.mp hm with rfl | hm
    · exact bit_setBits_of_bit ns (bit_setBit_self h)
    · exact ih hm (by rwa [length_setBit])

end BitTable
