import Cryptonite.Core.Transaction
import Mathlib.Data.Nat.Digits.Defs

/-!
# The block reward

`GetBlockValue` of `main.cpp` computes the share of the coinbase account that goes to the finder of
a block. The product does not fit 64 bits, so the numbers go through GMP: `mpz_import` makes one of
a word, and `mpz_export` writes the words of one into an array on the stack, of which the first is
the result.

`mpz_export` writes as many words as the number has, and zero has none. If the account holds too
little for a reward, the result is whatever the array held before (`blockValue_exact_iff`).
-/

namespace Cryptonite

/-! ## The model -/

/-- `mpz_set_uii`: `mpz_import` of a single word. -/
def mpzSetUii (v : UInt64) : ℕ := v.toNat

/-- The words of a number, the least significant one first. -/
def mpzWords (n : ℕ) : List UInt64 := (Nat.digits (2 ^ 64) n).map UInt64.ofNat

/-- `mpz_export` into an array: what is behind the words remains. -/
def mpzExport (v : ℕ → UInt64) (n : ℕ) : ℕ → UInt64 := fun i ↦ ((mpzWords n)[i]?).getD (v i)

/-- `GetBlockValue`, with the array of `mpz_get_uii` as it is found on the stack. -/
def blockValue (v : ℕ → UInt64) (coinbase nFees : UInt64) : UInt64 :=
  let mcb := mpzSetUii coinbase * mpzSetUii (243 * COIN + 10 * CENT)
  let mquot := mcb / mpzSetUii MAX_MONEY
  mpzExport v mquot 0 + nFees

/-! ## The result -/

variable {v : ℕ → UInt64} {coinbase nFees : UInt64}

theorem mpzExport_zero (v : ℕ → UInt64) (n : ℕ) : mpzExport v n 0 = mpzGetUii (v 0) n := by
  rw [mpzExport, mpzWords, mpzGetUii]
  rcases n with _ | n
  · simp
  · rw [if_neg (Nat.succ_ne_zero n), Nat.digits_of_two_le_of_pos (by norm_num) n.succ_pos,
      List.map_cons, List.getElem?_cons_zero, Option.getD_some]
    exact UInt64.ofNat_mod_size

theorem blockValue_eq (v : ℕ → UInt64) (coinbase nFees : UInt64) :
    blockValue v coinbase nFees = getBlockValue (v 0) coinbase nFees := by
  rw [blockValue, mpzExport_zero]
  rfl

/-- **The reward formula.** `GetBlockValue` is the share of the coinbase account and the fees, if
that fits 64 bits, iff there is a share at all or the stack happens to hold a zero. -/
theorem blockValue_exact_iff (hfits : coinbase.toNat * (243 * COIN + 10 * CENT).toNat /
      MAX_MONEY.toNat + nFees.toNat < 2 ^ 64) :
    (blockValue v coinbase nFees).toNat = coinbase.toNat * (243 * COIN + 10 * CENT).toNat /
        MAX_MONEY.toNat + nFees.toNat ↔
      MAX_MONEY.toNat ≤ coinbase.toNat * (243 * COIN + 10 * CENT).toNat ∨ v 0 = 0 := by
  have hshare : MAX_MONEY.toNat ≤ coinbase.toNat * (243 * COIN + 10 * CENT).toNat ↔
      coinbase.toNat * (243 * COIN + 10 * CENT).toNat / MAX_MONEY.toNat ≠ 0 := by
    rw [ne_eq, Nat.div_eq_zero_iff, or_iff_right (by decide), not_lt]
  rw [blockValue_eq, getBlockValue, mpzGetUii, hshare]
  generalize coinbase.toNat * (243 * COIN + 10 * CENT).toNat / MAX_MONEY.toNat = share at hfits ⊢
  have hfees := nFees.toNat_lt
  by_cases hzero : share = 0
  · -- nothing is written, and the old word is added to the fees
    have hold := (v 0).toNat_lt
    rw [if_pos hzero, or_iff_right (not_not.mpr hzero), hzero, Nat.zero_add, UInt64.toNat_add,
      ← UInt64.toNat_inj]
    change _ ↔ (v 0).toNat = 0
    omega
  · rw [if_neg hzero, UInt64.toNat_add, UInt64.toNat_ofNat_of_lt' (by
      rw [show UInt64.size = 2 ^ 64 from rfl]; omega), Nat.mod_eq_of_lt hfits]
    exact iff_of_true rfl (.inl hzero)

/-- The reward of the first block. -/
theorem blockValue_exact_genesis : (blockValue (fun _ ↦ 7) MAX_MONEY 0).toNat = 2431000000000 :=
  (blockValue_exact_iff (by decide)).mpr (.inl (by decide))

/-- An account with seven million units, less than a thousandth of a coin, has nothing to pay, and
`GetBlockValue` returns a part of the stack. -/
theorem blockValue_from_stack : 7000000 * (243 * COIN + 10 * CENT).toNat / MAX_MONEY.toNat + 5 = 5 ∧
    blockValue (fun _ ↦ 7) 7000000 5 = 12 ∧ blockValue (fun _ ↦ 0) 7000000 5 = 5 := by
  simp only [blockValue_eq]
  decide

end Cryptonite
