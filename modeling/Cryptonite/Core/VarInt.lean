import Mathlib.Data.List.Basic
import Mathlib.Tactic.Ring

/-!
# Variable-length integers

Undo records keep their counters as `VARINT`s.  `WriteVarInt` splits an integer into base 128
digits, most significant first, with the high bit on every byte but the last, and takes one off
each digit that is followed by another.  Over unbounded integers that makes the encoding a
bijection: every sequence of flagged bytes closed by an unflagged one is the encoding of exactly
one number.

The reader works in a type of `w` bits and never looks whether a shift pushed bits out of it.  What
it returns is the number the bytes encode modulo `2 ^ w`, so a sequence it accepts is the one the
writer gives for the value returned just when the number fits the type.
-/

namespace Cryptonite

/-! ## The writer -/

/-- The bytes `WriteVarInt` leaves in `tmp`, from index `len` on; `flag` is `len ? 0x80 : 0x00`. -/
def varIntTmp (flag : UInt8) (n : ℕ) : List UInt8 :=
  (UInt8.ofNat (n &&& 0x7F) ||| flag) ::
    if n ≤ 0x7F then [] else varIntTmp 0x80 ((n >>> 7) - 1)
termination_by n
decreasing_by simp only [Nat.shiftRight_eq_div_pow]; omega

/-- `WriteVarInt`: the bytes of `tmp`, the last one first. -/
def writeVarInt (n : ℕ) : List UInt8 :=
  (varIntTmp 0 n).reverse

/-- `GetSizeOfVarInt`: the loop of the writer, counting. -/
def getSizeOfVarInt (n : ℕ) : ℕ :=
  1 + if n ≤ 0x7F then 0 else getSizeOfVarInt ((n >>> 7) - 1)
termination_by n
decreasing_by simp only [Nat.shiftRight_eq_div_pow]; omega

/-! ## The reader -/

/-- The loop of `ReadVarInt`, in a type whose results pass through `wrap`; no more bytes is the
exception of the stream. -/
def readVarIntFrom (wrap : ℕ → ℕ) (n : ℕ) : List UInt8 → Option (ℕ × List UInt8)
  | [] => none
  | chData :: is =>
    let n := wrap (n <<< 7) ||| (chData &&& 0x7F).toNat
    if chData &&& 0x80 ≠ 0 then readVarIntFrom wrap (wrap (n + 1)) is else some (n, is)

/-- `ReadVarInt` at an unsigned type of `w` bits. -/
def readVarInt (w : ℕ) (is : List UInt8) : Option (ℕ × List UInt8) :=
  readVarIntFrom (· % 2 ^ w) 0 is

/-! ## Digits

A byte is a digit below 128 and a flag.  `digitsBefore n` is what the writer leaves above a digit
when `n` is what the reader holds before it. -/

/-- The digits that bring an empty reader to `n`, last one first. -/
def digitsBefore : ℕ → List UInt8
  | 0 => []
  | k + 1 => varIntTmp 0x80 k

variable {d n v w : ℕ} {is rest : List UInt8}

theorem varIntTmp_digit (flag : UInt8) (n : ℕ) (hd : d < 128) :
    varIntTmp flag (n * 128 + d) = (UInt8.ofNat d ||| flag) :: digitsBefore n := by
  have hlow : (n * 128 + d) &&& 0x7F = d := by
    rw [Nat.and_two_pow_sub_one_eq_mod _ 7]
    omega
  rw [varIntTmp, hlow, Nat.shiftRight_eq_div_pow]
  cases n with
  | zero => rw [if_pos (by omega), digitsBefore]
  | succ k =>
    rw [if_neg (by omega), digitsBefore, show ((k + 1) * 128 + d) / 2 ^ 7 - 1 = k by omega]

theorem digit_flagged : ∀ {d : ℕ}, d < 128 →
    ((UInt8.ofNat d ||| 0x80) &&& 0x7F).toNat = d ∧ (UInt8.ofNat d ||| 0x80) &&& 0x80 ≠ 0 := by
  decide +kernel

theorem digit_last : ∀ {d : ℕ}, d < 128 →
    ((UInt8.ofNat d ||| 0) &&& 0x7F).toNat = d ∧ (UInt8.ofNat d ||| 0) &&& 0x80 = 0 := by
  decide +kernel

theorem byte_eq_digit (c : UInt8) :
    (c &&& 0x7F).toNat < 128 ∧
      (UInt8.ofNat (c &&& 0x7F).toNat ||| if c &&& 0x80 ≠ 0 then 0x80 else 0) = c := by
  have hall : ∀ n < 256, (UInt8.ofNat n &&& 0x7F).toNat < 128 ∧
      (UInt8.ofNat (UInt8.ofNat n &&& 0x7F).toNat |||
        if UInt8.ofNat n &&& 0x80 ≠ 0 then 0x80 else 0) = UInt8.ofNat n := by
    decide +kernel
  simpa using hall c.toNat c.toNat_lt

theorem shift_or_digit (n : ℕ) (hd : d < 128) : n <<< 7 ||| d = n * 128 + d := by
  rw [← Nat.shiftLeft_add_eq_or_of_lt (by omega), Nat.shiftLeft_eq]

theorem readVarIntFrom_id_cons (n : ℕ) (c : UInt8) (is : List UInt8) :
    readVarIntFrom id n (c :: is) =
      if c &&& 0x80 ≠ 0 then readVarIntFrom id (n * 128 + (c &&& 0x7F).toNat + 1) is
      else some (n * 128 + (c &&& 0x7F).toNat, is) := by
  rw [← shift_or_digit n (byte_eq_digit c).1]
  rfl

/-! ## Over unbounded integers -/

theorem readVarIntFrom_digitsBefore (n : ℕ) (is : List UInt8) :
    readVarIntFrom id 0 ((digitsBefore n).reverse ++ is) = readVarIntFrom id n is := by
  induction n using Nat.strong_induction_on generalizing is with
  | _ n ih =>
    cases n with
    | zero => rfl
    | succ k =>
      have hd : k % 128 < 128 := Nat.mod_lt _ (by omega)
      obtain ⟨hlow, hflag⟩ := digit_flagged hd
      rw [digitsBefore, ← Nat.div_add_mod' k 128, varIntTmp_digit _ _ hd, List.reverse_cons,
        List.append_assoc, List.singleton_append, ih _ (by omega), readVarIntFrom_id_cons,
        if_pos hflag, hlow]

theorem eq_writeVarInt_of_read (h : readVarIntFrom id n is = some (v, rest)) :
    (digitsBefore n).reverse ++ is = writeVarInt v ++ rest := by
  induction is generalizing n with
  | nil => exact absurd h (by simp [readVarIntFrom])
  | cons c is ih =>
    obtain ⟨hd, hc⟩ := byte_eq_digit c
    rw [readVarIntFrom_id_cons] at h
    by_cases hflag : c &&& 0x80 ≠ 0
    · rw [if_pos hflag] at h hc
      rw [← ih h, digitsBefore, varIntTmp_digit _ _ hd, hc]
      simp
    · rw [if_neg hflag] at h hc
      cases h
      rw [writeVarInt, varIntTmp_digit _ _ hd, hc]
      simp

/-- **The encoding is a bijection.**  Over unbounded integers the bytes read as `v` are the ones
written for `v`. -/
theorem readVarIntFrom_id_iff :
    readVarIntFrom id 0 is = some (v, rest) ↔ is = writeVarInt v ++ rest := by
  constructor
  · exact eq_writeVarInt_of_read
  · rintro rfl
    have hd : v % 128 < 128 := Nat.mod_lt _ (by omega)
    obtain ⟨hlow, hflag⟩ := digit_last hd
    rw [writeVarInt, ← Nat.div_add_mod' v 128, varIntTmp_digit _ _ hd, List.reverse_cons,
      List.append_assoc, List.singleton_append, readVarIntFrom_digitsBefore,
      readVarIntFrom_id_cons, if_neg (not_not.mpr hflag), hlow]

theorem writeVarInt_injective : Function.Injective writeVarInt := by
  intro v v' h
  have hv := readVarIntFrom_id_iff.mpr (congrArg (· ++ []) h)
  have hv' := readVarIntFrom_id_iff.mpr (rfl : writeVarInt v ++ [] = _)
  simpa using hv'.symm.trans hv

/-! ## In a type of `w` bits -/

/-- In `w` bits every step is the unbounded one modulo `2 ^ w`. -/
theorem readVarIntFrom_mod (hw : 7 ≤ w) (n : ℕ) (is : List UInt8) :
    readVarIntFrom (· % 2 ^ w) (n % 2 ^ w) is =
      (readVarIntFrom id n is).map fun r ↦ (r.1 % 2 ^ w, r.2) := by
  induction is generalizing n with
  | nil => rfl
  | cons c is ih =>
    have hd := (byte_eq_digit c).1
    -- seven bits are free after the shift, so the digit goes in without a carry
    have hstep : (n % 2 ^ w) <<< 7 % 2 ^ w ||| (c &&& 0x7F).toNat =
        (n * 128 + (c &&& 0x7F).toNat) % 2 ^ w := by
      obtain ⟨k, rfl⟩ := Nat.exists_eq_add_of_le hw
      rw [Nat.shiftLeft_eq, pow_add, Nat.mul_comm (2 ^ 7), Nat.mul_mod_mul_right,
        ← Nat.shiftLeft_eq, shift_or_digit _ hd, Nat.mod_mul_right_mod, Nat.mul_comm (2 ^ k),
        Nat.mod_mul, show (n * 128 + (c &&& 0x7F).toNat) / 2 ^ 7 = n by omega]
      omega
    rw [readVarIntFrom_id_cons, readVarIntFrom]
    simp only [hstep, Nat.mod_add_mod]
    split
    · exact ih _
    · rfl

theorem readVarInt_iff (hw : 7 ≤ w) :
    readVarInt w is = some (v, rest) ↔ ∃ n, is = writeVarInt n ++ rest ∧ v = n % 2 ^ w := by
  have h := readVarIntFrom_mod hw 0 is
  rw [Nat.zero_mod] at h
  rw [readVarInt, h, Option.map_eq_some_iff]
  constructor
  · rintro ⟨⟨n, r⟩, hread, heq⟩
    obtain ⟨rfl, rfl⟩ : n % 2 ^ w = v ∧ r = rest := by simpa using heq
    exact ⟨n, readVarIntFrom_id_iff.mp hread, rfl⟩
  · rintro ⟨n, his, rfl⟩
    exact ⟨(n, rest), readVarIntFrom_id_iff.mpr his, rfl⟩

/-! ## Sizes -/

theorem getSizeOfVarInt_eq (flag : UInt8) (n : ℕ) :
    getSizeOfVarInt n = (varIntTmp flag n).length := by
  induction n using Nat.strong_induction_on generalizing flag with
  | _ n ih =>
    rw [getSizeOfVarInt, varIntTmp, List.length_cons, Nat.add_comm]
    split
    · rfl
    · rw [← ih _ (by rw [Nat.shiftRight_eq_div_pow]; omega)]

theorem length_varIntTmp_le (flag : UInt8) {k : ℕ} (h : n < 128 ^ (k + 1)) :
    (varIntTmp flag n).length ≤ k + 1 := by
  induction k generalizing flag n with
  | zero => rw [varIntTmp, if_pos (by omega)]; rfl
  | succ k ih =>
    rw [varIntTmp, List.length_cons]
    split
    · simp
    · have hk : (n >>> 7) - 1 < 128 ^ (k + 1) := by
        rw [Nat.shiftRight_eq_div_pow]
        have := Nat.div_lt_of_lt_mul (pow_succ' 128 (k + 1) ▸ h)
        omega
      exact Nat.succ_le_succ (ih _ hk)

theorem length_writeVarInt_le (hw : 7 ≤ w) (h : n < 2 ^ w) :
    (writeVarInt n).length ≤ (w + 6) / 7 := by
  obtain ⟨k, hk⟩ : ∃ k, (w + 6) / 7 = k + 1 := ⟨(w + 6) / 7 - 1, by omega⟩
  rw [writeVarInt, List.length_reverse, hk]
  refine length_varIntTmp_le 0 (lt_of_lt_of_le h ?_)
  calc 2 ^ w ≤ 2 ^ (7 * (k + 1)) := Nat.pow_le_pow_right (by omega) (by omega)
    _ = 128 ^ (k + 1) := pow_mul 2 7 (k + 1)

/-! ## The codec -/

/-- **What a variable-length integer round trips.**  In an unsigned type of `w` bits the value
written is read back, in the number of bytes `GetSizeOfVarInt` says, all of which fit `tmp`.  A
sequence accepted as a whole is the encoding of some number `n`, read as `n` modulo `2 ^ w`, and it
is what the writer gives for the value returned just when `n` fits the type. -/
theorem varInt_canonical_iff (w : ℕ) (hw : 7 ≤ w) :
    (∀ n < 2 ^ w, ∀ rest,
      readVarInt w (writeVarInt n ++ rest) = some (n, rest) ∧
        getSizeOfVarInt n = (writeVarInt n).length ∧ (writeVarInt n).length ≤ (w + 6) / 7) ∧
    ∀ bytes v, readVarInt w bytes = some (v, []) →
      ∃ n, bytes = writeVarInt n ∧ v = n % 2 ^ w ∧ (bytes = writeVarInt v ↔ n < 2 ^ w) := by
  refine ⟨fun n hn rest ↦ ⟨?_, ?_, length_writeVarInt_le hw hn⟩, fun bytes v h ↦ ?_⟩
  · exact (readVarInt_iff hw).mpr ⟨n, rfl, (Nat.mod_eq_of_lt hn).symm⟩
  · rw [getSizeOfVarInt_eq 0, writeVarInt, List.length_reverse]
  · obtain ⟨n, hbytes, rfl⟩ := (readVarInt_iff hw).mp h
    rw [List.append_nil] at hbytes
    refine ⟨n, hbytes, rfl, ?_⟩
    rw [hbytes, writeVarInt_injective.eq_iff, eq_comm, Nat.mod_eq_iff_lt (Nat.two_pow_pos w).ne']

/-- The two types the code uses. -/
theorem varInt_canonical_words :
    (∀ n < 2 ^ 32, readVarInt 32 (writeVarInt n) = some (n, [])) ∧
      ∀ n < 2 ^ 64, readVarInt 64 (writeVarInt n) = some (n, []) :=
  ⟨fun n hn ↦ by simpa using ((varInt_canonical_iff 32 (by decide)).1 n hn []).1,
    fun n hn ↦ by simpa using ((varInt_canonical_iff 64 (by decide)).1 n hn []).1⟩

/-- The five bytes of `2 ^ 32` are read into 32 bits as zero, which is written as one byte. -/
theorem varInt_wraps :
    readVarInt 32 [0x8E, 0xFE, 0xFE, 0xFF, 0x00] = some (0, []) ∧
      writeVarInt 0 ≠ [0x8E, 0xFE, 0xFE, 0xFF, 0x00] := by
  refine ⟨by decide, ?_⟩
  rw [writeVarInt, varIntTmp, if_pos (by decide)]
  decide

end Cryptonite
