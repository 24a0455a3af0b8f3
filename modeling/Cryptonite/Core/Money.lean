import Mathlib.Data.BitVec
import Mathlib.Data.List.TakeWhile
import Mathlib.Data.Nat.Digits.Lemmas
import Mathlib.Data.Nat.Log
import Cryptonite.Core.Transaction

/-!
# Amounts as text

`FormatMoney` writes an amount in coins, with ten decimals of which the zeros at the end are left
out, but not the first two. `ParseMoney` reads a whole part of at most ten digits and a fraction of
at most ten, with spaces around them.

Both work with `int64_t`, while the amounts of the ledger are `uint64_t` up to `MAX_MONEY`, which is
beyond `2 ^ 63`. From there on an amount is written as a negative number, and not read at all. Ten
digits in front of the point are more than 64 bits can hold: `ParseMoney` returns what is written
modulo `2 ^ 64`.
-/

namespace Cryptonite

def isdigit (c : Char) : Bool := 48 ≤ c.toNat ∧ c.toNat ≤ 57

def isspace (c : Char) : Bool := c.toNat = 32 ∨ 9 ≤ c.toNat ∧ c.toNat ≤ 13

def digit (c : Char) : ℕ := c.toNat - 48

def digitChar (d : ℕ) : Char := Char.ofNat (48 + d)

/-- The number that a row of digits is. -/
def numeral (l : List Char) : ℕ := Nat.ofDigits 10 (l.reverse.map digit)

/-- The last `k` decimals of `n`, with zeros in front. -/
def decimals : ℕ → ℕ → List Char
  | 0, _ => []
  | k + 1, n => decimals k (n / 10) ++ [digitChar (n % 10)]

/-! ## Formatting -/

/-- The loop that cuts zeros off the end, for a string from its end on. -/
def trimZeros : List Char → List Char
  | c :: d :: e :: str =>
    if c = '0' ∧ isdigit e then trimZeros (d :: e :: str) else c :: d :: e :: str
  | str => str

/-- `FormatMoney`, of a number in two's complement. -/
def formatMoney (n : BitVec 64) (fPlus : Bool) : List Char :=
  let nAbs := if 0 < n.toInt then n else -n
  let quotient := nAbs.toNat / COIN.toNat
  let remainder := nAbs.toNat % COIN.toNat
  let str := decimals (Nat.log 10 quotient + 1) quotient ++ '.' :: decimals 10 remainder
  let str := (trimZeros str.reverse).reverse
  if n.toInt < 0 then '-' :: str else if fPlus ∧ 0 < n.toInt then '+' :: str else str

/-! ## Parsing -/

/-- The loop over the fraction. -/
def fractionLoop : ℕ → ℕ → List Char → ℕ × List Char
  | _, nUnits, [] => (nUnits, [])
  | nMult, nUnits, c :: p =>
    if isdigit c ∧ nMult > 0 then fractionLoop (nMult / 10) (nUnits + nMult * digit c) p
    else (nUnits, c :: p)

/-- The loop over the whole part, with `strWhole` so far: the whole part, the units of the fraction,
and what is left. -/
def wholeLoop : List Char → List Char → Option (List Char × ℕ × List Char)
  | strWhole, [] => some (strWhole, 0, [])
  | strWhole, c :: p =>
    if c = '.' then some (strWhole, fractionLoop (CENT.toNat * 10) 0 p)
    else if isspace c then some (strWhole, 0, c :: p)
    else if !isdigit c then none
    else wholeLoop (strWhole ++ [c]) p

/-- `strtoll` of a row of digits. -/
def atoi64 (str : List Char) : ℕ := min (numeral str) (2 ^ 63 - 1)

/-- `ParseMoney` of a string up to its first NUL. -/
def parseMoney (str : List Char) : Option (BitVec 64) :=
  (wholeLoop [] ((str.takeWhile (· ≠ '\x00')).dropWhile isspace)).bind fun (strWhole, nUnits, p) ↦
    if !p.all isspace then none
    else if strWhole.length > 10 then none
    else if nUnits > COIN.toNat then none
    else some (BitVec.ofNat 64 (atoi64 strWhole * COIN.toNat + nUnits))

/-! ## Digits -/

theorem digitChar_spec : ∀ d < 10, isdigit (digitChar d) = true ∧ digit (digitChar d) = d := by
  decide

theorem numeral_cons (c : Char) (l : List Char) :
    numeral (c :: l) = digit c * 10 ^ l.length + numeral l := by
  simp only [numeral, List.reverse_cons, List.map_append, Nat.ofDigits_append, List.map_cons,
    List.map_nil, Nat.ofDigits_singleton, List.length_map, List.length_reverse]
  ring

theorem numeral_snoc (l : List Char) (c : Char) :
    numeral (l ++ [c]) = digit c + 10 * numeral l := by
  simp [numeral, Nat.ofDigits_cons]

variable {l fraction whole : List Char} {n : BitVec 64}

theorem numeral_lt (hl : ∀ c ∈ l, isdigit c = true) : numeral l < 10 ^ l.length := by
  have h := Nat.ofDigits_lt_base_pow_length (b := 10) (l := l.reverse.map digit) (by decide) (by
    intro d hd
    obtain ⟨c, hc, rfl⟩ := List.mem_map.mp hd
    have := of_decide_eq_true (hl c (List.mem_reverse.mp hc))
    simp only [digit]
    omega)
  simpa [numeral] using h

theorem decimals_spec (k n : ℕ) : (decimals k n).length = k ∧
    (∀ c ∈ decimals k n, isdigit c = true) ∧ numeral (decimals k n) = n % 10 ^ k := by
  induction k generalizing n with
  | zero => simp [decimals, numeral, Nat.mod_one]
  | succ k ih =>
    obtain ⟨hlength, hdigits, hvalue⟩ := ih (n / 10)
    obtain ⟨hdigit, hd⟩ := digitChar_spec (n % 10) (Nat.mod_lt n (by decide))
    refine ⟨by simp [decimals, hlength], ?_, ?_⟩
    · rw [decimals]
      simpa [or_imp, forall_and] using ⟨hdigits, hdigit⟩
    · rw [decimals, numeral_snoc, hvalue, hd, pow_succ', Nat.mod_mul]

/-! ## The loops -/

/-- The fraction is cut off after `j` digits. -/
theorem fractionLoop_eq (j u : ℕ) (p : List Char) : fractionLoop (10 ^ j / 10) u p =
      (u + numeral ((p.takeWhile isdigit).take j) *
          10 ^ (j - ((p.takeWhile isdigit).take j).length),
        p.drop ((p.takeWhile isdigit).take j).length) := by
  induction p generalizing j u with
  | nil => simp [fractionLoop, numeral]
  | cons c p ih =>
    rw [fractionLoop]
    by_cases hc : isdigit c = true
    · rw [List.takeWhile_cons_of_pos hc]
      rcases j with _ | j
      · simp [numeral]
      · have hpos : 10 ^ (j + 1) / 10 = 10 ^ j := by rw [pow_succ, Nat.mul_div_cancel _ (by decide)]
        have hle := List.length_take_le j (p.takeWhile isdigit)
        rw [hpos, if_pos ⟨hc, by positivity⟩, ih, List.take_succ_cons, numeral_cons,
          List.length_cons, Nat.add_sub_add_right, List.drop_succ_cons, Nat.add_mul, Nat.mul_assoc,
          ← pow_add, Nat.add_sub_cancel' hle]
        ring_nf
    · rw [if_neg (fun h ↦ hc h.1), List.takeWhile_cons_of_neg hc]
      simp [numeral]

theorem wholeLoop_eq (w p : List Char) :
    wholeLoop w p = wholeLoop (w ++ p.takeWhile isdigit) (p.dropWhile isdigit) := by
  induction p generalizing w with
  | nil => simp
  | cons c p ih =>
    by_cases hc : isdigit c = true
    · have hrange := of_decide_eq_true hc
      have hdot : c ≠ '.' := by rintro rfl; exact absurd hc (by decide)
      have hspace : isspace c = false := decide_eq_false (by omega)
      rw [List.takeWhile_cons_of_pos hc, List.dropWhile_cons_of_pos hc, wholeLoop, if_neg hdot,
        hspace, hc, ih]
      simp
    · rw [List.takeWhile_cons_of_neg hc, List.dropWhile_cons_of_neg hc, List.append_nil]

/-! ## What is read -/

/-- The digits of the amount that is written in a string. -/
structure Written (psz whole fraction : List Char) : Prop where
  whole_digits : ∀ c ∈ whole, isdigit c = true
  fraction_digits : ∀ c ∈ fraction, isdigit c = true
  form : ∃ lead point trail, psz = lead ++ (whole ++ (point ++ (fraction ++ trail))) ∧
    (∀ c ∈ lead, isspace c = true) ∧ (∀ c ∈ trail, isspace c = true) ∧
    (point = ['.'] ∨ point = [] ∧ fraction = [])

/-- The number that is written times `COIN`. -/
def amount (whole fraction : List Char) : ℕ :=
  numeral whole * COIN.toNat + numeral fraction * 10 ^ (10 - fraction.length)

theorem amount_units (hdigits : ∀ c ∈ fraction, isdigit c = true) (hlength : fraction.length ≤ 10) :
    numeral fraction * 10 ^ (10 - fraction.length) < COIN.toNat :=
  calc numeral fraction * 10 ^ (10 - fraction.length)
      < 10 ^ fraction.length * 10 ^ (10 - fraction.length) :=
        Nat.mul_lt_mul_of_pos_right (numeral_lt hdigits) (by positivity)
    _ = 10 ^ 10 := by rw [← pow_add, Nat.add_sub_cancel' hlength]

theorem atoi64_eq (hdigits : ∀ c ∈ whole, isdigit c = true)
    (hlength : whole.length ≤ 10) : atoi64 whole = numeral whole := by
  have := (numeral_lt hdigits).trans_le (Nat.pow_le_pow_right (by decide) hlength)
  exact Nat.min_eq_left (by omega)

/-- What is accepted is a number, and it is read modulo `2 ^ 64`. -/
theorem written_of_parseMoney {str : List Char} {v : BitVec 64} (h : parseMoney str = some v) :
    ∃ whole fraction, Written (str.takeWhile (· ≠ '\x00')) whole fraction ∧
      whole.length ≤ 10 ∧ fraction.length ≤ 10 ∧ v = BitVec.ofNat 64 (amount whole fraction) := by
  obtain ⟨⟨whole, units, trail⟩, hloop, h⟩ := Option.bind_eq_some_iff.mp h
  set psz := str.takeWhile (· ≠ '\x00')
  set p := psz.dropWhile isspace
  have hpsz : psz = psz.takeWhile isspace ++ (p.takeWhile isdigit ++ p.dropWhile isdigit) := by
    rw [List.takeWhile_append_dropWhile, List.takeWhile_append_dropWhile]
  have hdigits : ∀ c ∈ p.takeWhile isdigit, isdigit c = true := fun c ↦ List.mem_takeWhile_imp
  simp only at h
  split_ifs at h with htrail hlength hunits
  rw [Bool.not_eq_true, Bool.not_eq_false', List.all_eq_true] at htrail
  rw [wholeLoop_eq, List.nil_append] at hloop
  -- the whole part ends at the point, at a space, or at the end of the string
  have hresult : whole = p.takeWhile isdigit ∧ ∃ point fraction,
      p.dropWhile isdigit = point ++ (fraction ++ trail) ∧ (∀ c ∈ fraction, isdigit c = true) ∧
      fraction.length ≤ 10 ∧ (point = ['.'] ∨ point = [] ∧ fraction = []) ∧
      units = numeral fraction * 10 ^ (10 - fraction.length) := by
    rcases hrest : p.dropWhile isdigit with _ | ⟨c, rest⟩
    · rw [hrest] at hloop
      cases hloop
      exact ⟨rfl, [], [], rfl, by simp, by simp, .inr ⟨rfl, rfl⟩, rfl⟩
    · rw [hrest, wholeLoop] at hloop
      split_ifs at hloop with hdot hspace hdigit
      · have hfraction := fractionLoop_eq 10 0 rest
        rw [show CENT.toNat * 10 = 10 ^ 10 / 10 by decide, hfraction, Nat.zero_add] at hloop
        cases hloop
        refine ⟨rfl, ['.'], (rest.takeWhile isdigit).take 10, ?_,
          fun c hc ↦ List.mem_takeWhile_imp (List.mem_of_mem_take hc), List.length_take_le _ _,
          .inl rfl, rfl⟩
        have hfront : (rest.takeWhile isdigit).take 10 <+: rest :=
          List.IsPrefix.trans ( List.take_prefix _ _) ( List.takeWhile_prefix _)
        rw [hdot, List.prefix_iff_eq_append.mp hfront, List.singleton_append]
      · cases hloop
        exact ⟨rfl, [], [], rfl, by simp, by simp, .inr ⟨rfl, rfl⟩, rfl⟩
      · have hne := List.head_dropWhile_not isdigit (l := p) (by simp [hrest])
        simp only [hrest, List.head_cons] at hne
        exact absurd hne (by simpa using hdigit)
  obtain ⟨rfl, point, fraction, hrest, hfraction, hlength', hpoint, rfl⟩ := hresult
  refine ⟨_, fraction, ⟨hdigits, hfraction, psz.takeWhile isspace, point, trail, ?_,
    fun c ↦ List.mem_takeWhile_imp, htrail, hpoint⟩, Nat.le_of_not_lt hlength, hlength', ?_⟩
  · rwa [hrest] at hpsz
  · rw [← Option.some.inj h, amount, atoi64_eq hdigits (Nat.le_of_not_lt hlength)]

theorem parseMoney_point (hwhole : ∀ c ∈ whole, isdigit c = true)
    (hfraction : ∀ c ∈ fraction, isdigit c = true) (hlength : whole.length ≤ 10)
    (hlength' : fraction.length ≤ 10) :
    parseMoney (whole ++ '.' :: fraction) = some (BitVec.ofNat 64 (amount whole fraction)) := by
  have hchars : ∀ c ∈ whole ++ '.' :: fraction, c ≠ '\x00' ∧ isspace c = false := by
    intro c hc
    have hdigit : isdigit c = true → c ≠ '\x00' ∧ isspace c = false := fun h ↦ by
      have := of_decide_eq_true h
      exact ⟨by rintro rfl; exact absurd h (by decide), decide_eq_false (by omega)⟩
    rcases List.mem_append.mp hc with hc | hc
    · exact hdigit (hwhole c hc)
    · rcases List.mem_cons.mp hc with rfl | hc
      · decide
      · exact hdigit (hfraction c hc)
  have hnul : (whole ++ '.' :: fraction).takeWhile (· ≠ '\x00') = whole ++ '.' :: fraction :=
    List.takeWhile_eq_self_iff.mpr fun c hc ↦ decide_eq_true (hchars c hc).1
  have hlead : (whole ++ '.' :: fraction).dropWhile isspace = whole ++ '.' :: fraction :=
    List.dropWhile_eq_self_iff.mpr fun _ ↦ by
      rw [(hchars _ (List.getElem_mem _)).2]
      exact Bool.false_ne_true
  have hloop : wholeLoop [] (whole ++ '.' :: fraction) =
      some (whole, numeral fraction * 10 ^ (10 - fraction.length), []) := by
    rw [wholeLoop_eq, List.takeWhile_append_of_pos hwhole, List.dropWhile_append_of_pos hwhole,
      List.takeWhile_cons_of_neg (by decide), List.dropWhile_cons_of_neg (by decide), wholeLoop,
      if_pos rfl, show CENT.toNat * 10 = 10 ^ 10 / 10 by decide, fractionLoop_eq,
      List.takeWhile_eq_self_iff.mpr hfraction, List.take_of_length_le hlength']
    simp
  have hunits := (amount_units hfraction hlength').le
  rw [parseMoney, hnul, hlead, hloop, Option.bind_some]
  simp only [List.all_nil, Bool.not_true, Bool.false_eq_true, if_false]
  rw [if_neg (by omega), if_neg (by omega), atoi64_eq hwhole hlength, amount]

/-! ## What is written -/

theorem numeral_append_zeros (l : List Char) (z : ℕ) :
    numeral (l ++ List.replicate z '0') = numeral l * 10 ^ z := by
  induction z with
  | zero => simp
  | succ z ih =>
    rw [List.replicate_succ', ← List.append_assoc, numeral_snoc, ih, pow_succ]
    change 0 + _ = _
    ring

theorem trimZeros_eq (hl : ∀ c ∈ l, isdigit c = true) (hlength : 2 ≤ l.length)
    (rest : List Char) : ∃ z l', l = List.replicate z '0' ++ l' ∧
      trimZeros (l ++ '.' :: rest) = l' ++ '.' :: rest := by
  induction l with
  | nil => simp at hlength
  | cons c l ih =>
    match l with
    | [] => simp at hlength
    | [d] => exact ⟨0, [c, d], rfl, if_neg fun h ↦ absurd h.2 (by decide)⟩
    | d :: e :: l =>
      rw [List.forall_mem_cons] at hl
      obtain ⟨z, l', hz, htrim⟩ := ih hl.2 (by simp)
      by_cases hc : c = '0'
      · refine ⟨z + 1, l', by rw [hc, List.replicate_succ, List.cons_append, ← hz], ?_⟩
        rw [← htrim]
        exact if_pos ⟨hc, hl.2 e (by simp)⟩
      · exact ⟨0, _, rfl, if_neg fun h ↦ hc h.1⟩

theorem parseMoney_formatMoney (hn : n.toNat < 2 ^ 63) :
    parseMoney (formatMoney n false) = some n := by
  have hint : n.toInt = n.toNat := BitVec.toInt_eq_toNat_of_lt (by omega)
  have habs : (if 0 < n.toInt then n else -n) = n := by
    split_ifs with hpos
    · rfl
    · rw [show n = 0#64 from BitVec.eq_of_toNat_eq (by simp; omega)]
      rfl
  obtain ⟨hlength, hdigits, hvalue⟩ := decimals_spec 10 (n.toNat % COIN.toNat)
  obtain ⟨hlength', hdigits', hvalue'⟩ := decimals_spec
    (Nat.log 10 (n.toNat / COIN.toNat) + 1) (n.toNat / COIN.toNat)
  obtain ⟨z, l, hz, htrim⟩ := trimZeros_eq (l := (decimals 10 (n.toNat % COIN.toNat)).reverse)
    (by simpa using hdigits) (by simp [hlength])
    (decimals (Nat.log 10 (n.toNat / COIN.toNat) + 1) (n.toNat / COIN.toNat)).reverse
  rw [List.reverse_eq_iff, List.reverse_append, List.reverse_replicate] at hz
  have hformat : formatMoney n false = decimals (Nat.log 10 (n.toNat / COIN.toNat) + 1)
      (n.toNat / COIN.toNat) ++ '.' :: l.reverse := by
    simp only [formatMoney, habs]
    rw [if_neg (by omega), if_neg (by simp), List.reverse_append, List.reverse_cons,
      List.append_assoc, List.singleton_append, htrim]
    simp
  have hsum := congrArg List.length hz
  rw [hlength, List.length_append, List.length_replicate] at hsum
  rw [hz] at hdigits hvalue
  have hremainder : n.toNat % COIN.toNat < 10 ^ 10 := Nat.mod_lt _ (by decide)
  rw [numeral_append_zeros, Nat.mod_eq_of_lt hremainder] at hvalue
  have hfraction : ∀ c ∈ l.reverse, isdigit c = true :=
    fun c hc ↦ hdigits c (List.mem_append_left _ hc)
  rw [hformat, parseMoney_point hdigits' hfraction ?_ (by omega)]
  · have hlog := Nat.lt_pow_succ_log_self (by decide : 1 < 10) (n.toNat / COIN.toNat)
    rw [amount, hvalue', Nat.mod_eq_of_lt hlog, show 10 - l.reverse.length = z by omega, hvalue,
      Nat.div_add_mod', BitVec.ofNat_toNat]
    simp
  · have hlog : Nat.log 10 (n.toNat / COIN.toNat) < 10 := by
      refine Nat.log_lt_of_lt_pow' (by decide) (Nat.div_lt_of_lt_mul ?_)
      exact hn.trans (by decide)
    omega

theorem parseMoney_negative (hn : 2 ^ 63 ≤ n.toNat) : parseMoney (formatMoney n false) = none := by
  have hint : n.toInt < 0 := BitVec.toInt_neg_iff.mpr (by omega)
  rw [formatMoney]
  simp only [hint, if_true]
  rfl

/-- **Amounts as text.** An amount is read back from what was written just when it is below
`2 ^ 63`. What is accepted is read exactly, as a number with a sign, just when the number that is
written is below `2 ^ 63` base units. -/
theorem money_exact_iff (n : UInt64) (str : List Char) :
    (parseMoney (formatMoney n.toBitVec false) = some n.toBitVec ↔ n.toNat < 2 ^ 63) ∧
    ∀ v, parseMoney str = some v → ∃ whole fraction,
      Written (str.takeWhile (· ≠ '\x00')) whole fraction ∧
        whole.length ≤ 10 ∧ fraction.length ≤ 10 ∧ v = BitVec.ofNat 64 (amount whole fraction) ∧
          (v.toInt = amount whole fraction ↔ amount whole fraction < 2 ^ 63) := by
  refine ⟨?_, fun v h ↦ ?_⟩
  · rcases Nat.lt_or_ge n.toNat (2 ^ 63) with hn | hn
    · exact iff_of_true (parseMoney_formatMoney hn) hn
    · rw [parseMoney_negative hn]
      exact iff_of_false (fun h ↦ nomatch h) (Nat.not_lt.mpr hn)
  · obtain ⟨whole, fraction, hwritten, hwhole, hfraction, rfl⟩ := written_of_parseMoney h
    refine ⟨whole, fraction, hwritten, hwhole, hfraction, rfl, ?_⟩
    constructor
    · intro heq
      have := BitVec.toInt_lt (x := BitVec.ofNat 64 (amount whole fraction))
      omega
    · intro hlt
      have hmod : (BitVec.ofNat 64 (amount whole fraction)).toNat = amount whole fraction := by
        rw [BitVec.toNat_ofNat]
        omega
      rw [BitVec.toInt_eq_toNat_of_lt (by omega), hmod]

/-- An amount that is money but is not read back, and ten digits that are read as something else. -/
theorem money_wraps :
    2 ^ 63 ≤ MAX_MONEY.toNat ∧ parseMoney (formatMoney (2 ^ 63) false) = none ∧
      parseMoney "9999999999".toList = some 7766279621452241920#64 :=
  ⟨by decide, parseMoney_negative (by decide +kernel), by decide +kernel⟩

end Cryptonite
