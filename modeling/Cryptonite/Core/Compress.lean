import Cryptonite.Core.Transaction

/-!
# Compressed amounts

`CTxOutCompressor` of `core.cpp` stores an amount without its trailing zeros. Up to nine of them are
counted; the last digit before them is one of nine, and is folded into the number together with the
count. So an amount of `m * 10 ^ e` is stored as about `9 * m`.

For most amounts this is more than the amount itself. `exactCode` is the code without a bound, and
`decompressAmount` inverts it (`decompressAmount_of_eq`). If there is a zero to drop, the code fits
64 bits. If there is none, it does only up to a ninth of the range, and above that nothing comes
back as it was (`wrapped_ne`): the limit is `2 049 638 230 412 172 402`, and `MAX_MONEY` is nine
times as much.
-/

namespace Cryptonite

/-! ## The model -/

/-- The loop of `CompressAmount`, for at most so many rounds: `n` and `e`. -/
def stripZeros : ℕ → UInt64 → ℕ → UInt64 × ℕ
  | 0, n, e => (n, e)
  | rounds + 1, n, e => if n % 10 = 0 then stripZeros rounds (n / 10) (e + 1) else (n, e)

def compressAmount (nAmount : UInt64) : Exec UInt64 :=
  if nAmount = 0 then .ok 0
  else
    let n := (stripZeros 9 nAmount 0).1
    let e := (stripZeros 9 nAmount 0).2
    if e < 9 then
      let d := n % 10
      if 1 ≤ d ∧ d ≤ 9 then .ok (1 + (n / 10 * 9 + d - 1) * 10 + UInt64.ofNat e)
      else .error .assertion
    else .ok (1 + (n - 1) * 10 + 9)

/-- The loop of `DecompressAmount`. -/
def appendZeros : ℕ → UInt64 → UInt64
  | 0, n => n
  | e + 1, n => appendZeros e (n * 10)

def decompressAmount (nAmount : UInt64) : UInt64 :=
  if nAmount = 0 then 0
  else
    let x := nAmount - 1
    let e := x % 10
    let x := x / 10
    appendZeros e.toNat (if e < 9 then x / 9 * 10 + (x % 9 + 1) else x + 1)

/-! ## The code without a bound -/

/-- What stands for `m * 10 ^ e`. -/
def exactCode (m e : ℕ) : ℕ := if e < 9 then 9 * m + m % 10 - 9 + e else 10 * m

/-- The number is not zero, and ends in no zero that could have been dropped. -/
structure Stripped (m e : ℕ) : Prop where
  pos : 0 < m
  le_nine : e ≤ 9
  last : e < 9 → m % 10 ≠ 0

variable {e n m j c inv k : ℕ}

theorem stripZeros_spec {rounds : ℕ} {n : UInt64} (hn : n ≠ 0) (he : e + rounds = 9) :
    Stripped (stripZeros rounds n e).1.toNat (stripZeros rounds n e).2 ∧
      n.toNat * 10 ^ e = (stripZeros rounds n e).1.toNat * 10 ^ (stripZeros rounds n e).2 := by
  induction rounds generalizing n e with
  | zero =>
    have hpos : 0 < n.toNat := Nat.pos_of_ne_zero fun h ↦ hn (UInt64.toNat_inj.mp h)
    exact ⟨⟨hpos, by rw [stripZeros]; omega, fun h ↦ by rw [stripZeros] at h; omega⟩, rfl⟩
  | succ rounds ih =>
    have hpos : 0 < n.toNat := Nat.pos_of_ne_zero fun h ↦ hn (UInt64.toNat_inj.mp h)
    rw [stripZeros]
    split
    case isTrue hzero =>
      have hmod : n.toNat % 10 = 0 := congrArg UInt64.toNat hzero
      have hdiv : (n / 10).toNat = n.toNat / 10 := UInt64.toNat_div n 10
      have hne : n / 10 ≠ 0 := by
        intro h0
        have : (n / 10).toNat = 0 := congrArg UInt64.toNat h0
        omega
      obtain ⟨hstripped, heq⟩ := ih hne (show e + 1 + rounds = 9 by omega)
      refine ⟨hstripped, ?_⟩
      rw [← heq, hdiv, pow_succ', ← mul_assoc, Nat.div_mul_cancel (Nat.dvd_of_mod_eq_zero hmod)]
    case isFalse hlast =>
      exact ⟨⟨hpos, by omega, fun _ hmod ↦ hlast (UInt64.toNat_inj.mp hmod)⟩, rfl⟩

/-- An amount is compressed to its code, as far as that fits. -/
theorem compressAmount_eq {n : UInt64} (hn : n ≠ 0) : ∃ m e, Stripped m e ∧
    n.toNat = m * 10 ^ e ∧ compressAmount n = .ok (UInt64.ofNat (exactCode m e)) := by
  obtain ⟨hstripped, heq⟩ := stripZeros_spec hn (zero_add 9)
  rw [pow_zero, mul_one] at heq
  refine ⟨_, _, hstripped, heq, ?_⟩
  rw [compressAmount, if_neg hn]
  generalize stripZeros 9 n 0 = stripped at hstripped
  obtain ⟨m, e⟩ := stripped
  dsimp only at hstripped ⊢
  have hm := m.toNat_lt
  have hpos := hstripped.pos
  split
  case isTrue he =>
    have hlast := hstripped.last he
    have hdigit : (m % 10).toNat = m.toNat % 10 := UInt64.toNat_mod m 10
    rw [if_pos]
    · refine congrArg Except.ok (UInt64.toNat_inj.mp ?_)
      have he' : (UInt64.ofNat e).toNat = e :=
        UInt64.toNat_ofNat_of_lt' (he.trans (by decide))
      simp only [UInt64.toNat_add, UInt64.toNat_mul, UInt64.toNat_sub, UInt64.toNat_div,
        UInt64.toNat_mod, UInt64.toNat_ofNat', he', exactCode, if_pos he, UInt64.reduceToNat]
      omega
    · simp only [UInt64.le_iff_toNat_le, hdigit, UInt64.reduceToNat]
      omega
  case isFalse he =>
    refine congrArg Except.ok (UInt64.toNat_inj.mp ?_)
    simp only [UInt64.toNat_add, UInt64.toNat_mul, UInt64.toNat_sub, UInt64.toNat_ofNat',
      exactCode, if_neg he, UInt64.reduceToNat]
    omega

theorem toNat_appendZeros (e : ℕ) (n : UInt64) :
    (appendZeros e n).toNat = n.toNat * 10 ^ e % 2 ^ 64 := by
  induction e generalizing n with
  | zero => rw [appendZeros, pow_zero, mul_one, Nat.mod_eq_of_lt n.toNat_lt]
  | succ e ih =>
    have hten : (10 : UInt64).toNat = 10 := rfl
    rw [appendZeros, ih, UInt64.toNat_mul, hten, Nat.mod_mul_mod, mul_assoc, ← pow_succ' 10 e]

/-- A code that fits is decompressed to what it stands for, as far as that fits. -/
theorem decompressAmount_of_eq (h : Stripped m e) {x : UInt64}
    (hx : x.toNat = exactCode m e) : (decompressAmount x).toNat = m * 10 ^ e % 2 ^ 64 := by
  have hlt := x.toNat_lt
  have hpos := h.pos
  rw [exactCode] at hx
  have hone : 1 ≤ x.toNat := by
    have hlast := h.last
    split at hx <;> omega
  have hne : x ≠ 0 := by
    rintro rfl
    exact absurd hone (by decide)
  have hpred : (x - 1).toNat = x.toNat - 1 := by
    simp only [UInt64.toNat_sub, UInt64.reduceToNat]
    omega
  have he : ((x - 1) % 10).toNat = e := by
    have hlast := h.last
    have hle := h.le_nine
    simp only [UInt64.toNat_mod, hpred, UInt64.reduceToNat]
    split at hx <;> omega
  have hnine : (x - 1) % 10 < 9 ↔ e < 9 := by
    rw [UInt64.lt_iff_toNat_lt, he]
    rfl
  have hm : (if (x - 1) % 10 < 9 then (x - 1) / 10 / 9 * 10 + ((x - 1) / 10 % 9 + 1)
      else (x - 1) / 10 + 1).toNat = m := by
    split
    case isTrue hsmall =>
      have hlt9 := hnine.mp hsmall
      have hlast := h.last hlt9
      rw [if_pos hlt9] at hx
      simp only [UInt64.toNat_add, UInt64.toNat_mul, UInt64.toNat_div, UInt64.toNat_mod, hpred,
        UInt64.reduceToNat]
      omega
    case isFalse hsmall =>
      have hle := h.le_nine
      rw [if_neg fun he ↦ hsmall (hnine.mpr he)] at hx
      simp only [UInt64.toNat_add, UInt64.toNat_div, hpred, UInt64.reduceToNat]
      omega
  rw [decompressAmount, if_neg hne]
  dsimp only
  rw [he, toNat_appendZeros, hm]

/-! ## What comes back -/

theorem exists_exactCode {x : ℕ} (hx : 1 ≤ x) : ∃ m e, Stripped m e ∧ exactCode m e = x := by
  by_cases he : (x - 1) % 10 < 9
  · refine ⟨(x - 1) / 10 / 9 * 10 + (x - 1) / 10 % 9 + 1, (x - 1) % 10, ⟨by omega, by omega,
      fun _ ↦ by omega⟩, ?_⟩
    rw [exactCode, if_pos he]
    omega
  · refine ⟨(x - 1) / 10 + 1, 9, ⟨by omega, le_rfl, fun h ↦ absurd h (by decide)⟩, ?_⟩
    rw [exactCode, if_neg (lt_irrefl 9)]
    omega

theorem exactCode_lt (h : Stripped m e) (hlt : m * 10 ^ e < 2 ^ 64) (he : e ≠ 0) :
    exactCode m e < 2 ^ 64 := by
  have hpow : 10 ≤ 10 ^ e := Nat.le_self_pow he 10
  have hm : m * 10 < 2 ^ 64 := (Nat.mul_le_mul_left m hpow).trans_lt hlt
  have hnine := h.le_nine
  rw [exactCode]
  split <;> omega

theorem eq_of_offset (hn : n < 2 ^ 64) (hj : m * 10 ^ e = n + 2 ^ 64 * j)
    (hc : n = m + c) (hinv : inv * (10 ^ e - 1) % 2 ^ 64 = 1) :
    n = inv * (c * 10 ^ e) % 2 ^ 64 := by
  have hsum : (10 ^ e - 1) * n = c * 10 ^ e + 2 ^ 64 * j := by
    have hpow : 1 ≤ 10 ^ e := Nat.one_le_pow _ _ (by decide)
    rw [Nat.sub_one_mul, Nat.mul_comm, hc, Nat.add_mul, hj]
    omega
  have hone : inv * (10 ^ e - 1) ≡ 1 [MOD 2 ^ 64] := hinv
  have hn' : inv * (c * 10 ^ e) ≡ n [MOD 2 ^ 64] := by
    calc inv * (c * 10 ^ e) ≡ inv * (c * 10 ^ e) + 2 ^ 64 * (inv * j) [MOD 2 ^ 64] := by
          rw [Nat.ModEq, Nat.add_mul_mod_self_left]
      _ = inv * (10 ^ e - 1) * n := by
          rw [Nat.mul_assoc, hsum]
          ring
      _ ≡ 1 * n [MOD 2 ^ 64] := hone.mul_right n
      _ = n := Nat.one_mul n
  exact (Nat.mod_eq_of_lt hn).symm.trans hn'.symm

theorem offset_false (hn : n < 2 ^ 64) (hlast : n % 10 ≠ 0)
    (hj : m * 10 ^ e = n + 2 ^ 64 * j) (hc : n = m + c ∨ n = m + (c + 1))
    (hlow : 2 ^ 64 * k ≤ 9 * n + n % 10 - 9) (hhigh : 9 * n + n % 10 - 9 < 2 ^ 64 * (k + 1))
    (hinv : inv * (10 ^ e - 1) % 2 ^ 64 = 1)
    (hnone : ∀ x ∈ [inv * (c * 10 ^ e) % 2 ^ 64, inv * ((c + 1) * 10 ^ e) % 2 ^ 64],
      x % 10 = 0 ∨ 9 * x + x % 10 - 9 < 2 ^ 64 * k ∨ 2 ^ 64 * (k + 1) ≤ 9 * x + x % 10 - 9) :
    False := by
  have hmem : n ∈ [inv * (c * 10 ^ e) % 2 ^ 64, inv * ((c + 1) * 10 ^ e) % 2 ^ 64] := by
    rcases hc with hc | hc
    · exact List.mem_cons.mpr (.inl (eq_of_offset hn hj hc hinv))
    · exact List.mem_cons_of_mem _ (List.mem_singleton.mpr (eq_of_offset hn hj hc hinv))
  obtain h | h | h := hnone n hmem
  · exact hlast h
  · exact hlow.not_gt h
  · exact hhigh.not_ge h

theorem offset_cases (hend : m % 10 ≠ 0) (he : e < 9)
    (hk : 9 * n + n % 10 - 9 = 9 * m + m % 10 - 9 + e + 2 ^ 64 * k) :
    e = 4 * k % 10 ∧ (n = m + (2 ^ 64 * k + e) / 9 ∨ n = m + ((2 ^ 64 * k + e) / 9 + 1)) := by
  omega

theorem code_ne (hlast : n % 10 ≠ 0) : 10 * m + 2 ^ 64 * k ≠ 9 * n + n % 10 - 9 := by
  have heven : (10 * m + 2 ^ 64 * k) % 2 = 0 := by omega
  have hodd : (9 * n + n % 10 - 9) % 2 = 1 := by omega
  intro heq
  rw [heq, hodd] at heven
  exact absurd heven one_ne_zero

/-- What is left of a code that does not fit stands for something else, also if the amount it stands
for does not fit either. -/
theorem wrapped_ne (hn : n < 2 ^ 64) (hlast : n % 10 ≠ 0) (h : Stripped m e)
    (hbig : 2 ^ 64 ≤ exactCode n 0) (hcode : exactCode m e = exactCode n 0 % 2 ^ 64) :
    m * 10 ^ e % 2 ^ 64 ≠ n := by
  intro hback
  have hn0 : exactCode n 0 = 9 * n + n % 10 - 9 := if_pos (by decide)
  have hj := Nat.mod_add_div (m * 10 ^ e) (2 ^ 64)
  rw [hback] at hj
  have hk := Nat.mod_add_div (exactCode n 0) (2 ^ 64)
  have hless : exactCode n 0 % 2 ^ 64 < 2 ^ 64 := Nat.mod_lt _ (Nat.two_pow_pos 64)
  rw [← hcode] at hk hless
  generalize m * 10 ^ e / 2 ^ 64 = j at hj
  generalize exactCode n 0 / 2 ^ 64 = k at hk
  -- the code wraps around up to eight times
  have hlow : 2 ^ 64 * k ≤ 9 * n + n % 10 - 9 := by
    rw [← hn0, ← hk]
    exact Nat.le_add_left _ _
  have hhigh : 9 * n + n % 10 - 9 < 2 ^ 64 * (k + 1) := by
    rw [← hn0, ← hk, Nat.mul_add, Nat.add_comm]
    exact Nat.add_lt_add_left hless _
  have hpos : 1 ≤ k := Nat.pos_of_ne_zero fun h0 ↦ by
    rw [h0, Nat.mul_zero, Nat.add_zero] at hk
    rw [hk] at hless
    exact hbig.not_gt hless
  have hle : k ≤ 8 := by
    clear hback hcode hj hk hbig hhigh hless
    omega
  have hnine : e < 9 := by
    by_contra hge
    rw [hn0, exactCode, if_neg hge] at hk
    exact code_ne hlast hk
  rw [hn0, exactCode, if_pos hnine] at hk
  obtain ⟨rfl, hc⟩ := offset_cases (h.last hnine) hnine hk.symm
  clear hback hcode hk hbig hless h hnine hn0
  interval_cases k
  · exact offset_false hn hlast hj.symm hc hlow hhigh
      (by decide : 13458245626333751279 * (10 ^ 4 - 1) % 2 ^ 64 = 1) (by decide)
  · exact offset_false hn hlast hj.symm hc hlow hhigh
      (by decide : 300153063250403071 * (10 ^ 8 - 1) % 2 ^ 64 = 1) (by decide)
  · exact offset_false hn hlast hj.symm hc hlow hhigh
      (by decide : 12670490878911611211 * (10 ^ 2 - 1) % 2 ^ 64 = 1) (by decide)
  · exact offset_false hn hlast hj.symm hc hlow hhigh
      (by decide : 1672254362768354751 * (10 ^ 6 - 1) % 2 ^ 64 = 1) (by decide)
  · -- no zeros are appended, so that what comes back is too small
    rw [pow_zero, mul_one] at hj
    omega
  · exact offset_false hn hlast hj.symm hc hlow hhigh
      (by decide : 13458245626333751279 * (10 ^ 4 - 1) % 2 ^ 64 = 1) (by decide)
  · exact offset_false hn hlast hj.symm hc hlow hhigh
      (by decide : 300153063250403071 * (10 ^ 8 - 1) % 2 ^ 64 = 1) (by decide)
  · exact offset_false hn hlast hj.symm hc hlow hhigh
      (by decide : 12670490878911611211 * (10 ^ 2 - 1) % 2 ^ 64 = 1) (by decide)

theorem decompressAmount_ne {n : UInt64} (hlast : n.toNat % 10 ≠ 0)
    (hbig : 2 ^ 64 ≤ exactCode n.toNat 0) :
    decompressAmount (UInt64.ofNat (exactCode n.toNat 0)) ≠ n := by
  have hx : (UInt64.ofNat (exactCode n.toNat 0)).toNat = exactCode n.toNat 0 % 2 ^ 64 :=
    UInt64.toNat_ofNat'
  generalize UInt64.ofNat (exactCode n.toNat 0) = x at hx
  rintro rfl
  rcases Nat.eq_zero_or_pos x.toNat with hzero | hpos
  · obtain rfl : x = 0 := UInt64.toNat_inj.mp hzero
    exact hlast rfl
  · obtain ⟨m, e, hstripped, hcode⟩ := exists_exactCode hpos
    exact wrapped_ne (UInt64.toNat_lt _) hlast hstripped hbig (hcode.trans hx)
      (decompressAmount_of_eq hstripped hcode.symm).symm

theorem exactCode_zero_lt_iff : exactCode n 0 < 2 ^ 64 ↔ n ≤ 2049638230412172402 := by
  rw [exactCode, if_pos (by decide)]
  omega

/-- **Amount compression.** An amount comes back as it was iff it ends in a zero or is at most a
ninth of the range of 64 bits. -/
theorem compressed_back_iff (n : UInt64) :
    (∃ x, compressAmount n = .ok x ∧ decompressAmount x = n) ↔
      n % 10 = 0 ∨ n ≤ 2049638230412172402 := by
  by_cases hn : n = 0
  · subst hn
    exact iff_of_true ⟨0, rfl, rfl⟩ (.inl rfl)
  obtain ⟨m, e, hstripped, heq, hcompress⟩ := compressAmount_eq hn
  have hdigit : n % 10 = 0 ↔ n.toNat % 10 = 0 := by
    rw [← UInt64.toNat_inj, UInt64.toNat_mod]
    rfl
  have hle : n ≤ 2049638230412172402 ↔ n.toNat ≤ 2049638230412172402 := UInt64.le_iff_toNat_le
  simp only [hcompress, Except.ok.injEq, exists_eq_left', hdigit, hle]
  by_cases hfits : exactCode m e < 2 ^ 64
  · refine iff_of_true ?_ ?_
    · rw [← UInt64.toNat_inj,
        decompressAmount_of_eq hstripped (UInt64.toNat_ofNat_of_lt' hfits), ← heq]
      exact Nat.mod_eq_of_lt n.toNat_lt
    · rcases Nat.eq_zero_or_pos e with rfl | hpos
      · rw [pow_zero, mul_one] at heq
        rw [heq]
        exact .inr (exactCode_zero_lt_iff.mp hfits)
      · refine .inl ?_
        rw [heq]
        exact Nat.mod_eq_zero_of_dvd (Dvd.dvd.mul_left (dvd_pow_self 10 hpos.ne') m)
  · -- no zero was dropped, and the code does not fit
    obtain rfl : e = 0 := by
      by_contra hne
      exact hfits (exactCode_lt hstripped (heq ▸ n.toNat_lt) hne)
    have hlast := hstripped.last (by decide)
    rw [pow_zero, mul_one] at heq
    subst heq
    refine iff_of_false (decompressAmount_ne hlast (Nat.not_lt.mp hfits)) ?_
    rw [← exactCode_zero_lt_iff]
    exact not_or.mpr ⟨hlast, hfits⟩

/-- The first amount that does not come back. It is stored as `5`, and what is read is `10 000`. -/
theorem compressed_to_five : 2049638230412172403 ≤ MAX_MONEY ∧
    compressAmount 2049638230412172403 = .ok 5 ∧ decompressAmount 5 = 10000 := by
  decide

end Cryptonite
