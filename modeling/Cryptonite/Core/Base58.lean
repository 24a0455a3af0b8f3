import Cryptonite.Core.Money
import Cryptonite.Foundation.Digits

/-!
# Base 58

Addresses and keys are shown as numbers in base 58, with a `1` for each zero byte in front. Both
directions hold the number in a buffer of digits and feed it one digit of the other base after the
other. The size of the buffer comes from rational bounds of the logarithms, `138/100` and
`733/1000`; it is enough for every length, so that the carry which is left over is always zero.

The zeros in front are counted in an `int`. Up to `2 ^ 31 - 1` of them both directions are inverse
to each other. One more overflows the counter.
-/

namespace Cryptonite

open Digits

/-- How the conversion can go wrong: a counter of type `int` overflows, or `assert(carry == 0)`
fails. -/
inductive Base58Fault
  | zeroes
  | carry
  deriving DecidableEq

def pszBase58 : List Char :=
  "123456789ABCDEFGHJKLMNPQRSTUVWXYZabcdefghijkmnopqrstuvwxyz".toList

/-- One digit is fed to a buffer of base `B`, which is seen from its end: the loop of
"`b = b * factor + ch`". -/
def feed (B factor : ℕ) (b : List ℕ) (ch : ℕ) : Except Base58Fault (List ℕ) :=
  let r := propagate B ch (b.map (factor * ·))
  if r.2 = 0 then .ok r.1 else .error .carry

def encodeBase58 (v : List UInt8) : Except Base58Fault (List Char) :=
  let bytes := v.map UInt8.toNat
  let zeroes := (bytes.takeWhile (· = 0)).length
  let bytes := bytes.dropWhile (· = 0)
  if 2 ^ 31 ≤ zeroes then .error .zeroes
  else (bytes.foldlM (feed 58 256) (List.replicate (bytes.length * 138 / 100 + 1) 0)).map fun b58 ↦
    List.replicate zeroes '1' ++ (b58.reverse.dropWhile (· = 0)).map (pszBase58.getD · '\x00')

/-- The loop of `DecodeBase58` over the characters: the buffer and what is left of the string at the
first space, or nothing if a character is not of the alphabet. -/
def decodeLoop : List ℕ → List Char → Except Base58Fault (Option (List ℕ × List Char))
  | b256, [] => .ok (some (b256, []))
  | b256, c :: psz =>
    if isspace c then .ok (some (b256, c :: psz))
    else match pszBase58.idxOf? c with
      | none => .ok none
      | some ch => feed 256 58 b256 ch >>= fun b256 ↦ decodeLoop b256 psz

/-- `DecodeBase58` of a string without its end: nothing is `false`. -/
def decodeBase58 (psz : List Char) : Except Base58Fault (Option (List UInt8)) :=
  let psz := psz.dropWhile isspace
  let zeroes := (psz.takeWhile (· = '1')).length
  let psz := psz.dropWhile (· = '1')
  if 2 ^ 31 ≤ zeroes then .error .zeroes
  else (decodeLoop (List.replicate (psz.length * 733 / 1000 + 1) 0) psz).map fun r ↦
    r.bind fun (b256, psz) ↦
      if psz.dropWhile isspace ≠ [] then none
      else some (List.replicate zeroes 0 ++ (b256.reverse.dropWhile (· = 0)).map UInt8.ofNat)

/-! ## The buffer -/

/-- The buffer `b` of base `B` after the digits `ds` of the other base. -/
structure Fed (B factor : ℕ) (ds b : List ℕ) : Prop where
  ds_lt : ∀ d ∈ ds, d < factor
  b_lt : ∀ d ∈ b, d < B
  value : Nat.ofDigits B b = Nat.ofDigits factor ds.reverse

theorem Fed.nil {B : ℕ} (hB : 0 < B) (factor n : ℕ) : Fed B factor [] (List.replicate n 0) where
  ds_lt := by simp
  b_lt := fun d hd ↦ (List.eq_of_mem_replicate hd).symm ▸ hB
  value := by simp [Nat.ofDigits_replicate_zero]

theorem Fed.feed {B factor d : ℕ} {ds b : List ℕ} (h : Fed B factor ds b) (hB : 0 < B)
    (hfactor : 1 < factor) (hd : d < factor) (hroom : factor ^ (ds.length + 1) ≤ B ^ b.length) :
    ∃ b', feed B factor b d = .ok b' ∧ Fed B factor (ds ++ [d]) b' ∧ b'.length = b.length := by
  have hvalue := ofDigits_propagate B d (b.map (factor * ·))
  have hnext : d + factor * Nat.ofDigits factor ds.reverse =
      Nat.ofDigits factor (ds ++ [d]).reverse := by
    simp [Nat.ofDigits_cons]
  have hds : ∀ x ∈ ds ++ [d], x < factor := by
    simpa [or_imp, forall_and] using ⟨h.ds_lt, hd⟩
  have hlt := Nat.ofDigits_lt_base_pow_length hfactor (l := (ds ++ [d]).reverse)
    fun x hx ↦ hds x (List.mem_reverse.mp hx)
  rw [ofDigits_map_mul, h.value, hnext, List.length_map] at hvalue
  rw [List.length_reverse, List.length_append, List.length_singleton] at hlt
  have hcarry : (propagate B d (b.map (factor * ·))).2 = 0 := by
    by_contra hne
    have := Nat.le_mul_of_pos_right (B ^ b.length) (Nat.pos_of_ne_zero hne)
    omega
  rw [hcarry, Nat.mul_zero, Nat.add_zero] at hvalue
  exact ⟨_, if_pos hcarry, ⟨hds, fun x ↦ propagate_lt hB, hvalue⟩, by simp⟩

theorem Fed.strip {B factor : ℕ} {l b : List ℕ} (hB : 1 < B)
    (h : Fed B factor (l.dropWhile (· = 0)) b) :
    l.takeWhile (· = 0) ++ b.reverse.dropWhile (· = 0) = rebase factor B l := by
  rw [rebase, ← h.value, dropWhile_reverse_eq hB h.b_lt]

theorem Fed.foldlM {B factor : ℕ} {ds b : List ℕ} (h : Fed B factor ds b) (hB : 0 < B)
    (hfactor : 1 < factor) {rest : List ℕ} (hrest : ∀ d ∈ rest, d < factor)
    (hroom : factor ^ (ds.length + rest.length) ≤ B ^ b.length) :
    ∃ b', rest.foldlM (Cryptonite.feed B factor) b = .ok b' ∧ Fed B factor (ds ++ rest) b' := by
  induction rest generalizing ds b with
  | nil => exact ⟨b, rfl, by rwa [List.append_nil]⟩
  | cons d rest ih =>
    rw [List.forall_mem_cons] at hrest
    rw [List.length_cons] at hroom
    obtain ⟨b₁, hfeed, h₁, hlength⟩ := h.feed hB hfactor hrest.1
      ((Nat.pow_le_pow_right (by omega) (by omega)).trans hroom)
    obtain ⟨b', hfold, h'⟩ := ih h₁ hrest.2 (by
      rw [hlength, List.length_append, List.length_singleton]
      exact (Nat.pow_le_pow_right (by omega) (by omega)).trans hroom)
    refine ⟨b', ?_, by simpa using h'⟩
    rw [List.foldlM_cons, hfeed]
    exact hfold

/-! ## The alphabet -/

def base58Char (d : ℕ) : Char :=
  pszBase58.getD d '\x00'

theorem base58Char_spec : ∀ d < 58,
    pszBase58.idxOf? (base58Char d) = some d ∧ isspace (base58Char d) = false := by
  decide +kernel

theorem base58Char_eq_one (d : ℕ) : base58Char d = '1' ↔ d = 0 := by
  rcases Nat.lt_or_ge d 58 with hd | hd
  · revert d
    decide +kernel
  · rw [base58Char, List.getD_eq_getElem?_getD, List.getElem?_eq_none hd]
    exact iff_of_false (by decide) (by omega)

theorem base58Char_comp : (fun c : Char ↦ decide (c = '1')) ∘ base58Char = fun d ↦ decide (d = 0) :=
  funext fun d ↦ decide_eq_decide.mpr (base58Char_eq_one d)

theorem idxOf?_lt {c : Char} {d : ℕ} (h : pszBase58.idxOf? c = some d) : d < 58 :=
  (List.idxOf?_eq_some_iff.mp h).1

/-- The loop over the characters never carries anything out, and goes through all characters of the
alphabet. -/
theorem decodeLoop_spec {ds b : List ℕ} (h : Fed 256 58 ds b) (psz : List Char)
    (hroom : 58 ^ (ds.length + psz.length) ≤ 256 ^ b.length) :
    ∃ r, decodeLoop b psz = .ok r ∧
      ∀ l, psz = l.map base58Char → (∀ d ∈ l, d < 58) →
        ∃ b', r = some (b', []) ∧ Fed 256 58 (ds ++ l) b' := by
  induction psz generalizing ds b with
  | nil =>
    refine ⟨_, rfl, fun l hl _ ↦ ⟨b, rfl, ?_⟩⟩
    rw [List.map_eq_nil_iff.mp hl.symm, List.append_nil]
    exact h
  | cons c psz ih =>
    -- a string of the alphabet begins with the character that is looked at
    have hfirst : ∀ l, c :: psz = l.map base58Char → (∀ d ∈ l, d < 58) →
        isspace c = false ∧ ∃ d l', l = d :: l' ∧ pszBase58.idxOf? c = some d ∧
          psz = l'.map base58Char ∧ ∀ d ∈ l', d < 58 := by
      intro l hl hlt
      obtain ⟨d, l', rfl, rfl, rfl⟩ := List.map_eq_cons_iff.mp hl.symm
      rw [List.forall_mem_cons] at hlt
      obtain ⟨hidx, hspace⟩ := base58Char_spec d hlt.1
      exact ⟨hspace, d, l', rfl, hidx, rfl, hlt.2⟩
    rw [decodeLoop]
    split_ifs with hspace
    · exact ⟨_, rfl, fun l hl hlt ↦ absurd (hfirst l hl hlt).1 (by simp [hspace])⟩
    · rcases hidx : pszBase58.idxOf? c with _ | ch
      · refine ⟨_, rfl, fun l hl hlt ↦ ?_⟩
        obtain ⟨-, d, l', -, hd, -⟩ := hfirst l hl hlt
        exact absurd (hidx.symm.trans hd) (by simp)
      · rw [List.length_cons] at hroom
        obtain ⟨b₁, hfeed, h₁, hlength⟩ := h.feed (by decide) (by decide) (idxOf?_lt hidx)
          ((Nat.pow_le_pow_right (by decide) (by omega)).trans hroom)
        obtain ⟨r, hr, hall⟩ := ih h₁ (by
          rw [hlength, List.length_append, List.length_singleton]
          exact (Nat.pow_le_pow_right (by decide) (by omega)).trans hroom)
        refine ⟨r, by simp only [hfeed]; exact hr, fun l hl hlt ↦ ?_⟩
        obtain ⟨-, d, l', rfl, hd, hl', hlt'⟩ := hfirst l hl hlt
        obtain rfl := Option.some.inj (hidx.symm.trans hd)
        simpa using hall l' hl' hlt'

/-! ## Both directions -/

theorem room_58 (n : ℕ) : 256 ^ n ≤ 58 ^ (n * 138 / 100 + 1) :=
  pow_le_pow_of_ratio (by decide) (by decide) (by norm_num) n

theorem room_256 (n : ℕ) : 58 ^ n ≤ 256 ^ (n * 733 / 1000 + 1) :=
  pow_le_pow_of_ratio (by decide) (by decide) (by decide +kernel) n

theorem toNat_lt_of_mem (v : List UInt8) : ∀ d ∈ v.map UInt8.toNat, d < 256 := by
  simpa using fun c _ ↦ c.toNat_lt

theorem encodeBase58_eq (v : List UInt8) :
    encodeBase58 v = if 2 ^ 31 ≤ ((v.map UInt8.toNat).takeWhile (· = 0)).length then .error .zeroes
      else .ok ((rebase 256 58 (v.map UInt8.toNat)).map base58Char) := by
  have hbytes : ∀ d ∈ (v.map UInt8.toNat).dropWhile (· = 0), d < 256 :=
    fun d hd ↦ toNat_lt_of_mem v d ((List.dropWhile_sublist _).subset hd)
  obtain ⟨b, hfold, hb⟩ := (Fed.nil (B := 58) (by decide) 256 _).foldlM (by decide) (by decide)
    hbytes (by simpa using room_58 _)
  rw [← Fed.strip (by decide) hb, List.map_append, map_takeWhile_eq_zero]
  simp only [encodeBase58, hfold]
  rfl

theorem decodeBase58_eq {l : List ℕ} (hl : ∀ d ∈ l, d < 58) :
    decodeBase58 (l.map base58Char) = if 2 ^ 31 ≤ (l.takeWhile (· = 0)).length then .error .zeroes
      else .ok (some ((rebase 58 256 l).map UInt8.ofNat)) := by
  have hspace : (l.map base58Char).dropWhile isspace = l.map base58Char := by
    refine List.dropWhile_eq_self_iff.mpr fun hpos ↦ ?_
    rw [List.getElem_map, (base58Char_spec _ (hl _ (List.getElem_mem _))).2]
    exact Bool.false_ne_true
  obtain ⟨r, hloop, hr⟩ := decodeLoop_spec (Fed.nil (by decide) 58 _)
    ((l.dropWhile (· = 0)).map base58Char) (by simpa using room_256 _)
  obtain ⟨b, rfl, hb⟩ := hr _ rfl fun d hd ↦ hl d ((List.dropWhile_sublist _).subset hd)
  rw [← Fed.strip (by decide) hb, List.map_append, map_takeWhile_eq_zero]
  simp only [decodeBase58, hspace, List.takeWhile_map, List.dropWhile_map, base58Char_comp,
    List.length_map, hloop]
  rfl

theorem decodeBase58_ne (psz : List Char) : decodeBase58 psz ≠ .error .carry := by
  rw [decodeBase58]
  split_ifs
  · simp
  · obtain ⟨r, hloop, -⟩ := decodeLoop_spec (Fed.nil (by decide) 58 _)
      ((psz.dropWhile isspace).dropWhile (· = '1')) (by simpa using room_256 _)
    simp [hloop, Except.map]

theorem exists_digits {s : List Char} (hs : ∀ c ∈ s, c ∈ pszBase58) :
    ∃ l : List ℕ, s = l.map base58Char ∧ ∀ d ∈ l, d < 58 := by
  have hchar : ∀ c ∈ pszBase58, base58Char (pszBase58.idxOf c) = c ∧ pszBase58.idxOf c < 58 := by
    intro c hc
    have hlt := List.idxOf_lt_length_of_mem hc
    refine ⟨?_, hlt.trans_eq rfl⟩
    rw [base58Char, List.getD_eq_getElem _ _ hlt, List.getElem_idxOf]
  refine ⟨s.map fun c ↦ pszBase58.idxOf c, ?_, ?_⟩
  · rw [List.map_map]
    exact ((List.map_congr_left fun c hc ↦ (hchar c (hs c hc)).1).trans (List.map_id s)).symm
  · simpa using fun c hc ↦ (hchar c (hs c hc)).2

/-- **Base 58.** The two directions undo each other on every byte string with less than `2 ^ 31`
zeros in front, and on every string over the alphabet with less than `2 ^ 31` ones in front. No
input makes an assertion fail. -/
theorem base58_exact_iff (v : List UInt8) (s : List Char) :
    (encodeBase58 v >>= decodeBase58 = .ok (some v) ↔ (v.takeWhile (· = 0)).length < 2 ^ 31) ∧
    ((∀ c ∈ s, c ∈ pszBase58) →
      ((∃ v, decodeBase58 s = .ok (some v) ∧ encodeBase58 v = .ok s) ↔
        (s.takeWhile (· = '1')).length < 2 ^ 31)) ∧
    encodeBase58 v ≠ .error .carry ∧ decodeBase58 s ≠ .error .carry := by
  refine ⟨?_, fun hs ↦ ?_, ?_, decodeBase58_ne s⟩
  · have hzero : (fun d : ℕ ↦ decide (d = 0)) ∘ UInt8.toNat = fun c : UInt8 ↦ decide (c = 0) :=
      funext fun c ↦ decide_eq_decide.mpr (by simp [← UInt8.toNat_inj])
    have hlength :
        ((v.map UInt8.toNat).takeWhile (· = 0)).length = (v.takeWhile (· = 0)).length := by
      rw [List.takeWhile_map, hzero, List.length_map]
    have hback : (v.map UInt8.toNat).map UInt8.ofNat = v := by
      rw [List.map_map]
      exact List.map_id'' (fun c ↦ UInt8.ofNat_toNat) v
    rw [encodeBase58_eq, ← hlength, ← Nat.not_le]
    split_ifs with h
    · exact iff_of_false (fun heq ↦ nomatch heq) (not_not.mpr h)
    · refine iff_of_true ?_ h
      change decodeBase58 _ = _
      rw [decodeBase58_eq fun d ↦ rebase_lt (by decide), takeWhile_rebase (by decide), if_neg h,
        rebase_rebase (by decide) (by decide) (toNat_lt_of_mem v), hback]
  · obtain ⟨l, rfl, hl⟩ := exists_digits hs
    have hback : ((rebase 58 256 l).map UInt8.ofNat).map UInt8.toNat = rebase 58 256 l := by
      rw [List.map_map]
      refine (List.map_congr_left fun d hd ↦ ?_).trans (List.map_id _)
      exact UInt8.toNat_ofNat_of_lt (rebase_lt (by decide) hd)
    rw [decodeBase58_eq hl, List.takeWhile_map, base58Char_comp, List.length_map, ← Nat.not_le]
    split_ifs with h
    · exact iff_of_false (fun ⟨v, hv, _⟩ ↦ nomatch hv) (not_not.mpr h)
    · refine iff_of_true ⟨_, rfl, ?_⟩ h
      rw [encodeBase58_eq, hback, takeWhile_rebase (by decide), if_neg h,
        rebase_rebase (by decide) (by decide) hl]
  · rw [encodeBase58_eq]
    split_ifs <;> simp

theorem encodeBase58_zeros {n : ℕ} (hn : 2 ^ 31 ≤ n) :
    encodeBase58 (List.replicate n 0) = .error .zeroes := by
  rw [encodeBase58_eq, List.map_replicate, List.takeWhile_replicate, if_pos]
  simpa using hn

/-- With `2 ^ 31` zeros in front the counter of the encoder overflows. -/
theorem encodeBase58_overflows : encodeBase58 (List.replicate (2 ^ 31) 0) = .error .zeroes :=
  encodeBase58_zeros (Nat.le_refl _)

end Cryptonite
