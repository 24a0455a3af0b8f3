import Cryptonite.Trie.Node

/-!
# Transactions and blocks

The data types of `core.h` and the sums the consensus rules take over them. Amounts are `uint64_t`
and wrap; `MAX_MONEY` lies within four billion units of the top of the range, so whether a sum wraps
is the question everywhere. `GetValueIn` and `GetValueOut` are the two places that ask it:
`sumValues_eq_ok_iff` says that they return exactly when the exact sum is at most `MAX_MONEY`.
-/

namespace Cryptonite

/-- One coin in base units. -/
def COIN : UInt64 := 10000000000

/-- A hundredth of a coin. -/
def CENT : UInt64 := 100000000

/-- `COINS * COIN`: the largest multiple of a coin that fits 64 bits. -/
def MAX_MONEY : UInt64 := 0xFFFFFFFFFFFFFFFF / COIN * COIN

/-- `MIN_LIMIT_TIME`: blocks before a raised withdrawal limit comes into force. -/
def MIN_LIMIT_TIME : UInt64 := 100

/-- `MIN_BALANCE`: accounts below it are removed. -/
def MIN_BALANCE : UInt64 := 1

def MAX_BLOCK_SIZE : ℕ := 1000000

def MAX_MSG_SIZE : ℕ := 64

/-- The conversion of a number to `int`. -/
def toInt32 (n : ℤ) : ℤ := n.bmod (2 ^ 32)

/-- `CTxIn`: a withdrawal. -/
structure TxIn where
  nValue : UInt64
  pubKey : UInt160
  scriptSig : List UInt8
  deriving DecidableEq, Repr

def TxIn.isNull (txin : TxIn) : Bool := txin.pubKey == 0

/-- `CTxOut`: a deposit. -/
structure TxOut where
  nValue : UInt64
  pubKey : UInt160
  deriving DecidableEq, Repr

structure Transaction where
  nVersion : UInt32
  vin : List TxIn
  vout : List TxOut
  msg : List UInt8
  nLockHeight : UInt64
  /-- The new withdrawal limit of a set-limit transaction. -/
  nLimitValue : UInt64
  /-- Whether this is a set-limit transaction. -/
  fSetLimit : Bool
  deriving DecidableEq, Repr

structure BlockHeader where
  hashPrevBlock : UInt256
  hashMerkleRoot : UInt256
  hashAccountRoot : UInt256
  nTime : UInt64
  nHeight : UInt64
  nNonce : UInt64
  nVersion : UInt16
  deriving DecidableEq, Repr

structure Block extends BlockHeader where
  vtx : List Transaction
  deriving DecidableEq, Repr

/-! ## Sums -/

def moneyRange (nValue : UInt64) : Bool := nValue ≤ MAX_MONEY

/-- The body of the loop `GetValueIn` and `GetValueOut` share: it throws when the running sum
leaves the money range or wraps. -/
def addValue (sum value : UInt64) : Exec UInt64 :=
  if !moneyRange (value + sum) || sum + value < sum then .error .runtimeError
  else .ok (sum + value)

/-- The loop of `GetValueIn` and `GetValueOut`. -/
def sumValues (values : List UInt64) : Exec UInt64 := values.foldlM addValue 0

namespace Transaction

def getValueOut (tx : Transaction) : Exec UInt64 := sumValues (tx.vout.map TxOut.nValue)

def getValueIn (tx : Transaction) : Exec UInt64 := sumValues (tx.vin.map TxIn.nValue)

def getFee (tx : Transaction) : Exec UInt64 := do
  let valueIn ← tx.getValueIn
  let valueOut ← tx.getValueOut
  pure (valueIn - valueOut)

/-- `IsCoinBase`: a single input, from account zero. -/
def isCoinBase (tx : Transaction) : Bool :=
  match tx.vin with
  | [txin] => txin.isNull
  | _ => false

end Transaction

/-- `CBlock::GetFees`: the fees of all transactions of the block, the coinbase included. -/
def Block.getFees (block : Block) : Exec UInt64 :=
  block.vtx.foldlM (fun sum tx ↦ do
    let fee ← tx.getFee
    pure (sum + fee)) 0

/-- `mpz_get_uii`: `mpz_export` writes nothing for zero, so the caller reads what the stack held. -/
def mpzGetUii (junk : UInt64) (n : ℕ) : UInt64 := if n = 0 then junk else UInt64.ofNat n

def getBlockValue (junk coinbase nFees : UInt64) : UInt64 :=
  mpzGetUii junk (coinbase.toNat * (243 * COIN + 10 * CENT).toNat / MAX_MONEY.toNat) + nFees

/-! ## What the sums say -/

def exactSum (values : List UInt64) : ℕ := (values.map UInt64.toNat).sum

/-- What the transaction takes from an account. -/
def Transaction.spent (key : UInt160) (tx : Transaction) : ℕ :=
  exactSum ((tx.vin.filter fun txin ↦ txin.pubKey == key).map TxIn.nValue)

theorem exactSum_cons (value : UInt64) (values : List UInt64) :
    exactSum (value :: values) = value.toNat + exactSum values := rfl

theorem toNat_MAX_MONEY : MAX_MONEY.toNat = 18446744070000000000 := rfl

private theorem addValue_eq (sum value : UInt64) (hsum : sum.toNat ≤ MAX_MONEY.toNat) :
    addValue sum value = if sum.toNat + value.toNat ≤ MAX_MONEY.toNat then .ok (sum + value)
      else .error .runtimeError := by
  have hguard : (!moneyRange (value + sum) || decide (sum + value < sum)) = true ↔
      ¬sum.toNat + value.toNat ≤ MAX_MONEY.toNat := by
    have hv := value.toNat_lt
    simp only [moneyRange, Bool.or_eq_true, Bool.not_eq_true', decide_eq_true_eq,
      decide_eq_false_iff_not, UInt64.le_iff_toNat_le, UInt64.lt_iff_toNat_lt, UInt64.toNat_add,
      toNat_MAX_MONEY] at hsum ⊢
    omega
  rw [addValue]
  by_cases hle : sum.toNat + value.toNat ≤ MAX_MONEY.toNat
  · rw [if_pos hle, if_neg (by rw [hguard]; exact not_not.mpr hle)]
  · rw [if_neg hle, if_pos (hguard.mpr hle)]

private theorem foldlM_addValue_eq_ok_iff : ∀ (values : List UInt64) (sum r : UInt64),
    sum.toNat ≤ MAX_MONEY.toNat → (values.foldlM addValue sum = .ok r ↔
      sum.toNat + exactSum values ≤ MAX_MONEY.toNat ∧ r.toNat = sum.toNat + exactSum values) := by
  intro values
  induction values with
  | nil =>
    intro sum r hsum
    simp only [List.foldlM_nil, exactSum, List.map_nil, List.sum_nil, Nat.add_zero]
    constructor
    · rintro ⟨⟩
      exact ⟨hsum, rfl⟩
    · rintro ⟨-, hr⟩
      rw [UInt64.toNat_inj.mp hr]
      rfl
  | cons value values ih =>
    intro sum r hsum
    rw [List.foldlM_cons, exactSum, List.map_cons, List.sum_cons, ← exactSum,
      addValue_eq sum value hsum]
    by_cases hle : sum.toNat + value.toNat ≤ MAX_MONEY.toNat
    · have hadd : (sum + value).toNat = sum.toNat + value.toNat := by
        rw [UInt64.toNat_add, Nat.mod_eq_of_lt (by rw [toNat_MAX_MONEY] at hle; omega)]
      rw [if_pos hle]
      refine (ih (sum + value) r (hadd ▸ hle)).trans ?_
      rw [hadd, Nat.add_assoc]
    · rw [if_neg hle]
      constructor
      · rintro ⟨⟩
      · rintro ⟨h, -⟩
        omega

variable {values : List UInt64} {tx : Transaction} {key : UInt160}

/-- **The money range.** The sum is returned exactly when it is at most `MAX_MONEY`, and then it is
exact. -/
theorem sumValues_eq_ok_iff {r : UInt64} :
    sumValues values = .ok r ↔ exactSum values ≤ MAX_MONEY.toNat ∧ r.toNat = exactSum values := by
  rw [sumValues, foldlM_addValue_eq_ok_iff values 0 r (Nat.zero_le _)]
  simp

theorem toNat_ofNat_exactSum (h : exactSum values ≤ MAX_MONEY.toNat) :
    (UInt64.ofNat (exactSum values)).toNat = exactSum values :=
  UInt64.toNat_ofNat_of_lt' (h.trans_lt (by rw [toNat_MAX_MONEY]; decide))

private theorem eq_runtimeError_of_foldlM {f : Fault} : ∀ (values : List UInt64) (sum : UInt64),
    values.foldlM addValue sum = .error f → f = .runtimeError := by
  intro values
  induction values with
  | nil => exact fun sum h ↦ absurd h (by simp [pure, Except.pure])
  | cons value values ih =>
    intro sum h
    rw [List.foldlM_cons, addValue] at h
    split at h
    · exact (Except.error.inj h).symm
    · exact ih _ h

theorem sumValues_eq_error_iff {f : Fault} :
    sumValues values = .error f ↔ f = .runtimeError ∧ MAX_MONEY.toNat < exactSum values := by
  constructor
  · intro h
    refine ⟨eq_runtimeError_of_foldlM values 0 h, not_le.mp fun hle ↦ ?_⟩
    have hok := sumValues_eq_ok_iff.mpr ⟨hle, toNat_ofNat_exactSum hle⟩
    exact absurd (h.symm.trans hok) (by simp)
  · rintro ⟨rfl, hlt⟩
    rcases h : sumValues values with f | r
    · rw [eq_runtimeError_of_foldlM values 0 h]
    · exact absurd (sumValues_eq_ok_iff.mp h).1 (not_le.mpr hlt)

theorem Transaction.spent_eq_zero (h : ∀ txin ∈ tx.vin, txin.pubKey ≠ key) : tx.spent key = 0 := by
  have hnone : tx.vin.filter (fun txin ↦ txin.pubKey == key) = [] :=
    List.filter_eq_nil_iff.mpr fun txin hmem heq ↦ h txin hmem (beq_iff_eq.mp heq)
  rw [Transaction.spent, hnone]
  rfl

theorem Transaction.spent_le {b : ℕ} (hnodup : (tx.vin.map TxIn.pubKey).Nodup)
    (hle : ∀ txin ∈ tx.vin, txin.pubKey = key → txin.nValue.toNat ≤ b) : tx.spent key ≤ b := by
  rw [Transaction.spent]
  revert hnodup hle
  induction tx.vin with
  | nil => simp [exactSum]
  | cons txin vin ih =>
    intro hnodup hle
    rw [List.map_cons, List.nodup_cons] at hnodup
    rw [List.forall_mem_cons] at hle
    rw [List.filter_cons]
    split_ifs with hkey
    · have hrest : vin.filter (fun txin ↦ txin.pubKey == key) = [] := by
        refine List.filter_eq_nil_iff.mpr fun txin' hmem heq ↦ hnodup.1 ?_
        rw [beq_iff_eq.mp hkey, ← beq_iff_eq.mp heq]
        exact List.mem_map_of_mem hmem
      rw [hrest, List.map_singleton, exactSum_cons]
      exact hle.1 (beq_iff_eq.mp hkey)
    · exact ih hnodup.2 hle.2

end Cryptonite
