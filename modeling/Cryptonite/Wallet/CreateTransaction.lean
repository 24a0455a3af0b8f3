import Cryptonite.Foundation.Loop
import Cryptonite.Wallet.SelectCoins

/-!
# Building a payment

`CreateTransaction` of `wallet.cpp` pays a map of accounts. The fee depends on the size of the
transaction, the size on the accounts that pay, and these on the fee. So the transaction is built
with a fee to begin with, and built again with the fee that its size requires as long as that is
more. Each new fee is the one for some number of kilobytes below a hundred, and it is more than the
one before: the loop ends after a hundred rounds at most, whatever the amounts are.

What it builds is described by `Wallet.Pays`. The inputs are worth the payments and the fee together
if the selection stayed within `int64_t`, and only then.
-/

namespace Cryptonite

open Loop

def MAX_STANDARD_TX_SIZE : ℕ := 100000

/-- `GetSerializeSize`: the counter is an `unsigned int`. -/
def Transaction.getSerializeSize (tx : Transaction) : Exec UInt32 := do
  let bytes ← tx.serialize
  pure (UInt32.ofNat bytes.length)

def TxOut.isDust (txout : TxOut) (nMinRelayTxFee : UInt64) : Bool :=
  decide (txout.nValue * 1000 / (3 * (UInt64.ofNat txout.serialize.length + 148)) < nMinRelayTxFee)

/-- The first loop of `CreateTransaction`: the sum of the payments, and the payees. The sum is
looked at before the payment is added. -/
def addPayments : List (UInt160 × Int64) → Int64 → List UInt160 →
    Except String (Int64 × List UInt160)
  | [], nValue, setDisallowed => .ok (nValue, setDisallowed)
  | s :: mapSend, nValue, setDisallowed =>
    if nValue < 0 then .error "Transaction amounts must be positive"
    else if setDisallowed.contains s.1 then
      .error "Transaction has multiple outputs to same address"
    else addPayments mapSend (nValue + s.2) (setDisallowed ++ [s.1])

def payeeOut (s : UInt160 × Int64) : TxOut := ⟨s.2.toUInt64, s.1⟩

def payees (nMinRelayTxFee : Int64) : List (UInt160 × Int64) → Except String (List TxOut)
  | [] => .ok []
  | s :: mapSend =>
    if (payeeOut s).isDust nMinRelayTxFee.toUInt64 then .error "Transaction amount too small"
    else do
      let vout ← payees nMinRelayTxFee mapSend
      pure (payeeOut s :: vout)

/-- `CTxIn` for a coin. -/
def Coin.txIn (coin : Coin) : TxIn := ⟨coin.amount, coin.key, []⟩

/-- What an input takes. -/
def TxIn.coin (txin : TxIn) : Coin := ⟨txin.nValue, txin.pubKey⟩

/-- How a round of the loop in `CreateTransaction` ends. -/
inductive Construction where
  /-- `continue`, with a new fee. -/
  | again (nFeeRet : Int64)
  /-- `return true`. -/
  | created (wtxNew : Transaction) (nFeeRet : Int64)
  /-- `return false`. -/
  | failed (strFailReason : String)
  | fault (fault : Fault)
  deriving DecidableEq, Repr

namespace Wallet

variable (wallet : Wallet)

/-- The loop of `SignSignature`: the first input of the account gets a `1` and the signature. -/
def signFirst (pubKey : UInt160) (hash : UInt256) : List TxIn → Option (List TxIn)
  | [] => none
  | txin :: vin =>
    if txin.pubKey = pubKey then
      (wallet.signCompact pubKey hash).map fun vchSig ↦
        { txin with scriptSig := txin.scriptSig ++ [1] ++ vchSig } :: vin
    else (signFirst pubKey hash vin).map (txin :: ·)

/-- `SignSignature`. Its assertion holds: there is an input for each coin. -/
def signSignature (pubKey : UInt160) (txTo : Transaction) : Option Transaction :=
  (wallet.signFirst pubKey (txTo.signatureHash wallet.H) txTo.vin).map fun vin ↦
    { txTo with vin := vin }

def signCoins : List Coin → Transaction → Option Transaction
  | [], wtxNew => some wtxNew
  | coin :: coins, wtxNew => (wallet.signSignature coin.key wtxNew).bind (signCoins coins)

/-- `max(nPayFee, nMinFee)`. -/
def requiredFee (nBytes : ℕ) : Int64 :=
  max (wallet.nTransactionFee * (1 + Int64.ofNat nBytes / 1000))
    (getMinFee wallet.nMinTxFee nBytes)

/-- A round of the loop in `CreateTransaction`. The fields of `wtxNew` that it does not write are
those of `wtx`. -/
def round (wtx : Transaction) (strFromAccount : String) (mapSend : List (UInt160 × Int64))
    (nValue : Int64) (setDisallowed : List UInt160) (nFeeRet : Int64) : Construction :=
  match payees wallet.nMinRelayTxFee mapSend with
  | .error strFailReason => .failed strFailReason
  | .ok vout =>
    match wallet.selectCoins (nValue + nFeeRet) setDisallowed strFromAccount with
    | none => .failed ("Insufficient funds - Most likely you have exceeded withdrawal limits, " ++
        "or your balances are insufficient to cover the tx fee")
    | some setCoins =>
      match wallet.signCoins setCoins
        { wtx with vin := setCoins.map Coin.txIn, vout := vout
                   nLockHeight := UInt64.ofInt wallet.tip.height } with
      | none => .failed "Signing transaction failed"
      | some wtxNew =>
        match wtxNew.getSerializeSize with
        | .error fault => .fault fault
        | .ok nBytes =>
          if MAX_STANDARD_TX_SIZE ≤ nBytes.toNat then .failed "Transaction too large"
          else if nFeeRet < wallet.requiredFee nBytes.toNat then
            .again (wallet.requiredFee nBytes.toNat)
          else .created wtxNew nFeeRet

def step (wtx : Transaction) (strFromAccount : String) (mapSend : List (UInt160 × Int64))
    (nValue : Int64) (setDisallowed : List UInt160) : Construction → Option Construction
  | .again nFeeRet => some (wallet.round wtx strFromAccount mapSend nValue setDisallowed nFeeRet)
  | _ => none

/-- `CreateTransaction`, with at most so many rounds. -/
def createTransaction (rounds : ℕ) (wtx : Transaction) (strFromAccount : String)
    (mapSend : List (UInt160 × Int64)) : Construction :=
  match addPayments mapSend 0 [] with
  | .error strFailReason => .failed strFailReason
  | .ok sum =>
    if mapSend.isEmpty || decide (sum.1 < 0) then .failed "Transaction amounts must be positive"
    else whileSome (wallet.step wtx strFromAccount mapSend sum.1 sum.2) rounds
      (.again wallet.nTransactionFee)

/-! ## What is required of a payment -/

def totalSent (mapSend : List (UInt160 × Int64)) : ℤ := (mapSend.map fun s ↦ s.2.toInt).sum

/-- The fee for a size, without a bound on the numbers. -/
def fee (nBytes : ℕ) : ℤ :=
  max (wallet.nTransactionFee.toInt * (1 + nBytes / 1000))
    (wallet.nMinTxFee.toInt * (1 + nBytes / 1000))

/-- The fee for every standard size fits `int64_t`, with the payments added. -/
structure FeesFit (total : ℤ) : Prop where
  le_payFee : ∀ nBytes : ℕ, nBytes < MAX_STANDARD_TX_SIZE →
    -2 ^ 63 ≤ wallet.nTransactionFee.toInt * (1 + nBytes / 1000)
  lt : ∀ nBytes : ℕ, nBytes < MAX_STANDARD_TX_SIZE → total + wallet.fee nBytes < 2 ^ 63

/-- The first running total to reach the target stays below `2 ^ 63`, at a depth. -/
def SelectsWithin (strFromAccount : String) (setDisallowed : List UInt160) (target : ℕ)
    (depth : ℤ × ℤ) : Prop :=
  Within target 0 (wallet.sortedCoins depth.1 depth.2 setDisallowed strFromAccount)

/-- What a transaction is like that has been created for payments. -/
structure Pays (strFromAccount : String) (mapSend : List (UInt160 × Int64)) (wtxNew : Transaction)
    (nFeeRet : Int64) : Prop where
  vout_eq : wtxNew.vout = mapSend.map payeeOut
  nodup : (wtxNew.vin.map TxIn.pubKey).Nodup
  not_payee : ∀ txin ∈ wtxNew.vin, txin.pubKey ∉ mapSend.map Prod.fst
  /-- The inputs have been selected at the depth used, and nothing goes beyond the balance and the
  limit reported there. They are worth what is paid if the selection stayed within `int64_t`, and
  only then. -/
  funded : ∃ (nValue : Int64) (target : ℕ) (depth : ℤ × ℤ),
    nValue.toInt = target ∧ target = totalSent mapSend + nFeeRet.toInt ∧
    wallet.depthUsed nValue (mapSend.map Prod.fst) strFromAccount = some depth ∧
    wallet.selectCoinsMinConf nValue depth.1 depth.2 (mapSend.map Prod.fst) strFromAccount =
      some (wtxNew.vin.map TxIn.coin) ∧
    (∀ txin ∈ wtxNew.vin, ∃ info,
      (txin.pubKey, info) ∈ wallet.reported depth.1 depth.2 strFromAccount ∧
      txin.nValue.toNat ≤ min info.balance.toNat info.limit.toNat) ∧
    ((wtxNew.vin.map fun txin ↦ txin.nValue.toNat).sum = target ↔
      wallet.SelectsWithin strFromAccount (mapSend.map Prod.fst) target depth)
  /-- The fee is enough if the size fits `unsigned int`, and only then. -/
  fee_le_iff : ∃ bytes, wtxNew.serialize = .ok bytes ∧
    (wallet.fee bytes.length ≤ nFeeRet.toInt ↔ bytes.length < 2 ^ 32)

/-! ## The fee -/

variable {wallet}

variable {nBytes : ℕ} {total : ℤ} {nFeeRet : Int64} {mapSend : List (UInt160 × Int64)}

theorem toInt_kilobytes (h : nBytes < MAX_STANDARD_TX_SIZE) :
    (1 + Int64.ofNat nBytes / 1000).toInt = 1 + nBytes / 1000 := by
  rw [MAX_STANDARD_TX_SIZE] at h
  have hn : (Int64.ofNat nBytes).toInt = nBytes := Int64.toInt_ofNat_of_lt (by omega)
  have hk : (1000 : Int64).toInt = 1000 := rfl
  have hdiv : (Int64.ofNat nBytes / 1000).toInt = nBytes / 1000 := by
    rw [Int64.toInt_div, hn, hk, Int.tdiv_eq_ediv_of_nonneg (by omega)]
    exact Int.bmod_eq_of_le (by omega) (by omega)
  have hone : (1 : Int64).toInt = 1 := rfl
  rw [toInt_add_of_fits (by omega) (by omega), hone, hdiv]

theorem toInt_max (a b : Int64) : (max a b).toInt = max a.toInt b.toInt := by
  change (if a ≤ b then b else a).toInt = max a.toInt b.toInt
  rw [max_def, apply_ite Int64.toInt]
  simp only [Int64.le_iff_toInt_le]

/-- `GetMinFee` is the exact fee if that fits `int64_t`: the whole range is money. -/
theorem toInt_getMinFee {base : Int64} (h : nBytes < MAX_STANDARD_TX_SIZE)
    (hpos : 0 ≤ base.toInt * (1 + nBytes / 1000))
    (hlt : base.toInt * (1 + nBytes / 1000) < 2 ^ 63) :
    (getMinFee base nBytes).toInt = base.toInt * (1 + nBytes / 1000) := by
  have hfee : ((1 + Int64.ofNat nBytes / 1000) * base).toInt =
      base.toInt * (1 + nBytes / 1000) := by
    rw [Int64.toInt_mul, toInt_kilobytes h, mul_comm]
    exact Int.bmod_eq_of_le (by omega) (by omega)
  have hmoney : moneyRange ((1 + Int64.ofNat nBytes / 1000) * base).toUInt64 = true := by
    have hcast := toNat_toUInt64 ((1 + Int64.ofNat nBytes / 1000) * base)
    rw [hfee] at hcast
    rw [moneyRange, decide_eq_true_iff, UInt64.le_iff_toNat_le,
      show MAX_MONEY.toNat = 18446744070000000000 from rfl]
    omega
  rw [getMinFee]
  simp only [hmoney]
  exact hfee

theorem fee_pos (wallet : Wallet) (nBytes : ℕ) : 0 < wallet.fee nBytes := by
  have hpos : 0 < wallet.nMinTxFee.toInt := Int64.lt_iff_toInt_lt.mp wallet.nMinTxFee_pos
  exact lt_max_of_lt_right (by positivity)

theorem fee_lt_fee (wallet : Wallet) {size : ℕ} (hn : nBytes < MAX_STANDARD_TX_SIZE)
    (hsize : MAX_STANDARD_TX_SIZE ≤ size) : wallet.fee nBytes < wallet.fee size := by
  have heq : ∀ n : ℕ, wallet.fee n =
      max wallet.nTransactionFee.toInt wallet.nMinTxFee.toInt * (1 + n / 1000) := fun n ↦
    (max_mul_of_nonneg _ _ (by positivity)).symm
  have hpos : 0 < max wallet.nTransactionFee.toInt wallet.nMinTxFee.toInt :=
    lt_max_of_lt_right (Int64.lt_iff_toInt_lt.mp wallet.nMinTxFee_pos)
  rw [MAX_STANDARD_TX_SIZE] at hn hsize
  rw [heq, heq]
  exact mul_lt_mul_of_pos_left (by omega) hpos

theorem FeesFit.toInt_requiredFee (h : wallet.FeesFit total) (htotal : 0 ≤ total)
    (hn : nBytes < MAX_STANDARD_TX_SIZE) :
    (wallet.requiredFee nBytes).toInt = wallet.fee nBytes := by
  have hlt := h.lt nBytes hn
  have hle := h.le_payFee nBytes hn
  have hpay : wallet.nTransactionFee.toInt * (1 + nBytes / 1000) ≤ wallet.fee nBytes :=
    le_max_left _ _
  have hmin : wallet.nMinTxFee.toInt * (1 + nBytes / 1000) ≤ wallet.fee nBytes := le_max_right _ _
  have hpos : 0 < wallet.nMinTxFee.toInt := Int64.lt_iff_toInt_lt.mp wallet.nMinTxFee_pos
  rw [requiredFee, toInt_max, Int64.toInt_mul, toInt_kilobytes hn,
    toInt_getMinFee hn (by positivity) (by omega), Int.bmod_eq_of_le (by omega) (by omega), fee]

theorem requiredFee_kilobytes (h : nBytes < MAX_STANDARD_TX_SIZE) :
    wallet.requiredFee (1000 * (nBytes / 1000)) = wallet.requiredFee nBytes := by
  have hle : 1000 * (nBytes / 1000) < MAX_STANDARD_TX_SIZE :=
    (Nat.mul_div_le nBytes 1000).trans_lt h
  have hkilobytes : 1 + Int64.ofNat (1000 * (nBytes / 1000)) / 1000 =
      1 + Int64.ofNat nBytes / 1000 := by
    rw [← Int64.toInt_inj, toInt_kilobytes h, toInt_kilobytes hle]
    omega
  rw [requiredFee, requiredFee, getMinFee, getMinFee, hkilobytes]

/-! ## The loop ends -/

section Rounds

variable {wtx : Transaction} {strFromAccount : String} {mapSend : List (UInt160 × Int64)}
  {nValue : Int64} {setDisallowed : List UInt160} {nFeeRet nFeeRet' : Int64}
  {wtxNew : Transaction}

/-- How a round ends that neither fails nor throws: the fee is compared with the one that the size
of the transaction requires. -/
theorem round_cases {result : Construction}
    (h : wallet.round wtx strFromAccount mapSend nValue setDisallowed nFeeRet = result) :
    (∃ strFailReason, result = .failed strFailReason) ∨ (∃ fault, result = .fault fault) ∨
    ∃ vout setCoins wtxNew nBytes,
      payees wallet.nMinRelayTxFee mapSend = .ok vout ∧
      wallet.selectCoins (nValue + nFeeRet) setDisallowed strFromAccount = some setCoins ∧
      wallet.signCoins setCoins
        { wtx with vin := setCoins.map Coin.txIn, vout := vout
                   nLockHeight := UInt64.ofInt wallet.tip.height } = some wtxNew ∧
      wtxNew.getSerializeSize = .ok nBytes ∧ nBytes.toNat < MAX_STANDARD_TX_SIZE ∧
      result = if nFeeRet < wallet.requiredFee nBytes.toNat then
        .again (wallet.requiredFee nBytes.toNat) else .created wtxNew nFeeRet := by
  subst h
  rw [round]
  split
  · exact .inl ⟨_, rfl⟩
  next vout hvout =>
    split
    · exact .inl ⟨_, rfl⟩
    next setCoins hcoins =>
      split
      · exact .inl ⟨_, rfl⟩
      next wtxNew hsigned =>
        split
        · exact .inr (.inl ⟨_, rfl⟩)
        next nBytes hsize =>
          split
          · exact .inl ⟨_, rfl⟩
          next hlt =>
            exact .inr (.inr ⟨vout, setCoins, wtxNew, nBytes, hvout, hcoins, hsigned, hsize,
              Nat.lt_of_not_le hlt, rfl⟩)

theorem round_eq_again
    (h : wallet.round wtx strFromAccount mapSend nValue setDisallowed nFeeRet =
      .again nFeeRet') :
    ∃ nBytes < MAX_STANDARD_TX_SIZE, nFeeRet' = wallet.requiredFee nBytes ∧
      nFeeRet.toInt < nFeeRet'.toInt := by
  obtain ⟨_, hfailed⟩ | ⟨_, hfault⟩ | ⟨_, _, _, nBytes, -, -, -, -, hsize, hend⟩ := round_cases h
  · cases hfailed
  · cases hfault
  · split at hend
    case isTrue hlt =>
      obtain rfl := Construction.again.inj hend
      exact ⟨nBytes.toNat, hsize, rfl, Int64.lt_iff_toInt_lt.mp hlt⟩
    case isFalse => cases hend

/-- A round that ends with a transaction has selected and signed its inputs, for a fee that is
enough. -/
theorem round_eq_created
    (h : wallet.round wtx strFromAccount mapSend nValue setDisallowed nFeeRet =
      .created wtxNew nFeeRet') : nFeeRet' = nFeeRet ∧ ∃ vout setCoins nBytes,
      payees wallet.nMinRelayTxFee mapSend = .ok vout ∧
      wallet.selectCoins (nValue + nFeeRet) setDisallowed strFromAccount = some setCoins ∧
      wallet.signCoins setCoins
        { wtx with vin := setCoins.map Coin.txIn, vout := vout
                   nLockHeight := UInt64.ofInt wallet.tip.height } = some wtxNew ∧
      wtxNew.getSerializeSize = .ok nBytes ∧ nBytes.toNat < MAX_STANDARD_TX_SIZE ∧
      (wallet.requiredFee nBytes.toNat).toInt ≤ nFeeRet.toInt := by
  obtain ⟨_, hfailed⟩ | ⟨_, hfault⟩ | ⟨vout, setCoins, _, nBytes, hvout, hcoins, hsigned, hbytes,
    hsize, hend⟩ := round_cases h
  · cases hfailed
  · cases hfault
  · split at hend
    case isTrue => cases hend
    case isFalse hle =>
      obtain ⟨rfl, rfl⟩ := Construction.created.inj hend
      rw [Int64.lt_iff_toInt_lt, not_lt] at hle
      exact ⟨rfl, vout, setCoins, nBytes, hvout, hcoins, hsigned, hbytes, hsize, hle⟩

end Rounds

/-- The kilobytes whose fee is more than a given one. -/
def dearer (wallet : Wallet) (nFeeRet : Int64) : Finset ℕ :=
  {k ∈ Finset.range 100 | nFeeRet.toInt < (wallet.requiredFee (1000 * k)).toInt}

theorem card_dearer_lt {nFeeRet' : Int64} (hn : nBytes < MAX_STANDARD_TX_SIZE)
    (hfee : nFeeRet' = wallet.requiredFee nBytes) (hlt : nFeeRet.toInt < nFeeRet'.toInt) :
    (wallet.dearer nFeeRet').card < (wallet.dearer nFeeRet).card := by
  have hk : wallet.requiredFee (1000 * (nBytes / 1000)) = nFeeRet' := by
    rw [hfee, requiredFee_kilobytes hn]
  rw [MAX_STANDARD_TX_SIZE] at hn
  refine Finset.card_lt_card (Finset.ssubset_iff_of_subset ?_ |>.mpr ⟨nBytes / 1000, ?_, ?_⟩)
  · intro k hmem
    rw [dearer, Finset.mem_filter] at hmem ⊢
    exact ⟨hmem.1, hlt.trans hmem.2⟩
  · rw [dearer, Finset.mem_filter, Finset.mem_range, hk]
    exact ⟨by omega, hlt⟩
  · rw [dearer, Finset.mem_filter, hk]
    exact fun hmem ↦ lt_irrefl _ hmem.2

/-- How many rounds there can still be. -/
def roundsLeft (wallet : Wallet) : Construction → ℕ
  | .again nFeeRet => (wallet.dearer nFeeRet).card + 1
  | _ => 0

theorem roundsLeft_le (result : Construction) : wallet.roundsLeft result ≤ 101 := by
  cases result with
  | again nFeeRet =>
    exact Nat.succ_le_succ ((Finset.card_filter_le _ _).trans (Finset.card_range 100).le)
  | created | failed | fault => exact Nat.zero_le _

/-- What is true at every stage of the loop: a fee is the first one or that of a standard size, and
a transaction is the result of a round. -/
def Stage (wallet : Wallet) (wtx : Transaction) (strFromAccount : String)
    (mapSend : List (UInt160 × Int64)) (nValue : Int64) (setDisallowed : List UInt160)
    (result : Construction) : Prop :=
  (∀ nFeeRet, result = .again nFeeRet ∨ (∃ wtxNew, result = .created wtxNew nFeeRet) →
    nFeeRet = wallet.nTransactionFee ∨
      ∃ nBytes < MAX_STANDARD_TX_SIZE, nFeeRet = wallet.requiredFee nBytes) ∧
  ∀ wtxNew nFeeRet, result = .created wtxNew nFeeRet →
    wallet.round wtx strFromAccount mapSend nValue setDisallowed nFeeRet = .created wtxNew nFeeRet

section Loop

variable {wtx : Transaction} {strFromAccount : String} {mapSend : List (UInt160 × Int64)}
  {nValue : Int64} {setDisallowed : List UInt160}

theorem Stage.step {s s' : Construction}
    (h : wallet.Stage wtx strFromAccount mapSend nValue setDisallowed s)
    (hstep : wallet.step wtx strFromAccount mapSend nValue setDisallowed s = some s') :
    wallet.Stage wtx strFromAccount mapSend nValue setDisallowed s' ∧
      wallet.roundsLeft s' < wallet.roundsLeft s := by
  cases s with
  | again nFeeRet =>
    cases hstep
    generalize hround : wallet.round wtx strFromAccount mapSend nValue setDisallowed nFeeRet = s'
    cases s' with
    | again nFeeRet' =>
      obtain ⟨nBytes, hn, hfee, hlt⟩ := round_eq_again hround
      refine ⟨⟨?_, fun _ _ h ↦ by cases h⟩, Nat.succ_lt_succ (card_dearer_lt hn hfee hlt)⟩
      rintro nFeeRet (hend | ⟨_, hend⟩)
      · obtain rfl := Construction.again.inj hend
        exact .inr ⟨nBytes, hn, hfee⟩
      · cases hend
    | created wtxNew nFeeRet' =>
      obtain rfl := (round_eq_created hround).1
      refine ⟨⟨?_, ?_⟩, Nat.succ_pos _⟩
      · rintro nFeeRet (hend | ⟨_, hend⟩)
        · cases hend
        · obtain ⟨-, rfl⟩ := Construction.created.inj hend
          exact h.1 _ (.inl rfl)
      · intro wtxNew nFeeRet hend
        obtain ⟨rfl, rfl⟩ := Construction.created.inj hend
        exact hround
    | failed | fault =>
      refine ⟨⟨?_, fun _ _ h ↦ by cases h⟩, Nat.succ_pos _⟩
      rintro nFeeRet (hend | ⟨_, hend⟩) <;> cases hend
  | created | failed | fault => cases hstep

/-- **The loop ends**, and a hundred and one rounds are enough. -/
theorem exists_whileSome :
    ∃ result, (∀ nFeeRet, result ≠ .again nFeeRet) ∧
      wallet.Stage wtx strFromAccount mapSend nValue setDisallowed result ∧
      ∀ rounds, 101 ≤ rounds →
        whileSome (wallet.step wtx strFromAccount mapSend nValue setDisallowed) rounds
          (.again wallet.nTransactionFee) = result := by
  have hstart : wallet.Stage wtx strFromAccount mapSend nValue setDisallowed
      (.again wallet.nTransactionFee) := by
    refine ⟨?_, fun _ _ h ↦ by cases h⟩
    rintro nFeeRet (hend | ⟨_, hend⟩)
    · exact .inl (Construction.again.inj hend).symm
    · cases hend
  obtain ⟨hstage, hnone⟩ := whileSome_spec (fun _ _ ↦ Stage.step) hstart (roundsLeft_le _)
  refine ⟨_, fun nFeeRet hagain ↦ ?_, hstage, fun rounds hle ↦ whileSome_stable hnone hle⟩
  rw [hagain] at hnone
  cases hnone

end Loop

/-! ## What the loop builds -/

theorem signFirst_coins {pubKey : UInt160} {hash : UInt256} {vin : List TxIn} :
    ∀ {vin' : List TxIn}, wallet.signFirst pubKey hash vin = some vin' →
      vin'.map TxIn.coin = vin.map TxIn.coin := by
  induction vin with
  | nil => exact fun h ↦ by cases h
  | cons txin vin ih =>
    intro vin' h
    rw [signFirst] at h
    split at h
    · obtain ⟨vchSig, -, rfl⟩ := Option.map_eq_some_iff.mp h
      rfl
    · obtain ⟨rest, hrest, rfl⟩ := Option.map_eq_some_iff.mp h
      rw [List.map_cons, List.map_cons, ih hrest]

/-- Signatures change neither what the inputs take nor the outputs. -/
theorem signCoins_spec {coins : List Coin} :
    ∀ {tx wtxNew : Transaction}, wallet.signCoins coins tx = some wtxNew →
      wtxNew.vin.map TxIn.coin = tx.vin.map TxIn.coin ∧ wtxNew.vout = tx.vout := by
  induction coins with
  | nil =>
    intro tx wtxNew h
    cases h
    exact ⟨rfl, rfl⟩
  | cons coin coins ih =>
    intro tx wtxNew h
    obtain ⟨signed, hsigned, hrest⟩ := Option.bind_eq_some_iff.mp h
    obtain ⟨vin, hvin, rfl⟩ := Option.map_eq_some_iff.mp hsigned
    obtain ⟨hcoins, hvout⟩ := ih hrest
    exact ⟨hcoins.trans (signFirst_coins hvin), hvout⟩

theorem payees_eq {nMinRelayTxFee : Int64} :
    ∀ {vout : List TxOut}, payees nMinRelayTxFee mapSend = .ok vout →
      vout = mapSend.map payeeOut := by
  induction mapSend with
  | nil => exact fun h ↦ (Except.ok.inj h).symm
  | cons s mapSend ih =>
    intro vout h
    rw [payees] at h
    split at h
    · cases h
    · rcases hrest : payees nMinRelayTxFee mapSend with _ | rest
      · rw [hrest] at h
        cases h
      · rw [hrest] at h
        cases h
        rw [List.map_cons, ih hrest]

theorem totalSent_nonneg (hpos : ∀ s ∈ mapSend, 0 < s.2) : 0 ≤ totalSent mapSend := by
  refine List.sum_nonneg fun amount hmem ↦ ?_
  obtain ⟨s, hs, rfl⟩ := List.mem_map.mp hmem
  exact (Int64.lt_iff_toInt_lt.mp (hpos s hs)).le

/-- The sum of positive payments is exact if it fits. -/
theorem addPayments_spec :
    ∀ {nValue : Int64} {setDisallowed : List UInt160} {sum : Int64 × List UInt160},
      (∀ s ∈ mapSend, 0 < s.2) → 0 ≤ nValue.toInt → nValue.toInt + totalSent mapSend < 2 ^ 63 →
      addPayments mapSend nValue setDisallowed = .ok sum →
      sum.1.toInt = nValue.toInt + totalSent mapSend ∧
        sum.2 = setDisallowed ++ mapSend.map Prod.fst := by
  induction mapSend with
  | nil =>
    intro nValue setDisallowed sum _ _ _ h
    cases h
    simp [totalSent]
  | cons s mapSend ih =>
    intro nValue setDisallowed sum hpos hnonneg hlt h
    have hs : 0 < s.2.toInt := Int64.lt_iff_toInt_lt.mp (hpos s List.mem_cons_self)
    have hrest : ∀ s ∈ mapSend, 0 < s.2 := fun s hs ↦ hpos s (List.mem_cons_of_mem _ hs)
    have htotal : totalSent (s :: mapSend) = s.2.toInt + totalSent mapSend := rfl
    have hle := totalSent_nonneg hrest
    rw [htotal] at hlt
    have hadd : (nValue + s.2).toInt = nValue.toInt + s.2.toInt :=
      toInt_add_of_fits (by omega) (by omega)
    rw [addPayments] at h
    split at h
    · cases h
    · split at h
      · cases h
      · obtain ⟨hsum, hkeys⟩ := ih hrest (by omega) (by omega) h
        exact ⟨by rw [hsum, hadd, htotal, Int.add_assoc], by simp [hkeys]⟩

/-- Every fee that the loop tries is at most the one for some standard size. -/
theorem FeesFit.exists_le_fee (h : wallet.FeesFit total) (htotal : 0 ≤ total)
    (hfee : nFeeRet = wallet.nTransactionFee ∨
      ∃ nBytes < MAX_STANDARD_TX_SIZE, nFeeRet = wallet.requiredFee nBytes) :
    ∃ nBytes < MAX_STANDARD_TX_SIZE, nFeeRet.toInt ≤ wallet.fee nBytes := by
  obtain rfl | ⟨nBytes, hn, rfl⟩ := hfee
  · exact ⟨0, by decide, by simp [fee]⟩
  · exact ⟨nBytes, hn, (h.toInt_requiredFee htotal hn).le⟩

theorem pays_of_round {wtx : Transaction} {strFromAccount : String} {nValue : Int64}
    {wtxNew : Transaction}
    (hfees : wallet.FeesFit (totalSent mapSend)) (htotal : 0 ≤ totalSent mapSend)
    (hvalue : nValue.toInt = totalSent mapSend)
    (hle : ∃ nBytes < MAX_STANDARD_TX_SIZE, nFeeRet.toInt ≤ wallet.fee nBytes)
    (h : wallet.round wtx strFromAccount mapSend nValue (mapSend.map Prod.fst) nFeeRet =
      .created wtxNew nFeeRet) : wallet.Pays strFromAccount mapSend wtxNew nFeeRet := by
  obtain ⟨-, vout, setCoins, nBytes, hvout, hcoins, hsigned, hbytes, hsize, hfee⟩ :=
    round_eq_created h
  obtain ⟨standard, hstandard, hle⟩ := hle
  have hlt := hfees.lt standard hstandard
  obtain ⟨hvin, hout⟩ := signCoins_spec hsigned
  replace hvin : wtxNew.vin.map TxIn.coin = setCoins := by
    rw [hvin, List.map_map]
    exact List.map_id setCoins
  obtain ⟨depth, hdepth, hselected⟩ := exists_depthUsed hcoins
  obtain ⟨hnodup, hallowed⟩ := selectCoinsMinConf_keys hselected
  rw [hfees.toInt_requiredFee htotal hsize] at hfee
  have hfeePos := wallet.fee_pos nBytes.toNat
  obtain ⟨target, htarget⟩ : ∃ target : ℕ, (target : ℤ) = totalSent mapSend + nFeeRet.toInt :=
    ⟨_, Int.toNat_of_nonneg (by omega)⟩
  have hadd : (nValue + nFeeRet).toInt = target := by
    rw [toInt_add_of_fits (by omega) (by omega), hvalue, htarget]
  have hpos : 0 < target := by omega
  have hsum : (wtxNew.vin.map fun txin ↦ txin.nValue.toNat).sum = amounts setCoins := by
    rw [← hvin, amounts, List.map_map]
    rfl
  refine
    { vout_eq := hout.trans (payees_eq hvout)
      nodup := ?_
      not_payee := fun txin htxin ↦ ?_
      funded := ⟨nValue + nFeeRet, target, depth, hadd, htarget, hdepth, hvin ▸ hselected,
        fun txin htxin ↦ ?_, ?_⟩
      fee_le_iff := ?_ }
  · rw [← hvin, List.map_map] at hnodup
    exact hnodup
  · exact hallowed txin.coin (hvin ▸ List.mem_map_of_mem htxin)
  · have hzero : (0 : Int64).toInt = 0 := rfl
    exact selectCoinsMinConf_le (Int64.lt_iff_toInt_lt.mpr (by omega)) hselected
      (hvin ▸ List.mem_map_of_mem htxin : txin.coin ∈ setCoins)
  · rw [hsum, SelectsWithin, ← selectCoinsMinConf_selectsExactly_iff hadd hpos, hselected,
      SelectsExactly]
    simp
  · rw [Transaction.getSerializeSize] at hbytes
    rcases hserialize : wtxNew.serialize with _ | bytes
    · rw [hserialize] at hbytes
      cases hbytes
    · rw [hserialize] at hbytes
      cases hbytes
      refine ⟨bytes, rfl, fun hpaid ↦ ?_, fun hbound ↦ ?_⟩
      · -- A size that does not fit is past the standard ones, whose fees are all less.
        by_contra hbound
        have hlarge : MAX_STANDARD_TX_SIZE ≤ bytes.length := by
          rw [MAX_STANDARD_TX_SIZE]
          omega
        have hless := wallet.fee_lt_fee hstandard hlarge
        omega
      · rwa [UInt32.toNat_ofNat_of_lt' hbound] at hfee

/-- **Payments.** The loop ends. If the fees fit beside positive payments, what it builds spends
different accounts that are not paid, within what is reported of them, and pays the fee for its
size. The inputs are worth the payments and the fee precisely if the running total of the selection
does not wrap; and this is also what decides whether a selection that fails had too little to select
from. -/
theorem createTransaction_pays (wallet : Wallet) (wtx : Transaction) (strFromAccount : String)
    (mapSend : List (UInt160 × Int64)) (hpos : ∀ s ∈ mapSend, 0 < s.2)
    (hfees : wallet.FeesFit (totalSent mapSend)) :
    (∃ result, (∀ nFeeRet, result ≠ .again nFeeRet) ∧
      (∀ rounds, 101 ≤ rounds →
        wallet.createTransaction rounds wtx strFromAccount mapSend = result) ∧
      ∀ wtxNew nFeeRet, result = .created wtxNew nFeeRet →
        wallet.Pays strFromAccount mapSend wtxNew nFeeRet) ∧
    ∀ (nValue : Int64) (target : ℕ) (depth : ℤ × ℤ) (setDisallowed : List UInt160),
      nValue.toInt = target → 0 < target →
      (SelectsExactly target (wallet.coins depth.1 depth.2 setDisallowed strFromAccount)
          (wallet.selectCoinsMinConf nValue depth.1 depth.2 setDisallowed strFromAccount) ↔
        wallet.SelectsWithin strFromAccount setDisallowed target depth) := by
  refine ⟨?_, fun nValue target depth setDisallowed ↦ selectCoinsMinConf_selectsExactly_iff⟩
  have htotal := totalSent_nonneg hpos
  have hfit := hfees.lt 0 (by decide)
  have hfeePos := wallet.fee_pos 0
  simp only [createTransaction]
  rcases hsum : addPayments mapSend 0 [] with strFailReason | sum
  · exact ⟨.failed strFailReason, by simp, fun _ _ ↦ rfl, by simp⟩
  · have hzero : (0 : Int64).toInt = 0 := rfl
    obtain ⟨hvalue, hkeys⟩ := addPayments_spec hpos (by omega) (by omega) hsum
    rw [hzero, Int.zero_add] at hvalue
    rw [List.nil_append] at hkeys
    simp only [hkeys]
    split
    · exact ⟨_, by simp, fun _ _ ↦ rfl, by simp⟩
    · obtain ⟨result, hends, hstage, hresult⟩ := exists_whileSome
      refine ⟨result, hends, hresult, fun wtxNew nFeeRet hcreated ↦ ?_⟩
      have hle := hfees.exists_le_fee htotal (hstage.1 nFeeRet (.inr ⟨wtxNew, hcreated⟩))
      exact pays_of_round hfees htotal hvalue hle (hstage.2 wtxNew nFeeRet hcreated)

/-! ## Instances -/

/-- A wallet with one account, which has the balance and no limit below it. -/
def single (balance : UInt64) : Wallet where
  tip :=
    { root := some (Leaf.new 5 ⟨0, balance, balance, balance⟩).toNode
      best := some 0
      pprev _ := none
      readBlock _ := none
      height := 0
      MIN_HISTORY := 1000
      isFromMe _ := false }
  pool := .empty
  keys := [5]
  sorted := List.pairwise_singleton _ _
  addressBook _ := none
  bSpendZeroConfChange := true
  nTransactionFee := 0
  nMinTxFee := 1000
  nMinTxFee_pos := by decide
  nMinRelayTxFee := 1000
  H _ := 0
  signCompact _ _ := some []

def blank : Transaction := ⟨1, [], [], [], 0, 0, false⟩

/-- The payment of five thousand units to the account `7`, and a fee of a thousand. -/
def smallPayment : Transaction :=
  { blank with vin := [⟨6000, 5, [1]⟩], vout := [⟨5000, 7⟩] }

/-- A hundred thousand units are enough for it. -/
theorem createTransaction_pays_single :
    (single 100000).createTransaction 101 blank "" [(7, 5000)] = .created smallPayment 1000 ∧
      (single 100000).Pays "" [(7, 5000)] smallPayment 1000 := by
  have hcreated : (single 100000).createTransaction 101 blank "" [(7, 5000)] =
      .created smallPayment 1000 := by decide +kernel
  have hfees : (single 100000).FeesFit (totalSent [(7, 5000)]) := by
    have hpay : (single 100000).nTransactionFee.toInt = 0 := rfl
    have hmin : (single 100000).nMinTxFee.toInt = 1000 := rfl
    have htotal : totalSent [(7, 5000)] = 5000 := rfl
    refine ⟨fun nBytes _ ↦ by rw [hpay]; omega, fun nBytes hn ↦ ?_⟩
    rw [MAX_STANDARD_TX_SIZE] at hn
    rw [fee, hpay, hmin, htotal]
    omega
  have hpos : ∀ s ∈ [((7 : UInt160), (5000 : Int64))], 0 < s.2 := by
    intro s hs
    rw [List.mem_singleton.mp hs]
    decide
  obtain ⟨⟨result, -, hresult, hpays⟩, -⟩ :=
    createTransaction_pays (single 100000) blank "" [(7, 5000)] hpos hfees
  exact ⟨hcreated, hpays _ _ ((hresult 101 le_rfl).symm.trans hcreated)⟩

/-- An account with `2 ^ 63` units cannot make the same payment. -/
theorem payment_refused :
    (single 0x8000000000000000).createTransaction 101 blank "" [(7, 5000)] =
      .failed ("Insufficient funds - Most likely you have exceeded withdrawal limits, " ++
        "or your balances are insufficient to cover the tx fee") ∧
    (single 0x8000000000000000).selectCoinsMinConf 5000 1 6 [7] "" = none ∧
    amounts ((single 0x8000000000000000).coins 1 6 [7] "") = 2 ^ 63 := by
  decide +kernel

end Wallet

end Cryptonite
