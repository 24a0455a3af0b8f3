import Cryptonite.Core.Script
import Cryptonite.Foundation.Sha256
import Cryptonite.Pool.Balances

/-!
# Admission to the pool

`AcceptToMemoryPool` of `main.cpp` compares every input of a transaction with what
`ConservativeBalances` says its account may spend, which is the balance less the withdrawals of the
pool, and no more than the limit. The comparison is made once, for the new transaction, so that the
pool as a whole does not take more than there is has to be an invariant of the sequence of calls.

Two things keep it from being one. A transaction is admitted if it is final five blocks above the
tip, but the query counts only those that are final at the tip; the withdrawals of the others are
not taken off. And the limit is compared with the new input alone, while the withdrawals of the
pool are taken off the balance only. What does hold is that every transaction is within both for
itself, and that the transactions that are final at the tip are together within the balance
(`Admission.Sound`). The pool is jointly spendable if that is enough, whichever of the submitted
transactions are admitted (`Admission.jointly_spendable`).
-/

namespace Cryptonite

open Std Check

/-! ## The model -/

/-- `if (c) return error(…)`. -/
def Check.failIf (c : Bool) : Check Unit := if c then .error .failed else .ok ()

@[simp] theorem Check.failIf_eq_ok_iff {c : Bool} {u : Unit} : failIf c = .ok u ↔ c = false := by
  rcases c <;> simp [failIf]

/-- `GetMinFee`. The base fee is `nMinRelayTxFee` for relaying, and `nMinTxFee` for sending. -/
def getMinFee (nMinRelayTxFee : Int64) (nBytes : ℕ) : Int64 :=
  let nMinFee := (1 + Int64.ofNat nBytes / 1000) * nMinRelayTxFee
  if !moneyRange nMinFee.toUInt64 then MAX_MONEY.toInt64 else nMinFee

/-- What admission reads at a chain tip, besides the pool. -/
structure Admission extends TipView where
  /-- `Hash`: double SHA-256. -/
  H : List UInt8 → UInt256
  /-- The key functions. -/
  keys : Keys
  /-- What `GetTransaction` finds on disk. -/
  onDisk : UInt256 → Bool
  /-- `CTransaction::nMinRelayTxFee`. -/
  nMinRelayTxFee : Int64

structure Submission where
  tx : Transaction
  fLimitFree : Bool
  fRejectInsaneFee : Bool
  /-- Whether `dFreeCount` is past its limit at the time of the call. -/
  rateLimited : Bool

namespace Admission

variable (env : Admission)

/-- `GetTransaction`, as admission asks it. -/
def known (pool : TxMemPool) (hash : UInt256) : Bool :=
  (pool.mapTx[hash]?).isSome || env.onDisk hash

/-- An output that would be a new account with less than the fee. -/
def cantCreate (nFees : Int64) (txout : TxOut) (info : ActInfo) : Bool :=
  info.balance == 0 && decide (txout.nValue < nFees.toUInt64)

/-- An input that is more than the account may spend. -/
def insufficient (txin : TxIn) (info : ActInfo) : Bool :=
  let balance := if info.limit < info.balance then info.limit else info.balance
  decide (txin.nValue > balance)

/-- A transaction that destroys coins other than by paying them to account zero. -/
def badDestroy (nValueOut : UInt64) (tx : Transaction) : Bool :=
  nValueOut == 0 && !tx.fSetLimit &&
    match tx.vout with
    | [] => false
    | [txout] => txout.pubKey != 0
    | _ => true

/-- The bound on set-limit transactions of an account. -/
def tooManyLimits (pool : TxMemPool) (tx : Transaction) : Exec Bool :=
  if tx.fSetLimit then
    match tx.vin with
    | [] => .error .outOfBounds
    | txin :: _ => .ok (decide (pool.numLimits txin.pubKey
        > (env.MIN_HISTORY / MIN_LIMIT_TIME).toInt64.toInt))
  else .ok false

/-- `AcceptToMemoryPool`: the pool after it, if it returns `true`. -/
def acceptToMemoryPool (pool : TxMemPool) (s : Submission) : Check TxMemPool := do
  checkTransaction env.root s.tx
  rejectIf s.tx.isCoinBase (.invalid 100 "coinbase")
  rejectIf (!isFinalTx env.MIN_HISTORY env.height s.tx (toInt32 (env.height + 5)))
    (.invalid 0 "final")
  let hash := s.tx.getTxID env.H
  rejectIf (env.known pool hash) ⟨0, .duplicate, "exists", false⟩
  let balances := (env.conservativeBalances pool 1 (s.tx.vin.map TxIn.pubKey)).2
  rejectIf ((s.tx.vin.zip balances).any fun (txin, info) ↦ insufficient txin info)
    ⟨0, .duplicate, "bad-txns-inputs-insufficient", false⟩
  let nValueIn ← call s.tx.getValueIn
  let nValueOut ← call s.tx.getValueOut
  let nFees := (nValueIn - nValueOut).toInt64
  let balances := (env.conservativeBalances pool 1 (s.tx.vout.map TxOut.pubKey)).2
  rejectIf ((s.tx.vout.zip balances).any fun (txout, info) ↦ cantCreate nFees txout info)
    ⟨0, .duplicate, "bad-txns-outputs-insufficient", false⟩
  rejectIf (nValueIn == 0) ⟨100, .insufficientFee, "no i/o", false⟩
  rejectIf (badDestroy nValueOut s.tx) ⟨100, .insufficientFee, "bad destroy", false⟩
  rejectIf (decide (nValueIn < nValueOut)) ⟨100, .insufficientFee, "neg fee", false⟩
  let bytes ← call s.tx.serialize
  rejectIf (decide (nFees < getMinFee env.nMinRelayTxFee bytes.length) && nValueOut != 0)
    ⟨0, .insufficientFee, "insufficient fee", false⟩
  rejectIf (s.fLimitFree && decide (nFees < env.nMinRelayTxFee) && s.rateLimited)
    ⟨0, .insufficientFee, "insufficient priority", false⟩
  failIf (s.fRejectInsaneFee && decide (nFees > env.nMinRelayTxFee * 10000))
  checkInputs env.keys env.H s.tx
  let tooMany ← call (env.tooManyLimits pool s.tx)
  failIf tooMany
  call (pool.addUnchecked env.H hash s.tx)

def submit (pool : TxMemPool) (s : Submission) : TxMemPool :=
  match env.acceptToMemoryPool pool s with
  | .ok pool' => pool'
  | .error _ => pool

def submitAll (pool : TxMemPool) (calls : List Submission) : TxMemPool :=
  calls.foldl env.submit pool

end Admission

/-! ## What is compared -/

namespace Admission

variable {env : Admission} {pool pool' : TxMemPool} {key : UInt160} {tx : Transaction}

/-- What `ConservativeBalances` says of an account. -/
def info (env : Admission) (pool : TxMemPool) (key : UInt160) : ActInfo :=
  match env.best with
  | none => .zero
  | some _ => env.accountInfo pool 1 1 [] key

def limitAt (env : Admission) (key : UInt160) : UInt64 :=
  match env.best, TrieEngine.find key env.root with
  | some _, some node => env.limitOf 1 node.data
  | _, _ => 0

theorem complexBalances_one (pool : TxMemPool) (hashes : List UInt160) :
    (env.complexBalances pool 1 1 hashes).2 = hashes.map (env.info pool) := by
  rw [TipView.complexBalances]
  rcases hbest : env.best with _ | phead
  · refine List.map_congr_left fun key _ ↦ ?_
    rw [info, hbest]
  · refine List.map_congr_left fun key _ ↦ ?_
    rw [info, hbest]
    rfl

/-- What the query says: nothing, or the balance less the withdrawals it counts, and the limit. -/
theorem info_cases (env : Admission) (pool : TxMemPool) (key : UInt160) :
    env.info pool key = .zero ∧ (env.limitAt key = 0 ∨
        balanceAt key env.root < UInt64.ofNat (env.withdrawn pool key)) ∨
      UInt64.ofNat (env.withdrawn pool key) ≤ balanceAt key env.root ∧
        (env.info pool key).balance
          = balanceAt key env.root - UInt64.ofNat (env.withdrawn pool key) ∧
        (env.info pool key).limit = env.limitAt key := by
  rw [info, limitAt, balanceAt]
  rcases env.best with _ | phead
  · exact .inl ⟨rfl, .inl rfl⟩
  · rcases @TipView.accountInfo_nil env.toTipView pool key 1 1 (by decide) (by decide) with
      ⟨hfind, hinfo⟩ | ⟨node, hfind, ⟨hlt, hinfo⟩ | ⟨hle, hbalance, hlimit⟩⟩
    · rw [hfind]
      exact .inl ⟨hinfo, .inl rfl⟩
    · rw [hfind]
      exact .inl ⟨hinfo, .inr hlt⟩
    · rw [hfind]
      exact .inr ⟨hle, hbalance, hlimit⟩

/-- The query never says more than there is. -/
theorem info_le (env : Admission) (pool : TxMemPool) (key : UInt160) :
    (env.info pool key).balance ≤ balanceAt key env.root ∧
      (env.info pool key).limit ≤ env.limitAt key := by
  rcases env.info_cases pool key with ⟨hinfo, -⟩ | ⟨hle, hbalance, hlimit⟩
  · rw [hinfo]
    exact ⟨UInt64.zero_le, UInt64.zero_le⟩
  · rw [hbalance, hlimit]
    exact ⟨UInt64.sub_le hle, UInt64.le_refl _⟩

theorem info_of_le (hle : env.withdrawn pool key ≤ (balanceAt key env.root).toNat) :
    (env.info pool key).balance.toNat + env.withdrawn pool key ≤ (balanceAt key env.root).toNat ∧
      (env.info pool key).limit = env.limitAt key := by
  have hfits : (UInt64.ofNat (env.withdrawn pool key)).toNat = env.withdrawn pool key :=
    UInt64.toNat_ofNat_of_lt' (hle.trans_lt (UInt64.toNat_lt _))
  rcases env.info_cases pool key with ⟨hinfo, hzero | hlt⟩ | ⟨hle', hbalance, hlimit⟩
  · rw [hinfo, hzero]
    exact ⟨by simpa [ActInfo.zero] using hle, rfl⟩
  · rw [UInt64.lt_iff_toNat_lt, hfits] at hlt
    omega
  · rw [hbalance, UInt64.toNat_sub_of_le _ _ hle', hfits]
    exact ⟨by omega, hlimit⟩

/-! ## What a call leaves -/

theorem counted_le (env : Admission) (key : UInt160) (tx : Transaction) :
    env.counted key tx ≤ tx.spent key := by
  rw [TipView.counted]
  split_ifs
  · exact le_rfl
  · exact Nat.zero_le _

theorem withdrawn_eq_total (hindexed : pool.Indexed env.H) (key : UInt160) :
    env.withdrawn pool key = TreeMap.total (env.counted key) pool.mapTx :=
  hindexed.sum_lookup fun tx hzero ↦ Nat.le_zero.mp (hzero ▸ env.counted_le key tx)

theorem insufficient_eq_false_iff {txin : TxIn} {info : ActInfo} :
    insufficient txin info = false ↔ txin.nValue ≤ info.balance ∧ txin.nValue ≤ info.limit := by
  rw [insufficient]
  simp only [decide_eq_false_iff_not, UInt64.not_lt]
  split_ifs with hlt
  · exact ⟨fun h ↦ ⟨UInt64.le_trans h (UInt64.le_of_lt hlt), h⟩, And.right⟩
  · exact ⟨fun h ↦ ⟨h, UInt64.le_trans h (UInt64.not_lt.mp hlt)⟩, And.left⟩

theorem acceptToMemoryPool_eq_ok {s : Submission} (h : env.acceptToMemoryPool pool s = .ok pool') :
    pool.mapTx[s.tx.getTxID env.H]? = none ∧
      (∀ key, s.tx.spent key ≤ (env.info pool key).balance.toNat ∧
        s.tx.spent key ≤ (env.info pool key).limit.toNat) ∧
      pool.addUnchecked env.H (s.tx.getTxID env.H) s.tx = .ok pool' := by
  simp only [acceptToMemoryPool, Except.bind_eq_ok_iff, rejectIf_eq_ok_iff, failIf_eq_ok_iff,
    call_eq_ok_iff, exists_const, TipView.conservativeBalances, complexBalances_one, List.map_map,
    ← List.map_prod_left_eq_zip, List.any_map, List.any_eq_false] at h
  obtain ⟨_, hcheck, -, -, hknown, hfunds, _, -, _, -, -, -, -, -, _, -, -, -, -, _, -, _, -, -,
    h⟩ := h
  have hwf := checkTransaction_eq_ok_iff.mp hcheck
  have hinputs : ∀ txin ∈ s.tx.vin, txin.nValue ≤ (env.info pool txin.pubKey).balance ∧
      txin.nValue ≤ (env.info pool txin.pubKey).limit := fun txin htxin ↦
    insufficient_eq_false_iff.mp (Bool.eq_false_of_not_eq_true (hfunds txin htxin))
  refine ⟨?_, fun key ↦ ⟨?_, ?_⟩, h⟩
  · rw [known, Bool.or_eq_false_iff] at hknown
    exact Option.isSome_eq_false_iff.mp hknown.1 |> Option.isNone_iff_eq_none.mp
  · refine Transaction.spent_le hwf.nodup_vin fun txin htxin hkey ↦ ?_
    rw [← hkey]
    exact UInt64.le_iff_toNat_le.mp (hinputs txin htxin).1
  · refine Transaction.spent_le hwf.nodup_vin fun txin htxin hkey ↦ ?_
    rw [← hkey]
    exact UInt64.le_iff_toNat_le.mp (hinputs txin htxin).2

/-- What holds of the pool after any sequence of calls. -/
structure Sound (env : Admission) (pool : TxMemPool) : Prop where
  indexed : pool.Indexed env.H
  /-- Every transaction is within the balance and the limit for itself. -/
  alone : ∀ {hash : UInt256} {tx : Transaction}, pool.mapTx[hash]? = some tx → ∀ key,
    tx.spent key ≤ min (balanceAt key env.root).toNat (env.limitAt key).toNat
  /-- What is final at the tip is within the balance together. -/
  joint : ∀ key, env.withdrawn pool key ≤ (balanceAt key env.root).toNat

theorem sound_empty : env.Sound .empty where
  indexed := TxMemPool.indexed_empty
  alone h := absurd h (by simp [TxMemPool.empty])
  joint key := by
    rw [withdrawn_eq_total TxMemPool.indexed_empty, TxMemPool.empty, TreeMap.total_empty]
    exact Nat.zero_le _

theorem Sound.accept (h : env.Sound pool) {s : Submission}
    (haccept : env.acceptToMemoryPool pool s = .ok pool') : env.Sound pool' := by
  obtain ⟨hnew, hspent, hadd⟩ := acceptToMemoryPool_eq_ok haccept
  have hmapTx := (TxMemPool.addUnchecked_eq_ok hadd).1
  have hindexed := h.indexed.addUnchecked rfl hnew hadd
  refine ⟨hindexed, fun {hash tx} hget key ↦ ?_, fun key ↦ ?_⟩
  · rw [hmapTx, ExtTreeMap.getElem?_insert] at hget
    split_ifs at hget with heq
    · cases hget
      have hle := env.info_le pool key
      rw [UInt64.le_iff_toNat_le, UInt64.le_iff_toNat_le] at hle
      exact le_min ((hspent key).1.trans hle.1) ((hspent key).2.trans hle.2)
    · exact h.alone hget key
  · -- if the transaction is final, what is left of the balance covers it
    have hrest := (info_of_le (h.joint key)).1
    have hnow := (env.counted_le key s.tx).trans (hspent key).1
    rw [withdrawn_eq_total hindexed, hmapTx, TreeMap.total_insert _ hnew,
      ← withdrawn_eq_total h.indexed]
    omega

theorem Sound.submitAll (h : env.Sound pool) (calls : List Submission) :
    env.Sound (env.submitAll pool calls) := by
  induction calls generalizing pool with
  | nil => exact h
  | cons s calls ih =>
    refine ih ?_
    rw [submit]
    split
    · next pool' haccept => exact h.accept haccept
    · exact h

theorem mem_calls_of_submitAll {hash : UInt256} {calls : List Submission}
    (h : (env.submitAll pool calls).mapTx[hash]? = some tx) :
    pool.mapTx[hash]? = some tx ∨ tx ∈ calls.map Submission.tx := by
  induction calls generalizing pool with
  | nil => exact .inl h
  | cons s calls ih =>
    rw [List.map_cons, List.mem_cons]
    rcases ih h with hget | hmem
    · rw [submit] at hget
      split at hget
      · next pool' haccept =>
        obtain ⟨-, -, hadd⟩ := acceptToMemoryPool_eq_ok haccept
        rw [(TxMemPool.addUnchecked_eq_ok hadd).1, ExtTreeMap.getElem?_insert] at hget
        split_ifs at hget
        · exact .inr (.inl (Option.some.inj hget).symm)
        · exact .inl hget
      · exact .inl hget
    · exact .inr (.inr hmem)

/-! ## The pool as a whole -/

/-- The submitted transactions that take from the account, and for themselves no more than its
balance and its limit. -/
def spenders (env : Admission) (calls : List Submission) (key : UInt160) : Finset Transaction :=
  {tx ∈ (calls.map Submission.tx).toFinset | 0 < tx.spent key ∧
    tx.spent key ≤ min (balanceAt key env.root).toNat (env.limitAt key).toNat}

/-- **Jointly spendable.** Take an account and a sequence of calls at a fixed tip, such that any of
the submitted transactions that take from the account are within its balance and its limit together,
if those of them that are final at the tip are within the balance. Then, from an empty pool, all
pooled transactions together take no more from it than its balance in the trie, and no more than the
limit `ComplexBalances` reports. -/
theorem jointly_spendable (env : Admission) (calls : List Submission) (key : UInt160)
    (h : ∀ txs ⊆ env.spenders calls key,
      ∑ tx ∈ txs, env.counted key tx ≤ (balanceAt key env.root).toNat →
      ∑ tx ∈ txs, tx.spent key ≤ min (balanceAt key env.root).toNat (env.limitAt key).toNat) :
    ∃ info, (env.complexBalances (env.submitAll .empty calls) 1 1 [key]).2 = [info] ∧
      (env.submitAll .empty calls).spent key
        ≤ min (balanceAt key env.root).toNat info.limit.toNat := by
  have hsound := (@sound_empty env).submitAll calls
  set pool := env.submitAll .empty calls with hpool
  have hget : ∀ {entry}, entry ∈ pool.mapTx.toList → pool.mapTx[entry.1]? = some entry.2 :=
    ExtTreeMap.mem_toList_iff_getElem?_eq_some.mp
  set txs := (pool.mapTx.toList.map Prod.snd).toFinset with htxs
  have hsum : ∀ f : Transaction → ℕ, (∀ tx, f tx ≤ tx.spent key) →
      ∑ tx ∈ txs with 0 < tx.spent key, f tx = TreeMap.total f pool.mapTx := by
    intro f hf
    rw [TreeMap.total_eq_sum f fun e₁ h₁ e₂ h₂ heq ↦ ?_, Finset.sum_filter_of_ne fun tx _ hne ↦ ?_]
    · exact (Nat.pos_of_ne_zero hne).trans_le (hf tx)
    · refine Prod.ext ?_ heq
      rw [← hsound.indexed.txid (hget h₁), heq, hsound.indexed.txid (hget h₂)]
  have hsub : (txs.filter fun tx ↦ 0 < tx.spent key) ⊆ env.spenders calls key := by
    intro tx htx
    obtain ⟨hmem, hpos⟩ := Finset.mem_filter.mp htx
    obtain ⟨entry, hentry, rfl⟩ := List.mem_map.mp (List.mem_toFinset.mp hmem)
    have hcalled := (mem_calls_of_submitAll (hget hentry)).resolve_left (by simp [TxMemPool.empty])
    exact Finset.mem_filter.mpr ⟨List.mem_toFinset.mpr hcalled, hpos,
      hsound.alone (hget hentry) key⟩
  have hle := h _ hsub
  rw [hsum _ (env.counted_le key), hsum _ fun _ ↦ le_rfl,
    ← withdrawn_eq_total hsound.indexed] at hle
  refine ⟨env.info pool key, complexBalances_one _ _, ?_⟩
  rw [(info_of_le (hsound.joint key)).2]
  exact hle (hsound.joint key)

end Admission

/-! ### Two payments of one account -/

/-- A node at height 100 where the account `1` has `100000` and a limit. -/
def nodeWithLimit (limit : UInt64) : Admission where
  root := some (Leaf.new 1 ⟨0, 100000, limit, limit⟩).toNode
  best := some 0
  pprev _ := none
  readBlock _ := none
  height := 100
  MIN_HISTORY := minHistory false
  isFromMe _ := false
  H := Sha256.sha256d
  keys := ⟨fun _ _ ↦ some 1, fun _ ↦ 0⟩
  onDisk _ := false
  nMinRelayTxFee := 1000

/-- A payment of the account `1` to a new account, with the usual fee. -/
def sending (nValue nLockHeight : UInt64) : Submission where
  tx := { nVersion := 1, vin := [⟨nValue, 1, 1 :: List.replicate 65 0⟩]
          vout := [⟨nValue - 1000, 2⟩], msg := [], nLockHeight, nLimitValue := 0
          fSetLimit := false }
  fLimitFree := true
  fRejectInsaneFee := true
  rateLimited := false

def poolAfter (limit : UInt64) (payments : List Submission) : TxMemPool :=
  (nodeWithLimit limit).submitAll .empty payments

set_option maxRecDepth 20000 in
/-- Two payments that are final and within a limit that does not matter. -/
theorem jointly_spendable_two :
    (poolAfter 100000 [sending 40000 100, sending 50000 99]).spent 1 = 90000 ∧
    ∃ info, ((nodeWithLimit 100000).complexBalances
        (poolAfter 100000 [sending 40000 100, sending 50000 99]) 1 1 [1]).2 = [info] ∧
      (poolAfter 100000 [sending 40000 100, sending 50000 99]).spent 1
        ≤ min (balanceAt 1 (nodeWithLimit 100000).root).toNat info.limit.toNat := by
  refine ⟨by decide +kernel, Admission.jointly_spendable _ _ _ fun txs hsub hle ↦ ?_⟩
  have hfinal : ∀ tx ∈ (nodeWithLimit 100000).spenders [sending 40000 100, sending 50000 99] 1,
      (nodeWithLimit 100000).counted 1 tx = tx.spent 1 := by decide +kernel
  rw [Finset.sum_congr rfl fun tx htx ↦ hfinal tx (hsub htx)] at hle
  exact hle

set_option maxRecDepth 20000 in
/-- Two payments that are within the limit one by one are past it together. And two payments that
are not final at the tip do not count for each other: they take more than the account has. -/
theorem pool_overcommitted :
    ((poolAfter 60000 [sending 50000 100, sending 50000 99]).spent 1 = 100000 ∧
      ((nodeWithLimit 60000).complexBalances
        (poolAfter 60000 [sending 50000 100, sending 50000 99]) 1 1 [1]).2.map ActInfo.limit
          = [60000]) ∧
    (poolAfter 100000 [sending 80000 105, sending 80000 104]).spent 1 = 160000 ∧
      balanceAt 1 (nodeWithLimit 100000).root = 100000 := by
  decide +kernel

end Cryptonite
