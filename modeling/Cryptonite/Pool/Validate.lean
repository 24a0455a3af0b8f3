import Cryptonite.Pool.Accept
import Cryptonite.Pool.Allowance

/-!
# Validating the pool

`CTxMemPool::validate`, which `ActivateBestChain` calls when the tip has moved. It goes through the
pool in the order of the IDs, writes to `removed` every transaction that has expired, is in a block,
makes an account with less than its fee or takes more than what is left of an account, and then
removes these.

A transaction that is dropped for its last input has taken what its other inputs ask for, and does
not give it back. So what is kept may be less than there is room for. It is never more
(`Examined.sum_spent`): the loop keeps what the transactions take and what is left of an account
within what there was.
-/

namespace Cryptonite

open Std Allowance

/-- What `validate` reads besides the pool. -/
structure PoolTip where
  /-- The trie of `pviewTip`. -/
  root : Option TrieNode
  /-- `chainActive.Height()`. -/
  height : ℤ
  /-- `MIN_HISTORY`. -/
  MIN_HISTORY : UInt64
  /-- `TxExists`. -/
  txExists : UInt256 → Bool

namespace PoolTip

variable (tip : PoolTip) (H : List UInt8 → UInt256)

/-- What an account that is not in `mapBalances` has. -/
def allotment (key : UInt160) : Option UInt64 :=
  allotmentAt tip.root (UInt64.ofInt tip.height) key

/-- Not `IsFinalTx`. The height is taken a little ahead. -/
def expired (tx : Transaction) : Bool :=
  !isFinalTx tip.MIN_HISTORY tip.height tx (toInt32 (tip.height + 5))

/-- `fMissingOutputs`: an output would be a new account with less than the fee. -/
def missingOutputs (tx : Transaction) : List TxOut → Exec Bool
  | [] => .ok false
  | txout :: vout =>
    if (TrieEngine.find txout.pubKey tip.root).isSome then missingOutputs tx vout
    else do
      let fee ← tx.getFee
      let fMissingOutputs ← missingOutputs tx vout
      .ok (decide (txout.nValue < fee) || fMissingOutputs)

/-- The loop over the pool: what it appends to `removed`. -/
def examine : List Transaction → BalanceMap → Exec (List Transaction)
  | [], _ => .ok []
  | tx :: txs, mapBalances =>
    if tx.isCoinBase then examine txs mapBalances
    else if tip.expired tx then do
      let removed ← examine txs mapBalances
      .ok (tx :: removed)
    else
      match takeInputs tip.allotment tx.vin mapBalances with
      | (found, mapBalances) => do
        let fMissingOutputs ← tip.missingOutputs tx tx.vout
        let removed ← examine txs mapBalances
        if !found || fMissingOutputs || tip.txExists (tx.getTxID H) then .ok (tx :: removed)
        else .ok removed

/-- `CTxMemPool::validate`: the pool and `removed` after it. -/
def validate (pool : TxMemPool) (removed : List Transaction) :
    Exec (TxMemPool × List Transaction) := do
  let found ← tip.examine H (pool.mapTx.toList.map Prod.snd) fun _ ↦ none
  let removed := removed ++ found
  let pool ← removed.foldlM (TxMemPool.remove H) pool
  .ok (pool, removed)

/-! ## The loop -/

variable {tip H}

theorem missingOutputs_eq_ok {tx : Transaction} {fMissingOutputs : Bool} :
    ∀ {vout : List TxOut}, tip.missingOutputs tx vout = .ok fMissingOutputs →
      fMissingOutputs = false → ∀ txout ∈ vout, TrieEngine.find txout.pubKey tip.root = none →
        ∃ fee, tx.getFee = .ok fee ∧ fee ≤ txout.nValue := by
  intro vout
  induction vout generalizing fMissingOutputs with
  | nil => simp
  | cons txout vout ih =>
    intro h hfalse
    rw [missingOutputs] at h
    rw [List.forall_mem_cons]
    split_ifs at h with hfind
    · exact ⟨fun hnone ↦ absurd hfind (by simp [hnone]), ih h hfalse⟩
    · obtain ⟨fee, hfee, h⟩ := Except.bind_eq_ok_iff.mp h
      obtain ⟨fRest, hrest, h⟩ := Except.bind_eq_ok_iff.mp h
      have hor := (Except.ok.inj h).trans hfalse
      rw [Bool.or_eq_false_iff, decide_eq_false_iff_not, UInt64.not_lt] at hor
      exact ⟨fun _ ↦ ⟨fee, hfee, hor.1⟩, ih hrest hor.2⟩

theorem exists_missingOutputs {tx : Transaction} {fee : UInt64} (hfee : tx.getFee = .ok fee) :
    ∀ vout : List TxOut, ∃ fMissingOutputs, tip.missingOutputs tx vout = .ok fMissingOutputs := by
  intro vout
  induction vout with
  | nil => exact ⟨false, rfl⟩
  | cons txout vout ih =>
    obtain ⟨fRest, hrest⟩ := ih
    rw [missingOutputs]
    split
    · exact ⟨fRest, hrest⟩
    · exact ⟨decide (txout.nValue < fee) || fRest, by rw [hfee, hrest]; rfl⟩

/-- What is dropped comes from the pool, in order. -/
theorem sublist_of_examine : ∀ {txs : List Transaction} {mapBalances : BalanceMap}
    {removed : List Transaction}, tip.examine H txs mapBalances = .ok removed →
    removed.Sublist txs := by
  intro txs
  induction txs with
  | nil =>
    intro mapBalances removed h
    cases h
    exact List.Sublist.slnil
  | cons tx txs ih =>
    intro mapBalances removed h
    rw [examine] at h
    split at h
    · exact (ih h).cons _
    · split at h
      · obtain ⟨rest, hrest, h⟩ := Except.bind_eq_ok_iff.mp h
        cases h
        exact (ih hrest).cons_cons _
      · obtain ⟨fMissingOutputs, -, h⟩ := Except.bind_eq_ok_iff.mp h
        obtain ⟨rest, hrest, h⟩ := Except.bind_eq_ok_iff.mp h
        split at h
        · cases h
          exact (ih hrest).cons_cons _
        · cases h
          exact (ih hrest).cons _

/-- A transaction the loop has nothing against. -/
structure Sound (tip : PoolTip) (H : List UInt8 → UInt256) (tx : Transaction) : Prop where
  final : isFinalTx tip.MIN_HISTORY tip.height tx (toInt32 (tip.height + 5)) = true
  txExists : tip.txExists (tx.getTxID H) = false
  pays : ∀ txout ∈ tx.vout, TrieEngine.find txout.pubKey tip.root = none →
    ∃ fee, tx.getFee = .ok fee ∧ fee ≤ txout.nValue

/-- What the loop leaves: the transactions are divided in two, and those that are kept take no more
from an account than there is. -/
structure Examined (tip : PoolTip) (H : List UInt8 → UInt256) (txs : List Transaction)
    (mapBalances : BalanceMap) (removed kept : List Transaction) : Prop where
  mem_or_mem : ∀ tx ∈ txs, tx ∈ removed ∨ tx ∈ kept
  sound : ∀ tx ∈ kept, tip.Sound H tx
  sum_spent : ∀ key, (kept.map (Transaction.spent key)).sum ≤ left tip.allotment mapBalances key

variable {tx : Transaction} {txs removed kept : List Transaction}
  {mapBalances mapBalances' : BalanceMap}

theorem Examined.drop (h : tip.Examined H txs mapBalances' removed kept)
    (hle : ∀ key, left tip.allotment mapBalances' key ≤ left tip.allotment mapBalances key) :
    tip.Examined H (tx :: txs) mapBalances (tx :: removed) kept where
  mem_or_mem := List.forall_mem_cons.mpr ⟨.inl List.mem_cons_self, fun tx' hmem ↦
    (h.mem_or_mem tx' hmem).imp_left (List.mem_cons_of_mem _)⟩
  sound := h.sound
  sum_spent key := (h.sum_spent key).trans (hle key)

theorem Examined.keep (h : tip.Examined H txs mapBalances' removed kept) (hsound : tip.Sound H tx)
    (hle : ∀ key, tx.spent key + left tip.allotment mapBalances' key
      ≤ left tip.allotment mapBalances key) :
    tip.Examined H (tx :: txs) mapBalances removed (tx :: kept) where
  mem_or_mem := List.forall_mem_cons.mpr ⟨.inr List.mem_cons_self, fun tx' hmem ↦
    (h.mem_or_mem tx' hmem).imp_right (List.mem_cons_of_mem _)⟩
  sound := List.forall_mem_cons.mpr ⟨hsound, h.sound⟩
  sum_spent key := by
    rw [List.map_cons, List.sum_cons]
    exact (Nat.add_le_add_left (h.sum_spent key) _).trans (hle key)

theorem exists_examined : ∀ {txs : List Transaction} {mapBalances : BalanceMap}
    {removed : List Transaction}, (∀ tx ∈ txs, tx.isCoinBase = false) →
    tip.examine H txs mapBalances = .ok removed → Backed tip.allotment mapBalances →
    ∃ kept, tip.Examined H txs mapBalances removed kept := by
  intro txs
  induction txs with
  | nil =>
    intro mapBalances removed _ h _
    cases h
    exact ⟨[], by simp, by simp, by simp⟩
  | cons tx txs ih =>
    intro mapBalances removed hcb h hbacked
    rw [List.forall_mem_cons] at hcb
    rw [examine, if_neg (by simp [hcb.1])] at h
    split at h
    · obtain ⟨rest, hrest, h⟩ := Except.bind_eq_ok_iff.mp h
      cases h
      obtain ⟨kept, hkept⟩ := ih hcb.2 hrest hbacked
      exact ⟨kept, hkept.drop fun _ ↦ le_rfl⟩
    · next hexpired =>
      rcases htake : takeInputs tip.allotment tx.vin mapBalances with ⟨found, mapBalances'⟩
      obtain ⟨hbacked', -, hleft⟩ := takeInputs_eq htake hbacked
      rw [htake] at h
      obtain ⟨fMissingOutputs, houtputs, h⟩ := Except.bind_eq_ok_iff.mp h
      obtain ⟨rest, hrest, h⟩ := Except.bind_eq_ok_iff.mp h
      obtain ⟨kept, hkept⟩ := ih hcb.2 hrest hbacked'
      split at h
      · cases h
        exact ⟨kept, hkept.drop fun key ↦ (Nat.le_add_left _ _).trans (hleft key)⟩
      · next hok =>
        cases h
        simp only [Bool.or_eq_true, Bool.not_eq_true', not_or, Bool.not_eq_false,
          Bool.not_eq_true] at hok
        obtain ⟨⟨hfound, hmissing⟩, hexists⟩ := hok
        have hfinal :
            isFinalTx tip.MIN_HISTORY tip.height tx (toInt32 (tip.height + 5)) = true := by
          simpa [expired] using hexpired
        refine ⟨tx :: kept, hkept.keep ⟨hfinal, hexists, missingOutputs_eq_ok houtputs hmissing⟩ ?_⟩
        intro key
        have hkey := hleft key
        rwa [if_pos hfound] at hkey

theorem exists_examine : ∀ {txs : List Transaction} {mapBalances : BalanceMap},
    (∀ tx ∈ txs, ∃ fee, tx.getFee = .ok fee) →
    ∃ removed, tip.examine H txs mapBalances = .ok removed := by
  intro txs
  induction txs with
  | nil => exact fun _ ↦ ⟨[], rfl⟩
  | cons tx txs ih =>
    intro mapBalances hfees
    rw [List.forall_mem_cons] at hfees
    rw [examine]
    split
    · exact ih hfees.2
    · split
      · obtain ⟨rest, hrest⟩ := @ih mapBalances hfees.2
        exact ⟨tx :: rest, by rw [hrest]; rfl⟩
      · rcases takeInputs tip.allotment tx.vin mapBalances with ⟨found, mapBalances'⟩
        obtain ⟨fee, hfee⟩ := hfees.1
        obtain ⟨fMissingOutputs, houtputs⟩ := @exists_missingOutputs tip tx fee hfee tx.vout
        obtain ⟨rest, hrest⟩ := @ih mapBalances' hfees.2
        dsimp only
        rw [houtputs, Except.bind_of_eq_ok rfl, hrest, Except.bind_of_eq_ok rfl]
        split <;> exact ⟨_, rfl⟩

end PoolTip

/-! ## What is removed -/

namespace TxMemPool

variable {H : List UInt8 → UInt256}

theorem getElem?_foldlM_remove : ∀ {removed : List Transaction} {pool pool' : TxMemPool},
    removed.foldlM (remove H) pool = .ok pool' → ∀ hash,
    pool'.mapTx[hash]?
      = if hash ∈ removed.map (Transaction.getTxID H) then none else pool.mapTx[hash]? := by
  intro removed
  induction removed with
  | nil =>
    intro pool pool' h hash
    cases h
    simp
  | cons tx removed ih =>
    intro pool pool' h hash
    rw [List.foldlM_cons] at h
    obtain ⟨pool₁, hfirst, h⟩ := Except.bind_eq_ok_iff.mp h
    rw [ih h, (remove_eq_ok hfirst).1, ExtTreeMap.getElem?_erase, List.map_cons]
    by_cases heq : tx.getTxID H = hash
    · simp [heq]
    · rw [if_neg (mt LawfulEqCmp.eq_of_compare heq)]
      simp only [List.mem_cons, Ne.symm heq, false_or]

theorem exists_foldlM_remove : ∀ {removed : List Transaction} {pool : TxMemPool},
    (∀ tx ∈ removed, tx.fSetLimit = true → tx.vin ≠ []) →
    ∃ pool', removed.foldlM (remove H) pool = .ok pool' := by
  intro removed
  induction removed with
  | nil => exact fun {pool} _ ↦ ⟨pool, rfl⟩
  | cons tx removed ih =>
    intro pool hvin
    rw [List.forall_mem_cons] at hvin
    obtain ⟨pool₁, hfirst⟩ := @exists_remove H tx hvin.1 pool
    obtain ⟨pool', hrest⟩ := @ih pool₁ hvin.2
    exact ⟨pool', by rw [List.foldlM_cons, hfirst]; exact hrest⟩

end TxMemPool

/-! ## The pool afterwards -/

/-- The transactions of the pool are stored by their IDs, and none is a coinbase. -/
structure TxMemPool.Stored (H : List UInt8 → UInt256) (pool : TxMemPool) : Prop where
  txid : ∀ {hash : UInt256} {tx : Transaction}, pool.mapTx[hash]? = some tx →
    tx.getTxID H = hash
  not_isCoinBase : ∀ {hash : UInt256} {tx : Transaction}, pool.mapTx[hash]? = some tx →
    tx.isCoinBase = false

/-- What is true of the pool after `validate`. -/
structure PoolTip.Validated (tip : PoolTip) (H : List UInt8 → UInt256) (pool pool' : TxMemPool)
    (removed : List Transaction) : Prop where
  remains : ∀ {hash : UInt256} {tx : Transaction}, pool'.mapTx[hash]? = some tx →
    pool.mapTx[hash]? = some tx
  sound : ∀ {hash : UInt256} {tx : Transaction}, pool'.mapTx[hash]? = some tx → tip.Sound H tx
  spent_le : ∀ key, pool'.spent key ≤ min (balanceAt key tip.root).toNat
    ((limitAt key (UInt64.ofInt tip.height) tip.root).getD 0).toNat
  reported : ∀ {hash : UInt256} {tx : Transaction}, pool.mapTx[hash]? = some tx →
    pool'.mapTx[hash]? = none → tx ∈ removed

theorem left_allotmentAt_le (root : Option TrieNode) (height : UInt64) (key : UInt160) :
    left (allotmentAt root height) (fun _ ↦ none) key
      ≤ min (balanceAt key root).toNat ((limitAt key height root).getD 0).toNat := by
  rw [left, funds, Option.none_or, allotmentAt, balanceAt]
  rcases TrieEngine.find key root with _ | node
  · exact Nat.zero_le _
  · obtain ⟨hbalance, hlimit⟩ := capped_le node.data.balance ((limitAt key height root).getD 0)
    exact le_min (UInt64.le_iff_toNat_le.mp hbalance) (UInt64.le_iff_toNat_le.mp hlimit)

theorem TxMemPool.mem_map_toList {pool : TxMemPool} {tx : Transaction} :
    tx ∈ pool.mapTx.toList.map Prod.snd ↔ ∃ hash : UInt256, pool.mapTx[hash]? = some tx := by
  rw [List.mem_map]
  constructor
  · rintro ⟨⟨hash, tx'⟩, hmem, rfl⟩
    exact ⟨hash, ExtTreeMap.mem_toList_iff_getElem?_eq_some.mp hmem⟩
  · rintro ⟨hash, hget⟩
    exact ⟨(hash, tx), ExtTreeMap.mem_toList_iff_getElem?_eq_some.mpr hget, rfl⟩

theorem TxMemPool.nodup_map_toList {H : List UInt8 → UInt256} {pool : TxMemPool}
    (htxid : ∀ {hash : UInt256} {tx : Transaction}, pool.mapTx[hash]? = some tx →
      tx.getTxID H = hash) : (pool.mapTx.toList.map Prod.snd).Nodup := by
  refine List.Nodup.map_on ?_ (TreeMap.nodup_toList _)
  rintro ⟨hash, tx⟩ hmem ⟨hash', tx'⟩ hmem' rfl
  rw [ExtTreeMap.mem_toList_iff_getElem?_eq_some] at hmem hmem'
  rw [← htxid hmem, ← htxid hmem']

section Validate

variable {tip : PoolTip} {H : List UInt8 → UInt256} {pool pool' : TxMemPool}
  {removed : List Transaction}

theorem PoolTip.exists_examined_pool (hpool : pool.Stored H)
    (h : tip.examine H (pool.mapTx.toList.map Prod.snd) (fun _ ↦ none) = .ok removed) :
    ∃ kept, tip.Examined H (pool.mapTx.toList.map Prod.snd) (fun _ ↦ none) removed kept := by
  refine exists_examined (fun tx hmem ↦ ?_) h backed_none
  obtain ⟨hash, hget⟩ := TxMemPool.mem_map_toList.mp hmem
  exact hpool.not_isCoinBase hget

theorem PoolTip.Examined.mem_kept {kept : List Transaction} (hpool : pool.Stored H)
    (h : tip.Examined H (pool.mapTx.toList.map Prod.snd) (fun _ ↦ none) removed kept)
    (hremove : removed.foldlM (TxMemPool.remove H) pool = .ok pool') {hash : UInt256}
    {tx : Transaction} (hthere : pool'.mapTx[hash]? = some tx) :
    pool.mapTx[hash]? = some tx ∧ tx ∈ kept := by
  rw [TxMemPool.getElem?_foldlM_remove hremove] at hthere
  split_ifs at hthere with hmem
  refine ⟨hthere, ?_⟩
  rcases h.mem_or_mem tx (TxMemPool.mem_map_toList.mpr ⟨hash, hthere⟩) with hout | hin
  · rw [← hpool.txid hthere] at hmem
    exact absurd (List.mem_map_of_mem hout) hmem
  · exact hin

theorem PoolTip.validated (hpool : pool.Stored H)
    (h : tip.validate H pool [] = .ok (pool', removed)) : tip.Validated H pool pool' removed := by
  obtain ⟨found, hexamine, h⟩ := Except.bind_eq_ok_iff.mp h
  obtain ⟨pool₁, hremove, h⟩ := Except.bind_eq_ok_iff.mp h
  obtain ⟨rfl, rfl⟩ := Prod.mk.inj (Except.ok.inj h)
  rw [List.nil_append] at hremove ⊢
  obtain ⟨kept, hkept⟩ := exists_examined_pool hpool hexamine
  have hremains : ∀ {hash : UInt256} {tx : Transaction}, pool₁.mapTx[hash]? = some tx →
      pool.mapTx[hash]? = some tx ∧ tx ∈ kept := hkept.mem_kept hpool hremove
  refine ⟨fun hthere ↦ (hremains hthere).1, fun hthere ↦ hkept.sound _ (hremains hthere).2,
    fun key ↦ ?_, fun {hash tx} hthere hgone ↦ ?_⟩
  · have hsubperm : (pool₁.mapTx.toList.map Prod.snd).Subperm kept := by
      refine List.Nodup.subperm (TxMemPool.nodup_map_toList fun hthere ↦
        hpool.txid (hremains hthere).1) fun tx hmem ↦ ?_
      obtain ⟨hash, hthere⟩ := TxMemPool.mem_map_toList.mp hmem
      exact (hremains hthere).2
    obtain ⟨order, hperm, hsub⟩ := hsubperm
    calc pool₁.spent key
        = ((pool₁.mapTx.toList.map Prod.snd).map (Transaction.spent key)).sum := by
          rw [TxMemPool.spent, TreeMap.total, List.map_map]
          rfl
      _ = (order.map (Transaction.spent key)).sum := (hperm.map _).sum_eq.symm
      _ ≤ (kept.map (Transaction.spent key)).sum :=
          (hsub.map _).sum_le_sum fun _ _ ↦ Nat.zero_le _
      _ ≤ left tip.allotment (fun _ ↦ none) key := hkept.sum_spent key
      _ ≤ _ := left_allotmentAt_le _ _ _
  · rw [TxMemPool.getElem?_foldlM_remove hremove] at hgone
    split_ifs at hgone with hmem
    · obtain ⟨tx', hmem', hid⟩ := List.mem_map.mp hmem
      obtain ⟨hash', hthere'⟩ := TxMemPool.mem_map_toList.mp
        ((sublist_of_examine hexamine).subset hmem')
      rw [← hid, hpool.txid hthere', hthere'] at hthere
      rwa [← Option.some.inj hthere]
    · exact absurd (hthere.symm.trans hgone) (by simp)

theorem PoolTip.exists_validate
    (hfees : ∀ {hash : UInt256} {tx : Transaction}, pool.mapTx[hash]? = some tx →
      (∃ fee, tx.getFee = .ok fee) ∧ (tx.fSetLimit = true → tx.vin ≠ [])) :
    ∃ pool' removed, tip.validate H pool [] = .ok (pool', removed) := by
  have htxs : ∀ tx ∈ pool.mapTx.toList.map Prod.snd,
      (∃ fee, tx.getFee = .ok fee) ∧ (tx.fSetLimit = true → tx.vin ≠ []) := by
    intro tx hmem
    obtain ⟨hash, hget⟩ := TxMemPool.mem_map_toList.mp hmem
    exact hfees hget
  obtain ⟨found, hexamine⟩ := @exists_examine tip H _ (fun _ ↦ none) fun tx hmem ↦
    (htxs tx hmem).1
  obtain ⟨pool', hremove⟩ := @TxMemPool.exists_foldlM_remove H found pool fun tx hmem ↦
    (htxs tx ((sublist_of_examine hexamine).subset hmem)).2
  refine ⟨pool', found, ?_⟩
  rw [validate, hexamine, Except.bind_of_eq_ok rfl, List.nil_append]
  dsimp only
  rw [hremove]
  rfl

/-- **Validation.** After `validate` the transactions in the pool are final, in no block, pay for
the accounts they make and together take no more from an account than its balance and its limit,
and those that are gone are in `removed`. It returns if the fees can be computed. -/
theorem PoolTip.validate_spec (tip : PoolTip) (hpool : pool.Stored H) :
    (∀ pool' removed, tip.validate H pool [] = .ok (pool', removed) →
      tip.Validated H pool pool' removed) ∧
    ((∀ (hash : UInt256) (tx : Transaction), pool.mapTx[hash]? = some tx →
        (∃ fee, tx.getFee = .ok fee) ∧ (tx.fSetLimit = true → tx.vin ≠ [])) →
      ∃ pool' removed, tip.validate H pool [] = .ok (pool', removed)) :=
  ⟨fun _ _ h ↦ validated hpool h, fun hfees ↦ exists_validate fun h ↦ hfees _ _ h⟩

end Validate

/-- The tip of a node where the account `1` has `100000` and a limit. -/
def tipWithLimit (limit : UInt64) : PoolTip where
  root := (nodeWithLimit limit).root
  height := (nodeWithLimit limit).height
  MIN_HISTORY := (nodeWithLimit limit).MIN_HISTORY
  txExists := (nodeWithLimit limit).onDisk

set_option maxRecDepth 20000 in
/-- Of two payments that are past the limit together, one has to go. -/
theorem validate_spec_two : ∃ pool' removed, (tipWithLimit 60000).validate Sha256.sha256d
      (poolAfter 60000 [sending 50000 100, sending 50000 99]) [] = .ok (pool', removed) ∧
    removed.length = 1 ∧ pool'.spent 1 ≤ 60000 := by
  have hentries : ∀ entry ∈ (poolAfter 60000 [sending 50000 100, sending 50000 99]).mapTx.toList,
      entry.2.getTxID Sha256.sha256d = entry.1 ∧ entry.2.isCoinBase = false ∧
        entry.2.getFee = .ok 1000 ∧ entry.2.fSetLimit = false := by
    decide +kernel
  have hpool : (poolAfter 60000 [sending 50000 100, sending 50000 99]).Stored Sha256.sha256d :=
    ⟨fun hget ↦ (hentries _ (ExtTreeMap.mem_toList_iff_getElem?_eq_some.mpr hget)).1,
      fun hget ↦ (hentries _ (ExtTreeMap.mem_toList_iff_getElem?_eq_some.mpr hget)).2.1⟩
  obtain ⟨hspec, hexists⟩ := (tipWithLimit 60000).validate_spec hpool
  obtain ⟨pool', removed, hvalidate⟩ := hexists fun hash tx hget ↦ by
    have hentry := hentries _ (ExtTreeMap.mem_toList_iff_getElem?_eq_some.mpr hget)
    exact ⟨⟨_, hentry.2.2.1⟩, fun hset ↦ absurd (hset.symm.trans hentry.2.2.2) (by simp)⟩
  have hone : ((tipWithLimit 60000).validate Sha256.sha256d
      (poolAfter 60000 [sending 50000 100, sending 50000 99]) []).map (fun r ↦ r.2.length)
        = .ok 1 := by
    decide +kernel
  rw [hvalidate] at hone
  refine ⟨pool', removed, hvalidate, Except.ok.inj hone, ?_⟩
  exact ((hspec pool' removed hvalidate).spent_le 1).trans (min_le_right _ _)

end Cryptonite
