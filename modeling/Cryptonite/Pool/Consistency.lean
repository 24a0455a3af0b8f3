import Cryptonite.Pool.Validate

/-!
# The maps of the pool

`CTxMemPool` keeps three maps, and four operations change them. The transactions of an account can
be read off `mapAccount`, and how many of them set its limit off `mapLimits`: these are what balance
queries and the admission of set-limit transactions go by.

The index is right as long as the IDs tell the accounts of a transaction. The counters are not:
`addUnchecked` counts a transaction that is there already, `remove` counts down for a transaction of
the account that is not there, and `clear` leaves them as they are. `PoolOp.Careful` says for each
operation what has to be true of the pool for the maps to fit together afterwards, and
`consistent_iff` that this is exactly what it takes along a run.
-/

namespace Cryptonite

open Std

/-! ## What the maps should say -/

namespace TxMemPool

/-- One if the transaction sets the limit of the account, and zero otherwise. -/
def limitOne (key : UInt160) (tx : Transaction) : ℕ := if tx.limitKeys.contains key then 1 else 0

/-- How many transactions of the pool set the limit of an account. -/
def limits (pool : TxMemPool) (key : UInt160) : ℕ := TreeMap.total (limitOne key) pool.mapTx

structure Consistent (H : List UInt8 → UInt256) (pool : TxMemPool) : Prop
    extends pool.Indexed H where
  numLimits_eq : ∀ key, pool.numLimits key = pool.limits key

/-- A counter that is stored is not zero. -/
def Counting (pool : TxMemPool) : Prop :=
  ∀ (key : UInt160) (n : ℤ), pool.mapLimits[key]? = some n → 0 < n

variable {H : List UInt8 → UInt256} {pool pool' : TxMemPool} {hash : UInt256} {tx : Transaction}
  {key : UInt160}

theorem mem_limitKeys_iff {txin : TxIn} {vin : List TxIn} (hset : tx.fSetLimit = true)
    (hvin : tx.vin = txin :: vin) : key ∈ tx.limitKeys ↔ key = txin.pubKey := by
  rw [Transaction.limitKeys, if_pos hset, hvin]
  simp

theorem limitOne_eq (key : UInt160) (tx : Transaction) :
    limitOne key tx = if key ∈ tx.limitKeys then 1 else 0 :=
  if_congr List.contains_iff_mem rfl rfl

theorem limitKeys_eq_nil (hset : tx.fSetLimit = false) : tx.limitKeys = [] := by
  rw [Transaction.limitKeys, if_neg (by simp [hset])]

/-! ## The counters -/

theorem numLimits_addUnchecked (h : addUnchecked H pool hash tx = .ok pool') (key : UInt160) :
    pool'.numLimits key = pool.numLimits key + limitOne key tx := by
  rw [addUnchecked] at h
  rw [limitOne_eq]
  dsimp only at h
  split at h
  · next hset =>
    split at h
    · cases h
    · next txin vin hvin =>
      cases h
      rw [numLimits]
      dsimp only
      rw [ExtTreeMap.getElem?_insert]
      by_cases hkey : key = txin.pubKey
      · rw [hkey, if_pos ReflCmp.compare_self, Option.getD_some,
          if_pos ((mem_limitKeys_iff hset hvin).mpr rfl)]
        rfl
      · rw [if_neg (mt LawfulEqCmp.eq_of_compare (Ne.symm hkey)),
          if_neg (mt (mem_limitKeys_iff hset hvin).mp hkey)]
        exact (Int.add_zero _).symm
  · next hset =>
    cases h
    rw [limitKeys_eq_nil (Bool.not_eq_true _ ▸ hset), if_neg List.not_mem_nil]
    exact (Int.add_zero _).symm

theorem getElem?_countDown (m : ExtTreeMap UInt160 ℤ) (k key : UInt160) (limit : ℤ) :
    (if limit = 1 then m.erase k else m.insert k (limit - 1))[key]?
      = if k = key then (if limit = 1 then none else some (limit - 1)) else m[key]? := by
  by_cases hkey : k = key
  · subst hkey
    rw [if_pos rfl]
    split
    · exact ExtTreeMap.getElem?_erase_self
    · exact ExtTreeMap.getElem?_insert_self
  · have hne : ¬compare k key = .eq := mt LawfulEqCmp.eq_of_compare hkey
    rw [if_neg hkey]
    split
    · rw [ExtTreeMap.getElem?_erase, if_neg hne]
    · rw [ExtTreeMap.getElem?_insert, if_neg hne]

theorem mapLimits_remove (h : remove H pool tx = .ok pool') :
    tx.limitKeys = [] ∧ pool'.mapLimits = pool.mapLimits ∨
    ∃ key, tx.limitKeys = [key] ∧
      (pool.mapLimits[key]? = none ∧ pool'.mapLimits = pool.mapLimits ∨
      ∃ limit, pool.mapLimits[key]? = some limit ∧ pool'.mapLimits
        = if limit = 1 then pool.mapLimits.erase key
          else pool.mapLimits.insert key (limit - 1)) := by
  rw [remove] at h
  dsimp only at h
  split at h
  · next hset =>
    split at h
    · cases h
    · next txin vin hvin =>
      refine .inr ⟨txin.pubKey, by rw [Transaction.limitKeys, if_pos hset, hvin]; rfl, ?_⟩
      split at h
      · next hnone =>
        cases h
        exact .inl ⟨hnone, rfl⟩
      · next limit hsome =>
        cases h
        exact .inr ⟨limit, hsome, rfl⟩
  · next hset =>
    cases h
    exact .inl ⟨limitKeys_eq_nil (Bool.not_eq_true _ ▸ hset), rfl⟩

theorem numLimits_remove (hcount : pool.Counting) (h : remove H pool tx = .ok pool')
    (key : UInt160) : pool'.numLimits key
      = pool.numLimits key - if key ∈ tx.limitKeys ∧ 0 < pool.numLimits key then 1 else 0 := by
  rw [numLimits]
  rcases mapLimits_remove h with ⟨hkeys, hmap⟩ | ⟨k, hkeys, ⟨hnone, hmap⟩ | ⟨limit, hsome, hmap⟩⟩
  · rw [hmap, hkeys, if_neg fun hand ↦ List.not_mem_nil hand.1, Int.sub_zero, numLimits]
  · have hzero : ¬(key ∈ tx.limitKeys ∧ 0 < pool.numLimits key) := by
      rintro ⟨hmem, hpos⟩
      rw [hkeys, List.mem_singleton] at hmem
      rw [numLimits, hmem, hnone, Option.getD_none] at hpos
      exact absurd hpos (lt_irrefl _)
    rw [hmap, if_neg hzero, Int.sub_zero, numLimits]
  · rw [hmap, getElem?_countDown]
    by_cases hkey : k = key
    · subst hkey
      have hlimit : pool.numLimits k = limit := by rw [numLimits, hsome, Option.getD_some]
      have hcounted : k ∈ tx.limitKeys ∧ 0 < pool.numLimits k :=
        ⟨hkeys ▸ List.mem_singleton_self k, hlimit ▸ hcount k limit hsome⟩
      rw [if_pos rfl, if_pos hcounted, hlimit]
      split
      · next hone => rw [hone, Option.getD_none, Int.sub_self]
      · rw [Option.getD_some]
    · have hnot : ¬(key ∈ tx.limitKeys ∧ 0 < pool.numLimits key) := by
        rintro ⟨hmem, -⟩
        rw [hkeys, List.mem_singleton] at hmem
        exact hkey hmem.symm
      rw [if_neg hkey, if_neg hnot, Int.sub_zero, numLimits]

theorem counting_empty : empty.Counting := fun key n h ↦ absurd h (by simp [empty])

theorem Counting.numLimits_nonneg (h : pool.Counting) (key : UInt160) : 0 ≤ pool.numLimits key := by
  rw [numLimits]
  rcases hget : pool.mapLimits[key]? with _ | n
  · exact le_rfl
  · exact (h key n hget).le

theorem Counting.addUnchecked (hcount : pool.Counting)
    (h : addUnchecked H pool hash tx = .ok pool') : pool'.Counting := by
  rw [TxMemPool.addUnchecked] at h
  dsimp only at h
  split at h
  · split at h
    · cases h
    · next txin vin hvin =>
      cases h
      intro key n hget
      dsimp only at hget
      rw [ExtTreeMap.getElem?_insert] at hget
      split at hget
      · rw [← Option.some.inj hget]
        exact Int.lt_add_one_of_le (hcount.numLimits_nonneg txin.pubKey)
      · exact hcount key n hget
  · cases h
    exact hcount

theorem Counting.remove (hcount : pool.Counting) (h : remove H pool tx = .ok pool') :
    pool'.Counting := by
  intro key n hget
  rcases mapLimits_remove h with ⟨-, hmap⟩ | ⟨k, -, ⟨-, hmap⟩ | ⟨limit, hsome, hmap⟩⟩
  · exact hcount key n (hmap ▸ hget)
  · exact hcount key n (hmap ▸ hget)
  · rw [hmap, getElem?_countDown] at hget
    split at hget
    · have hpos := hcount k limit hsome
      split at hget
      · cases hget
      · next hone =>
        rw [← Option.some.inj hget]
        omega
    · exact hcount key n hget

theorem Counting.foldlM_remove : ∀ {removed : List Transaction} {pool pool' : TxMemPool},
    pool.Counting → removed.foldlM (TxMemPool.remove H) pool = .ok pool' → pool'.Counting := by
  intro removed
  induction removed with
  | nil =>
    intro pool pool' hcount hrun
    cases hrun
    exact hcount
  | cons tx removed ih =>
    intro pool pool' hcount hrun
    rw [List.foldlM_cons] at hrun
    obtain ⟨pool₁, hfirst, hrun⟩ := Except.bind_eq_ok_iff.mp hrun
    exact ih (hcount.remove hfirst) hrun

/-! ## What keeps the maps together -/

theorem limits_addUnchecked (h : addUnchecked H pool hash tx = .ok pool') (key : UInt160) :
    pool'.limits key + (pool.mapTx[hash]?).elim 0 (limitOne key)
      = pool.limits key + limitOne key tx := by
  have hbefore := TreeMap.total_erase (limitOne key) pool.mapTx hash
  have hafter := TreeMap.total_insert_erase (limitOne key) pool.mapTx hash tx
  rw [← (addUnchecked_eq_ok h).1] at hafter
  rw [limits, limits]
  omega

theorem limits_remove (h : remove H pool tx = .ok pool') (key : UInt160) :
    pool'.limits key + (pool.mapTx[tx.getTxID H]?).elim 0 (limitOne key) = pool.limits key := by
  have hbefore := TreeMap.total_erase (limitOne key) pool.mapTx (tx.getTxID H)
  rw [← (remove_eq_ok h).1] at hbefore
  rw [limits, limits]
  omega

theorem elim_limitOne_eq_zero_iff (o : Option Transaction) :
    (∀ key, o.elim 0 (limitOne key) = 0) ↔ ∀ tx, o = some tx → tx.limitKeys = [] := by
  rcases o with _ | tx
  · simp
  · simp [limitOne_eq, List.eq_nil_iff_forall_not_mem]

theorem Consistent.addUnchecked_iff (h : pool.Consistent H)
    (hadd : TxMemPool.addUnchecked H pool (tx.getTxID H) tx = .ok pool') : pool'.Consistent H ↔
      ∀ tx', pool.mapTx[tx.getTxID H]? = some tx' →
        tx'.accounts ⊆ tx.accounts ∧ tx'.limitKeys = [] := by
  have hindexed := h.toIndexed.addUnchecked_iff rfl hadd
  have hlimits : (∀ key, pool'.numLimits key = pool'.limits key) ↔
      ∀ tx', pool.mapTx[tx.getTxID H]? = some tx' → tx'.limitKeys = [] := by
    rw [← elim_limitOne_eq_zero_iff]
    refine forall_congr' fun key ↦ ?_
    have hnum := numLimits_addUnchecked hadd key
    have hcount := limits_addUnchecked hadd key
    rw [h.numLimits_eq key] at hnum
    omega
  constructor
  · intro h' tx' hget
    exact ⟨hindexed.mp h'.toIndexed tx' hget, hlimits.mp h'.numLimits_eq tx' hget⟩
  · intro hsame
    exact ⟨hindexed.mpr fun tx' hget ↦ (hsame tx' hget).1,
      hlimits.mpr fun tx' hget ↦ (hsame tx' hget).2⟩

theorem Consistent.remove_iff (h : pool.Consistent H) (hcount : pool.Counting)
    (hremove : TxMemPool.remove H pool tx = .ok pool') : pool'.Consistent H ↔
      (∀ tx', pool.mapTx[tx.getTxID H]? = some tx' → tx'.accounts ⊆ tx.accounts) ∧
      ∀ key, (key ∈ tx.limitKeys ∧ 0 < pool.limits key) ↔
        ∃ tx', pool.mapTx[tx.getTxID H]? = some tx' ∧ key ∈ tx'.limitKeys := by
  have hindexed := h.toIndexed.remove_iff hremove
  have hlimits : (∀ key, pool'.numLimits key = pool'.limits key) ↔
      ∀ key, (key ∈ tx.limitKeys ∧ 0 < pool.limits key) ↔
        ∃ tx', pool.mapTx[tx.getTxID H]? = some tx' ∧ key ∈ tx'.limitKeys := by
    refine forall_congr' fun key ↦ ?_
    have hnum := numLimits_remove hcount hremove key
    have hafter := limits_remove hremove key
    have hthere : (∃ tx', pool.mapTx[tx.getTxID H]? = some tx' ∧ key ∈ tx'.limitKeys) ↔
        (pool.mapTx[tx.getTxID H]?).elim 0 (limitOne key) = 1 := by
      rcases pool.mapTx[tx.getTxID H]? with _ | tx'
      · simp
      · simp [limitOne_eq]
    have hle : (pool.mapTx[tx.getTxID H]?).elim 0 (limitOne key) ≤ 1 := by
      rcases pool.mapTx[tx.getTxID H]? with _ | tx'
      · exact Nat.zero_le _
      · rw [Option.elim_some, limitOne_eq]
        split <;> decide
    have hpos : 0 < pool.numLimits key ↔ 0 < pool.limits key := by
      rw [h.numLimits_eq key]
      exact Int.natCast_pos
    rw [hthere, ← hpos]
    rw [h.numLimits_eq key] at hnum hpos ⊢
    by_cases hcounted : key ∈ tx.limitKeys ∧ 0 < (pool.limits key : ℤ)
    · rw [if_pos hcounted] at hnum
      simp only [hcounted, true_and, true_iff]
      omega
    · rw [if_neg hcounted] at hnum
      simp only [hcounted, false_iff]
      omega
  constructor
  · exact fun h' ↦ ⟨hindexed.mp h'.toIndexed, hlimits.mp h'.numLimits_eq⟩
  · exact fun hsame ↦ ⟨hindexed.mpr hsame.1, hlimits.mpr hsame.2⟩

theorem Consistent.clear_iff (h : pool.Consistent H) :
    pool.clear.Consistent H ↔ ∀ key, pool.limits key = 0 := by
  have hempty : pool.clear.Indexed H := by
    refine ⟨fun hget ↦ absurd hget (by simp [clear]), fun key ↦ ?_⟩
    refine ExtTreeMap.ext_getElem? fun hash ↦ ?_
    simp [AccountIndex.entry, clear]
  have hnum : ∀ key, pool.clear.numLimits key = pool.limits key := h.numLimits_eq
  have hlimits : ∀ key, pool.clear.limits key = 0 := fun key ↦ TreeMap.total_empty _
  constructor
  · intro h' key
    have hkey := h'.numLimits_eq key
    rw [hnum, hlimits] at hkey
    exact Int.natCast_inj.mp hkey
  · intro hzero
    refine ⟨hempty, fun key ↦ ?_⟩
    rw [hnum, hlimits, hzero]

theorem consistent_empty : empty.Consistent H where
  toIndexed := indexed_empty
  numLimits_eq key := by
    rw [limits, numLimits]
    simp [empty, TreeMap.total_empty]

theorem Consistent.remove (h : pool.Consistent H) (hcount : pool.Counting)
    (hget : pool.mapTx[tx.getTxID H]? = some tx)
    (hremove : TxMemPool.remove H pool tx = .ok pool') : pool'.Consistent H := by
  refine (h.remove_iff hcount hremove).mpr ⟨fun tx' hget' ↦ ?_, fun key ↦ ?_⟩
  · rw [Option.some.inj (hget.symm.trans hget')]
    exact List.Subset.refl _
  · constructor
    · exact fun hmem ↦ ⟨tx, hget, hmem.1⟩
    · rintro ⟨tx', hget', hmem⟩
      obtain rfl := Option.some.inj (hget.symm.trans hget')
      refine ⟨hmem, ?_⟩
      have hbefore := limits_remove hremove key
      rw [hget, Option.elim_some, limitOne_eq, if_pos hmem] at hbefore
      omega

theorem Consistent.foldlM_remove : ∀ {removed : List Transaction} {pool pool' : TxMemPool},
    pool.Consistent H → pool.Counting → (removed.map (Transaction.getTxID H)).Nodup →
    (∀ tx ∈ removed, pool.mapTx[tx.getTxID H]? = some tx) →
    removed.foldlM (TxMemPool.remove H) pool = .ok pool' → pool'.Consistent H := by
  intro removed
  induction removed with
  | nil =>
    intro pool pool' h hcount _ _ hrun
    cases hrun
    exact h
  | cons tx removed ih =>
    intro pool pool' h hcount hnodup hthere hrun
    rw [List.forall_mem_cons] at hthere
    rw [List.map_cons, List.nodup_cons] at hnodup
    rw [List.foldlM_cons] at hrun
    obtain ⟨pool₁, hfirst, hrun⟩ := Except.bind_eq_ok_iff.mp hrun
    refine ih (h.remove hcount hthere.1 hfirst) (hcount.remove hfirst) hnodup.2 (fun tx' hmem ↦ ?_)
      hrun
    -- the others are still there
    have hne : ¬compare (tx.getTxID H) (tx'.getTxID H) = .eq := fun heq ↦
      hnodup.1 (LawfulEqCmp.eq_of_compare heq ▸ List.mem_map_of_mem hmem)
    rw [(remove_eq_ok hfirst).1, ExtTreeMap.getElem?_erase, if_neg hne]
    exact hthere.2 tx' hmem

theorem Consistent.validate {tip : PoolTip} {r : TxMemPool × List Transaction}
    (h : pool.Consistent H) (hcount : pool.Counting) (hvalidate : tip.validate H pool [] = .ok r) :
    r.1.Consistent H := by
  obtain ⟨found, hexamine, hvalidate⟩ := Except.bind_eq_ok_iff.mp hvalidate
  obtain ⟨pool₁, hremove, hvalidate⟩ := Except.bind_eq_ok_iff.mp hvalidate
  cases hvalidate
  rw [List.nil_append] at hremove
  have hsublist := PoolTip.sublist_of_examine hexamine
  refine h.foldlM_remove hcount ?_ (fun tx hmem ↦ ?_) hremove
  · refine (hsublist.map _).nodup ((nodup_map_toList h.txid).map_on ?_)
    intro tx hmem tx' hmem' heq
    obtain ⟨hash, hget⟩ := mem_map_toList.mp hmem
    obtain ⟨hash', hget'⟩ := mem_map_toList.mp hmem'
    rw [h.txid hget, h.txid hget'] at heq
    rw [heq, hget'] at hget
    exact (Option.some.inj hget).symm
  · obtain ⟨hash, hget⟩ := mem_map_toList.mp (hsublist.subset hmem)
    rw [h.txid hget]
    exact hget

end TxMemPool

/-! ## Runs -/

inductive PoolOp where
  /-- `addUnchecked`, with the ID for the hash. -/
  | add (tx : Transaction)
  | remove (tx : Transaction)
  | validate (tip : PoolTip)
  | clear

namespace PoolOp

def apply (H : List UInt8 → UInt256) (pool : TxMemPool) : PoolOp → Exec TxMemPool
  | .add tx => pool.addUnchecked H (tx.getTxID H) tx
  | .remove tx => pool.remove H tx
  | .validate tip => do
    let r ← tip.validate H pool []
    .ok r.1
  | .clear => .ok pool.clear

/-- What keeps the maps together: a transaction that is added takes the place of none that sets a
limit or mentions another account; one that is removed is in the pool, or sets no limit that one in
the pool sets; and the pool is cleared only if nothing in it sets a limit. -/
def Careful (H : List UInt8 → UInt256) (pool : TxMemPool) : PoolOp → Prop
  | .add tx => ∀ tx', pool.mapTx[tx.getTxID H]? = some tx' →
      tx'.accounts ⊆ tx.accounts ∧ tx'.limitKeys = []
  | .remove tx => (∀ tx', pool.mapTx[tx.getTxID H]? = some tx' → tx'.accounts ⊆ tx.accounts) ∧
      ∀ key, (key ∈ tx.limitKeys ∧ 0 < pool.limits key) ↔
        ∃ tx', pool.mapTx[tx.getTxID H]? = some tx' ∧ key ∈ tx'.limitKeys
  | .validate _ => True
  | .clear => ∀ key, pool.limits key = 0

variable {H : List UInt8 → UInt256} {pool pool' : TxMemPool} {op : PoolOp}

theorem counting_apply (hcount : pool.Counting) (h : op.apply H pool = .ok pool') :
    pool'.Counting := by
  cases op with
  | add tx => exact hcount.addUnchecked h
  | remove tx => exact hcount.remove h
  | validate tip =>
    obtain ⟨r, hvalidate, h⟩ := Except.bind_eq_ok_iff.mp h
    obtain ⟨found, -, hvalidate⟩ := Except.bind_eq_ok_iff.mp hvalidate
    obtain ⟨pool₁, hremove, hvalidate⟩ := Except.bind_eq_ok_iff.mp hvalidate
    cases hvalidate
    cases h
    exact hcount.foldlM_remove hremove
  | clear =>
    cases h
    exact hcount

theorem consistent_apply_iff (hpool : pool.Consistent H) (hcount : pool.Counting)
    (h : op.apply H pool = .ok pool') : pool'.Consistent H ↔ op.Careful H pool := by
  cases op with
  | add tx => exact hpool.addUnchecked_iff h
  | remove tx => exact hpool.remove_iff hcount h
  | validate tip =>
    obtain ⟨r, hvalidate, h⟩ := Except.bind_eq_ok_iff.mp h
    cases h
    exact iff_of_true (hpool.validate hcount hvalidate) trivial
  | clear =>
    cases h
    exact hpool.clear_iff

end PoolOp

/-- A run of a pool that starts empty. -/
structure PoolHistory (H : List UInt8 → UInt256) (n : ℕ) where
  /-- The pool before the `i`-th operation. -/
  pool : ℕ → TxMemPool
  /-- The `i`-th operation. -/
  op : ℕ → PoolOp
  start : pool 0 = .empty
  step : ∀ i < n, (op i).apply H (pool i) = .ok (pool (i + 1))

theorem PoolHistory.counting {H : List UInt8 → UInt256} {n : ℕ} (history : PoolHistory H n) :
    ∀ i ≤ n, (history.pool i).Counting := by
  intro i
  induction i with
  | zero => exact fun _ ↦ history.start ▸ TxMemPool.counting_empty
  | succ i ih =>
    exact fun hi ↦ PoolOp.counting_apply (ih (Nat.le_of_succ_le hi)) (history.step i hi)

/-- **The maps of the pool.** Along a run the index has the transactions of every account and the
counters their set-limit transactions, after every step, if and only if every step is careful. -/
theorem PoolHistory.consistent_iff {H : List UInt8 → UInt256} {n : ℕ} (history : PoolHistory H n) :
    (∀ i ≤ n, (history.pool i).Consistent H) ↔
      ∀ i < n, (history.op i).Careful H (history.pool i) := by
  constructor
  · intro h i hi
    exact (PoolOp.consistent_apply_iff (h i hi.le) (history.counting i hi.le)
      (history.step i hi)).mp (h (i + 1) hi)
  · intro h i
    induction i with
    | zero => exact fun _ ↦ history.start ▸ TxMemPool.consistent_empty
    | succ i ih =>
      intro hi
      exact (PoolOp.consistent_apply_iff (ih (Nat.le_of_succ_le hi))
        (history.counting i (Nat.le_of_succ_le hi)) (history.step i hi)).mpr (h i hi)

/-- A transaction of the account `1` that sets its limit. -/
def limitSetter (nLockHeight nLimitValue : UInt64) : Transaction :=
  { (sending 1000 nLockHeight).tx with vout := [⟨0, 1⟩], nLimitValue, fSetLimit := true }

def poolOf (ops : List PoolOp) : Exec TxMemPool :=
  ops.foldlM (fun pool op ↦ op.apply Sha256.sha256d pool) .empty

/-- A set-limit transaction that comes and goes. -/
def limitComesAndGoes : PoolHistory Sha256.sha256d 2 where
  pool i :=
    ((poolOf ([.add (limitSetter 100 7), .remove (limitSetter 100 7)].take i)).toOption).getD .empty
  op i := if i = 0 then .add (limitSetter 100 7) else .remove (limitSetter 100 7)
  start := rfl
  step i hi := by
    interval_cases i
    · rfl
    · rfl

set_option maxRecDepth 20000 in
theorem consistent_iff_comesAndGoes :
    (limitComesAndGoes.pool 1).limits 1 = 1 ∧
      ∀ i ≤ 2, (limitComesAndGoes.pool i).Consistent Sha256.sha256d := by
  refine ⟨by decide +kernel, limitComesAndGoes.consistent_iff.mpr fun i hi ↦ ?_⟩
  have hnew : (limitComesAndGoes.op 0).Careful Sha256.sha256d (limitComesAndGoes.pool 0) := by
    intro tx' hget
    rw [limitComesAndGoes.start] at hget
    simp [TxMemPool.empty] at hget
  interval_cases i
  · exact hnew
  · have hadd : TxMemPool.addUnchecked Sha256.sha256d .empty
        ((limitSetter 100 7).getTxID Sha256.sha256d) (limitSetter 100 7)
        = .ok (limitComesAndGoes.pool 1) := limitComesAndGoes.step 0 (by decide)
    have hone : (limitComesAndGoes.pool 1).Consistent Sha256.sha256d :=
      (TxMemPool.consistent_empty.addUnchecked_iff hadd).mpr hnew
    have hthere : (limitComesAndGoes.pool 1).mapTx[(limitSetter 100 7).getTxID Sha256.sha256d]?
        = some (limitSetter 100 7) := by
      rw [(TxMemPool.addUnchecked_eq_ok hadd).1]
      exact ExtTreeMap.getElem?_insert_self
    have hcount := limitComesAndGoes.counting 1 (by decide)
    have hremove : TxMemPool.remove Sha256.sha256d (limitComesAndGoes.pool 1) (limitSetter 100 7)
        = .ok (limitComesAndGoes.pool 2) := limitComesAndGoes.step 1 (by decide)
    exact (hone.remove_iff hcount hremove).mp (hone.remove hcount hthere hremove)

set_option maxRecDepth 20000 in
/-- The counter of an account after a transaction is added twice, after another one of the account
is removed that was never there, and after the pool is cleared; and what it should be. -/
theorem counters_drift :
    ((poolOf [.add (limitSetter 100 7), .add (limitSetter 100 7)]).map fun pool ↦
      (pool.numLimits 1, pool.limits 1)) = .ok (2, 1) ∧
    ((poolOf [.add (limitSetter 100 7), .remove (limitSetter 99 7)]).map fun pool ↦
      (pool.numLimits 1, pool.limits 1)) = .ok (0, 1) ∧
    ((poolOf [.add (limitSetter 100 7), .clear]).map fun pool ↦
      (pool.numLimits 1, pool.limits 1)) = .ok (1, 0) := by
  decide +kernel

end Cryptonite
