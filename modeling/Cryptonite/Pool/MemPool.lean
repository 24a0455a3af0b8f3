import Cryptonite.Core.Validation
import Cryptonite.Foundation.TreeMap

/-!
# The memory pool

`CTxMemPool` of `txmempool.cpp`. The pool keeps its transactions by their IDs (`mapTx`), and for
every account those that take from it or pay to it (`mapAccount`), which is what the balance queries
go through. Both are ordered maps, and going through them follows the order of the IDs.

The second map is an index of the first: what it has for an account are the transactions of the pool
that mention the account (`TxMemPool.Indexed`).
-/

namespace Cryptonite

open Std

instance instTransCmpUInt256 : TransCmp (@compare UInt256 _) := inferInstance

instance instTransCmpUInt160 : TransCmp (@compare UInt160 _) := inferInstance

/-- The type of `mapAccount`. -/
abbrev AccountIndex := ExtTreeMap UInt160 (ExtTreeMap UInt256 Transaction)

/-- `mapAccount[key]`, as it is read. -/
def AccountIndex.entry (mapAccount : AccountIndex) (key : UInt160) :
    ExtTreeMap UInt256 Transaction :=
  (mapAccount[key]?).getD ∅

/-- `CTxMemPool`, with nothing of an entry but its transaction. -/
structure TxMemPool where
  mapTx : ExtTreeMap UInt256 Transaction
  mapAccount : AccountIndex
  /-- How many set-limit transactions there are for an account. -/
  mapLimits : ExtTreeMap UInt160 ℤ

namespace Transaction

/-- The accounts in the order `addUnchecked` goes through them. -/
def accounts (tx : Transaction) : List UInt160 :=
  tx.vin.map TxIn.pubKey ++ tx.vout.map TxOut.pubKey

end Transaction

namespace TxMemPool

def empty : TxMemPool := ⟨∅, ∅, ∅⟩

def numLimits (pool : TxMemPool) (key : UInt160) : ℤ := (pool.mapLimits[key]?).getD 0

def lookup (pool : TxMemPool) (key : UInt160) : List Transaction :=
  (pool.mapAccount.entry key).toList.map Prod.snd

/-- `mapAccount[key][tx.GetTxID()] = tx`. -/
def note (H : List UInt8 → UInt256) (tx : Transaction) (mapAccount : AccountIndex)
    (key : UInt160) : AccountIndex :=
  mapAccount.insert key ((mapAccount.entry key).insert (tx.getTxID H) tx)

def addUnchecked (H : List UInt8 → UInt256) (pool : TxMemPool) (hash : UInt256)
    (tx : Transaction) : Exec TxMemPool :=
  let mapTx := pool.mapTx.insert hash tx
  let mapAccount := tx.accounts.foldl (note H tx) pool.mapAccount
  if tx.fSetLimit then
    match tx.vin with
    | [] => .error .outOfBounds
    | txin :: _ =>
      let mapLimits := pool.mapLimits.insert txin.pubKey (pool.numLimits txin.pubKey + 1)
      .ok { mapTx, mapAccount, mapLimits }
  else .ok { pool with mapTx, mapAccount }

/-- `mapAccount[key].erase(tx.GetTxID())`. -/
def unnote (H : List UInt8 → UInt256) (tx : Transaction) (mapAccount : AccountIndex)
    (key : UInt160) : AccountIndex :=
  mapAccount.insert key ((mapAccount.entry key).erase (tx.getTxID H))

/-- `remove`. The transaction need not be in the pool. -/
def remove (H : List UInt8 → UInt256) (pool : TxMemPool) (tx : Transaction) : Exec TxMemPool :=
  let mapAccount := tx.accounts.foldl (unnote H tx) pool.mapAccount
  let mapTx := pool.mapTx.erase (tx.getTxID H)
  if tx.fSetLimit then
    match tx.vin with
    | [] => .error .outOfBounds
    | txin :: _ =>
      match pool.mapLimits[txin.pubKey]? with
      | none => .ok { pool with mapTx, mapAccount }
      | some limit =>
        let mapLimits :=
          if limit = 1 then pool.mapLimits.erase txin.pubKey
          else pool.mapLimits.insert txin.pubKey (limit - 1)
        .ok { mapTx, mapAccount, mapLimits }
  else .ok { pool with mapTx, mapAccount }

/-- `clear`, which leaves `mapLimits` as it is. -/
def clear (pool : TxMemPool) : TxMemPool := { pool with mapTx := ∅, mapAccount := ∅ }

/-- What the transactions of the pool take from an account. -/
def spent (pool : TxMemPool) (key : UInt160) : ℕ :=
  TreeMap.total (Transaction.spent key) pool.mapTx

/-! ## The index -/

/-- The transactions are stored by their IDs, and `mapAccount` has those of an account. -/
structure Indexed (H : List UInt8 → UInt256) (pool : TxMemPool) : Prop where
  txid : ∀ {hash : UInt256} {tx : Transaction}, pool.mapTx[hash]? = some tx →
    tx.getTxID H = hash
  entry_eq : ∀ key, pool.mapAccount.entry key
    = pool.mapTx.filter fun _ tx ↦ decide (key ∈ tx.accounts)

variable {H : List UInt8 → UInt256} {pool pool' : TxMemPool} {hash : UInt256} {tx : Transaction}

theorem indexed_empty : empty.Indexed H where
  txid h := absurd h (by simp [empty])
  entry_eq key := by
    refine ExtTreeMap.ext_getElem? fun hash ↦ ?_
    simp [AccountIndex.entry, empty]

theorem entry_insert (mapAccount : AccountIndex) (k key : UInt160)
    (e : ExtTreeMap UInt256 Transaction) : AccountIndex.entry (mapAccount.insert k e) key =
      if key = k then e else mapAccount.entry key := by
  rw [AccountIndex.entry]
  split_ifs with heq
  · rw [heq, ExtTreeMap.getElem?_insert_self]
    rfl
  · rw [ExtTreeMap.getElem?_insert, if_neg (mt LawfulEqCmp.eq_of_compare (Ne.symm heq))]
    rfl

theorem entry_foldl_insert {f : ExtTreeMap UInt256 Transaction → ExtTreeMap UInt256 Transaction}
    (hf : ∀ e, f (f e) = f e) (key : UInt160) :
    ∀ (keys : List UInt160) (mapAccount : AccountIndex),
      AccountIndex.entry (keys.foldl (fun m k ↦ m.insert k (f (AccountIndex.entry m k)))
        mapAccount) key =
      if key ∈ keys then f (mapAccount.entry key) else mapAccount.entry key := by
  intro keys
  induction keys with
  | nil => simp
  | cons k keys ih =>
    intro mapAccount
    rw [List.foldl_cons, ih, entry_insert]
    by_cases hk : key = k
    · subst hk
      rw [if_pos rfl, hf, ite_self, if_pos List.mem_cons_self]
    · simp only [List.mem_cons, hk, false_or, if_false]

theorem entry_foldl_note (key : UInt160) (keys : List UInt160) (mapAccount : AccountIndex) :
    AccountIndex.entry (keys.foldl (note H tx) mapAccount) key
      = if key ∈ keys then (mapAccount.entry key).insert (tx.getTxID H) tx
        else mapAccount.entry key := by
  refine @entry_foldl_insert (fun e ↦ e.insert (tx.getTxID H) tx) (fun e ↦ ?_) key keys mapAccount
  refine ExtTreeMap.ext_getElem? fun hash ↦ ?_
  simp only [ExtTreeMap.getElem?_insert]
  split_ifs <;> rfl

theorem addUnchecked_eq_ok (h : addUnchecked H pool hash tx = .ok pool') :
    pool'.mapTx = pool.mapTx.insert hash tx ∧
      pool'.mapAccount = tx.accounts.foldl (note H tx) pool.mapAccount := by
  rw [addUnchecked] at h
  dsimp only at h
  split_ifs at h
  · split at h
    · cases h
    · cases h
      exact ⟨rfl, rfl⟩
  · cases h
    exact ⟨rfl, rfl⟩

theorem Indexed.replaced_iff (h : pool.Indexed H) {o : Option Transaction}
    (ho : ∀ tx', o = some tx' → tx' = tx) (hhash : tx.getTxID H = hash)
    (hmapTx : ∀ k, pool'.mapTx[k]? = if hash = k then o else pool.mapTx[k]?)
    (hentry : ∀ key k, (pool'.mapAccount.entry key)[k]? =
      if key ∈ tx.accounts ∧ hash = k then o else (pool.mapAccount.entry key)[k]?) :
    pool'.Indexed H ↔ ∀ tx', pool.mapTx[hash]? = some tx' → tx'.accounts ⊆ tx.accounts := by
  constructor
  · intro h' tx' hget key hkey
    by_contra hnot
    have hsame := congrArg (fun m : ExtTreeMap UInt256 Transaction ↦ m[hash]?) (h'.entry_eq key)
    simp only [hentry, hnot, false_and, if_false, h.entry_eq, ExtTreeMap.getElem?_filter', hget,
      hmapTx, if_true] at hsame
    rw [Option.filter_some_pos (by simpa using hkey)] at hsame
    exact hnot (ho tx' (Option.filter_eq_some_iff.mp hsame.symm).1 ▸ hkey)
  · intro hsubset
    refine ⟨fun {k tx'} hget ↦ ?_, fun key ↦ ExtTreeMap.ext_getElem? fun k ↦ ?_⟩
    · rw [hmapTx] at hget
      split_ifs at hget with heq
      · rw [ho tx' hget, hhash, heq]
      · exact h.txid hget
    · rw [hentry, h.entry_eq, ExtTreeMap.getElem?_filter', ExtTreeMap.getElem?_filter', hmapTx]
      by_cases heq : hash = k
      · subst heq
        by_cases hmem : key ∈ tx.accounts
        · rw [if_pos ⟨hmem, rfl⟩, if_pos rfl]
          rcases o with _ | tx'
          · rfl
          · rw [ho tx' rfl, Option.filter_some_pos (by simpa using hmem)]
        · rw [if_neg (by simp [hmem]), if_pos rfl, Option.filter_eq_none_iff.mpr fun tx' hget ↦ by
              simpa using fun hkey ↦ hmem (hsubset tx' hget hkey),
            Option.filter_eq_none_iff.mpr fun tx' h' ↦ by simpa [ho tx' h'] using hmem]
      · rw [if_neg (by simp [heq]), if_neg heq]

theorem Indexed.addUnchecked_iff (h : pool.Indexed H) (hhash : tx.getTxID H = hash)
    (hadd : addUnchecked H pool hash tx = .ok pool') : pool'.Indexed H ↔
      ∀ tx', pool.mapTx[hash]? = some tx' → tx'.accounts ⊆ tx.accounts := by
  obtain ⟨hmapTx, hmapAccount⟩ := addUnchecked_eq_ok hadd
  refine h.replaced_iff (o := some tx) (by simp) hhash (fun k ↦ ?_) fun key k ↦ ?_
  · simp [hmapTx, ExtTreeMap.getElem?_insert]
  · rw [hmapAccount, entry_foldl_note, hhash]
    by_cases hmem : key ∈ tx.accounts <;> simp [hmem, ExtTreeMap.getElem?_insert]

theorem Indexed.addUnchecked (h : pool.Indexed H) (hhash : tx.getTxID H = hash)
    (hnew : pool.mapTx[hash]? = none) (hadd : addUnchecked H pool hash tx = .ok pool') :
    pool'.Indexed H :=
  (h.addUnchecked_iff hhash hadd).mpr fun _ hget ↦ absurd (hnew.symm.trans hget) (by simp)

theorem entry_foldl_unnote (key : UInt160) (keys : List UInt160) (mapAccount : AccountIndex) :
    AccountIndex.entry (keys.foldl (unnote H tx) mapAccount) key
      = if key ∈ keys then (mapAccount.entry key).erase (tx.getTxID H)
        else mapAccount.entry key := by
  refine @entry_foldl_insert (fun e ↦ e.erase (tx.getTxID H)) (fun e ↦ ?_) key keys mapAccount
  refine ExtTreeMap.ext_getElem? fun hash ↦ ?_
  simp only [ExtTreeMap.getElem?_erase]
  split_ifs <;> rfl

theorem remove_eq_ok (h : remove H pool tx = .ok pool') :
    pool'.mapTx = pool.mapTx.erase (tx.getTxID H) ∧
      pool'.mapAccount = tx.accounts.foldl (unnote H tx) pool.mapAccount := by
  rw [remove] at h
  dsimp only at h
  split at h
  · split at h
    · cases h
    · split at h <;> obtain rfl := Except.ok.inj h <;> exact ⟨rfl, rfl⟩
  · cases h
    exact ⟨rfl, rfl⟩

theorem Indexed.remove_iff (h : pool.Indexed H) (hremove : remove H pool tx = .ok pool') :
    pool'.Indexed H ↔
      ∀ tx', pool.mapTx[tx.getTxID H]? = some tx' → tx'.accounts ⊆ tx.accounts := by
  obtain ⟨hmapTx, hmapAccount⟩ := remove_eq_ok hremove
  refine h.replaced_iff (o := none) (by simp) rfl (fun k ↦ ?_) fun key k ↦ ?_
  · simp [hmapTx, ExtTreeMap.getElem?_erase]
  · rw [hmapAccount, entry_foldl_unnote]
    by_cases hmem : key ∈ tx.accounts <;> simp [hmem, ExtTreeMap.getElem?_erase]

theorem exists_remove (hvin : tx.fSetLimit = true → tx.vin ≠ []) (pool : TxMemPool) :
    ∃ pool', remove H pool tx = .ok pool' := by
  rw [remove]
  dsimp only
  split
  · next hset =>
    obtain ⟨txin, vin, hcons⟩ := List.exists_cons_of_ne_nil (hvin hset)
    rw [hcons]
    dsimp only
    split <;> exact ⟨_, rfl⟩
  · exact ⟨_, rfl⟩

/-! ## What the pool takes -/

/-- A sum over the transactions of an account is one over the pool, if the others do not count. -/
theorem Indexed.sum_lookup (h : pool.Indexed H) {key : UInt160} {f : Transaction → ℕ}
    (hzero : ∀ tx, tx.spent key = 0 → f tx = 0) :
    ((pool.lookup key).map f).sum = TreeMap.total f pool.mapTx := by
  rw [lookup, h.entry_eq, List.map_map]
  refine TreeMap.total_filter fun tx hmem ↦
    hzero tx (Transaction.spent_eq_zero fun txin hin hkey ↦ ?_)
  have hnot : key ∉ tx.accounts := by simpa using hmem
  exact hnot (hkey ▸ List.mem_append_left _ (List.mem_map_of_mem hin))

end TxMemPool

end Cryptonite
