import Cryptonite.View.Limit

/-!
# Allowances

`CTxMemPool::validate` and `CreateNewBlock` go through the transactions of the pool with the same
loop over the inputs. `mapBalances` has what is left of an account, once it has come up: its balance
or its limit, whichever is smaller, less what was taken since. An input that is more than what is
left ends the loop, and what the inputs before it have taken is not given back.

The two read the limit at different heights, so what an account starts with is a parameter here. The
invariant of the loop is that what the inputs take and what is left is within what there was
(`takeInputs_eq`).
-/

namespace Cryptonite

/-- The type of `mapBalances`. -/
abbrev BalanceMap := UInt160 → Option UInt64

/-- What an account that is not in `mapBalances` has, at a height. -/
def allotmentAt (root : Option TrieNode) (height : UInt64) (key : UInt160) : Option UInt64 :=
  (TrieEngine.find key root).map fun node ↦
    let limit := (limitAt key height root).getD 0
    if node.data.balance > limit then limit else node.data.balance

section Account

variable {H : List UInt8 → UInt256} {root : Option TrieNode}

/-- `Limit` returns the limit that a withdrawal would put in force. -/
theorem limitAt_eq (hvalid : ValidRoot H root) (key : UInt160) (height : UInt64) :
    limitAt key height root = (accounts root key).map fun a ↦ a.maturedLimit height := by
  rw [limitAt, ← find_map_data hvalid, Option.map_map]
  refine congrArg (fun f ↦ (TrieEngine.find key root).map f) (funext fun node ↦ ?_)
  rw [Function.comp_apply, AccountData.maturedLimit]
  by_cases hsame : node.data.limit = node.data.futureLimit
  · simp [hsame]
  · simp [hsame]

theorem allotmentAt_eq (hvalid : ValidRoot H root) (key : UInt160) (height : UInt64) :
    allotmentAt root height key = (accounts root key).map fun a ↦
      if a.balance > a.maturedLimit height then a.maturedLimit height else a.balance := by
  rw [allotmentAt, limitAt_eq hvalid, ← find_map_data hvalid]
  rcases TrieEngine.find key root with _ | node <;> rfl

end Account

theorem le_capped_iff {nValue balance limit : UInt64} :
    nValue ≤ (if balance > limit then limit else balance) ↔ nValue ≤ balance ∧ nValue ≤ limit := by
  split
  · next h => exact ⟨fun hle ↦ ⟨UInt64.le_trans hle (UInt64.le_of_lt h), hle⟩, And.right⟩
  · next h => exact ⟨fun hle ↦ ⟨hle, UInt64.le_trans hle (UInt64.not_lt.mp h)⟩, And.left⟩

theorem capped_le (balance limit : UInt64) :
    (if balance > limit then limit else balance) ≤ balance ∧
      (if balance > limit then limit else balance) ≤ limit :=
  le_capped_iff.mp (UInt64.le_refl _)

namespace Allowance

section Loop

variable (allotment : UInt160 → Option UInt64)

def takeInput (mapBalances : BalanceMap) (txin : TxIn) : Bool × BalanceMap :=
  match mapBalances txin.pubKey with
  | some balance =>
    if balance < txin.nValue then (false, mapBalances)
    else (true, Function.update mapBalances txin.pubKey (some (balance - txin.nValue)))
  | none =>
    match allotment txin.pubKey with
    | none => (false, mapBalances)
    | some balance =>
      if balance < txin.nValue then (false, mapBalances)
      else (true, Function.update mapBalances txin.pubKey (some (balance - txin.nValue)))

/-- The inputs of a transaction, up to the first that is missing. -/
def takeInputs : List TxIn → BalanceMap → Bool × BalanceMap
  | [], mapBalances => (true, mapBalances)
  | txin :: vin, mapBalances =>
    match takeInput allotment mapBalances txin with
    | (false, mapBalances) => (false, mapBalances)
    | (true, mapBalances) => takeInputs vin mapBalances

/-- What an account has, in the middle of the loop. -/
def funds (mapBalances : BalanceMap) (key : UInt160) : Option UInt64 :=
  (mapBalances key).or (allotment key)

/-- What an account has, as a number. -/
def left (mapBalances : BalanceMap) (key : UInt160) : ℕ :=
  (funds allotment mapBalances key).elim 0 UInt64.toNat

/-- Only accounts of the trie are in `mapBalances`. -/
def Backed (mapBalances : BalanceMap) : Prop :=
  ∀ key, mapBalances key ≠ none → allotment key ≠ none

end Loop

variable {allotment : UInt160 → Option UInt64} {mapBalances mapBalances' : BalanceMap}

theorem backed_none : Backed allotment fun _ ↦ none := fun _ h ↦ absurd rfl h

theorem takeInput_eq (mapBalances : BalanceMap) (txin : TxIn) : takeInput allotment mapBalances txin
    = match funds allotment mapBalances txin.pubKey with
      | none => (false, mapBalances)
      | some balance =>
        if balance < txin.nValue then (false, mapBalances)
        else (true, Function.update mapBalances txin.pubKey (some (balance - txin.nValue))) := by
  rw [takeInput, funds]
  rcases mapBalances txin.pubKey with _ | balance
  · rcases allotment txin.pubKey with _ | balance <;> rfl
  · rfl

theorem takeInput_false {txin : TxIn}
    (h : takeInput allotment mapBalances txin = (false, mapBalances')) :
    mapBalances' = mapBalances := by
  rw [takeInput_eq] at h
  split at h
  · exact (Prod.mk.inj h).2.symm
  · split_ifs at h
    · exact (Prod.mk.inj h).2.symm
    · exact absurd (Prod.mk.inj h).1 (by simp)

theorem takeInput_true {txin : TxIn}
    (h : takeInput allotment mapBalances txin = (true, mapBalances')) :
    ∃ balance, funds allotment mapBalances txin.pubKey = some balance ∧ txin.nValue ≤ balance ∧
      mapBalances' = Function.update mapBalances txin.pubKey (some (balance - txin.nValue)) := by
  rw [takeInput_eq] at h
  split at h
  · exact absurd (Prod.mk.inj h).1 (by simp)
  · next balance hbalance =>
    split_ifs at h with hlt
    · exact absurd (Prod.mk.inj h).1 (by simp)
    · exact ⟨balance, hbalance, UInt64.not_lt.mp hlt, (Prod.mk.inj h).2.symm⟩

theorem Backed.takeInput {txin : TxIn} (hbacked : Backed allotment mapBalances)
    (h : takeInput allotment mapBalances txin = (true, mapBalances')) :
    Backed allotment mapBalances' ∧ allotment txin.pubKey ≠ none := by
  obtain ⟨balance, hfunds, -, rfl⟩ := takeInput_true h
  have hallotment : allotment txin.pubKey ≠ none := by
    intro hnone
    rw [funds, hnone, Option.or_none] at hfunds
    exact hbacked txin.pubKey (by simp [hfunds]) hnone
  refine ⟨fun key hkey ↦ ?_, hallotment⟩
  by_cases heq : key = txin.pubKey
  · rw [heq]
    exact hallotment
  · rw [Function.update_of_ne heq] at hkey
    exact hbacked key hkey

theorem left_takeInput {txin : TxIn}
    (h : takeInput allotment mapBalances txin = (true, mapBalances')) (key : UInt160) :
    (if txin.pubKey = key then txin.nValue.toNat else 0)
      + left allotment mapBalances' key = left allotment mapBalances key := by
  obtain ⟨balance, hfunds, hle, rfl⟩ := takeInput_true h
  split_ifs with hkey
  · rw [← hkey, left, left, hfunds, funds, Function.update_self, Option.some_or, Option.elim_some,
      Option.elim_some, UInt64.toNat_sub_of_le _ _ hle]
    rw [UInt64.le_iff_toNat_le] at hle
    omega
  · rw [left, funds, Function.update_of_ne (Ne.symm hkey), Nat.zero_add]
    rfl

/-- What the inputs of a transaction take off, whether or not all of them are there. -/
theorem takeInputs_eq : ∀ {vin : List TxIn} {mapBalances : BalanceMap} {ok : Bool},
    takeInputs allotment vin mapBalances = (ok, mapBalances') → Backed allotment mapBalances →
    Backed allotment mapBalances' ∧ (ok = true → ∀ txin ∈ vin, allotment txin.pubKey ≠ none) ∧
    ∀ key, (if ok then exactSum ((vin.filter fun txin ↦ txin.pubKey == key).map TxIn.nValue) else 0)
      + left allotment mapBalances' key ≤ left allotment mapBalances key := by
  intro vin
  induction vin with
  | nil =>
    intro mapBalances ok h hbacked
    cases h
    exact ⟨hbacked, by simp, fun key ↦ by simp [exactSum]⟩
  | cons txin vin ih =>
    intro mapBalances ok h hbacked
    rw [takeInputs] at h
    rcases hfirst : takeInput allotment mapBalances txin with ⟨_ | _, mapBalances₁⟩ <;>
      rw [hfirst] at h
    · cases h
      obtain rfl := takeInput_false hfirst
      exact ⟨hbacked, by simp, fun key ↦ by simp⟩
    · obtain ⟨hbacked₁, hthere⟩ := hbacked.takeInput hfirst
      obtain ⟨hbacked', hthere', hleft⟩ := ih h hbacked₁
      refine ⟨hbacked', fun hok ↦ List.forall_mem_cons.mpr ⟨hthere, hthere' hok⟩, fun key ↦ ?_⟩
      have hfirst' := left_takeInput hfirst key
      have hrest := hleft key
      split_ifs at hrest ⊢ with hok
      · rw [List.filter_cons]
        by_cases hkey : txin.pubKey = key
        · rw [if_pos hkey] at hfirst'
          rw [if_pos (beq_iff_eq.mpr hkey), List.map_cons, exactSum_cons]
          omega
        · rw [if_neg hkey] at hfirst'
          rw [if_neg (mt beq_iff_eq.mp hkey)]
          omega
      · split_ifs at hfirst' <;> omega

end Allowance

end Cryptonite
