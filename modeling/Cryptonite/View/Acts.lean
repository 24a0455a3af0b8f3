import Cryptonite.View.Supply
import Cryptonite.View.Trace

/-!
# What a block says about one account

To one account a block is a list of payments and withdrawals, its acts. It does not matter which
transactions they belong to, but for the limit that a transaction sets. `Course` is a list of acts
that are all made, and a trace is a course of the acts among its moves (`Trace.course`).

A withdrawal of the last coin removes the account, and the next payment makes it anew, without
limits. So an account can have several lives in one block. If it has only one, it keeps its limits
as the withdrawals leave them (`Course.limits_of_lasting`), and otherwise only the limits set in the
last of its lives count (`Course.limits_of_lastLife`).
-/

namespace Cryptonite

open AccountData

def Transaction.newLimit (tx : Transaction) : Option UInt64 :=
  if tx.fSetLimit then some tx.nLimitValue else none

/-- A payment to an account or a withdrawal from it. -/
inductive Act where
  | pay (nValue : UInt64)
  /-- A withdrawal, and the limit that its transaction sets. -/
  | take (newLimit : Option UInt64) (nValue : UInt64)

def Move.act (k : UInt160) : Move → Option Act
  | .check _ _ => none
  | .withdraw tx txin => if txin.pubKey = k then some (.take tx.newLimit txin.nValue) else none
  | .deposit txout => if txout.pubKey = k then some (.pay txout.nValue) else none

def Block.acts (block : Block) (k : UInt160) : List Act := block.moves.filterMap (Move.act k)

namespace Act

def paid : List Act → ℕ
  | [] => 0
  | .pay nValue :: acts => nValue.toNat + paid acts
  | .take _ _ :: acts => paid acts

def taken : List Act → ℕ
  | [] => 0
  | .pay _ :: acts => taken acts
  | .take _ nValue :: acts => nValue.toNat + taken acts

/-- The withdrawals, of each the limit it sets. -/
def limits : List Act → List (Option UInt64)
  | [] => []
  | .pay _ :: acts => limits acts
  | .take newLimit _ :: acts => newLimit :: limits acts

/-- The last act is a withdrawal. -/
def EndsTaking (acts : List Act) : Prop :=
  ∃ newLimit nValue, acts.getLast? = some (.take newLimit nValue)

/-- The acts after the last withdrawal that leaves nothing, if there is one, in an account that
starts with the balance `b`. -/
def lastLife : UInt64 → List Act → Option (List Act)
  | _, [] => none
  | b, .pay nValue :: acts => lastLife (b + nValue) acts
  | b, .take _ nValue :: acts =>
    (lastLife (b - nValue) acts).or (if nValue = b then some acts else none)

theorem taken_eq_zero : ∀ {acts : List Act}, limits acts = [] → taken acts = 0 := by
  intro acts
  induction acts with
  | nil => exact fun _ ↦ rfl
  | cons act acts ih =>
    rcases act with nValue | ⟨x, nValue⟩
    · exact ih
    · exact fun h ↦ absurd h (List.cons_ne_nil _ _)

theorem limits_of_lastLife : ∀ {acts rest : List Act} {b : UInt64},
    lastLife b acts = some rest → ∃ x xs, limits acts = x :: (xs ++ limits rest) := by
  intro acts
  induction acts with
  | nil => exact fun h ↦ absurd h (by simp [lastLife])
  | cons act acts ih =>
    intro rest b h
    rcases act with nValue | ⟨x, nValue⟩
    · exact ih h
    · rcases Option.or_eq_some_iff.mp h with h | ⟨-, h⟩
      · obtain ⟨y, ys, hys⟩ := ih h
        exact ⟨x, y :: ys, by rw [limits, hys, List.cons_append]⟩
      · obtain rfl := Option.some.inj (Option.ite_none_right_eq_some.mp h).2
        exact ⟨x, [], rfl⟩

end Act

/-! ## Limits -/

/-- The least of a limit and those that are set. -/
def lowest (limit : UInt64) (xs : List (Option UInt64)) : UInt64 :=
  xs.foldl (fun limit x ↦ x.elim limit (min limit)) limit

/-- The limit that is announced in the end. -/
def latest (limit : UInt64) (xs : List (Option UInt64)) : UInt64 :=
  xs.foldl (fun limit x ↦ x.getD limit) limit

theorem min_eq_ite (l f : UInt64) : min l f = if f < l then f else l := by
  rw [Std.min_eq_if]
  by_cases h : f < l
  · rw [if_pos h, if_neg (UInt64.not_le.mpr h)]
  · rw [if_neg h, if_pos (UInt64.not_lt.mp h)]

theorem le_lowest_iff {v : UInt64} : ∀ {xs : List (Option UInt64)} {limit : UInt64},
    v ≤ lowest limit xs ↔ v ≤ limit ∧ ∀ y, some y ∈ xs → v ≤ y := by
  intro xs
  induction xs with
  | nil => simp [lowest]
  | cons x xs ih =>
    intro limit
    rw [lowest, List.foldl_cons, ← lowest, ih]
    rcases x with _ | y
    · simp
    · simp only [Option.elim_some, Std.le_min_iff, List.mem_cons, forall_eq_or_imp, and_assoc,
        Option.some_inj]

theorem lowest_le_iff {v : UInt64} : ∀ {xs : List (Option UInt64)} {limit : UInt64},
    lowest limit xs ≤ v ↔ limit ≤ v ∨ ∃ y, some y ∈ xs ∧ y ≤ v := by
  intro xs
  induction xs with
  | nil => simp [lowest]
  | cons x xs ih =>
    intro limit
    rw [lowest, List.foldl_cons, ← lowest, ih]
    rcases x with _ | y
    · simp
    · simp only [Option.elim_some, Std.min_le, List.mem_cons, Option.some_inj, or_and_right,
        exists_or, exists_eq_left, or_assoc]

theorem lowest_le_latest : ∀ {xs : List (Option UInt64)} {limit futureLimit : UInt64},
    limit ≤ futureLimit → lowest limit xs ≤ latest futureLimit xs := by
  intro xs
  induction xs with
  | nil => exact id
  | cons x xs ih =>
    intro limit futureLimit h
    rcases x with _ | y
    · exact ih h
    · exact ih Std.min_le_right

theorem latest_append (limit : UInt64) (xs ys : List (Option UInt64)) :
    latest limit (xs ++ ys) = latest (latest limit xs) ys := List.foldl_append

/-- If a limit is set, it does not matter which was announced before. -/
theorem latest_eq {xs : List (Option UInt64)} {y : UInt64} (hmem : some y ∈ xs)
    (limit limit' : UInt64) : latest limit xs = latest limit' xs := by
  induction xs generalizing limit limit' with
  | nil => exact absurd hmem List.not_mem_nil
  | cons x xs ih =>
    rcases x with _ | z
    · exact ih (List.mem_of_ne_of_mem (Option.some_ne_none y) hmem) _ _
    · rfl

theorem latest_of_forall_none {xs : List (Option UInt64)} (h : ∀ x ∈ xs, x = none)
    (limit : UInt64) : latest limit xs = limit := by
  induction xs with
  | nil => rfl
  | cons x xs ih =>
    rw [List.forall_mem_cons] at h
    rw [latest, List.foldl_cons, h.1, ← latest]
    exact ih h.2

theorem lowest_of_forall_none {xs : List (Option UInt64)} (h : ∀ x ∈ xs, x = none)
    (limit : UInt64) : lowest limit xs = limit := by
  induction xs with
  | nil => rfl
  | cons x xs ih =>
    rw [List.forall_mem_cons] at h
    rw [lowest, List.foldl_cons, h.1, ← lowest]
    exact ih h.2

/-! ## Courses -/

/-- `afterWithdrawal`, of the limit that is set. -/
def AccountData.withdrawn (a : AccountData) (nHeight : UInt64) (newLimit : Option UInt64)
    (nValue : UInt64) : AccountData :=
  let limit := if nHeight - a.age > MIN_LIMIT_TIME then a.futureLimit else a.limit
  { age := nHeight
    balance := a.balance - nValue
    limit := newLimit.elim limit (min limit)
    futureLimit := newLimit.getD a.futureLimit }

theorem afterWithdrawal_eq (a : AccountData) (nHeight : UInt64) (tx : Transaction)
    (nValue : UInt64) :
    a.afterWithdrawal nHeight tx nValue = a.withdrawn nHeight tx.newLimit nValue := by
  by_cases hset : tx.fSetLimit = true
  · simp [afterWithdrawal, withdrawn, Transaction.newLimit, hset, min_eq_ite]
  · simp [afterWithdrawal, withdrawn, Transaction.newLimit, hset]

theorem keep_eq_none_iff {a : AccountData} : a.keep = none ↔ a.balance = 0 := by
  rw [← balanceOf_keep a]
  constructor
  · intro h
    rw [h, balanceOf]
  · intro h
    rcases hkeep : a.keep with _ | a'
    · rfl
    · obtain ⟨hpos, rfl⟩ := keep_eq_some_iff.mp hkeep
      rw [hkeep, balanceOf] at h
      exact absurd hpos (by rw [h]; exact UInt64.lt_irrefl 0)

/-- What acts that are all made do to an account. -/
inductive Course (nHeight : UInt64) : Option AccountData → List Act → Option AccountData → Prop
  | nil {o : Option AccountData} : Course nHeight o [] o
  | pay {o o' : Option AccountData} {nValue : UInt64} {acts : List Act}
      (hrest : Course nHeight (some (afterDeposit nHeight nValue o)) acts o') :
      Course nHeight o (.pay nValue :: acts) o'
  | take {a : AccountData} {o' : Option AccountData} {newLimit : Option UInt64} {nValue : UInt64}
      {acts : List Act} (hle : nValue ≤ a.balance)
      (hrest : Course nHeight (a.withdrawn nHeight newLimit nValue).keep acts o') :
      Course nHeight (some a) (.take newLimit nValue :: acts) o'

section Course

variable {nHeight : UInt64} {k : UInt160} {o o' : Option AccountData} {acts rest : List Act}
  {a a' : AccountData}

theorem Trace.course {mvs : List Move} (h : Trace nHeight k o mvs o') :
    Course nHeight o (mvs.filterMap (Move.act k)) o' := by
  induction h with
  | nil => exact .nil
  | @cons o o₁ o' mv mvs heffect _ ih =>
    rcases heffect with hkey | @⟨a, tx, txin, hkey, hle⟩ | @⟨o, txout, hkey⟩
    · have hact : mv.act k = none := by
        rcases mv with ⟨i, tx⟩ | ⟨tx, txin⟩ | txout
        · rfl
        · exact if_neg fun hk ↦ hkey (congrArg some hk)
        · exact if_neg fun hk ↦ hkey (congrArg some hk)
      rwa [List.filterMap_cons_none hact]
    · have hact : Move.act k (.withdraw tx txin) = some (.take tx.newLimit txin.nValue) :=
        if_pos hkey
      rw [afterWithdrawal_eq] at ih
      rw [List.filterMap_cons_some hact]
      exact .take hle ih
    · have hact : Move.act k (.deposit txout) = some (.pay txout.nValue) := if_pos hkey
      rw [List.filterMap_cons_some hact]
      exact .pay ih

theorem Course.eq_of_nil (h : Course nHeight o [] o') : o' = o := by
  cases h
  rfl

theorem Course.balance (h : Course nHeight o acts o') :
    (balanceOf o').toNat + Act.taken acts ≡ (balanceOf o).toNat + Act.paid acts [MOD 2 ^ 64] := by
  induction h with
  | nil => rfl
  | @pay o o' nValue acts _ ih =>
    rw [balanceOf_afterDeposit, UInt64.toNat_add] at ih
    rw [Act.paid, ← Nat.add_assoc]
    exact ih.trans ((Nat.mod_modEq _ _).add_right _)
  | @take a o' newLimit nValue acts hle _ ih =>
    have hkept : (balanceOf (a.withdrawn nHeight newLimit nValue).keep).toNat
        = a.balance.toNat - nValue.toNat := by
      rw [balanceOf_keep]
      exact UInt64.toNat_sub_of_le _ _ hle
    rw [hkept] at ih
    rw [UInt64.le_iff_toNat_le] at hle
    have htake := ih.add_right nValue.toNat
    rw [Act.taken, Act.paid, balanceOf]
    convert htake using 1
    · omega
    · omega

theorem Act.endsTaking_cons_cons {act act' : Act} :
    EndsTaking (act :: act' :: acts) ↔ EndsTaking (act' :: acts) := by
  rw [EndsTaking, EndsTaking, List.getLast?_cons_cons]

/-- An account is gone in the end if the last act takes what is left. -/
theorem Course.eq_none_iff (h : Course nHeight o acts o') (hne : acts ≠ []) :
    o' = none ↔ Act.EndsTaking acts ∧ (balanceOf o').toNat = 0 := by
  induction h with
  | nil => exact absurd rfl hne
  | @pay o o' nValue acts hrest ih =>
    rcases acts with _ | ⟨act, acts⟩
    · rw [hrest.eq_of_nil]
      simp [Act.EndsTaking]
    · rw [Act.endsTaking_cons_cons]
      exact ih (List.cons_ne_nil _ _)
  | @take a o' newLimit nValue acts hle hrest ih =>
    rcases acts with _ | ⟨act, acts⟩
    · rw [hrest.eq_of_nil, keep_eq_none_iff, balanceOf_keep, ← UInt64.toNat_inj]
      simp [Act.EndsTaking]
    · rw [Act.endsTaking_cons_cons]
      exact ih (List.cons_ne_nil _ _)

theorem keep_withdrawn {newLimit : Option UInt64} {nValue : UInt64} (hle : nValue ≤ a.balance)
    (hne : nValue ≠ a.balance) :
    (a.withdrawn nHeight newLimit nValue).keep = some (a.withdrawn nHeight newLimit nValue) := by
  rw [keep_eq_some_iff]
  have hlt := UInt64.lt_of_le_of_ne hle hne
  refine ⟨?_, rfl⟩
  rw [UInt64.lt_iff_toNat_lt] at hlt ⊢
  rw [withdrawn, UInt64.toNat_sub_of_le _ _ hle]
  exact Nat.sub_pos_of_lt hlt

/-- An account that has been withdrawn from at this height, and is not emptied: its limit is lowered
to the limits that are set. -/
theorem Course.limits_of_age (h : Course nHeight (some a) acts o')
    (hlife : Act.lastLife a.balance acts = none) (hage : a.age = nHeight) :
    ∃ b, o' = some { a with
      balance := b, limit := lowest a.limit (Act.limits acts)
      futureLimit := latest a.futureLimit (Act.limits acts) } := by
  generalize ho : some a = o at h
  induction h generalizing a with
  | nil =>
    subst ho
    exact ⟨a.balance, rfl⟩
  | @pay _ _ nValue _ _ ih =>
    subst ho
    exact @ih { a with balance := a.balance + nValue } hlife hage rfl
  | @take a₁ o' newLimit nValue acts hle _ ih =>
    obtain rfl := Option.some.inj ho
    obtain ⟨hlater, hnot⟩ := Option.or_eq_none_iff.mp hlife
    have hne : nValue ≠ a.balance := fun heq ↦ by simp [heq] at hnot
    have hnow : ¬nHeight - nHeight > MIN_LIMIT_TIME := by
      rw [UInt64.sub_self]
      decide
    obtain ⟨b, hb⟩ := ih hlater rfl (keep_withdrawn hle hne).symm
    refine ⟨b, hb.trans ?_⟩
    simp only [withdrawn, hage, if_neg hnow, Act.limits]
    rfl

/-- **One life.** The first withdrawal brings the limit that has waited long enough into force. -/
theorem Course.limits_of_lasting (h : Course nHeight (some a) acts o')
    (hlife : Act.lastLife a.balance acts = none) {x : Option UInt64} {xs : List (Option UInt64)}
    (hlimits : Act.limits acts = x :: xs) : ∃ b, o' = some { a.withdrawn nHeight x 0 with
      balance := b, limit := lowest (a.withdrawn nHeight x 0).limit xs
      futureLimit := latest (a.withdrawn nHeight x 0).futureLimit xs } := by
  generalize ho : some a = o at h
  induction h generalizing a with
  | nil => exact absurd hlimits (by simp [Act.limits])
  | @pay _ _ nValue _ _ ih =>
    subst ho
    exact @ih { a with balance := a.balance + nValue } hlife hlimits rfl
  | @take a₁ o' newLimit nValue acts hle hrest _ =>
    obtain rfl := Option.some.inj ho
    obtain ⟨rfl, rfl⟩ := List.cons.inj hlimits
    obtain ⟨hlater, hnot⟩ := Option.or_eq_none_iff.mp hlife
    rw [keep_withdrawn hle fun heq ↦ by simp [heq] at hnot] at hrest
    exact hrest.limits_of_age hlater rfl

theorem Course.limits_of_none (h : Course nHeight none acts (some a'))
    (hlife : Act.lastLife 0 acts = none) :
    a'.age = nHeight ∧ a'.limit = lowest init.limit (Act.limits acts) ∧
      a'.futureLimit = latest init.futureLimit (Act.limits acts) := by
  generalize ho' : some a' = o' at h
  rcases h with _ | hrest
  · cases ho'
  · obtain ⟨b, hb⟩ := hrest.limits_of_age hlife rfl
    obtain rfl := Option.some.inj (ho'.trans hb)
    exact ⟨rfl, rfl, rfl⟩

/-- **Several lives.** Of the limits only those count that are set in the last life. -/
theorem Course.limits_of_lastLife (h : Course nHeight o acts (some a'))
    (hlife : Act.lastLife (balanceOf o) acts = some rest) :
    a'.age = nHeight ∧ a'.limit = lowest init.limit (Act.limits rest) ∧
      a'.futureLimit = latest init.futureLimit (Act.limits rest) := by
  generalize ho' : some a' = o' at h
  induction h with
  | nil => exact absurd hlife (by simp [Act.lastLife])
  | pay _ ih =>
    rw [balanceOf_afterDeposit] at ih
    exact ih hlife ho'
  | @take a o' newLimit nValue acts hle hrest ih =>
    rw [balanceOf_keep] at ih
    rcases Option.or_eq_some_iff.mp hlife with hlife | ⟨hnone, hlife⟩
    · exact ih hlife ho'
    · obtain ⟨rfl, hrest'⟩ := Option.ite_none_right_eq_some.mp hlife
      obtain rfl := Option.some.inj hrest'
      have hzero : (a.withdrawn nHeight newLimit a.balance).balance = 0 := UInt64.sub_self _
      subst ho'
      rw [balanceOf, keep_eq_none_iff.mpr hzero] at hrest
      rw [UInt64.sub_self] at hnone
      exact hrest.limits_of_none hnone

end Course

end Cryptonite
