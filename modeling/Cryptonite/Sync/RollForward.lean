import Cryptonite.Core.Merkle
import Cryptonite.Sync.Build
import Cryptonite.View.Acts

/-!
# Winding accounts forward

`TrieSync::ApplyTransactions` brings a map of accounts from one block to the next. It is a second
implementation of what `TempApply` does to the trie, and a simpler one: it makes all payments of the
block before all withdrawals, gives a new account the age zero, keeps the limits of an account that
is emptied and made anew, and leaves out the checks.

Like `TempApply` it treats every account by itself, and `Act.wind_eq_iff` says for one account when
the two come to the same: `RollsForward`. Of the accounts that are only paid, those fail that the
block makes, since their age is left out. Of those that are withdrawn from, most pass. The balance
can go wrong by an overflow, or by a last payment of nothing; the limits, if one is set that is
above the announced one when that has just come into force, or if the account is made anew.
-/

namespace Cryptonite

open AccountTable AccountData

/-! ## One account -/

/-- `afterDebit`, of the limit that is set. -/
def AccountData.debited (ad : AccountData) (nHeight : UInt64) (newLimit : Option UInt64)
    (nValue : UInt64) : AccountData :=
  let futureLimit := newLimit.getD ad.futureLimit
  { age := nHeight
    balance := ad.balance - nValue
    limit := if nHeight - ad.age > MIN_LIMIT_TIME then futureLimit else min ad.limit futureLimit
    futureLimit }

theorem afterDebit_eq (ad : AccountData) (nHeight : UInt64) (tx : Transaction) (nValue : UInt64) :
    ad.afterDebit nHeight tx nValue = ad.debited nHeight tx.newLimit nValue := by
  have hannounced : (if tx.fSetLimit then { ad with futureLimit := tx.nLimitValue } else ad)
      = { ad with futureLimit := tx.newLimit.getD ad.futureLimit } := by
    rw [Transaction.newLimit]
    split <;> rfl
  rw [afterDebit, hannounced, debited, min_eq_ite]
  dsimp only
  by_cases hlow : tx.newLimit.getD ad.futureLimit < ad.limit
  · rw [if_pos hlow, if_pos hlow]
    split <;> simp_all
  · rw [if_neg hlow, if_neg hlow]
    split <;> simp_all

namespace Act

/-- What the first loop of `ApplyTransactions` makes of an entry. -/
def credit (o : Option AccountData) : Act → Option AccountData
  | .pay nValue =>
    let ad := o.getD AccountData.init
    some { ad with balance := ad.balance + nValue }
  | .take _ _ => o

/-- What the second loop makes of it. -/
def debit (nHeight : UInt64) (o : Option AccountData) : Act → Option AccountData
  | .pay _ => o
  | .take newLimit nValue => o.bind fun ad ↦
    if nValue ≥ ad.balance then none else some (ad.debited nHeight newLimit nValue)

def wind (nHeight : UInt64) (acts : List Act) (o : Option AccountData) : Option AccountData :=
  acts.foldl (debit nHeight) (acts.foldl credit o)

end Act

/-- What a move makes of the account `k`, if `f` is what its act makes of it. -/
def Move.on (k : UInt160) (f : Option AccountData → Act → Option AccountData)
    (o : Option AccountData) (mv : Move) : Option AccountData := (mv.act k).elim o (f o)

section OneAccount

variable {nHeight : UInt64} {k : UInt160}

theorem foldl_on (f : Option AccountData → Act → Option AccountData) (mvs : List Move)
    (o : Option AccountData) :
    (mvs.filterMap (Move.act k)).foldl f o = mvs.foldl (Move.on k f) o := by
  rw [List.foldl_filterMap]
  congr 1
  funext o mv
  rw [Move.on]
  rcases mv.act k with _ | act <;> rfl

theorem toMap_creditOutput (data : AccountTable) (txout : TxOut) : toMap (creditOutput data txout) k
      = Move.on k Act.credit (toMap data k) (.deposit txout) := by
  rw [creditOutput, toMap_insert, Move.on, Move.act]
  split
  · next h =>
    subst h
    rw [Function.update_self]
    rfl
  · next h =>
    rw [Function.update_of_ne (Ne.symm h)]
    rfl

theorem toMap_debitInput (tx : Transaction) (data : AccountTable) (txin : TxIn) :
    toMap (debitInput nHeight tx data txin) k
      = Move.on k (Act.debit nHeight) (toMap data k) (.withdraw tx txin) := by
  have hset (v : Option AccountData) : Function.update (toMap data) txin.pubKey v k
      = if txin.pubKey = k then v else toMap data k := by
    rw [Function.update_apply]
    simp only [eq_comm]
  rw [debitInput, Move.on, Move.act]
  by_cases hkey : txin.pubKey = k
  · rw [if_pos hkey, Option.elim_some, Act.debit]
    rcases had : data[txin.pubKey]? with _ | ad
    · rw [toMap, ← hkey, had, Option.bind_none]
    · have hentry : toMap data k = some ad := by rw [toMap, ← hkey, had]
      dsimp only
      rw [hentry, Option.bind_some]
      split
      · rw [toMap_erase, hset, if_pos hkey]
      · rw [toMap_insert, hset, if_pos hkey, afterDebit_eq]
  · rw [if_neg hkey, Option.elim_none]
    split
    · rfl
    · split
      · rw [toMap_erase, hset, if_neg hkey]
      · rw [toMap_insert, hset, if_neg hkey]

theorem toMap_creditOutputs (i : ℕ) (tx : Transaction) (data : AccountTable) :
    toMap (tx.vout.foldl creditOutput data) k
      = (txMoves i tx).foldl (Move.on k Act.credit) (toMap data k) := by
  have hvin (o : Option AccountData) :
      (tx.vin.map (Move.withdraw tx)).foldl (Move.on k Act.credit) o = o := by
    rw [List.foldl_map]
    refine List.foldl_fixed' (fun txin ↦ ?_) tx.vin
    rw [Move.on, Move.act]
    split <;> rfl
  rw [txMoves, List.foldl_cons, List.foldl_append, hvin, List.foldl_map]
  exact (List.foldl_hom (fun data ↦ toMap data k)
    fun data txout ↦ (toMap_creditOutput data txout).symm).symm

theorem toMap_debitInputs (i : ℕ) (tx : Transaction) (data : AccountTable) :
    toMap (tx.vin.foldl (debitInput nHeight tx) data) k
      = (txMoves i tx).foldl (Move.on k (Act.debit nHeight)) (toMap data k) := by
  have hvout (o : Option AccountData) :
      (tx.vout.map Move.deposit).foldl (Move.on k (Act.debit nHeight)) o = o := by
    rw [List.foldl_map]
    refine List.foldl_fixed' (fun txout ↦ ?_) tx.vout
    rw [Move.on, Move.act]
    split <;> rfl
  rw [txMoves, List.foldl_cons, List.foldl_append, hvout, List.foldl_map]
  exact (List.foldl_hom (fun data ↦ toMap data k)
    fun data txin ↦ (toMap_debitInput tx data txin).symm).symm

theorem toMap_foldl {step : AccountTable → Transaction → AccountTable}
    {f : Option AccountData → Act → Option AccountData} (hstep : ∀ i tx data,
      toMap (step data tx) k = (txMoves i tx).foldl (Move.on k f) (toMap data k)) :
    ∀ (vtx : List Transaction) (i : ℕ) (data : AccountTable), toMap (vtx.foldl step data) k
      = (movesFrom i vtx).foldl (Move.on k f) (toMap data k) := by
  intro vtx
  induction vtx with
  | nil => exact fun _ _ ↦ rfl
  | cons tx vtx ih =>
    intro i data
    rw [List.foldl_cons, ih (i + 1), hstep i, movesFrom, List.foldl_append]

/-- `ApplyTransactions` treats every account by itself: all payments, then all withdrawals. -/
theorem toMap_applyTransactions (data : AccountTable) (block : Block) (k : UInt160) :
    toMap (applyTransactions data block) k
      = Act.wind block.nHeight (block.acts k) (toMap data k) := by
  rw [applyTransactions, toMap_foldl toMap_debitInputs block.vtx 0,
    toMap_foldl toMap_creditOutputs block.vtx 0, Act.wind, Block.acts, foldl_on, foldl_on,
    Block.moves]

end OneAccount

/-! ## The two loops -/

namespace Act

variable {nHeight : UInt64} {acts : List Act} {o o' : Option AccountData} {a ad : AccountData}

theorem foldl_credit_some : ∀ (acts : List Act) (a : AccountData), acts.foldl credit (some a)
    = some { a with balance := a.balance + .ofNat (paid acts) } := by
  intro acts
  induction acts with
  | nil =>
    intro a
    simp [paid]
  | cons act acts ih =>
    intro a
    rcases act with nValue | ⟨x, nValue⟩
    · rw [List.foldl_cons, credit, ih, paid, UInt64.ofNat_add, UInt64.ofNat_toNat]
      simp only [Option.getD_some, UInt64.add_assoc]
    · exact ih a

/-- The first loop, on an account that stands the course. -/
theorem foldl_credit (h : Course nHeight o acts o') (hne : acts ≠ []) : acts.foldl credit o
    = some { o.getD init with balance := balanceOf o + .ofNat (paid acts) } := by
  rcases o with _ | a
  · rcases acts with _ | ⟨nValue | _, acts⟩
    · exact absurd rfl hne
    · exact foldl_credit_some (.pay nValue :: acts) init
    · cases h
  · exact foldl_credit_some acts a

@[simp] theorem foldl_debit_none (nHeight : UInt64) :
    ∀ acts : List Act, acts.foldl (debit nHeight) none = none := by
  intro acts
  induction acts with
  | nil => rfl
  | cons act acts ih => rcases act with _ | _ <;> exact ih

theorem foldl_debit_of_limits_nil : ∀ {acts : List Act}, limits acts = [] →
    ∀ o, acts.foldl (debit nHeight) o = o := by
  intro acts
  induction acts with
  | nil => exact fun _ _ ↦ rfl
  | cons act acts ih =>
    rcases act with nValue | ⟨x, nValue⟩
    · exact ih
    · exact fun h ↦ absurd h (List.cons_ne_nil _ _)

theorem foldl_debit_of_le : ∀ {acts : List Act} {ad : AccountData}, limits acts ≠ [] →
    ad.balance.toNat ≤ taken acts → acts.foldl (debit nHeight) (some ad) = none := by
  intro acts
  induction acts with
  | nil => exact fun h ↦ absurd rfl h
  | cons act acts ih =>
    intro ad hne hle
    rcases act with nValue | ⟨x, nValue⟩
    · exact ih hne hle
    · rw [List.foldl_cons, debit, Option.bind_some]
      split
      · exact foldl_debit_none nHeight acts
      · next hlt =>
        rw [ge_iff_le, UInt64.not_le] at hlt
        rw [taken] at hle
        have hbalance : (ad.debited nHeight x nValue).balance.toNat
            = ad.balance.toNat - nValue.toNat :=
          UInt64.toNat_sub_of_le _ _ (UInt64.le_of_lt hlt)
        rw [UInt64.lt_iff_toNat_lt] at hlt
        refine ih (fun hnil ↦ ?_) (by omega)
        rw [taken_eq_zero hnil] at hle
        omega

theorem limit_debited_le (ad : AccountData) (x : Option UInt64) (nValue : UInt64) :
    (ad.debited nHeight x nValue).limit ≤ (ad.debited nHeight x nValue).futureLimit := by
  rw [debited]
  dsimp only
  split
  · exact UInt64.le_refl _
  · exact Std.min_le_right

theorem foldl_debit_take {x : Option UInt64} {nValue : UInt64}
    (h : taken (.take x nValue :: acts) < ad.balance.toNat) :
    (Act.take x nValue :: acts).foldl (debit nHeight) (some ad)
      = acts.foldl (debit nHeight) (some (ad.debited nHeight x nValue)) ∧
    (ad.debited nHeight x nValue).balance.toNat + nValue.toNat = ad.balance.toNat := by
  rw [taken] at h
  have hlt : nValue < ad.balance := UInt64.lt_iff_toNat_lt.mpr (by omega)
  have hrest : (ad.debited nHeight x nValue).balance.toNat = ad.balance.toNat - nValue.toNat :=
    UInt64.toNat_sub_of_le _ _ (UInt64.le_of_lt hlt)
  rw [List.foldl_cons, debit, Option.bind_some, if_neg (UInt64.not_le.mpr hlt)]
  exact ⟨rfl, by omega⟩

/-- An entry that has been withdrawn from at this height: its limit is lowered to those set. -/
theorem foldl_debit_of_age : ∀ {acts : List Act} {ad : AccountData},
    taken acts < ad.balance.toNat → ad.age = nHeight → ad.limit ≤ ad.futureLimit →
    ∃ b : UInt64, b.toNat + taken acts = ad.balance.toNat ∧
      acts.foldl (debit nHeight) (some ad) = some { ad with
        balance := b, limit := lowest ad.limit (limits acts)
        futureLimit := latest ad.futureLimit (limits acts) } := by
  intro acts
  induction acts with
  | nil => exact fun {ad} _ _ _ ↦ ⟨ad.balance, rfl, rfl⟩
  | cons act acts ih =>
    intro ad hlt hage hle
    rcases act with nValue | ⟨x, nValue⟩
    · exact ih hlt hage hle
    · obtain ⟨htake, hbalance⟩ := @foldl_debit_take nHeight acts ad x nValue hlt
      rw [taken] at hlt ⊢
      have hnow : ¬nHeight - nHeight > MIN_LIMIT_TIME := by
        rw [UInt64.sub_self]
        decide
      have hlimit : (ad.debited nHeight x nValue).limit = x.elim ad.limit (min ad.limit) := by
        rw [debited, hage]
        dsimp only
        rw [if_neg hnow]
        rcases x with _ | y
        · exact (min_eq_ite _ _).trans (if_neg (UInt64.not_lt.mpr hle))
        · rfl
      obtain ⟨b, hb, hfold⟩ := ih (by omega) rfl (limit_debited_le ad x nValue)
      refine ⟨b, by omega, ?_⟩
      rw [htake, hfold, hlimit, hage]
      rfl

/-- The second loop: the first withdrawal finds the age of the entry. -/
theorem foldl_debit_of_lt {x : Option UInt64} {xs : List (Option UInt64)} :
    ∀ {acts : List Act}, limits acts = x :: xs → taken acts < ad.balance.toNat →
    ∃ b : UInt64, b.toNat + taken acts = ad.balance.toNat ∧
      acts.foldl (debit nHeight) (some ad) = some { ad.debited nHeight x 0 with
        balance := b, limit := lowest (ad.debited nHeight x 0).limit xs
        futureLimit := latest (ad.debited nHeight x 0).futureLimit xs } := by
  intro acts
  induction acts with
  | nil => exact fun h ↦ absurd h (by simp [limits])
  | cons act acts ih =>
    intro hlimits hlt
    rcases act with nValue | ⟨y, nValue⟩
    · exact ih hlimits hlt
    · obtain ⟨rfl, rfl⟩ := List.cons.inj hlimits
      obtain ⟨htake, hbalance⟩ := @foldl_debit_take nHeight acts ad y nValue hlt
      rw [taken] at hlt ⊢
      obtain ⟨b, hb, hfold⟩ := @foldl_debit_of_age nHeight acts (ad.debited nHeight y nValue)
        (by omega) rfl (limit_debited_le ad y nValue)
      refine ⟨b, by omega, ?_⟩
      rw [htake, hfold]
      rfl

end Act

/-! ## When they come to the same -/

/-- An announced limit has waited long enough to come into force. -/
def AccountData.Due (a : AccountData) (nHeight : UInt64) : Prop := nHeight - a.age > MIN_LIMIT_TIME

/-- The limits come out the same; `first` is what the first withdrawal sets. In an account that is
never emptied, this is so if a limit is set that is not above the announced one. If none is, then a
first withdrawal that sets a limit must not find the announced one due, and one that sets none must
find it due or not below the limit. If the account is made anew, then nothing set or found before
may be below what is set in the last life. -/
def LimitsFollow (nHeight : UInt64) (a : AccountData) (acts : List Act) (first : Option UInt64) :
    Prop :=
  match Act.lastLife a.balance acts with
  | none =>
    (∃ y, some y ∈ Act.limits acts ∧ y ≤ a.futureLimit) ∨
      if first.isSome then ¬a.Due nHeight else a.Due nHeight ∨ a.limit ≤ a.futureLimit
  | some rest =>
    let least := lowest init.limit (Act.limits rest)
    (∀ y, some y ∈ Act.limits acts → least ≤ y) ∧ (a.Due nHeight ∨ least ≤ a.limit) ∧
      (first.isSome = true ∨ least ≤ a.futureLimit)

/-- What the acts on an account must be like for `ApplyTransactions` to follow `TempApply`. If there
are payments only, the account must be there already. If there are withdrawals, then either the last
act is one and takes the last coin, or less is taken in all than the account holds and is paid, and
the limits come out the same. -/
def RollsForward (nHeight : UInt64) (o : Option AccountData) (acts : List Act) : Prop :=
  match Act.limits acts with
  | [] => o = none → acts = [] ∨ nHeight = 0
  | first :: _ =>
    Act.EndsTaking acts ∧ (balanceOf o).toNat + Act.paid acts ≡ Act.taken acts [MOD 2 ^ 64] ∨
    Act.taken acts < ((balanceOf o).toNat + Act.paid acts) % 2 ^ 64 ∧
      LimitsFollow nHeight (o.getD init) acts first

section Limits

variable {nHeight : UInt64} {a a' : AccountData} {o : Option AccountData} {acts : List Act}
  {x : Option UInt64} {xs ys zs : List (Option UInt64)}

theorem lowest_eq_iff {l m f : UInt64} (hm : ∀ v, v ≤ m ↔ v ≤ l ∧ v ≤ f) :
    lowest m xs = lowest l xs ↔ l ≤ f ∨ ∃ y, some y ∈ xs ∧ y ≤ f := by
  rw [← lowest_le_iff]
  have hlow := le_lowest_iff.mp (UInt64.le_refl (lowest m xs))
  have hhigh := le_lowest_iff.mp (UInt64.le_refl (lowest l xs))
  constructor
  · intro h
    rw [h, hm] at hlow
    exact hlow.1.2
  · intro h
    refine UInt64.le_antisymm (le_lowest_iff.mpr ⟨((hm _).mp hlow.1).1, hlow.2⟩) ?_
    exact le_lowest_iff.mpr ⟨(hm _).mpr ⟨hhigh.1, h⟩, hhigh.2⟩

theorem limit_lasting_iff : lowest (a.debited nHeight x 0).limit xs
      = lowest (a.withdrawn nHeight x 0).limit xs ↔
    (∃ y, some y ∈ x :: xs ∧ y ≤ a.futureLimit) ∨
      if x.isSome then ¬a.Due nHeight else a.Due nHeight ∨ a.limit ≤ a.futureLimit := by
  rw [debited, withdrawn, Due]
  dsimp only
  by_cases hdue : nHeight - a.age > MIN_LIMIT_TIME
  · rw [if_pos hdue, if_pos hdue]
    rcases x with _ | y
    · simp [hdue]
    · rw [eq_comm]
      refine (lowest_eq_iff fun v ↦ Std.le_min_iff.trans and_comm).trans ?_
      simp [hdue, or_and_right, exists_or]
  · rw [if_neg hdue, if_neg hdue]
    rcases x with _ | y
    · refine (lowest_eq_iff fun v ↦ Std.le_min_iff).trans ?_
      simp [hdue, or_comm]
    · simp [hdue]

theorem le_init_limit (v : UInt64) : v ≤ init.limit := by
  rw [UInt64.le_iff_toNat_le]
  exact Nat.le_of_lt_succ v.toNat_lt

theorem le_limit_debited_iff {v : UInt64} : v ≤ (a.debited nHeight x 0).limit ↔
    (a.Due nHeight ∨ v ≤ a.limit) ∧ v ≤ x.getD a.futureLimit := by
  rw [debited, Due]
  dsimp only
  split
  · next hdue => simp [hdue]
  · next hdue => simp [hdue, Std.le_min_iff]

/-- In an account made anew the announced limit follows from the other. -/
theorem latest_anew {l f : UInt64} (hle : l ≤ f)
    (h : lowest l (ys ++ zs) = lowest init.limit zs) :
    latest f (ys ++ zs) = latest init.futureLimit zs := by
  by_cases hset : ∃ y, some y ∈ zs
  · obtain ⟨y, hy⟩ := hset
    rw [latest_append]
    exact latest_eq hy _ _
  · -- nothing is set in the last life, so there is no limit, and none is announced
    have hnone : ∀ z ∈ zs, z = none := fun z hz ↦
      Option.eq_none_iff_forall_ne_some.mpr fun y hy ↦ hset ⟨y, hy ▸ hz⟩
    have hfuture := @lowest_le_latest (ys ++ zs) _ _ hle
    rw [h, lowest_of_forall_none hnone] at hfuture
    rw [latest_of_forall_none hnone]
    exact UInt64.le_antisymm (le_init_limit _) hfuture

/-- The limits of an account made anew, in which `zs` are set in the end. -/
theorem limits_anew_iff : (lowest (a.debited nHeight x 0).limit (ys ++ zs) = lowest init.limit zs ∧
      latest (a.debited nHeight x 0).futureLimit (ys ++ zs) = latest init.futureLimit zs) ↔
    (∀ y, some y ∈ x :: (ys ++ zs) → lowest init.limit zs ≤ y) ∧
      (a.Due nHeight ∨ lowest init.limit zs ≤ a.limit) ∧
      (x.isSome = true ∨ lowest init.limit zs ≤ a.futureLimit) := by
  have hself := le_lowest_iff.mp
    (UInt64.le_refl (lowest (a.debited nHeight x 0).limit (ys ++ zs)))
  have hle : lowest (a.debited nHeight x 0).limit (ys ++ zs) ≤ lowest init.limit zs :=
    le_lowest_iff.mpr ⟨le_init_limit _, fun y hy ↦ hself.2 y (List.mem_append_right ys hy)⟩
  rw [and_iff_left_of_imp (latest_anew (Act.limit_debited_le a x 0))]
  constructor
  · intro h
    rw [h] at hself
    obtain ⟨hdue, hfuture⟩ := le_limit_debited_iff.mp hself.1
    rcases x with _ | y
    · exact ⟨fun z hz ↦ hself.2 z (by simpa using hz), hdue, .inr hfuture⟩
    · refine ⟨fun z hz ↦ ?_, hdue, .inl rfl⟩
      rcases List.mem_cons.mp hz with hz | hz
      · exact Option.some.inj hz ▸ hfuture
      · exact hself.2 z hz
  · rintro ⟨hall, hdue, hfuture⟩
    refine UInt64.le_antisymm hle (le_lowest_iff.mpr ⟨le_limit_debited_iff.mpr ⟨hdue, ?_⟩,
      fun y hy ↦ hall y (List.mem_cons_of_mem x hy)⟩)
    rcases x with _ | y
    · exact hfuture.resolve_left (by simp)
    · exact hall y List.mem_cons_self

/-- The limits of an account after a course, compared with those of its entry. -/
theorem limitsFollow_iff (h : Course nHeight o acts (some a'))
    (hlimits : Act.limits acts = x :: xs) : a'.age = nHeight ∧
    (lowest ((o.getD init).debited nHeight x 0).limit xs = a'.limit ∧
      latest ((o.getD init).debited nHeight x 0).futureLimit xs = a'.futureLimit ↔
        LimitsFollow nHeight (o.getD init) acts x) := by
  have hbalance : (o.getD init).balance = balanceOf o := by rcases o with _ | a <;> rfl
  rw [LimitsFollow, hbalance]
  rcases hlife : Act.lastLife (balanceOf o) acts with _ | rest
  · obtain ⟨hage, hlimit, hfuture⟩ : a'.age = nHeight ∧
        a'.limit = lowest ((o.getD init).withdrawn nHeight x 0).limit xs ∧
        a'.futureLimit = latest ((o.getD init).withdrawn nHeight x 0).futureLimit xs := by
      rcases o with _ | a
      · obtain ⟨hage, hlimit, hfuture⟩ := h.limits_of_none hlife
        rw [hlimits] at hlimit hfuture
        refine ⟨hage, hlimit.trans ?_, hfuture⟩
        rw [Option.getD_none, withdrawn, lowest, List.foldl_cons, lowest]
        congr 1
        split <;> rfl
      · obtain ⟨b, hb⟩ := h.limits_of_lasting hlife hlimits
        obtain rfl := Option.some.inj hb
        exact ⟨rfl, rfl, rfl⟩
    refine ⟨hage, ?_⟩
    rw [hlimit, hfuture, hlimits]
    exact (and_iff_left rfl).trans limit_lasting_iff
  · obtain ⟨hage, hlimit, hfuture⟩ := h.limits_of_lastLife hlife
    obtain ⟨y, ys, hys⟩ := Act.limits_of_lastLife hlife
    obtain ⟨rfl, rfl⟩ := List.cons.inj (hlimits.symm.trans hys)
    refine ⟨hage, ?_⟩
    rw [hlimit, hfuture, hlimits]
    exact limits_anew_iff

end Limits

namespace Act

variable {nHeight : UInt64} {acts : List Act} {o o' : Option AccountData} {a : AccountData}

theorem course_of_limits_nil (h : Course nHeight (some a) acts o') (hlimits : limits acts = []) :
    o' = acts.foldl credit (some a) := by
  generalize ho : some a = o at h
  induction h generalizing a with
  | nil => rfl
  | @pay _ _ nValue acts _ ih =>
    subst ho
    exact @ih { a with balance := a.balance + nValue } hlimits rfl
  | take => exact absurd hlimits (List.cons_ne_nil _ _)

theorem wind_eq_iff_of_limits_nil (h : Course nHeight o acts o') (hlimits : limits acts = []) :
    wind nHeight acts o = o' ↔ (o = none → acts = [] ∨ nHeight = 0) := by
  rw [wind, foldl_debit_of_limits_nil hlimits]
  rcases o with _ | a
  · rcases acts with _ | ⟨nValue | ⟨x, nValue⟩, acts⟩
    · simp [h.eq_of_nil]
    · rcases h with _ | hrest
      rw [course_of_limits_nil hrest hlimits, List.foldl_cons, credit, foldl_credit_some,
        foldl_credit_some, afterDeposit]
      simp only [Option.getD_none, Option.some_inj, AccountData.mk.injEq, List.cons_ne_nil,
        false_or, and_true, forall_const]
      exact eq_comm
    · exact absurd hlimits (List.cons_ne_nil _ _)
  · simp [course_of_limits_nil h hlimits]

/-- Whether the account is gone can be told from the amounts. -/
theorem eq_none_iff_of_course (h : Course nHeight o acts o') (hne : acts ≠ []) : o' = none ↔
    EndsTaking acts ∧ (balanceOf o).toNat + paid acts ≡ taken acts [MOD 2 ^ 64] := by
  have hbalance := h.balance
  rw [h.eq_none_iff hne]
  refine and_congr_right fun _ ↦ ⟨fun hzero ↦ ?_, fun htaken ↦ ?_⟩
  · rw [hzero, Nat.zero_add] at hbalance
    exact hbalance.symm
  · have hzero : (balanceOf o').toNat + taken acts ≡ 0 + taken acts [MOD 2 ^ 64] := by
      rw [Nat.zero_add]
      exact hbalance.trans htaken
    exact Nat.eq_zero_of_dvd_of_lt ((Nat.modEq_zero_iff_dvd).mp
      (Nat.ModEq.add_right_cancel' _ hzero)) (balanceOf o').toNat_lt

/-- **Roll-forward of one account.** On acts that `TempApply` makes, the two loops of
`ApplyTransactions` come to the same exactly if the acts roll forward. -/
theorem wind_eq_iff (h : Course nHeight o acts o') :
    wind nHeight acts o = o' ↔ RollsForward nHeight o acts := by
  rw [RollsForward]
  rcases hlimits : limits acts with _ | ⟨x, xs⟩
  · exact wind_eq_iff_of_limits_nil h hlimits
  have hne : acts ≠ [] := fun hnil ↦ by simp [hnil, limits] at hlimits
  dsimp only
  rw [wind, foldl_credit h hne]
  set total := (balanceOf o).toNat + paid acts with htotal
  have hentry : (balanceOf o + .ofNat (paid acts) : UInt64).toNat = total % 2 ^ 64 := by
    rw [UInt64.toNat_add, UInt64.toNat_ofNat', Nat.add_mod_mod]
  have hbalance : (balanceOf o').toNat + taken acts ≡ total [MOD 2 ^ 64] := h.balance
  have hgone := eq_none_iff_of_course h hne
  by_cases hlt : taken acts < total % 2 ^ 64
  · -- the entry stays, and so does the account
    have hnot : ¬(EndsTaking acts ∧ total ≡ taken acts [MOD 2 ^ 64]) := by
      rintro ⟨-, htaken⟩
      rw [Nat.ModEq, Nat.mod_eq_of_lt (hlt.trans (Nat.mod_lt _ (by decide)))] at htaken
      omega
    rw [or_iff_right hnot, and_iff_right hlt]
    rcases o' with _ | a'
    · exact absurd (hgone.mp rfl) hnot
    obtain ⟨b, hb, hfold⟩ := @foldl_debit_of_lt nHeight
      { o.getD init with balance := balanceOf o + .ofNat (paid acts) } x xs acts hlimits
      (by rw [hentry]; exact hlt)
    obtain ⟨hage, hfollow⟩ := limitsFollow_iff h hlimits
    have hsame : b = a'.balance := by
      rw [hentry] at hb
      have hmod : b.toNat ≡ a'.balance.toNat [MOD 2 ^ 64] := by
        refine Nat.ModEq.add_right_cancel' (taken acts) ?_
        rw [hb]
        exact (Nat.mod_modEq _ _).trans hbalance.symm
      rwa [Nat.ModEq, Nat.mod_eq_of_lt b.toNat_lt, Nat.mod_eq_of_lt a'.balance.toNat_lt,
        UInt64.toNat_inj] at hmod
    rw [hfold, ← hfollow, Option.some_inj]
    obtain ⟨age, balance, limit, futureLimit⟩ := a'
    obtain rfl : age = nHeight := hage
    obtain rfl : b = balance := hsame
    rw [AccountData.mk.injEq]
    exact ⟨fun h ↦ h.2.2, fun h ↦ ⟨rfl, rfl, h⟩⟩
  · -- the entry goes
    have hfold := @foldl_debit_of_le nHeight acts
      { o.getD init with balance := balanceOf o + .ofNat (paid acts) } (by simp [hlimits])
      (by rw [hentry]; exact not_lt.mp hlt)
    rw [hfold, eq_comm, hgone, or_iff_left fun h ↦ hlt h.1]

end Act

/-! ## A block -/

section Block

variable {H : List UInt8 → UInt256} {junk : ℕ → UInt64} {block : Block}
  {root root' : Option TrieNode} {undos : List TxUndo} {data : AccountTable}

theorem course_of_tempApply (hvalid : ValidRoot H root)
    (h : tempApply junk root block = .ok (true, root', undos)) (k : UInt160) :
    Course block.nHeight (accounts root k) (block.acts k) (accounts root' k) := by
  obtain ⟨ℓ, hℓ, haccts⟩ := exists_ledger_of_tempApply hvalid h
  rw [← haccts]
  exact (Ledger.trace k hℓ).course

/-- **Roll-forward.** On a table of all accounts, and on a block that `TempApply` accepts,
`ApplyTransactions` makes exactly the accounts of the trie after `TempApply`, if and only if the
acts of the block on every account roll forward. -/
theorem applyTransactions_eq_tempApply_iff (T : AccountTrie H)
    (hdata : AccountTable.toMap data = accounts T.root)
    (happly : tempApply junk T.root block = .ok (true, root', undos)) :
    AccountTable.toMap (applyTransactions data block) = accounts root' ↔
      ∀ k, RollsForward block.nHeight (accounts T.root k) (block.acts k) := by
  rw [funext_iff]
  refine forall_congr' fun k ↦ ?_
  rw [toMap_applyTransactions, hdata]
  exact Act.wind_eq_iff (course_of_tempApply T.valid happly k)

end Block

/-! ### A coinbase -/

theorem acts_mintBlock (nHeight nValue : UInt64) (key k : UInt160) :
    (mintBlock nHeight nValue key).acts k
      = (if 0 = k then [.take none nValue] else []) ++ if key = k then [.pay nValue] else [] := by
  have htake : Move.act k (.withdraw (mint nHeight nValue key) ⟨nValue, 0, []⟩)
      = if 0 = k then some (.take none nValue) else none := rfl
  have hpay : Move.act k (.deposit ⟨nValue, key⟩)
      = if key = k then some (.pay nValue) else none := rfl
  change [Move.check 0 _, .withdraw (mint nHeight nValue key) _, .deposit _].filterMap _ = _
  rw [List.filterMap_cons_none rfl, List.filterMap_cons, htake, List.filterMap_cons, hpay]
  split_ifs <;> rfl

theorem rollsForward_mintBlock {nHeight nValue : UInt64} {key : UInt160} {accts : AccountMap}
    {pool : AccountData} (hpool : accts 0 = some pool) (hlt : nValue < pool.balance)
    (hlimit : pool.limit ≤ pool.futureLimit) (hkey : key ≠ 0) (hthere : accts key ≠ none)
    (k : UInt160) : RollsForward nHeight (accts k) ((mintBlock nHeight nValue key).acts k) := by
  rw [acts_mintBlock]
  by_cases hzero : 0 = k
  · subst hzero
    have hne : nValue ≠ pool.balance := UInt64.ne_of_lt hlt
    rw [if_pos rfl, if_neg hkey, List.append_nil, hpool]
    refine .inr ⟨?_, ?_⟩
    · rw [UInt64.lt_iff_toNat_lt] at hlt
      rwa [Act.paid, Act.paid, Act.taken, Act.taken, Nat.add_zero, Nat.add_zero, balanceOf,
        Nat.mod_eq_of_lt pool.balance.toNat_lt]
    · rw [LimitsFollow, Option.getD_some, Act.lastLife, Act.lastLife, if_neg hne]
      exact .inr (.inr hlimit)
  · rw [if_neg hzero, List.nil_append]
    split
    · next h => exact fun hnone ↦ absurd (h ▸ hnone) hthere
    · exact fun _ ↦ .inl rfl

/-- Coins to mint, and ten coins in account `7`. -/
def poolAndSeven : AccountTable :=
  ((∅ : AccountTable).insert 0 { AccountData.init with balance := 0x4000000000000000 }).insert 7
    { AccountData.init with balance := 10 }

def poolTrie : AccountTrie Sha256.sha256d := .ofTable Sha256.sha256d poolAndSeven

def poolNode : Surroundings := ⟨Sha256.sha256d, fun _ ↦ true, 0, poolTrie.root⟩

theorem eq_of_toMap_pair {k₁ k₂ k : UInt160} {a₁ a₂ a : AccountData}
    (h : toMap (((∅ : AccountTable).insert k₁ a₁).insert k₂ a₂) k = some a) :
    k = k₂ ∧ a = a₂ ∨ k = k₁ ∧ a = a₁ := by
  rw [toMap_insert, toMap_insert, toMap_empty, Function.update_apply, Function.update_apply] at h
  split_ifs at h with h₂ h₁
  · exact .inl ⟨h₂, (Option.some.inj h).symm⟩
  · exact .inr ⟨h₁, (Option.some.inj h).symm⟩

/-- Minting to an account that exists. -/
theorem applyTransactions_eq_tempApply_seven : ∃ root' undos,
    tempApply (fun _ ↦ 0) poolTrie.root (mintBlock 1 1 7) = .ok (true, root', undos) ∧
      (∀ k, RollsForward 1 (accounts poolTrie.root k) ((mintBlock 1 1 7).acts k)) ∧
      AccountTable.toMap (applyTransactions poolAndSeven (mintBlock 1 1 7)) = accounts root' := by
  have hrun : (tempApply (fun _ ↦ 0) poolTrie.root (mintBlock 1 1 7)).map Prod.fst = .ok true := by
    decide +kernel
  have haccts : accounts poolTrie.root = toMap poolAndSeven := accounts_ofTable _ _
  have hrolls := @rollsForward_mintBlock 1 1 7 (toMap poolAndSeven)
    { AccountData.init with balance := 0x4000000000000000 } (by decide) (by decide) (by decide)
    (by decide) (by decide)
  rw [← haccts] at hrolls
  refine ⟨_, _, tempApply_eq_applied hrun, hrolls, ?_⟩
  exact (applyTransactions_eq_tempApply_iff poolTrie haccts.symm (tempApply_eq_applied hrun)).mpr
    hrolls

/-- Minting to a new account `8`: the block passes `CheckBlock` and `TempApply`, which gives the
account the age of the block, while `ApplyTransactions` gives it the age zero. -/
theorem applyTransactions_wrong_age :
    AccountTable.toMap poolAndSeven = accounts poolTrie.root ∧
    checkBlock poolNode true true (mintBlock 1 1 8) = .ok () ∧
    (tempApply (fun _ ↦ 0) poolTrie.root (mintBlock 1 1 8)).map
      (fun r ↦ (r.1, accounts r.2.1 8)) = .ok (true, some { AccountData.init with
        age := 1, balance := 1 }) ∧
    AccountTable.toMap (applyTransactions poolAndSeven (mintBlock 1 1 8)) 8
      = some { AccountData.init with age := 0, balance := 1 } :=
  ⟨(accounts_ofTable _ _).symm, by decide +kernel, by decide +kernel, by decide +kernel⟩

end Cryptonite
