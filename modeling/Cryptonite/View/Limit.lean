import Cryptonite.View.Rollback

/-!
# The withdrawal limit

An account has a limit on what may be withdrawn from it in one block, and a *future* limit, which a
set-limit transaction announces. A lower limit counts at once; a higher one takes the place of the
limit with the first withdrawal after `MIN_LIMIT_TIME` blocks without one, so that the owner of a
stolen key has that time to notice.

`TempApply` keeps what is left of the limits in a map of its own, while the accounts change under
it: they are emptied, removed and made anew with no limit. `withdrawal_cap` says that the limit an
account had before the block is kept all the same, and `limit_raises_delayed` that along a chain of
blocks a limit rises no sooner, and no higher, than announced.

Both are about one account at a time, and `Ledger.stepAt` is what they rest on: a move leaves the
account and its entries in the `Book` alone, or it is a withdrawal from it, or a deposit to it.
-/

namespace Cryptonite

open UndoLog Ledger AccountData

/-! ## One move, one account -/

def Move.WithdrawsFrom (k : UInt160) : Move → Prop
  | .withdraw _ txin => txin.pubKey = k
  | _ => False

section StepAt

variable {junk : ℕ → UInt64} {block : Block} {ℓ ℓ' : Ledger} {k : UInt160}

/-- A withdrawal from the account `k` has been made. -/
structure Ledger.Withdrawn (ℓ ℓ' : Ledger) (nHeight : UInt64) (k : UInt160) (tx : Transaction)
    (nValue : UInt64) (a : AccountData) : Prop where
  accts : ℓ.accts k = some a
  accts' : ℓ'.accts k = (a.afterWithdrawal nHeight tx nValue).keep
  changes' : ℓ'.changes = ℓ.changes ++ [(k, (a.afterWithdrawal nHeight tx nValue).keep)]
  setLimit : tx.fSetLimit = true → k ∈ ℓ'.book.setLimit ∧ ℓ'.book.limits k = ℓ.book.limits k
  spend : tx.fSetLimit = false → k ∉ ℓ.book.setLimit ∧
    nValue ≤ (ℓ.book.limits k).getD a.limit ∧
    ℓ'.book.limits k = some ((ℓ.book.limits k).getD a.limit - nValue)

theorem Ledger.withdrawn_of_step {tx : Transaction} {txin : TxIn}
    (h : step junk block ℓ (.withdraw tx txin) = .ok (true, ℓ')) :
    ∃ a, ℓ.Withdrawn ℓ' block.nHeight txin.pubKey tx txin.nValue a := by
  obtain ⟨a, limits, ha, hlimits, hrefused, rfl⟩ := step_withdraw h
  refine ⟨a, ha, Function.update_self _ _ _, rfl, fun hset ↦ ?_, fun hset ↦ ?_⟩
  · rw [checkLimit, if_pos hset] at hlimits
    cases hlimits
    simp [change, Book.note, hset]
  · rw [hset, checkLimit_eq_some_iff] at hlimits
    obtain ⟨hle, rfl⟩ := hlimits
    simp only [refused, hset, Bool.not_false, Bool.true_and, Bool.or_eq_false_iff] at hrefused
    refine ⟨fun hmem ↦ ?_, hle, ?_⟩
    · rw [List.contains_iff_mem.mpr hmem] at hrefused
      exact Bool.noConfusion hrefused.1.1.2
    · simp [change, Book.note, hset]

/-- Nothing is noted about the account `k`. -/
structure Ledger.Kept (ℓ ℓ' : Ledger) (k : UInt160) : Prop where
  limits : ℓ'.book.limits k = ℓ.book.limits k
  setLimit : k ∈ ℓ'.book.setLimit ↔ k ∈ ℓ.book.setLimit
  removed : (k, none) ∈ ℓ'.changes ↔ (k, none) ∈ ℓ.changes

/-- What a move does to the account `k`. -/
inductive Ledger.StepAt (nHeight : UInt64) (k : UInt160) (ℓ ℓ' : Ledger) : Move → Prop
  | pass {mv : Move} (hmv : ¬mv.WithdrawsFrom k) (haccts : ℓ'.accts k = ℓ.accts k)
      (hkept : ℓ.Kept ℓ' k) : StepAt nHeight k ℓ ℓ' mv
  | withdraw {tx : Transaction} {txin : TxIn} {a : AccountData} (hkey : txin.pubKey = k)
      (hdone : ℓ.Withdrawn ℓ' nHeight k tx txin.nValue a) :
      StepAt nHeight k ℓ ℓ' (.withdraw tx txin)
  | deposit {txout : TxOut}
      (haccts : ℓ'.accts k = some (afterDeposit nHeight txout.nValue (ℓ.accts k)))
      (hkept : ℓ.Kept ℓ' k) : StepAt nHeight k ℓ ℓ' (.deposit txout)

theorem Ledger.stepAt {mv : Move} (h : step junk block ℓ mv = .ok (true, ℓ'))
    (k : UInt160) : StepAt block.nHeight k ℓ ℓ' mv := by
  rcases mv with ⟨i, tx⟩ | ⟨tx, txin⟩ | txout
  · rw [(step_check h).1]
    exact .pass id rfl ⟨rfl, .rfl, .rfl⟩
  · by_cases hk : txin.pubKey = k
    · obtain ⟨a, hdone⟩ := withdrawn_of_step h
      exact .withdraw hk (hk ▸ hdone)
    · obtain ⟨a, limits, -, hlimits, -, rfl⟩ := step_withdraw h
      have hother : limits k = ℓ.book.limits k := checkLimit_of_ne hk hlimits
      refine .pass hk (Function.update_of_ne (Ne.symm hk) _ _) ⟨?_, ?_, ?_⟩
      · rw [change, Book.note]
        split <;> exact hother
      · rw [change, Book.note]
        split
        · simp [Ne.symm hk]
        · rfl
      · simp [change, Ne.symm hk]
  · cases h
    have hkept : ∀ o : AccountData, ℓ.Kept (ℓ.change txout.pubKey (some o) ℓ.book) k := fun o ↦
      ⟨rfl, .rfl, by simp [change]⟩
    by_cases hk : txout.pubKey = k
    · subst hk
      exact .deposit (Function.update_self _ _ _) (hkept _)
    · exact .pass id (Function.update_of_ne (Ne.symm hk) _ _) (hkept _)

end StepAt

/-! ## The cap of a block -/

/-- What the payments of a block withdraw from an account. Set-limit transactions do not count. -/
def Block.withdrawals (block : Block) (k : UInt160) : List UInt64 :=
  (block.vtx.filter fun tx ↦ !tx.fSetLimit).flatMap fun tx ↦
    (tx.vin.filter fun txin ↦ txin.pubKey = k).map TxIn.nValue

/-- What a move counts towards the limit of an account. -/
def Move.spends (k : UInt160) : Move → ℕ
  | .withdraw tx txin => if !tx.fSetLimit ∧ txin.pubKey = k then txin.nValue.toNat else 0
  | _ => 0

theorem Move.spends_eq_zero {k : UInt160} {mv : Move} (h : ¬mv.WithdrawsFrom k) :
    mv.spends k = 0 := by
  rcases mv with _ | ⟨tx, txin⟩ | _
  · rfl
  · exact if_neg fun hspends ↦ h hspends.2
  · rfl

theorem exactSum_append (l l' : List UInt64) : exactSum (l ++ l') = exactSum l + exactSum l' := by
  rw [exactSum, List.map_append, List.sum_append]
  rfl

theorem sum_spends_vin (k : UInt160) {tx : Transaction} (htx : tx.fSetLimit = false)
    (vin : List TxIn) : ((vin.map (Move.withdraw tx)).map (Move.spends k)).sum
      = exactSum ((vin.filter fun txin ↦ txin.pubKey = k).map TxIn.nValue) := by
  induction vin with
  | nil => rfl
  | cons txin vin ih =>
    rw [List.map_cons, List.map_cons, List.sum_cons, ih, Move.spends, htx]
    by_cases hk : txin.pubKey = k
    · simp [hk, exactSum]
    · simp [hk]

theorem sum_spends_txMoves (k : UInt160) (i : ℕ) (tx : Transaction) :
    ((txMoves i tx).map (Move.spends k)).sum = if tx.fSetLimit then 0 else
      exactSum ((tx.vin.filter fun txin ↦ txin.pubKey = k).map TxIn.nValue) := by
  have hdeposits : ((tx.vout.map Move.deposit).map (Move.spends k)).sum = 0 := by
    simp [Function.comp_def, Move.spends]
  rw [txMoves, List.map_cons, List.sum_cons, List.map_append, List.sum_append, hdeposits]
  by_cases htx : tx.fSetLimit = true
  · simp [Function.comp_def, Move.spends, htx]
  · rw [Bool.not_eq_true] at htx
    rw [sum_spends_vin k htx, htx]
    simp [Move.spends]

theorem sum_spends_movesFrom (k : UInt160) (vtx : List Transaction) : ∀ i,
    ((movesFrom i vtx).map (Move.spends k)).sum
      = exactSum ((vtx.filter fun tx ↦ !tx.fSetLimit).flatMap fun tx ↦
          (tx.vin.filter fun txin ↦ txin.pubKey = k).map TxIn.nValue) := by
  induction vtx with
  | nil => exact fun _ ↦ rfl
  | cons tx vtx ih =>
    intro i
    rw [movesFrom, List.map_append, List.sum_append, ih, sum_spends_txMoves]
    by_cases htx : tx.fSetLimit = true
    · simp [htx]
    · simp [htx, exactSum_append]

/-- What has been spent and what is left make up the limit `L`; until something is spent, or the
limit set, the limit of the account is still `L`. -/
structure Ledger.Capped (k : UInt160) (L : UInt64) (spent : ℕ) (ℓ : Ledger) : Prop where
  total : spent + ((ℓ.book.limits k).getD L).toNat = L.toNat
  unspent : ℓ.book.limits k = none → k ∉ ℓ.book.setLimit →
    ∃ a, ℓ.accts k = some a ∧ a.limit = L

theorem Ledger.Capped.step {junk : ℕ → UInt64} {block : Block} {ℓ ℓ' : Ledger} {k : UInt160}
    {L : UInt64} {spent : ℕ} {mv : Move} (h : ℓ.Capped k L spent)
    (hstep : step junk block ℓ mv = .ok (true, ℓ')) : ℓ'.Capped k L (spent + mv.spends k) := by
  rcases stepAt hstep k with ⟨hmv, haccts, hkept⟩ | ⟨hkey, hdone⟩ | ⟨haccts, hkept⟩
  · rw [Move.spends_eq_zero hmv]
    refine ⟨by rw [hkept.limits]; exact h.total, fun hnone hset ↦ ?_⟩
    rw [haccts]
    exact h.unspent (hkept.limits ▸ hnone) (hkept.setLimit.not.mp hset)
  · next tx txin a =>
    by_cases hset : tx.fSetLimit = true
    · obtain ⟨hmem, hlimits⟩ := hdone.setLimit hset
      rw [Move.spends, if_neg (by simp [hset])]
      exact ⟨by rw [hlimits]; exact h.total, fun _ hnot ↦ absurd hmem hnot⟩
    · rw [Bool.not_eq_true] at hset
      obtain ⟨hnot, hle, hlimits⟩ := hdone.spend hset
      -- the first payment starts from the limit the account had before the block
      have hallowance : (ℓ.book.limits k).getD a.limit = (ℓ.book.limits k).getD L := by
        rcases hnone : ℓ.book.limits k with _ | allowance
        · obtain ⟨a', ha', hL⟩ := h.unspent hnone hnot
          rw [Option.some.inj (hdone.accts.symm.trans ha')]
          exact hL
        · rfl
      rw [hallowance] at hle hlimits
      have htotal := h.total
      have hle' := UInt64.le_iff_toNat_le.mp hle
      refine ⟨?_, fun hnone ↦ absurd (hlimits.symm.trans hnone) (Option.some_ne_none _)⟩
      rw [Move.spends, if_pos (by simp [hset, hkey]), hlimits, Option.getD_some,
        UInt64.toNat_sub_of_le _ _ hle]
      omega
  · refine ⟨by rw [hkept.limits]; exact h.total, fun hnone hset ↦ ?_⟩
    obtain ⟨a, ha, hL⟩ := h.unspent (hkept.limits ▸ hnone) (hkept.setLimit.not.mp hset)
    rw [haccts, ha]
    exact ⟨_, rfl, hL⟩

section Cap

variable {H : List UInt8 → UInt256}

/-- **The cap of a block.** A block that `TempApply` accepts withdraws from an account, in
transactions other than set-limit transactions, no more than the limit the account had before the
block. -/
theorem withdrawal_cap (T : AccountTrie H) {junk : ℕ → UInt64} {block : Block}
    {root' : Option TrieNode} {undos : List TxUndo}
    (h : tempApply junk T.root block = .ok (true, root', undos)) {k : UInt160} {a : AccountData}
    (ha : accounts T.root k = some a) : exactSum (block.withdrawals k) ≤ a.limit.toNat := by
  obtain ⟨ℓ, hℓ, -⟩ := exists_ledger_of_tempApply T.valid h
  have hcapped : ℓ.Capped k a.limit ((block.moves.map (Move.spends k)).sum) := by
    refine @runMoves_induction _ _
      (fun done ℓ ↦ ℓ.Capped k a.limit ((done.map (Move.spends k)).sum))
      (fun done s mv s' hP hstep ↦ ?_) _ _ _ ⟨Nat.zero_add _, fun _ _ ↦ ⟨a, ha, rfl⟩⟩ hℓ
    rw [List.map_append, List.sum_append, List.map_singleton, List.sum_singleton]
    exact hP.step hstep
  have htotal := hcapped.total
  rw [Block.moves, sum_spends_movesFrom] at htotal
  exact le_of_add_le_left htotal.le

/-- Account `5` is emptied and made again; what was withdrawn is its limit. -/
theorem withdrawal_cap_there_and_back :
    (tempApply (fun _ ↦ 0) tenInFive.root (blockOf [payment 5 10 6, payment 6 4 5])).map Prod.fst
        = .ok true ∧
      exactSum ((blockOf [payment 5 10 6, payment 6 4 5]).withdrawals 5) ≤ 10 := by
  have hverdict : (tempApply (fun _ ↦ 0) tenInFive.root
      (blockOf [payment 5 10 6, payment 6 4 5])).map Prod.fst = .ok true := by decide +kernel
  obtain ⟨root', undos, h⟩ := exists_of_verdict hverdict
  exact ⟨hverdict, withdrawal_cap (a := ⟨0, 10, 10, 10⟩) tenInFive h rfl⟩

end Cap

/-! ## The terms of an account across a block -/

structure AccountData.SameTerms (a b : AccountData) : Prop where
  age : a.age = b.age
  limit : a.limit = b.limit
  futureLimit : a.futureLimit = b.futureLimit

/-- The age of an account in a block, and how its limits compare. -/
structure AccountData.InOrder (nHeight : UInt64) (a : AccountData) : Prop where
  limit_le : a.limit ≤ a.futureLimit
  age_le : a.age ≤ nHeight

/-- The limit of `a` is one that `a₀` allows for at height `nHeight`. -/
def AccountData.Allows (nHeight : UInt64) (a₀ a : AccountData) : Prop :=
  a.limit ≤ a₀.limit ∨ nHeight - a₀.age > MIN_LIMIT_TIME ∧ a.limit ≤ a₀.futureLimit

theorem AccountData.eq_of_keep {a a' : AccountData} (h : a.keep = some a') : a' = a :=
  (keep_eq_some_iff.mp h).2.symm

section Withdrawal

variable {a : AccountData} {nHeight : UInt64} {tx : Transaction} {nValue : UInt64}

/-- The limit before a set-limit transaction lowers it. -/
def AccountData.maturedLimit (a : AccountData) (nHeight : UInt64) : UInt64 :=
  if nHeight - a.age > MIN_LIMIT_TIME then a.futureLimit else a.limit

theorem limit_afterWithdrawal_le :
    (a.afterWithdrawal nHeight tx nValue).limit ≤ a.maturedLimit nHeight := by
  change (if tx.fSetLimit = true ∧ tx.nLimitValue < a.maturedLimit nHeight then tx.nLimitValue
    else a.maturedLimit nHeight) ≤ _
  split
  · next hlow => exact UInt64.le_of_lt hlow.2
  · exact UInt64.le_refl _

theorem inOrder_afterWithdrawal (h : a.limit ≤ a.futureLimit) :
    (a.afterWithdrawal nHeight tx nValue).InOrder nHeight := by
  refine ⟨?_, UInt64.le_refl _⟩
  by_cases hset : tx.fSetLimit = true
  · change (if tx.fSetLimit = true ∧ tx.nLimitValue < a.maturedLimit nHeight then tx.nLimitValue
      else a.maturedLimit nHeight) ≤ if tx.fSetLimit = true then tx.nLimitValue else _
    rw [if_pos hset]
    split
    · exact UInt64.le_refl _
    · next hlow => exact UInt64.not_lt.mp fun hlt ↦ hlow ⟨hset, hlt⟩
  · refine UInt64.le_trans limit_afterWithdrawal_le ?_
    change a.maturedLimit nHeight ≤ if tx.fSetLimit = true then tx.nLimitValue else a.futureLimit
    rw [if_neg hset, maturedLimit]
    split
    · exact UInt64.le_refl _
    · exact h

theorem allows_afterWithdrawal : a.Allows nHeight (a.afterWithdrawal nHeight tx nValue) := by
  have hle := @limit_afterWithdrawal_le a nHeight tx nValue
  rw [maturedLimit] at hle
  split at hle
  · next hage => exact .inr ⟨hage, hle⟩
  · exact .inl hle

theorem AccountData.Allows.trans {a₀ a' : AccountData} (h : a₀.Allows nHeight a)
    (hage : a.age = nHeight) (h' : a.Allows nHeight a') : a₀.Allows nHeight a' := by
  have hle : a'.limit ≤ a.limit := by
    rcases h' with hle | ⟨hlong, -⟩
    · exact hle
    · rw [hage, UInt64.sub_self] at hlong
      exact absurd hlong (by decide)
  exact h.imp (UInt64.le_trans hle) (And.imp_right (UInt64.le_trans hle))

theorem AccountData.SameTerms.allows {a₀ a' : AccountData} (h : a.SameTerms a₀)
    (h' : a.Allows nHeight a') : a₀.Allows nHeight a' := by
  rwa [Allows, h.age, h.limit, h.futureLimit] at h'

end Withdrawal

/-- The account `k` in the middle of a block, where `o` is what it was before the block: it is in
order; its age is the height unless nothing was withdrawn from it; and while it has not been removed
its limit is one it allowed for. -/
structure Ledger.Tended (nHeight : UInt64) (k : UInt160) (o : Option AccountData) (touched : Prop)
    (ℓ : Ledger) : Prop where
  inOrder : ∀ a, ℓ.accts k = some a → a.InOrder nHeight
  age : ∀ a, ℓ.accts k = some a →
    a.age = nHeight ∨ ¬touched ∧ ∃ a₀, o = some a₀ ∧ a.SameTerms a₀
  raise : (k, none) ∉ ℓ.changes → ∀ a₀, o = some a₀ → ∃ a, ℓ.accts k = some a ∧
    (a.SameTerms a₀ ∨ a.age = nHeight ∧ a₀.Allows nHeight a)

section Tended

variable {junk : ℕ → UInt64} {block : Block} {ℓ ℓ' : Ledger} {k : UInt160}
  {o : Option AccountData} {touched : Prop}

theorem Ledger.Tended.withdraw (h : ℓ.Tended block.nHeight k o touched) {tx : Transaction}
    {nValue : UInt64} {a : AccountData} (hdone : ℓ.Withdrawn ℓ' block.nHeight k tx nValue a)
    (touched' : Prop) : ℓ'.Tended block.nHeight k o touched' := by
  refine ⟨fun a' ha' ↦ ?_, fun a' ha' ↦ ?_, fun hkept a₀ ha₀ ↦ ?_⟩
  · rw [eq_of_keep (hdone.accts'.symm.trans ha')]
    exact inOrder_afterWithdrawal (h.inOrder a hdone.accts).limit_le
  · rw [eq_of_keep (hdone.accts'.symm.trans ha')]
    exact .inl rfl
  · rw [hdone.changes', List.mem_append, not_or, List.mem_singleton, Prod.mk.injEq,
      not_and] at hkept
    obtain ⟨a', ha'⟩ := Option.ne_none_iff_exists'.mp (Ne.symm (hkept.2 rfl))
    refine ⟨a', hdone.accts'.trans ha', .inr ?_⟩
    obtain ⟨b, hb, hterms⟩ := h.raise hkept.1 a₀ ha₀
    obtain rfl := Option.some.inj (hdone.accts.symm.trans hb)
    rw [eq_of_keep ha']
    refine ⟨rfl, ?_⟩
    rcases hterms with hsame | ⟨hage, hallows⟩
    · exact hsame.allows allows_afterWithdrawal
    · exact hallows.trans hage allows_afterWithdrawal

theorem Ledger.Tended.deposit (h : ℓ.Tended block.nHeight k o touched) {nValue : UInt64}
    (haccts : ℓ'.accts k = some (afterDeposit block.nHeight nValue (ℓ.accts k)))
    (hkept : ℓ.Kept ℓ' k) : ℓ'.Tended block.nHeight k o touched := by
  rcases hold : ℓ.accts k with _ | b <;> rw [hold] at haccts
  · refine ⟨fun a ha ↦ ?_, fun a ha ↦ ?_, fun hnot a₀ ha₀ ↦ ?_⟩
    · rw [← Option.some.inj (haccts.symm.trans ha)]
      exact ⟨UInt64.le_refl _, UInt64.le_refl _⟩
    · rw [← Option.some.inj (haccts.symm.trans ha)]
      exact .inl rfl
    · obtain ⟨b, hb, -⟩ := h.raise (hkept.removed.not.mp hnot) a₀ ha₀
      exact absurd (hold.symm.trans hb) (Option.some_ne_none _).symm
  · refine ⟨fun a ha ↦ ?_, fun a ha ↦ ?_, fun hnot a₀ ha₀ ↦ ?_⟩
    · rw [← Option.some.inj (haccts.symm.trans ha)]
      exact ⟨(h.inOrder b hold).limit_le, (h.inOrder b hold).age_le⟩
    · rw [← Option.some.inj (haccts.symm.trans ha)]
      refine (h.age b hold).imp_right (And.imp_right fun ⟨a₀, ha₀, hsame⟩ ↦ ⟨a₀, ha₀, ?_⟩)
      exact ⟨hsame.age, hsame.limit, hsame.futureLimit⟩
    · obtain ⟨b', hb', hterms⟩ := h.raise (hkept.removed.not.mp hnot) a₀ ha₀
      obtain rfl := Option.some.inj (hold.symm.trans hb')
      refine ⟨_, haccts, hterms.imp (fun hsame ↦ ?_) id⟩
      exact ⟨hsame.age, hsame.limit, hsame.futureLimit⟩

theorem Ledger.Tended.step {mv : Move} (h : ℓ.Tended block.nHeight k o touched)
    (hstep : step junk block ℓ mv = .ok (true, ℓ')) :
    ℓ'.Tended block.nHeight k o (touched ∨ mv.WithdrawsFrom k) := by
  rcases stepAt hstep k with ⟨hmv, haccts, hkept⟩ | ⟨hkey, hdone⟩ | ⟨haccts, hkept⟩
  · rw [or_iff_left hmv]
    exact ⟨haccts ▸ h.inOrder, haccts ▸ h.age, fun hnot ↦
      haccts ▸ h.raise (hkept.removed.not.mp hnot)⟩
  · exact h.withdraw hdone _
  · change ℓ'.Tended block.nHeight k o (touched ∨ False)
    rw [or_false]
    exact h.deposit haccts hkept

theorem Ledger.tended_of_apply {accts : AccountMap} (h : apply junk accts block = .ok (true, ℓ))
    (hstart : ∀ a, accts k = some a → a.InOrder block.nHeight) :
    ℓ.Tended block.nHeight k (accts k) (∃ mv ∈ block.moves, mv.WithdrawsFrom k) := by
  refine @runMoves_induction _ _ (fun done ℓ ↦ ℓ.Tended block.nHeight k (accts k)
    (∃ mv ∈ done, mv.WithdrawsFrom k)) (fun done ℓ mv ℓ' hP hstep ↦ ?_) _ _ _ ?_ h
  · have hdone : (∃ m ∈ done ++ [mv], m.WithdrawsFrom k)
        = ((∃ m ∈ done, m.WithdrawsFrom k) ∨ mv.WithdrawsFrom k) := by
      simp [or_and_right, exists_or]
    rw [hdone]
    exact hP.step hstep
  · exact ⟨hstart, fun a ha ↦ .inr ⟨by simp, a, ha, rfl, rfl, rfl⟩,
      fun _ a ha ↦ ⟨a, ha, .inl ⟨rfl, rfl, rfl⟩⟩⟩

end Tended

/-- An input of the block names the account. -/
def Block.SpendsFrom (block : Block) (k : UInt160) : Prop :=
  ∃ tx ∈ block.vtx, ∃ txin ∈ tx.vin, txin.pubKey = k

theorem exists_withdrawsFrom_iff (k : UInt160) (vtx : List Transaction) : ∀ i,
    (∃ mv ∈ movesFrom i vtx, mv.WithdrawsFrom k) ↔
      ∃ tx ∈ vtx, ∃ txin ∈ tx.vin, txin.pubKey = k := by
  induction vtx with
  | nil => intro i; simp [movesFrom]
  | cons tx vtx ih =>
    intro i
    have htx : (∃ mv ∈ txMoves i tx, mv.WithdrawsFrom k) ↔ ∃ txin ∈ tx.vin, txin.pubKey = k := by
      simp [txMoves, Move.WithdrawsFrom, or_and_right, exists_or]
    simp only [movesFrom, List.mem_append, or_and_right, exists_or, htx, ih,
      List.exists_mem_cons_iff]

/-- An undo list that says that the block has removed the account. -/
def Removed (undos : List TxUndo) (k : UInt160) : Prop :=
  ∃ undo ∈ undos, undo.key = k ∧ undo.destroy = true

section Run

variable {H : List UInt8 → UInt256}

theorem exists_tended {root root' : Option TrieNode} (hvalid : ValidRoot H root)
    {junk : ℕ → UInt64} {block : Block} {undos : List TxUndo}
    (h : tempApply junk root block = .ok (true, root', undos)) {k : UInt160}
    (hstart : ∀ a, accounts root k = some a → a.InOrder block.nHeight) :
    ∃ ℓ : Ledger, ℓ.Tended block.nHeight k (accounts root k) (block.SpendsFrom k) ∧
      ℓ.accts = accounts root' ∧ ((k, none) ∈ ℓ.changes → Removed undos k) := by
  obtain ⟨ℓ, hℓ, haccts⟩ := exists_ledger_of_tempApply hvalid h
  have htended := tended_of_apply hℓ hstart
  rw [Block.moves, exists_withdrawsFrom_iff] at htended
  refine ⟨ℓ, htended, haccts, fun hmem ↦ ?_⟩
  obtain ⟨-, -, hproper, rfl⟩ := tempApply_eq_ok hvalid h
  rw [changesOf, hℓ] at hproper ⊢
  obtain ⟨v, hv⟩ := hproper.exists_restore_mem_log hmem
  refine ⟨TxUndo.ofRecord (k, .restore v), List.mem_map_of_mem ?_, rfl, rfl⟩
  rw [if_pos rfl]
  exact List.mem_reverse.mpr hv

/-! ## Along a chain -/

/-- Blocks that `TempApply` accepts one after the other, at consecutive heights. -/
structure BlockRun (H : List UInt8 → UInt256) (n : ℕ) where
  /-- `m_root` before the `i`-th block. -/
  root : ℕ → Option TrieNode
  block : ℕ → Block
  /-- What is read from the stack while the `i`-th block is applied. -/
  junk : ℕ → ℕ → UInt64
  /-- The undo list of the `i`-th block. -/
  undos : ℕ → List TxUndo
  /-- The height of the first block. -/
  height : ℕ
  valid : ValidRoot H (root 0)
  accepted : ∀ i < n, tempApply (junk i) (root i) (block i) = .ok (true, root (i + 1), undos i)
  height_eq : ∀ i < n, (block i).nHeight.toNat = height + i

namespace BlockRun

variable {n : ℕ} (run : BlockRun H n)

/-- Nothing has been announced before the first block, and no account is younger than it. -/
def Settled : Prop :=
  ∀ k a, accounts (run.root 0) k = some a → a.limit = a.futureLimit ∧ a.age.toNat ≤ run.height

variable {run} {i j : ℕ} {k : UInt160} {a : AccountData}

theorem valid_root (hi : i ≤ n) : ValidRoot H (run.root i) := by
  induction i with
  | zero => exact run.valid
  | succ i ih => exact (tempApply_eq_ok (ih (Nat.le_of_succ_le hi)) (run.accepted i hi)).1

theorem inOrder (hstart : run.Settled) (hi : i ≤ n) : ∀ k a, accounts (run.root i) k = some a →
    a.limit ≤ a.futureLimit ∧ a.age.toNat ≤ run.height + i := by
  induction i with
  | zero =>
    intro k a ha
    obtain ⟨hlimit, hage⟩ := hstart k a ha
    exact ⟨hlimit ▸ UInt64.le_refl _, hage⟩
  | succ i ih =>
    intro k a ha
    have hheight := run.height_eq i hi
    obtain ⟨ℓ, htended, haccts, -⟩ := exists_tended (valid_root (Nat.le_of_succ_le hi))
      (run.accepted i hi) (k := k) fun b hb ↦ by
        obtain ⟨hlimit, hage⟩ := ih (Nat.le_of_succ_le hi) k b hb
        exact ⟨hlimit, UInt64.le_iff_toNat_le.mpr (hheight ▸ hage)⟩
    obtain ⟨hlimit, hage⟩ := htended.inOrder a (haccts ▸ ha)
    exact ⟨hlimit, (UInt64.le_iff_toNat_le.mp hage).trans (hheight ▸ Nat.le_succ _)⟩

theorem exists_tended (hstart : run.Settled) (hi : i < n) (k : UInt160) :
    ∃ ℓ : Ledger, ℓ.Tended (run.block i).nHeight k (accounts (run.root i) k)
        ((run.block i).SpendsFrom k) ∧
      ℓ.accts = accounts (run.root (i + 1)) ∧
      ((k, none) ∈ ℓ.changes → Removed (run.undos i) k) := by
  refine Cryptonite.exists_tended (valid_root hi.le) (run.accepted i hi) fun a ha ↦ ?_
  obtain ⟨hlimit, hage⟩ := inOrder hstart hi.le k a ha
  exact ⟨hlimit, UInt64.le_iff_toNat_le.mpr (run.height_eq i hi ▸ hage)⟩

/-- Since a height above its age an account has had the same terms, and no withdrawal. -/
theorem steady (hstart : run.Settled) (hij : j ≤ i) : i ≤ n → ∀ {a : AccountData},
    accounts (run.root i) k = some a → a.age.toNat < run.height + j →
      (∃ b, accounts (run.root j) k = some b ∧ a.SameTerms b) ∧
        ∀ m, j ≤ m → m < i → ¬(run.block m).SpendsFrom k := by
  induction i, hij using Nat.le_induction with
  | base =>
    intro _ a ha _
    exact ⟨⟨a, ha, rfl, rfl, rfl⟩, fun m hjm hmj ↦ absurd hmj (not_lt.mpr hjm)⟩
  | succ i hij ih =>
    intro hi a ha hage
    obtain ⟨ℓ, htended, haccts, -⟩ := exists_tended hstart hi k
    rcases htended.age a (haccts ▸ ha) with hnow | ⟨hidle, a₀, ha₀, hsame⟩
    · rw [hnow, run.height_eq i hi] at hage
      omega
    · rw [hsame.age] at hage
      obtain ⟨⟨b, hb, hsame'⟩, hbefore⟩ := ih (Nat.le_of_succ_le hi) ha₀ hage
      refine ⟨⟨b, hb, hsame.age.trans hsame'.age, hsame.limit.trans hsame'.limit,
        hsame.futureLimit.trans hsame'.futureLimit⟩, fun m hjm hmi ↦ ?_⟩
      rcases Nat.lt_succ_iff_lt_or_eq.mp hmi with hlt | rfl
      · exact hbefore m hjm hlt
      · exact hidle

end BlockRun

/-- **Raises are delayed.** Along a chain of accepted blocks that starts with settled accounts no
limit is above the one announced. If a block raises the limit of an account without removing it, the
account had announced at least the new limit by the block `MIN_LIMIT_TIME + 1` before, and no block
in between withdraws from it. -/
theorem limit_raises_delayed {n : ℕ} (run : BlockRun H n) (hstart : run.Settled) :
    (∀ i ≤ n, ∀ k a, accounts (run.root i) k = some a → a.limit ≤ a.futureLimit) ∧
    ∀ i < n, ∀ k a a', accounts (run.root i) k = some a →
      accounts (run.root (i + 1)) k = some a' → ¬Removed (run.undos i) k → a.limit < a'.limit →
      ∃ j, j + MIN_LIMIT_TIME.toNat + 1 = i ∧
        (∃ b, accounts (run.root (j + 1)) k = some b ∧ a'.limit ≤ b.futureLimit) ∧
        ∀ m, j < m → m < i → ¬(run.block m).SpendsFrom k := by
  refine ⟨fun i hi k a ha ↦ (BlockRun.inOrder hstart hi k a ha).1,
    fun i hi k a a' ha ha' hkept hraise ↦ ?_⟩
  have hheight := run.height_eq i hi
  obtain ⟨ℓ, htended, haccts, hremoved⟩ := BlockRun.exists_tended hstart hi k
  obtain ⟨b, hb, hterms⟩ := htended.raise (mt hremoved hkept) a ha
  obtain rfl : b = a' := Option.some.inj (hb.symm.trans (haccts ▸ ha'))
  -- the raise is one the account allowed for, so its age is more than `MIN_LIMIT_TIME`
  have hlong : (run.block i).nHeight - a.age > MIN_LIMIT_TIME ∧ b.limit ≤ a.futureLimit := by
    rcases hterms with hsame | ⟨-, hle | hallows⟩
    · exact absurd (hsame.limit ▸ hraise) (UInt64.lt_irrefl _)
    · exact absurd hraise (UInt64.not_lt.mpr hle)
    · exact hallows
  obtain ⟨hwait, hannounced⟩ := hlong
  have hage := (BlockRun.inOrder hstart hi.le k a ha).2
  rw [gt_iff_lt, UInt64.lt_iff_toNat_lt, UInt64.toNat_sub_of_le _ _
    (UInt64.le_iff_toNat_le.mpr (hheight ▸ hage)), hheight] at hwait
  -- an account that is older than the chain has announced nothing
  have hyoung : run.height ≤ a.age.toNat := by
    by_contra hold
    obtain ⟨⟨a₀, ha₀, hsame⟩, -⟩ := BlockRun.steady hstart i.zero_le hi.le ha (by omega)
    have hsettled := (hstart k a₀ ha₀).1
    rw [← hsame.limit, ← hsame.futureLimit] at hsettled
    exact absurd hraise (UInt64.not_lt.mpr (hsettled ▸ hannounced))
  obtain ⟨⟨c, hc, hsame⟩, hidle⟩ := BlockRun.steady (j := i - MIN_LIMIT_TIME.toNat) hstart
    (Nat.sub_le _ _) hi.le ha (by omega)
  refine ⟨i - MIN_LIMIT_TIME.toNat - 1, by omega, ?_, fun m hjm hmi ↦ hidle m (by omega) hmi⟩
  rw [show i - MIN_LIMIT_TIME.toNat - 1 + 1 = i - MIN_LIMIT_TIME.toNat by omega]
  exact ⟨c, hc, hsame.futureLimit ▸ hannounced⟩

/-- The first block announces a limit of twenty for account `5`, the next hundred are empty, and
the one after them withdraws a coin. -/
def announced (i : ℕ) : Block :=
  { blockOf (if i = 0 then [{ payment 5 0 5 with nLimitValue := 20, fSetLimit := true }]
      else if i = 101 then [payment 5 1 6] else []) with nHeight := UInt64.ofNat (1 + i) }

theorem tempApply_announced : ∃ root₁ undos₁ root₂ undos₂,
    tempApply (fun _ ↦ 0) tenInFive.root (announced 0) = .ok (true, root₁, undos₁) ∧
    accounts root₁ 5 = some ⟨1, 10, 10, 20⟩ ∧
    tempApply (fun _ ↦ 0) root₁ (announced 101) = .ok (true, root₂, undos₂) ∧
    accounts root₂ 5 = some ⟨102, 9, 20, 20⟩ ∧ ¬Removed undos₂ 5 := by
  have hcalls : (do
      let r ← tempApply (fun _ ↦ 0) tenInFive.root (announced 0)
      let t ← tempApply (fun _ ↦ 0) r.2.1 (announced 101)
      pure (r.1, accounts r.2.1 5, t.1, accounts t.2.1 5, t.2.2.any TxUndo.destroy))
        = Except.ok (true, some ⟨1, 10, 10, 20⟩, true, some ⟨102, 9, 20, 20⟩, false) := by
    decide +kernel
  obtain ⟨⟨b₁, root₁, undos₁⟩, h₁, hcalls⟩ := Except.bind_eq_ok_iff.mp hcalls
  obtain ⟨⟨b₂, root₂, undos₂⟩, h₂, hcalls⟩ := Except.bind_eq_ok_iff.mp hcalls
  simp only [pure, Except.pure, Except.ok.injEq, Prod.mk.injEq] at hcalls
  obtain ⟨rfl, hacct₁, rfl, hacct₂, hkept⟩ := hcalls
  refine ⟨root₁, undos₁, root₂, undos₂, h₁, hacct₁, h₂, hacct₂, ?_⟩
  rintro ⟨undo, hundo, -, hdestroy⟩
  rw [List.any_eq_false] at hkept
  exact hkept undo hundo hdestroy

/-- The limit rises with the first withdrawal after a hundred blocks. -/
theorem limit_raises_delayed_announced : ∃ run : BlockRun Sha256.sha256d 102, run.Settled ∧
    (∃ a, accounts (run.root 101) 5 = some a ∧ a.limit = 10) ∧
    (∃ a, accounts (run.root 102) 5 = some a ∧ a.limit = 20) ∧
    ∃ b, accounts (run.root 1) 5 = some b ∧ 20 ≤ b.futureLimit := by
  obtain ⟨root₁, undos₁, root₂, undos₂, h₁, hacct₁, h₂, hacct₂, hkept⟩ := tempApply_announced
  let root := fun i ↦ if i = 0 then tenInFive.root else if i ≤ 101 then root₁ else root₂
  let undos := fun i ↦ if i = 0 then undos₁ else if i = 101 then undos₂ else []
  have haccepted : ∀ i < 102, tempApply (fun _ ↦ 0) (root i) (announced i)
      = .ok (true, root (i + 1), undos i) := by
    intro i hi
    by_cases hfirst : i = 0
    · rw [hfirst]
      exact h₁
    by_cases hlast : i = 101
    · rw [hlast]
      exact h₂
    have hempty : (announced i).vtx = [] := by
      change (if i = 0 then _ else if i = 101 then _ else []) = []
      rw [if_neg hfirst, if_neg hlast]
    have hroot : root i = root₁ ∧ root (i + 1) = root₁ ∧ undos i = [] := by
      have hlow : i ≤ 101 ∧ i + 1 ≤ 101 := by omega
      simp [root, undos, hfirst, hlast, hlow]
    rw [hroot.1, hroot.2.1, hroot.2.2, tempApply, hempty]
    rfl
  let run : BlockRun Sha256.sha256d 102 := ⟨root, announced, fun _ _ ↦ 0, undos, 1,
    tenInFive.valid, haccepted, fun i hi ↦ UInt64.toNat_ofNat_of_lt' (by
      exact (Nat.add_lt_add_left hi 1).trans (by decide))⟩
  have hsettled : run.Settled := by
    intro k a ha
    have hfive : accounts tenInFive.root k = if k = 5 then some ⟨0, 10, 10, 10⟩ else none := rfl
    rw [show run.root 0 = tenInFive.root from rfl, hfive, Option.ite_none_right_eq_some] at ha
    obtain rfl := Option.some.inj ha.2
    exact ⟨rfl, Nat.zero_le _⟩
  obtain ⟨j, hj, hb, -⟩ := (limit_raises_delayed run hsettled).2 101 (by norm_num) 5 _ _ hacct₁
    hacct₂ hkept (by decide)
  obtain rfl : j = 0 := by simpa [MIN_LIMIT_TIME] using hj
  exact ⟨run, hsettled, ⟨_, hacct₁, rfl⟩, ⟨_, hacct₂, rfl⟩, hb⟩

end Run

end Cryptonite
