import Cryptonite.View.Rollback

/-!
# What a block does to one account

`TempApply` works through a block move by move, and most of what can be said about the outcome is
said of one account at a time: a move passes it by, withdraws from it or pays to it. `Effect` is
what the move makes of the account then, `Trace` a list of moves that are all made, and
`Ledger.trace` says that an accepted run is a trace of every account.
-/

namespace Cryptonite

open UndoLog Ledger

namespace Move

/-- The account a move is about. -/
def key : Move → Option UInt160
  | .check _ _ => none
  | .withdraw _ txin => some txin.pubKey
  | .deposit txout => some txout.pubKey

def paysTo (k : UInt160) : Move → ℕ
  | .check _ _ => 0
  | .withdraw _ _ => 0
  | .deposit txout => if txout.pubKey = k then txout.nValue.toNat else 0

theorem paysTo_eq_zero {k : UInt160} {mv : Move} (h : mv.key ≠ some k) : mv.paysTo k = 0 := by
  rcases mv with ⟨i, tx⟩ | ⟨tx, txin⟩ | txout
  · rfl
  · rfl
  · exact if_neg fun hk ↦ h (congrArg some hk)

end Move

def paidTo (k : UInt160) (mvs : List Move) : ℕ := (mvs.map (Move.paysTo k)).sum

@[simp] theorem paidTo_nil (k : UInt160) : paidTo k [] = 0 := rfl

@[simp] theorem paidTo_cons (k : UInt160) (mv : Move) (mvs : List Move) :
    paidTo k (mv :: mvs) = mv.paysTo k + paidTo k mvs := by
  rw [paidTo, List.map_cons, List.sum_cons, paidTo]

/-- What a move that is made does to the account `k`. -/
inductive Effect (nHeight : UInt64) (k : UInt160) :
    Option AccountData → Move → Option AccountData → Prop
  /-- The move is about something else. -/
  | pass {o : Option AccountData} {mv : Move} (hkey : mv.key ≠ some k) : Effect nHeight k o mv o
  /-- A withdrawal, which the balance covers. -/
  | withdraw {a : AccountData} {tx : Transaction} {txin : TxIn} (hkey : txin.pubKey = k)
      (hle : txin.nValue ≤ a.balance) : Effect nHeight k (some a) (.withdraw tx txin)
        (a.afterWithdrawal nHeight tx txin.nValue).keep
  /-- A payment. -/
  | deposit {o : Option AccountData} {txout : TxOut} (hkey : txout.pubKey = k) :
      Effect nHeight k o (.deposit txout) (some (afterDeposit nHeight txout.nValue o))

/-- What moves that are all made do to the account `k`. -/
inductive Trace (nHeight : UInt64) (k : UInt160) :
    Option AccountData → List Move → Option AccountData → Prop
  | nil {o : Option AccountData} : Trace nHeight k o [] o
  | cons {o o₁ o' : Option AccountData} {mv : Move} {mvs : List Move}
      (heffect : Effect nHeight k o mv o₁) (hrest : Trace nHeight k o₁ mvs o') :
      Trace nHeight k o (mv :: mvs) o'

/-! ## Every run is a trace -/

section Run

variable {junk : ℕ → UInt64} {block : Block} {ℓ ℓ' : Ledger}

theorem Ledger.effect {mv : Move} (h : step junk block ℓ mv = .ok (true, ℓ'))
    (k : UInt160) : Effect block.nHeight k (ℓ.accts k) mv (ℓ'.accts k) := by
  rcases mv with ⟨i, tx⟩ | ⟨tx, txin⟩ | txout
  · rw [(step_check h).1]
    exact .pass (by simp [Move.key])
  · obtain ⟨a, limits, ha, -, hrefused, rfl⟩ := step_withdraw h
    rw [accts_change]
    by_cases hk : txin.pubKey = k
    · subst hk
      simp only [refused, Bool.or_eq_false_iff, decide_eq_false_iff_not] at hrefused
      rw [ha, Function.update_self]
      exact .withdraw rfl (UInt64.not_lt.mp hrefused.1.1.1)
    · rw [Function.update_of_ne (Ne.symm hk)]
      exact .pass (by simpa [Move.key] using hk)
  · cases h
    rw [accts_change]
    by_cases hk : txout.pubKey = k
    · subst hk
      rw [Function.update_self]
      exact .deposit rfl
    · rw [Function.update_of_ne (Ne.symm hk)]
      exact .pass (by simpa [Move.key] using hk)

/-- **An accepted run is a trace of every account.** -/
theorem Ledger.trace (k : UInt160) : ∀ {mvs : List Move} {ℓ : Ledger},
    runMoves (step junk block) ℓ mvs = .ok (true, ℓ') →
      Trace block.nHeight k (ℓ.accts k) mvs (ℓ'.accts k) := by
  intro mvs
  induction mvs with
  | nil =>
    intro ℓ h
    cases h
    exact .nil
  | cons mv mvs ih =>
    intro ℓ h
    obtain ⟨ℓ₁, hstep, hrest⟩ := runMoves_cons_true_iff.mp h
    exact .cons (effect hstep k) (ih hrest)

end Run

end Cryptonite
