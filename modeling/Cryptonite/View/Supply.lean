import Cryptonite.Core.Validation
import Cryptonite.Patricia.Tally
import Cryptonite.View.Rollback

/-!
# The supply

All coins exist from the genesis block on, in account zero, and `MAX_MONEY` lies within four billion
units of `2 ^ 64`, so a balance that wraps is one that destroys or makes a fortune. `TempApply` adds
deposits without a check. What keeps the sums in range is `CheckTransaction`: the inputs of a
transaction cover its outputs, and `TempApply` makes all withdrawals of a transaction before its
deposits. Between two transactions the supply is then never above what it was at the start
(`run_movesFrom`), and within one the deposits refill at most what the withdrawals took out.
-/

namespace Cryptonite

open Patricia Ledger Transaction

/-! ## Balances, exactly -/

def holdings (accts : AccountMap) : ℕ := tally (fun a ↦ a.balance.toNat) accts

/-- The exact sum of the balances in a trie. -/
def supply : Option TrieNode → ℕ
  | none => 0
  | some t => t.sumBy fun a ↦ a.balance.toNat

def Transaction.valueIn (tx : Transaction) : ℕ := exactSum (tx.vin.map TxIn.nValue)

def Transaction.valueOut (tx : Transaction) : ℕ := exactSum (tx.vout.map TxOut.nValue)

namespace Move

def debit : Move → ℕ
  | .check _ _ => 0
  | .withdraw _ txin => txin.nValue.toNat
  | .deposit _ => 0

def credit : Move → ℕ
  | .check _ _ => 0
  | .withdraw _ _ => 0
  | .deposit txout => txout.nValue.toNat

/-- The `uint64_t` update of the balance a move makes is exact. -/
def Exact (balance : UInt160 → UInt64) : Move → Prop
  | .check _ _ => True
  | .withdraw _ txin => txin.nValue.toNat ≤ (balance txin.pubKey).toNat
  | .deposit txout => (balance txout.pubKey).toNat + txout.nValue.toNat < 2 ^ 64

end Move

theorem elim_eq_balanceOf (o : Option AccountData) :
    o.elim 0 (fun a ↦ a.balance.toNat) = (balanceOf o).toNat := by
  rcases o with _ | a <;> rfl

theorem balanceOf_keep (a : AccountData) : balanceOf a.keep = a.balance := by
  rw [AccountData.keep]
  split
  · next h =>
    rw [MIN_BALANCE, UInt64.lt_iff_toNat_lt] at h
    exact (UInt64.toNat_inj.mp (Nat.lt_one_iff.mp h)).symm
  · rfl

theorem balanceOf_afterDeposit (nHeight nValue : UInt64) (o : Option AccountData) :
    balanceOf (some (afterDeposit nHeight nValue o)) = balanceOf o + nValue := by
  rcases o with _ | a <;> rfl

theorem holdings_update (accts : AccountMap) (k : UInt160) (v : Option AccountData) :
    holdings (Function.update accts k v) + (balanceOf (accts k)).toNat
      = holdings accts + (balanceOf v).toNat := by
  have h := tally_update (fun a : AccountData ↦ a.balance.toNat) accts k v
  rwa [elim_eq_balanceOf, elim_eq_balanceOf] at h

theorem balanceOf_le_holdings (accts : AccountMap) (k : UInt160) :
    (balanceOf (accts k)).toNat ≤ holdings accts := by
  rw [← elim_eq_balanceOf]
  exact le_tally _ accts k

theorem supply_eq_holdings {H : List UInt8 → UInt256} {root : Option TrieNode}
    (h : ValidRoot H root) : supply root = holdings (accounts root) := by
  rcases root with _ | t
  · exact (tally_empty _).symm
  · exact (h t rfl).canon.sumBy_eq_tally _ (supportedIn_zero 0 0)

/-! ## Along a run -/

section Throughout

variable {σ τ : Type}

/-- `P` holds at every move that is made, in the state it is made in. -/
def Throughout (step : σ → Move → Exec (Bool × σ)) (P : σ → Move → Prop) : σ → List Move → Prop
  | _, [] => True
  | s, mv :: mvs => ∀ s', step s mv = .ok (true, s') → P s mv ∧ Throughout step P s' mvs

variable {step : σ → Move → Exec (Bool × σ)} {P : σ → Move → Prop} {mvs : List Move}

theorem Throughout.append {mvs' : List Move} : ∀ {s : σ}, Throughout step P s mvs →
      (∀ s', runMoves step s mvs = .ok (true, s') → Throughout step P s' mvs') →
      Throughout step P s (mvs ++ mvs') := by
  induction mvs with
  | nil => intro s _ h; exact h s rfl
  | cons mv mvs ih =>
    intro s h h' s₁ hstep
    obtain ⟨hP, hrest⟩ := h s₁ hstep
    exact ⟨hP, ih hrest fun s' hs' ↦ h' s' (runMoves_cons_true_iff.mpr ⟨s₁, hstep, hs'⟩)⟩

theorem Throughout.of_sameResult {R : σ → τ → Prop}
    {step' : τ → Move → Exec (Bool × τ)} {Q : τ → Move → Prop}
    (hstep : ∀ s t mv, R s t → SameResult R (step s mv) (step' t mv))
    (hPQ : ∀ s t mv, R s t → Q t mv → P s mv) :
    ∀ {s : σ} {t : τ}, R s t → Throughout step' Q t mvs → Throughout step P s mvs := by
  induction mvs with
  | nil => intro s t _ _; trivial
  | cons mv mvs ih =>
    intro s t hR h s₁ hs₁
    have hsame := hstep s t mv hR
    rw [hs₁] at hsame
    rcases ht : step' t mv with f | ⟨b, t₁⟩ <;> rw [ht] at hsame
    · exact hsame.elim
    · obtain ⟨rfl, hR₁⟩ := hsame
      obtain ⟨hQ, hrest⟩ := h t₁ ht
      exact ⟨hPQ s t mv hR hQ, ih hR₁ hrest⟩

end Throughout

/-! ## What one move does to the holdings -/

section Holdings

variable {junk : ℕ → UInt64} {block : Block} {ℓ ℓ' : Ledger}

/-- The balances of a ledger. -/
def Ledger.balance (ℓ : Ledger) (k : UInt160) : UInt64 := balanceOf (ℓ.accts k)

/-- A move that is made is exact and changes the holdings by its amount, if there is room for it. -/
theorem Ledger.step_holdings {mv : Move} (h : step junk block ℓ mv = .ok (true, ℓ'))
    (hroom : holdings ℓ.accts + mv.credit < 2 ^ 64) :
    mv.Exact ℓ.balance ∧ holdings ℓ'.accts + mv.debit = holdings ℓ.accts + mv.credit := by
  rcases mv with ⟨i, tx⟩ | ⟨tx, txin⟩ | txout
  · rw [(step_check h).1]
    exact ⟨trivial, rfl⟩
  · obtain ⟨a, limits, ha, -, hrefused, rfl⟩ := step_withdraw h
    have hle : txin.nValue ≤ a.balance := by
      simp only [refused, Bool.or_eq_false_iff, decide_eq_false_iff_not] at hrefused
      exact UInt64.not_lt.mp hrefused.1.1.1
    have hupdate := holdings_update ℓ.accts txin.pubKey
      (a.afterWithdrawal block.nHeight tx txin.nValue).keep
    have hbalance : (a.afterWithdrawal block.nHeight tx txin.nValue).balance.toNat
        = a.balance.toNat - txin.nValue.toNat := UInt64.toNat_sub_of_le _ _ hle
    rw [balanceOf_keep, hbalance, ha, balanceOf] at hupdate
    rw [UInt64.le_iff_toNat_le] at hle
    refine ⟨by rwa [Move.Exact, balance, ha], ?_⟩
    rw [accts_change, Move.debit, Move.credit]
    omega
  · cases h
    have hbalance := balanceOf_le_holdings ℓ.accts txout.pubKey
    have hexact : (ℓ.balance txout.pubKey).toNat + txout.nValue.toNat < 2 ^ 64 :=
      (Nat.add_le_add_right hbalance _).trans_lt hroom
    have hupdate := holdings_update ℓ.accts txout.pubKey
      (some (afterDeposit block.nHeight txout.nValue (ℓ.accts txout.pubKey)))
    rw [balance] at hexact
    rw [balanceOf_afterDeposit, UInt64.toNat_add, Nat.mod_eq_of_lt hexact] at hupdate
    refine ⟨hexact, ?_⟩
    rw [accts_change, Move.debit, Move.credit]
    omega

def debits (mvs : List Move) : ℕ := (mvs.map Move.debit).sum

def credits (mvs : List Move) : ℕ := (mvs.map Move.credit).sum

theorem run_holdings {mvs : List Move} : ∀ {ℓ : Ledger},
    holdings ℓ.accts + credits mvs < 2 ^ 64 →
    Throughout (step junk block) (fun ℓ mv ↦ mv.Exact ℓ.balance) ℓ mvs ∧
      ∀ ℓ', runMoves (step junk block) ℓ mvs = .ok (true, ℓ') →
        holdings ℓ'.accts + debits mvs = holdings ℓ.accts + credits mvs := by
  induction mvs with
  | nil =>
    intro ℓ _
    refine ⟨trivial, fun ℓ' h ↦ ?_⟩
    cases h
    rfl
  | cons mv mvs ih =>
    intro ℓ hroom
    have hcredits : credits (mv :: mvs) = mv.credit + credits mvs := rfl
    have hdebits : debits (mv :: mvs) = mv.debit + debits mvs := rfl
    refine ⟨fun ℓ₁ h₁ ↦ ?_, fun ℓ' h ↦ ?_⟩
    · obtain ⟨hexact, hmove⟩ := step_holdings h₁ (by omega)
      exact ⟨hexact, (ih (by omega)).1⟩
    · obtain ⟨ℓ₁, h₁, hrun⟩ := runMoves_cons_true_iff.mp h
      obtain ⟨-, hmove⟩ := step_holdings h₁ (by omega)
      have hrest := (ih (by omega)).2 ℓ' hrun
      omega

/-- The withdrawals of a transaction make room for its deposits. -/
theorem run_txMoves {i : ℕ} {tx : Transaction} {ℓ : Ledger} (htx : tx.valueOut ≤ tx.valueIn)
    (hroom : holdings ℓ.accts < 2 ^ 64) :
    Throughout (step junk block) (fun ℓ mv ↦ mv.Exact ℓ.balance) ℓ (txMoves i tx) ∧
      ∀ ℓ', runMoves (step junk block) ℓ (txMoves i tx) = .ok (true, ℓ') →
        holdings ℓ'.accts + tx.valueIn = holdings ℓ.accts + tx.valueOut := by
  have hmoves : txMoves i tx
      = (Move.check i tx :: tx.vin.map (.withdraw tx)) ++ tx.vout.map .deposit := rfl
  have htake : credits (Move.check i tx :: tx.vin.map (.withdraw tx)) = 0 := by
    simp [credits, Move.credit, Function.comp_def]
  have htake' : debits (Move.check i tx :: tx.vin.map (.withdraw tx)) = tx.valueIn := by
    simp [debits, Move.debit, Function.comp_def, valueIn, exactSum]
  have hgive : credits (tx.vout.map .deposit) = tx.valueOut := by
    simp [credits, Move.credit, Function.comp_def, valueOut, exactSum]
  have hgive' : debits (tx.vout.map .deposit) = 0 := by
    simp [debits, Move.debit, Function.comp_def]
  obtain ⟨hexact, htaken⟩ := @run_holdings junk block _ ℓ (by rwa [htake, Nat.add_zero])
  -- what is left after the withdrawals has room for the deposits
  have hleft : ∀ ℓ₁, runMoves (step junk block) ℓ
      (Move.check i tx :: tx.vin.map (.withdraw tx)) = .ok (true, ℓ₁) →
      holdings ℓ₁.accts + tx.valueIn = holdings ℓ.accts ∧
        holdings ℓ₁.accts + credits (tx.vout.map .deposit) < 2 ^ 64 := by
    intro ℓ₁ h₁
    have h := htaken ℓ₁ h₁
    rw [htake, htake', Nat.add_zero] at h
    exact ⟨h, by omega⟩
  rw [hmoves]
  refine ⟨hexact.append fun ℓ₁ h₁ ↦ (run_holdings (hleft ℓ₁ h₁).2).1, fun ℓ' h ↦ ?_⟩
  obtain ⟨ℓ₁, h₁, h₂⟩ := runMoves_append_true_iff.mp h
  have hgiven := (run_holdings (hleft ℓ₁ h₁).2).2 ℓ' h₂
  have htotal := (hleft ℓ₁ h₁).1
  omega

/-- **The supply along a block.** Transactions whose inputs cover their outputs are made without a
wrap, and the holdings change by what they make up. -/
theorem run_movesFrom {vtx : List Transaction} : ∀ {i : ℕ} {ℓ : Ledger},
    (∀ tx ∈ vtx, tx.valueOut ≤ tx.valueIn) → holdings ℓ.accts < 2 ^ 64 →
    Throughout (step junk block) (fun ℓ mv ↦ mv.Exact ℓ.balance) ℓ (movesFrom i vtx) ∧
      ∀ ℓ', runMoves (step junk block) ℓ (movesFrom i vtx) = .ok (true, ℓ') →
        holdings ℓ'.accts + (vtx.map valueIn).sum
          = holdings ℓ.accts + (vtx.map valueOut).sum := by
  induction vtx with
  | nil =>
    intro i ℓ _ _
    refine ⟨trivial, fun ℓ' h ↦ ?_⟩
    cases h
    rfl
  | cons tx vtx ih =>
    intro i ℓ hvtx hroom
    have htx := hvtx tx List.mem_cons_self
    obtain ⟨hexact, hmoved⟩ := @run_txMoves junk block i tx ℓ htx hroom
    have hnext : ∀ ℓ₁, runMoves (step junk block) ℓ (txMoves i tx) = .ok (true, ℓ₁) →
        holdings ℓ₁.accts < 2 ^ 64 := by
      intro ℓ₁ h₁
      have h := hmoved ℓ₁ h₁
      omega
    have hrest : ∀ t ∈ vtx, t.valueOut ≤ t.valueIn := fun t ht ↦ hvtx t (List.mem_cons_of_mem _ ht)
    rw [movesFrom, List.map_cons, List.map_cons, List.sum_cons, List.sum_cons]
    refine ⟨hexact.append fun ℓ₁ h₁ ↦ (ih hrest (hnext ℓ₁ h₁)).1, fun ℓ' h ↦ ?_⟩
    obtain ⟨ℓ₁, h₁, h₂⟩ := runMoves_append_true_iff.mp h
    have hfirst := hmoved ℓ₁ h₁
    have hlater := (ih hrest (hnext ℓ₁ h₁)).2 ℓ' h₂
    omega

end Holdings

/-! ## The trie -/

/-- The balances of a trie in the middle of a block. -/
def Applying.balance (s : Applying) (k : UInt160) : UInt64 := balanceAt k s.root

theorem valueOut_le_of_checkTransaction {tip : Option TrieNode} {tx : Transaction}
    (h : checkTransaction tip tx = .ok ()) : tx.valueOut ≤ tx.valueIn :=
  (checkTransaction_eq_ok_iff.mp h).valueOut_le

section Supply

variable {H : List UInt8 → UInt256} {junk : ℕ → UInt64} {block : Block}
  {root root' : Option TrieNode} {undos : List TxUndo}

theorem tempApply_exact (hvalid : ValidRoot H root) (hroom : supply root < 2 ^ 64)
    (hblock : ∀ tx ∈ block.vtx, tx.valueOut ≤ tx.valueIn) :
    Throughout (Applying.step junk block) (fun s mv ↦ mv.Exact s.balance)
      ⟨root, Book.empty, []⟩ block.moves := by
  rw [supply_eq_holdings hvalid] at hroom
  have hstart : Refines H (accounts root) ⟨root, Book.empty, []⟩ (start (accounts root)) :=
    ⟨hvalid, rfl, rfl, rfl, rfl, trivial⟩
  refine Throughout.of_sameResult (step_refines junk block) (fun s ℓ mv href hexact ↦ ?_) hstart
    (@run_movesFrom junk block block.vtx 0 (start (accounts root)) hblock hroom).1
  have hbalance : s.balance = ℓ.balance := by
    funext k
    rw [Applying.balance, balanceAt_eq href.valid, href.accts, balance]
  rwa [hbalance]

theorem tempApply_supply (hvalid : ValidRoot H root) (hroom : supply root < 2 ^ 64)
    (hblock : ∀ tx ∈ block.vtx, tx.valueOut ≤ tx.valueIn)
    (h : tempApply junk root block = .ok (true, root', undos)) :
    supply root' + (block.vtx.map valueIn).sum
      = supply root + (block.vtx.map valueOut).sum := by
  obtain ⟨ℓ, hℓ, haccts⟩ := exists_ledger_of_tempApply hvalid h
  rw [supply_eq_holdings hvalid] at hroom ⊢
  rw [supply_eq_holdings (tempApply_eq_ok hvalid h).1, ← haccts]
  exact (@run_movesFrom junk block block.vtx 0 (start (accounts root)) hblock hroom).2 ℓ hℓ

/-- The trie the chain starts with: all coins are in account zero. -/
def genesisTrie : Option TrieNode :=
  some (Leaf.new 0 { AccountData.init with balance := MAX_MONEY }).toNode

/-- The transaction of the genesis block: an output without an input. -/
def genesisTx : Transaction :=
  { nVersion := 1, vin := [], vout := [⟨MAX_MONEY, 0⟩],
    msg := "2014/07/27 - Epoch Times - How Bitcoin Compares...".toList.map fun c ↦ c.toNat.toUInt8
    nLockHeight := 0, nLimitValue := 0, fSetLimit := false }

theorem tempApply_genesis (hheight : block.nHeight = 0) (hvtx : block.vtx = [genesisTx]) :
    tempApply junk none block
      = .ok (true, genesisTrie, [{ TxUndo.new 0 with create := true }]) := by
  rw [tempApply, hvtx, applyTxs_eq_runMoves]
  simp only [movesFrom, txMoves, genesisTx, List.map_nil, List.map_cons, List.nil_append,
    List.append_nil, runMoves, Applying.step, hheight]
  rfl

/-- The tries that blocks of checked transactions lead to from there; the caches of a trie may be
refreshed at any time. -/
inductive Reached (H : List UInt8 → UInt256) : Option TrieNode → Prop where
  | genesis : Reached H genesisTrie
  | block {junk : ℕ → UInt64} {root root' : Option TrieNode} {block : Block}
      {undos : List TxUndo} (hroot : Reached H root)
      (hblock : ∀ tx ∈ block.vtx, ∃ tip, checkTransaction tip tx = .ok ())
      (h : tempApply junk root block = .ok (true, root', undos)) : Reached H root'
  | hash {t : TrieNode} (ht : Reached H (some t)) : Reached H (some (TrieNode.hash H t).2)

theorem sum_valueOut_le {vtx : List Transaction} (h : ∀ tx ∈ vtx, tx.valueOut ≤ tx.valueIn) :
    (vtx.map valueOut).sum ≤ (vtx.map valueIn).sum :=
  List.sum_le_sum h

theorem sum_valueIn_sub_valueOut (vtx : List Transaction) :
    (vtx.map fun tx ↦ (tx.valueIn : ℤ) - tx.valueOut).sum
      = ((vtx.map valueIn).sum : ℕ) - ((vtx.map valueOut).sum : ℕ) := by
  induction vtx with
  | nil => rfl
  | cons tx vtx ih =>
    rw [List.map_cons, List.sum_cons, ih, List.map_cons, List.map_cons, List.sum_cons,
      List.sum_cons]
    push_cast
    ring

/-- The supply never grows past what it was at the start. -/
theorem Reached.valid_and_supply_le (h : Reached H root) :
    ValidRoot H root ∧ supply root ≤ MAX_MONEY.toNat := by
  induction h with
  | genesis => exact ⟨(AccountTrie.singleton 0 _).valid, le_rfl⟩
  | @block junk root root' block undos _ hblock h ih =>
    obtain ⟨hvalid, hsupply⟩ := ih
    have hcovered : ∀ tx ∈ block.vtx, tx.valueOut ≤ tx.valueIn := fun tx htx ↦
      (hblock tx htx).elim fun _ ↦ valueOut_le_of_checkTransaction
    have hroom : supply root < 2 ^ 64 := hsupply.trans_lt (by rw [toNat_MAX_MONEY]; norm_num)
    have htotal := tempApply_supply hvalid hroom hcovered h
    have hsum := sum_valueOut_le hcovered
    exact ⟨(tempApply_eq_ok hvalid h).1, by omega⟩
  | hash _ ih =>
    obtain ⟨hvalid, hsupply⟩ := ih
    obtain ⟨hvalid', hmap⟩ := (validRoot_some.mp hvalid).hash
    refine ⟨validRoot_some.mpr hvalid', ?_⟩
    rw [supply_eq_holdings hvalid] at hsupply
    rwa [supply_eq_holdings (validRoot_some.mpr hvalid'), accounts, hmap]

def payThree : Transaction := { payment 5 4 6 with vout := [⟨3, 6⟩] }

/-- **The supply is conserved.** On a trie whose balances sum to less than `2 ^ 64`, a block of
checked transactions that `TempApply` accepts is applied without a wrap and changes the sum by what
the transactions make up; and no chain of such blocks from the genesis state takes the sum past
`MAX_MONEY`. -/
theorem supply_conserved (H : List UInt8 → UInt256) :
    (∀ (junk : ℕ → UInt64) (root root' : Option TrieNode) (block : Block) (undos : List TxUndo),
      ValidRoot H root → supply root < 2 ^ 64 →
      (∀ tx ∈ block.vtx, ∃ tip, checkTransaction tip tx = .ok ()) →
      tempApply junk root block = .ok (true, root', undos) →
      Throughout (Applying.step junk block) (fun s mv ↦ mv.Exact s.balance)
          ⟨root, Book.empty, []⟩ block.moves ∧
        (supply root' : ℤ) = supply root
          - (block.vtx.map fun tx ↦ (tx.valueIn : ℤ) - tx.valueOut).sum) ∧
    ∀ root, Reached H root → supply root ≤ MAX_MONEY.toNat := by
  refine ⟨fun junk root root' block undos hvalid hroom hblock h ↦ ?_,
    fun root h ↦ h.valid_and_supply_le.2⟩
  have hcovered : ∀ tx ∈ block.vtx, tx.valueOut ≤ tx.valueIn := fun tx htx ↦
    (hblock tx htx).elim fun _ ↦ valueOut_le_of_checkTransaction
  refine ⟨tempApply_exact hvalid hroom hcovered, ?_⟩
  have htotal := tempApply_supply hvalid hroom hcovered h
  rw [sum_valueIn_sub_valueOut]
  omega

/-- Account `5` pays three coins to account `6` and one in fees; and a first block pays one coin out
of account zero. -/
theorem supply_conserved_fee :
    (∃ root' undos, tempApply (fun _ ↦ 0) tenInFive.root (blockOf [payThree])
        = .ok (true, root', undos) ∧ (supply root' : ℤ) = 10 - 1) ∧
    ∃ root undos, tempApply (fun _ ↦ 0) genesisTrie (blockOf [payment 0 1 7])
        = .ok (true, root, undos) ∧ supply root ≤ MAX_MONEY.toNat := by
  constructor
  · obtain ⟨root', undos, h⟩ := @exists_of_verdict (fun _ ↦ 0) tenInFive.root (blockOf [payThree])
      true (by decide +kernel)
    refine ⟨root', undos, h, ?_⟩
    refine ((supply_conserved Sha256.sha256d).1 _ _ _ _ _ tenInFive.valid (by decide +kernel)
      (fun tx htx ↦ ⟨none, ?_⟩) h).2
    obtain rfl := List.mem_singleton.mp htx
    decide +kernel
  · obtain ⟨root, undos, h⟩ := @exists_of_verdict (fun _ ↦ 0) genesisTrie
      (blockOf [payment 0 1 7]) true (by decide +kernel)
    refine ⟨root, undos, h, (supply_conserved Sha256.sha256d).2 root
      (.block .genesis (fun tx htx ↦ ⟨none, ?_⟩) h)⟩
    obtain rfl := List.mem_singleton.mp htx
    decide +kernel

end Supply

end Cryptonite
