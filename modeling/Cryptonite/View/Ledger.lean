import Cryptonite.Foundation.UndoLog
import Cryptonite.Trie.History
import Cryptonite.View.TempApply

/-!
# The ledger behind the trie

What `TempApply` and `Unapply` do to a trie depends on the trie only through the map of its
accounts.
This file states that map-level behaviour in its own terms and proves that the trie code refines it.

A block is a list of *moves*: for each transaction the payout check, its withdrawals and its
deposits, in this order. A move is refused, or it makes at most one *change* to one account; what
it remembers for later moves is the `Book`. The list of changes of a run is the input of the
undo-log library: `tempApply_refines` says that the undo list `TempApply` produces is, record by
record, the log of the changes, and `unapply_refines` that `Unapply` replays it.
-/

namespace Cryptonite

open UndoLog TrieEngine TxUndo Applying

/-- One step of applying a block. -/
inductive Move where
  /-- The payout check at the head of the `i`-th transaction. -/
  | check (i : ℕ) (tx : Transaction)
  /-- An input of a transaction. -/
  | withdraw (tx : Transaction) (txin : TxIn)
  /-- An output of a transaction. -/
  | deposit (txout : TxOut)

/-- The moves of the `i`-th transaction. -/
def txMoves (i : ℕ) (tx : Transaction) : List Move :=
  .check i tx :: (tx.vin.map (.withdraw tx) ++ tx.vout.map .deposit)

/-- The moves of a list of transactions, numbered from `i`. -/
def movesFrom : ℕ → List Transaction → List Move
  | _, [] => []
  | i, tx :: vtx => txMoves i tx ++ movesFrom (i + 1) vtx

def Block.moves (block : Block) : List Move := movesFrom 0 block.vtx

section RunMoves

variable {σ τ : Type}

/-- Make moves up to the first that is refused. -/
def runMoves (step : σ → Move → Exec (Bool × σ)) : σ → List Move → Exec (Bool × σ)
  | s, [] => .ok (true, s)
  | s, mv :: mvs =>
    match step s mv with
    | .error f => .error f
    | .ok (false, s) => .ok (false, s)
    | .ok (true, s) => runMoves step s mvs

variable {step : σ → Move → Exec (Bool × σ)} {s s' : σ} {mvs : List Move}

theorem runMoves_cons_true_iff {mv : Move} : runMoves step s (mv :: mvs) = .ok (true, s') ↔
      ∃ s₁, step s mv = .ok (true, s₁) ∧ runMoves step s₁ mvs = .ok (true, s') := by
  rw [runMoves]
  rcases step s mv with f | ⟨_ | _, s₁⟩ <;> simp

theorem runMoves_append (step : σ → Move → Exec (Bool × σ)) : ∀ (mvs mvs' : List Move) (s : σ),
    runMoves step s (mvs ++ mvs') = match runMoves step s mvs with
      | .error f => .error f
      | .ok (false, s) => .ok (false, s)
      | .ok (true, s) => runMoves step s mvs' := by
  intro mvs
  induction mvs with
  | nil => intro mvs' s; rfl
  | cons mv mvs ih =>
    intro mvs' s
    rw [List.cons_append, runMoves, runMoves]
    rcases step s mv with f | ⟨_ | _, s₁⟩
    · rfl
    · rfl
    · exact ih mvs' s₁

theorem runMoves_append_true_iff {mvs' : List Move} :
    runMoves step s (mvs ++ mvs') = .ok (true, s') ↔
      ∃ s₁, runMoves step s mvs = .ok (true, s₁) ∧ runMoves step s₁ mvs' = .ok (true, s') := by
  rw [runMoves_append]
  rcases runMoves step s mvs with f | ⟨_ | _, s₁⟩ <;> simp

/-- What holds at the start and is kept by every move that is made holds at the end. The invariant
may speak of the moves made so far. -/
theorem runMoves_induction {step : σ → Move → Exec (Bool × σ)} {P : List Move → σ → Prop}
    (hstep : ∀ done s mv s', P done s → step s mv = .ok (true, s') → P (done ++ [mv]) s')
    {mvs : List Move} {s s' : σ} (hstart : P [] s) (h : runMoves step s mvs = .ok (true, s')) :
    P mvs s' := by
  have hrun : ∀ mvs done s, P done s → runMoves step s mvs = .ok (true, s') →
      P (done ++ mvs) s' := by
    intro mvs
    induction mvs with
    | nil =>
      intro done s hP h
      cases h
      rwa [List.append_nil]
    | cons mv mvs ih =>
      intro done s hP h
      obtain ⟨s₁, h₁, hrest⟩ := runMoves_cons_true_iff.mp h
      rw [List.append_cons]
      exact ih _ s₁ (hstep done s mv s₁ hP h₁) hrest
  exact hrun mvs [] s hstart h

/-- Two results agree: the same fault, or the same verdict in related states. -/
def SameResult (R : σ → τ → Prop) : Exec (Bool × σ) → Exec (Bool × τ) → Prop
  | .ok (b, s), .ok (b', t) => b = b' ∧ R s t
  | .error f, .error f' => f = f'
  | _, _ => False

theorem runMoves_sameResult {R : σ → τ → Prop} {step' : τ → Move → Exec (Bool × τ)}
    (h : ∀ s t mv, R s t → SameResult R (step s mv) (step' t mv)) :
    ∀ (mvs : List Move) (s : σ) (t : τ), R s t →
      SameResult R (runMoves step s mvs) (runMoves step' t mvs) := by
  intro mvs
  induction mvs with
  | nil => intro s t hR; exact ⟨rfl, hR⟩
  | cons mv mvs ih =>
    intro s t hR
    have hstep := h s t mv hR
    rw [runMoves, runMoves]
    revert hstep
    rcases step s mv with f | ⟨b, s₁⟩ <;> rcases step' t mv with f' | ⟨b', t₁⟩ <;> intro hstep
    · exact hstep
    · exact False.elim hstep
    · exact False.elim hstep
    · obtain ⟨rfl, hR₁⟩ := hstep
      cases b
      · exact ⟨rfl, hR₁⟩
      · exact ih s₁ t₁ hR₁

end RunMoves

/-! ## The block as a list of moves -/

def Applying.step (junk : ℕ → UInt64) (block : Block) (s : Applying) :
    Move → Exec (Bool × Applying)
  | .check i tx => (coinbaseAllowed (junk i) block s.root tx).map fun b ↦ (b, s)
  | .withdraw tx txin => .ok (withdraw block.nHeight tx s txin)
  | .deposit txout => (deposit block.nHeight s txout).map fun s ↦ (true, s)

section Flatten

variable {junk : ℕ → UInt64} {block : Block}

theorem runMoves_withdraw (tx : Transaction) : ∀ (vin : List TxIn) (s : Applying),
    runMoves (step junk block) s (vin.map (.withdraw tx))
      = .ok (withdrawAll block.nHeight tx vin s) := by
  intro vin
  induction vin with
  | nil => intro s; rfl
  | cons txin vin ih =>
    intro s
    rw [List.map_cons, runMoves, step, withdrawAll]
    rcases withdraw block.nHeight tx s txin with ⟨_ | _, s₁⟩
    · rfl
    · exact ih s₁

theorem runMoves_deposit : ∀ (vout : List TxOut) (s : Applying),
    runMoves (step junk block) s (vout.map .deposit)
      = (vout.foldlM (deposit block.nHeight) s).map fun s ↦ (true, s) := by
  intro vout
  induction vout with
  | nil => intro s; rfl
  | cons txout vout ih =>
    intro s
    rw [List.map_cons, runMoves, step, List.foldlM_cons]
    rcases deposit block.nHeight s txout with f | s₁
    · rfl
    · exact ih s₁

theorem applyTx_eq_runMoves (i : ℕ) (tx : Transaction) (s : Applying) :
    applyTx (junk i) block s tx = runMoves (step junk block) s (txMoves i tx) := by
  rw [applyTx, txMoves, runMoves, step]
  rcases coinbaseAllowed (junk i) block s.root tx with f | _ | _
  · rfl
  · rfl
  · change _ = runMoves _ s _
    rw [runMoves_append, runMoves_withdraw]
    dsimp only [bind, Except.bind]
    rcases withdrawAll block.nHeight tx tx.vin s with ⟨_ | _, s₁⟩
    · rfl
    · change (do let s ← tx.vout.foldlM (deposit block.nHeight) s₁; pure (true, s))
        = runMoves _ s₁ _
      rw [runMoves_deposit]
      rcases tx.vout.foldlM (deposit block.nHeight) s₁ with f | s₂ <;> rfl

theorem applyTxs_eq_runMoves : ∀ (vtx : List Transaction) (i : ℕ) (s : Applying),
    applyTxs junk block i vtx s = runMoves (step junk block) s (movesFrom i vtx) := by
  intro vtx
  induction vtx with
  | nil => intro i s; rfl
  | cons tx vtx ih =>
    intro i s
    rw [applyTxs, movesFrom, runMoves_append, applyTx_eq_runMoves]
    rcases runMoves (step junk block) s (txMoves i tx) with f | ⟨_ | _, s₁⟩
    · rfl
    · rfl
    · exact ih (i + 1) s₁

end Flatten

/-! ## Moves on the map of accounts -/

namespace AccountData

/-- An account after a withdrawal: the height is its new age, a limit that has waited long enough is
in force, and a set-limit transaction announces a new one, which counts at once if it is lower. -/
def afterWithdrawal (a : AccountData) (nHeight : UInt64) (tx : Transaction) (nValue : UInt64) :
    AccountData :=
  let limit := if nHeight - a.age > MIN_LIMIT_TIME then a.futureLimit else a.limit
  { age := nHeight
    balance := a.balance - nValue
    limit := if tx.fSetLimit ∧ tx.nLimitValue < limit then tx.nLimitValue else limit
    futureLimit := if tx.fSetLimit then tx.nLimitValue else a.futureLimit }

/-- An account stays while it holds `MIN_BALANCE`. -/
def keep (a : AccountData) : Option AccountData := if a.balance < MIN_BALANCE then none else some a

theorem keep_eq_some_iff {a a' : AccountData} : a.keep = some a' ↔ 0 < a.balance ∧ a = a' := by
  have hlt : a.balance < MIN_BALANCE ↔ ¬0 < a.balance := by
    rw [MIN_BALANCE, UInt64.lt_iff_toNat_lt, UInt64.lt_iff_toNat_lt, not_lt]
    exact Nat.lt_one_iff.trans Nat.le_zero.symm
  rw [keep, Option.ite_none_left_eq_some, hlt, not_not, Option.some_inj]

end AccountData

def afterDeposit (nHeight nValue : UInt64) : Option AccountData → AccountData
  | some a => { a with balance := a.balance + nValue }
  | none => { AccountData.init with age := nHeight, balance := AccountData.init.balance + nValue }

def balanceOf : Option AccountData → UInt64
  | some a => a.balance
  | none => 0

/-- A withdrawal within the limit is refused: the balance does not cover it, or it meets a limit
switch of the same account in the same block. -/
def refused (nHeight : UInt64) (tx : Transaction) (book : Book) (txin : TxIn) (a : AccountData) :
    Bool :=
  decide (txin.nValue > a.balance) ||
  (!tx.fSetLimit && book.setLimit.contains txin.pubKey) ||
  (tx.fSetLimit && decide (tx.nLimitValue < a.limit) && book.setTxIn.contains txin.pubKey) ||
  (decide (nHeight - a.age > MIN_LIMIT_TIME) &&
    (a.futureLimit != a.limit && book.setTxIn.contains txin.pubKey))

/-- The state of a ledger in the middle of a block. -/
structure Ledger where
  /-- The accounts. -/
  accts : AccountMap
  /-- What earlier moves of the block left. -/
  book : Book
  /-- The changes made so far. -/
  changes : List (UInt160 × Option AccountData)

namespace Ledger

/-- A ledger at the start of a block. -/
def start (accts : AccountMap) : Ledger := ⟨accts, Book.empty, []⟩

def change (ℓ : Ledger) (k : UInt160) (v : Option AccountData) (book : Book) : Ledger :=
  ⟨Function.update ℓ.accts k v, book, ℓ.changes ++ [(k, v)]⟩

theorem accts_change (ℓ : Ledger) (k : UInt160) (v : Option AccountData) (book : Book) :
    (ℓ.change k v book).accts = Function.update ℓ.accts k v := rfl

def step (junk : ℕ → UInt64) (block : Block) (ℓ : Ledger) : Move → Exec (Bool × Ledger)
  | .check i tx =>
    if tx.isCoinBase then
      match tx.vout with
      | [] => .error .outOfBounds
      | txout :: _ => block.getFees.map fun fees ↦
        (!decide (txout.nValue > getBlockValue (junk i) (balanceOf (ℓ.accts 0)) fees), ℓ)
    else .ok (true, ℓ)
  | .withdraw tx txin =>
    match ℓ.accts txin.pubKey with
    | none => .ok (false, ℓ)
    | some a =>
      match checkLimit tx.fSetLimit ℓ.book.limits txin.pubKey a.limit txin.nValue with
      | none => .ok (false, ℓ)
      | some limits =>
        if refused block.nHeight tx ℓ.book txin a then .ok (false, ℓ)
        else .ok (true, ℓ.change txin.pubKey
          (a.afterWithdrawal block.nHeight tx txin.nValue).keep (ℓ.book.note tx txin.pubKey limits))
  | .deposit txout =>
    .ok (true, ℓ.change txout.pubKey
      (some (afterDeposit block.nHeight txout.nValue (ℓ.accts txout.pubKey))) ℓ.book)

variable {junk : ℕ → UInt64} {block : Block} {ℓ ℓ' : Ledger} {tx : Transaction}

theorem step_check {i : ℕ} {b : Bool} (h : step junk block ℓ (.check i tx) = .ok (b, ℓ')) :
    ℓ' = ℓ ∧ (b = true → tx.isCoinBase = true → ∃ txout vout fees, tx.vout = txout :: vout ∧
      block.getFees = .ok fees ∧
      txout.nValue ≤ getBlockValue (junk i) (balanceOf (ℓ.accts 0)) fees) := by
  rw [step] at h
  split at h
  · split at h
    · cases h
    · rename_i txout vout hvout
      rcases hfees : block.getFees with f | fees <;> rw [hfees] at h
      · simp [Except.map] at h
      · cases h
        refine ⟨rfl, fun hb _ ↦ ⟨txout, vout, fees, hvout, rfl, ?_⟩⟩
        simpa using hb
  · rename_i hcoinbase
    cases h
    exact ⟨rfl, fun _ hc ↦ absurd hc hcoinbase⟩

theorem step_withdraw {txin : TxIn} (h : step junk block ℓ (.withdraw tx txin) = .ok (true, ℓ')) :
    ∃ a limits, ℓ.accts txin.pubKey = some a ∧
      checkLimit tx.fSetLimit ℓ.book.limits txin.pubKey a.limit txin.nValue = some limits ∧
      refused block.nHeight tx ℓ.book txin a = false ∧
      ℓ' = ℓ.change txin.pubKey (a.afterWithdrawal block.nHeight tx txin.nValue).keep
        (ℓ.book.note tx txin.pubKey limits) := by
  rw [step] at h
  split at h
  · cases h
  · rename_i a ha
    split at h
    · cases h
    · rename_i limits hlimits
      split at h
      · cases h
      · rename_i hrefused
        cases h
        exact ⟨a, limits, ha, hlimits, by simpa using hrefused, rfl⟩

/-- Apply a block to a map of accounts. -/
def apply (junk : ℕ → UInt64) (accts : AccountMap) (block : Block) : Exec (Bool × Ledger) :=
  runMoves (step junk block) (start accts) block.moves

end Ledger

/-! ## Refinement -/

def TxUndo.ofRecord : UInt160 × Record AccountData → TxUndo
  | (k, .erase) => { TxUndo.new k with create := true }
  | (k, .restore a) => { TxUndo.ofAccount k a with destroy := true }
  | (k, .reset a) => TxUndo.ofAccount k a

/-- The trie in the middle of a block represents the ledger, and the undo list is its log. -/
structure Refines (H : List UInt8 → UInt256) (base : AccountMap) (s : Applying) (ℓ : Ledger) :
    Prop where
  /-- The trie is valid. -/
  valid : ValidRoot H s.root
  /-- It holds the accounts. -/
  accts : accounts s.root = ℓ.accts
  /-- The local variables are the same. -/
  book : s.book = ℓ.book
  /-- The accounts are those the changes lead to. -/
  run : ℓ.accts = UndoLog.run base ℓ.changes
  /-- The undo list is the log of the changes. -/
  undos : s.undos = (log base ℓ.changes).map TxUndo.ofRecord
  /-- Every change makes, alters or destroys an account. -/
  proper : ProperRun base ℓ.changes

section Refinement

variable {H : List UInt8 → UInt256} {base : AccountMap} {s : Applying} {ℓ : Ledger}

variable {root : Option TrieNode} {k : UInt160}

theorem Refines.change (h : Refines H base s ℓ)
    {v : Option AccountData} {book : Book} {undo : TxUndo} (hvalid : ValidRoot H root)
    (haccts : accounts root = Function.update (accounts s.root) k v)
    (hproper : ℓ.accts k ≠ none ∨ v ≠ none)
    (hundo : undo = ofRecord (k, record (ℓ.accts k) v)) :
    Refines H base ⟨root, book, s.undos ++ [undo]⟩ (ℓ.change k v book) where
  valid := hvalid
  accts := by rw [haccts, h.accts]; rfl
  book := rfl
  run := by rw [Ledger.change, run_concat, ← h.run]
  undos := by
    rw [Ledger.change, log_concat, List.map_append, ← h.run, ← h.undos, hundo]
    rfl
  proper := (properRun_concat _ _ _ _).mpr ⟨h.proper, by rwa [← h.run]⟩

theorem Refines.find (h : Refines H base s ℓ) (key : UInt160) :
    (TrieEngine.find key s.root = none ∧ ℓ.accts key = none) ∨
      ∃ p, TrieEngine.find key s.root = some p ∧ s.root = some p.root ∧ p.key = key ∧
        Valid H p.root ∧ ℓ.accts key = some p.data := by
  have hmap := find_map_data h.valid key
  rw [h.accts] at hmap
  rcases hf : TrieEngine.find key s.root with _ | p
  · rw [hf] at hmap
    exact Or.inl ⟨rfl, hmap.symm⟩
  · rw [hf] at hmap
    obtain ⟨hroot, hkey⟩ := find_root hf
    exact Or.inr ⟨p, rfl, hroot, hkey, h.valid _ hroot, hmap.symm⟩

@[simp] theorem key_set (p : LeafPtr) (v : AccountData) : (p.set v).key = p.key := rfl

theorem setKey_set (p : LeafPtr) (v : AccountData) : (p.set v).setKey p.key = p.set v :=
  set_set p v v

@[simp] theorem data_set (p : LeafPtr) (v : AccountData) : (p.set v).data = v := rfl

/-- The setters of a withdrawal, whichever of them are called, amount to one. -/
theorem settle_eq_set (p : LeafPtr) (nHeight : UInt64) (tx : Transaction) (nValue : UInt64) :
    settle nHeight tx nValue p = p.set (p.data.afterWithdrawal nHeight tx nValue) := by
  simp only [settle, AccountData.afterWithdrawal, LeafPtr.setAge, LeafPtr.setBalance,
    LeafPtr.setLimit, LeafPtr.setFutureLimit]
  by_cases hage : nHeight - p.data.age > MIN_LIMIT_TIME <;> by_cases htx : tx.fSetLimit = true <;>
    simp only [hage, htx, if_true, if_false, data_set, set_set, true_and, false_and,
      Bool.false_eq_true]
  · by_cases hlow : tx.nLimitValue < p.data.futureLimit <;> simp [hlow]
  · by_cases hlow : tx.nLimitValue < p.data.limit <;> simp [hlow]

theorem withdraw_refines (h : Refines H base s ℓ) (junk : ℕ → UInt64) (block : Block)
    (tx : Transaction) (txin : TxIn) :
    SameResult (Refines H base) (step junk block s (.withdraw tx txin))
      (Ledger.step junk block ℓ (.withdraw tx txin)) := by
  rw [step, Ledger.step, withdraw]
  rcases h.find txin.pubKey with ⟨hfind, hnone⟩ | ⟨p, hfind, hroot, hkey, hvalid, hsome⟩
  · rw [hfind, hnone]
    exact ⟨rfl, h⟩
  · rw [hfind, hsome]
    dsimp only
    rw [h.book, hkey]
    rcases checkLimit tx.fSetLimit ℓ.book.limits txin.pubKey p.data.limit txin.nValue with
      _ | limits
    · exact ⟨rfl, h⟩
    · dsimp only
      rw [settle_eq_set, data_set]
      by_cases href : refused block.nHeight tx ℓ.book txin p.data = true
      · rw [if_pos href]
        simp only [refused, Bool.or_eq_true, decide_eq_true_eq] at href
        split_ifs with h₁ h₂ h₃ h₄
        · exact ⟨rfl, h⟩
        · exact ⟨rfl, h⟩
        · exact ⟨rfl, h⟩
        · exact ⟨rfl, h⟩
        · tauto
        · tauto
      · rw [if_neg href]
        simp only [refused, Bool.or_eq_true, decide_eq_true_eq, not_or] at href
        obtain ⟨⟨⟨h₁, h₂⟩, h₃⟩, h₄⟩ := href
        rw [if_neg h₁, if_neg h₂, if_neg h₃, if_neg h₄]
        obtain ⟨hset, hmap⟩ := set_spec hvalid
          (p.data.afterWithdrawal block.nHeight tx txin.nValue)
        rw [AccountData.keep]
        split_ifs with hlow
        · obtain ⟨hremove, herase⟩ := remove_spec hset
          refine ⟨rfl, h.change hremove ?_ (Or.inl (by rw [hsome]; simp)) (by rw [hsome]; rfl)⟩
          rw [herase, hmap, key_set, Function.update_idem, hroot, hkey]
          rfl
        · refine ⟨rfl, h.change (validRoot_some.mpr hset) ?_ (Or.inr (by simp))
            (by rw [hsome]; rfl)⟩
          rw [hroot, ← hkey]
          exact hmap

theorem deposit_refines (h : Refines H base s ℓ) (junk : ℕ → UInt64) (block : Block)
    (txout : TxOut) : SameResult (Refines H base) (step junk block s (.deposit txout))
      (Ledger.step junk block ℓ (.deposit txout)) := by
  rw [step, Ledger.step, deposit]
  rcases h.find txout.pubKey with ⟨hfind, hnone⟩ | ⟨p, hfind, hroot, hkey, hvalid, hsome⟩
  · rw [hfind, hnone]
    obtain ⟨t, hinsert, hvalid, hmap⟩ := insert_spec h.valid
      (insertable_new txout.pubKey (afterDeposit block.nHeight txout.nValue none))
      (by rw [h.accts]; exact hnone)
    change SameResult _ (Except.map _ (do
      let root ← insert s.root
        (Leaf.new txout.pubKey (afterDeposit block.nHeight txout.nValue none))
      pure _)) _
    rw [hinsert]
    refine ⟨rfl, ?_⟩
    rw [← h.book]
    exact h.change (validRoot_some.mpr hvalid) hmap (Or.inr (by simp)) (by rw [hnone]; rfl)
  · rw [hfind, hsome]
    obtain ⟨hset, hmap⟩ := set_spec hvalid
      (afterDeposit block.nHeight txout.nValue (some p.data))
    refine ⟨rfl, ?_⟩
    rw [← h.book]
    refine h.change (validRoot_some.mpr hset) ?_ (Or.inr (by simp)) (by rw [hsome, hkey]; rfl)
    rw [hroot, ← hkey]
    exact hmap

theorem balanceAt_eq (h : ValidRoot H root) (key : UInt160) :
    balanceAt key root = balanceOf (accounts root key) := by
  rw [balanceAt, ← find_map_data h]
  rcases TrieEngine.find key root with _ | p <;> rfl

theorem check_refines (h : Refines H base s ℓ) (junk : ℕ → UInt64) (block : Block) (i : ℕ)
    (tx : Transaction) : SameResult (Refines H base) (step junk block s (.check i tx))
      (Ledger.step junk block ℓ (.check i tx)) := by
  rw [step, Ledger.step, coinbaseAllowed]
  split_ifs with hcb
  · dsimp only
    rw [balanceAt_eq h.valid, h.accts]
    rcases tx.vout with _ | ⟨txout, vout⟩
    · exact rfl
    · rcases block.getFees with f | fees
      · exact rfl
      · exact ⟨rfl, h⟩
  · exact ⟨rfl, h⟩

theorem step_refines (junk : ℕ → UInt64) (block : Block) (s : Applying) (ℓ : Ledger) (mv : Move)
    (h : Refines H base s ℓ) : SameResult (Refines H base) (step junk block s mv)
      (Ledger.step junk block ℓ mv) := by
  rcases mv with ⟨i, tx⟩ | ⟨tx, txin⟩ | txout
  · exact check_refines h junk block i tx
  · exact withdraw_refines h junk block tx txin
  · exact deposit_refines h junk block txout

theorem refines_start (hvalid : ValidRoot H root) :
    Refines H (accounts root) ⟨root, Book.empty, []⟩ (Ledger.start (accounts root)) :=
  ⟨hvalid, rfl, rfl, rfl, rfl, trivial⟩

/-- **`TempApply` refines the ledger.** On a valid trie it ends in the same fault, or with the same
verdict in a valid trie that holds the ledger's accounts; and its undo list is the log of the
ledger's changes, reversed if the verdict is `true`. -/
theorem tempApply_refines (hvalid : ValidRoot H root) (junk : ℕ → UInt64) (block : Block) :
    match Ledger.apply junk (accounts root) block with
    | .error f => tempApply junk root block = .error f
    | .ok (b, ℓ) => ∃ root',
        tempApply junk root block = .ok (b, root',
          if b then ((log (accounts root) ℓ.changes).map ofRecord).reverse
          else (log (accounts root) ℓ.changes).map ofRecord) ∧
        ValidRoot H root' ∧ accounts root' = run (accounts root) ℓ.changes ∧
        ℓ.accts = run (accounts root) ℓ.changes ∧ ProperRun (accounts root) ℓ.changes := by
  have hrun := runMoves_sameResult (step_refines junk block) block.moves _ _ (refines_start hvalid)
  rw [tempApply, applyTxs_eq_runMoves, Ledger.apply, ← Block.moves]
  revert hrun
  rcases runMoves (step junk block) ⟨root, Book.empty, []⟩ block.moves with
    f | ⟨b, s⟩ <;>
  rcases runMoves (Ledger.step junk block) (Ledger.start (accounts root)) block.moves with
    f' | ⟨b', ℓ⟩ <;> intro hrun
  · exact congrArg Except.error hrun
  · exact False.elim hrun
  · exact False.elim hrun
  · obtain ⟨rfl, h⟩ := hrun
    refine ⟨s.root, ?_, h.valid, h.accts.trans h.run, h.run, h.proper⟩
    rw [← h.undos]
    cases b <;> rfl

/-! ## Unapply -/

/-- How `Unapply` fails on a record that does not fit. -/
def Clash.fault : Clash → Fault
  | .occupied => .assertion
  | .missing => .nullDeref

theorem unapplyOne_erase (root : Option TrieNode) (k : UInt160) :
    unapplyOne root (ofRecord (k, .erase))
      = .ok ((TrieEngine.find k root).elim root remove) := by
  simp only [unapplyOne, ofRecord, new, if_true]
  rcases TrieEngine.find k root with _ | p <;> rfl

theorem unapplyOne_restore (root : Option TrieNode) (k : UInt160) (a : AccountData) :
    unapplyOne root (ofRecord (k, .restore a))
      = (insert root (Leaf.new k a)).map some := rfl

theorem unapplyOne_reset (root : Option TrieNode) (k : UInt160) (a : AccountData) :
    unapplyOne root (ofRecord (k, .reset a))
      = (TrieEngine.find k root).elim (.error .nullDeref) fun p ↦
          .ok (some (((((p.setAge a.age).setKey k).setBalance a.balance).setLimit
            a.limit).setFutureLimit a.futureLimit).root) := by
  simp only [unapplyOne, ofRecord, ofAccount, new, Bool.false_eq_true, if_false]
  rcases TrieEngine.find k root with _ | p <;> rfl

theorem unapplyOne_absent (hvalid : ValidRoot H root)
    (hf : TrieEngine.find k root = none) (r : Record AccountData) :
    match applyAt (accounts root) (k, r) with
    | .error e => unapplyOne root (ofRecord (k, r)) = .error (Clash.fault e)
    | .ok m => ∃ root', unapplyOne root (ofRecord (k, r)) = .ok root' ∧
        ValidRoot H root' ∧ accounts root' = m := by
  have hmap := find_map_data hvalid k
  rw [hf, Option.map_none] at hmap
  rcases r with _ | a | a
  · refine ⟨root, ?_, hvalid, ?_⟩
    · rw [unapplyOne_erase, hf, Option.elim_none]
    · rw [hmap, Function.update_eq_self]
  · rw [applyAt, ← hmap]
    obtain ⟨t, ht, htvalid, htmap⟩ := insert_spec hvalid (insertable_new k a) hmap.symm
    refine ⟨some t, ?_, validRoot_some.mpr htvalid, htmap⟩
    rw [unapplyOne_restore, ht]
    rfl
  · rw [applyAt, ← hmap]
    change unapplyOne root (ofRecord (k, .reset a)) = .error .nullDeref
    rw [unapplyOne_reset, hf, Option.elim_none]

theorem unapplyOne_present {p : LeafPtr}
    (hvalid : ValidRoot H root) (hf : TrieEngine.find k root = some p) (r : Record AccountData) :
    match applyAt (accounts root) (k, r) with
    | .error e => unapplyOne root (ofRecord (k, r)) = .error (Clash.fault e)
    | .ok m => ∃ root', unapplyOne root (ofRecord (k, r)) = .ok root' ∧
        ValidRoot H root' ∧ accounts root' = m := by
  have hmap := find_map_data hvalid k
  rw [hf, Option.map_some] at hmap
  obtain ⟨hroot, hkey⟩ := find_root hf
  have hp : Valid H p.root := hvalid _ hroot
  have haccts : accounts root = p.root.toMap := by rw [hroot]; rfl
  rcases r with _ | a | a
  · obtain ⟨hremove, herase⟩ := remove_spec hp
    refine ⟨remove p, ?_, hremove, ?_⟩
    · rw [unapplyOne_erase, hf, Option.elim_some]
    · rw [herase, haccts, hkey]
  · rw [applyAt, ← hmap]
    change unapplyOne root (ofRecord (k, .restore a)) = .error .assertion
    rw [unapplyOne_restore, @insert_present H root (Leaf.new k a) p.data hvalid hmap.symm]
    rfl
  · obtain ⟨hset, hsetmap⟩ := set_spec hp a
    rw [applyAt, ← hmap]
    refine ⟨some (p.set a).root, ?_, validRoot_some.mpr hset, ?_⟩
    · rw [unapplyOne_reset, hf, Option.elim_some, ← hkey]
      simp only [LeafPtr.setAge, setKey_set, LeafPtr.setBalance, LeafPtr.setLimit,
        LeafPtr.setFutureLimit, set_set, data_set]
    · rw [haccts, ← hkey]
      exact hsetmap

theorem unapplyOne_refines (hvalid : ValidRoot H root) (r : UInt160 × Record AccountData) :
    match applyAt (accounts root) r with
    | .error e => unapplyOne root (ofRecord r) = .error (Clash.fault e)
    | .ok m => ∃ root', unapplyOne root (ofRecord r) = .ok root' ∧ ValidRoot H root' ∧
        accounts root' = m := by
  rcases hf : TrieEngine.find r.1 root with _ | p
  · exact unapplyOne_absent hvalid hf r.2
  · exact unapplyOne_present hvalid hf r.2

/-- **`Unapply` refines replay.** On a valid trie it ends in the fault of the first record that does
not fit, or in a valid trie that holds the replayed accounts. -/
theorem unapply_refines : ∀ (rs : List (UInt160 × Record AccountData)) {root : Option TrieNode},
    ValidRoot H root →
    match replay (accounts root) rs with
    | .error e => unapply root (rs.map ofRecord) = .error (Clash.fault e)
    | .ok m => ∃ root', unapply root (rs.map ofRecord) = .ok root' ∧ ValidRoot H root' ∧
        accounts root' = m := by
  intro rs
  induction rs with
  | nil => intro root h; exact ⟨root, rfl, h, rfl⟩
  | cons r rs ih =>
    intro root h
    have hone := unapplyOne_refines h r
    rw [replay_cons, List.map_cons, unapply, List.foldlM_cons]
    revert hone
    rcases applyAt (accounts root) r with e | m <;> intro hone
    · rw [hone]
      rfl
    · obtain ⟨root₁, hroot₁, hvalid₁, hmap₁⟩ := hone
      rw [hroot₁]
      change match replay m rs with
        | .error e => unapply root₁ (rs.map ofRecord) = .error (Clash.fault e)
        | .ok m => ∃ root', unapply root₁ (rs.map ofRecord) = .ok root' ∧
            ValidRoot H root' ∧ accounts root' = m
      rw [← hmap₁]
      exact ih hvalid₁

end Refinement

end Cryptonite
