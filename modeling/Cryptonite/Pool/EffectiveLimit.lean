import Cryptonite.Pool.Allowance

/-!
# The allotment and what a block may withdraw

The memory pool and the miner plan with `allotmentAt`: the balance of an account, cut to what
`TrieView::Limit` returns. `Limit` counts a new limit that is due, although no withdrawal has put it
in force yet. `TempApply` reads the limit in force, checks the input against it, and puts the new
limit in its place only afterwards.

`FirstInput.withdraw_eq` says which first inputs of an account `TempApply` lets through: those
within the balance and the limit in force. `allotmentAt_exact_iff` compares this with the allotment.
-/

namespace Cryptonite

/-! ## The first move on an account -/

def Move.Touches (k : UInt160) : Move → Prop
  | .check _ _ => False
  | .withdraw _ txin => txin.pubKey = k
  | .deposit txout => txout.pubKey = k

/-- The first move of the block on the account `k` is an input of `tx`, which sets no limit. -/
structure Block.FirstInput (block : Block) (k : UInt160) (tx : Transaction) (txin : TxIn)
    (done rest : List Move) : Prop where
  moves : block.moves = done ++ .withdraw tx txin :: rest
  untouched : ∀ mv ∈ done, ¬mv.Touches k
  ordinary : tx.fSetLimit = false
  key : txin.pubKey = k

/-- Nothing has happened to the account `k` since the start of the block. -/
structure Ledger.Unmoved (k : UInt160) (a : AccountData) (ℓ : Ledger) : Prop where
  accts : ℓ.accts k = some a
  limits : ℓ.book.limits k = none
  setLimit : k ∉ ℓ.book.setLimit
  setTxIn : k ∉ ℓ.book.setTxIn

section Unmoved

variable {junk : ℕ → UInt64} {block : Block} {ℓ ℓ' : Ledger} {k : UInt160} {a : AccountData}

theorem Ledger.unmoved_start {accts : AccountMap} (ha : accts k = some a) :
    (Ledger.start accts).Unmoved k a :=
  ⟨ha, rfl, List.not_mem_nil, List.not_mem_nil⟩

theorem Ledger.Unmoved.change (h : ℓ.Unmoved k a) {k' : UInt160} (hne : k' ≠ k)
    (o : Option AccountData) : (ℓ.change k' o ℓ.book).Unmoved k a :=
  ⟨(Function.update_of_ne hne.symm _ _).trans h.accts, h.limits, h.setLimit, h.setTxIn⟩

theorem Ledger.Unmoved.step (h : ℓ.Unmoved k a) {mv : Move} (hmv : ¬mv.Touches k)
    (hstep : Ledger.step junk block ℓ mv = .ok (true, ℓ')) : ℓ'.Unmoved k a := by
  rcases mv with ⟨i, tx⟩ | ⟨tx, txin⟩ | txout
  · rwa [(Ledger.step_check hstep).1]
  · obtain ⟨b, limits, -, hlimits, -, rfl⟩ := Ledger.step_withdraw hstep
    have hkey : k ≠ txin.pubKey := Ne.symm hmv
    obtain ⟨hset, hin⟩ := @Book.notMem_note ℓ.book tx _ k limits hkey h.setLimit h.setTxIn
    refine ⟨(Function.update_of_ne hkey _ _).trans h.accts, ?_, hset, hin⟩
    rw [Ledger.change, Book.limits_note, checkLimit_of_ne hmv hlimits, h.limits]
  · cases hstep
    exact h.change hmv _

theorem Ledger.Unmoved.runMoves {done : List Move} (h : ℓ.Unmoved k a)
    (hdone : ∀ mv ∈ done, ¬mv.Touches k)
    (hrun : Cryptonite.runMoves (Ledger.step junk block) ℓ done = .ok (true, ℓ')) :
    ℓ'.Unmoved k a := by
  induction done generalizing ℓ with
  | nil =>
    cases hrun
    exact h
  | cons mv done ih =>
    obtain ⟨ℓ₁, hstep, hrest⟩ := runMoves_cons_true_iff.mp hrun
    exact ih (h.step (hdone mv List.mem_cons_self) hstep)
      (fun mv' hmem ↦ hdone mv' (List.mem_cons_of_mem _ hmem)) hrest

theorem Ledger.Unmoved.withdraw (h : ℓ.Unmoved k a) {tx : Transaction} {txin : TxIn}
    (hkey : txin.pubKey = k) (hordinary : tx.fSetLimit = false) :
    ∃ ℓ', Ledger.step junk block ℓ (.withdraw tx txin) =
      .ok (decide (txin.nValue ≤ a.balance ∧ txin.nValue ≤ a.limit), ℓ') := by
  subst hkey
  have hrefused : refused block.nHeight tx ℓ.book txin a = decide (txin.nValue > a.balance) := by
    simp [refused, hordinary, h.setLimit, h.setTxIn]
  rw [Ledger.step, h.accts]
  dsimp only
  rw [hordinary, checkLimit, if_neg Bool.false_ne_true, h.limits, hrefused]
  by_cases hlimit : txin.nValue > a.limit
  · simp [hlimit, UInt64.not_le.mpr hlimit]
  · by_cases hbalance : txin.nValue > a.balance
    · simp [hlimit, hbalance, UInt64.not_le.mpr hbalance]
    · simp [hlimit, hbalance, UInt64.not_lt.mp hlimit, UInt64.not_lt.mp hbalance]

end Unmoved

/-! ## What a block lets through -/

/-- An amount gets past the checks of `TempApply` as the first input of an account, in every block
of a height that gets to it. -/
def PassesFirst (junk : ℕ → UInt64) (root : Option TrieNode) (nHeight : UInt64) (k : UInt160)
    (nValue : UInt64) : Prop :=
  ∀ block tx txin done rest s, block.nHeight = nHeight →
    block.FirstInput k tx txin done rest → txin.nValue = nValue →
    runMoves (Applying.step junk block) ⟨root, Book.empty, []⟩ done = .ok (true, s) →
    (withdraw block.nHeight tx s txin).1 = true

/-- Some block of a height that `TempApply` accepts has the amount as the first input of an
account. -/
def AcceptedFirst (junk : ℕ → UInt64) (root : Option TrieNode) (nHeight : UInt64) (k : UInt160)
    (nValue : UInt64) : Prop :=
  ∃ block tx txin done rest, block.nHeight = nHeight ∧
    block.FirstInput k tx txin done rest ∧ txin.nValue = nValue ∧
    (tempApply junk root block).map Prod.fst = .ok true

section Checks

variable {H : List UInt8 → UInt256} {root : Option TrieNode} {junk : ℕ → UInt64} {block : Block}
  {k : UInt160} {a : AccountData}

theorem Block.FirstInput.withdraw_eq (hvalid : ValidRoot H root)
    (ha : accounts root k = some a) {tx : Transaction} {txin : TxIn} {done rest : List Move}
    (hfirst : block.FirstInput k tx txin done rest) {s : Applying}
    (hrun : runMoves (Applying.step junk block) ⟨root, Book.empty, []⟩ done = .ok (true, s)) :
    (withdraw block.nHeight tx s txin).1 =
      decide (txin.nValue ≤ a.balance ∧ txin.nValue ≤ a.limit) := by
  have hsame := runMoves_sameResult (step_refines junk block) done _ _ (refines_start hvalid)
  rw [hrun] at hsame
  rcases hℓ : runMoves (Ledger.step junk block) (Ledger.start (accounts root)) done with
    f | ⟨b, ℓ⟩ <;> rw [hℓ] at hsame
  · exact False.elim hsame
  · obtain ⟨rfl, hrefines⟩ := hsame
    have hunmoved := (Ledger.unmoved_start ha).runMoves hfirst.untouched hℓ
    obtain ⟨ℓ', hstep⟩ := @Ledger.Unmoved.withdraw junk block _ _ _ hunmoved _ _ hfirst.key
      hfirst.ordinary
    have hverdict := withdraw_refines hrefines junk block tx txin
    rw [hstep, Applying.step] at hverdict
    exact hverdict.1

theorem Block.FirstInput.le_of_tempApply (hvalid : ValidRoot H root)
    (ha : accounts root k = some a) {tx : Transaction} {txin : TxIn} {done rest : List Move}
    (hfirst : block.FirstInput k tx txin done rest)
    (h : (tempApply junk root block).map Prod.fst = .ok true) :
    txin.nValue ≤ a.balance ∧ txin.nValue ≤ a.limit := by
  obtain ⟨root', undos, happly⟩ := exists_of_verdict h
  obtain ⟨ℓ, hℓ, -⟩ := exists_ledger_of_tempApply hvalid happly
  rw [Ledger.apply, hfirst.moves, runMoves_append_true_iff] at hℓ
  obtain ⟨ℓ₁, hdone, hrest⟩ := hℓ
  obtain ⟨ℓ₂, hstep, -⟩ := runMoves_cons_true_iff.mp hrest
  have hunmoved := (Ledger.unmoved_start ha).runMoves hfirst.untouched hdone
  obtain ⟨ℓ', hverdict⟩ := @Ledger.Unmoved.withdraw junk block _ _ _ hunmoved _ _ hfirst.key
    hfirst.ordinary
  rw [hstep] at hverdict
  exact of_decide_eq_true (Prod.mk.inj (Except.ok.inj hverdict)).1.symm

end Checks

/-! ## A block for every amount -/

section Opening

/-- A transaction that opens an account, if it is not there, and withdraws nothing. -/
def openingTx (k : UInt160) : Transaction :=
  { payment k 0 k with vin := [] }

/-- A transaction that withdraws an amount from one account and nothing from another. With two
inputs it is no coinbase transaction, whatever the accounts. -/
def spendingTx (k k' : UInt160) (nValue : UInt64) : Transaction :=
  { payment k nValue k with vin := [⟨nValue, k, []⟩, ⟨0, k', []⟩], vout := [] }

def openingBlock (nHeight : UInt64) (k k' : UInt160) (nValue : UInt64) : Block :=
  { blockOf [openingTx k', spendingTx k k' nValue] with nHeight }

variable {H : List UInt8 → UInt256} {root : Option TrieNode} {k k' : UInt160} {nValue : UInt64}

/-- The moves before the input. -/
def openingMoves (k k' : UInt160) (nValue : UInt64) : List Move :=
  [.check 0 (openingTx k'), .deposit ⟨0, k'⟩, .check 1 (spendingTx k k' nValue)]

theorem firstInput_openingBlock (nHeight : UInt64) (nValue : UInt64) (hne : k' ≠ k) :
    (openingBlock nHeight k k' nValue).FirstInput k (spendingTx k k' nValue) ⟨nValue, k, []⟩
      (openingMoves k k' nValue) [.withdraw (spendingTx k k' nValue) ⟨0, k', []⟩] where
  moves := rfl
  untouched := by
    intro mv hmem
    simp only [openingMoves, List.mem_cons, List.not_mem_nil, or_false] at hmem
    rcases hmem with rfl | rfl | rfl
    · exact id
    · exact hne
    · exact id
  ordinary := rfl
  key := rfl

/-- The ledger after them. -/
def openedLedger (nHeight : UInt64) (k' : UInt160) (accts : AccountMap) : Ledger :=
  (Ledger.start accts).change k' (some (afterDeposit nHeight 0 (accts k'))) Book.empty

theorem runMoves_openingMoves (junk : ℕ → UInt64) (nHeight : UInt64) (accts : AccountMap) :
    runMoves (Ledger.step junk (openingBlock nHeight k k' nValue)) (Ledger.start accts)
      (openingMoves k k' nValue) = .ok (true, openedLedger nHeight k' accts) := rfl

theorem exists_runMoves_openingMoves (hvalid : ValidRoot H root) (junk : ℕ → UInt64)
    (nHeight : UInt64) : ∃ s, runMoves (Applying.step junk (openingBlock nHeight k k' nValue))
      ⟨root, Book.empty, []⟩ (openingMoves k k' nValue) = .ok (true, s) := by
  have hsame := runMoves_sameResult (step_refines junk (openingBlock nHeight k k' nValue))
    (openingMoves k k' nValue) _ _ (refines_start hvalid)
  rw [runMoves_openingMoves] at hsame
  rcases hrun : runMoves (Applying.step junk (openingBlock nHeight k k' nValue))
    ⟨root, Book.empty, []⟩ (openingMoves k k' nValue) with f | ⟨b, s⟩ <;> rw [hrun] at hsame
  · exact False.elim hsame
  · obtain ⟨rfl, -⟩ := hsame
    exact ⟨s, rfl⟩

theorem tempApply_openingBlock (hvalid : ValidRoot H root) {a : AccountData}
    (ha : accounts root k = some a) (hne : k' ≠ k) (junk : ℕ → UInt64) (nHeight : UInt64)
    (hbalance : nValue ≤ a.balance) (hlimit : nValue ≤ a.limit) :
    (tempApply junk root (openingBlock nHeight k k' nValue)).map Prod.fst = .ok true := by
  have hfirst := firstInput_openingBlock nHeight nValue hne
  have hrun := @runMoves_openingMoves k k' nValue junk nHeight (accounts root)
  have hunmoved := (Ledger.unmoved_start ha).runMoves hfirst.untouched hrun
  have hother : (openedLedger nHeight k' (accounts root)).Unmoved k'
      (afterDeposit nHeight 0 (accounts root k')) :=
    ⟨Function.update_self _ _ _, rfl, List.not_mem_nil, List.not_mem_nil⟩
  obtain ⟨ℓ₁, hstep₁⟩ := @Ledger.Unmoved.withdraw junk (openingBlock nHeight k k' nValue) _ _ _
    hunmoved _ _ hfirst.key hfirst.ordinary
  rw [decide_eq_true ⟨hbalance, hlimit⟩] at hstep₁
  have hapart : ¬Move.Touches k' (.withdraw (spendingTx k k' nValue) ⟨nValue, k, []⟩) := hne.symm
  obtain ⟨ℓ₂, hstep₂⟩ := @Ledger.Unmoved.withdraw junk (openingBlock nHeight k k' nValue) _ _ _
    (hother.step hapart hstep₁) (spendingTx k k' nValue) ⟨0, k', []⟩ rfl rfl
  rw [decide_eq_true ⟨UInt64.zero_le, UInt64.zero_le⟩] at hstep₂
  have hledger : Ledger.apply junk (accounts root) (openingBlock nHeight k k' nValue)
      = .ok (true, ℓ₂) := by
    rw [Ledger.apply, hfirst.moves, runMoves_append_true_iff]
    exact ⟨_, hrun, runMoves_cons_true_iff.mpr
      ⟨ℓ₁, hstep₁, runMoves_cons_true_iff.mpr ⟨ℓ₂, hstep₂, rfl⟩⟩⟩
  obtain ⟨root', undos, happly, -⟩ := exists_tempApply_of_ledger hvalid hledger
  rw [happly]
  rfl

end Opening

/-! ## Agreement -/

section Agreement

variable {H : List UInt8 → UInt256} {root : Option TrieNode} {k : UInt160} {a : AccountData}

theorem exists_other (k : UInt160) : ∃ k' : UInt160, k' ≠ k :=
  ⟨k + 1, fun h ↦ by simp at h⟩

theorem passesFirst_iff (hvalid : ValidRoot H root) (ha : accounts root k = some a)
    (junk : ℕ → UInt64) (nHeight nValue : UInt64) :
    PassesFirst junk root nHeight k nValue ↔ nValue ≤ a.balance ∧ nValue ≤ a.limit := by
  constructor
  · intro h
    obtain ⟨k', hne⟩ := exists_other k
    obtain ⟨s, hrun⟩ := @exists_runMoves_openingMoves H root k k' nValue hvalid junk nHeight
    have hfirst := firstInput_openingBlock nHeight nValue hne
    have hpasses := h _ _ _ _ _ s rfl hfirst rfl hrun
    rw [hfirst.withdraw_eq hvalid ha hrun] at hpasses
    exact of_decide_eq_true hpasses
  · rintro hle block tx txin done rest s - hfirst rfl hrun
    rw [hfirst.withdraw_eq hvalid ha hrun]
    exact decide_eq_true hle

theorem acceptedFirst_iff (hvalid : ValidRoot H root) (ha : accounts root k = some a)
    (junk : ℕ → UInt64) (nHeight nValue : UInt64) :
    AcceptedFirst junk root nHeight k nValue ↔ nValue ≤ a.balance ∧ nValue ≤ a.limit := by
  constructor
  · rintro ⟨block, tx, txin, done, rest, -, hfirst, rfl, happly⟩
    exact hfirst.le_of_tempApply hvalid ha happly
  · rintro ⟨hbalance, hlimit⟩
    obtain ⟨k', hne⟩ := exists_other k
    exact ⟨_, _, _, _, _, rfl, firstInput_openingBlock nHeight nValue hne, rfl,
      tempApply_openingBlock hvalid ha hne junk nHeight hbalance hlimit⟩

theorem capped_same_iff (balance l l' : UInt64) :
    (∀ v : UInt64, v ≤ balance ∧ v ≤ l ↔ v ≤ balance ∧ v ≤ l') ↔
      (l ≠ l' → balance ≤ l ∧ balance ≤ l') := by
  simp only [UInt64.le_iff_toNat_le, ne_eq, ← UInt64.toNat_inj]
  constructor
  · intro h hne
    have hl := h l
    have hl' := h l'
    have hbalance := h balance
    omega
  · intro h v
    omega

/-- **The allotment and the block.** The allotment is the largest amount that `TempApply` lets
through as the first input of an account, unless a new limit is due and it or the limit in force
cuts the balance. -/
theorem allotmentAt_exact_iff (T : AccountTrie H) (junk : ℕ → UInt64) {nHeight : UInt64}
    (ha : accounts T.root k = some a) {cap : UInt64}
    (hcap : allotmentAt T.root nHeight k = some cap) :
    (∀ nValue, (PassesFirst junk T.root nHeight k nValue ↔ nValue ≤ cap) ∧
      (AcceptedFirst junk T.root nHeight k nValue ↔ nValue ≤ cap)) ↔
    (nHeight - a.age > MIN_LIMIT_TIME → a.limit ≠ a.futureLimit →
      a.balance ≤ a.limit ∧ a.balance ≤ a.futureLimit) := by
  have hle : ∀ nValue, nValue ≤ cap ↔ nValue ≤ a.balance ∧ nValue ≤ a.maturedLimit nHeight := by
    intro nValue
    rw [allotmentAt_eq T.valid, ha] at hcap
    rw [← Option.some.inj hcap, le_capped_iff]
  simp only [passesFirst_iff T.valid ha, acceptedFirst_iff T.valid ha, hle, and_self,
    capped_same_iff, AccountData.maturedLimit]
  split
  · next hdue => simp [hdue]
  · next hdue => simp [hdue]

/-- Ten coins in account `5`, with a limit of four and a new limit, announced at height zero. -/
def raisedInFive (futureLimit : UInt64) : AccountTrie Sha256.sha256d :=
  .singleton 5 { age := 0, balance := 10, limit := 4, futureLimit }

/-- Within a hundred blocks the old limit counts, for the allotment and for the block. -/
theorem allotmentAt_exact_raised :
    allotmentAt (raisedInFive 20).root 100 5 = some 4 ∧
      ∀ nValue, (PassesFirst (fun _ ↦ 0) (raisedInFive 20).root 100 5 nValue ↔ nValue ≤ 4) ∧
        (AcceptedFirst (fun _ ↦ 0) (raisedInFive 20).root 100 5 nValue ↔ nValue ≤ 4) := by
  have hcap : allotmentAt (raisedInFive 20).root 100 5 = some 4 := by decide +kernel
  exact ⟨hcap, (allotmentAt_exact_iff (a := ⟨0, 10, 4, 20⟩) (raisedInFive 20) _ rfl hcap).mpr
    fun hdue ↦ absurd hdue (by decide)⟩

/-- Afterwards the allotment is the balance, and a block at the next height that withdraws it is
refused. -/
theorem allotment_refused :
    allotmentAt (raisedInFive 20).root 101 5 = some 10 ∧
      accounts (raisedInFive 20).root 5 = some ⟨0, 10, 4, 20⟩ ∧
      ¬AcceptedFirst (fun _ ↦ 0) (raisedInFive 20).root 101 5 10 ∧
      (tempApply (fun _ ↦ 0) (raisedInFive 20).root
        { blockOf [payment 5 10 6] with nHeight := 101 }).map Prod.fst = .ok false := by
  refine ⟨by decide +kernel, rfl, fun h ↦ ?_, by decide +kernel⟩
  exact absurd ((acceptedFirst_iff (raisedInFive 20).valid (a := ⟨0, 10, 4, 20⟩) rfl _ _ _).mp h)
    (by decide)

end Agreement

end Cryptonite
