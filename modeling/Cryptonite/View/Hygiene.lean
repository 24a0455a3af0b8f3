import Cryptonite.Core.Merkle
import Cryptonite.View.Limit
import Cryptonite.View.Supply
import Cryptonite.View.Trace

/-!
# Empty accounts

A withdrawal that leaves less than `MIN_BALANCE` removes the account, so that empty accounts take no
room in the trie. A deposit makes no such test, and `CheckTransaction` lets an output of zero pass:
a payment of nothing to an account that is not there puts an empty account into the trie.

`clean_iff` says that this is the only way: as long as balances do not wrap, an account is left
empty by a block exactly when the block takes out all there is, and the last that is said about the
account is an output.
-/

namespace Cryptonite

/-- Every account holds `MIN_BALANCE`. -/
def Clean (accts : AccountMap) : Prop := ∀ k a, accts k = some a → MIN_BALANCE ≤ a.balance

def Move.takesFrom (k : UInt160) : Move → ℕ
  | .check _ _ => 0
  | .withdraw _ txin => if txin.pubKey = k then txin.nValue.toNat else 0
  | .deposit _ => 0

def takenFrom (k : UInt160) (mvs : List Move) : ℕ := (mvs.map (Move.takesFrom k)).sum

def lastAbout (k : UInt160) : List Move → Option Move
  | [] => none
  | mv :: mvs => (lastAbout k mvs).or (if mv.key = some k then some mv else none)

/-- The block takes out all there is in the account, and an output is the last it says about it. -/
def Block.LeavesEmpty (block : Block) (accts : AccountMap) (k : UInt160) : Prop :=
  (balanceOf (accts k)).toNat + paidTo k block.moves = takenFrom k block.moves ∧
    ∃ txout, lastAbout k block.moves = some (.deposit txout)

theorem minBalance_le_iff {b : UInt64} : MIN_BALANCE ≤ b ↔ 0 < b.toNat := by
  rw [MIN_BALANCE, UInt64.le_iff_toNat_le]
  exact Nat.succ_le_iff

/-! ## The balance after a block -/

section Balance

variable {nHeight : UInt64} {k : UInt160} {junk : ℕ → UInt64} {block : Block} {ℓ' : Ledger}

theorem Move.takesFrom_eq_zero {mv : Move} (h : mv.key ≠ some k) : mv.takesFrom k = 0 := by
  rcases mv with ⟨i, tx⟩ | ⟨tx, txin⟩ | txout
  · rfl
  · exact if_neg fun hk ↦ h (congrArg some hk)
  · rfl

theorem takenFrom_cons (k : UInt160) (mv : Move) (mvs : List Move) :
    takenFrom k (mv :: mvs) = mv.takesFrom k + takenFrom k mvs := by
  rw [takenFrom, List.map_cons, List.sum_cons, takenFrom]

theorem Effect.balance {o o₁ : Option AccountData} {mv : Move} (h : Effect nHeight k o mv o₁)
    (hexact : (balanceOf o).toNat + mv.paysTo k < 2 ^ 64) :
    (balanceOf o₁).toNat + mv.takesFrom k = (balanceOf o).toNat + mv.paysTo k := by
  rcases h with hkey | @⟨a, tx, txin, hkey, hle⟩ | @⟨o, txout, hkey⟩
  · rw [Move.takesFrom_eq_zero hkey, Move.paysTo_eq_zero hkey]
  · rw [balanceOf_keep, Move.takesFrom, if_pos hkey, Move.paysTo, Nat.add_zero]
    change (a.balance - txin.nValue).toNat + txin.nValue.toNat = a.balance.toNat
    rw [UInt64.toNat_sub_of_le _ _ hle, Nat.sub_add_cancel (UInt64.le_iff_toNat_le.mp hle)]
  · rw [Move.paysTo, if_pos hkey] at hexact ⊢
    rw [balanceOf_afterDeposit, UInt64.toNat_add, Nat.mod_eq_of_lt hexact]
    rfl

theorem Move.Exact.fits {balance : UInt160 → UInt64} {mv : Move} (h : mv.Exact balance)
    (k : UInt160) : (balance k).toNat + mv.paysTo k < 2 ^ 64 := by
  by_cases hkey : mv.key = some k
  · rcases mv with ⟨i, tx⟩ | ⟨tx, txin⟩ | txout
    · exact (balance k).toNat_lt
    · exact (balance k).toNat_lt
    · cases hkey
      rw [Move.paysTo, if_pos rfl]
      exact h
  · rw [Move.paysTo_eq_zero hkey]
    exact (balance k).toNat_lt

theorem Ledger.balance_run (k : UInt160) : ∀ {mvs : List Move} {ℓ : Ledger},
    Throughout (Ledger.step junk block) (fun ℓ mv ↦ mv.Exact ℓ.balance) ℓ mvs →
    runMoves (Ledger.step junk block) ℓ mvs = .ok (true, ℓ') →
    (balanceOf (ℓ'.accts k)).toNat + takenFrom k mvs
      = (balanceOf (ℓ.accts k)).toNat + paidTo k mvs := by
  intro mvs
  induction mvs with
  | nil =>
    intro ℓ _ h
    cases h
    rfl
  | cons mv mvs ih =>
    intro ℓ hexact h
    obtain ⟨ℓ₁, hstep, hrest⟩ := runMoves_cons_true_iff.mp h
    obtain ⟨hfirst, hlater⟩ := hexact ℓ₁ hstep
    have hmove := (Ledger.effect hstep k).balance (hfirst.fits k)
    have hrun := ih hlater hrest
    rw [takenFrom_cons, paidTo_cons]
    omega

end Balance

/-! ## The last move about an account -/

theorem key_of_lastAbout {k : UInt160} {mv : Move} : ∀ {mvs : List Move},
    lastAbout k mvs = some mv → mv.key = some k := by
  intro mvs
  induction mvs with
  | nil => exact fun h ↦ absurd h (by simp [lastAbout])
  | cons mv' mvs ih =>
    intro h
    rw [lastAbout, Option.or_eq_some_iff] at h
    rcases h with h | ⟨-, h⟩
    · exact ih h
    · obtain ⟨hkey, hmv⟩ := Option.ite_none_right_eq_some.mp h
      exact Option.some.inj hmv ▸ hkey

/-- How an account is left tells the last move about it. -/
theorem Trace.of_lastAbout {nHeight : UInt64} {k : UInt160} {o o' : Option AccountData}
    {mvs : List Move} (h : Trace nHeight k o mvs o') :
    (lastAbout k mvs = none → o' = o) ∧
    (∀ tx txin, lastAbout k mvs = some (.withdraw tx txin) →
      ∀ a, o' = some a → MIN_BALANCE ≤ a.balance) ∧
    ∀ txout, lastAbout k mvs = some (.deposit txout) → o' ≠ none := by
  induction h with
  | nil => exact ⟨fun _ ↦ rfl, fun _ _ h ↦ absurd h (by simp [lastAbout]),
      fun _ h ↦ absurd h (by simp [lastAbout])⟩
  | @cons o o₁ o' mv mvs heffect _ ih =>
    rw [lastAbout]
    rcases hlast : lastAbout k mvs with _ | mv'
    · -- nothing more is said about the account, so it stays as this move leaves it
      obtain rfl := ih.1 hlast
      rw [Option.none_or]
      rcases heffect with hkey | @⟨a, tx, txin, hkey, hle⟩ | @⟨o, txout, hkey⟩
      · rw [if_neg hkey]
        exact ⟨fun _ ↦ rfl, fun _ _ h ↦ absurd h (by simp), fun _ h ↦ absurd h (by simp)⟩
      · rw [if_pos (show (Move.withdraw tx txin).key = some k from congrArg some hkey)]
        refine ⟨fun h ↦ absurd h (by simp), fun _ _ _ a' ha' ↦ ?_, fun _ h ↦ absurd h (by simp)⟩
        obtain ⟨hpos, rfl⟩ := AccountData.keep_eq_some_iff.mp ha'
        exact minBalance_le_iff.mpr (UInt64.lt_iff_toNat_lt.mp hpos)
      · rw [if_pos (show (Move.deposit txout).key = some k from congrArg some hkey)]
        exact ⟨fun h ↦ absurd h (by simp), fun _ _ h ↦ absurd h (by simp),
          fun _ _ ↦ Option.some_ne_none _⟩
    · rw [Option.some_or, ← hlast]
      exact ⟨fun h ↦ absurd (hlast.symm.trans h) (by simp), ih.2⟩

/-! ## Blocks and chains -/

section Hygiene

variable {H : List UInt8 → UInt256}

/-- A block that is made without a wrap leaves every account with `MIN_BALANCE` exactly when it
leaves none empty. -/
theorem clean_iff {junk : ℕ → UInt64} {block : Block} {root root' : Option TrieNode}
    {undos : List TxUndo} (hvalid : ValidRoot H root) (hclean : Clean (accounts root))
    (hroom : supply root < 2 ^ 64) (hcovered : ∀ tx ∈ block.vtx, tx.valueOut ≤ tx.valueIn)
    (h : tempApply junk root block = .ok (true, root', undos)) :
    Clean (accounts root') ↔ ∀ k, ¬block.LeavesEmpty (accounts root) k := by
  obtain ⟨ℓ, hℓ, haccts⟩ := exists_ledger_of_tempApply hvalid h
  rw [supply_eq_holdings hvalid] at hroom
  have hbalance (k : UInt160) : (balanceOf (ℓ.accts k)).toNat + takenFrom k block.moves
      = (balanceOf (accounts root k)).toNat + paidTo k block.moves :=
    Ledger.balance_run k (@run_movesFrom junk block block.vtx 0 (Ledger.start (accounts root))
      hcovered hroom).1 hℓ
  rw [← haccts]
  constructor
  · rintro hclean' k ⟨hspent, txout, hlast⟩
    obtain ⟨a, ha⟩ := Option.ne_none_iff_exists'.mp
      ((Ledger.trace k hℓ).of_lastAbout.2.2 txout hlast)
    have hpos := minBalance_le_iff.mp (hclean' k a ha)
    have hleft := hbalance k
    rw [ha, balanceOf] at hleft
    omega
  · intro hnone k a ha
    by_contra hempty
    rw [minBalance_le_iff, Nat.not_lt, Nat.le_zero] at hempty
    have hleft := hbalance k
    rw [ha, balanceOf, hempty, Nat.zero_add] at hleft
    obtain ⟨hquiet, hwithdrawn, -⟩ := (Ledger.trace k hℓ).of_lastAbout
    rcases hlast : lastAbout k block.moves with _ | ⟨i, tx⟩ | ⟨tx, txin⟩ | txout
    · have hbefore := hclean k a ((hquiet hlast).symm.trans ha)
      exact absurd (minBalance_le_iff.mp hbefore) (by omega)
    · exact absurd (key_of_lastAbout hlast) (by simp [Move.key])
    · exact absurd (minBalance_le_iff.mp (hwithdrawn tx txin hlast a ha)) (by omega)
    · exact hnone k ⟨hleft.symm, txout, hlast⟩

theorem valueOut_le_of_checkBlock {env : Surroundings} {fCheckPOW fCheckMerkleRoot : Bool}
    {block : Block} (hheight : block.nHeight ≠ 0)
    (h : checkBlock env fCheckPOW fCheckMerkleRoot block = .ok ()) :
    ∀ tx ∈ block.vtx, tx.valueOut ≤ tx.valueIn := by
  obtain ⟨-, first, rest, hwell⟩ := checkBlock_eq_ok_iff.mp h
  exact fun tx htx ↦ (hwell.wellFormed hheight tx htx).valueOut_le

variable {n : ℕ} {run : BlockRun H n}

theorem BlockRun.supply_lt (hroom : supply (run.root 0) < 2 ^ 64)
    (hcovered : ∀ i < n, ∀ tx ∈ (run.block i).vtx, tx.valueOut ≤ tx.valueIn) :
    ∀ i ≤ n, supply (run.root i) < 2 ^ 64 := by
  intro i
  induction i with
  | zero => exact fun _ ↦ hroom
  | succ i ih =>
    intro hi
    have hbefore := ih (Nat.le_of_succ_le hi)
    have htotal := tempApply_supply (BlockRun.valid_root (Nat.le_of_succ_le hi)) hbefore
      (hcovered i hi) (run.accepted i hi)
    have hsum := sum_valueOut_le (hcovered i hi)
    omega

/-- **Ledger hygiene.** Along a chain of blocks after the genesis block that `CheckBlock` and
`TempApply` accept, started with a supply below `2 ^ 64` and with `MIN_BALANCE` in every account,
every account has `MIN_BALANCE` after every block if and only if no block leaves one empty. -/
theorem clean_run_iff (run : BlockRun H n) (hclean : Clean (accounts (run.root 0)))
    (hroom : supply (run.root 0) < 2 ^ 64) (hheight : run.height ≠ 0)
    (hchecked : ∀ i < n, ∃ env fCheckPOW fCheckMerkleRoot,
      checkBlock env fCheckPOW fCheckMerkleRoot (run.block i) = .ok ()) :
    (∀ i ≤ n, Clean (accounts (run.root i))) ↔
      ∀ i < n, ∀ k, ¬(run.block i).LeavesEmpty (accounts (run.root i)) k := by
  have hcovered : ∀ i < n, ∀ tx ∈ (run.block i).vtx, tx.valueOut ≤ tx.valueIn := by
    intro i hi
    obtain ⟨env, fCheckPOW, fCheckMerkleRoot, hcheck⟩ := hchecked i hi
    refine valueOut_le_of_checkBlock (fun hzero ↦ ?_) hcheck
    have hi' := run.height_eq i hi
    rw [hzero, UInt64.toNat_zero] at hi'
    omega
  have hstep : ∀ i (hi : i < n), Clean (accounts (run.root i)) →
      (Clean (accounts (run.root (i + 1))) ↔
        ∀ k, ¬(run.block i).LeavesEmpty (accounts (run.root i)) k) := fun i hi hbefore ↦
    clean_iff (BlockRun.valid_root hi.le) hbefore (BlockRun.supply_lt hroom hcovered i hi.le)
      (hcovered i hi) (run.accepted i hi)
  constructor
  · exact fun hall i hi ↦ (hstep i hi (hall i hi.le)).mp (hall (i + 1) hi)
  · intro hnone i
    induction i with
    | zero => exact fun _ ↦ hclean
    | succ i ih => exact fun hi ↦ (hstep i hi (ih (Nat.le_of_succ_le hi))).mpr (hnone i hi)

end Hygiene

/-! ### Coinbases -/

/-- Coins to mint. -/
def pool : AccountTrie Sha256.sha256d :=
  .singleton 0 { AccountData.init with balance := 0x4000000000000000 }

theorem clean_pool : Clean (accounts pool.root) := by
  intro k a ha
  obtain ⟨-, ha⟩ := Option.ite_none_right_eq_some.mp ha
  cases ha
  decide

/-- A chain of one block, which mints one coin to a new account. -/
def mintRun : BlockRun Sha256.sha256d 1 where
  root i := if i = 0 then pool.root else (applied pool.root (mintBlock 1 1 9)).1
  block _ := mintBlock 1 1 9
  junk _ _ := 0
  undos _ := (applied pool.root (mintBlock 1 1 9)).2
  height := 1
  valid := pool.valid
  accepted i hi := by
    obtain rfl := Nat.lt_one_iff.mp hi
    exact tempApply_eq_applied (by decide +kernel)
  height_eq i hi := by
    obtain rfl := Nat.lt_one_iff.mp hi
    rfl

theorem clean_run_iff_mint : Clean (accounts (mintRun.root 1)) := by
  have hchecked : checkBlock ⟨Sha256.sha256d, fun _ ↦ true, 0, pool.root⟩ true true
      (mintBlock 1 1 9) = .ok () := by decide +kernel
  refine (clean_run_iff mintRun clean_pool (by decide) (by decide)
    fun i hi ↦ ⟨_, _, _, hchecked⟩).mpr (fun i hi k ↦ ?_) 1 le_rfl
  obtain rfl := Nat.lt_one_iff.mp hi
  rintro ⟨hspent, txout, hlast⟩
  have hmoves : (mintBlock 1 1 9).moves = [.check 0 (mint 1 1 9),
      .withdraw (mint 1 1 9) ⟨1, 0, []⟩, .deposit ⟨1, 9⟩] := rfl
  rw [show mintRun.block 0 = mintBlock 1 1 9 from rfl, hmoves] at hspent hlast
  by_cases hk : k = 9
  · -- the new account has what has been minted
    subst hk
    simp [takenFrom, paidTo, Move.takesFrom, Move.paysTo] at hspent
  · have hne : ¬(9 : UInt160) = k := fun h ↦ hk h.symm
    simp only [lastAbout, Move.key, Option.some_inj, hne, if_false] at hlast
    split at hlast <;> simp at hlast

/-- A coinbase of nothing to an account that is not there passes `CheckBlock` and `TempApply` and
leaves an empty account in the trie. -/
theorem empty_account_enters :
    Clean (accounts pool.root) ∧
    checkBlock ⟨Sha256.sha256d, fun _ ↦ true, 0, pool.root⟩ true true (mintBlock 1 0 9) = .ok () ∧
    (tempApply (fun _ ↦ 0) pool.root (mintBlock 1 0 9)).map (fun r ↦ (r.1, accounts r.2.1 9))
      = .ok (true, some { AccountData.init with age := 1, balance := 0 }) :=
  ⟨clean_pool, by decide +kernel, by decide +kernel⟩

end Cryptonite
