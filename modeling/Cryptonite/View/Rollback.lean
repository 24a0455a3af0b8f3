import Cryptonite.View.Apply
import Cryptonite.View.Ledger

/-!
# Taking a block back

`TempApply` leaves its undo list reversed when it accepts a block and in the order of the changes
when it does not; `Unapply` goes through the list front to back in both cases. So an accepted block
is taken back exactly (`unapply_restores`), but the records of a rejected one are replayed forwards,
and that is right only for blocks that are `RollbackSafe` (`rollback_iff_rollbackSafe`): every
account touched before the failing input was, before its last change, as at the start, and existed
throughout or every other time. A block that has touched no account twice is safe
(`rollbackSafe_of_nodup`); two withdrawals from one account are not.
-/

namespace Cryptonite

open UndoLog Ledger

/-- The changes a block makes to a map of accounts, up to the input that fails. -/
def Ledger.changesOf (junk : ℕ → UInt64) (accts : AccountMap) (block : Block) :
    List (UInt160 × Option AccountData) :=
  match Ledger.apply junk accts block with
  | .error _ => []
  | .ok (_, ℓ) => ℓ.changes

/-- The successive states of every account under the block's moves before the failing one can be
taken back in the order they were made. -/
def RollbackSafe (junk : ℕ → UInt64) (accts : AccountMap) (block : Block) : Prop :=
  ∀ k, Restorable (trail accts (Ledger.changesOf junk accts block) k)

/-! ## Blocks for examples -/

/-- A transaction moving an amount from one account to another. -/
def payment (source : UInt160) (nValue : UInt64) (target : UInt160) : Transaction :=
  { nVersion := 1, vin := [⟨nValue, source, []⟩], vout := [⟨nValue, target⟩], msg := [],
    nLockHeight := 0, nLimitValue := 0, fSetLimit := false }

def blockOf (vtx : List Transaction) : Block :=
  { hashPrevBlock := 0, hashMerkleRoot := 0, hashAccountRoot := 0, nTime := 0, nHeight := 1,
    nNonce := 0, nVersion := 1, vtx }

/-- A trie that holds ten coins in account `5`. -/
def tenInFive : AccountTrie Sha256.sha256d :=
  .singleton 5 { age := 0, balance := 10, limit := 10, futureLimit := 10 }

section Rollback

variable {H : List UInt8 → UInt256}

variable {root root' : Option TrieNode} {junk : ℕ → UInt64} {block : Block} {b : Bool}
  {undos : List TxUndo}

theorem tempApply_eq_ok (hvalid : ValidRoot H root)
    (h : tempApply junk root block = .ok (b, root', undos)) :
    let cs := changesOf junk (accounts root) block
    ValidRoot H root' ∧ accounts root' = run (accounts root) cs ∧ ProperRun (accounts root) cs ∧
      undos = (if b then (log (accounts root) cs).reverse else log (accounts root) cs).map
        TxUndo.ofRecord := by
  have href := tempApply_refines hvalid junk block
  rw [changesOf]
  revert href
  rcases Ledger.apply junk (accounts root) block with f | ⟨b', ℓ⟩ <;> intro href
  · rw [h] at href
    cases href
  · obtain ⟨r, hr, hv, hrun, -, hproper⟩ := href
    rw [h] at hr
    obtain ⟨rfl, rfl, hundos⟩ : b = b' ∧ root' = r ∧ _ := by simpa using hr
    refine ⟨hv, hrun, hproper, ?_⟩
    rw [hundos]
    cases b <;> simp

theorem exists_ledger_of_tempApply (hvalid : ValidRoot H root)
    (h : tempApply junk root block = .ok (b, root', undos)) :
    ∃ ℓ, Ledger.apply junk (accounts root) block = .ok (b, ℓ) ∧ ℓ.accts = accounts root' := by
  have href := tempApply_refines hvalid junk block
  revert href
  rcases hℓ : Ledger.apply junk (accounts root) block with f | ⟨b', ℓ⟩ <;> intro href
  · exact absurd (h.symm.trans href) (by simp)
  · obtain ⟨r, hr, -, hrun, haccts, -⟩ := href
    obtain ⟨rfl, rfl, -⟩ : b = b' ∧ root' = r ∧ _ := by simpa using h.symm.trans hr
    exact ⟨ℓ, rfl, haccts.trans hrun.symm⟩

theorem exists_tempApply_of_ledger (hvalid : ValidRoot H root) {ℓ : Ledger}
    (h : Ledger.apply junk (accounts root) block = .ok (b, ℓ)) :
    ∃ root' undos, tempApply junk root block = .ok (b, root', undos) ∧
      accounts root' = ℓ.accts := by
  have href := tempApply_refines hvalid junk block
  rw [h] at href
  obtain ⟨root', happly, -, hrun, haccts, -⟩ := href
  exact ⟨root', _, happly, hrun.trans haccts.symm⟩

theorem unapply_valid {root'' : Option TrieNode} (hvalid : ValidRoot H root)
    (h : tempApply junk root block = .ok (b, root', undos))
    (hundo : unapply root' undos = .ok root'') : ValidRoot H root'' := by
  obtain ⟨hv, -, -, rfl⟩ := tempApply_eq_ok hvalid h
  have href := unapply_refines (if b = true then (log (accounts root)
    (changesOf junk (accounts root) block)).reverse else log (accounts root)
    (changesOf junk (accounts root) block)) hv
  revert href
  rcases replay (accounts root') _ with e | m <;> intro href
  · exact absurd (hundo.symm.trans href) (by simp)
  · obtain ⟨r, hr, hvalid', -⟩ := href
    obtain rfl := Except.ok.inj (hundo.symm.trans hr)
    exact hvalid'

theorem exists_of_verdict {junk : ℕ → UInt64} {root : Option TrieNode} {block : Block} {b : Bool}
    (h : (tempApply junk root block).map Prod.fst = .ok b) :
    ∃ root' undos, tempApply junk root block = .ok (b, root', undos) := by
  revert h
  rcases tempApply junk root block with f | ⟨b', root', undos⟩ <;> intro h
  · simp [Except.map] at h
  · obtain rfl : b' = b := Except.ok.inj h
    exact ⟨root', undos, rfl⟩

/-- What `TempApply` leaves of a trie, and its undo list. -/
def applied (root : Option TrieNode) (block : Block) : Option TrieNode × List TxUndo :=
  match tempApply (fun _ ↦ 0) root block with
  | .ok (true, root, undos) => (root, undos)
  | _ => (none, [])

theorem tempApply_eq_applied (h : (tempApply (fun _ ↦ 0) root block).map Prod.fst = .ok true) :
    tempApply (fun _ ↦ 0) root block
      = .ok (true, (applied root block).1, (applied root block).2) := by
  obtain ⟨root', undos, heq⟩ := exists_of_verdict h
  rw [applied, heq]

/-! ## Accepted blocks -/

/-- An accepted block is taken back, also from a trie whose hash caches have been refreshed. -/
theorem unapply_after_success {root₁ : Option TrieNode} (hvalid : ValidRoot H root)
    (h : tempApply junk root block = .ok (true, root', undos))
    (hvalid₁ : ValidRoot H root₁) (haccts : accounts root₁ = accounts root') :
    ∃ root'', unapply root₁ undos = .ok root'' ∧ ValidRoot H root'' ∧ SameTrie H root'' root := by
  obtain ⟨-, hrun, -, hundos⟩ := tempApply_eq_ok hvalid h
  have href := unapply_refines (log (accounts root)
    (changesOf junk (accounts root) block)).reverse hvalid₁
  rw [haccts, hrun, replay_reverse] at href
  obtain ⟨root'', hroot'', hvalid'', hmap⟩ := href
  refine ⟨root'', ?_, hvalid'', hvalid''.ext hvalid hmap⟩
  rw [hundos, if_pos rfl]
  exact hroot''

theorem unapply_after_hash {t : TrieNode} (hvalid : ValidRoot H root)
    (h : tempApply junk root block = .ok (true, some t, undos)) :
    ∃ root'', unapply (some (TrieNode.hash H t).2) undos = .ok root'' ∧ ValidRoot H root'' ∧
      SameTrie H root'' root := by
  obtain ⟨hv, -, -, -⟩ := tempApply_eq_ok hvalid h
  obtain ⟨hvalid₁, hmap⟩ := (validRoot_some.mp hv).hash
  exact unapply_after_success hvalid h (validRoot_some.mpr hvalid₁) hmap

/-- **Accepted blocks are taken back exactly.** If `TempApply` returns true, `Unapply` of the undo
list restores every account and the root hash; and if `HashForBlock` returns true, the view is what
it was. -/
theorem unapply_restores (T : AccountTrie H) (junk : ℕ → UInt64) (block : Block) :
    (∀ root' undos, tempApply junk T.root block = .ok (true, root', undos) →
      ∃ root'', unapply root' undos = .ok root'' ∧ SameTrie H root'' T.root) ∧
    ∀ best hash view', hashForBlock H junk ⟨T.root, best⟩ block = .ok (some hash, view') →
      view'.bestBlock = best ∧ SameTrie H view'.root T.root := by
  refine ⟨fun root' undos h ↦ ?_, fun best hash view' h ↦ ?_⟩
  · obtain ⟨hv, -, -, -⟩ := tempApply_eq_ok T.valid h
    obtain ⟨root'', hroot'', -, hsame⟩ := unapply_after_success T.valid h hv rfl
    exact ⟨root'', hroot'', hsame⟩
  · rcases hashForBlock_outcome h with _ | _ | ⟨happly, hundo⟩
    obtain ⟨root'', hroot'', -, hsame⟩ := unapply_after_hash T.valid happly
    obtain rfl := Except.ok.inj (hundo.symm.trans hroot'')
    exact ⟨rfl, hsame⟩

/-- Account `5` is emptied into `6` and re-created from it; both changes are taken back. -/
theorem unapply_restores_there_and_back :
    ∃ root' undos root'', tempApply (fun _ ↦ 0) tenInFive.root
        (blockOf [payment 5 10 6, payment 6 4 5]) = .ok (true, root', undos) ∧
      unapply root' undos = .ok root'' ∧ SameTrie Sha256.sha256d root'' tenInFive.root := by
  have hverdict : (tempApply (fun _ ↦ 0) tenInFive.root
      (blockOf [payment 5 10 6, payment 6 4 5])).map Prod.fst = .ok true := by decide +kernel
  obtain ⟨root', undos, h⟩ := exists_of_verdict hverdict
  obtain ⟨root'', hroot'', hsame⟩ := (unapply_restores tenInFive _ _).1 root' undos h
  exact ⟨root', undos, root'', h, hroot'', hsame⟩

/-! ## Rejected blocks -/

theorem unapply_after_failure_iff (hvalid : ValidRoot H root)
    (h : tempApply junk root block = .ok (false, root', undos)) :
    (∃ root'', unapply root' undos = .ok root'' ∧ SameTrie H root'' root) ↔
      RollbackSafe junk (accounts root) block := by
  obtain ⟨hv, hrun, hproper, hundos⟩ := tempApply_eq_ok hvalid h
  have href :=
    unapply_refines (log (accounts root) (changesOf junk (accounts root) block)) hv
  rw [hundos, if_neg Bool.false_ne_true, RollbackSafe, ← replay_forward_iff hproper, ← hrun]
  revert href
  rcases replay (accounts root') _ with e | m <;> intro href
  · refine iff_of_false ?_ (by simp)
    rintro ⟨root'', hroot'', -⟩
    exact absurd (href.symm.trans hroot'') (by simp)
  · obtain ⟨root'', hroot'', hvalid'', rfl⟩ := href
    constructor
    · rintro ⟨root₂, hroot₂, hsame⟩
      obtain rfl := Except.ok.inj (hroot''.symm.trans hroot₂)
      rw [hsame.accts]
    · exact fun heq ↦ ⟨root'', hroot'', hvalid''.ext hvalid (Except.ok.inj heq)⟩

theorem rollbackSafe_of_nodup (hvalid : ValidRoot H root)
    (h : tempApply junk root block = .ok (b, root', undos))
    (hnodup : (changesOf junk (accounts root) block |>.map Prod.fst).Nodup) :
    RollbackSafe junk (accounts root) block :=
  (tempApply_eq_ok hvalid h).2.2.1.restorable_of_nodup hnodup

theorem hashForBlock_of_rejected {view : TrieView} (hbest : view.bestBlock = block.hashPrevBlock)
    (h : tempApply junk view.root block = .ok (false, root', undos)) :
    hashForBlock H junk view block
      = (unapply root' undos).map fun root ↦ (none, { view with root }) := by
  rw [hashForBlock, if_neg (not_not.mpr hbest), h]
  rfl

theorem apply_of_rejected {index : ℕ → BlockIndex} {disk : Disk} {node : Node} {p : ℕ}
    (hread : disk.readBlock p = true)
    (h : tempApply (disk.junk p) node.view.root (index p).block = .ok (false, root', undos)) :
    apply H index disk node p
      = (unapply root' undos).map fun root ↦ (false, node.setRoot root) := by
  rw [apply, hread, Bool.not_true, if_neg Bool.false_ne_true]
  dsimp only
  rw [h]
  rfl

/-- **Rejected blocks are rolled back exactly when they are safe.** If `TempApply` returns false,
the rollback `HashForBlock` and `Apply` make then runs to completion and restores the accounts and
the root hash if and only if the block is `RollbackSafe`. -/
theorem rollback_iff_rollbackSafe (T : AccountTrie H) {junk : ℕ → UInt64} {block : Block}
    {root' : Option TrieNode} {undos : List TxUndo}
    (h : tempApply junk T.root block = .ok (false, root', undos)) :
    ((∃ view', hashForBlock H junk ⟨T.root, block.hashPrevBlock⟩ block = .ok (none, view') ∧
        SameTrie H view'.root T.root) ↔ RollbackSafe junk (accounts T.root) block) ∧
    ∀ index disk node p, node.view.root = T.root → (index p).block = block → disk.readBlock p →
      disk.junk p = junk →
      ((∃ node', apply H index disk node p = .ok (false, node') ∧
        SameTrie H node'.view.root T.root) ↔ RollbackSafe junk (accounts T.root) block) := by
  rw [← unapply_after_failure_iff T.valid h]
  refine ⟨?_, fun index disk node p hroot hblock hread hjunk ↦ ?_⟩
  · rw [hashForBlock_of_rejected rfl h]
    rcases unapply root' undos with f | root''
    · simp [Except.map]
    · simp [Except.map]
  · rw [← hroot, ← hblock, ← hjunk] at h
    rw [apply_of_rejected hread h]
    rcases unapply root' undos with f | root''
    · simp [Except.map]
    · simp [Except.map, Node.setRoot]

end Rollback

/-! ## A block that is not rolled back -/

/-- A block that pays from account `5` and then fails at account `9`. -/
def failingBlock (payments : List (UInt64 × UInt160)) : Block :=
  blockOf (payments.map (fun q ↦ payment 5 q.1 q.2) ++ [payment 9 1 6])

/-- What `HashForBlock` returns, and the balance it leaves in an account. -/
def hashAndBalance (T : AccountTrie Sha256.sha256d) (block : Block) (key : UInt160) :
    Exec (Option UInt256 × Option UInt64) :=
  (hashForBlock Sha256.sha256d (fun _ ↦ 0) ⟨T.root, block.hashPrevBlock⟩ block).map fun r ↦
    (r.1, (accounts r.2.root key).map AccountData.balance)

/-- One payment before the failing input is taken back. -/
theorem rollback_iff_rollbackSafe_one_payment :
    ∃ view', hashForBlock Sha256.sha256d (fun _ ↦ 0) ⟨tenInFive.root, 0⟩ (failingBlock [(3, 6)])
        = .ok (none, view') ∧ SameTrie Sha256.sha256d view'.root tenInFive.root := by
  have hverdict : (tempApply (fun _ ↦ 0) tenInFive.root (failingBlock [(3, 6)])).map Prod.fst
      = .ok false := by decide +kernel
  have hnodup : (changesOf (fun _ ↦ 0) (accounts tenInFive.root) (failingBlock [(3, 6)])
      |>.map Prod.fst).Nodup := by decide +kernel
  obtain ⟨root', undos, h⟩ := exists_of_verdict hverdict
  exact (rollback_iff_rollbackSafe tenInFive h).1.mpr
    (rollbackSafe_of_nodup tenInFive.valid h hnodup)

/-- Two payments from one account are not: after payments of three and three the account is left
with seven of its ten coins, and after payments of three and seven the rollback dereferences a null
pointer. -/
theorem rollback_wrong_two_payments :
    (accounts tenInFive.root 5).map AccountData.balance = some 10 ∧
    (tempApply (fun _ ↦ 0) tenInFive.root (failingBlock [(3, 6), (3, 7)])).map Prod.fst
      = .ok false ∧
    hashAndBalance tenInFive (failingBlock [(3, 6), (3, 7)]) 5 = .ok (none, some 7) ∧
    (tempApply (fun _ ↦ 0) tenInFive.root (failingBlock [(3, 6), (7, 7)])).map Prod.fst
      = .ok false ∧
    hashAndBalance tenInFive (failingBlock [(3, 6), (7, 7)]) 5 = .error .nullDeref := by
  decide +kernel

end Cryptonite
