import Cryptonite.Chain.Reorg
import Cryptonite.View.Limit

/-!
# A block that cannot be recorded

`Apply` changes the trie first and writes the undo record and the index entry afterwards. When one
of the writes fails it returns `false` at once: the trie is left with the block applied, and
`m_bestBlock` with the name of its parent. A caller that takes `false` to mean that nothing was
applied tries the block again and applies its transactions a second time.

`unrecorded_clean_iff` says when the failure does no harm: when it cannot happen, or when the block
moves nothing, so that there is nothing to take back. No block that withdraws from an account which
was not used at the same height before is of that kind (`not_idle_of_spendsFrom`), and every block
after the genesis block withdraws from account zero.
-/

namespace Cryptonite

open UndoLog TrieNode

/-- The moves of the block, made on the accounts, lead back to where they started. -/
def Idle (junk : ℕ → UInt64) (accts : AccountMap) (block : Block) : Prop :=
  run accts (Ledger.changesOf junk accts block) = accts

/-- The same disk on another day: what is written gets written. -/
def Disk.repaired (disk : Disk) : Disk :=
  { disk with findUndoPos := fun _ ↦ true, writeUndo := fun _ ↦ true, writeIndex := fun _ ↦ true }

section Unrecorded

variable {H : List UInt8 → UInt256} {index : ℕ → BlockIndex} {disk : Disk} {node node' : Node}
  {p : ℕ}

variable {undos : List TxUndo} {t : TrieNode} {T : AccountTrie H} {junk : ℕ → UInt64}
  {block : Block}

theorem apply_of_accepted (hread : disk.readBlock p = true)
    (happly : tempApply (disk.junk p) node.view.root (index p).block = .ok (true, some t, undos))
    (hhash : (hash H t).1 = (index p).block.hashAccountRoot) : apply H index disk node p
      = match recordUndo disk (node.setRoot (some (hash H t).2)) p undos with
        | (false, node) => .ok (false, node)
        | (true, node) => .ok (true, node.setBest (index p).headerHash) := by
  rw [apply, hread, Bool.not_true, if_neg Bool.false_ne_true]
  dsimp only
  rw [happly]
  change (if (hash H t).1 ≠ (index p).block.hashAccountRoot then _ else _) = _
  rw [if_neg (not_not.mpr hhash)]
  rfl

/-- Recorded or not: a block that is not recorded stays in the trie, and the label does not
move. -/
theorem apply_recordable (hread : disk.readBlock p = true) {t : TrieNode} {undos : List TxUndo}
    (happly : tempApply (disk.junk p) node.view.root (index p).block = .ok (true, some t, undos))
    (hhash : (hash H t).1 = (index p).block.hashAccountRoot) :
    (Recordable disk node p → ∃ node', apply H index disk node p = .ok (true, node')) ∧
    (¬Recordable disk node p → ∃ node', apply H index disk node p = .ok (false, node') ∧
      node'.view = ⟨some (hash H t).2, node.view.bestBlock⟩) := by
  have hiff : (recordUndo disk (node.setRoot (some (hash H t).2)) p undos).1 = true ↔
      Recordable disk node p := recordUndo_fst_iff.trans ⟨(·.congr rfl), (·.congr rfl)⟩
  rw [apply_of_accepted hread happly hhash, ← hiff]
  rcases hrecord : recordUndo disk (node.setRoot (some (hash H t).2)) p undos with
    ⟨_ | _, node₁⟩
  · exact ⟨fun h ↦ Bool.noConfusion h, fun _ ↦ ⟨node₁, rfl, (recordUndo_spec hrecord).1⟩⟩
  · exact ⟨fun _ ↦ ⟨_, rfl⟩, fun h ↦ absurd rfl h⟩

/-- A block can be applied to any trie with the accounts of one it has been applied to. -/
theorem apply_retry (hread : disk.readBlock p = true)
    (happly : tempApply (disk.junk p) T.root (index p).block = .ok (true, some t, undos))
    (hhash : (hash H t).1 = (index p).block.hashAccountRoot)
    (hvalid : ValidRoot H node.view.root) (haccts : accounts node.view.root = accounts T.root) :
    ∃ node', apply H index disk.repaired node p = .ok (true, node') := by
  obtain ⟨ℓ, hℓ, hend⟩ := exists_ledger_of_tempApply T.valid happly
  rw [← haccts] at hℓ
  obtain ⟨root', undos', happly', haccts'⟩ := exists_tempApply_of_ledger hvalid hℓ
  have hsame := (tempApply_eq_ok hvalid happly').1.ext (tempApply_eq_ok T.valid happly).1
    (haccts'.trans hend)
  -- the same accounts make the same trie, so the account root is right again
  rcases root' with _ | t'
  · exact absurd hsame.shape (by simp)
  · have hhash' : (hash H t').1 = (index p).block.hashAccountRoot :=
      (Option.some.inj hsame.hash).trans hhash
    exact (@apply_recordable H index disk.repaired node p hread t' undos' happly' hhash').1
      ⟨fun _ ↦ ⟨rfl, rfl⟩, fun _ ↦ rfl⟩

theorem idle_iff (happly : tempApply junk T.root block = .ok (true, some t, undos)) :
    Idle junk (accounts T.root) block ↔ SameTrie H (some (hash H t).2) T.root := by
  obtain ⟨hvalid, hrun, -, -⟩ := tempApply_eq_ok T.valid happly
  obtain ⟨hvalid', hmap⟩ := (validRoot_some.mp hvalid).hash
  have haccts : accounts (some (hash H t).2) = accounts (some t) := hmap
  rw [Idle, ← hrun, ← haccts]
  exact ⟨(validRoot_some.mpr hvalid').ext T.valid, SameTrie.accts⟩

/-- **Late failures.** Let `TempApply` accept a block whose account root is right. Whenever `Apply`
returns false then, because something could not be written, the accounts, the root hash and the
label are those before the call and the block can be tried again, if and only if everything can be
written or the block is idle. -/
theorem unrecorded_clean_iff (T : AccountTrie H) {t : TrieNode} {undos : List TxUndo}
    (hroot : node.view.root = T.root) (hread : disk.readBlock p = true)
    (happly : tempApply (disk.junk p) T.root (index p).block = .ok (true, some t, undos))
    (hhash : (TrieNode.hash H t).1 = (index p).block.hashAccountRoot) :
    (∀ node', apply H index disk node p = .ok (false, node') →
        SameTrie H node'.view.root T.root ∧ node'.view.bestBlock = node.view.bestBlock ∧
          ∃ node'', apply H index disk.repaired node' p = .ok (true, node'')) ↔
      Recordable disk node p ∨ Idle (disk.junk p) (accounts T.root) (index p).block := by
  rw [← hroot] at happly
  obtain ⟨hwritten, hfailed⟩ := apply_recordable hread happly hhash
  rw [hroot] at happly
  by_cases hrecordable : Recordable disk node p
  · obtain ⟨node₁, hnode₁⟩ := hwritten hrecordable
    refine iff_of_true (fun node' hnode' ↦ ?_) (.inl hrecordable)
    exact Bool.noConfusion (Prod.mk.inj (Except.ok.inj (hnode₁.symm.trans hnode'))).1
  · obtain ⟨node₁, hnode₁, hview⟩ := hfailed hrecordable
    rw [or_iff_right hrecordable, idle_iff happly]
    refine ⟨fun h ↦ ?_, fun hsame node' hnode' ↦ ?_⟩
    · have hclean := (h node₁ hnode₁).1
      rwa [hview] at hclean
    · obtain ⟨-, rfl⟩ := Prod.mk.inj (Except.ok.inj (hnode₁.symm.trans hnode'))
      rw [hview]
      refine ⟨hsame, rfl, apply_retry hread happly hhash ?_ ?_⟩
      · rw [hview]
        exact validRoot_some.mpr (validRoot_some.mp (tempApply_eq_ok T.valid happly).1).hash.1
      · rw [hview]
        exact hsame.accts

theorem not_idle_of_spendsFrom (T : AccountTrie H) {root' : Option TrieNode}
    (happly : tempApply junk T.root block = .ok (true, root', undos)) {k : UInt160}
    {a : AccountData} (ha : accounts T.root k = some a) (horder : a.InOrder block.nHeight)
    (hage : a.age ≠ block.nHeight) (hspends : block.SpendsFrom k) :
    ¬Idle junk (accounts T.root) block := by
  intro hidle
  obtain ⟨ℓ, htended, haccts, -⟩ := exists_tended T.valid happly (k := k) fun b hb ↦
    Option.some.inj (ha.symm.trans hb) ▸ horder
  rw [Idle, ← (tempApply_eq_ok T.valid happly).2.1, ← haccts] at hidle
  rcases htended.age a (hidle ▸ ha) with hnow | ⟨hidle', -⟩
  · exact hage hnow
  · exact hidle' hspends

end Unrecorded

/-! ## A block that is applied twice -/

/-- The trie of ten coins in account `5`, not used yet. -/
def freshFive : AccountTrie Sha256.sha256d := .singleton 5 { AccountData.init with balance := 10 }

def nodeOfFive : Node := ⟨⟨freshFive.root, 100⟩, fun _ ↦ 0, fun _ ↦ []⟩

/-- An entry for a block that leaves account `5` with an age and a balance. -/
def entryFor (vtx : List Transaction) (age balance : UInt64) (_ : ℕ) : BlockIndex :=
  ⟨101, some 0, 1, 101, { blockOf vtx with hashAccountRoot := rootOfFive age balance }⟩

def fullDisk : Disk := { goodDisk with writeUndo := fun _ ↦ false }

def badDisks : List Disk :=
  [{ goodDisk with findUndoPos := fun _ ↦ false }, fullDisk,
    { goodDisk with writeIndex := fun _ ↦ false }]

/-- An empty block changes nothing, recorded or not. -/
theorem unrecorded_clean_iff_empty : ∃ node',
    apply Sha256.sha256d (entryFor [] 0 10) fullDisk nodeOfFive 1 = .ok (false, node') ∧
      SameTrie Sha256.sha256d node'.view.root freshFive.root ∧ node'.view.bestBlock = 100 := by
  have hread : fullDisk.readBlock 1 = true := rfl
  have hbad : ¬Recordable fullDisk nodeOfFive 1 := fun h ↦ Bool.noConfusion (h.undo rfl).2
  have happly : tempApply (fullDisk.junk 1) freshFive.root (entryFor [] 0 10 1).block
      = .ok (true, freshFive.root, []) := rfl
  obtain ⟨node', hnode', -⟩ := (apply_recordable hread happly rfl).2 hbad
  have hclean := (unrecorded_clean_iff freshFive rfl hread happly rfl).mpr (.inr rfl) node' hnode'
  exact ⟨node', hnode', hclean.1, hclean.2.1⟩

/-- The label and the balance of account `5` after a call of `Apply` on a bad disk, and what the
next call returns once the disk is repaired. -/
def secondTry (disk : Disk) : Exec (Bool × UInt256 × Option UInt64 × Bool) := do
  let r ← apply Sha256.sha256d (entryFor [spend 4 3] 1 9) disk nodeOfFive 1
  let again ← apply Sha256.sha256d (entryFor [spend 4 3] 1 9) disk.repaired r.2 1
  pure (r.1, r.2.view.bestBlock, (accounts r.2.view.root 5).map AccountData.balance, again.1)

/-- Four coins are withdrawn and three paid back. Whichever write fails, `Apply` returns false, the
account holds nine coins instead of ten, and the block is refused the next time. -/
theorem applied_but_unrecorded :
    (accounts freshFive.root 5).map AccountData.balance = some 10 ∧
    (apply Sha256.sha256d (entryFor [spend 4 3] 1 9) goodDisk nodeOfFive 1).map Prod.fst
      = .ok true ∧
    ∀ disk ∈ badDisks, secondTry disk = .ok (false, 100, some 9, false) := by
  decide +kernel

end Cryptonite
