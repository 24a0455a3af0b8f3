import Cryptonite.Chain.Reorg

/-!
# The label of the view

`Activate` starts from the block `m_bestBlock` names, so the trie had better hold the state of that
block (`Labelled`). A call that returns true leaves it so. One that returns false does not always:

* unwinding a block sets the label to *that* block, not to its parent, so that a rewind that stops
  half way, or is followed by a first block that does not connect, leaves a label one block ahead;
* a rejected block may be rolled back wrong, as `RollbackSafe` says;
* a block that connects but whose undo record or index entry cannot be written stays in the trie,
  and the label is not moved.

A call with none of these is `Smooth`, and runs of smooth calls keep the view labelled, whatever
they return (`labelled_of_run`).
-/

namespace Cryptonite

open Ancestry

/-- The trie holds the state of the block the view is labelled with, and the undo records are
those `Apply` wrote. -/
def Labelled (H : List UInt8 → UInt256) (tree : BlockTree) (node : Node) : Prop :=
  ∃ p, tree.mapBlockIndex node.view.bestBlock = some p ∧ Standing H tree node p

def CanUnwind (disk : Disk) (node : Node) (p : ℕ) : Prop :=
  node.undoPosNull p = false ∧ disk.readUndo p = true

/-- The block can be read, is accepted on the state of its parent, and commits to the right account
root. -/
def CanConnect (H : List UInt8 → UInt256) (tree : BlockTree) (disk : Disk) (p : ℕ) : Prop :=
  disk.readBlock p = true ∧ ∀ q root, tree.parent p = some q → ValidRoot H root →
    tree.StateOf q (accounts root) →
    ∃ t undos, tempApply (disk.junk p) root (tree.index p).block = .ok (true, some t, undos) ∧
      (TrieNode.hash H t).1 = (tree.index p).block.hashAccountRoot

/-- The block can be recorded if it connects, and is rolled back right if it is rejected. -/
structure Tidy (H : List UInt8 → UInt256) (tree : BlockTree) (disk : Disk) (node : Node) (p : ℕ) :
    Prop where
  recordable : CanConnect H tree disk p → Recordable disk node p
  rollback : ∀ q m ℓ, disk.readBlock p = true → tree.parent p = some q → tree.StateOf q m →
    Ledger.apply (disk.junk p) m (tree.index p).block = .ok (false, ℓ) →
    RollbackSafe (disk.junk p) m (tree.index p).block

/-- The blocks are tidy, up to the first that does not connect. -/
def TidyUntil (H : List UInt8 → UInt256) (tree : BlockTree) (disk : Disk) (node : Node) :
    List ℕ → Prop
  | [] => True
  | p :: ps => Tidy H tree disk node p ∧ (CanConnect H tree disk p → TidyUntil H tree disk node ps)

/-- Going up the first list and down the second cannot tear the label off the trie: a rewind that
begins gets to its end and to the first block after it, and the blocks to connect are tidy. -/
structure Smooth (H : List UInt8 → UInt256) (tree : BlockTree) (disk : Disk) (node : Node)
    (ups downs : List ℕ) : Prop where
  /-- The undo records can be read, or the first of them cannot. -/
  unwind : ∀ p, ups.head? = some p → CanUnwind disk node p → ∀ r ∈ ups, CanUnwind disk node r
  /-- After a rewind the first block connects. -/
  connect : ∀ p, ups.head? = some p → CanUnwind disk node p →
    ∀ r, downs.head? = some r → CanConnect H tree disk r
  /-- Nothing is left behind by the block that does not connect. -/
  tidy : TidyUntil H tree disk node downs

/-- A run of smooth calls of `Activate`, whatever they return. -/
inductive Run (H : List UInt8 → UInt256) (tree : BlockTree) : Node → Node → Prop
  | refl (node : Node) : Run H tree node node
  | call {node node₁ node₂ : Node} {disk : Disk} {pindex : Option ℕ} {verdict : Bool}
      {bad : Option UInt256} (hrun : Run H tree node node₁)
      (hmem : ∀ p, pindex = some p → tree.Mem p)
      (hsmooth : ∀ p q ups downs, pindex = some p →
        tree.mapBlockIndex node₁.view.bestBlock = some q →
        paths tree.index p q = .ok (ups, downs) → Smooth H tree disk node₁ ups downs)
      (hcall : activate H tree.index tree.mapBlockIndex disk node₁ pindex
        = .ok (verdict, bad, node₂)) :
      Run H tree node node₂

section Label

variable {H : List UInt8 → UInt256} {tree : BlockTree} {disk : Disk} {node node' : Node}
  {p q x y : ℕ}

variable {ups downs : List ℕ} {verdict b : Bool} {bad : Option UInt256} {index : ℕ → BlockIndex}
  {root₀ : Option TrieNode} {undos₀ : List TxUndo}

theorem Run.activate {node₀ : Node} (hrun : Run H tree node₀ node) (hp : tree.Mem p)
    (hbest : tree.mapBlockIndex node.view.bestBlock = some q)
    (hpaths : paths tree.index p q = .ok (ups, downs)) (hsmooth : Smooth H tree disk node ups downs)
    (hcall : activate H tree.index tree.mapBlockIndex disk node (some p)
      = .ok (verdict, bad, node')) : Run H tree node₀ node' := by
  refine hrun.call (fun p' hp' ↦ ?_) (fun p' q' ups' downs' hp' hbest' hpaths' ↦ ?_) hcall
  · exact Option.some_inj.mp hp' ▸ hp
  · obtain rfl := Option.some_inj.mp hp'
    obtain rfl := Option.some_inj.mp (hbest.symm.trans hbest')
    obtain ⟨rfl, rfl⟩ := Prod.mk.inj (Except.ok.inj (hpaths.symm.trans hpaths'))
    exact hsmooth

theorem unwind_fst : ∀ {ups : List ℕ} {node : Node},
    (∀ r ∈ ups, CanUnwind disk node r) → unwind index disk ups node = .ok (b, node') →
    b = true := by
  intro ups
  induction ups with
  | nil => exact fun _ h ↦ (Prod.mk.inj (Except.ok.inj h)).1.symm
  | cons r ups ih =>
    intro node hread h
    rw [List.forall_mem_cons] at hread
    rw [unwind, hread.1.1, hread.1.2] at h
    obtain ⟨root, -, h⟩ := Except.bind_eq_ok_iff.mp h
    -- neither the trie nor the label matters for the records to come
    exact @ih ((node.setRoot root).setBest (index r).hash) hread.2 h

theorem unwind_status : ∀ {ups : List ℕ} {node : Node},
    unwind index disk ups node = .ok (b, node') → ∀ r, node'.status r = node.status r := by
  intro ups
  induction ups with
  | nil =>
    intro node h r
    obtain ⟨-, rfl⟩ := Prod.mk.inj (Except.ok.inj h)
    rfl
  | cons p ups ih =>
    intro node h r
    rw [unwind] at h
    split at h
    · obtain ⟨-, rfl⟩ := Prod.mk.inj (Except.ok.inj h)
      rfl
    · obtain ⟨root, -, h⟩ := Except.bind_eq_ok_iff.mp h
      exact (ih h r).trans rfl

/-- A rewind that gets past its first block could read its record. -/
theorem canUnwind_of_unwind {r : ℕ}
    (h : unwind index disk (r :: ups) node = .ok (true, node')) : CanUnwind disk node r := by
  rw [unwind] at h
  split_ifs at h with hread
  · exact absurd (Prod.mk.inj (Except.ok.inj h)).1 (by simp)
  · simpa [CanUnwind] using hread

theorem TidyUntil.mono (hmono : ∀ r, Recordable disk node r → Recordable disk node' r) :
    ∀ {ps : List ℕ}, TidyUntil H tree disk node ps → TidyUntil H tree disk node' ps := by
  intro ps
  induction ps with
  | nil => exact id
  | cons p ps ih =>
    rintro ⟨hp, hps⟩
    exact ⟨⟨fun hconnect ↦ hmono p (hp.recordable hconnect), hp.rollback⟩, fun h ↦ ih (hps h)⟩

theorem Recordable.apply {r : ℕ} (h : Recordable disk node r)
    (happly : Cryptonite.apply H index disk node p = .ok (true, node')) :
    Recordable disk node' r := by
  rcases apply_outcome happly with _ | _ | _ | _ | ⟨_, _, hrecord⟩
  exact ((h.setRoot _).recordUndo hrecord).setBest _

theorem canConnect_of_tempApply (hread : disk.readBlock p = true)
    (hvalid₀ : ValidRoot H root₀) (hq : tree.parent p = some q)
    (hstate : tree.StateOf q (accounts root₀)) {t₀ : TrieNode}
    (happly : tempApply (disk.junk p) root₀ (tree.index p).block = .ok (true, some t₀, undos₀))
    (hhash : (TrieNode.hash H t₀).1 = (tree.index p).block.hashAccountRoot) :
    CanConnect H tree disk p := by
  refine ⟨hread, fun q' root hq' hvalid hroot ↦ ?_⟩
  obtain rfl := Option.some_inj.mp (hq.symm.trans hq')
  obtain ⟨ℓ, hℓ, haccts⟩ := exists_ledger_of_tempApply hvalid₀ happly
  have href := tempApply_refines hvalid (disk.junk p) (tree.index p).block
  rw [hroot.unique hstate, hℓ] at href
  obtain ⟨root', hroot', hvalid', hrun, hrun', -⟩ := href
  -- the two tries hold the same accounts, so neither is null and the hashes agree
  have hsame := hvalid'.ext (tempApply_eq_ok hvalid₀ happly).1
    (hrun.trans (hrun'.symm.trans haccts))
  rcases root' with _ | t
  · exact absurd hsame.shape (by simp)
  · exact ⟨t, _, hroot', (Option.some_inj.mp hsame.hash).trans hhash⟩

theorem apply_of_unread (hread : disk.readBlock p = false) :
    apply H index disk node p = .ok (false, node) := by
  rw [apply, hread]
  rfl

theorem canConnect_of_apply (hnode : Standing H tree node q) (hq : tree.parent p = some q)
    (h : apply H tree.index disk node p = .ok (true, node')) : CanConnect H tree disk p := by
  have hread : disk.readBlock p = true := by
    by_contra hread
    rw [apply_of_unread (by simpa using hread)] at h
    exact absurd (Prod.mk.inj (Except.ok.inj h)).1 (by simp)
  rcases apply_outcome h with _ | _ | _ | _ | ⟨htemp, hhash, _⟩
  exact canConnect_of_tempApply hread hnode.valid hq hnode.state htemp hhash

theorem apply_fst (hnode : Standing H tree node q) (hq : tree.parent p = some q)
    (hconnect : CanConnect H tree disk p) (hrecordable : Recordable disk node p)
    (h : apply H tree.index disk node p = .ok (b, node')) : b = true := by
  obtain ⟨t, undos, happly, hhash⟩ := hconnect.2 q node.view.root hq hnode.valid hnode.state
  rcases apply_outcome h with
    hread | ⟨htemp, _⟩ | ⟨htemp, hne, _⟩ | ⟨_, _, hrecord⟩ | _
  · exact absurd (hread.symm.trans hconnect.1) (by simp)
  · exact absurd (htemp.symm.trans happly) (by simp)
  · obtain ⟨rfl, -⟩ : _ = t ∧ _ := by simpa using htemp.symm.trans happly
    exact absurd hhash hne
  · exact absurd hrecord hrecordable.recordUndo_ne
  · rfl

/-- The loop that connects keeps a labelled view labelled. -/
theorem wind_labelled {bad : Option ℕ} (hdown : Down tree.parent x downs y) :
    ∀ {node : Node}, tree.mapBlockIndex node.view.bestBlock = some x → Standing H tree node x →
      (∀ r ∈ downs, tree.Mem r) → TidyUntil H tree disk node downs →
      wind H tree.index disk downs node = .ok (bad, node') → Labelled H tree node' := by
  induction hdown with
  | refl x =>
    intro node hbest hnode _ _ h
    obtain rfl : node = node' := (Prod.mk.inj (Except.ok.inj h)).2
    exact ⟨x, hbest, hnode⟩
  | @step x p y downs hsome _ ih =>
    intro node hbest hnode hmem htidy h
    rw [List.forall_mem_cons] at hmem
    rw [wind] at h
    obtain ⟨⟨_ | _, node₁⟩, happly, h⟩ := Except.bind_eq_ok_iff.mp h
    · obtain rfl : node₁ = node' := (Prod.mk.inj (Except.ok.inj h)).2
      rcases hread : disk.readBlock p with _ | _
      · rw [apply_of_unread hread] at happly
        obtain rfl : node = node₁ := (Prod.mk.inj (Except.ok.inj happly)).2
        exact ⟨x, hbest, hnode⟩
      · obtain ⟨hstand, hlabel⟩ := hnode.refused (fun t undos htemp hhash ↦ htidy.1.recordable
            (canConnect_of_tempApply hread hnode.valid hsome hnode.state htemp hhash))
          (fun ℓ hℓ ↦ htidy.1.rollback x _ ℓ hread hsome hnode.state hℓ) happly
        exact ⟨x, by rw [hlabel, hbest], hstand⟩
    · exact @ih (node₁.setBest (tree.index p).hash) hmem.1
        ((hnode.connected hsome happly).setBest _) hmem.2
        (TidyUntil.mono (fun r hr ↦ (hr.apply happly).setBest _)
          (htidy.2 (canConnect_of_apply hnode hsome happly))) h

/-- **A smooth call keeps the view labelled**, whatever it returns. -/
theorem activate_labelled {pindex : Option ℕ}
    (hnode : Labelled H tree node) (hmem : ∀ p, pindex = some p → tree.Mem p)
    (hsmooth : ∀ p q ups downs, pindex = some p → tree.mapBlockIndex node.view.bestBlock = some q →
      paths tree.index p q = .ok (ups, downs) → Smooth H tree disk node ups downs)
    (h : activate H tree.index tree.mapBlockIndex disk node pindex = .ok (verdict, bad, node')) :
    Labelled H tree node' := by
  obtain ⟨q, hbest, hstand⟩ := hnode
  rcases pindex with _ | p
  · obtain rfl : node = node' := (Prod.mk.inj (Prod.mk.inj (Except.ok.inj h)).2).2
    exact ⟨q, hbest, hstand⟩
  obtain ⟨x, ups, downs, hpaths, hup, hdown, hmemUps, hmemDowns, houtcome⟩ :=
    activate_outcome hbest (hmem p rfl) h
  have hsmooth := hsmooth p q ups downs rfl hbest hpaths
  rcases houtcome with ⟨-, hunwind⟩ | ⟨node₁, hunwind, ⟨-, r, hwind⟩ | ⟨rfl, -⟩⟩
  · -- the rewind stops, so it has not begun
    rcases ups with _ | ⟨r, ups⟩
    · exact absurd (Prod.mk.inj (Except.ok.inj hunwind)).1 (by simp)
    · by_cases hread : CanUnwind disk node r
      · exact absurd (unwind_fst (hsmooth.unwind r rfl hread) hunwind) (by simp)
      · have hstop : (node.undoPosNull r || !disk.readUndo r) = true := by
          simpa [CanUnwind, ← Bool.not_eq_true, imp_iff_not_or] using hread
        rw [unwind, if_pos hstop] at hunwind
        obtain rfl : node = node' := (Prod.mk.inj (Except.ok.inj hunwind)).2
        exact ⟨q, hbest, hstand⟩
  · -- a block does not connect; if there was a rewind it is not the first
    rcases ups with _ | ⟨s, ups⟩
    · rcases hup with _ | _
      obtain rfl : node = node₁ := (Prod.mk.inj (Except.ok.inj hunwind)).2
      exact wind_labelled hdown hbest hstand hmemDowns hsmooth.tidy hwind
    · have hread := canUnwind_of_unwind hunwind
      have hstand₁ := unwind_standing hup hmemUps hstand hunwind
      rcases hdown with _ | @⟨_, first, _, rest, hsome, hrest⟩
      · exact absurd (Prod.mk.inj (Except.ok.inj hwind)).1 (by simp)
      · obtain ⟨htidy, hrestTidy⟩ := hsmooth.tidy
        have hconnect := hsmooth.connect s rfl hread first rfl
        have hmono := fun r (hr : Recordable disk node r) ↦ hr.congr (unwind_status hunwind r)
        have hmemDowns := List.forall_mem_cons.mp hmemDowns
        rw [wind] at hwind
        obtain ⟨⟨b, node₂⟩, happly, hwind⟩ := Except.bind_eq_ok_iff.mp hwind
        obtain rfl := apply_fst hstand₁ hsome hconnect (hmono _ (htidy.recordable hconnect)) happly
        have hbest₂ : tree.mapBlockIndex (node₂.setBest (tree.index first).hash).view.bestBlock
            = some first := hmemDowns.1
        refine wind_labelled hrest hbest₂ ((hstand₁.connected hsome happly).setBest _)
          hmemDowns.2 ((hrestTidy hconnect).mono fun r hr ↦ ?_) hwind
        exact ((hmono r hr).apply happly).setBest _
  · obtain ⟨hstand', hbest'⟩ := activate_standing hbest hstand (hmem p rfl) h
    exact ⟨p, hbest', hstand'⟩

theorem tidy_of_tempApply (hwrite : Recordable disk node p)
    {root' : Option TrieNode} (hvalid₀ : ValidRoot H root₀) (hq : tree.parent p = some q)
    (hstate : tree.StateOf q (accounts root₀))
    (happly : tempApply (disk.junk p) root₀ (tree.index p).block = .ok (true, root', undos₀)) :
    Tidy H tree disk node p := by
  refine ⟨fun _ ↦ hwrite, fun q' m ℓ _ hq' hm hℓ ↦ ?_⟩
  obtain rfl := Option.some_inj.mp (hq.symm.trans hq')
  obtain ⟨ℓ', hℓ', -⟩ := exists_ledger_of_tempApply hvalid₀ happly
  rw [hm.unique hstate, hℓ'] at hℓ
  exact absurd hℓ (by simp)

/-- **The label is right after every run of smooth calls.** -/
theorem labelled_of_run (hrun : Run H tree node node') (hnode : Labelled H tree node) :
    Labelled H tree node' := by
  induction hrun with
  | refl => exact hnode
  | call _ hmem hsmooth hcall ih => exact activate_labelled ih hmem hsmooth hcall

end Label

/-! ## A rewind that stops half way -/

/-- A disk on which the undo records of some blocks cannot be read. -/
def diskWithout (bad : ℕ → Bool) : Disk := { goodDisk with readUndo := fun p ↦ !bad p }

theorem labelled_nodeAtTwo {H : List UInt8 → UInt256} : Labelled H forkTree nodeAtTwo :=
  ⟨2, by decide, standing_nodeAtTwo⟩

private theorem apply_three : ∃ t undos,
    tempApply (fun _ ↦ 0) trieAtZero (forkTree.index 3).block = .ok (true, some t, undos) ∧
    (TrieNode.hash Sha256.sha256d t).1 = (forkTree.index 3).block.hashAccountRoot := by
  have happly : tempApply (fun _ ↦ 0) trieAtZero (forkTree.index 3).block
      = .ok (true, applied trieAtZero (forkTree.index 3).block) :=
    tempApply_eq_applied (by decide +kernel)
  have hhash : (applied trieAtZero (forkTree.index 3).block).1.map
      (fun t ↦ (TrieNode.hash Sha256.sha256d t).1)
        = some (forkTree.index 3).block.hashAccountRoot := by decide +kernel
  obtain ⟨t, ht, hhash⟩ := Option.map_eq_some_iff.mp hhash
  refine ⟨t, (applied trieAtZero (forkTree.index 3).block).2, ?_, hhash⟩
  rw [happly, ← ht]

/-- A call that returns false because no record can be read, then one across the fork. -/
theorem labelled_of_run_fork :
    ∃ bad node',
      activate Sha256.sha256d forkIndex forkMap (diskWithout fun _ ↦ true) nodeAtTwo (some 0)
        = .ok (false, none, nodeAtTwo) ∧
      activate Sha256.sha256d forkIndex forkMap goodDisk nodeAtTwo (some 3)
        = .ok (true, bad, node') ∧
      Labelled Sha256.sha256d forkTree node' := by
  have hzero : paths forkTree.index 0 2 = .ok ([2, 1], []) := by decide +kernel
  have hthree : paths forkTree.index 3 2 = .ok ([2, 1], [3]) := by decide +kernel
  have hbest : forkMap nodeAtTwo.view.bestBlock = some 2 := by decide
  have hstop : (nodeAtTwo.undoPosNull 2 || !(diskWithout fun _ ↦ true).readUndo 2) = true := by
    decide
  have hunwind : unwind forkIndex (diskWithout fun _ ↦ true) [2, 1] nodeAtTwo
      = .ok (false, nodeAtTwo) := if_pos hstop
  have hfirst : activate Sha256.sha256d forkIndex forkMap (diskWithout fun _ ↦ true) nodeAtTwo
      (some 0) = .ok (false, none, nodeAtTwo) := by
    rw [activate, hbest]
    exact (Except.bind_of_eq_ok hzero _).trans (Except.bind_of_eq_ok hunwind _)
  have hverdict : (activate Sha256.sha256d forkIndex forkMap goodDisk nodeAtTwo (some 3)).map
      Prod.fst = .ok true := by decide +kernel
  obtain ⟨bad, node', hsecond⟩ := exists_of_activate_verdict hverdict
  refine ⟨bad, node', hfirst, hsecond, ?_⟩
  obtain ⟨t, undos, happly, hhash⟩ := apply_three
  have htidy : Tidy Sha256.sha256d forkTree goodDisk nodeAtTwo 3 :=
    tidy_of_tempApply ⟨fun _ ↦ ⟨rfl, rfl⟩, fun _ ↦ rfl⟩ valid_trieAtZero rfl stateOf_zero happly
  have hsmooth : Smooth Sha256.sha256d forkTree goodDisk nodeAtTwo [2, 1] [3] := by
    refine ⟨fun _ _ _ r hr ↦ ?_, fun _ _ _ r hr ↦ ?_, htidy, fun _ ↦ trivial⟩
    · have hr : r = 2 ∨ r = 1 := by simpa using hr
      rcases hr with rfl | rfl
      · exact ⟨by decide, rfl⟩
      · exact ⟨by decide, rfl⟩
    · obtain rfl : 3 = r := Option.some_inj.mp hr
      exact canConnect_of_tempApply rfl valid_trieAtZero rfl stateOf_zero happly hhash
  have hsmooth' : Smooth Sha256.sha256d forkTree (diskWithout fun _ ↦ true) nodeAtTwo [2, 1] [] :=
    ⟨fun p _ hread ↦ absurd hread.2 (by simp [diskWithout]),
      fun p _ hread ↦ absurd hread.2 (by simp [diskWithout]), trivial⟩
  have hmem : forkTree.Mem 0 ∧ forkTree.Mem 3 := by rw [BlockTree.Mem, BlockTree.Mem]; decide
  have hrun : Run Sha256.sha256d forkTree nodeAtTwo nodeAtTwo :=
    (Run.refl nodeAtTwo).activate hmem.1 hbest hzero hsmooth' hfirst
  exact labelled_of_run (hrun.activate hmem.2 hbest hthree hsmooth hsecond) labelled_nodeAtTwo

/-- The view after a call of `Activate`: the verdict, the label and the coins in account `5`. -/
def labelAndCoins (disk : Disk) (node : Node) (p : ℕ) : Exec (Bool × UInt256 × Option UInt64) :=
  (activate Sha256.sha256d forkIndex forkMap disk node (some p)).map fun r ↦
    (r.1, r.2.2.view.bestBlock, (accounts r.2.2.view.root 5).map AccountData.balance)

/-- A rewind from `2` to `0` that cannot read the record of `1` leaves the trie at `1` and the label
at `2`. -/
theorem label_ahead_of_trie :
    Labelled Sha256.sha256d forkTree nodeAtTwo ∧
    (accounts nodeAtTwo.view.root 5).map AccountData.balance = some 7 ∧
    labelAndCoins (diskWithout fun p ↦ p = 1) nodeAtTwo 0 = .ok (false, 102, some 9) ∧
    ∃ bad node', activate Sha256.sha256d forkIndex forkMap (diskWithout fun p ↦ p = 1) nodeAtTwo
        (some 0) = .ok (false, bad, node') ∧ ¬ Labelled Sha256.sha256d forkTree node' := by
  have hcoins : (accounts nodeAtTwo.view.root 5).map AccountData.balance = some 7 := by
    decide +kernel
  have hview : labelAndCoins (diskWithout fun p ↦ p = 1) nodeAtTwo 0
      = .ok (false, 102, some 9) := by
    decide +kernel
  refine ⟨labelled_nodeAtTwo, hcoins, hview, ?_⟩
  rw [labelAndCoins] at hview
  revert hview
  rcases activate Sha256.sha256d forkIndex forkMap (diskWithout fun p ↦ p = 1) nodeAtTwo (some 0)
    with f | ⟨b, bad, node'⟩ <;> intro hview
  · simp [Except.map] at hview
  · obtain ⟨rfl, hbest, hcoins'⟩ : b = false ∧ node'.view.bestBlock = 102 ∧
        (accounts node'.view.root 5).map AccountData.balance = some 9 := by
      simpa [Except.map] using hview
    refine ⟨bad, node', rfl, ?_⟩
    rintro ⟨p, hp, hstand⟩
    rw [hbest] at hp
    obtain rfl : 2 = p := Option.some_inj.mp hp
    -- the block `2` has one state, and it has seven coins in the account
    rw [hstand.state.unique (standing_nodeAtTwo (H := Sha256.sha256d)).state, hcoins] at hcoins'
    exact absurd hcoins' (by decide)

end Cryptonite
