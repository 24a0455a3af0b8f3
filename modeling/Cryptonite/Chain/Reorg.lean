import Cryptonite.Chain.State
import Cryptonite.Trie.SliceCorrect

/-!
# Reorganisations

`Activate` goes up from the block the view stands on to the last common ancestor and down to the
target, one block at a time, and each step is one of the steps of `Standing`. When it returns true
the view stands on the target (`activate_standing`), so what it holds does not depend on where it
came from: it is what replaying the chain from the genesis block leaves
(`activate_path_independent`). Going to a block and back, as `BalancesAt` and `GetSlice` do, leaves
the trie as it was.
-/

namespace Cryptonite

open Ancestry

variable {H : List UInt8 → UInt256} {tree : BlockTree} {disk : Disk} {node node' : Node}
  {p q x y : ℕ}

/-! ## The two loops -/

theorem unwind_standing {ups : List ℕ} (hup : Up tree.parent q ups x) :
    ∀ {node : Node}, (∀ r ∈ ups, tree.Mem r) → Standing H tree node q →
      unwind tree.index disk ups node = .ok (true, node') → Standing H tree node' x := by
  induction hup with
  | refl x =>
    intro node _ hnode h
    obtain rfl : node = node' := (Prod.mk.inj (Except.ok.inj h)).2
    exact hnode
  | step hsome _ ih =>
    intro node hmem hnode h
    rw [List.forall_mem_cons] at hmem
    rw [unwind] at h
    split_ifs at h with hread
    · exact absurd (Prod.mk.inj (Except.ok.inj h)).1 (by simp)
    · rw [Bool.or_eq_true, not_or, Bool.not_eq_true] at hread
      obtain ⟨root', hundo, hstand⟩ := hnode.unapply hmem.1 hsome hread.1
      rw [hundo] at h
      exact ih hmem.2 (hstand.setBest _) h

theorem wind_standing {downs : List ℕ} (hdown : Down tree.parent x downs y) :
    ∀ {node : Node}, Standing H tree node x →
      wind H tree.index disk downs node = .ok (none, node') → Standing H tree node' y := by
  induction hdown with
  | refl x =>
    intro node hnode h
    obtain rfl : node = node' := (Prod.mk.inj (Except.ok.inj h)).2
    exact hnode
  | step hsome _ ih =>
    intro node hnode h
    rw [wind] at h
    obtain ⟨⟨_ | _, node₁⟩, happly, h⟩ := Except.bind_eq_ok_iff.mp h
    · exact absurd (Prod.mk.inj (Except.ok.inj h)).1 (by simp)
    · exact ih ((hnode.connected hsome happly).setBest _) h

/-! ## Activate -/

variable {bad bad' : Option UInt256} {disk' : Disk} {A B : ℕ} {node'' : Node}

/-- The ways `Activate` returns from a labelled view of the tree: it cannot unwind, it cannot
connect, or it gets there. -/
theorem activate_outcome {verdict : Bool}
    (hbest : tree.mapBlockIndex node.view.bestBlock = some q) (hp : tree.Mem p)
    (h : activate H tree.index tree.mapBlockIndex disk node (some p) = .ok (verdict, bad, node')) :
    ∃ x ups downs, paths tree.index p q = .ok (ups, downs) ∧
      Up tree.parent q ups x ∧ Down tree.parent x downs p ∧
      (∀ r ∈ ups, tree.Mem r) ∧ (∀ r ∈ downs, tree.Mem r) ∧
      ((verdict = false ∧ unwind tree.index disk ups node = .ok (false, node')) ∨
        ∃ node₁, unwind tree.index disk ups node = .ok (true, node₁) ∧
          ((verdict = false ∧ ∃ r, wind H tree.index disk downs node₁ = .ok (some r, node')) ∨
            (verdict = true ∧ ∃ node₂, wind H tree.index disk downs node₁ = .ok (none, node₂) ∧
              node' = node₂.setBest (tree.index p).headerHash))) := by
  obtain ⟨x, ups, downs, hpaths, hup, hdown, hmem, hmem'⟩ :=
    BlockTree.paths_eq hp (BlockTree.mem_of_eq hbest)
  refine ⟨x, ups, downs, hpaths, hup, hdown, hmem, hmem', ?_⟩
  rw [activate, hbest] at h
  obtain ⟨⟨ups', downs'⟩, hpaths', h⟩ := Except.bind_eq_ok_iff.mp h
  obtain ⟨rfl, rfl⟩ := Prod.mk.inj (Except.ok.inj (hpaths.symm.trans hpaths'))
  obtain ⟨⟨_ | _, node₁⟩, hunwind, h⟩ := Except.bind_eq_ok_iff.mp h
  · obtain ⟨rfl, -, rfl⟩ : false = verdict ∧ none = bad ∧ node₁ = node' := by
      simpa [pure, Except.pure] using h
    exact .inl ⟨rfl, hunwind⟩
  · obtain ⟨⟨_ | r, node₂⟩, hwind, h⟩ := Except.bind_eq_ok_iff.mp h
    · obtain ⟨rfl, -, rfl⟩ : true = verdict ∧ none = bad ∧ _ = node' := by
        simpa [pure, Except.pure] using h
      exact .inr ⟨node₁, hunwind, .inr ⟨rfl, node₂, hwind, rfl⟩⟩
    · obtain ⟨rfl, -, rfl⟩ : false = verdict ∧ _ = bad ∧ node₂ = node' := by
        simpa [pure, Except.pure] using h
      exact .inr ⟨node₁, hunwind, .inl ⟨rfl, r, hwind⟩⟩

/-- **`Activate` gets there.** When it returns true the view stands on the target and is labelled
with it. -/
theorem activate_standing {bad : Option UInt256}
    (hbest : tree.mapBlockIndex node.view.bestBlock = some q) (hnode : Standing H tree node q)
    (hp : tree.Mem p)
    (h : activate H tree.index tree.mapBlockIndex disk node (some p) = .ok (true, bad, node')) :
    Standing H tree node' p ∧ tree.mapBlockIndex node'.view.bestBlock = some p := by
  obtain ⟨x, ups, downs, -, hup, hdown, hmem, -, houtcome⟩ := activate_outcome hbest hp h
  rcases houtcome with ⟨hfalse, -⟩ | ⟨node₁, hunwind, ⟨hfalse, -⟩ | ⟨-, node₂, hwind, rfl⟩⟩
  · cases hfalse
  · cases hfalse
  · refine ⟨(wind_standing hdown (unwind_standing hup hmem hnode hunwind) hwind).setBest _, ?_⟩
    change tree.mapBlockIndex (tree.index p).headerHash = some p
    rw [tree.headerHash_eq hp]
    exact hp

/-! ## Path independence -/

/-- The trie of the node is the one replaying the chain to the block leaves. -/
def HoldsState (H : List UInt8 → UInt256) (tree : BlockTree) (node : Node) (p : ℕ) : Prop :=
  ValidRoot H node.view.root ∧ ∃ root, tree.ReplayedTo p root ∧ SameTrie H node.view.root root

theorem HoldsState.standing (h : HoldsState H tree node p) (hundos : UndosWritten H tree node) :
    Standing H tree node p := by
  obtain ⟨hvalid, root, hreplay, hsame⟩ := h
  refine ⟨hvalid, ?_, hundos⟩
  rw [hsame.accts]
  exact (hreplay.stateOf (H := H)).2

theorem Standing.sameTrie (h : Standing H tree node p) {root : Option TrieNode}
    (hvalid : ValidRoot H root) (hstate : tree.StateOf p (accounts root)) :
    SameTrie H node.view.root root := h.valid.ext hvalid (h.state.unique hstate)

theorem Standing.holdsState (h : Standing H tree node p) : HoldsState H tree node p := by
  obtain ⟨root, hreplay, -⟩ := h.state.exists_replayedTo
  obtain ⟨hvalid, hstate⟩ := hreplay.stateOf (H := H)
  exact ⟨h.valid, root, hreplay, h.sameTrie hvalid hstate⟩

theorem balancesAt_eq (hA : tree.mapBlockIndex node.view.bestBlock = some A)
    (h : activate H tree.index tree.mapBlockIndex disk node (some B) = .ok (true, bad, node'))
    (hback : activate H tree.index tree.mapBlockIndex disk' node' (some A)
      = .ok (true, bad', node'')) (hashes : List UInt160) (balances : List ActInfo) :
    balancesAt H tree.index tree.mapBlockIndex disk disk' node (some B) hashes balances
      = .ok (true, balances ++ hashes.map (balanceInfo (tree.index B).nHeight node'.view.root),
          node'') := by
  rw [balancesAt, Except.bind_of_eq_ok h]
  dsimp only
  rw [hA]
  exact Except.bind_of_eq_ok hback _

theorem getSlice_eq (hA : tree.mapBlockIndex node.view.bestBlock = some A) (hB : tree.Mem B)
    (h : activate H tree.index tree.mapBlockIndex disk node (some B) = .ok (true, bad, node'))
    {left right : UInt160} {sz : ℕ} {nodes : UInt32} {t t' : TrieNode} {ok : Bool} {buf : SliceBuf}
    (ht : node'.view.root = some t)
    (hslice : subTrie H left right sz t 0 0 false ⟨[], nodes⟩ = .ok (ok, buf, t'))
    (hback : activate H tree.index tree.mapBlockIndex disk' (node'.setRoot (some t')) (some A)
      = .ok (true, bad', node'')) :
    getSlice H tree.index tree.mapBlockIndex disk disk' node (tree.index B).hash left right sz
      nodes = .ok (if ok then buf.out.length else 0, buf, node'') := by
  have hB' : tree.mapBlockIndex (tree.index B).hash = some B := hB
  rw [getSlice, hA, hB']
  dsimp only
  rw [Except.bind_of_eq_ok h]
  dsimp only
  rw [ht]
  dsimp only
  rw [Except.bind_of_eq_ok hslice]
  exact Except.bind_of_eq_ok hback _

/-- **Reorg path independence.** From the state of any block `A`, an `Activate(B)` that returns true
leaves the trie that replaying the chain to `B` leaves. An excursion of `BalancesAt` or `GetSlice`
to `B` and back, both ways of which succeed, leaves the trie it started from. -/
theorem activate_path_independent {A B : ℕ} {bad : Option UInt256} (hA : tree.Mem A)
    (hB : tree.Mem B) (hbest : node.view.bestBlock = (tree.index A).hash)
    (hstate : HoldsState H tree node A) (hundos : UndosWritten H tree node)
    (h : activate H tree.index tree.mapBlockIndex disk node (some B) = .ok (true, bad, node')) :
    (HoldsState H tree node' B ∧
      ∀ root, tree.ReplayedTo B root → SameTrie H node'.view.root root) ∧
    (∀ disk' bad' node'' hashes balances,
      activate H tree.index tree.mapBlockIndex disk' node' (some A) = .ok (true, bad', node'') →
      balancesAt H tree.index tree.mapBlockIndex disk disk' node (some B) hashes balances
        = .ok (true, balances ++ hashes.map (balanceInfo (tree.index B).nHeight node'.view.root),
            node'') ∧
      SameTrie H node''.view.root node.view.root) ∧
    ∀ disk' bad' node'' left right sz nodes t ok buf t', node'.view.root = some t →
      subTrie H left right sz t 0 0 false ⟨[], nodes⟩ = .ok (ok, buf, t') →
      activate H tree.index tree.mapBlockIndex disk' (node'.setRoot (some t')) (some A)
        = .ok (true, bad', node'') →
      getSlice H tree.index tree.mapBlockIndex disk disk' node (tree.index B).hash left right sz
        nodes = .ok (if ok then buf.out.length else 0, buf, node'') ∧
      SameTrie H node''.view.root node.view.root := by
  have hA' : tree.mapBlockIndex node.view.bestBlock = some A := by rw [hbest]; exact hA
  have hnode := hstate.standing hundos
  obtain ⟨hnode', hbest'⟩ := activate_standing hA' hnode hB h
  refine ⟨⟨hnode'.holdsState, fun root hroot ↦ ?_⟩, ?_, ?_⟩
  · obtain ⟨hvalid, hroot⟩ := hroot.stateOf (H := H)
    exact hnode'.sameTrie hvalid hroot
  · intro disk' bad' node'' hashes balances hback
    obtain ⟨hnode'', -⟩ := activate_standing hbest' hnode' hA hback
    exact ⟨balancesAt_eq hA' h hback hashes balances, hnode''.sameTrie hnode.valid hnode.state⟩
  · intro disk' bad' node'' left right sz nodes t ok buf t' ht hslice hback
    obtain ⟨hvalid, hmap⟩ := (hnode'.valid t ht).subTrie hslice
    have hsame : SameTrie H (some t') node'.view.root :=
      (validRoot_some.mpr hvalid).ext hnode'.valid (by rw [ht]; exact hmap)
    have hcut := hnode'.setRoot (validRoot_some.mpr hvalid) hsame
    obtain ⟨hnode'', -⟩ := @activate_standing H tree disk' (node'.setRoot (some t')) node'' A B bad'
      hbest' hcut hA hback
    exact ⟨getSlice_eq hA' hB h ht hslice hback, hnode''.sameTrie hnode.valid hnode.state⟩

/-! ## A small tree -/

/-- A transaction that takes an amount from account `5` and pays some of it back. -/
def spend (nValue back : UInt64) : Transaction :=
  { payment 5 nValue 5 with vout := [⟨back, 5⟩] }

/-- The block that puts ten coins into account `5`. -/
def tenToFive : Block :=
  { blockOf [{ payment 5 0 5 with vin := [], vout := [⟨10, 5⟩] }] with nHeight := 0 }

/-- The account root of a trie that holds only account `5`. -/
def rootOfFive (age balance : UInt64) : UInt256 :=
  Sha256.sha256d (leafPreimage 5 { AccountData.init with age, balance })

/-- The entries of a tree of four blocks: `0 ← 1 ← 2` and `0 ← 3`. -/
def forkIndex : ℕ → BlockIndex
  | 0 => ⟨100, none, 0, 100, tenToFive⟩
  | 1 => ⟨101, some 0, 1, 101, blockOf [spend 3 2]⟩
  | 2 => ⟨102, some 1, 2, 102, { blockOf [spend 3 1] with nHeight := 2 }⟩
  | _ => ⟨103, some 0, 1, 103, { blockOf [spend 4 4] with hashAccountRoot := rootOfFive 1 10 }⟩

/-- `mapBlockIndex` of the tree. -/
def forkMap (h : UInt256) : Option ℕ :=
  if h = 100 then some 0 else if h = 101 then some 1 else if h = 102 then some 2
  else if h = 103 then some 3 else none

private theorem forkMap_eq {h : UInt256} {p : ℕ} (hp : forkMap h = some p) :
    (h = 100 ∧ p = 0) ∨ (h = 101 ∧ p = 1) ∨ (h = 102 ∧ p = 2) ∨ (h = 103 ∧ p = 3) := by
  rw [forkMap] at hp
  split_ifs at hp with h₀ h₁ h₂ h₃
  · exact .inl ⟨h₀, (Option.some_inj.mp hp).symm⟩
  · exact .inr (.inl ⟨h₁, (Option.some_inj.mp hp).symm⟩)
  · exact .inr (.inr (.inl ⟨h₂, (Option.some_inj.mp hp).symm⟩))
  · exact .inr (.inr (.inr ⟨h₃, (Option.some_inj.mp hp).symm⟩))

/-- A tree of four blocks with a fork at the first. -/
def forkTree : BlockTree where
  index := forkIndex
  mapBlockIndex := forkMap
  genesis := 0
  hash_eq hp := by
    rcases forkMap_eq hp with ⟨rfl, rfl⟩ | ⟨rfl, rfl⟩ | ⟨rfl, rfl⟩ | ⟨rfl, rfl⟩ <;> rfl
  headerHash_eq hp := by
    rcases forkMap_eq hp with ⟨rfl, rfl⟩ | ⟨rfl, rfl⟩ | ⟨rfl, rfl⟩ | ⟨rfl, rfl⟩ <;> rfl
  parent_mem {_ _ q} hp hq := by
    rcases forkMap_eq hp with ⟨rfl, rfl⟩ | ⟨rfl, rfl⟩ | ⟨rfl, rfl⟩ | ⟨rfl, rfl⟩
    · exact absurd hq (by simp [forkIndex])
    · obtain rfl : 0 = q := Option.some_inj.mp hq
      decide
    · obtain rfl : 1 = q := Option.some_inj.mp hq
      decide
    · obtain rfl : 0 = q := Option.some_inj.mp hq
      decide
  height_eq {_ _ q} hp hq := by
    rcases forkMap_eq hp with ⟨rfl, rfl⟩ | ⟨rfl, rfl⟩ | ⟨rfl, rfl⟩ | ⟨rfl, rfl⟩
    · exact absurd hq (by simp [forkIndex])
    · obtain rfl : 0 = q := Option.some_inj.mp hq
      rfl
    · obtain rfl : 1 = q := Option.some_inj.mp hq
      rfl
    · obtain rfl : 0 = q := Option.some_inj.mp hq
      rfl
  eq_genesis hp hq := by
    rcases forkMap_eq hp with ⟨rfl, rfl⟩ | ⟨rfl, rfl⟩ | ⟨rfl, rfl⟩ | ⟨rfl, rfl⟩
    · rfl
    · exact absurd hq (by simp [forkIndex])
    · exact absurd hq (by simp [forkIndex])
    · exact absurd hq (by simp [forkIndex])

/-- The state of the block `0`. -/
def trieAtZero : Option TrieNode := (applied none (forkIndex 0).block).1

/-- The state of the block `1`. -/
def trieAtOne : Option TrieNode := (applied trieAtZero (forkIndex 1).block).1

/-- A node on the block `2`, as `Apply` left it. -/
def nodeAtTwo : Node where
  view := ⟨(applied trieAtOne (forkIndex 2).block).1, 102⟩
  status p := if p = 1 ∨ p = 2 then BLOCK_HAVE_UNDO ||| BLOCK_VALID_SCRIPTS else 0
  undoRecord p := if p = 1 then (applied trieAtZero (forkIndex 1).block).2
    else (applied trieAtOne (forkIndex 2).block).2

private theorem apply_zero : tempApply (fun _ ↦ 0) none (forkTree.index 0).block
    = .ok (true, trieAtZero, (applied none (forkIndex 0).block).2) :=
  tempApply_eq_applied (by decide +kernel)

private theorem apply_one : tempApply (fun _ ↦ 0) trieAtZero (forkTree.index 1).block
    = .ok (true, trieAtOne, nodeAtTwo.undoRecord 1) := tempApply_eq_applied (by decide +kernel)

private theorem apply_two : tempApply (fun _ ↦ 0) trieAtOne (forkTree.index 2).block
    = .ok (true, nodeAtTwo.view.root, nodeAtTwo.undoRecord 2) :=
  tempApply_eq_applied (by decide +kernel)

theorem valid_trieAtZero : ValidRoot H trieAtZero :=
  (tempApply_eq_ok validRoot_none apply_zero).1

theorem stateOf_zero : forkTree.StateOf 0 (accounts trieAtZero) :=
  .genesis rfl (connects_of_tempApply (H := fun _ ↦ 0) validRoot_none apply_zero)

theorem valid_trieAtOne : ValidRoot H trieAtOne := (tempApply_eq_ok valid_trieAtZero apply_one).1

theorem stateOf_one : forkTree.StateOf 1 (accounts trieAtOne) :=
  .next rfl stateOf_zero (connects_of_tempApply (H := fun _ ↦ 0) valid_trieAtZero apply_one)

theorem standing_nodeAtTwo : Standing H forkTree nodeAtTwo 2 := by
  refine ⟨(tempApply_eq_ok valid_trieAtOne apply_two).1,
    .next rfl stateOf_one (connects_of_tempApply (H := H) valid_trieAtOne apply_two), ?_⟩
  intro p q _ hq hnull
  have hp : p = 1 ∨ p = 2 := by
    by_contra hne
    simp [Node.undoPosNull, nodeAtTwo, if_neg hne] at hnull
  rcases hp with rfl | rfl
  · obtain rfl : 0 = q := Option.some_inj.mp hq
    exact ⟨_, trieAtZero, _, valid_trieAtZero, stateOf_zero, apply_one⟩
  · obtain rfl : 1 = q := Option.some_inj.mp hq
    exact ⟨_, trieAtOne, _, valid_trieAtOne, stateOf_one, apply_two⟩

def goodDisk : Disk :=
  ⟨fun _ ↦ true, fun _ ↦ true, fun _ ↦ true, fun _ ↦ true, fun _ ↦ true, fun _ _ ↦ 0⟩

theorem exists_of_activate_verdict {index : ℕ → BlockIndex} {map : UInt256 → Option ℕ}
    {pindex : Option ℕ} {b : Bool}
    (h : (activate H index map disk node pindex).map Prod.fst = .ok b) :
    ∃ bad node', activate H index map disk node pindex = .ok (b, bad, node') := by
  revert h
  rcases activate H index map disk node pindex with f | ⟨b', bad, node'⟩ <;> intro h
  · simp [Except.map] at h
  · obtain rfl : b' = b := Except.ok.inj h
    exact ⟨bad, node', rfl⟩

/-- From `2` across the fork to `3`. -/
theorem activate_path_independent_fork :
    ∃ bad node', activate Sha256.sha256d forkIndex forkMap goodDisk nodeAtTwo (some 3)
        = .ok (true, bad, node') ∧
      HoldsState Sha256.sha256d forkTree node' 3 := by
  have hverdict : (activate Sha256.sha256d forkIndex forkMap goodDisk nodeAtTwo (some 3)).map
      Prod.fst = .ok true := by decide +kernel
  obtain ⟨bad, node', h⟩ := exists_of_activate_verdict hverdict
  have htwo : forkTree.Mem 2 := by rw [BlockTree.Mem]; decide
  have hthree : forkTree.Mem 3 := by rw [BlockTree.Mem]; decide
  exact ⟨bad, node', h, (activate_path_independent htwo hthree rfl standing_nodeAtTwo.holdsState
    standing_nodeAtTwo.undos h).1.1⟩

end Cryptonite
