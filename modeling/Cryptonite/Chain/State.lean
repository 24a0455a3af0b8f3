import Cryptonite.Chain.Path
import Cryptonite.View.Rollback

/-!
# The state of a block

The account state of a block is what replaying the chain from the genesis block leaves, starting
from the empty trie. A block has at most one state: what `GetBlockValue` reads from the stack can
decide whether a block is accepted, but not what an accepted block does.

`Standing` says that a node's trie holds the state of a given block and that the undo records on
disk are those `Apply` wrote. One step of `Activate` moves it along one edge of the tree: unwinding
a block stands the node on its parent (`Standing.unapply`), connecting one stands it on the block
(`Standing.connected`), and a block that does not connect leaves it where it was, if the rollback is
safe and nothing fails on disk (`Standing.refused`).
-/

namespace Cryptonite

open Ancestry UndoLog Ledger

/-! ## What a block does -/

/-- The block takes the first map of accounts to the second. -/
def Connects (accts : AccountMap) (block : Block) (accts' : AccountMap) : Prop :=
  ∃ junk ℓ, Ledger.apply junk accts block = .ok (true, ℓ) ∧ ℓ.accts = accts'

/-- What is read from the stack decides at most whether a move is allowed. -/
private theorem step_junk {junk junk' : ℕ → UInt64} {block : Block} {ℓ ℓ₁ ℓ₂ : Ledger} {mv : Move}
    (h₁ : step junk block ℓ mv = .ok (true, ℓ₁))
    (h₂ : step junk' block ℓ mv = .ok (true, ℓ₂)) : ℓ₁ = ℓ₂ := by
  rcases mv with ⟨i, tx⟩ | ⟨tx, txin⟩ | txout
  · rw [(step_check h₁).1, (step_check h₂).1]
  · have hsame : step junk block ℓ (.withdraw tx txin)
        = step junk' block ℓ (.withdraw tx txin) := by rw [step, step]
    rw [hsame, h₂] at h₁
    exact (Prod.mk.inj (Except.ok.inj h₁)).2.symm
  · rw [step] at h₁ h₂
    exact (Prod.mk.inj (Except.ok.inj (h₁.symm.trans h₂))).2

private theorem runMoves_junk {junk junk' : ℕ → UInt64} {block : Block} :
    ∀ {mvs : List Move} {ℓ ℓ₁ ℓ₂ : Ledger},
      runMoves (step junk block) ℓ mvs = .ok (true, ℓ₁) →
      runMoves (step junk' block) ℓ mvs = .ok (true, ℓ₂) → ℓ₁ = ℓ₂ := by
  intro mvs
  induction mvs with
  | nil =>
    intro ℓ ℓ₁ ℓ₂ h₁ h₂
    rw [runMoves] at h₁ h₂
    exact (Prod.mk.inj (Except.ok.inj (h₁.symm.trans h₂))).2
  | cons mv mvs ih =>
    intro ℓ ℓ₁ ℓ₂ h₁ h₂
    obtain ⟨ℓ₁', hstep₁, hrun₁⟩ := runMoves_cons_true_iff.mp h₁
    obtain ⟨ℓ₂', hstep₂, hrun₂⟩ := runMoves_cons_true_iff.mp h₂
    obtain rfl := step_junk hstep₁ hstep₂
    exact ih hrun₁ hrun₂

theorem Connects.unique {accts m m' : AccountMap} {block : Block} (h : Connects accts block m)
    (h' : Connects accts block m') : m = m' := by
  obtain ⟨junk, ℓ, hℓ, rfl⟩ := h
  obtain ⟨junk', ℓ', hℓ', rfl⟩ := h'
  rw [runMoves_junk hℓ hℓ']

section Connects

variable {H : List UInt8 → UInt256}

variable {root : Option TrieNode} {block : Block}

theorem connects_of_tempApply {root' : Option TrieNode} (hvalid : ValidRoot H root)
    {junk : ℕ → UInt64} {undos : List TxUndo}
    (h : tempApply junk root block = .ok (true, root', undos)) :
    Connects (accounts root) block (accounts root') := by
  obtain ⟨ℓ, hℓ, haccts⟩ := exists_ledger_of_tempApply hvalid h
  exact ⟨junk, ℓ, hℓ, haccts⟩

theorem Connects.exists_tempApply (hvalid : ValidRoot H root) {m : AccountMap}
    (h : Connects (accounts root) block m) :
    ∃ junk root' undos, tempApply junk root block = .ok (true, root', undos) ∧
      ValidRoot H root' ∧ accounts root' = m := by
  obtain ⟨junk, ℓ, hℓ, rfl⟩ := h
  have href := tempApply_refines hvalid junk block
  rw [hℓ] at href
  obtain ⟨root', hroot', hvalid', hrun, haccts, -⟩ := href
  exact ⟨junk, root', _, hroot', hvalid', hrun.trans haccts.symm⟩

end Connects

/-! ## The state of a block -/

namespace BlockTree

variable (tree : BlockTree)

/-- The account state of a block. -/
inductive StateOf : ℕ → AccountMap → Prop
  | genesis {p : ℕ} {m : AccountMap} (h : tree.parent p = none)
      (hm : Connects (fun _ ↦ none) (tree.index p).block m) : StateOf p m
  | next {p q : ℕ} {m m' : AccountMap} (h : tree.parent p = some q) (hq : StateOf q m)
      (hm : Connects m (tree.index p).block m') : StateOf p m'

variable {tree}

theorem StateOf.unique {p : ℕ} {m m' : AccountMap} (h : tree.StateOf p m)
    (h' : tree.StateOf p m') : m = m' := by
  induction h generalizing m' with
  | genesis hnone hm =>
    rcases h' with ⟨_, hm'⟩ | ⟨hsome, _, _⟩
    · exact hm.unique hm'
    · exact absurd (hnone.symm.trans hsome) (by simp)
  | next hsome _ hm ih =>
    rcases h' with ⟨hnone, _⟩ | ⟨hsome', hq', hm'⟩
    · exact absurd (hnone.symm.trans hsome) (by simp)
    · obtain rfl := Option.some_inj.mp (hsome.symm.trans hsome')
      rw [ih hq'] at hm
      exact hm.unique hm'

end BlockTree

/-- Replay blocks with `TempApply`, up to the first that is rejected. -/
def replayBlocks (index : ℕ → BlockIndex) (junk : ℕ → ℕ → UInt64) :
    List ℕ → Option TrieNode → Exec (Bool × Option TrieNode)
  | [], root => pure (true, root)
  | p :: ps, root => do
    match ← tempApply (junk p) root (index p).block with
    | (false, root, _) => pure (false, root)
    | (true, root, _) => replayBlocks index junk ps root

/-- The trie that replaying the chain from the genesis block to `p` with `TempApply` leaves. -/
def BlockTree.ReplayedTo (tree : BlockTree) (p : ℕ) (root : Option TrieNode) : Prop :=
  ∃ line junk, Line tree.parent p line ∧
    replayBlocks tree.index junk line.reverse none = .ok (true, root)

section Replay

variable {H : List UInt8 → UInt256} {index : ℕ → BlockIndex}

variable {junk : ℕ → ℕ → UInt64} {root root' : Option TrieNode}

theorem replayBlocks_cons_true_iff {p : ℕ} {ps : List ℕ} :
    replayBlocks index junk (p :: ps) root = .ok (true, root') ↔
      ∃ root₁ undos, tempApply (junk p) root (index p).block = .ok (true, root₁, undos) ∧
        replayBlocks index junk ps root₁ = .ok (true, root') := by
  rw [replayBlocks, Except.bind_eq_ok_iff]
  constructor
  · rintro ⟨⟨_ | _, root₁, undos⟩, happly, hrest⟩
    · simp [pure, Except.pure] at hrest
    · exact ⟨root₁, undos, happly, hrest⟩
  · rintro ⟨root₁, undos, happly, hrest⟩
    exact ⟨(true, root₁, undos), happly, hrest⟩

theorem replayBlocks_concat_true_iff {p : ℕ} :
    ∀ {ps : List ℕ} {root : Option TrieNode},
      replayBlocks index junk (ps ++ [p]) root = .ok (true, root') ↔
        ∃ root₁ undos, replayBlocks index junk ps root = .ok (true, root₁) ∧
          tempApply (junk p) root₁ (index p).block = .ok (true, root', undos) := by
  intro ps
  induction ps with
  | nil =>
    intro root
    rw [List.nil_append, replayBlocks_cons_true_iff]
    constructor
    · rintro ⟨root₁, undos, happly, hrest⟩
      obtain rfl : root₁ = root' := (Prod.mk.inj (Except.ok.inj hrest)).2
      exact ⟨root, undos, rfl, happly⟩
    · rintro ⟨root₁, undos, hrest, happly⟩
      obtain rfl : root = root₁ := (Prod.mk.inj (Except.ok.inj hrest)).2
      exact ⟨root', undos, happly, rfl⟩
  | cons q ps ih =>
    intro root
    rw [List.cons_append, replayBlocks_cons_true_iff]
    simp only [ih, replayBlocks_cons_true_iff]
    constructor
    · rintro ⟨root₁, undos, happly, root₂, undos', hps, hp⟩
      exact ⟨root₂, undos', ⟨root₁, undos, happly, hps⟩, hp⟩
    · rintro ⟨root₂, undos', ⟨root₁, undos, happly, hps⟩, hp⟩
      exact ⟨root₁, undos, happly, root₂, undos', hps, hp⟩

theorem replayBlocks_congr {junk' : ℕ → ℕ → UInt64} : ∀ {ps : List ℕ} {root : Option TrieNode},
    (∀ p ∈ ps, junk p = junk' p) →
    replayBlocks index junk ps root = replayBlocks index junk' ps root := by
  intro ps
  induction ps with
  | nil => intro root _; rfl
  | cons p ps ih =>
    intro root h
    rw [List.forall_mem_cons] at h
    rw [replayBlocks, replayBlocks, h.1]
    simp only [ih h.2]

variable {tree : BlockTree} {p : ℕ}

theorem BlockTree.ReplayedTo.stateOf (h : tree.ReplayedTo p root) :
    ValidRoot H root ∧ tree.StateOf p (accounts root) := by
  obtain ⟨line, junk, hline, hreplay⟩ := h
  induction hline generalizing root with
  | root hnone =>
    rw [List.reverse_cons] at hreplay
    obtain ⟨root₁, undos, hnil, happly⟩ := replayBlocks_concat_true_iff.mp hreplay
    obtain rfl : none = root₁ := (Prod.mk.inj (Except.ok.inj hnil)).2
    exact ⟨(tempApply_eq_ok validRoot_none happly).1,
      .genesis hnone (connects_of_tempApply (H := H) validRoot_none happly)⟩
  | step hsome _ ih =>
    rw [List.reverse_cons] at hreplay
    obtain ⟨root₁, undos, hrest, happly⟩ := replayBlocks_concat_true_iff.mp hreplay
    obtain ⟨hvalid, hstate⟩ := ih hrest
    exact ⟨(tempApply_eq_ok hvalid happly).1,
      .next hsome hstate (connects_of_tempApply hvalid happly)⟩

theorem BlockTree.StateOf.exists_replayedTo {m : AccountMap} (h : tree.StateOf p m) :
    ∃ root, tree.ReplayedTo p root ∧ accounts root = m := by
  induction h with
  | @genesis p m hnone hm =>
    obtain ⟨junk, root, undos, happly, -, hmap⟩ :=
      Connects.exists_tempApply (H := fun _ ↦ 0) validRoot_none hm
    refine ⟨root, ⟨[p], fun _ ↦ junk, .root hnone, ?_⟩, hmap⟩
    rw [List.reverse_cons, replayBlocks_concat_true_iff]
    exact ⟨none, undos, rfl, happly⟩
  | @next p q m m' hsome hq hm ih =>
    obtain ⟨root, hroot, rfl⟩ := ih
    have hvalid := (hroot.stateOf (H := fun _ ↦ 0)).1
    obtain ⟨line, junk, hline, hreplay⟩ := hroot
    obtain ⟨junk', root', undos, happly, -, hmap⟩ := hm.exists_tempApply hvalid
    have hnot : ∀ r ∈ line.reverse, junk r = Function.update junk p junk' r := by
      intro r hr
      rw [Function.update_of_ne]
      rintro rfl
      exact (List.nodup_cons.mp (Line.step hsome hline).nodup).1 (List.mem_reverse.mp hr)
    refine ⟨root', ⟨p :: line, Function.update junk p junk', .step hsome hline, ?_⟩, hmap⟩
    rw [List.reverse_cons, replayBlocks_concat_true_iff]
    refine ⟨root, undos, ?_, by rwa [Function.update_self]⟩
    rw [← replayBlocks_congr hnot, hreplay]

end Replay

/-! ## Standing on a block -/

/-- The undo records on disk are those `Apply` wrote for these blocks: what `TempApply` returned
when the block was connected to the state of its parent. -/
def UndosWritten (H : List UInt8 → UInt256) (tree : BlockTree) (node : Node) : Prop :=
  ∀ p q, tree.Mem p → tree.parent p = some q → node.undoPosNull p = false →
    ∃ junk root root', ValidRoot H root ∧ tree.StateOf q (accounts root) ∧
      tempApply junk root (tree.index p).block = .ok (true, root', node.undoRecord p)

/-- The trie of the node holds the state of the block `p`, whatever its label says. -/
structure Standing (H : List UInt8 → UInt256) (tree : BlockTree) (node : Node) (p : ℕ) : Prop where
  /-- The trie is valid. -/
  valid : ValidRoot H node.view.root
  /-- It holds the accounts of the block. -/
  state : tree.StateOf p (accounts node.view.root)
  /-- The undo records are in order. -/
  undos : UndosWritten H tree node

section Standing

variable {H : List UInt8 → UInt256} {tree : BlockTree} {node node' : Node} {p q : ℕ}

theorem Standing.setBest (h : Standing H tree node p) (hash : UInt256) :
    Standing H tree (node.setBest hash) p := ⟨h.valid, h.state, h.undos⟩

theorem Standing.setRoot (h : Standing H tree node p) {root : Option TrieNode}
    (hvalid : ValidRoot H root) (hsame : SameTrie H root node.view.root) :
    Standing H tree (node.setRoot root) p :=
  ⟨hvalid, hsame.accts ▸ h.state, h.undos⟩

variable {disk : Disk} {undos : List TxUndo}

/-- The writes at the end of `Apply` succeed, as far as there are any to make. -/
structure Recordable (disk : Disk) (node : Node) (p : ℕ) : Prop where
  undo : node.undoPosNull p = true → disk.findUndoPos p = true ∧ disk.writeUndo p = true
  index : node.undoPosNull p = true ∨ node.status p &&& BLOCK_VALID_MASK < BLOCK_VALID_SCRIPTS →
    disk.writeIndex p = true

/-- What the end of `Apply` does: it leaves the view, and writes at most the record of the block. -/
theorem recordUndo_spec {b : Bool} (h : recordUndo disk node p undos = (b, node')) :
    node'.view = node.view ∧ ∀ r, node'.undoPosNull r = false →
      (node.undoPosNull r = false ∧ node'.undoRecord r = node.undoRecord r) ∨
      (r = p ∧ node'.undoRecord r = undos) := by
  rw [recordUndo] at h
  split at h
  · split at h
    · cases h
      exact ⟨rfl, fun r hr ↦ .inl ⟨hr, rfl⟩⟩
    · cases h
      rcases hnull : node.undoPosNull p with _ | _
      · refine ⟨rfl, fun r hr ↦ .inl ⟨?_, rfl⟩⟩
        by_cases hrp : r = p
        · rw [hrp, hnull]
        · simpa [Node.undoPosNull, Node.setStatus, Function.update_of_ne hrp] using hr
      · refine ⟨rfl, fun r hr ↦ ?_⟩
        by_cases hrp : r = p
        · subst hrp
          exact .inr ⟨rfl, by simp [Node.writeUndo, Node.setStatus]⟩
        · refine .inl ⟨?_, by simp [Node.writeUndo, Node.setStatus, Function.update_of_ne hrp]⟩
          simpa [Node.undoPosNull, Node.writeUndo, Node.setStatus, Function.update_of_ne hrp]
            using hr
  · cases h
    exact ⟨rfl, fun r hr ↦ .inl ⟨hr, rfl⟩⟩

theorem recordUndo_fst_iff : (recordUndo disk node p undos).1 = true ↔ Recordable disk node p := by
  have hfields : Recordable disk node p ↔ _ ∧ _ := ⟨fun h ↦ ⟨h.undo, h.index⟩, fun h ↦ ⟨h.1, h.2⟩⟩
  rw [recordUndo, hfields]
  rcases hnull : node.undoPosNull p with _ | _
  · by_cases hlow : node.status p &&& BLOCK_VALID_MASK < BLOCK_VALID_SCRIPTS
    · simp [hlow]
    · simp [hlow]
  · by_cases hfound : disk.findUndoPos p = true ∧ disk.writeUndo p = true
    · simp [hfound.1, hfound.2]
    · rcases hpos : disk.findUndoPos p with _ | _ <;> simp_all

/-- Only `nStatus` of the entry matters. -/
theorem Recordable.congr (h : Recordable disk node p) (hstatus : node'.status p = node.status p) :
    Recordable disk node' p := by
  refine ⟨fun hnull ↦ h.undo ?_, fun hlow ↦ h.index ?_⟩
  · rwa [Node.undoPosNull, hstatus] at hnull
  · rwa [Node.undoPosNull, hstatus] at hlow

theorem Recordable.setRoot (h : Recordable disk node p) (root : Option TrieNode) :
    Recordable disk (node.setRoot root) p := h.congr rfl

theorem Recordable.setBest (h : Recordable disk node p) (hash : UInt256) :
    Recordable disk (node.setBest hash) p := h.congr rfl

theorem Recordable.recordUndo_ne (h : Recordable disk node p) {root : Option TrieNode} :
    Cryptonite.recordUndo disk (node.setRoot root) p undos ≠ (false, node') := by
  intro hrecord
  have hfst := (@recordUndo_fst_iff _ _ _ undos).mpr (h.setRoot root)
  rw [hrecord] at hfst
  cases hfst

/-- What has been recorded is not asked for again. -/
theorem Recordable.recordUndo {r : ℕ} (h : Recordable disk node r)
    (hrecord : Cryptonite.recordUndo disk node p undos = (true, node')) :
    Recordable disk node' r := by
  rw [Cryptonite.recordUndo] at hrecord
  split at hrecord
  · rename_i hwrite
    split at hrecord
    · cases hrecord
    · obtain ⟨hindex, rfl⟩ := Prod.mk.inj hrecord
      by_cases hrp : r = p
      · subst hrp
        refine ⟨fun hnull ↦ h.undo ?_, fun _ ↦ hindex⟩
        by_contra hfull
        rw [if_neg hfull] at hnull
        simp only [Node.undoPosNull, Node.setStatus, Function.update_self] at hnull
        rw [status_or_and, UInt32.and_assoc,
          show ~~~BLOCK_VALID_MASK &&& BLOCK_HAVE_UNDO = BLOCK_HAVE_UNDO by decide,
          show BLOCK_VALID_SCRIPTS &&& BLOCK_HAVE_UNDO = 0 by decide, UInt32.or_zero] at hnull
        exact hfull hnull
      · refine h.congr ?_
        split <;> simp [Node.setStatus, Node.writeUndo, hrp]
  · obtain ⟨-, rfl⟩ := Prod.mk.inj hrecord
    exact h

/-- **Unwinding one block.** -/
theorem Standing.unapply (h : Standing H tree node p) (hp : tree.Mem p)
    (hq : tree.parent p = some q) (hnull : node.undoPosNull p = false) :
    ∃ root', Cryptonite.unapply node.view.root (node.undoRecord p) = .ok root' ∧
      Standing H tree (node.setRoot root') q := by
  obtain ⟨junk, root, root', hvalid, hstate, happly⟩ := h.undos p q hp hq hnull
  have haccts : accounts node.view.root = accounts root' :=
    h.state.unique (.next hq hstate (connects_of_tempApply hvalid happly))
  obtain ⟨root'', hroot'', hvalid'', hsame⟩ := unapply_after_success hvalid happly h.valid haccts
  exact ⟨root'', hroot'', hvalid'', hsame.accts ▸ hstate, h.undos⟩

/-- A trie on which a block has been applied and hashed, and whose undo record has been dealt with,
stands on the block. -/
private theorem Standing.recorded (h : Standing H tree node q) (hq : tree.parent p = some q)
    {disk : Disk} {b : Bool} {t : TrieNode} {undos : List TxUndo}
    (happly : tempApply (disk.junk p) node.view.root (tree.index p).block
      = .ok (true, some t, undos))
    (hrecord : recordUndo disk (node.setRoot (some (TrieNode.hash H t).2)) p undos = (b, node')) :
    Standing H tree node' p := by
  obtain ⟨hview, hrecords⟩ := recordUndo_spec hrecord
  obtain ⟨ht, hmap⟩ := (validRoot_some.mp (tempApply_eq_ok h.valid happly).1).hash
  refine ⟨?_, ?_, fun r y hr hy hnull ↦ ?_⟩
  · rw [hview]
    exact validRoot_some.mpr ht
  · have haccts : accounts node'.view.root = accounts (some t) := by
      rw [hview]
      exact hmap
    rw [haccts]
    exact .next hq h.state (connects_of_tempApply h.valid happly)
  · rcases hrecords r hnull with ⟨hnull', heq⟩ | ⟨rfl, heq⟩ <;> rw [heq]
    · exact h.undos r y hr hy hnull'
    · obtain rfl := Option.some_inj.mp (hq.symm.trans hy)
      exact ⟨disk.junk r, node.view.root, some t, h.valid, h.state, happly⟩

/-- **Connecting one block.** -/
theorem Standing.connected (h : Standing H tree node q) (hq : tree.parent p = some q)
    (happly : apply H tree.index disk node p = .ok (true, node')) : Standing H tree node' p := by
  rcases apply_outcome happly with _ | _ | _ | _ | ⟨htemp, _, hrecord⟩
  exact (h.recorded hq htemp hrecord).setBest _

/-- **A block that does not connect.** If a rejected block is rolled back right and an accepted one
can be recorded, the view is what it was. -/
theorem Standing.refused (h : Standing H tree node q)
    (hwrite : ∀ t undos, tempApply (disk.junk p) node.view.root (tree.index p).block
        = .ok (true, some t, undos) →
      (TrieNode.hash H t).1 = (tree.index p).block.hashAccountRoot → Recordable disk node p)
    (hsafe : ∀ ℓ, Ledger.apply (disk.junk p) (accounts node.view.root) (tree.index p).block
      = .ok (false, ℓ) → RollbackSafe (disk.junk p) (accounts node.view.root) (tree.index p).block)
    (happly : apply H tree.index disk node p = .ok (false, node')) :
    Standing H tree node' q ∧ node'.view.bestBlock = node.view.bestBlock := by
  rcases apply_outcome happly with
    _ | ⟨htemp, hundo⟩ | ⟨htemp, _, hundo⟩ | ⟨htemp, hhash, hrecord⟩ | _
  · exact ⟨h, rfl⟩
  · obtain ⟨ℓ, hℓ, -⟩ := exists_ledger_of_tempApply h.valid htemp
    obtain ⟨root₂, hroot₂, hsame⟩ := (unapply_after_failure_iff h.valid htemp).mpr (hsafe ℓ hℓ)
    obtain rfl := Except.ok.inj (hundo.symm.trans hroot₂)
    exact ⟨h.setRoot (unapply_valid h.valid htemp hundo) hsame, rfl⟩
  · obtain ⟨root₂, hroot₂, hvalid₂, hsame⟩ := unapply_after_hash h.valid htemp
    obtain rfl := Except.ok.inj (hundo.symm.trans hroot₂)
    exact ⟨h.setRoot hvalid₂ hsame, rfl⟩
  · exact absurd hrecord (hwrite _ _ htemp hhash).recordUndo_ne

end Standing

end Cryptonite
