import Cryptonite.Foundation.UndoLog
import Cryptonite.View.TempApply

/-!
# Connecting one block

`TrieView::Apply` of `trieview.cpp`: read a block, apply it to the trie, compare the root hash with
the one the block commits to, and write the undo record.

Block index entries are named by numbers, as the source names them by pointers. What the entries say
about the shape of the tree never changes and is the parameter `index`; what changes is the state of
a `Node`. Reading and writing files can fail at any time: a `Disk` says which operations fail during
one call. A read that does not fail returns what was written — undo records are checksummed against
the block's hash, and `index` holds the block that was stored for the entry.
-/

namespace Cryptonite

/-- `CBlockIndex`, without the fields that record progress. -/
structure BlockIndex where
  /-- `*phashBlock`, the key of the entry in `mapBlockIndex`. -/
  hash : UInt256
  /-- `pprev`. -/
  pprev : Option ℕ
  /-- `nHeight`. -/
  nHeight : ℕ
  /-- `GetBlockHeader().GetHash()`, recomputed from the header fields of the entry. -/
  headerHash : UInt256
  /-- The block stored for the entry. -/
  block : Block

def BLOCK_VALID_SCRIPTS : UInt32 := 5

def BLOCK_VALID_MASK : UInt32 := 7

def BLOCK_HAVE_UNDO : UInt32 := 16

theorem status_or_and (n b mask : UInt32) : (n ||| b) &&& mask = n &&& mask ||| b &&& mask :=
  UInt32.eq_of_toBitVec_eq BitVec.and_or_distrib_right

/-- Which file operations succeed during a call, and what `GetBlockValue` reads from the stack. -/
structure Disk where
  /-- `ReadBlockFromDisk` for the entry. -/
  readBlock : ℕ → Bool
  /-- `CBlockUndo::ReadFromDisk` for the entry. -/
  readUndo : ℕ → Bool
  /-- `FindUndoPos` for the entry. -/
  findUndoPos : ℕ → Bool
  /-- `CBlockUndo::WriteToDisk` for the entry. -/
  writeUndo : ℕ → Bool
  /-- `WriteBlockIndex` for the entry. -/
  writeIndex : ℕ → Bool
  /-- The uninitialised words read while applying the entry's block. -/
  junk : ℕ → ℕ → UInt64

/-- What a running node keeps: the view, and per entry `nStatus` and the undo record on disk. -/
structure Node where
  view : TrieView
  /-- `nStatus`. -/
  status : ℕ → UInt32
  /-- The record at `nUndoPos`. -/
  undoRecord : ℕ → List TxUndo

namespace Node

/-- `GetUndoPos().IsNull()`. -/
def undoPosNull (node : Node) (p : ℕ) : Bool := node.status p &&& BLOCK_HAVE_UNDO == 0

def setRoot (node : Node) (root : Option TrieNode) : Node :=
  { node with view := { node.view with root } }

def setBest (node : Node) (hash : UInt256) : Node :=
  { node with view := { node.view with bestBlock := hash } }

/-- Overwrite `nStatus` of one entry. -/
def setStatus (node : Node) (p : ℕ) (status : UInt32) : Node :=
  { node with status := Function.update node.status p status }

def writeUndo (node : Node) (p : ℕ) (undos : List TxUndo) : Node :=
  { node with undoRecord := Function.update node.undoRecord p undos }.setStatus p
    (node.status p ||| BLOCK_HAVE_UNDO)

end Node

/-- The end of `Apply`: write the undo record and the index entry, if that has not been done. -/
def recordUndo (disk : Disk) (node : Node) (p : ℕ) (undos : List TxUndo) : Bool × Node :=
  if node.undoPosNull p || node.status p &&& BLOCK_VALID_MASK < BLOCK_VALID_SCRIPTS then
    if node.undoPosNull p && !(disk.findUndoPos p && disk.writeUndo p) then (false, node)
    else
      let node := if node.undoPosNull p then node.writeUndo p undos else node
      let node := node.setStatus p (node.status p &&& ~~~BLOCK_VALID_MASK ||| BLOCK_VALID_SCRIPTS)
      (disk.writeIndex p, node)
  else (true, node)

def apply (H : List UInt8 → UInt256) (index : ℕ → BlockIndex) (disk : Disk) (node : Node)
    (p : ℕ) : Exec (Bool × Node) :=
  if !disk.readBlock p then pure (false, node)
  else do
    let block := (index p).block
    match ← tempApply (disk.junk p) node.view.root block with
    | (false, root, undos) =>
      let root ← unapply root undos
      pure (false, node.setRoot root)
    | (true, root, undos) =>
      let (hash, t) ← rootHash H root
      if hash ≠ block.hashAccountRoot then
        let root ← unapply (some t) undos
        pure (false, node.setRoot root)
      else
        match recordUndo disk (node.setRoot (some t)) p undos with
        | (false, node) => pure (false, node)
        | (true, node) => pure (true, node.setBest (index p).headerHash)

/-! ## What a call can do -/

section Outcome

variable {H : List UInt8 → UInt256}

theorem rootHash_eq_ok {root : Option TrieNode} {hash : UInt256} {t' : TrieNode}
    (h : rootHash H root = .ok (hash, t')) :
    ∃ t, root = some t ∧ hash = (TrieNode.hash H t).1 ∧ t' = (TrieNode.hash H t).2 := by
  rcases root with _ | t
  · simp [rootHash] at h
  · obtain ⟨rfl, rfl⟩ : hash = _ ∧ t' = _ := by simpa [rootHash, Prod.ext_iff, eq_comm] using h
    exact ⟨t, rfl, rfl, rfl⟩

/-- The ways `HashForBlock` returns: the hash, if any, and the view it leaves. -/
inductive HashOutcome (H : List UInt8 → UInt256) (junk : ℕ → UInt64) (view : TrieView)
    (block : Block) : Option UInt256 → TrieView → Prop
  /-- The block does not build on the view. -/
  | mismatch (hbest : view.bestBlock ≠ block.hashPrevBlock) :
      HashOutcome H junk view block none view
  /-- The block is rejected and rolled back. -/
  | rejected {root root' : Option TrieNode} {undos : List TxUndo}
      (happly : tempApply junk view.root block = .ok (false, root, undos))
      (hundo : unapply root undos = .ok root') :
      HashOutcome H junk view block none { view with root := root' }
  /-- The block is accepted, hashed and taken back. -/
  | hashed {t : TrieNode} {root' : Option TrieNode} {undos : List TxUndo}
      (happly : tempApply junk view.root block = .ok (true, some t, undos))
      (hundo : unapply (some (TrieNode.hash H t).2) undos = .ok root') :
      HashOutcome H junk view block (some (TrieNode.hash H t).1) { view with root := root' }

theorem hashForBlock_outcome {junk : ℕ → UInt64} {view view' : TrieView} {block : Block}
    {hash : Option UInt256} (h : hashForBlock H junk view block = .ok (hash, view')) :
    HashOutcome H junk view block hash view' := by
  rw [hashForBlock] at h
  split_ifs at h with hbest
  · obtain ⟨rfl, rfl⟩ : none = hash ∧ view = view' := by simpa using h
    exact .mismatch hbest
  obtain ⟨⟨b, root, undos⟩, happly, h⟩ := Except.bind_eq_ok_iff.mp h
  rcases b with _ | _
  · obtain ⟨root', hundo, h⟩ := Except.bind_eq_ok_iff.mp h
    obtain ⟨rfl, rfl⟩ : none = hash ∧ _ = view' := by simpa [pure, Except.pure] using h
    exact .rejected happly hundo
  · obtain ⟨⟨d, t'⟩, hhash, h⟩ := Except.bind_eq_ok_iff.mp h
    obtain ⟨t, rfl, rfl, rfl⟩ := rootHash_eq_ok hhash
    obtain ⟨root', hundo, h⟩ := Except.bind_eq_ok_iff.mp h
    obtain ⟨rfl, rfl⟩ : _ = hash ∧ _ = view' := by simpa [pure, Except.pure] using h
    exact .hashed happly hundo

/-- The ways `Apply` returns: its verdict and the node it leaves. -/
inductive ApplyOutcome (H : List UInt8 → UInt256) (index : ℕ → BlockIndex) (disk : Disk)
    (node : Node) (p : ℕ) : Bool → Node → Prop
  /-- The block cannot be read. -/
  | unread (hread : disk.readBlock p = false) : ApplyOutcome H index disk node p false node
  /-- The block is rejected and rolled back. -/
  | rejected {root root' : Option TrieNode} {undos : List TxUndo}
      (happly : tempApply (disk.junk p) node.view.root (index p).block = .ok (false, root, undos))
      (hundo : unapply root undos = .ok root') :
      ApplyOutcome H index disk node p false (node.setRoot root')
  /-- The block commits to another account root and is taken back. -/
  | mismatch {t : TrieNode} {root' : Option TrieNode} {undos : List TxUndo}
      (happly : tempApply (disk.junk p) node.view.root (index p).block = .ok (true, some t, undos))
      (hhash : (TrieNode.hash H t).1 ≠ (index p).block.hashAccountRoot)
      (hundo : unapply (some (TrieNode.hash H t).2) undos = .ok root') :
      ApplyOutcome H index disk node p false (node.setRoot root')
  /-- The block is good, but its undo record or index entry cannot be written. -/
  | unrecorded {t : TrieNode} {undos : List TxUndo} {node' : Node}
      (happly : tempApply (disk.junk p) node.view.root (index p).block = .ok (true, some t, undos))
      (hhash : (TrieNode.hash H t).1 = (index p).block.hashAccountRoot)
      (hrecord : recordUndo disk (node.setRoot (some (TrieNode.hash H t).2)) p undos
        = (false, node')) :
      ApplyOutcome H index disk node p false node'
  /-- The block is connected. -/
  | connected {t : TrieNode} {undos : List TxUndo} {node' : Node}
      (happly : tempApply (disk.junk p) node.view.root (index p).block = .ok (true, some t, undos))
      (hhash : (TrieNode.hash H t).1 = (index p).block.hashAccountRoot)
      (hrecord : recordUndo disk (node.setRoot (some (TrieNode.hash H t).2)) p undos
        = (true, node')) :
      ApplyOutcome H index disk node p true (node'.setBest (index p).headerHash)

theorem apply_outcome {index : ℕ → BlockIndex} {disk : Disk} {node node' : Node} {p : ℕ} {b : Bool}
    (h : apply H index disk node p = .ok (b, node')) :
    ApplyOutcome H index disk node p b node' := by
  rw [apply] at h
  split_ifs at h with hread
  · obtain ⟨rfl, rfl⟩ : false = b ∧ node = node' := by simpa [pure, Except.pure] using h
    exact .unread (by simpa using hread)
  obtain ⟨⟨b', root, undos⟩, happly, h⟩ := Except.bind_eq_ok_iff.mp h
  rcases b' with _ | _
  · obtain ⟨root', hundo, h⟩ := Except.bind_eq_ok_iff.mp h
    obtain ⟨rfl, rfl⟩ : false = b ∧ _ = node' := by simpa [pure, Except.pure] using h
    exact .rejected happly hundo
  obtain ⟨⟨d, t'⟩, hroot, h⟩ := Except.bind_eq_ok_iff.mp h
  obtain ⟨t, rfl, rfl, rfl⟩ := rootHash_eq_ok hroot
  dsimp only at h
  split_ifs at h with hhash
  · obtain ⟨root', hundo, h⟩ := Except.bind_eq_ok_iff.mp h
    obtain ⟨rfl, rfl⟩ : false = b ∧ _ = node' := by simpa [pure, Except.pure] using h
    exact .mismatch happly hhash hundo
  · rcases hrecord : recordUndo disk (node.setRoot (some (TrieNode.hash H t).2)) p undos with
      ⟨_ | _, node₁⟩ <;> rw [hrecord] at h
    · obtain ⟨rfl, rfl⟩ : false = b ∧ node₁ = node' := by simpa [pure, Except.pure] using h
      exact .unrecorded happly (not_not.mp hhash) hrecord
    · obtain ⟨rfl, rfl⟩ : true = b ∧ _ = node' := by simpa [pure, Except.pure] using h
      exact .connected happly (not_not.mp hhash) hrecord

end Outcome

end Cryptonite
