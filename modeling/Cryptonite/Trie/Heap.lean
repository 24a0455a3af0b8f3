import Mathlib.Logic.Function.Basic
import Cryptonite.Trie.Slice

/-!
# The trie engine on pointers

`TrieNode` and `TrieEngine` once more, on a memory of nodes that point to each other. In
`Trie.Engine` the ancestors of a node are the frames above it, so a node knows its parent because
it is where it is. In the source a node knows its parent because somebody has stored `m_parent`,
and the flags and counters of its ancestors are updated by following what is stored. Here this is
taken literally: nodes are re-linked one pointer at a time, in the order of the source.

Loops along `m_parent` and descents of the trie are bounded by `maxDepth`. A trie of 160-bit keys is
never that deep.
-/

namespace Cryptonite

abbrev Ptr := ℕ

structure Cell where
  /-- `m_type`. -/
  type : NodeType
  /-- `m_modified`, `m_hash` and `m_children`. -/
  cache : NodeCache
  /-- The fields of the account. -/
  data : AccountData
  /-- `m_key`. -/
  key : UInt160
  /-- `m_key_bits`. -/
  bits : ℕ
  /-- `m_left`. -/
  left : Option Ptr
  /-- `m_right`. -/
  right : Option Ptr
  /-- `m_parent`. -/
  parent : Option Ptr
  deriving DecidableEq, Repr

/-- `TrieNode::TrieNode(NODE_BRANCH)`. -/
def Cell.newBranch : Cell :=
  { type := .branch, cache := NodeCache.newBranch, data := .init, key := 0, bits := 0, left := none
    right := none, parent := none }

def Leaf.toCell (leaf : Leaf) : Cell :=
  { type := .leaf, cache := leaf.cache, data := leaf.data, key := leaf.key, bits := 0, left := none
    right := none, parent := none }

/-- The nodes in memory, and the variable that points to the root. -/
structure Heap where
  root : Option Ptr
  cell : Ptr → Option Cell

/-- How a call can fail to return. -/
inductive Crash where
  /-- A null pointer, or a pointer to a node that has been deleted, is followed. -/
  | badPointer
  /-- A failed `assert`. -/
  | assertion
  /-- The bound on the depth is reached. -/
  | tooDeep
  deriving DecidableEq, Repr

/-- The bound on the depth. -/
def maxDepth : ℕ := 161

namespace Heap

def get (h : Heap) (p : Ptr) : Except Crash Cell :=
  match h.cell p with
  | some c => .ok c
  | none => .error .badPointer

/-- Follow a pointer that may be null. -/
def deref : Option Ptr → Except Crash Ptr
  | some p => .ok p
  | none => .error .badPointer

def setRoot (h : Heap) (p : Option Ptr) : Heap := { h with root := p }

def set (h : Heap) (p : Ptr) (c : Cell) : Heap :=
  { h with cell := Function.update h.cell p (some c) }

def free (h : Heap) (p : Ptr) : Heap := { h with cell := Function.update h.cell p none }

def modify (h : Heap) (p : Ptr) (f : Cell → Cell) : Except Crash Heap := do
  let c ← h.get p
  pure (h.set p (f c))

def assert (b : Bool) : Except Crash Unit := if b then .ok () else .error .assertion

/-! ## Methods of a node -/

/-- The loops `while(parent)`: change the flag or the counter of a node and of all its ancestors. -/
def upward (g : NodeCache → NodeCache) : ℕ → Heap → Option Ptr → Except Crash Heap
  | _, h, none => .ok h
  | 0, _, some _ => .error .tooDeep
  | n + 1, h, some p => do
    let c ← h.get p
    upward g n (h.set p { c with cache := g c.cache }) c.parent

def dirtify (h : Heap) (p : Ptr) : Except Crash Heap := upward NodeCache.dirtify maxDepth h (some p)

def subtract (h : Heap) (p : Ptr) (count : UInt64) : Except Crash Heap :=
  upward (NodeCache.subtract count) maxDepth h (some p)

/-- `Add(uint64_t)`. -/
def addCount (h : Heap) (p : Ptr) (count : UInt64) : Except Crash Heap :=
  upward (NodeCache.add count) maxDepth h (some p)

/-- `Add(TrieNode*)`. -/
def add (h : Heap) (p node : Ptr) : Except Crash Heap := do
  let h ← h.modify node fun c ↦ { c with parent := some p }
  let c ← h.get p
  assert (c.left.isNone || c.right.isNone)
  let h ← h.dirtify p
  let h ← h.addCount p (← h.get node).cache.children
  h.modify p fun c ↦
    if c.left.isNone then { c with left := some node } else { c with right := some node }

/-- `Remove(TrieNode*)`: the child that remains. -/
def removeChild (h : Heap) (p node : Ptr) : Except Crash (Option Ptr × Heap) := do
  let h ← h.dirtify p
  let c ← h.get p
  if c.left = some node then
    let h ← h.subtract p (← h.get node).cache.children
    let h ← h.modify p fun c ↦ { c with left := none }
    pure (c.right, h)
  else
    assert c.right.isSome
    let h ← h.subtract p (← h.get (← deref c.right)).cache.children
    let h ← h.modify p fun c ↦ { c with right := none }
    pure (c.left, h)

/-- The end of `Replace`: the pointers. -/
def replaceChild (h : Heap) (p old new : Ptr) : Except Crash Heap := do
  let h ← h.modify new fun c ↦ { c with parent := some p }
  let c ← h.get p
  if c.left = some old then h.modify p fun c ↦ { c with left := some new }
  else
    assert (c.right = some old)
    h.modify p fun c ↦ { c with right := some new }

def replace (h : Heap) (p old new : Ptr) : Except Crash Heap := do
  let h ← h.modify p fun c ↦ { c with cache := c.cache.dirtify }
  let h ← h.subtract p (← h.get old).cache.children
  let h ← h.addCount p (← h.get new).cache.children
  let h ← h.dirtify p
  h.replaceChild p old new

def getTotalBits : ℕ → Heap → Ptr → Except Crash ℕ
  | 0, _, _ => .error .tooDeep
  | n + 1, h, p => do
    let c ← h.get p
    match c.parent with
    | none => pure (c.bits + 1)
    | some parent => pure (c.bits + 1 + (← getTotalBits n h parent))

/-- `delete` on a pointer that may be null: the destructor deletes the children first. -/
def delete : ℕ → Heap → Option Ptr → Except Crash Heap
  | _, h, none => .ok h
  | 0, _, some _ => .error .tooDeep
  | n + 1, h, some p => do
    let c ← h.get p
    let h ← delete n h c.left
    let h ← delete n h c.right
    pure (h.free p)

def setBits (h : Heap) (p : Ptr) (bits : ℕ) : Except Crash Heap := do
  let h ← h.modify p fun c ↦ { c with bits }
  h.dirtify p

def setKey (h : Heap) (p : Ptr) (key : UInt160) : Except Crash Heap := do
  let h ← h.modify p fun c ↦ { c with key }
  h.dirtify p

/-- The setters of `AccountData`. -/
def setData (h : Heap) (p : Ptr) (f : AccountData → AccountData) : Except Crash Heap := do
  let h ← h.modify p fun c ↦ { c with data := f c.data }
  h.dirtify p

def setAge (h : Heap) (p : Ptr) (age : UInt64) : Except Crash Heap :=
  h.setData p fun data ↦ { data with age }

def setBalance (h : Heap) (p : Ptr) (balance : UInt64) : Except Crash Heap :=
  h.setData p fun data ↦ { data with balance }

def setLimit (h : Heap) (p : Ptr) (limit : UInt64) : Except Crash Heap :=
  h.setData p fun data ↦ { data with limit }

def setFutureLimit (h : Heap) (p : Ptr) (limit : UInt64) : Except Crash Heap :=
  h.setData p fun data ↦ { data with futureLimit := limit }

def hash (H : List UInt8 → UInt256) : ℕ → Heap → Ptr → Except Crash (UInt256 × Heap)
  | 0, _, _ => .error .tooDeep
  | n + 1, h, p => do
    let c ← h.get p
    match c.type with
    | .hash => pure (c.cache.hash, h)
    | .leaf =>
      if !c.cache.modified then pure (c.cache.hash, h)
      else
        let hash := H (leafPreimage c.key c.data)
        pure (hash, h.set p { c with cache := { c.cache with modified := false, hash } })
    | .branch =>
      if !c.cache.modified then pure (c.cache.hash, h)
      else
        let h ← h.modify p fun c ↦ { c with cache := { c.cache with modified := false } }
        let (left, h) ← hash H n h (← deref c.left)
        let (right, h) ← hash H n h (← deref c.right)
        let hash := H (branchPreimage c.key c.bits left right)
        let h ← h.modify p fun c ↦ { c with cache := { c.cache with hash } }
        pure (hash, h)

/-! ## The engine -/

/-- A variable of type `TrieNode*`, which `Insert` is given the address of. -/
inductive Slot where
  | root
  | left (p : Ptr)
  | right (p : Ptr)

def load (h : Heap) : Slot → Except Crash (Option Ptr)
  | .root => pure h.root
  | .left p => do pure (← h.get p).left
  | .right p => do pure (← h.get p).right

def store (h : Heap) (p : Option Ptr) : Slot → Except Crash Heap
  | .root => pure (h.setRoot p)
  | .left q => h.modify q fun c ↦ { c with left := p }
  | .right q => h.modify q fun c ↦ { c with right := p }

/-- `if(parent) parent->Subtract(count)`. -/
def subtractFrom (h : Heap) : Option Ptr → UInt64 → Except Crash Heap
  | none, _ => .ok h
  | some parent, count => h.subtract parent count

/-- `Add` both in this order. -/
def addBoth (h : Heap) (q a b : Ptr) : Except Crash Heap := do
  let h ← h.add q a
  h.add q b

/-- The branch below the new one becomes shorter. -/
def shorten (h : Heap) (branch : Ptr) (bits newBits : ℕ) : Except Crash Heap := do
  let h ← h.setBits branch (sub32 (sub32 (← h.get branch).bits newBits) 1)
  let c ← h.get branch
  h.setKey branch (TrieEngine.subKey c.key (bits + newBits + 1) c.bits)

/-- The end of `Insert`: the fragments of the new branch `q` and of the branch below it. -/
def setFragments (h : Heap) (q node node2 : Ptr) (bits newBits : ℕ) (key : UInt160) :
    Except Crash Heap := do
  let h ← h.setBits q newBits
  let h ← h.setKey q key
  let type := (← h.get node).type
  let type2 := (← h.get node2).type
  if type = .branch ∨ type2 = .branch then
    h.shorten (if type2 = .branch then node2 else node) bits newBits
  else pure h

/-- The second half of `Insert`; `new TrieNode(NODE_BRANCH)` returns `q`. -/
def split (h : Heap) (slot : Slot) (node2 node q : Ptr) (bits : ℕ) : Except Crash Heap := do
  let c1 ← h.get node
  let c2 ← h.get node2
  let k1 := shl c1.key bits
  let k2 := shl c2.key bits
  assert (k1 ≠ k2)
  let h ← h.subtractFrom c2.parent c2.cache.children
  let h ← (h.set q .newBranch).store (some q) slot
  let h ← h.modify q fun c ↦ { c with parent := c2.parent }
  let h ← (if k1 < k2 then h.addBoth q node node2 else h.addBoth q node2 node)
  let newBits := Patricia.leadingEqual 160 k1 k2
  h.setFragments q node node2 bits newBits (TrieEngine.subKey c1.key bits newBits)

def insert (node q : Ptr) : ℕ → Heap → Slot → ℕ → Except Crash Heap
  | 0, _, _, _ => .error .tooDeep
  | n + 1, h, slot, bits => do
    match ← h.load slot with
    | none =>
      let h ← h.store (some node) slot
      h.modify node fun c ↦ { c with parent := none }
    | some root =>
      let c ← h.get root
      let key := (← h.get node).key
      if c.type = .branch ∧ TrieEngine.subKey key bits c.bits = c.key then
        insert node q n h
          (if TrieEngine.highBit key (bits + c.bits) then .right root else .left root)
          (bits + c.bits + 1)
      else split h slot root node q bits

/-- The branch of `Remove` on `parent->Parent()`: `peer` takes the place of `parent`. -/
def putInPlace (h : Heap) (peer parent : Ptr) : Option Ptr → Except Crash Heap
  | none => (h.setRoot (some peer)).modify peer fun c ↦ { c with parent := none }
  | some grandparent => h.replace grandparent parent peer

/-- The branch of `Remove` on `peer->Type()`: `peer` takes over the fragment of `parent`. -/
def lengthen (h : Heap) (peer parent : Ptr) : Except Crash Heap := do
  if (← h.get peer).type = .branch then
    let h ← h.setBits peer ((← h.get peer).bits + (← h.get parent).bits + 1)
    let total ← getTotalBits maxDepth h parent
    let h ← h.setKey peer ((← h.get peer).key ||| (← h.get parent).key)
    if (← h.get parent).right = some peer then
      h.setKey peer ((← h.get peer).key ||| shl 1 (sub32 160 total))
    else pure h
  else pure h

def remove (h : Heap) (node : Ptr) : Except Crash Heap := do
  match (← h.get node).parent with
  | none => delete maxDepth (h.setRoot none) (some node)
  | some parent =>
    let (peer, h) ← h.removeChild parent node
    let h ← delete maxDepth h (some node)
    let peer ← deref peer
    let h ← h.putInPlace peer parent (← h.get parent).parent
    let h ← h.lengthen peer parent
    let h ← h.modify parent fun c ↦ { c with parent := none }
    let (_, h) ← h.removeChild parent peer
    delete maxDepth h (some parent)

end Heap

end Cryptonite
