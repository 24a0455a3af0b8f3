import Cryptonite.Trie.Node

/-!
# The trie engine

`TrieEngine::Find`, `Insert` and `Remove` of `trieengine.cpp`, on tries without parent pointers:
the descent collects the frames it passes, and whatever the source reaches through `Parent()` is
read off them. `Find` returns a pointer, that is, a leaf together with its frames; `Remove` takes
one.

The bit counters are `uint32_t` in the source. Sums of them stay far below `2 ^ 32` and are plain
numbers here; differences can wrap and are `sub32`.
-/

namespace Cryptonite

open Patricia

namespace TrieEngine

def subKey (key : UInt160) (left size : ℕ) : UInt160 :=
  shl (shr (shl key left) (sub32 160 size)) (sub32 (sub32 160 size) left)

def highBit (key : UInt160) (shift : ℕ) : Bool :=
  (shr key (sub32 (sub32 160 shift) 1)).getLsbD 0

/-! ## Find -/

/-- `Find` below the given ancestors. -/
def findAt (key : UInt160) : Parents → TrieNode → ℕ → Option LeafPtr
  | ps, .leaf c k v, _ => if k = key then some { cache := c, key := k, data := v, parents := ps }
    else none
  | ps, .node c nkey bits l r, keybits =>
    if subKey key keybits bits ≠ subKey nkey keybits bits then none
    else if (shr key (sub32 159 (keybits + bits)) &&& 1) ≠ 0 then
      findAt key (⟨c, nkey, bits, true, l⟩ :: ps) r (keybits + bits + 1)
    else findAt key (⟨c, nkey, bits, false, r⟩ :: ps) l (keybits + bits + 1)
  | _, .stub _, _ => none

/-- `TrieEngine::Find(key, root)`. -/
def find (key : UInt160) : Option TrieNode → Option LeafPtr
  | none => none
  | some root => findAt key [] root 0

/-! ## Insert -/

/-- Shorten the branch a new node is put above: `SetBits` and `SetKey` at the end of `Insert`. -/
def shorten (bits newBits : ℕ) : TrieNode → TrieNode
  | .node c key b l r =>
    let b' := sub32 (sub32 b newBits) 1
    .node c.dirtify (subKey key (bits + newBits + 1) b') b' l r
  | node => node

/-- A new branch over `a` and `b`, added in this order, in the place the ancestors `ps` lead to. -/
def addBoth (ps : Parents) (key : UInt160) (bits : ℕ) (a b : TrieNode) : TrieNode :=
  let ps := TrieNode.addCount a.children (TrieNode.dirtify ps)
  let ps := TrieNode.addCount b.children (TrieNode.dirtify ps)
  plug (TrieNode.dirtify ps)
    (.node ((NodeCache.newBranch.add a.children).add b.children) key bits a b)

/-- The second half of `Insert`: a new branch over `node` and the node found in its way. -/
def split (ps : Parents) (node2 : TrieNode) (node : Leaf) (bits : ℕ) : Exec TrieNode :=
  let k1 := shl node.key bits
  let k2 := shl node2.key bits
  if k1 = k2 then .error .assertion
  else
    let ps := TrieNode.subtract node2.children ps
    let newBits := leadingEqual 160 k1 k2
    let key := subKey node.key bits newBits
    let node2 := shorten bits newBits node2
    .ok (if k1 < k2 then addBoth ps key newBits node.toNode node2
      else addBoth ps key newBits node2 node.toNode)

/-- `Insert` below the given ancestors; the result is the whole trie. -/
def insertAt (node : Leaf) : Parents → TrieNode → ℕ → Exec TrieNode
  | ps, .node c key newBits l r, bits =>
    if subKey node.key bits newBits = key then
      if highBit node.key (bits + newBits) then
        insertAt node (⟨c, key, newBits, true, l⟩ :: ps) r (bits + newBits + 1)
      else insertAt node (⟨c, key, newBits, false, r⟩ :: ps) l (bits + newBits + 1)
    else split ps (.node c key newBits l r) node bits
  | ps, .leaf c k v, bits => split ps (.leaf c k v) node bits
  | ps, .stub h, bits => split ps (.stub h) node bits

/-- `TrieEngine::Insert(&root, node)`. -/
def insert (root : Option TrieNode) (node : Leaf) : Exec TrieNode :=
  match root with
  | none => .ok node.toNode
  | some t => insertAt node [] t 0

/-! ## Remove -/

/-- What `Remove` does to the remaining child when it takes its parent's place; `total` is
`parent->GetTotalBits()`, and `right` says whether the child is `parent->m_right`. -/
def lengthen (parentKey : UInt160) (parentBits total : ℕ) (right : Bool) : TrieNode → TrieNode
  | .node c key b l r =>
    let key := key ||| parentKey
    let key := if right then key ||| shl 1 (sub32 160 total) else key
    .node c.dirtify key (b + parentBits + 1) l r
  | peer => peer

/-- `TrieEngine::Remove(&root, node)`. -/
def remove (node : LeafPtr) : Option TrieNode :=
  match node.parents with
  | [] => none
  | parent :: ps =>
    -- `parent->Remove(node)`
    let count := node.cache.children
    let ps := TrieNode.subtract count (TrieNode.dirtify ps)
    let parentCount := parent.m.children - count
    let peer := parent.sibling
    -- `Replace(parent, peer)` on the grandparent; at the root there is none
    let ps := TrieNode.dirtify
      (TrieNode.addCount (TrieNode.children peer) (TrieNode.subtract parentCount ps))
    some (plug ps (lengthen parent.key parent.bits
      (TrieNode.getTotalBits (parent :: ps)) (!parent.right) peer))

end TrieEngine

end Cryptonite
