import Cryptonite.Trie.Engine

/-!
# Slices of the trie

A node that does not have the accounts of a range asks a peer for a *slice*: the part of the trie
that covers the range, with the subtrees outside of it collapsed to their hashes. `SubTrie` of
`trieengine.cpp` writes one, `Deserialize` of `trie.cpp` reads it back, and `Prove` decides whether
the hash nodes of a slice are all outside the range.

Nodes are compared by address in the source. Here the address of a node is its path from the root,
nearest turn first, which is also what the frames above it spell.
-/

namespace Cryptonite

open Patricia Codec

/-- The type byte of a serialized node. -/
inductive NodeType where
  | leaf
  | branch
  | hash
  deriving DecidableEq, Repr

namespace NodeType

/-- `NODE_LEAF`, `NODE_BRANCH`, `NODE_HASH`. -/
def toByte : NodeType → UInt8
  | leaf => 1
  | branch => 2
  | hash => 3

/-- The check `*src < NODE_LEAF || *src > NODE_HASH`. -/
def ofByte (b : UInt8) : Option NodeType :=
  if b = 1 then some leaf else if b = 2 then some branch else if b = 3 then some hash else none

end NodeType

/-! ## Writing a slice -/

/-- The bytes written so far, and `*nodes`. -/
structure SliceBuf where
  out : List UInt8
  nodes : UInt32
  deriving DecidableEq, Repr

/-- `max - *pos`. -/
def SliceBuf.room (buf : SliceBuf) (max : ℕ) : ℕ := sub32 max buf.out.length

def SliceBuf.push (buf : SliceBuf) (bytes : List UInt8) : SliceBuf :=
  { buf with out := buf.out ++ bytes }

/-- `TrieNode::Serialize` of a leaf. -/
def serializeLeaf (max : ℕ) (buf : SliceBuf) (k : UInt160) (v : AccountData) : Bool × SliceBuf :=
  if buf.room max < 1 then (false, buf)
  else
    let buf := buf.push [NodeType.leaf.toByte]
    if buf.room max < 52 then (false, buf) else (true, buf.push (leafPreimage k v))

/-- `TrieNode::Serialize` of any other node. -/
def serializeBranch (max : ℕ) (buf : SliceBuf) (key : UInt160) (bits : ℕ) : Bool × SliceBuf :=
  if buf.room max < 22 then (false, buf)
  else (true, buf.push ([NodeType.branch.toByte, UInt8.ofNat bits] ++ leBytes 20 key.toNat))

section SubTrie

variable (H : List UInt8 → UInt256)

def hashNode (max : ℕ) (buf : SliceBuf) (root : TrieNode) : Bool × SliceBuf × TrieNode :=
  if buf.room max < 33 then (false, buf, root)
  else
    let (hash, root) := TrieNode.hash H root
    (true, buf.push (NodeType.hash.toByte :: leBytes 32 hash.toNat), root)

/-- The mask of the first `bits + 1` bits. -/
def highMask (bits : ℕ) : UInt160 := ~~~(shr (BitVec.allOnes 160) (bits + 1))

/-- `TrieEngine::SubTrie`: the verdict, the buffer, and the trie with some caches refreshed. A hash
node is taken for a branch, whose children are then null. -/
def subTrie (left right : UInt160) (max : ℕ) : TrieNode → UInt160 → ℕ → Bool → SliceBuf →
    Exec (Bool × SliceBuf × TrieNode)
  | root, _, _, true, buf => pure (hashNode H max buf root)
  | .leaf c k v, _, _, false, buf =>
    let (ok, buf) := serializeLeaf max { buf with nodes := buf.nodes + 1 } k v
    pure (ok, buf, .leaf c k v)
  | .node c key nbits l r, ckey, bits, false, buf =>
    let bits := bits + nbits
    let ckey := ckey ||| key
    let maxkey := ckey ||| shl 1 (sub32 (sub32 160 bits) 1)
    let hashLeft := decide (ckey < left &&& highMask bits)
    let hashRight := decide (maxkey < left &&& highMask bits) || decide (maxkey > right)
    match serializeBranch max buf key nbits with
    | (false, buf) => pure (false, buf, .node c key nbits l r)
    | (true, buf) => do
      match ← subTrie left right max l ckey (bits + 1) hashLeft buf with
      | (false, buf, l) => pure (false, buf, .node c key nbits l r)
      | (true, buf, l) =>
        let (ok, buf, r) ← subTrie left right max r maxkey (bits + 1) hashRight buf
        pure (ok, buf, .node c key nbits l r)
  | .stub h, ckey, bits, false, buf =>
    match serializeBranch max buf 0 0 with
    | (false, buf) => pure (false, buf, .stub h)
    | (true, buf) =>
      if decide (ckey < left &&& highMask bits) && decide (buf.room max < 33) then
        pure (false, buf, .stub h)
      else .error .nullDeref

end SubTrie

/-! ## Reading a slice -/

/-- `AccountData::DeserializeI`. -/
def deserializeLeaf (src : List UInt8) : Option (TrieNode × ℕ) :=
  if src.length < 52 then none
  else
    let word (i n : ℕ) : ℕ := leNat ((src.drop i).take n)
    some (.leaf NodeCache.newLeaf (BitVec.ofNat 160 (word 32 20))
      { age := UInt64.ofNat (word 0 8), balance := UInt64.ofNat (word 8 8),
        limit := UInt64.ofNat (word 16 8), futureLimit := UInt64.ofNat (word 24 8) }, 52)

/-- `TrieNode::DeserializeI` on a node of the given type: the node and the bytes read. -/
def deserializeI : ℕ → NodeType → List UInt8 → Option (TrieNode × ℕ)
  | _, .hash, src =>
    if src.length < 32 then none
    else some (.stub (BitVec.ofNat 256 (leNat (src.take 32))), 32)
  | _, .leaf, src => deserializeLeaf src
  | 0, .branch, _ => none
  | fuel + 1, .branch, src =>
    if src.length < 23 then none
    else do
      let bits := src.headD 0
      let key := BitVec.ofNat 160 (leNat ((src.drop 1).take 20))
      let src := src.drop 21
      if src.length < 21 then none
      else
        let type ← NodeType.ofByte (src.headD 0)
        let (l, nsz) ← deserializeI fuel type src.tail
        let src := src.tail.drop nsz
        if src.length < 21 then none
        else
          let type ← NodeType.ofByte (src.headD 0)
          let (r, nsz2) ← deserializeI fuel type src.tail
          some (.node NodeCache.newBranch key bits.toNat l r, 23 + nsz + nsz2)

/-- `TrieNode::FindChildren`: what it returns, and the trie with its counters set. -/
def findChildren : TrieNode → UInt64 × TrieNode
  | .node c key bits l r =>
    let left := findChildren l
    let right := findChildren r
    let children := left.1 + right.1
    (children + 1, .node { c with children } key bits left.2 right.2)
  | t => (1, t)

def deserialize (src : List UInt8) : Option TrieNode :=
  if src.length < 33 then none
  else do
    let type ← NodeType.ofByte (src.headD 0)
    let (t, _) ← deserializeI src.tail.length type src.tail
    some (findChildren t).2

/-! ## Checking a slice -/

/-- The address of a node: the turns from it up to the root. -/
abbrev NodePath := List Bool

def pathOf (ps : Parents) : NodePath := ps.map Frame.right

/-- `FindAll(NODE_HASH, ..)`. -/
def findHashes : NodePath → TrieNode → List NodePath
  | path, .stub _ => [path]
  | path, .node _ _ _ l r => findHashes (false :: path) l ++ findHashes (true :: path) r
  | _, .leaf _ _ _ => []

/-- `GetTotalKey`, from the frame that holds the child upwards. -/
def getTotalKey : Parents → UInt160 → UInt160
  | [], key => key
  | f :: ps, key =>
    getTotalKey ps (f.key ||| key |||
      shl (if f.right then 1 else 0) (sub32 160 (TrieNode.getTotalBits (f :: ps))))

/-- `TrieEngine::TraverseLeft`: the hash nodes it collects. -/
def traverseLeft (left : UInt160) : Parents → TrieNode → ℕ → List NodePath
  | ps, .node c key nbits l r, bits =>
    let bits := bits + nbits
    let toLeft : Frame 160 NodeCache AccountData UInt256 := ⟨c, key, nbits, false, r⟩
    let toRight : Frame 160 NodeCache AccountData UInt256 := ⟨c, key, nbits, true, l⟩
    (if getTotalKey (toLeft :: ps) 0 < left &&& highMask bits then
        findHashes (pathOf ps) (.node c key nbits l r)
      else traverseLeft left (toLeft :: ps) l bits) ++
    (if getTotalKey (toRight :: ps) 0 < left &&& highMask bits then
        findHashes (pathOf (toRight :: ps)) r
      else traverseLeft left (toRight :: ps) r bits)
  | _, _, _ => []

def traverseRight (left right : UInt160) : Parents → TrieNode → List NodePath
  | ps, .node c key nbits l r =>
    let toLeft : Frame 160 NodeCache AccountData UInt256 := ⟨c, key, nbits, false, r⟩
    let toRight : Frame 160 NodeCache AccountData UInt256 := ⟨c, key, nbits, true, l⟩
    let rtkey := getTotalKey (toRight :: ps) 0
    (if rtkey > right then findHashes (pathOf ps) (.node c key nbits l r)
      else traverseRight left right (toRight :: ps) r) ++
    (if rtkey > left then findHashes (pathOf (toLeft :: ps)) l
      else traverseRight left right (toLeft :: ps) l)
  | _, _ => []

/-- `TrieEngine::Prove`: every hash node is excused by one of the two traversals. -/
def prove (root : Option TrieNode) (left right : UInt160) : Bool :=
  match root with
  | none => false
  | some root =>
    let lefts := traverseLeft left [] root 0
    let rights := traverseRight left right [] root
    (findHashes [] root).all fun node ↦ lefts.contains node || rights.contains node

end Cryptonite
