import Cryptonite.Foundation.LittleEndian
import Cryptonite.Patricia.Context

/-!
# Nodes of the account trie

`TrieNode` of `trie.h`. A node is a leaf holding one account, a branch, or a bare hash standing for
a subtree that was not transmitted. The bookkeeping every node carries besides its contents — the
dirty flag, the cached hash and the number of accounts below it — is the annotation of the
`Patricia.Trie` underneath, and the `m_parent` chain of a node is the list of frames above it.

## Hashes

`TrieNode.hash` is the method of the source, which returns the cached `m_hash` unless the node is
marked modified and stores what it computes. `TrieNode.digest` recomputes everything. The
invariant relating the two is `Coherent`: an unmodified node caches its digest. The hash primitive
(SHA-256 applied twice) is a parameter throughout.
-/

namespace Cryptonite

open Codec Patricia

/-- `uint160`: account keys. -/
abbrev UInt160 := BitVec 160

/-- `uint256`: hashes. -/
abbrev UInt256 := BitVec 256

/-- How a call can end other than by returning. -/
inductive Fault where
  /-- A failed `assert`. -/
  | assertion
  /-- A null pointer is dereferenced. -/
  | nullDeref
  /-- An element past the end of a vector is read. -/
  | outOfBounds
  /-- A `std::runtime_error` nobody catches. -/
  | runtimeError
  deriving DecidableEq, Repr

/-- A computation of the source: it returns, or it ends in a fault. -/
abbrev Exec := Except Fault

/-! ## Fixed-width arithmetic -/

def sub32 (a b : ℕ) : ℕ := (a + (2 ^ 32 - b % 2 ^ 32)) % 2 ^ 32

theorem sub32_of_le {a b : ℕ} (hb : b ≤ a) (ha : a < 2 ^ 32) : sub32 a b = a - b := by
  rw [sub32, Nat.mod_eq_of_lt (hb.trans_lt ha)]
  omega

/-- `base_uint::operator<<`: bits shifted past the top are lost, whatever the amount. -/
def shl (x : UInt160) (n : ℕ) : UInt160 := if n < 160 then x <<< n else 0#160

def shr (x : UInt160) (n : ℕ) : UInt160 := if n < 160 then x >>> n else 0#160

@[simp] theorem shl_eq (x : UInt160) (n : ℕ) : shl x n = x <<< n := by
  rw [shl]
  split
  · rfl
  · rw [BitVec.shiftLeft_eq_zero (by omega)]

@[simp] theorem shr_eq (x : UInt160) (n : ℕ) : shr x n = x >>> n := by
  rw [shr]
  split
  · rfl
  · rw [BitVec.ushiftRight_eq_zero (by omega)]

/-! ## Accounts and nodes -/

/-- The fields of an account besides its key. -/
structure AccountData where
  /-- `m_age`: the height of the last withdrawal. -/
  age : UInt64
  /-- `m_balance`. -/
  balance : UInt64
  /-- `m_limit`: the withdrawal limit in force. -/
  limit : UInt64
  /-- `m_futurelimit`: the limit that comes into force after `MIN_LIMIT_TIME` blocks. -/
  futureLimit : UInt64
  deriving DecidableEq, Repr

/-- `AccountData::AccountData()`. -/
def AccountData.init : AccountData :=
  { age := 0, balance := 0, limit := 0xFFFFFFFFFFFFFFFF, futureLimit := 0xFFFFFFFFFFFFFFFF }

/-- What a node records besides its contents. -/
structure NodeCache where
  /-- `m_modified`. -/
  modified : Bool
  /-- `m_hash`. -/
  hash : UInt256
  /-- `m_children`. -/
  children : UInt64
  deriving DecidableEq, Repr

namespace NodeCache

/-- A leaf as `new TrieNode(NODE_LEAF)` makes it. -/
def newLeaf : NodeCache := { modified := true, hash := 0, children := 1 }

/-- A branch as `new TrieNode(NODE_BRANCH)` makes it. -/
def newBranch : NodeCache := { modified := true, hash := 0, children := 0 }

/-- `m_modified = 1`. -/
def dirtify (c : NodeCache) : NodeCache := { c with modified := true }

/-- `m_children += count`. -/
def add (count : UInt64) (c : NodeCache) : NodeCache := { c with children := c.children + count }

/-- `m_children -= count`. -/
def subtract (count : UInt64) (c : NodeCache) : NodeCache :=
  { c with children := c.children - count }

end NodeCache

/-- A node of the account trie with everything below it. -/
abbrev TrieNode := Trie 160 NodeCache AccountData UInt256

/-- The `m_parent` chain of a node, nearest first. -/
abbrev Parents := List (Frame 160 NodeCache AccountData UInt256)

/-- A leaf that is not linked into a trie. -/
structure Leaf where
  /-- The bookkeeping fields. -/
  cache : NodeCache
  /-- `m_key`. -/
  key : UInt160
  /-- The account. -/
  data : AccountData
  deriving DecidableEq, Repr

/-- `new TrieNode(NODE_LEAF)` with its key and account set. -/
def Leaf.new (key : UInt160) (data : AccountData) : Leaf := ⟨NodeCache.newLeaf, key, data⟩

def Leaf.toNode (n : Leaf) : TrieNode := .leaf n.cache n.key n.data

/-- A pointer to a leaf of a trie. -/
structure LeafPtr extends Leaf where
  /-- The ancestors of the leaf. -/
  parents : Parents

namespace LeafPtr

def root (p : LeafPtr) : TrieNode := plug p.parents p.toNode

end LeafPtr

namespace TrieNode

def children : TrieNode → UInt64
  | .leaf c _ _ => c.children
  | .node c _ _ _ _ => c.children
  | .stub _ => 0

/-- `Key()`: the account key of a leaf, the fragment of a branch; a hash node keeps the zero key of
the constructor. -/
def key (t : TrieNode) : UInt160 := t.label

/-- `Dirtify()` on the chain of ancestors. -/
def dirtify (ps : Parents) : Parents := ps.map (Frame.mapMeta NodeCache.dirtify)

/-- `Add(uint64_t)` on the chain of ancestors. -/
def addCount (count : UInt64) (ps : Parents) : Parents :=
  ps.map (Frame.mapMeta (NodeCache.add count))

/-- `Subtract(uint64_t)` on the chain of ancestors. -/
def subtract (count : UInt64) (ps : Parents) : Parents :=
  ps.map (Frame.mapMeta (NodeCache.subtract count))

/-- `GetTotalBits()` of the nearest of the ancestors. -/
def getTotalBits : Parents → ℕ
  | [] => 0
  | f :: ps => f.bits + 1 + getTotalBits ps

theorem getTotalBits_eq_depth (ps : Parents) : getTotalBits ps = depth ps := by
  induction ps with
  | nil => rfl
  | cons f ps ih => rw [getTotalBits, depth, ih]; omega

end TrieNode

namespace LeafPtr

/-- A setter of `AccountData` called through the pointer: the field changes, and the leaf and all
its ancestors are marked modified. -/
def set (p : LeafPtr) (data : AccountData) : LeafPtr :=
  { p with cache := p.cache.dirtify, data := data, parents := TrieNode.dirtify p.parents }

def setAge (p : LeafPtr) (age : UInt64) : LeafPtr := p.set { p.data with age := age }

def setBalance (p : LeafPtr) (balance : UInt64) : LeafPtr :=
  p.set { p.data with balance := balance }

def setLimit (p : LeafPtr) (limit : UInt64) : LeafPtr := p.set { p.data with limit := limit }

def setFutureLimit (p : LeafPtr) (limit : UInt64) : LeafPtr :=
  p.set { p.data with futureLimit := limit }

def setKey (p : LeafPtr) (key : UInt160) : LeafPtr := { p.set p.data with key := key }

end LeafPtr

/-! ## Hashes -/

/-- The bytes `AccountData::Hash` hashes: the packed fields from `m_age` to the end of `m_key`. -/
def leafPreimage (k : UInt160) (v : AccountData) : List UInt8 :=
  leBytes 8 v.age.toNat ++ (leBytes 8 v.balance.toNat ++ (leBytes 8 v.limit.toNat ++
    (leBytes 8 v.futureLimit.toNat ++ leBytes 20 k.toNat)))

/-- The bytes a branch hashes: its fragment, the fragment's length and the hashes of its
children. -/
def branchPreimage (key : UInt160) (bits : ℕ) (left right : UInt256) : List UInt8 :=
  leBytes 20 key.toNat ++ (leBytes 4 bits ++ (leBytes 32 left.toNat ++ leBytes 32 right.toNat))

section Hash

variable {μ : Type} (H : List UInt8 → UInt256)

/-- The hash of a trie computed from scratch. -/
def digest : Trie 160 μ AccountData UInt256 → UInt256
  | .leaf _ k v => H (leafPreimage k v)
  | .node _ key bits l r => H (branchPreimage key bits (digest l) (digest r))
  | .stub h => h

theorem digest_erase (t : Trie 160 μ AccountData UInt256) : digest H t.erase = digest H t := by
  induction t with
  | leaf c k v => rfl
  | node c key bits l r ihl ihr => rw [Trie.erase, digest, digest, ihl, ihr]
  | stub h => rfl

namespace TrieNode

/-- `TrieNode::Hash()`: the hash, and the node with its caches refreshed. -/
def hash : TrieNode → UInt256 × TrieNode
  | .leaf c k v =>
    if !c.modified then (c.hash, .leaf c k v)
    else
      let h := H (leafPreimage k v)
      (h, .leaf { c with modified := false, hash := h } k v)
  | .node c key bits l r =>
    if !c.modified then (c.hash, .node c key bits l r)
    else
      let left := hash l
      let right := hash r
      let h := H (branchPreimage key bits left.1 right.1)
      (h, .node { c with modified := false, hash := h } key bits left.2 right.2)
  | .stub h => (h, .stub h)

/-- No cached hash is stale: an unmodified node caches its digest. -/
def Coherent : TrieNode → Prop
  | .leaf c k v => c.modified = false → c.hash = H (leafPreimage k v)
  | .node c key bits l r =>
    (c.modified = false → c.hash = H (branchPreimage key bits (digest H l) (digest H r))) ∧
      Coherent l ∧ Coherent r
  | .stub _ => True

/-- A coherent node returns its digest, and refreshing the caches changes nothing else. -/
theorem Coherent.hash_spec : ∀ {t : TrieNode}, Coherent H t →
    (hash H t).1 = digest H t ∧ (hash H t).2.erase = t.erase ∧ Coherent H (hash H t).2 := by
  intro t
  induction t with
  | leaf c k v =>
    intro hC
    rw [hash]
    cases hm : c.modified with
    | false => exact ⟨hC hm, rfl, hC⟩
    | true => exact ⟨rfl, rfl, fun _ ↦ rfl⟩
  | node c key bits l r ihl ihr =>
    rintro ⟨hC, hl, hr⟩
    obtain ⟨hl₁, hl₂, hl₃⟩ := ihl hl
    obtain ⟨hr₁, hr₂, hr₃⟩ := ihr hr
    rw [hash]
    cases hm : c.modified with
    | false => exact ⟨hC hm, rfl, hC, hl, hr⟩
    | true =>
      -- the children's digests survive the refresh of their caches
      have hdl : digest H (hash H l).2 = digest H l := by rw [← digest_erase, hl₂, digest_erase]
      have hdr : digest H (hash H r).2 = digest H r := by rw [← digest_erase, hr₂, digest_erase]
      refine ⟨?_, ?_, ?_, hl₃, hr₃⟩
      · simp only [Bool.not_true, Bool.false_eq_true, if_false, hl₁, hr₁, digest]
      · simp only [Bool.not_true, Bool.false_eq_true, if_false, Trie.erase, hl₂, hr₂]
      · intro _
        simp only [hl₁, hr₁, hdl, hdr]
  | stub h => exact fun _ ↦ ⟨rfl, rfl, trivial⟩

variable {H}

theorem coherent_plug_dirtify : ∀ {ps : Parents} {t : TrieNode},
    (∀ f ∈ ps, Coherent H f.sibling) → Coherent H t → Coherent H (plug (dirtify ps) t) := by
  intro ps
  induction ps with
  | nil => intro t _ ht; exact ht
  | cons f ps ih =>
    intro t hps ht
    refine ih (fun g hg ↦ hps g (List.mem_cons_of_mem f hg)) ?_
    have hs := hps f List.mem_cons_self
    rw [Frame.plug]
    split
    · exact ⟨fun hm ↦ absurd hm (by simp [Frame.mapMeta, NodeCache.dirtify]), hs, ht⟩
    · exact ⟨fun hm ↦ absurd hm (by simp [Frame.mapMeta, NodeCache.dirtify]), ht, hs⟩

theorem Coherent.of_plug : ∀ {ps : Parents} {t : TrieNode}, Coherent H (plug ps t) →
    (∀ f ∈ ps, Coherent H f.sibling) ∧ Coherent H t := by
  intro ps
  induction ps with
  | nil => intro t ht; exact ⟨fun f hf ↦ absurd hf List.not_mem_nil, ht⟩
  | cons f ps ih =>
    intro t ht
    obtain ⟨hps, hf⟩ := ih ht
    have hboth : Coherent H f.sibling ∧ Coherent H t := by
      rw [Frame.plug] at hf
      split at hf
      · exact hf.2
      · exact hf.2.symm
    refine ⟨fun g hg ↦ ?_, hboth.2⟩
    rcases List.mem_cons.mp hg with rfl | hg
    · exact hboth.1
    · exact hps g hg

end TrieNode

end Hash

end Cryptonite
