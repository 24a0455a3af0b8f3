import Mathlib.Data.List.Dedup
import Mathlib.Data.List.Sort
import Cryptonite.Trie.Slice
import Cryptonite.View.Apply

/-!
# Moving the view to another block

`TrieView::Activate` of `trieview.cpp` takes the view from the block it is labelled with to any
other block of the block index: it collects the ancestors of both, unwinds the blocks that only the
old one has and connects those that only the new one has. `BalancesAt` and `GetSlice` go to a block,
read, and come back.

`Activate` can leave in the middle: an undo record cannot be read, or a block does not connect. The
trie and the label `m_bestBlock` are then as the last completed statements left them.
-/

namespace Cryptonite

def MORE_ALLOC : ℕ := 1024

def SAFE_UNIQ : ℕ := 10

section Path

variable (index : ℕ → BlockIndex)

/-- Follow `pprev` and fill an array that has room for as many pointers. -/
def collect : ℕ → Option ℕ → Exec (List ℕ)
  | _, none => pure []
  | 0, some _ => .error .outOfBounds
  | room + 1, some p => do
    let ps ← collect room (index p).pprev
    pure (p :: ps)

/-- The loop that shortens both arrays while they end in the same entry, on the arrays read from the
end. -/
def reduct : List ℕ → List ℕ → List ℕ × List ℕ
  | p :: ps, q :: qs =>
    if (p :: ps).length > SAFE_UNIQ ∧ (q :: qs).length > SAFE_UNIQ ∧ p = q then reduct ps qs
    else (p :: ps, q :: qs)
  | ps, qs => (ps, qs)

/-- `getSet2`: the two sets, as lists without repetitions. -/
def getSet2 (p q : ℕ) : Exec (List ℕ × List ℕ) := do
  let height := max (index p).nHeight (index q).nHeight + MORE_ALLOC
  let ps ← collect index height (some p)
  let qs ← collect index height (some q)
  let (ps, qs) := reduct ps.reverse qs.reverse
  pure (ps.dedup, qs.dedup)

/-- The order of `pair<uint64_t, CBlockIndex*>`. -/
def heightOrder (p q : ℕ) : Prop :=
  (index p).nHeight < (index q).nHeight ∨ (index p).nHeight = (index q).nHeight ∧ p ≤ q

instance : DecidableRel (heightOrder index) := fun _ _ ↦ inferInstanceAs (Decidable (_ ∨ _))

def sortSet (s : List ℕ) : List ℕ := s.insertionSort (heightOrder index)

/-- The entries to unwind and the entries to connect, each in order. -/
def paths (p q : ℕ) : Exec (List ℕ × List ℕ) := do
  let (newSet, oldSet) ← getSet2 index p q
  pure ((sortSet index (oldSet.filter (· ∉ newSet))).reverse,
    sortSet index (newSet.filter (· ∉ oldSet)))

end Path

section Activate

variable (H : List UInt8 → UInt256) (index : ℕ → BlockIndex) (mapBlockIndex : UInt256 → Option ℕ)

/-- The loop over `oldVector`. -/
def unwind (disk : Disk) : List ℕ → Node → Exec (Bool × Node)
  | [], node => pure (true, node)
  | p :: ps, node =>
    if node.undoPosNull p || !disk.readUndo p then pure (false, node)
    else do
      let root ← unapply node.view.root (node.undoRecord p)
      unwind disk ps ((node.setRoot root).setBest (index p).hash)

/-- The loop over `newVector`; the entry is the one that failed to connect. -/
def wind (disk : Disk) : List ℕ → Node → Exec (Option ℕ × Node)
  | [], node => pure (none, node)
  | p :: ps, node => do
    match ← apply H index disk node p with
    | (false, node) => pure (some p, node)
    | (true, node) => wind disk ps (node.setBest (index p).hash)

/-- `TrieView::Activate`: the verdict, what is written to `badBlock`, and the node. -/
def activate (disk : Disk) (node : Node) (pindex : Option ℕ) :
    Exec (Bool × Option UInt256 × Node) :=
  match pindex with
  | none => pure (false, some 0, node)
  | some p =>
    match mapBlockIndex node.view.bestBlock with
    | none => pure (false, some node.view.bestBlock, node)
    | some q => do
      let (oldVector, newVector) ← paths index p q
      match ← unwind index disk oldVector node with
      | (false, node) => pure (false, none, node)
      | (true, node) =>
        match ← wind H index disk newVector node with
        | (some bad, node) => pure (false, some (index bad).hash, node)
        | (none, node) => pure (true, none, node.setBest (index p).headerHash)

/-! ## Excursions -/

structure ActInfo where
  balance : UInt64
  age : UInt64
  limit : UInt64
  futurelimit : UInt64
  deriving DecidableEq, Repr

def ActInfo.zero : ActInfo := ⟨0, 0, 0, 0⟩

/-- The query of `BalancesAt` for one account. -/
def balanceInfo (nHeight : ℕ) (root : Option TrieNode) (key : UInt160) : ActInfo :=
  match TrieEngine.find key root with
  | none => .zero
  | some node =>
    { balance := node.data.balance
      age := node.data.age
      limit := if node.data.limit ≠ node.data.futureLimit ∧
          UInt64.ofNat nHeight - node.data.age > MIN_LIMIT_TIME then node.data.futureLimit
        else node.data.limit
      futurelimit := node.data.futureLimit }

/-- `TrieView::BalancesAt`; `disk` and `disk'` are for the way there and the way back. -/
def balancesAt (disk disk' : Disk) (node : Node) (pindex : Option ℕ) (hashes : List UInt160)
    (balances : List ActInfo) : Exec (Bool × List ActInfo × Node) := do
  let oldHash := node.view.bestBlock
  match ← activate H index mapBlockIndex disk node pindex with
  | (false, _, node) => pure (false, balances ++ hashes.map (fun _ ↦ .zero), node)
  | (true, _, node) =>
    let nHeight := (pindex.map fun p ↦ (index p).nHeight).getD 0
    let balances := balances ++ hashes.map (balanceInfo nHeight node.view.root)
    match mapBlockIndex oldHash with
    -- `mapBlockIndex.end()` is dereferenced
    | none => .error .nullDeref
    | some old =>
      let (_, _, node) ← activate H index mapBlockIndex disk' node (some old)
      pure (true, balances, node)

/-- `TrieView::GetSlice`: the number of bytes, the buffer, and the node. -/
def getSlice (disk disk' : Disk) (node : Node) (block : UInt256) (left right : UInt160) (sz : ℕ)
    (nodes : UInt32) : Exec (ℕ × SliceBuf × Node) :=
  match mapBlockIndex node.view.bestBlock, mapBlockIndex block with
  | some pOld, some pNew => do
    match ← activate H index mapBlockIndex disk node (some pNew) with
    | (false, _, node) => pure (0, ⟨[], nodes⟩, node)
    | (true, _, node) =>
      match node.view.root with
      | none => .error .nullDeref
      | some root =>
        let (ok, buf, root) ← subTrie H left right sz root 0 0 false ⟨[], nodes⟩
        let (_, _, node) ← activate H index mapBlockIndex disk' (node.setRoot (some root))
          (some pOld)
        pure (if ok then buf.out.length else 0, buf, node)
  | _, _ => pure (0, ⟨[], nodes⟩, node)

end Activate

end Cryptonite
