import Cryptonite.Core.Transaction
import Cryptonite.Trie.Engine

/-!
# Applying and unapplying a block

`TrieView::TempApply`, `Unapply` and `HashForBlock` of `trieview.cpp`. `TempApply` works through the
transactions of a block, each input a withdrawal and each output a deposit, on the trie itself, and
appends to the undo list as it goes. It can stop at any input by returning `false`, with the trie
and the list as they are at that moment; only when it gets to the end does it reverse the list.

The amount `GetBlockValue` returns is not determined when the subsidy is zero (`mpzGetUii`), so
`junk i` stands for what the call made for the `i`-th transaction reads from the stack.
-/

namespace Cryptonite

/-! ## The undo record -/

structure TxUndo where
  key : UInt160
  balance : UInt64
  age : UInt64
  limit : UInt64
  futureLimit : UInt64
  create : Bool
  destroy : Bool
  deriving DecidableEq, Repr

namespace TxUndo

def new (key : UInt160) : TxUndo := ⟨key, 0, 0, 0, 0, false, false⟩

/-- `CTxUndo(key)` with the fields of an account copied in. -/
def ofAccount (key : UInt160) (a : AccountData) : TxUndo :=
  { new key with
    balance := a.balance, age := a.age, limit := a.limit, futureLimit := a.futureLimit }

/-- The account an undo record holds. -/
def account (undo : TxUndo) : AccountData :=
  { age := undo.age, balance := undo.balance, limit := undo.limit,
    futureLimit := undo.futureLimit }

end TxUndo

/-! ## TempApply -/

/-- The local variables of `TempApply` that one input leaves for the next. -/
structure Book where
  /-- `limits`: what each account may still withdraw in this block. -/
  limits : UInt160 → Option UInt64
  /-- `setLimit`: accounts whose limit this block has set. -/
  setLimit : List UInt160
  /-- `setTxIn`: accounts this block has withdrawn from. -/
  setTxIn : List UInt160

/-- The state `TempApply` works on. -/
structure Applying where
  /-- `m_root`. -/
  root : Option TrieNode
  /-- The local variables. -/
  book : Book
  /-- `undos`, in the order of `push_back`. -/
  undos : List TxUndo

/-- The empty local variables. -/
def Book.empty : Book := ⟨fun _ ↦ none, [], []⟩

/-- The limit check of an input: the allowances after it, or nothing if it is past the limit. -/
def checkLimit (fSetLimit : Bool) (limits : UInt160 → Option UInt64) (key : UInt160)
    (limit nValue : UInt64) : Option (UInt160 → Option UInt64) :=
  if fSetLimit then some limits
  else
    match limits key with
    | none =>
      if nValue > limit then none
      else some (Function.update limits key (some (limit - nValue)))
    | some allowance =>
      if nValue > allowance then none
      else some (Function.update limits key (some (allowance - nValue)))

/-- What a withdrawal leaves for later inputs. -/
def Book.note (book : Book) (tx : Transaction) (key : UInt160) (limits : UInt160 → Option UInt64) :
    Book :=
  if tx.fSetLimit then { book with limits, setLimit := key :: book.setLimit }
  else { book with limits, setTxIn := key :: book.setTxIn }

variable {limits limits' : UInt160 → Option UInt64} {limit nValue : UInt64}

/-- The limit check of a payment: what is left of the allowance, or of the limit if nothing has been
withdrawn yet, covers the amount. -/
theorem checkLimit_eq_some_iff {key : UInt160} :
    checkLimit false limits key limit nValue = some limits' ↔ nValue ≤ (limits key).getD limit ∧
        limits' = Function.update limits key (some ((limits key).getD limit - nValue)) := by
  have hsplit : ∀ allowance : UInt64, (if nValue > allowance then none
      else some (Function.update limits key (some (allowance - nValue)))) = some limits' ↔
        nValue ≤ allowance ∧ limits' = Function.update limits key (some (allowance - nValue)) := by
    intro allowance
    rw [Option.ite_none_left_eq_some, gt_iff_lt, UInt64.not_lt, Option.some_inj, eq_comm]
  rw [checkLimit, if_neg Bool.false_ne_true]
  rcases limits key with _ | allowance
  · exact hsplit limit
  · exact hsplit allowance

theorem checkLimit_of_ne {fSetLimit : Bool} {k k' : UInt160} (hne : k' ≠ k)
    (h : checkLimit fSetLimit limits k' limit nValue = some limits') : limits' k = limits k := by
  cases fSetLimit with
  | true => exact (congrFun (Option.some.inj h) k).symm
  | false =>
    obtain ⟨-, rfl⟩ := checkLimit_eq_some_iff.mp h
    exact Function.update_of_ne hne.symm _ _

@[simp] theorem Book.limits_note (book : Book) (tx : Transaction) (k : UInt160)
    (limits : UInt160 → Option UInt64) : (book.note tx k limits).limits = limits := by
  rw [Book.note]
  split <;> rfl

theorem Book.notMem_note {book : Book} {tx : Transaction} {k k' : UInt160}
    {limits : UInt160 → Option UInt64} (hk : k' ≠ k) (hset : k' ∉ book.setLimit)
    (hin : k' ∉ book.setTxIn) :
    k' ∉ (book.note tx k limits).setLimit ∧ k' ∉ (book.note tx k limits).setTxIn := by
  rw [Book.note]
  split <;> simp [hk, hset, hin]

/-- The updates of the account once nothing can fail any more. -/
def settle (nHeight : UInt64) (tx : Transaction) (nValue : UInt64) (node : LeafPtr) : LeafPtr :=
  let node := if nHeight - node.data.age > MIN_LIMIT_TIME then
    node.setLimit node.data.futureLimit else node
  let node := if tx.fSetLimit then
      let node := node.setFutureLimit tx.nLimitValue
      -- a lowered limit is in force at once
      if node.data.futureLimit < node.data.limit then node.setLimit node.data.futureLimit
      else node
    else node
  let node := node.setAge nHeight
  node.setBalance (node.data.balance - nValue)

def withdraw (nHeight : UInt64) (tx : Transaction) (s : Applying) (txin : TxIn) : Bool × Applying :=
  match TrieEngine.find txin.pubKey s.root with
  | none => (false, s)
  | some node =>
    let undo := TxUndo.ofAccount node.key node.data
    match checkLimit tx.fSetLimit s.book.limits node.key node.data.limit txin.nValue with
    | none => (false, s)
    | some limits =>
      if txin.nValue > node.data.balance then (false, s)
      else if !tx.fSetLimit && s.book.setLimit.contains txin.pubKey then (false, s)
      else if tx.fSetLimit && decide (tx.nLimitValue < node.data.limit) &&
          s.book.setTxIn.contains txin.pubKey then (false, s)
      else if decide (nHeight - node.data.age > MIN_LIMIT_TIME) &&
          (node.data.futureLimit != node.data.limit && s.book.setTxIn.contains txin.pubKey) then
        (false, s)
      else
        let node := settle nHeight tx txin.nValue node
        let book := s.book.note tx txin.pubKey limits
        if node.data.balance < MIN_BALANCE then
          (true, ⟨TrieEngine.remove node, book, s.undos ++ [{ undo with destroy := true }]⟩)
        else (true, ⟨some node.root, book, s.undos ++ [undo]⟩)

/-- The inputs of a transaction, up to the first that fails. -/
def withdrawAll (nHeight : UInt64) (tx : Transaction) : List TxIn → Applying → Bool × Applying
  | [], s => (true, s)
  | txin :: vin, s =>
    match withdraw nHeight tx s txin with
    | (false, s) => (false, s)
    | (true, s) => withdrawAll nHeight tx vin s

def deposit (nHeight : UInt64) (s : Applying) (txout : TxOut) : Exec Applying :=
  match TrieEngine.find txout.pubKey s.root with
  | some node =>
    .ok { s with
      root := some (node.setBalance (node.data.balance + txout.nValue)).root
      undos := s.undos ++ [TxUndo.ofAccount node.key node.data] }
  | none => do
    let node := Leaf.new txout.pubKey
      { AccountData.init with
        age := nHeight, balance := AccountData.init.balance + txout.nValue }
    let root ← TrieEngine.insert s.root node
    pure { s with
      root := some root
      undos := s.undos ++ [{ TxUndo.new node.key with create := true }] }

/-- The balance of the account `Find` returns, zero if it returns null. -/
def balanceAt (key : UInt160) (root : Option TrieNode) : UInt64 :=
  match TrieEngine.find key root with
  | some node => node.data.balance
  | none => 0

/-- `TrieView::Limit`: a raise of the limit that is due counts. -/
def limitAt (key : UInt160) (height : UInt64) (root : Option TrieNode) : Option UInt64 :=
  (TrieEngine.find key root).map fun node ↦
    if node.data.limit ≠ node.data.futureLimit ∧ height - node.data.age > MIN_LIMIT_TIME then
      node.data.futureLimit
    else node.data.limit

/-- The payout check at the head of a coinbase transaction. -/
def coinbaseAllowed (junk : UInt64) (block : Block) (root : Option TrieNode) (tx : Transaction) :
    Exec Bool :=
  if tx.isCoinBase then do
    let coinb := balanceAt 0 root
    match tx.vout with
    | [] => .error .outOfBounds
    | txout :: _ =>
      let fees ← block.getFees
      pure (!decide (txout.nValue > getBlockValue junk coinb fees))
  else pure true

def applyTx (junk : UInt64) (block : Block) (s : Applying) (tx : Transaction) :
    Exec (Bool × Applying) := do
  if ← coinbaseAllowed junk block s.root tx then
    match withdrawAll block.nHeight tx tx.vin s with
    | (false, s) => pure (false, s)
    | (true, s) =>
      let s ← tx.vout.foldlM (deposit block.nHeight) s
      pure (true, s)
  else pure (false, s)

/-- The transactions from the `i`-th on, up to the first that fails. -/
def applyTxs (junk : ℕ → UInt64) (block : Block) : ℕ → List Transaction → Applying →
    Exec (Bool × Applying)
  | _, [], s => pure (true, s)
  | i, tx :: vtx, s => do
    match ← applyTx (junk i) block s tx with
    | (false, s) => pure (false, s)
    | (true, s) => applyTxs junk block (i + 1) vtx s

/-- `TrieView::TempApply`: the verdict, `m_root` and `undos`. -/
def tempApply (junk : ℕ → UInt64) (root : Option TrieNode) (block : Block) :
    Exec (Bool × Option TrieNode × List TxUndo) := do
  match ← applyTxs junk block 0 block.vtx { root, book := Book.empty, undos := [] } with
  | (false, s) => pure (false, s.root, s.undos)
  | (true, s) => pure (true, s.root, s.undos.reverse)

/-! ## Unapply -/

def unapplyOne (root : Option TrieNode) (undo : TxUndo) : Exec (Option TrieNode) :=
  if undo.create then
    match TrieEngine.find undo.key root with
    | none => .ok root
    | some node => .ok (TrieEngine.remove node)
  else if undo.destroy then
    (TrieEngine.insert root (Leaf.new undo.key undo.account)).map some
  else
    match TrieEngine.find undo.key root with
    | none => .error .nullDeref
    | some node =>
      .ok (some (((((node.setAge undo.age).setKey undo.key).setBalance undo.balance).setLimit
        undo.limit).setFutureLimit undo.futureLimit).root)

def unapply (root : Option TrieNode) (undos : List TxUndo) : Exec (Option TrieNode) :=
  undos.foldlM unapplyOne root

/-! ## HashForBlock -/

/-- `TrieView`: the trie and the block it is labelled with. -/
structure TrieView where
  /-- `m_root`. -/
  root : Option TrieNode
  /-- `m_bestBlock`. -/
  bestBlock : UInt256

/-- `m_root->Hash()`. -/
def rootHash (H : List UInt8 → UInt256) : Option TrieNode → Exec (UInt256 × TrieNode)
  | none => .error .nullDeref
  | some t => .ok (TrieNode.hash H t)

/-- `TrieView::HashForBlock`: the hash if it returns true, and the view afterwards. -/
def hashForBlock (H : List UInt8 → UInt256) (junk : ℕ → UInt64) (view : TrieView)
    (block : Block) : Exec (Option UInt256 × TrieView) :=
  if view.bestBlock ≠ block.hashPrevBlock then .ok (none, view)
  else do
    match ← tempApply junk view.root block with
    | (false, root, undos) =>
      let root ← unapply root undos
      pure (none, { view with root })
    | (true, root, undos) =>
      let (hash, t) ← rootHash H root
      let root ← unapply (some t) undos
      pure (some hash, { view with root })

end Cryptonite
