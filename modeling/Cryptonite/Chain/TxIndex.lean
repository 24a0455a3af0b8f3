import Cryptonite.Core.Validation
import Cryptonite.View.Apply

/-!
# The transaction index

Accounts have no nonces, so nothing in a payment keeps it from being made twice. What does is the
transaction index: `ConnectBlock` refuses a block with a transaction that is in the index, and adds
the transactions of the blocks it connects; `DisconnectBlock` takes them out again. The index would
grow forever, so `PurgeDB` erases the transactions of old blocks, and `IsFinalTx` is there to make
sure that a transaction that old is not accepted anyway: a transaction names the height from which
on it may be included, and `MIN_HISTORY` blocks later it is too late.

This module models the state these four share — the active chain, the index and which blocks are
on disk — and its steps. Whatever else `ConnectBlock` asks for, of the view, of the signatures and
of the size of a block, is a verdict that comes with the step; none of it reads or writes the index.
-/

namespace Cryptonite

/-- `MIN_HISTORY`, as `init.cpp` sets it. -/
def minHistory (testnet : Bool) : UInt64 := if testnet then 1000 else 10000

def isFinalTx (MIN_HISTORY : UInt64) (activeHeight : ℤ) (tx : Transaction) (nBlockHeight : ℤ) :
    Bool :=
  let nBlockHeight := if nBlockHeight = 0 then toInt32 activeHeight else nBlockHeight
  let nBlockHeight := if nBlockHeight < 0 then 0 else nBlockHeight
  if tx.nLockHeight.toInt64.toInt > nBlockHeight then false
  else if (tx.nLockHeight + MIN_HISTORY).toInt64.toInt < nBlockHeight then false
  else true

/-- What `ConnectBlock` writes for a transaction: the block, and the place in it. -/
structure TxPos where
  hashBlock : UInt256
  nTxOffset : ℕ
  deriving DecidableEq, Repr

/-- What does not change while the node runs. -/
structure ChainSetup where
  /-- `Hash`: double SHA-256. -/
  H : List UInt8 → UInt256
  /-- `MIN_HISTORY`. -/
  MIN_HISTORY : UInt64
  /-- `fTxIndex`. -/
  fTxIndex : Bool
  /-- `Params().HashGenesisBlock()`. -/
  hashGenesisBlock : UInt256
  /-- The block index. -/
  index : ℕ → BlockIndex
  /-- The entries of `mapBlockIndex`. -/
  entries : List ℕ

/-- The active chain, the transaction index, and what the block index knows of the files. -/
structure ChainState where
  /-- `chainActive`, the tip first. -/
  active : List ℕ
  /-- The `t` records of the block database. -/
  txIndex : UInt256 → Option TxPos
  /-- `nStatus & BLOCK_HAVE_DATA`. -/
  haveData : ℕ → Bool
  /-- `nStatus & BLOCK_HAVE_UNDO`. -/
  haveUndo : ℕ → Bool
  /-- `nFile`. -/
  nFile : ℕ → ℕ

namespace ChainState

/-- `chainActive.Height()`. -/
def height (s : ChainState) : ℤ := (s.active.length : ℤ) - 1

/-- The chain `InitBlockIndex` sets up: the genesis block, which `ConnectBlock` has not seen. -/
def initial (genesis : ℕ) : ChainState :=
  { active := [genesis], txIndex := fun _ ↦ none, haveData := fun _ ↦ false
    haveUndo := fun _ ↦ false, nFile := fun _ ↦ 0 }

end ChainState

/-- What the other checks of `ConnectBlock` read or return. -/
structure ConnectVerdicts where
  /-- `CheckProofOfWork(header.GetHash(), 1.0)`. -/
  checkProofOfWork : BlockHeader → Bool
  /-- `GetAdjustedTime()`. -/
  adjustedTime : ℤ
  /-- The trie of `pviewTip`. -/
  tip : Option TrieNode
  /-- Whether `block.hashPrevBlock` is in `mapBlockIndex`. -/
  prevFound : Bool
  /-- The comparison with `GetNextMaxSize`. -/
  sizeLimits : Bool
  /-- `pviewTip->HaveInputs`. -/
  haveInputs : Transaction → Bool
  /-- `CheckInputs`. -/
  checkInputs : Transaction → Bool
  /-- `WriteTxIndex`. -/
  writeTxIndex : Bool

namespace ChainSetup

variable (setup : ChainSetup)

def vtx (p : ℕ) : List Transaction := (setup.index p).block.vtx

def txid (tx : Transaction) : UInt256 := tx.getTxID setup.H

/-- `AcceptBlock`, from the check of the height on: the transactions are final, and the block goes
to a file. -/
def acceptBlock (s : ChainState) (p file : ℕ) : Option ChainState :=
  let nHeight := (setup.index p).nHeight
  if (setup.index p).hash ≠ setup.hashGenesisBlock ∧
      toInt32 nHeight ≠ toInt32 (setup.index p).block.nHeight.toNat then none
  else if (setup.vtx p).all fun tx ↦
      isFinalTx setup.MIN_HISTORY s.height tx (toInt32 nHeight) then
    some { s with haveData := Function.update s.haveData p true
                  haveUndo := Function.update s.haveUndo p false
                  nFile := Function.update s.nFile p file }
  else none

/-- `WriteTxIndex(vPos)`. -/
def writeTxIndex (p : ℕ) (txIndex : UInt256 → Option TxPos) : UInt256 → Option TxPos :=
  ((setup.vtx p).zipIdx).foldl (fun txIndex (tx, i) ↦
    Function.update txIndex (setup.txid tx) (some ⟨(setup.index p).hash, i⟩)) txIndex

/-- `EraseTxIndex` for some of the transactions of a block. -/
def eraseTxIndex (vtx : List Transaction) (txIndex : UInt256 → Option TxPos) :
    UInt256 → Option TxPos :=
  vtx.foldl (fun txIndex tx ↦ Function.update txIndex (setup.txid tx) none) txIndex

/-- The loop of `ConnectBlock` over the transactions, one round. -/
def connectTx (s : ChainState) (v : ConnectVerdicts) (p : ℕ) (tx : Transaction) : Bool :=
  decide ((setup.index p).hash = setup.hashGenesisBlock) || tx.isCoinBase ||
    (v.haveInputs tx && tx.getFee.isOk && v.checkInputs tx && (s.txIndex (setup.txid tx)).isNone)

/-- `ConnectBlock` on a block that is to be connected, outside of loading: the index after it, or
nothing if the block is refused. -/
def connectBlock (s : ChainState) (v : ConnectVerdicts) (p : ℕ) :
    Option (UInt256 → Option TxPos) :=
  let hashOf (q : Option ℕ) : UInt256 := (q.map fun q ↦ (setup.index q).hash).getD 0
  let env : Surroundings := ⟨setup.H, v.checkProofOfWork, v.adjustedTime, v.tip⟩
  if checkBlock env true true (setup.index p).block ≠ .ok () then none
  else if hashOf (setup.index p).pprev ≠ hashOf s.active.head? then none
  else if !v.prevFound || !v.sizeLimits then none
  else if !(setup.vtx p).all (setup.connectTx s v p) then none
  else if setup.fTxIndex then
    if v.writeTxIndex then some (setup.writeTxIndex p s.txIndex) else none
  else some s.txIndex

/-- `ConnectTip`, on a block `ActivateBestChainStep` found on disk. -/
def connectTip (s : ChainState) (v : ConnectVerdicts) (p : ℕ) : Option ChainState :=
  if !s.haveData p ∨ (setup.index p).pprev ≠ s.active.head? then none
  else (setup.connectBlock s v p).map fun txIndex ↦
    { s with active := p :: s.active, txIndex }

/-- `DisconnectTip`. An entry that cannot be erased is only logged. -/
def disconnectTip (s : ChainState) (erased : Transaction → Bool) : Option ChainState :=
  match s.active with
  | [] => none
  | p :: active =>
    if s.haveData p then
      some { s with active, txIndex := setup.eraseTxIndex ((setup.vtx p).filter erased) s.txIndex }
    else none

/-- `(int64_t)MIN_HISTORY`. -/
def history : ℤ := setup.MIN_HISTORY.toInt64.toInt

/-- The block is within `MIN_HISTORY` of the tip. -/
def recent (s : ChainState) (p : ℕ) : Bool :=
  decide ((setup.index p).nHeight + setup.history ≥ s.height)

/-- `setNeed`: the files with blocks that are still in view. -/
def setNeed (s : ChainState) : List ℕ :=
  (setup.entries.filter fun p ↦ setup.recent s p && (s.haveData p || s.haveUndo p)).map s.nFile

/-- `setDelete`: the older blocks of the other files. -/
def setDelete (s : ChainState) : List ℕ :=
  setup.entries.filter fun p ↦ !setup.recent s p && (s.haveData p || s.haveUndo p) &&
    !(setup.setNeed s).contains (s.nFile p)

/-- `PurgeDB`, once the chain is loaded. A block that cannot be read has no transactions to
erase. -/
def purgeDB (s : ChainState) (readable : ℕ → Bool) : ChainState :=
  if s.height ≤ setup.history then s
  else
    let deleted := setup.setDelete s
    { s with
      txIndex := setup.eraseTxIndex ((deleted.filter readable).flatMap setup.vtx) s.txIndex
      haveData := fun p ↦ s.haveData p && !deleted.contains p
      haveUndo := fun p ↦ s.haveUndo p && !deleted.contains p }

end ChainSetup

/-- The steps of a running node. -/
inductive ChainStep where
  /-- A block arrives and goes to a file. -/
  | accept (p file : ℕ)
  /-- The undo record of a block is written. -/
  | writeUndo (p : ℕ)
  /-- A block becomes the tip. -/
  | connect (v : ConnectVerdicts) (p : ℕ)
  /-- The tip is taken off. -/
  | disconnect (erased : Transaction → Bool)
  /-- History is purged. -/
  | purge (readable : ℕ → Bool)

/-- One step; nothing if the node refuses it. -/
def ChainSetup.step (setup : ChainSetup) (s : ChainState) : ChainStep → Option ChainState
  | .accept p file => setup.acceptBlock s p file
  | .writeUndo p =>
    if s.haveData p then some { s with haveUndo := Function.update s.haveUndo p true } else none
  | .connect v p => setup.connectTip s v p
  | .disconnect erased => setup.disconnectTip s erased
  | .purge readable => some (setup.purgeDB s readable)

def ChainSetup.run (setup : ChainSetup) (s : ChainState) : List ChainStep → Option ChainState
  | [] => some s
  | step :: steps => (setup.step s step).bind fun s ↦ setup.run s steps

theorem ChainSetup.run_append {setup : ChainSetup} (steps steps' : List ChainStep)
    (s : ChainState) :
    setup.run s (steps ++ steps') = (setup.run s steps).bind fun s ↦ setup.run s steps' := by
  induction steps generalizing s with
  | nil => rfl
  | cons step steps ih =>
    rw [List.cons_append, ChainSetup.run, ChainSetup.run, Option.bind_assoc]
    exact congrArg _ (funext ih)

end Cryptonite
