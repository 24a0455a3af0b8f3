import Cryptonite.Core.Serialize
import Cryptonite.Foundation.UndoLog
import Cryptonite.View.TempApply

/-!
# The context-free checks

`CheckTransaction`, `CheckBlockHeader`, `CheckBlock` and `CheckInputs` of `main.cpp`, with
`VerifyScript` of `script.cpp`. A check that passes is `.ok ()`. A check that does not is an error
that says how: it returned `false` with a rejection written to the `CValidationState`, it returned
`false` and wrote nothing, or it did not return.

`CheckTransaction` wraps `GetValueOut` and `GetValueIn` in `try … catch (int e)`. They throw
`std::runtime_error`, which that does not catch, so the two rejections written there are never
reached and the exception leaves `CheckTransaction`.
-/

namespace Cryptonite

open Codec

/-! ## Verdicts -/

inductive RejectCode where
  /-- The default argument. -/
  | none
  | invalid
  | duplicate
  | nonstandard
  | insufficientFee
  deriving DecidableEq, Repr

/-- What a failed check writes to the `CValidationState`. -/
structure Rejection where
  nDoS : ℕ
  chRejectCode : RejectCode
  strRejectReason : String
  corruptionPossible : Bool
  deriving DecidableEq, Repr

/-- How a check can end other than by returning `true`. -/
inductive Refusal where
  /-- It returns `false` and says why. -/
  | rejected (r : Rejection)
  /-- It returns `false` and leaves the state alone. -/
  | failed
  /-- It does not return. -/
  | fault (f : Fault)
  deriving DecidableEq, Repr

abbrev Check := Except Refusal

namespace Check

/-- `if (c) return state.DoS(nDoS, …, code, reason, corruption)`. -/
def rejectIf (c : Bool) (r : Rejection) : Check Unit := if c then .error (.rejected r) else .ok ()

/-- A call made in a check. -/
def call {α : Type} : Exec α → Check α
  | .ok a => .ok a
  | .error f => .error (.fault f)

variable {c : Bool} {r : Rejection} {α : Type} {f : Fault}

@[simp] theorem rejectIf_eq_ok_iff {u : Unit} : rejectIf c r = .ok u ↔ c = false := by
  rcases c <;> simp [rejectIf]

@[simp] theorem call_eq_ok_iff {x : Exec α} {a : α} : call x = .ok a ↔ x = .ok a := by
  rcases x <;> simp [call]

@[simp] theorem rejectIf_ne_fault : rejectIf c r ≠ .error (.fault f) := by
  rcases c <;> simp [rejectIf]

@[simp] theorem call_eq_fault_iff {x : Exec α} : call x = .error (.fault f) ↔ x = .error f := by
  rcases x <;> simp [call]

theorem forM_eq_ok_iff {f : α → Check Unit} {l : List α} :
    forM l f = .ok () ↔ ∀ a ∈ l, f a = .ok () := by
  induction l with
  | nil => simp [pure, Except.pure]
  | cons a l ih =>
    rw [List.forM_cons, Except.bind_eq_ok_iff, List.forall_mem_cons, ih]
    exact ⟨fun ⟨(), h⟩ ↦ h, fun h ↦ ⟨(), h⟩⟩

end Check

/-- A rejection as `CheckTransaction` and `CheckBlock` write most of theirs. -/
def Rejection.invalid (nDoS : ℕ) (reason : String) : Rejection := ⟨nDoS, .invalid, reason, false⟩

open Check

/-! ## Transactions -/

/-- The end of `CheckTransaction`: what a coinbase must not have, and what nothing else may. -/
def checkCoinBase (tx : Transaction) : Check Unit :=
  if tx.isCoinBase then do
    rejectIf (tx.vin.any fun txin ↦ txin.scriptSig.length != 0) (.invalid 100 "bad-cb-length")
    rejectIf (tx.vout.length != 1) (.invalid 100 "bad-cb-output")
  else rejectIf (tx.vin.any TxIn.isNull) (.invalid 10 "bad-txns-input-null")

/-- `CheckTransaction`; `tip` is the trie of `pviewTip`. -/
def checkTransaction (tip : Option TrieNode) (tx : Transaction) : Check Unit := do
  rejectIf tx.vin.isEmpty (.invalid 10 "bad-txns-vin-empty")
  rejectIf tx.vout.isEmpty (.invalid 10 "bad-txns-vout-empty")
  let bytes ← call tx.serialize
  rejectIf (decide (MAX_BLOCK_SIZE < bytes.length)) (.invalid 100 "bad-txns-oversize")
  let nValueOut ← call tx.getValueOut
  let nValueIn ← call tx.getValueIn
  rejectIf (decide (nValueIn < nValueOut)) (.invalid 100 "bad-txns-makes-money")
  rejectIf (decide (MAX_MSG_SIZE < tx.msg.length)) (.invalid 100 "bad-txns-msg-length")
  rejectIf (!tx.isCoinBase && tx.vin.any fun txin ↦
    decide (1800000000 * COIN < balanceAt txin.pubKey tip))
    (.invalid 100 "bad-txns-txintotal-toolarge")
  rejectIf (!decide (tx.vin.map TxIn.pubKey).Nodup) (.invalid 100 "bad-txns-inputs-duplicate")
  rejectIf (!decide (tx.vout.map TxOut.pubKey).Nodup) (.invalid 100 "bad-txns-output-duplicate")
  checkCoinBase tx

/-- What `CheckTransaction` asks of a transaction. -/
structure Transaction.WellFormed (tip : Option TrieNode) (tx : Transaction) : Prop where
  vin_ne_nil : tx.vin ≠ []
  vout_ne_nil : tx.vout ≠ []
  size_le : ∃ bytes, tx.serialize = .ok bytes ∧ bytes.length ≤ MAX_BLOCK_SIZE
  valueIn_le : exactSum (tx.vin.map TxIn.nValue) ≤ MAX_MONEY.toNat
  valueOut_le : exactSum (tx.vout.map TxOut.nValue) ≤ exactSum (tx.vin.map TxIn.nValue)
  msg_le : tx.msg.length ≤ MAX_MSG_SIZE
  balance_le : tx.isCoinBase = false →
    ∀ txin ∈ tx.vin, balanceAt txin.pubKey tip ≤ 1800000000 * COIN
  nodup_vin : (tx.vin.map TxIn.pubKey).Nodup
  nodup_vout : (tx.vout.map TxOut.pubKey).Nodup
  scriptSig_eq_nil : tx.isCoinBase = true → ∀ txin ∈ tx.vin, txin.scriptSig = []
  length_vout : tx.isCoinBase = true → tx.vout.length = 1
  not_isNull : tx.isCoinBase = false → ∀ txin ∈ tx.vin, txin.isNull = false

variable {tx : Transaction} {tip : Option TrieNode} {f : Fault} {block : Block}

theorem checkCoinBase_eq_ok_iff : checkCoinBase tx = .ok () ↔
    (tx.isCoinBase = true → (∀ txin ∈ tx.vin, txin.scriptSig = []) ∧ tx.vout.length = 1) ∧
    (tx.isCoinBase = false → ∀ txin ∈ tx.vin, txin.isNull = false) := by
  rw [checkCoinBase]
  split
  · next h => simp [h, Except.bind_eq_ok_iff]
  · next h => simp [h]

/-- **CheckTransaction.** A transaction passes exactly when it is well formed. -/
theorem checkTransaction_eq_ok_iff : checkTransaction tip tx = .ok () ↔ tx.WellFormed tip := by
  simp only [checkTransaction, Except.bind_eq_ok_iff, rejectIf_eq_ok_iff, call_eq_ok_iff,
    Transaction.getValueOut, Transaction.getValueIn, sumValues_eq_ok_iff, exists_const,
    List.isEmpty_eq_false_iff, decide_eq_false_iff_not, not_lt, Bool.not_eq_false',
    decide_eq_true_eq, Bool.and_eq_false_iff, List.any_eq_false, checkCoinBase_eq_ok_iff]
  constructor
  · rintro ⟨hin, hout, bytes, hbytes, hsize, valueOut, ⟨-, hvo⟩, valueIn, ⟨hvi, hvi'⟩, hle, hmsg,
      hbal, hnin, hnout, hcb, hncb⟩
    rw [UInt64.lt_iff_toNat_lt, not_lt, hvo, hvi'] at hle
    refine ⟨hin, hout, ⟨bytes, hbytes, hsize⟩, hvi, hle, hmsg, fun h txin htxin ↦ ?_, hnin, hnout,
      fun h ↦ (hcb h).1, fun h ↦ (hcb h).2, hncb⟩
    exact UInt64.not_lt.mp (hbal.resolve_left (by simp [h]) txin htxin)
  · rintro ⟨hin, hout, ⟨bytes, hbytes, hsize⟩, hvi, hle, hmsg, hbal, hnin, hnout, hsig, hlen, hncb⟩
    refine ⟨hin, hout, bytes, hbytes, hsize, _,
      ⟨hle.trans hvi, toNat_ofNat_exactSum (hle.trans hvi)⟩, _,
      ⟨hvi, toNat_ofNat_exactSum hvi⟩, ?_, hmsg, ?_, hnin, hnout,
      fun h ↦ ⟨hsig h, hlen h⟩, hncb⟩
    · rwa [UInt64.lt_iff_toNat_lt, not_lt, toNat_ofNat_exactSum hvi,
        toNat_ofNat_exactSum (hle.trans hvi)]
    · refine (Bool.eq_false_or_eq_true tx.isCoinBase).imp_right fun h txin htxin ↦ ?_
      exact UInt64.not_lt.mpr (hbal h txin htxin)

theorem Transaction.serialize_ne_error (hin : tx.vin ≠ []) (hout : tx.vout ≠ [])
    (f : Fault) : tx.serialize ≠ .error f := by
  obtain ⟨txin, vin, hvin⟩ := List.exists_cons_of_ne_nil hin
  obtain ⟨txout, vout, hvout⟩ := List.exists_cons_of_ne_nil hout
  rw [serialize, wireParts, hvin, hvout]
  cases tx.fSetLimit <;> simp [bind, Except.bind, pure, Except.pure]

theorem checkCoinBase_ne_fault : checkCoinBase tx ≠ .error (.fault f) := by
  rw [checkCoinBase]
  split <;> simp [Except.bind_eq_error_iff]

/-- An exception leaves `CheckTransaction` iff one of the two sums is out of range and the checks
before have passed. -/
theorem checkTransaction_eq_fault_iff :
    checkTransaction tip tx = .error (.fault f) ↔ f = .runtimeError ∧
      (tx.vin ≠ [] ∧ tx.vout ≠ [] ∧
        ∃ bytes, tx.serialize = .ok bytes ∧ bytes.length ≤ MAX_BLOCK_SIZE) ∧
      (MAX_MONEY.toNat < exactSum (tx.vout.map TxOut.nValue) ∨
        MAX_MONEY.toNat < exactSum (tx.vin.map TxIn.nValue)) := by
  simp only [checkTransaction, Except.bind_eq_error_iff, rejectIf_ne_fault, rejectIf_eq_ok_iff,
    call_eq_fault_iff, call_eq_ok_iff, Transaction.getValueOut, Transaction.getValueIn,
    sumValues_eq_error_iff, sumValues_eq_ok_iff, checkCoinBase_ne_fault, false_or, exists_const,
    and_false, or_false, List.isEmpty_eq_false_iff, decide_eq_false_iff_not, not_lt]
  constructor
  · rintro ⟨hin, hout, herror | ⟨bytes, hbytes, hsize, hsum⟩⟩
    · exact absurd herror (Transaction.serialize_ne_error hin hout f)
    · refine ⟨?_, ⟨hin, hout, bytes, hbytes, hsize⟩, ?_⟩
      · rcases hsum with ⟨hf, -⟩ | ⟨-, -, hf, -⟩
        · exact hf
        · exact hf
      · exact hsum.imp And.right fun ⟨_, _, h⟩ ↦ h.2
  · rintro ⟨rfl, ⟨hin, hout, bytes, hbytes, hsize⟩, hsum⟩
    refine ⟨hin, hout, .inr ⟨bytes, hbytes, hsize, ?_⟩⟩
    rcases lt_or_ge MAX_MONEY.toNat (exactSum (tx.vout.map TxOut.nValue)) with hout | hout
    · exact .inl ⟨rfl, hout⟩
    · exact .inr ⟨_, ⟨hout, toNat_ofNat_exactSum hout⟩, rfl, hsum.resolve_left (not_lt.mpr hout)⟩

/-- **Value checks.** `CheckTransaction` returns, and if it returns true the outputs are at most the
inputs and these at most `MAX_MONEY`, iff both sums are within `MAX_MONEY` or the transaction is
rejected before they are taken. -/
theorem checkTransaction_verdict_iff {tip : Option TrieNode} {tx : Transaction} :
    ((∀ f, checkTransaction tip tx ≠ .error (.fault f)) ∧
      (checkTransaction tip tx = .ok () →
        exactSum (tx.vout.map TxOut.nValue) ≤ exactSum (tx.vin.map TxIn.nValue) ∧
        exactSum (tx.vin.map TxIn.nValue) ≤ MAX_MONEY.toNat)) ↔
    tx.vin = [] ∨ tx.vout = [] ∨
      (∀ bytes, tx.serialize = .ok bytes → MAX_BLOCK_SIZE < bytes.length) ∨
      exactSum (tx.vout.map TxOut.nValue) ≤ MAX_MONEY.toNat ∧
        exactSum (tx.vin.map TxIn.nValue) ≤ MAX_MONEY.toNat := by
  have hexact : checkTransaction tip tx = .ok () →
      exactSum (tx.vout.map TxOut.nValue) ≤ exactSum (tx.vin.map TxIn.nValue) ∧
      exactSum (tx.vin.map TxIn.nValue) ≤ MAX_MONEY.toNat := fun h ↦
    ⟨(checkTransaction_eq_ok_iff.mp h).valueOut_le, (checkTransaction_eq_ok_iff.mp h).valueIn_le⟩
  simp only [and_iff_left hexact, ne_eq, checkTransaction_eq_fault_iff, not_and, forall_eq]
  rw [not_or, not_lt, not_lt]
  constructor
  · intro hsum
    by_contra hcon
    push Not at hcon
    obtain ⟨hin, hout, hsize, hover⟩ := hcon
    obtain ⟨hvo, hvi⟩ := hsum ⟨hin, hout, hsize⟩
    exact absurd hvi (not_le.mpr (hover hvo))
  · rintro (hin | hout | hsize | hsum) ⟨hin', hout', bytes, hbytes, hle⟩
    · exact absurd hin hin'
    · exact absurd hout hout'
    · exact absurd (hsize bytes hbytes) (not_lt.mpr hle)
    · exact hsum

/-- The values of a transaction with an input of the largest number there is are not in range, and
nobody says so. -/
theorem checkTransaction_throws :
    checkTransaction none ⟨1, [⟨0xFFFFFFFFFFFFFFFF, 5, []⟩], [⟨1, 6⟩], [], 1, 0, false⟩ =
        .error (.fault .runtimeError) ∧
      checkTransaction none ⟨1, [⟨1, 5, []⟩], [⟨0xFFFFFFFFFFFFFFFF, 6⟩], [], 1, 0, false⟩ =
        .error (.fault .runtimeError) := by
  decide


/-! ## Blocks -/

/-- What the checks of a block read besides the block. -/
structure Surroundings where
  /-- `Hash`: double SHA-256. -/
  H : List UInt8 → UInt256
  /-- `CheckProofOfWork(header.GetHash(), 1.0)`. -/
  checkProofOfWork : BlockHeader → Bool
  /-- `GetAdjustedTime()`. -/
  adjustedTime : ℤ
  /-- The trie of `pviewTip`. -/
  tip : Option TrieNode

def checkBlockHeader (env : Surroundings) (fCheckPOW : Bool) (header : BlockHeader) :
    Check Unit := do
  rejectIf (fCheckPOW && !env.checkProofOfWork header) (.invalid 50 "high-hash")
  -- `GetBlockTime` is a signed number
  rejectIf (decide (header.nTime.toInt64.toInt > env.adjustedTime + 2 * 60 * 60))
    ⟨0, .none, "", false⟩

/-- The transactions of a block; those of the genesis block are not looked at. -/
def checkTransactions (tip : Option TrieNode) (block : Block) : Check Unit :=
  if block.nHeight != 0 then forM block.vtx (checkTransaction tip) else .ok ()

/-- The sets `setLimit` and `setWD` after one more transaction. -/
def noteOverlap (sets : List UInt160 × List UInt160) (tx : Transaction) :
    Check (List UInt160 × List UInt160) :=
  if tx.fSetLimit then
    match tx.vin with
    | [] => .error (.fault .outOfBounds)
    | txin :: _ =>
      if sets.1.contains txin.pubKey || sets.2.contains txin.pubKey then .error .failed
      else .ok (txin.pubKey :: sets.1, sets.2)
  else if tx.vin.any fun txin ↦ sets.1.contains txin.pubKey then .error .failed
  else .ok (sets.1, tx.vin.map TxIn.pubKey ++ sets.2)

/-- One level of the Merkle tree; an odd last node is paired with itself. -/
def merkleLevel (H : List UInt8 → UInt256) : List UInt256 → List UInt256
  | a :: b :: level => H (leBytes 32 a.toNat ++ leBytes 32 b.toNat) :: merkleLevel H level
  | [a] => [H (leBytes 32 a.toNat ++ leBytes 32 a.toNat)]
  | [] => []

/-- The loop of `BuildMerkleTree`, for at most `n` levels: the root. -/
def merkleRoot (H : List UInt8 → UInt256) : ℕ → List UInt256 → UInt256
  | _, [] => 0
  | _, [a] => a
  | 0, a :: _ => a
  | n + 1, level => merkleRoot H n (merkleLevel H level)

/-- `BuildMerkleTree`. Every level is about half as long as the one below, so there are fewer of
them than transactions. -/
def buildMerkleTree (H : List UInt8 → UInt256) (vtx : List Transaction) : Exec UInt256 := do
  let leaves ← vtx.mapM (Transaction.getHash H)
  pure (merkleRoot H leaves.length leaves)

def checkBlock (env : Surroundings) (fCheckPOW fCheckMerkleRoot : Bool) (block : Block) :
    Check Unit := do
  checkBlockHeader env fCheckPOW block.toBlockHeader
  match block.vtx with
  | [] => .error (.rejected (.invalid 100 "bad-blk-length"))
  | first :: _ =>
    rejectIf (!first.isCoinBase && block.nHeight != 0) (.invalid 100 "bad-cb-missing")
    rejectIf (first.nLockHeight != block.nHeight) (.invalid 100 "bad-cb-height")
    checkTransactions env.tip block
    let _ ← block.vtx.foldlM noteOverlap ([], [])
    let root ← call (buildMerkleTree env.H block.vtx)
    rejectIf (!decide (block.vtx.map (Transaction.getTxID env.H)).Nodup)
      ⟨100, .invalid, "bad-txns-duplicate", true⟩
    rejectIf (fCheckMerkleRoot && block.hashMerkleRoot != root)
      ⟨100, .invalid, "bad-txnmrklroot", true⟩

/-! ## What the checks of a block say -/

/-- What `CheckBlock` asks of a block, beyond its header. -/
structure Block.WellFormed (env : Surroundings) (fCheckMerkleRoot : Bool) (block : Block)
    (first : Transaction) (rest : List Transaction) : Prop where
  vtx_eq : block.vtx = first :: rest
  isCoinBase : block.nHeight ≠ 0 → first.isCoinBase = true
  lockHeight_eq : first.nLockHeight = block.nHeight
  wellFormed : block.nHeight ≠ 0 → ∀ tx ∈ block.vtx, tx.WellFormed env.tip
  no_overlap : ∃ sets, block.vtx.foldlM noteOverlap ([], []) = .ok sets
  nodup_txid : (block.vtx.map (Transaction.getTxID env.H)).Nodup
  merkle : ∃ root, buildMerkleTree env.H block.vtx = .ok root ∧
    (fCheckMerkleRoot = true → block.hashMerkleRoot = root)

theorem checkTransactions_eq_ok_iff {u : Unit} :
    checkTransactions tip block = .ok u ↔
      (block.nHeight ≠ 0 → ∀ tx ∈ block.vtx, tx.WellFormed tip) := by
  obtain rfl : u = () := rfl
  rw [checkTransactions]
  split
  · next h => simp [bne_iff_ne.mp h, Check.forM_eq_ok_iff, checkTransaction_eq_ok_iff]
  · next h => simp_all

/-- **CheckBlock.** A block passes exactly when its header does and it is well formed. -/
theorem checkBlock_eq_ok_iff {env : Surroundings}
    {fCheckPOW fCheckMerkleRoot : Bool} : checkBlock env fCheckPOW fCheckMerkleRoot block = .ok () ↔
      checkBlockHeader env fCheckPOW block.toBlockHeader = .ok () ∧
        ∃ first rest, block.WellFormed env fCheckMerkleRoot first rest := by
  rw [checkBlock, Except.bind_eq_ok_iff]
  rcases hvtx : block.vtx with _ | ⟨first, rest⟩
  · constructor
    · rintro ⟨_, -, ⟨⟩⟩
    · rintro ⟨-, first, rest, h⟩
      exact absurd (hvtx.symm.trans h.vtx_eq) (by simp)
  · simp only [Except.bind_eq_ok_iff, rejectIf_eq_ok_iff, call_eq_ok_iff, exists_const,
      Bool.and_eq_false_iff, Bool.not_eq_false', bne_eq_false_iff_eq, decide_eq_true_eq,
      checkTransactions_eq_ok_iff, ← hvtx]
    constructor
    · rintro ⟨_, hheader, hfirst, hlock, htxs, sets, hsets, root, hroot, hids, hmerkle⟩
      refine ⟨hheader, first, rest, hvtx, hfirst.resolve_right, hlock, htxs, ⟨sets, hsets⟩, hids,
        root, hroot, fun h ↦ hmerkle.resolve_left (by simp [h])⟩
    · rintro ⟨hheader, first', rest', h⟩
      obtain ⟨rfl, rfl⟩ := List.cons.inj (hvtx.symm.trans h.vtx_eq)
      obtain ⟨sets, hsets⟩ := h.no_overlap
      obtain ⟨root, hroot, hmerkle⟩ := h.merkle
      exact ⟨(), hheader, or_iff_not_imp_right.mpr h.isCoinBase, h.lockHeight_eq, h.wellFormed,
        sets, hsets, root, hroot, h.nodup_txid,
        (Bool.eq_false_or_eq_true _).symm.imp_right hmerkle⟩

/-- The account whose limit a transaction sets, as `CheckBlock` sees it: that of the first input. -/
def Transaction.limitKeys (tx : Transaction) : List UInt160 :=
  if tx.fSetLimit then (tx.vin.take 1).map TxIn.pubKey else []

end Cryptonite
