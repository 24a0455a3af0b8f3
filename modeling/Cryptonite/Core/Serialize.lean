import Cryptonite.Core.Transaction
import Cryptonite.Foundation.PrefixCode

/-!
# The byte forms of a transaction

A transaction has two. On the wire and on disk it is what `IMPLEMENT_SERIALIZE` in `core.h` writes:
all of it, except that a set-limit transaction has no flag of its own. Its limit is added to the one
input and the one output on writing, and any transaction whose one input and one output name the
same account, the output being smaller, is taken for a set-limit transaction on reading.

What is signed, and what the transaction id is the hash of, is a second form, written by
`CTransactionSignatureSerializer` in `script.cpp`. There is no reader for it.
-/

namespace Cryptonite

open Codec

/-! ## Compact sizes -/

/-- `MAX_SIZE`: the largest size a reader accepts. -/
def MAX_SIZE : ℕ := 0x02000000

def writeCompactSize (nSize : ℕ) : List UInt8 :=
  if nSize < 253 then leBytes 1 nSize
  else if nSize ≤ 0xFFFF then 253 :: leBytes 2 nSize
  else if nSize ≤ 0xFFFFFFFF then 254 :: leBytes 4 nSize
  else 255 :: leBytes 8 nSize

/-- The wide forms of `ReadCompactSize`: a size that a shorter form can hold is refused. -/
def readWideSize (width least : ℕ) (src : List UInt8) : Option (ℕ × List UInt8) :=
  match readNat width src with
  | none => none
  | some (xSize, src) => if xSize < least || MAX_SIZE < xSize then none else some (xSize, src)

/-- `ReadCompactSize`; nothing if it throws. -/
def readCompactSize : List UInt8 → Option (ℕ × List UInt8)
  | [] => none
  | chSize :: src =>
    if chSize < 253 then some (chSize.toNat, src)
    else if chSize = 253 then readWideSize 2 253 src
    else if chSize = 254 then readWideSize 4 0x10000 src
    else readWideSize 8 0x100000000 src

/-- A `std::vector` is written behind its size. -/
def writeVector {α : Type} (write : α → List UInt8) (v : List α) : List UInt8 :=
  writeCompactSize v.length ++ v.flatMap write

/-- Reading a `std::vector`. -/
def readVector {α : Type} (read : List UInt8 → Option (α × List UInt8)) (src : List UInt8) :
    Option (List α × List UInt8) := do
  let (nSize, src) ← readCompactSize src
  readMany read nSize src

/-- A `std::vector` of bytes. -/
def writeBytes (v : List UInt8) : List UInt8 := writeCompactSize v.length ++ v

/-- Reading a `std::vector` of bytes. -/
def readByteVector (src : List UInt8) : Option (List UInt8 × List UInt8) := do
  let (nSize, src) ← readCompactSize src
  readBytes nSize src

/-! ## The wire form -/

def TxIn.serialize (txin : TxIn) : List UInt8 :=
  leBytes 20 txin.pubKey.toNat ++ leBytes 8 txin.nValue.toNat ++ writeBytes txin.scriptSig

def TxIn.unserialize (src : List UInt8) : Option (TxIn × List UInt8) := do
  let (pubKey, src) ← readNat 20 src
  let (nValue, src) ← readNat 8 src
  let (scriptSig, src) ← readByteVector src
  some (⟨UInt64.ofNat nValue, BitVec.ofNat 160 pubKey, scriptSig⟩, src)

def TxOut.serialize (txout : TxOut) : List UInt8 :=
  leBytes 8 txout.nValue.toNat ++ leBytes 20 txout.pubKey.toNat

def TxOut.unserialize (src : List UInt8) : Option (TxOut × List UInt8) := do
  let (nValue, src) ← readNat 8 src
  let (pubKey, src) ← readNat 20 src
  some (⟨UInt64.ofNat nValue, BitVec.ofNat 160 pubKey⟩, src)

namespace Transaction

/-- `vint` and `voutt` on writing: `nLimitValue` is added to the first input and the first output
of a set-limit transaction, without a look at whether there is one. -/
def wireParts (tx : Transaction) : Exec (List TxIn × List TxOut) :=
  if tx.fSetLimit then
    match tx.vin, tx.vout with
    | txin :: vin, txout :: vout =>
      .ok ({ txin with nValue := txin.nValue + tx.nLimitValue } :: vin,
        { txout with nValue := txout.nValue + tx.nLimitValue } :: vout)
    | _, _ => .error .outOfBounds
  else .ok (tx.vin, tx.vout)

/-- The writing half of `IMPLEMENT_SERIALIZE`. -/
def serialize (tx : Transaction) : Exec (List UInt8) := do
  let (vint, voutt) ← tx.wireParts
  pure (leBytes 4 tx.nVersion.toNat ++ writeVector TxIn.serialize vint ++
    writeVector TxOut.serialize voutt ++ writeBytes tx.msg ++ leBytes 8 tx.nLockHeight.toNat)

/-- The transaction made of the parts read. -/
def ofWire (nVersion : UInt32) (vint : List TxIn) (voutt : List TxOut) (msg : List UInt8)
    (nLockHeight : UInt64) : Transaction :=
  match vint, voutt with
  | [txin], [txout] =>
    if txin.pubKey = txout.pubKey ∧ txout.nValue < txin.nValue then
      { nVersion, msg, nLockHeight
        vin := [{ txin with nValue := txin.nValue - txout.nValue }]
        vout := [{ txout with nValue := 0 }]
        nLimitValue := txout.nValue
        fSetLimit := true }
    else { nVersion, vin := [txin], vout := [txout], msg, nLockHeight, nLimitValue := 0
           fSetLimit := false }
  | vin, vout => { nVersion, vin, vout, msg, nLockHeight, nLimitValue := 0, fSetLimit := false }

/-- The reading half of `IMPLEMENT_SERIALIZE`, on a transaction just constructed. -/
def unserialize (src : List UInt8) : Option (Transaction × List UInt8) := do
  let (nVersion, src) ← readNat 4 src
  let (vint, src) ← readVector TxIn.unserialize src
  let (voutt, src) ← readVector TxOut.unserialize src
  let (msg, src) ← readByteVector src
  let (nLockHeight, src) ← readNat 8 src
  some (ofWire (UInt32.ofNat nVersion) vint voutt msg (UInt64.ofNat nLockHeight), src)

/-- A transaction that comes off the network. -/
def Decoded (tx : Transaction) : Prop := ∃ src rest, unserialize src = some (tx, rest)

def getHash (H : List UInt8 → UInt256) (tx : Transaction) : Exec UInt256 := do
  let bytes ← tx.serialize
  pure (H bytes)

/-! ## The signed form -/

/-- `CTransactionSignatureSerializer::Serialize`. The counters are `unsigned int`, and the size of
`msg` is written twice. -/
def signatureBytes (tx : Transaction) : List UInt8 :=
  let nInputs := tx.vin.length % 2 ^ 32
  let nOutputs := tx.vout.length % 2 ^ 32
  leBytes 4 tx.nVersion.toNat ++
    (writeCompactSize nInputs ++ (tx.vin.take nInputs).flatMap fun txin ↦
      leBytes 20 txin.pubKey.toNat ++ leBytes 8 txin.nValue.toNat) ++
    (writeCompactSize nOutputs ++ (tx.vout.take nOutputs).flatMap TxOut.serialize) ++
    (writeCompactSize tx.msg.length ++ writeBytes tx.msg) ++ leBytes 8 tx.nLockHeight.toNat

def signatureHash (H : List UInt8 → UInt256) (tx : Transaction) : UInt256 := H tx.signatureBytes

def getTxID (H : List UInt8 → UInt256) (tx : Transaction) : UInt256 := tx.signatureHash H

end Transaction

/-- `CBlockHeader`, written. The version comes first on the wire. -/
def BlockHeader.serialize (header : BlockHeader) : List UInt8 :=
  leBytes 2 header.nVersion.toNat ++ leBytes 32 header.hashPrevBlock.toNat ++
    leBytes 32 header.hashMerkleRoot.toNat ++ leBytes 32 header.hashAccountRoot.toNat ++
    leBytes 8 header.nTime.toNat ++ leBytes 8 header.nHeight.toNat ++
    leBytes 8 header.nNonce.toNat

def Block.serialize (block : Block) : Exec (List UInt8) := do
  let vtx ← block.vtx.mapM Transaction.serialize
  pure (block.toBlockHeader.serialize ++ writeCompactSize block.vtx.length ++ vtx.flatten)

def BlockHeader.unserialize (src : List UInt8) : Option (BlockHeader × List UInt8) := do
  let (nVersion, src) ← readNat 2 src
  let (hashPrevBlock, src) ← readNat 32 src
  let (hashMerkleRoot, src) ← readNat 32 src
  let (hashAccountRoot, src) ← readNat 32 src
  let (nTime, src) ← readNat 8 src
  let (nHeight, src) ← readNat 8 src
  let (nNonce, src) ← readNat 8 src
  some (⟨BitVec.ofNat 256 hashPrevBlock, BitVec.ofNat 256 hashMerkleRoot,
    BitVec.ofNat 256 hashAccountRoot, UInt64.ofNat nTime, UInt64.ofNat nHeight,
    UInt64.ofNat nNonce, UInt16.ofNat nVersion⟩, src)

def Block.unserialize (src : List UInt8) : Option (Block × List UInt8) := do
  let (header, src) ← BlockHeader.unserialize src
  let (vtx, src) ← readVector Transaction.unserialize src
  some ({ header with vtx }, src)

/-- A block that comes off the network. -/
def Block.Decoded (block : Block) : Prop := ∃ src rest, Block.unserialize src = some (block, rest)

/-! ## What reading and writing say -/

variable {n : ℕ} {src r : List UInt8} {α : Type}

theorem readWideSize_leBytes {width least : ℕ} (hleast : least ≤ n) (hmax : n ≤ MAX_SIZE)
    (hn : n < 256 ^ width) (r : List UInt8) :
    readWideSize width least (leBytes width n ++ r) = some (n, r) := by
  rw [readWideSize, readNat_leBytes hn]
  exact if_neg (by simp [hleast, hmax])

theorem readCompactSize_writeCompactSize (h : n ≤ MAX_SIZE) (r : List UInt8) :
    readCompactSize (writeCompactSize n ++ r) = some (n, r) := by
  have hmax : n < 256 ^ 4 := h.trans_lt (by decide)
  rw [writeCompactSize]
  split
  · next hn =>
    have hbyte : (UInt8.ofNat (n % 256)).toNat = n := by
      rw [UInt8.toNat_ofNat']
      omega
    have hlow : UInt8.ofNat (n % 256) < 253 := by
      rw [UInt8.lt_iff_toNat_lt, hbyte]
      exact hn
    change readCompactSize (UInt8.ofNat (n % 256) :: r) = _
    rw [readCompactSize, if_pos hlow, hbyte]
  · split
    · next hlow hn =>
      change readWideSize 2 253 (leBytes 2 n ++ r) = _
      exact readWideSize_leBytes (Nat.le_of_not_lt hlow) h (by omega) r
    · next hlow =>
      split
      · change readWideSize 4 0x10000 (leBytes 4 n ++ r) = _
        exact readWideSize_leBytes (Nat.lt_of_not_le hlow) h hmax r
      · next hlarge => exact absurd (h.trans (by decide)) hlarge

theorem prefixFreeOn_writeCompactSize : PrefixFreeOn {n | n ≤ MAX_SIZE} writeCompactSize :=
  .of_read fun _ h r ↦ readCompactSize_writeCompactSize h r

theorem readCompactSize_le (h : readCompactSize src = some (n, r)) : n ≤ MAX_SIZE := by
  have hwide : ∀ {width least : ℕ} {src : List UInt8},
      readWideSize width least src = some (n, r) → n ≤ MAX_SIZE := by
    intro width least src h
    rw [readWideSize] at h
    split at h
    · cases h
    · split at h
      · cases h
      · next hbound =>
        cases h
        simp only [Bool.or_eq_true, decide_eq_true_eq, not_or, not_lt] at hbound
        exact hbound.2
  rcases src with _ | ⟨chSize, src⟩
  · simp [readCompactSize] at h
  · rw [readCompactSize] at h
    split at h
    · cases h
      exact (Nat.le_of_lt chSize.toNat_lt).trans (by decide)
    · split at h
      · exact hwide h
      · split at h
        · exact hwide h
        · exact hwide h

theorem length_of_readVector {read : List UInt8 → Option (α × List UInt8)} {v : List α}
    (h : readVector read src = some (v, r)) : v.length ≤ MAX_SIZE := by
  simp only [readVector, Option.bind_eq_bind, Option.bind_eq_some_iff, Prod.exists] at h
  obtain ⟨n, src', hsize, hread⟩ := h
  rw [length_of_readMany hread]
  exact readCompactSize_le hsize

theorem exists_read_of_mem_readVector {read : List UInt8 → Option (α × List UInt8)} {v : List α}
    (h : readVector read src = some (v, r)) {a : α}
    (ha : a ∈ v) : ∃ src r, read src = some (a, r) := by
  simp only [readVector, Option.bind_eq_bind, Option.bind_eq_some_iff, Prod.exists] at h
  obtain ⟨n, src', -, hread⟩ := h
  exact exists_read_of_mem_readMany hread ha

theorem Block.Decoded.decoded {block : Block} (h : block.Decoded) {tx : Transaction}
    (htx : tx ∈ block.vtx) : tx.Decoded := by
  obtain ⟨src, rest, h⟩ := h
  simp only [Block.unserialize, Option.bind_eq_bind, Option.bind_eq_some_iff, Option.some.injEq,
    Prod.mk.injEq, Prod.exists] at h
  obtain ⟨header, _, -, vtx, _, hvtx, rfl, -⟩ := h
  exact exists_read_of_mem_readVector hvtx htx

namespace Transaction

/-- The parts of the signed form that an input contributes. -/
def spends (tx : Transaction) : List (UInt160 × UInt64) :=
  tx.vin.map fun txin ↦ (txin.pubKey, txin.nValue)

/-- One input and one output of the same account, the output being smaller. -/
def LimitShaped (tx : Transaction) : Prop :=
  ∃ k v o, tx.spends = [(k, v)] ∧ tx.vout = [⟨o, k⟩] ∧ o < v

/-- What a transaction read off the wire is like. Whether it sets a limit can be told from its
inputs and outputs, and adding the limit back to the input does not wrap. -/
structure FromWire (tx : Transaction) : Prop where
  length_vin : tx.vin.length ≤ MAX_SIZE
  length_vout : tx.vout.length ≤ MAX_SIZE
  fSetLimit_iff : tx.fSetLimit = true ↔ tx.LimitShaped
  nLimitValue_eq : tx.fSetLimit = false → tx.nLimitValue = 0
  setLimit : tx.fSetLimit = true → ∃ txin, tx.vin = [txin] ∧ tx.vout = [⟨0, txin.pubKey⟩] ∧
    txin.nValue.toNat + tx.nLimitValue.toNat < 2 ^ 64

theorem fromWire_ofWire {nVersion : UInt32} {vint : List TxIn} {voutt : List TxOut}
    {msg : List UInt8} {nLockHeight : UInt64} (hin : vint.length ≤ MAX_SIZE)
    (hout : voutt.length ≤ MAX_SIZE) : (ofWire nVersion vint voutt msg nLockHeight).FromWire := by
  have hplain : ∀ tx : Transaction, tx.vin.length ≤ MAX_SIZE → tx.vout.length ≤ MAX_SIZE →
      tx.fSetLimit = false → tx.nLimitValue = 0 → ¬tx.LimitShaped → tx.FromWire :=
    fun tx h₁ h₂ hset hlimit hshape ↦ ⟨h₁, h₂,
      ⟨fun h ↦ absurd h (by simp [hset]), fun h ↦ absurd h hshape⟩, fun _ ↦ hlimit,
      fun h ↦ absurd h (by simp [hset])⟩
  unfold ofWire
  split
  · next txin txout =>
    split
    · next hshape =>
      have hlt := UInt64.lt_iff_toNat_lt.mp hshape.2
      have hsub : (txin.nValue - txout.nValue).toNat = txin.nValue.toNat - txout.nValue.toNat :=
        UInt64.toNat_sub_of_le _ _ (UInt64.le_of_lt hshape.2)
      have hv := txin.nValue.toNat_lt
      refine ⟨by simp [MAX_SIZE], by simp [MAX_SIZE], ⟨fun _ ↦ ⟨txin.pubKey, _, 0, rfl, ?_, ?_⟩,
        fun _ ↦ rfl⟩, nofun, fun _ ↦ ⟨_, rfl, ?_, ?_⟩⟩
      · rw [hshape.1]
      · rw [UInt64.lt_iff_toNat_lt, hsub]
        exact Nat.sub_pos_of_lt hlt
      · rw [hshape.1]
      · dsimp only
        omega
    · next hshape =>
      refine hplain _ hin hout rfl rfl ?_
      rintro ⟨k, v, o, hspends, hvout, hlt⟩
      obtain ⟨rfl, rfl⟩ := Prod.mk.inj (List.cons.inj hspends).1
      obtain rfl := (List.cons.inj hvout).1
      exact hshape ⟨rfl, hlt⟩
  · next hne =>
    refine hplain _ hin hout rfl rfl ?_
    rintro ⟨k, v, o, hspends, hvout, -⟩
    obtain ⟨txin, hvin, -⟩ := List.map_eq_singleton_iff.mp hspends
    exact hne txin _ hvin hvout

variable {tx : Transaction}

theorem Decoded.fromWire (h : tx.Decoded) : tx.FromWire := by
  obtain ⟨src, rest, h⟩ := h
  simp only [unserialize, Option.bind_eq_bind, Option.bind_eq_some_iff, Option.some.injEq,
    Prod.mk.injEq, Prod.exists] at h
  obtain ⟨_, _, -, vint, _, hvint, voutt, _, hvoutt, _, _, -, _, _, -, rfl, -⟩ := h
  exact fromWire_ofWire (length_of_readVector hvint) (length_of_readVector hvoutt)

/-! ### The signed form determines the amounts -/

theorem prefixFreeOn_key : PrefixFreeOn Set.univ fun k : UInt160 ↦ leBytes 20 k.toNat :=
  (PrefixFreeOn.leBytes 20).comp (fun k _ ↦ k.isLt) (fun _ _ _ _ h ↦ BitVec.eq_of_toNat_eq h)

theorem prefixFreeOn_value : PrefixFreeOn Set.univ fun v : UInt64 ↦ leBytes 8 v.toNat :=
  (PrefixFreeOn.leBytes 8).comp (fun v _ ↦ v.toNat_lt) (fun _ _ _ _ h ↦ UInt64.toNat_inj.mp h)

def spendBytes (spend : UInt160 × UInt64) : List UInt8 :=
  leBytes 20 spend.1.toNat ++ leBytes 8 spend.2.toNat

theorem prefixFreeOn_spendBytes : PrefixFreeOn Set.univ spendBytes := by
  have h := prefixFreeOn_key.append prefixFreeOn_value
  rwa [Set.univ_prod_univ] at h

theorem prefixFreeOn_serialize : PrefixFreeOn Set.univ TxOut.serialize :=
  (prefixFreeOn_value.append prefixFreeOn_key).comp (φ := fun o : TxOut ↦ (o.nValue, o.pubKey))
    (fun _ _ ↦ ⟨trivial, trivial⟩) fun ⟨_, _⟩ _ ⟨_, _⟩ _ h ↦ by
      cases h
      rfl

theorem signatureBytes_eq (hin : tx.vin.length ≤ MAX_SIZE)
    (hout : tx.vout.length ≤ MAX_SIZE) : ∃ tail, tx.signatureBytes =
      leBytes 4 tx.nVersion.toNat ++ ((writeCompactSize tx.spends.length ++
        tx.spends.flatMap spendBytes) ++ ((writeCompactSize tx.vout.length ++
          tx.vout.flatMap TxOut.serialize) ++ tail)) := by
  have hlt : ∀ n ≤ MAX_SIZE, n % 2 ^ 32 = n := fun n hn ↦
    Nat.mod_eq_of_lt (hn.trans_lt (by decide))
  constructor
  simp only [signatureBytes, hlt _ hin, hlt _ hout, List.take_length, List.append_assoc, spends,
    List.length_map, List.flatMap_map]
  rfl

/-- The signed form of a transaction off the network determines its inputs, up to their scripts,
and its outputs. -/
theorem FromWire.spends_eq {tx' : Transaction} (h : tx.FromWire) (h' : tx'.FromWire)
    (heq : tx.signatureBytes = tx'.signatureBytes) :
    tx.spends = tx'.spends ∧ tx.vout = tx'.vout := by
  have hlen : ∀ {t : Transaction}, t.FromWire → t.spends.length ≤ MAX_SIZE := fun ht ↦ by
    rw [spends, List.length_map]
    exact ht.length_vin
  obtain ⟨tail, hbytes⟩ := signatureBytes_eq h.length_vin h.length_vout
  obtain ⟨tail', hbytes'⟩ := signatureBytes_eq h'.length_vin h'.length_vout
  rw [hbytes, hbytes'] at heq
  obtain ⟨-, heq⟩ := PrefixFreeOn.leBytes 4 tx.nVersion.toNat_lt tx'.nVersion.toNat_lt _ _ heq
  obtain ⟨hspends, heq⟩ := prefixFreeOn_writeCompactSize.counted prefixFreeOn_spendBytes
    ⟨hlen h, fun _ _ ↦ trivial⟩ ⟨hlen h', fun _ _ ↦ trivial⟩ _ _ heq
  obtain ⟨hvout, -⟩ := prefixFreeOn_writeCompactSize.counted prefixFreeOn_serialize
    ⟨h.length_vout, fun _ _ ↦ trivial⟩ ⟨h'.length_vout, fun _ _ ↦ trivial⟩ _ _ heq
  exact ⟨hspends, hvout⟩

end Transaction

/-! ## The wire form determines the transaction -/

theorem readByteVector_writeBytes {v : List UInt8} (h : v.length ≤ MAX_SIZE) (r : List UInt8) :
    readByteVector (writeBytes v ++ r) = some (v, r) := by
  rw [readByteVector, writeBytes, List.append_assoc, readCompactSize_writeCompactSize h]
  exact readBytes_append

theorem prefixFreeOn_writeBytes : PrefixFreeOn {v | v.length ≤ MAX_SIZE} writeBytes :=
  .of_read fun _ h r ↦ readByteVector_writeBytes h r

theorem length_of_readByteVector {v : List UInt8} (h : readByteVector src = some (v, r)) :
    v.length ≤ MAX_SIZE := by
  simp only [readByteVector, Option.bind_eq_bind, Option.bind_eq_some_iff, Prod.exists] at h
  obtain ⟨n, src', hsize, hread⟩ := h
  rw [length_of_readBytes hread]
  exact readCompactSize_le hsize

theorem prefixFreeOn_txIn :
    PrefixFreeOn {txin : TxIn | txin.scriptSig.length ≤ MAX_SIZE} TxIn.serialize := by
  have h := (Transaction.prefixFreeOn_key.append Transaction.prefixFreeOn_value).append
    prefixFreeOn_writeBytes
  refine h.comp (φ := fun i : TxIn ↦ ((i.pubKey, i.nValue), i.scriptSig))
    (fun _ hi ↦ ⟨⟨trivial, trivial⟩, hi⟩) ?_
  rintro ⟨_, _, _⟩ - ⟨_, _, _⟩ - h
  simp_all

/-- A transaction as it travels. -/
structure Wire where
  nVersion : UInt32
  vint : List TxIn
  voutt : List TxOut
  msg : List UInt8
  nLockHeight : UInt64

namespace Wire

def toTransaction (w : Wire) : Transaction :=
  Transaction.ofWire w.nVersion w.vint w.voutt w.msg w.nLockHeight

def bytes (w : Wire) : List UInt8 :=
  leBytes 4 w.nVersion.toNat ++ (writeVector TxIn.serialize w.vint ++
    (writeVector TxOut.serialize w.voutt ++ (writeBytes w.msg ++ leBytes 8 w.nLockHeight.toNat)))

/-- A reader accepts the sizes. -/
structure Readable (w : Wire) : Prop where
  length_vint : w.vint.length ≤ MAX_SIZE
  length_scriptSig : ∀ txin ∈ w.vint, txin.scriptSig.length ≤ MAX_SIZE
  length_voutt : w.voutt.length ≤ MAX_SIZE
  length_msg : w.msg.length ≤ MAX_SIZE

theorem wireParts_toTransaction (w : Wire) : w.toTransaction.wireParts = .ok (w.vint, w.voutt) := by
  unfold toTransaction Transaction.ofWire
  split
  · next hin hout =>
    rw [hin, hout]
    split
    · simp [Transaction.wireParts]
    · rfl
  · rfl

theorem serialize_toTransaction (w : Wire) : w.toTransaction.serialize = .ok w.bytes := by
  have hfields : w.toTransaction.nVersion = w.nVersion ∧ w.toTransaction.msg = w.msg ∧
      w.toTransaction.nLockHeight = w.nLockHeight := by
    unfold toTransaction Transaction.ofWire
    split
    · split <;> exact ⟨rfl, rfl, rfl⟩
    · exact ⟨rfl, rfl, rfl⟩
  obtain ⟨hversion, hmsg, hlock⟩ := hfields
  rw [Transaction.serialize, wireParts_toTransaction, hversion, hmsg, hlock, bytes]
  simp only [← List.append_assoc]
  rfl

theorem bytes_inj {w w' : Wire} (h : w.Readable) (h' : w'.Readable) (heq : w.bytes = w'.bytes) :
    w = w' := by
  obtain ⟨nVersion, vint, voutt, msg, nLockHeight⟩ := w
  obtain ⟨nVersion', vint', voutt', msg', nLockHeight'⟩ := w'
  obtain ⟨hversion, heq⟩ := PrefixFreeOn.leBytes 4 nVersion.toNat_lt nVersion'.toNat_lt _ _ heq
  obtain ⟨rfl, heq⟩ := prefixFreeOn_writeCompactSize.counted prefixFreeOn_txIn
    ⟨h.length_vint, h.length_scriptSig⟩ ⟨h'.length_vint, h'.length_scriptSig⟩ _ _ heq
  obtain ⟨rfl, heq⟩ := prefixFreeOn_writeCompactSize.counted Transaction.prefixFreeOn_serialize
    ⟨h.length_voutt, fun _ _ ↦ trivial⟩ ⟨h'.length_voutt, fun _ _ ↦ trivial⟩ _ _ heq
  obtain ⟨rfl, heq⟩ := prefixFreeOn_writeBytes h.length_msg h'.length_msg _ _ heq
  obtain rfl := UInt32.toNat_inj.mp hversion
  obtain rfl := UInt64.toNat_inj.mp
    (leBytes_injOn nLockHeight.toNat_lt nLockHeight'.toNat_lt heq)
  rfl

end Wire

namespace Transaction

variable {tx : Transaction}

theorem Decoded.exists_wire (h : tx.Decoded) : ∃ w : Wire, w.Readable ∧ tx = w.toTransaction := by
  obtain ⟨src, rest, h⟩ := h
  simp only [unserialize, Option.bind_eq_bind, Option.bind_eq_some_iff, Option.some.injEq,
    Prod.mk.injEq, Prod.exists] at h
  obtain ⟨nVersion, _, -, vint, _, hvint, voutt, _, hvoutt, msg, _, hmsg, lock, _, -, rfl, -⟩ := h
  refine ⟨⟨_, vint, voutt, msg, _⟩, ⟨length_of_readVector hvint, fun txin htxin ↦ ?_,
    length_of_readVector hvoutt, length_of_readByteVector hmsg⟩, rfl⟩
  obtain ⟨src', r, htxin⟩ := exists_read_of_mem_readVector hvint htxin
  simp only [TxIn.unserialize, Option.bind_eq_bind, Option.bind_eq_some_iff, Option.some.injEq,
    Prod.mk.injEq, Prod.exists] at htxin
  obtain ⟨_, _, -, _, _, -, scriptSig, _, hscript, rfl, -⟩ := htxin
  exact length_of_readByteVector hscript

/-- **The wire form.** A transaction off the network can be told from what is written for it. -/
theorem Decoded.serialize_inj {tx' : Transaction} (h : tx.Decoded) (h' : tx'.Decoded)
    (heq : tx.serialize = tx'.serialize) : tx = tx' := by
  obtain ⟨w, hw, rfl⟩ := h.exists_wire
  obtain ⟨w', hw', rfl⟩ := h'.exists_wire
  rw [Wire.serialize_toTransaction, Wire.serialize_toTransaction, Except.ok.injEq] at heq
  rw [Wire.bytes_inj hw hw' heq]

end Transaction

end Cryptonite
