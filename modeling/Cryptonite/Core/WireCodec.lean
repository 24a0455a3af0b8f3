import Cryptonite.Core.Validation

/-!
# Writing and reading transactions

What a reader accepts off the network is what the writer writes: sizes have one form, and the
amounts of a set-limit transaction are put back as they were (`Transaction.canonical`). So the hash
of a transaction is the hash of its bytes.

The other way round there is a price for having no flag on the wire. A transaction is read as one
that sets a limit if it looks like one: one input and one output of the same account, the output
being smaller. An ordinary payment of an account to itself with a fee looks like that. And a
set-limit transaction does not, if it pays no fee, or if its limit wraps around when it is added to
the amounts. All others are read back as they were (`roundTrips_iff`).
-/

namespace Cryptonite

open Codec

/-! ## Readers and writers -/

theorem readWideSize_eq_some {width least n : ℕ} {src r : List UInt8}
    (h : readWideSize width least src = some (n, r)) :
    least ≤ n ∧ n < 256 ^ width ∧ src = leBytes width n ++ r := by
  rw [readWideSize] at h
  split at h
  · cases h
  · next xSize src' hread =>
    split at h
    · cases h
    · next hbound =>
      cases h
      simp only [Bool.or_eq_true, decide_eq_true_eq, not_or, not_lt] at hbound
      exact ⟨hbound.1, (Inverts.readNat width).mem hread, (Inverts.readNat width).eq_append hread⟩

theorem inverts_readCompactSize :
    Inverts {n | n ≤ MAX_SIZE} readCompactSize writeCompactSize where
  read_append h r := readCompactSize_writeCompactSize h r
  mem := readCompactSize_le
  eq_append := by
    intro src r n h
    have hmax : n ≤ 0x02000000 := readCompactSize_le h
    rcases src with _ | ⟨chSize, src⟩
    · simp [readCompactSize] at h
    · rw [readCompactSize] at h
      rw [writeCompactSize]
      split at h
      · next hsmall =>
        cases h
        have hlt : chSize.toNat < 253 := UInt8.lt_iff_toNat_lt.mp hsmall
        rw [if_pos hlt, leBytes, leBytes, Nat.mod_eq_of_lt chSize.toNat_lt, UInt8.ofNat_toNat]
        rfl
      · split at h
        · next h253 =>
          obtain ⟨hleast, hfits, rfl⟩ := readWideSize_eq_some h
          rw [if_neg hleast.not_gt, if_pos (Nat.le_of_lt_succ hfits), h253]
          rfl
        · split at h
          · next h254 =>
            obtain ⟨hleast, hfits, rfl⟩ := readWideSize_eq_some h
            rw [if_neg (by omega), if_neg (by omega), if_pos (by omega), h254]
            rfl
          · obtain ⟨hleast, -, -⟩ := readWideSize_eq_some h
            omega

theorem inverts_readByteVector :
    Inverts {v : List UInt8 | v.length ≤ MAX_SIZE} readByteVector writeBytes where
  read_append h r := readByteVector_writeBytes h r
  mem := length_of_readByteVector
  eq_append := by
    intro src r v h
    simp only [readByteVector, Option.bind_eq_bind, Option.bind_eq_some_iff, Prod.exists] at h
    obtain ⟨n, src', hsize, hread⟩ := h
    rw [writeBytes, List.append_assoc, length_of_readBytes hread,
      inverts_readCompactSize.eq_append hsize, (Inverts.readBytes n).eq_append hread]
    rfl

theorem inverts_readVector {α : Type} {s : Set α} {read : List UInt8 → Option (α × List UInt8)}
    {write : α → List UInt8} (h : Inverts s read write) :
    Inverts {v : List α | v.length ≤ MAX_SIZE ∧ ∀ a ∈ v, a ∈ s} (readVector read)
      (writeVector write) where
  read_append := by
    rintro v ⟨hlen, hv⟩ r
    rw [readVector, writeVector, List.append_assoc, inverts_readCompactSize.read_append hlen]
    exact (h.readMany v.length).read_append ⟨rfl, hv⟩ r
  mem := by
    intro src r v hread
    refine ⟨length_of_readVector hread, ?_⟩
    simp only [readVector, Option.bind_eq_bind, Option.bind_eq_some_iff, Prod.exists] at hread
    obtain ⟨n, src', -, hread⟩ := hread
    exact ((h.readMany n).mem hread).2
  eq_append := by
    intro src r v hread
    simp only [readVector, Option.bind_eq_bind, Option.bind_eq_some_iff, Prod.exists] at hread
    obtain ⟨n, src', hsize, hread⟩ := hread
    rw [writeVector, List.append_assoc, length_of_readMany hread,
      inverts_readCompactSize.eq_append hsize, (h.readMany n).eq_append hread]

theorem inverts_txIn : Inverts {txin : TxIn | txin.scriptSig.length ≤ MAX_SIZE} TxIn.unserialize
    TxIn.serialize where
  read_append := by
    rintro ⟨nValue, pubKey, scriptSig⟩ hscript r
    have hkey := (Inverts.readNat 20).read_append pubKey.isLt
      (leBytes 8 nValue.toNat ++ (writeBytes scriptSig ++ r))
    have hvalue := (Inverts.readNat 8).read_append nValue.toNat_lt (writeBytes scriptSig ++ r)
    have hscript := inverts_readByteVector.read_append hscript r
    simp only [TxIn.unserialize, TxIn.serialize, List.append_assoc, hkey, hvalue, hscript,
      Option.bind_eq_bind, Option.bind_some, UInt64.ofNat_toNat, BitVec.ofNat_toNat,
      BitVec.setWidth_eq]
  mem := by
    intro src r txin h
    simp only [TxIn.unserialize, Option.bind_eq_bind, Option.bind_eq_some_iff, Option.some.injEq,
      Prod.mk.injEq, Prod.exists] at h
    obtain ⟨_, _, -, _, _, -, scriptSig, _, hscript, rfl, -⟩ := h
    exact length_of_readByteVector hscript
  eq_append := by
    intro src r txin h
    simp only [TxIn.unserialize, Option.bind_eq_bind, Option.bind_eq_some_iff, Option.some.injEq,
      Prod.mk.injEq, Prod.exists] at h
    obtain ⟨pubKey, src₁, hkey, nValue, src₂, hvalue, scriptSig, _, hscript, rfl, rfl⟩ := h
    have hkeyLt : pubKey < 2 ^ 160 := (Inverts.readNat 20).mem hkey
    have hvalueLt : nValue < 2 ^ 64 := (Inverts.readNat 8).mem hvalue
    rw [(Inverts.readNat 20).eq_append hkey, (Inverts.readNat 8).eq_append hvalue,
      inverts_readByteVector.eq_append hscript]
    simp only [TxIn.serialize, List.append_assoc, BitVec.toNat_ofNat, Nat.mod_eq_of_lt hkeyLt,
      UInt64.toNat_ofNat_of_lt' hvalueLt]

theorem inverts_txOut : Inverts Set.univ TxOut.unserialize TxOut.serialize where
  read_append := by
    rintro ⟨nValue, pubKey⟩ - r
    have hvalue := (Inverts.readNat 8).read_append nValue.toNat_lt (leBytes 20 pubKey.toNat ++ r)
    have hkey := (Inverts.readNat 20).read_append pubKey.isLt r
    simp only [TxOut.unserialize, TxOut.serialize, List.append_assoc, hkey, hvalue,
      Option.bind_eq_bind, Option.bind_some, UInt64.ofNat_toNat, BitVec.ofNat_toNat,
      BitVec.setWidth_eq]
  mem := fun _ ↦ trivial
  eq_append := by
    intro src r txout h
    simp only [TxOut.unserialize, Option.bind_eq_bind, Option.bind_eq_some_iff, Option.some.injEq,
      Prod.mk.injEq, Prod.exists] at h
    obtain ⟨nValue, src₁, hvalue, pubKey, _, hkey, rfl, rfl⟩ := h
    have hkeyLt : pubKey < 2 ^ 160 := (Inverts.readNat 20).mem hkey
    have hvalueLt : nValue < 2 ^ 64 := (Inverts.readNat 8).mem hvalue
    rw [(Inverts.readNat 8).eq_append hvalue, (Inverts.readNat 20).eq_append hkey]
    simp only [TxOut.serialize, List.append_assoc, BitVec.toNat_ofNat, Nat.mod_eq_of_lt hkeyLt,
      UInt64.toNat_ofNat_of_lt' hvalueLt]

/-! ## Transactions -/

namespace Wire

theorem unserialize_bytes {w : Wire} (h : w.Readable) (r : List UInt8) :
    Transaction.unserialize (w.bytes ++ r) = some (w.toTransaction, r) := by
  have hversion := (Inverts.readNat 4).read_append w.nVersion.toNat_lt
  have hvint := (inverts_readVector inverts_txIn).read_append ⟨h.length_vint, h.length_scriptSig⟩
  have hvoutt := (inverts_readVector inverts_txOut).read_append
    ⟨h.length_voutt, fun _ _ ↦ Set.mem_univ _⟩
  have hmsg := inverts_readByteVector.read_append h.length_msg
  have hlock := (Inverts.readNat 8).read_append w.nLockHeight.toNat_lt
  simp only [Transaction.unserialize, bytes, List.append_assoc, hversion, hvint, hvoutt, hmsg,
    hlock, Option.bind_eq_bind, Option.bind_some, UInt32.ofNat_toNat, UInt64.ofNat_toNat,
    toTransaction]

theorem exists_of_unserialize {src r : List UInt8} {tx : Transaction}
    (h : Transaction.unserialize src = some (tx, r)) :
    ∃ w : Wire, w.Readable ∧ tx = w.toTransaction ∧ src = w.bytes ++ r := by
  simp only [Transaction.unserialize, Option.bind_eq_bind, Option.bind_eq_some_iff,
    Option.some.injEq, Prod.mk.injEq, Prod.exists] at h
  obtain ⟨nVersion, _, hversion, vint, _, hvint, voutt, _, hvoutt, msg, _, hmsg, nLock, _, hlock,
    rfl, rfl⟩ := h
  have hversionLt : nVersion < 2 ^ 32 := (Inverts.readNat 4).mem hversion
  have hlockLt : nLock < 2 ^ 64 := (Inverts.readNat 8).mem hlock
  have hin := (inverts_readVector inverts_txIn).mem hvint
  have hout := (inverts_readVector inverts_txOut).mem hvoutt
  refine ⟨⟨UInt32.ofNat nVersion, vint, voutt, msg, UInt64.ofNat nLock⟩,
    ⟨hin.1, hin.2, hout.1, inverts_readByteVector.mem hmsg⟩, rfl, ?_⟩
  rw [(Inverts.readNat 4).eq_append hversion, (inverts_readVector inverts_txIn).eq_append hvint,
    (inverts_readVector inverts_txOut).eq_append hvoutt, inverts_readByteVector.eq_append hmsg,
    (Inverts.readNat 8).eq_append hlock]
  simp only [bytes, List.append_assoc, UInt32.toNat_ofNat_of_lt' hversionLt,
    UInt64.toNat_ofNat_of_lt' hlockLt]

end Wire

namespace Transaction

/-- **Canonical bytes.** Bytes that a transaction is read from are those that are written for it,
and their hash is its hash. -/
theorem canonical {src : List UInt8} {tx : Transaction} (h : unserialize src = some (tx, [])) :
    tx.serialize = .ok src ∧ ∀ H, tx.getHash H = .ok (H src) := by
  obtain ⟨w, -, rfl, hsrc⟩ := Wire.exists_of_unserialize h
  rw [List.append_nil] at hsrc
  have hwrite : w.toTransaction.serialize = .ok src := by
    rw [hsrc]
    exact Wire.serialize_toTransaction w
  refine ⟨hwrite, fun H ↦ ?_⟩
  rw [getHash, hwrite]
  rfl

/-- The bytes of a set-limit transaction: an input of two and an output of one, both of account
zero. -/
def limitBytes : List UInt8 :=
  [1, 0, 0, 0, 1] ++ List.replicate 20 0 ++ [2, 0, 0, 0, 0, 0, 0, 0, 0] ++
    [1, 1, 0, 0, 0, 0, 0, 0, 0] ++ List.replicate 20 0 ++ [0] ++ List.replicate 8 0

theorem canonical_limitBytes : ∃ tx, unserialize limitBytes = some (tx, []) ∧
    tx.fSetLimit = true ∧ tx.serialize = .ok limitBytes := by
  have hread : unserialize limitBytes = some (ofWire 1 [⟨2, 0, []⟩] [⟨1, 0⟩] [] 0, []) := by decide
  exact ⟨_, hread, by decide, (canonical hread).1⟩

/-! ## Round trips -/

/-- The transaction is read back as it was written. -/
def RoundTrips (tx : Transaction) : Prop :=
  ∃ bytes, tx.serialize = .ok bytes ∧ unserialize bytes = some (tx, [])

/-- A transaction as `CWallet::SetLimit` builds it, before it is signed and after. -/
structure BySetLimit (tx : Transaction) (key : UInt160) (nTransactionFee nLimit : UInt64) :
    Prop where
  vin : ∃ scriptSig, tx.vin = [⟨nTransactionFee, key, scriptSig⟩]
  vout : tx.vout = [⟨0, key⟩]
  nLimitValue : tx.nLimitValue = nLimit
  fSetLimit : tx.fSetLimit = true

theorem exists_wire_of_serialize {tx : Transaction} {bytes : List UInt8}
    (h : tx.serialize = .ok bytes) : ∃ w : Wire, tx.wireParts = .ok (w.vint, w.voutt) ∧
      w.nVersion = tx.nVersion ∧ w.msg = tx.msg ∧ w.nLockHeight = tx.nLockHeight ∧
      bytes = w.bytes := by
  obtain ⟨⟨vint, voutt⟩, hparts, h⟩ := Except.bind_eq_ok_iff.mp h
  refine ⟨⟨tx.nVersion, vint, voutt, tx.msg, tx.nLockHeight⟩, hparts, rfl, rfl, rfl, ?_⟩
  rw [← Except.ok.inj h, Wire.bytes]
  simp only [List.append_assoc]

end Transaction

theorem length_le_length_flatMap {α β : Type} {f : α → List β} {l : List α}
    (h : ∀ a ∈ l, 1 ≤ (f a).length) : l.length ≤ (l.flatMap f).length := by
  induction l with
  | nil => exact Nat.zero_le _
  | cons a l ih =>
    rw [List.forall_mem_cons] at h
    rw [List.flatMap_cons, List.length_append, List.length_cons]
    have hrest := ih h.2
    omega

theorem length_le_length_flatMap_of_mem {α β : Type} {f : α → List β} {l : List α} {a : α}
    (h : a ∈ l) : (f a).length ≤ (l.flatMap f).length := by
  rw [List.length_flatMap]
  exact List.single_le_sum (by simp) _ (List.mem_map_of_mem h)

theorem Wire.readable_of_length {w : Wire} (h : w.bytes.length ≤ MAX_SIZE) : w.Readable := by
  simp only [bytes, writeVector, writeBytes, List.length_append, length_leBytes] at h
  have hvint := @length_le_length_flatMap _ _ TxIn.serialize w.vint fun txin _ ↦ by
    simp only [TxIn.serialize, List.length_append, length_leBytes]
    omega
  have hvoutt := @length_le_length_flatMap _ _ TxOut.serialize w.voutt fun txout _ ↦ by
    simp only [TxOut.serialize, List.length_append, length_leBytes]
    omega
  refine ⟨by omega, fun txin hmem ↦ ?_, by omega, by omega⟩
  have htxin := @length_le_length_flatMap_of_mem _ _ TxIn.serialize _ _ hmem
  simp only [TxIn.serialize, writeBytes, List.length_append] at htxin
  omega

namespace Transaction

/-- What can be told from the wire form: an ordinary transaction that does not look like one that
sets a limit, or one that `SetLimit` builds with a fee and a limit that do not wrap around. -/
def Tellable (tx : Transaction) : Prop :=
  tx.fSetLimit = false ∧ tx.nLimitValue = 0 ∧ ¬tx.LimitShaped ∨
    ∃ key nTransactionFee nLimit, tx.BySetLimit key nTransactionFee nLimit ∧
      0 < nTransactionFee ∧ nTransactionFee.toNat + nLimit.toNat < 2 ^ 64

theorem FromWire.tellable {tx : Transaction} (h : tx.FromWire) : tx.Tellable := by
  rcases hset : tx.fSetLimit with _ | _
  · refine .inl ⟨hset, h.nLimitValue_eq hset, fun hshape ↦ ?_⟩
    exact absurd (h.fSetLimit_iff.mpr hshape) (by simp [hset])
  · obtain ⟨txin, hvin, hvout, hwrap⟩ := h.setLimit hset
    obtain ⟨k, v, o, hspends, hvout', hlt⟩ := h.fSetLimit_iff.mp hset
    rw [spends, hvin] at hspends
    obtain ⟨rfl, rfl⟩ := Prod.mk.inj (List.cons.inj hspends).1
    obtain rfl : (0 : UInt64) = o :=
      congrArg TxOut.nValue (List.cons.inj (hvout.symm.trans hvout')).1
    exact .inr ⟨txin.pubKey, txin.nValue, tx.nLimitValue,
      ⟨⟨txin.scriptSig, hvin⟩, hvout, rfl, hset⟩, hlt, hwrap⟩

theorem ofWire_of_not_limitShaped {tx : Transaction} (hset : tx.fSetLimit = false)
    (hlimit : tx.nLimitValue = 0) (hshape : ¬tx.LimitShaped) :
    ofWire tx.nVersion tx.vin tx.vout tx.msg tx.nLockHeight = tx := by
  obtain ⟨nVersion, vin, vout, msg, nLockHeight, nLimitValue, fSetLimit⟩ := tx
  dsimp only at hset hlimit ⊢
  subst hset hlimit
  unfold ofWire
  split
  · next txin txout =>
    refine if_neg fun hlooks ↦ hshape ⟨txin.pubKey, txin.nValue, txout.nValue, rfl, ?_, hlooks.2⟩
    rw [hlooks.1]
  · rfl

theorem BySetLimit.ofWire {tx : Transaction} {key : UInt160} {nTransactionFee nLimit : UInt64}
    (h : tx.BySetLimit key nTransactionFee nLimit) (hfee : 0 < nTransactionFee)
    (hwrap : nTransactionFee.toNat + nLimit.toNat < 2 ^ 64) :
    ∃ vint voutt, tx.wireParts = .ok (vint, voutt) ∧
      Transaction.ofWire tx.nVersion vint voutt tx.msg tx.nLockHeight = tx := by
  obtain ⟨scriptSig, hvin⟩ := h.vin
  obtain ⟨nVersion, vin, vout, msg, nLockHeight, nLimitValue, fSetLimit⟩ := tx
  obtain ⟨-, hvout, hlimit, hset⟩ := h
  dsimp only at hvin hvout hlimit hset ⊢
  subst hvin hvout hlimit hset
  have hlt : 0 + nLimitValue < nTransactionFee + nLimitValue := by
    rw [UInt64.zero_add, UInt64.lt_iff_toNat_lt, UInt64.toNat_add, Nat.mod_eq_of_lt hwrap]
    have hpos := UInt64.lt_iff_toNat_lt.mp hfee
    rw [UInt64.toNat_zero] at hpos
    omega
  refine ⟨_, _, rfl, ?_⟩
  rw [Transaction.ofWire]
  dsimp only
  rw [if_pos ⟨rfl, hlt⟩, UInt64.zero_add, UInt64.add_sub_cancel]

/-- **Round trips.** A transaction that passes `CheckTransaction` is read back as it was written if
and only if it can be told from its wire form. -/
theorem roundTrips_iff {tip : Option TrieNode} {tx : Transaction}
    (h : checkTransaction tip tx = .ok ()) : tx.RoundTrips ↔ tx.Tellable := by
  obtain ⟨bytes, hwrite, hsize⟩ := (checkTransaction_eq_ok_iff.mp h).size_le
  obtain ⟨w, hparts, hversion, hmsg, hlock, rfl⟩ := exists_wire_of_serialize hwrite
  have hreadable : w.Readable := Wire.readable_of_length (hsize.trans (by decide))
  have hread : unserialize w.bytes = some (w.toTransaction, []) := by
    simpa using Wire.unserialize_bytes hreadable []
  have hiff : tx.RoundTrips ↔ w.toTransaction = tx := by
    constructor
    · rintro ⟨bytes', hwrite', hread'⟩
      obtain rfl := Except.ok.inj (hwrite.symm.trans hwrite')
      exact (Prod.mk.inj (Option.some.inj (hread.symm.trans hread'))).1
    · intro heq
      exact ⟨w.bytes, hwrite, heq ▸ hread⟩
  rw [hiff]
  constructor
  · intro heq
    rw [← heq]
    exact (fromWire_ofWire hreadable.length_vint hreadable.length_voutt).tellable
  · intro htell
    rw [Wire.toTransaction, hversion, hmsg, hlock]
    rcases htell with ⟨hset, hlimit, hshape⟩ | ⟨key, nTransactionFee, nLimit, hby, hfee, hwrap⟩
    · have hplain : tx.wireParts = .ok (tx.vin, tx.vout) := if_neg (by simp [hset])
      obtain ⟨hvin, hvout⟩ := Prod.mk.inj (Except.ok.inj (hplain.symm.trans hparts))
      rw [← hvin, ← hvout]
      exact ofWire_of_not_limitShaped hset hlimit hshape
    · obtain ⟨vint, voutt, hparts', hback⟩ := hby.ofWire hfee hwrap
      obtain ⟨rfl, rfl⟩ := Prod.mk.inj (Except.ok.inj (hparts'.symm.trans hparts))
      exact hback

end Transaction

/-- A transaction of the account `1` with itself. -/
def withItself (nValueIn nValueOut nLimitValue : UInt64) (fSetLimit : Bool) : Transaction :=
  { nVersion := 1, vin := [⟨nValueIn, 1, []⟩], vout := [⟨nValueOut, 1⟩], msg := []
    nLockHeight := 100, nLimitValue, fSetLimit }

/-- A set-limit transaction with a fee. -/
theorem roundTrips_setLimit : (withItself 1000 0 5000 true).RoundTrips :=
  (Transaction.roundTrips_iff (show checkTransaction none (withItself 1000 0 5000 true) = .ok () by
    decide)).mpr (.inr ⟨1, 1000, 5000, ⟨⟨[], rfl⟩, rfl, rfl, rfl⟩, by decide, by decide⟩)

/-- What a transaction becomes: whether it sets a limit, and its amounts. -/
def Transaction.reread (tx : Transaction) : Option (Bool × UInt64 × List UInt64 × List UInt64) :=
  (tx.serialize.toOption.bind fun bytes ↦ Transaction.unserialize bytes).map fun r ↦
    (r.1.fSetLimit, r.1.nLimitValue, r.1.vin.map TxIn.nValue, r.1.vout.map TxOut.nValue)

/-- A payment to oneself becomes a limit, and a limit that is as large as can be or that costs
nothing becomes a payment. -/
theorem read_otherwise :
    (checkTransaction none (withItself 1000 900 0 false) = .ok () ∧
      (withItself 1000 900 0 false).reread = some (true, 900, [100], [0])) ∧
    (checkTransaction none (withItself 1000 0 0xFFFFFFFFFFFFFFFF true) = .ok () ∧
      (withItself 1000 0 0xFFFFFFFFFFFFFFFF true).reread
        = some (false, 0, [999], [0xFFFFFFFFFFFFFFFF])) ∧
    checkTransaction none (withItself 0 0 5000 true) = .ok () ∧
      (withItself 0 0 5000 true).reread = some (false, 0, [5000], [5000]) := by
  decide

end Cryptonite
