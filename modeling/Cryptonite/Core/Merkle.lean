import Cryptonite.Core.Validation
import Cryptonite.Foundation.MerkleTree
import Cryptonite.Foundation.Sha256

/-!
# What the Merkle root commits to

`BuildMerkleTree` repeats the last node of an odd level, and it hashes a transaction and a pair of
nodes the same way, with nothing in front to tell them apart. Either would let a second list of
transactions have the root of the first. What is in the way is in other places: `CheckBlock` refuses
a block with two transactions of one TxID, and `CheckTransaction` refuses a transaction without
inputs or without outputs. The shortest transaction left takes 72 bytes, and a pair takes 64.

The leaves are hashes of the wire form, signatures included, while a TxID is a hash of the signed
form. Equal leaves are equal transactions because the wire form can be read back, so equal leaves
have equal TxIDs and a repeated leaf is found.
-/

namespace Cryptonite

open Codec MerkleTree

/-! ## The tree of a block -/

/-- What is hashed for a pair of nodes. -/
def merklePair (q : UInt256 × UInt256) : List UInt8 := leBytes 32 q.1.toNat ++ leBytes 32 q.2.toNat

theorem length_merklePair (q : UInt256 × UInt256) : (merklePair q).length = 64 := by
  simp [merklePair]

theorem merklePair_injective : Function.Injective merklePair := by
  rintro ⟨a, b⟩ ⟨c, d⟩ h
  obtain ⟨h₁, h₂⟩ := List.append_inj h (by simp)
  exact Prod.ext (BitVec.eq_of_toNat_eq (leBytes_injOn a.isLt c.isLt h₁))
    (BitVec.eq_of_toNat_eq (leBytes_injOn b.isLt d.isLt h₂))

variable {H : List UInt8 → UInt256}

theorem merkleLevel_eq (l : List UInt256) : merkleLevel H l = level (H ∘ merklePair) l := by
  induction l using pairs.induct with
  | case1 a b l ih =>
    rw [merkleLevel, ih]
    rfl
  | case2 a => rfl
  | case3 => rfl

theorem merkleRoot_eq (n : ℕ) (l : List UInt256) :
    merkleRoot H n l = MerkleTree.root (H ∘ merklePair) 0 n l := by
  induction n generalizing l with
  | zero => rcases l with _ | ⟨a, _ | ⟨b, l⟩⟩ <;> rfl
  | succ n ih =>
    rcases l with _ | ⟨a, _ | ⟨b, l⟩⟩
    · rfl
    · rfl
    · rw [root_cons_cons, ← merkleLevel_eq, ← ih]
      rfl

/-- The bytes `GetHash` hashes; none if it faults. -/
def Transaction.wireBytes (tx : Transaction) : List UInt8 :=
  match tx.serialize with
  | .ok bytes => bytes
  | .error _ => []

variable {tx first : Transaction} {vtx rest : List Transaction} {env : Surroundings}
  {fCheckMerkleRoot : Bool} {block : Block}

theorem Transaction.serialize_eq {bytes : List UInt8}
    (h : tx.serialize = .ok bytes) : tx.wireBytes = bytes := by
  rw [wireBytes, h]

def merkleLeaves (H : List UInt8 → UInt256) (vtx : List Transaction) : List UInt256 :=
  vtx.map fun tx ↦ H tx.wireBytes

/-- What is hashed to build the tree. -/
def merkleMessages (H : List UInt8 → UInt256) (vtx : List Transaction) : List (List UInt8) :=
  vtx.map Transaction.wireBytes ++
    (MerkleTree.hashed (H ∘ merklePair) vtx.length (merkleLeaves H vtx)).map merklePair

theorem Transaction.getHash_eq {hash : UInt256}
    (h : tx.getHash H = .ok hash) : hash = H tx.wireBytes := by
  obtain ⟨bytes, hbytes, ⟨⟩⟩ := Except.bind_eq_ok_iff.mp h
  rw [Transaction.serialize_eq hbytes]

theorem mapM_getHash {leaves : List UInt256}
    (h : vtx.mapM (Transaction.getHash H) = .ok leaves) : leaves = merkleLeaves H vtx :=
  Except.eq_map_of_mapM h fun _ _ _ ↦ Transaction.getHash_eq

theorem buildMerkleTree_eq {root : UInt256} (h : buildMerkleTree H vtx = .ok root) :
    root = MerkleTree.root (H ∘ merklePair) 0 vtx.length (merkleLeaves H vtx) := by
  obtain ⟨leaves, hleaves, hroot⟩ := Except.bind_eq_ok_iff.mp h
  rw [← Except.ok.inj hroot, merkleRoot_eq, mapM_getHash hleaves, merkleLeaves, List.length_map]

/-! ## Transactions are longer than pairs -/

theorem one_le_length_writeCompactSize (n : ℕ) : 1 ≤ (writeCompactSize n).length := by
  rw [writeCompactSize]
  split
  · simp
  · split
    · simp
    · split <;> simp

theorem length_writeVector {α : Type} {write : α → List UInt8} {k : ℕ}
    (h : ∀ a, k ≤ (write a).length) {v : List α} (hv : v ≠ []) :
    1 + k ≤ (writeVector write v).length := by
  obtain ⟨a, t, rfl⟩ := List.exists_cons_of_ne_nil hv
  rw [writeVector, List.length_append, List.flatMap_cons, List.length_append]
  exact Nat.add_le_add (one_le_length_writeCompactSize _) ((h a).trans (Nat.le_add_right _ _))

theorem length_serialize_txIn (txin : TxIn) : 29 ≤ txin.serialize.length := by
  have h := one_le_length_writeCompactSize txin.scriptSig.length
  simp only [TxIn.serialize, writeBytes, List.length_append, length_leBytes]
  omega

theorem length_serialize_txOut (txout : TxOut) : txout.serialize.length = 28 := by
  simp [TxOut.serialize]

namespace Transaction

variable {tx : Transaction}

theorem wireParts_ne_nil {vint : List TxIn} {voutt : List TxOut}
    (h : tx.wireParts = .ok (vint, voutt)) (hin : tx.vin ≠ []) (hout : tx.vout ≠ []) :
    vint ≠ [] ∧ voutt ≠ [] := by
  rw [wireParts] at h
  split at h
  · split at h
    · cases h
      exact ⟨List.cons_ne_nil _ _, List.cons_ne_nil _ _⟩
    · cases h
  · cases h
    exact ⟨hin, hout⟩

/-- **The shortest transaction.** With an input and an output, a transaction takes 72 bytes. -/
theorem length_serialize {bytes : List UInt8} (h : tx.serialize = .ok bytes) (hin : tx.vin ≠ [])
    (hout : tx.vout ≠ []) : 72 ≤ bytes.length := by
  obtain ⟨⟨vint, voutt⟩, hparts, hbytes⟩ := Except.bind_eq_ok_iff.mp h
  obtain ⟨hvint, hvoutt⟩ := wireParts_ne_nil hparts hin hout
  have hins := length_writeVector length_serialize_txIn hvint
  have houts := length_writeVector (fun o ↦ (length_serialize_txOut o).ge) hvoutt
  have hmsg := one_le_length_writeCompactSize tx.msg.length
  rw [← Except.ok.inj hbytes]
  simp only [writeBytes, List.length_append, length_leBytes]
  omega

end Transaction

/-! ## The commitment -/

/-- What `CheckBlock` says of the transactions of a block off the network, as far as the tree is
concerned. -/
structure Committed (vtx : List Transaction) : Prop where
  ne_nil : vtx ≠ []
  decoded : ∀ tx ∈ vtx, tx.Decoded
  serialize_eq : ∀ tx ∈ vtx, tx.serialize = .ok tx.wireBytes
  length_wireBytes : ∀ tx ∈ vtx, 72 ≤ tx.wireBytes.length
  nodup : vtx.Nodup

theorem Block.WellFormed.length_wireBytes
    (h : block.WellFormed env fCheckMerkleRoot first rest) (hheight : block.nHeight ≠ 0)
    (htx : tx ∈ block.vtx) : tx.serialize = .ok tx.wireBytes ∧ 72 ≤ tx.wireBytes.length := by
  have hwell := h.wellFormed hheight tx htx
  obtain ⟨bytes, hbytes, -⟩ := hwell.size_le
  rw [Transaction.serialize_eq hbytes]
  exact ⟨hbytes, Transaction.length_serialize hbytes hwell.vin_ne_nil hwell.vout_ne_nil⟩

theorem Committed.of_wellFormed (hdecoded : block.Decoded)
    (hheight : block.nHeight ≠ 0) (h : block.WellFormed env fCheckMerkleRoot first rest) :
    Committed block.vtx where
  ne_nil := by
    rw [h.vtx_eq]
    exact List.cons_ne_nil _ _
  decoded := fun _ htx ↦ hdecoded.decoded htx
  serialize_eq := fun _ htx ↦ (h.length_wireBytes hheight htx).1
  length_wireBytes := fun _ htx ↦ (h.length_wireBytes hheight htx).2
  nodup := h.nodup_txid.of_map

section

variable {M : Set (List UInt8)} (hinj : Set.InjOn H M)
include hinj

theorem separated : Separated (H ∘ merklePair) (H '' {m ∈ M | 72 ≤ m.length})
    {q | merklePair q ∈ M} where
  injOn := fun _ hq _ hq' heq ↦ merklePair_injective (hinj hq hq' heq)
  not_leaf := by
    rintro q hq ⟨m, ⟨hm, hlength⟩, heq⟩
    rw [hinj hm hq heq, length_merklePair] at hlength
    exact absurd hlength (by decide)

theorem leaf_injOn : Set.InjOn (fun tx : Transaction ↦ H tx.wireBytes)
    {tx | tx.Decoded ∧ tx.serialize = .ok tx.wireBytes ∧ tx.wireBytes ∈ M} := by
  rintro tx ⟨hdecoded, hbytes, hmem⟩ tx' ⟨hdecoded', hbytes', hmem'⟩ heq
  refine hdecoded.serialize_inj hdecoded' ?_
  rw [hbytes, hbytes', hinj hmem hmem' heq]

variable {vtx : List Transaction} (h : Committed vtx) (hM : ∀ m ∈ merkleMessages H vtx, m ∈ M)
include h hM

omit hinj in
theorem Committed.mem (tx : Transaction) (htx : tx ∈ vtx) :
    tx.Decoded ∧ tx.serialize = .ok tx.wireBytes ∧ tx.wireBytes ∈ M :=
  ⟨h.decoded tx htx, h.serialize_eq tx htx,
    hM _ (List.mem_append_left _ (List.mem_map_of_mem htx))⟩

theorem Committed.level : Level (H ∘ merklePair) (H '' {m ∈ M | 72 ≤ m.length})
    {q | merklePair q ∈ M} 0 vtx.length (merkleLeaves H vtx) where
  ne_nil := fun hnil ↦ h.ne_nil (List.map_eq_nil_iff.mp hnil)
  length_le := by rw [merkleLeaves, List.length_map]
  nodup := h.nodup.map_on fun tx htx tx' htx' heq ↦
    leaf_injOn hinj (h.mem hM tx htx) (h.mem hM tx' htx') heq
  atHeight := by
    intro d hd
    obtain ⟨tx, htx, rfl⟩ := List.mem_map.mp hd
    exact .leaf ⟨_, ⟨(h.mem hM tx htx).2.2, h.length_wireBytes tx htx⟩, rfl⟩
  hashed_subset := fun q hq ↦ hM _ (List.mem_append_right _ (List.mem_map_of_mem hq))

end

/-- **The Merkle commitment.** Two blocks off the network that `CheckBlock` accepts and whose
headers name the same Merkle root have the same transactions, if the hash is injective on what is
hashed to build their trees. -/
theorem merkle_root_commits {env env' : Surroundings} (hH : env.H = H) (hH' : env'.H = H)
    {fCheckPOW fCheckPOW' : Bool} {block block' : Block}
    (hdecoded : block.Decoded) (hdecoded' : block'.Decoded)
    (hheight : block.nHeight ≠ 0) (hheight' : block'.nHeight ≠ 0)
    (haccept : checkBlock env fCheckPOW true block = .ok ())
    (haccept' : checkBlock env' fCheckPOW' true block' = .ok ())
    (hinj : Set.InjOn H {m | m ∈ merkleMessages H block.vtx ++ merkleMessages H block'.vtx})
    (hroot : block.hashMerkleRoot = block'.hashMerkleRoot) : block.vtx = block'.vtx := by
  obtain ⟨-, first, rest, hwell⟩ := checkBlock_eq_ok_iff.mp haccept
  obtain ⟨-, first', rest', hwell'⟩ := checkBlock_eq_ok_iff.mp haccept'
  have hcommitted := Committed.of_wellFormed hdecoded hheight hwell
  have hcommitted' := Committed.of_wellFormed hdecoded' hheight' hwell'
  have hM (m) (hm : m ∈ merkleMessages H block.vtx) :=
    List.mem_append_left (merkleMessages H block'.vtx) hm
  have hM' (m) (hm : m ∈ merkleMessages H block'.vtx) :=
    List.mem_append_right (merkleMessages H block.vtx) hm
  obtain ⟨root, hbuild, hheader⟩ := hwell.merkle
  obtain ⟨root', hbuild', hheader'⟩ := hwell'.merkle
  rw [hH] at hbuild
  rw [hH'] at hbuild'
  rw [hheader rfl, hheader' rfl, buildMerkleTree_eq hbuild, buildMerkleTree_eq hbuild'] at hroot
  have hleaves := Level.root_inj (separated hinj) (hcommitted.level hinj hM)
    (hcommitted'.level hinj hM') hroot
  exact eq_of_map_eq_map (leaf_injOn hinj) (hcommitted.mem hM) (hcommitted'.mem hM') hleaves

/-! ### A block of two transactions -/

def mintOne : Transaction := ⟨1, [⟨1, 0, []⟩], [⟨1, 7⟩], [], 1, 0, false⟩

def payOne : Transaction := ⟨1, [⟨2, 5, []⟩], [⟨1, 6⟩], [], 1, 0, false⟩

/-- A block of height one, for a nonce. -/
def mintAndPay (nNonce : UInt64) : Block :=
  { hashPrevBlock := 0
    hashMerkleRoot := 0xc6c9ac3bd124391a56754bbbb329d41b06bdef5ee05cb67eb73dae5611a6048e
    hashAccountRoot := 0, nTime := 0, nHeight := 1, nNonce, nVersion := 1
    vtx := [mintOne, payOne] }

/-- A node without accounts; no proof of work is asked for. -/
def noAccounts : Surroundings := ⟨Sha256.sha256d, fun _ ↦ true, 0, none⟩

theorem merkleMessages_two (H : List UInt8 → UInt256) : merkleMessages H [mintOne, payOne] =
    [mintOne.wireBytes, payOne.wireBytes,
      merklePair (H mintOne.wireBytes, H payOne.wireBytes)] := rfl

theorem buildMerkleTree_two (H : List UInt8 → UInt256) : buildMerkleTree H [mintOne, payOne] =
    .ok (H (merklePair (H mintOne.wireBytes, H payOne.wireBytes))) := rfl

theorem hash_two : Sha256.sha256d mintOne.wireBytes =
      0x97dbef85672b0aeffd63971b93197a016af794fb02cdd2a4680e257cddfa2f1a ∧
    Sha256.sha256d payOne.wireBytes =
      0xddcea411dade5baeb20ec134501731928accb13d9d3690d8a02b38d9bfd310ec ∧
    Sha256.sha256d (merklePair (
        0x97dbef85672b0aeffd63971b93197a016af794fb02cdd2a4680e257cddfa2f1a,
        0xddcea411dade5baeb20ec134501731928accb13d9d3690d8a02b38d9bfd310ec)) =
      0xc6c9ac3bd124391a56754bbbb329d41b06bdef5ee05cb67eb73dae5611a6048e := by
  decide +kernel

theorem decoded_mintAndPay (nNonce : UInt64) (h : nNonce = 1 ∨ nNonce = 2) :
    (mintAndPay nNonce).Decoded := by
  refine ⟨leBytes 2 1 ++ leBytes 32 0 ++ leBytes 32 (mintAndPay nNonce).hashMerkleRoot.toNat ++
    leBytes 32 0 ++ leBytes 8 0 ++ leBytes 8 1 ++ leBytes 8 nNonce.toNat ++
    [2] ++ mintOne.wireBytes ++ payOne.wireBytes, [], ?_⟩
  rcases h with rfl | rfl <;> decide +kernel

theorem checkBlock_mintAndPay (nNonce : UInt64) :
    checkBlock noAccounts true true (mintAndPay nNonce) = .ok () := by
  obtain ⟨hmint, hpay, hpair⟩ := hash_two
  refine checkBlock_eq_ok_iff.mpr ⟨rfl, mintOne, [payOne], rfl, fun _ ↦ rfl, rfl, fun _ tx htx ↦ ?_,
    ⟨_, rfl⟩, ?_, _, buildMerkleTree_two _, fun _ ↦ ?_⟩
  · refine checkTransaction_eq_ok_iff.mp ?_
    rcases List.mem_cons.mp htx with rfl | htx
    · decide
    · obtain rfl := List.mem_singleton.mp htx
      decide
  · change ([mintOne, payOne].map (Transaction.getTxID Sha256.sha256d)).Nodup
    decide +kernel
  · change _ = Sha256.sha256d (merklePair (Sha256.sha256d mintOne.wireBytes,
      Sha256.sha256d payOne.wireBytes))
    rw [hmint, hpay, hpair]
    rfl

theorem injOn_mintAndPay : Set.InjOn Sha256.sha256d
    {m | m ∈ merkleMessages Sha256.sha256d [mintOne, payOne] ++
      merkleMessages Sha256.sha256d [mintOne, payOne]} := by
  obtain ⟨hmint, hpay, hpair⟩ := hash_two
  have hnodup : ((merkleMessages Sha256.sha256d [mintOne, payOne]).map Sha256.sha256d).Nodup := by
    rw [merkleMessages_two, List.map_cons, List.map_cons, List.map_cons, hmint, hpay, hpair]
    decide
  intro m hm m' hm' heq
  exact List.inj_on_of_nodup_map hnodup (or_self_iff.mp (List.mem_append.mp hm))
    (or_self_iff.mp (List.mem_append.mp hm')) heq

theorem merkle_root_commits_two : mintAndPay 1 ≠ mintAndPay 2 ∧
    checkBlock noAccounts true true (mintAndPay 1) = .ok () ∧
    checkBlock noAccounts true true (mintAndPay 2) = .ok () ∧
    (mintAndPay 1).vtx = (mintAndPay 2).vtx :=
  ⟨by decide, checkBlock_mintAndPay 1, checkBlock_mintAndPay 2,
    merkle_root_commits rfl rfl (decoded_mintAndPay 1 (.inl rfl))
      (decoded_mintAndPay 2 (.inr rfl)) (by decide) (by decide)
      (checkBlock_mintAndPay 1) (checkBlock_mintAndPay 2) injOn_mintAndPay rfl⟩

/-! ### A block of one transaction -/

def mint (nHeight nValue : UInt64) (key : UInt160) : Transaction :=
  ⟨1, [⟨nValue, 0, []⟩], [⟨nValue, key⟩], [], nHeight, 0, false⟩

/-- A block of a coinbase only. -/
def mintBlock (nHeight nValue : UInt64) (key : UInt160) : Block :=
  { hashPrevBlock := 0
    hashMerkleRoot := Sha256.sha256d (mint nHeight nValue key).wireBytes
    hashAccountRoot := 0, nTime := 0, nHeight, nNonce := 0, nVersion := 1
    vtx := [mint nHeight nValue key] }

end Cryptonite
