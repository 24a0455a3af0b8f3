import Cryptonite.Core.Script
import Cryptonite.Foundation.Sha256

/-!
# Addresses of several keys

`_createmultisig` makes an address out of a number and a list of keys, given as addresses or as
public keys in hex: the hash of the sorted key IDs and of the number in a byte. `VerifyScript` takes
a count of signatures from the script, recovers a key from each, puts the keys that are listed next
to them, and compares the hash of all keys and of the count with the account. So the count is that
of the address, and the keys that signed are among its keys (`IsMultisig.recovered`).

That the signatures are as many as were asked for says less than it seems. The number is cut to a
byte, and nothing keeps a key from being in the list twice, in which case it may sign twice. The
threshold holds in the cases in which neither matters (`Enforceable`), and only in these if all keys
can sign (`multisig_threshold`).
-/

namespace Cryptonite

open Codec

/-! ## Making an address -/

/-- What a string that stands for a key is. -/
inductive KeyText where
  /-- A valid `CBitcoinAddress`, with what `GetKeyID` returns. -/
  | address (keyID : Option UInt160)
  /-- Hex digits and no address, with what `ParseHex` returns. -/
  | hex (vch : List UInt8)
  | other
  deriving DecidableEq, Repr

/-- The key functions of the cryptographic library, and how strings are read. -/
structure KeyLib where
  /-- `CPubKey::RecoverCompact`: the public key in its serialized form. -/
  recoverCompact : UInt256 → List UInt8 → Option (List UInt8)
  /-- `Hash160`. -/
  hash160 : List UInt8 → UInt160
  /-- `CBitcoinAddress`, `IsHex` and `ParseHex`. -/
  readKey : String → KeyText
  /-- `CPubKey(vch).IsFullyValid()`. -/
  isFullyValid : List UInt8 → Bool
  /-- A public key is compressed or it is not. -/
  size_recovered : ∀ {hash sig vch}, recoverCompact hash sig = some vch →
    vch.length = 33 ∨ vch.length = 65

namespace KeyLib

variable (lib : KeyLib)

/-- What `VerifyScript` uses. -/
def keys : Keys where
  recoverCompact hash sig := (lib.recoverCompact hash sig).map lib.hash160
  hash160 := lib.hash160

/-- The key IDs of `_createmultisig`, for one of the strings. -/
def keyID (ks : String) : Except String UInt160 :=
  match lib.readKey ks with
  | .address (some keyID) => .ok keyID
  | .address none => .error (ks ++ " does not refer to a key")
  | .hex vch =>
    if lib.isFullyValid vch then .ok (lib.hash160 vch)
    else .error (" Invalid public key: " ++ ks)
  | .other => .error (" Invalid public key: " ++ ks)

end KeyLib

/-- `sort(keyIDs.begin(), keyIDs.end())`. -/
def sortKeys (keyIDs : List UInt160) : List UInt160 := keyIDs.mergeSort fun a b ↦ decide (a ≤ b)

/-- `data`: the keys, and the count in a byte. -/
def multisigData (keyIDs : List UInt160) (count : UInt8) : List UInt8 :=
  keyIDs.flatMap (fun key ↦ leBytes 20 key.toNat) ++ [count]

/-- `(char)nRequired`. -/
def countByte (nRequired : ℤ) : UInt8 := UInt8.ofNat (nRequired % 256).toNat

/-- `_createmultisig`. -/
def KeyLib.createMultisig (lib : KeyLib) (nRequired : ℤ) (keys : List String) :
    Except String UInt160 :=
  if nRequired < 1 then
    .error "a multisignature address must require at least one key to redeem"
  else if toInt32 keys.length < nRequired then
    .error ("not enough keys supplied (got " ++ toString keys.length ++
      " keys, but need at least " ++ toString nRequired ++ " to redeem)")
  else if toInt32 keys.length < 2 then
    .error ("not enough keys supplied (got " ++ toString keys.length ++
      " keys, but need at least 2 for multisig)")
  else do
    let keyIDs ← keys.mapM lib.keyID
    .ok (lib.hash160 (multisigData (sortKeys keyIDs) (countByte nRequired)))

/-! ## What a script says -/

/-- The signatures in a script. -/
def signatures : List UInt8 → List (List UInt8)
  | [] => []
  | count :: area => fields 65 count.toNat area

theorem isSorted_iff {keyIDs : List UInt160} :
    isSorted keyIDs = true ↔ keyIDs.Pairwise (· ≤ ·) := by
  rw [isSorted, decide_eq_true_iff]

theorem sortKeys_perm (keyIDs : List UInt160) : (sortKeys keyIDs).Perm keyIDs :=
  List.mergeSort_perm _ _

theorem pairwise_sortKeys (keyIDs : List UInt160) : (sortKeys keyIDs).Pairwise (· ≤ ·) := by
  have h := @List.pairwise_mergeSort UInt160 (fun a b ↦ decide (a ≤ b)) (fun a b c hab hbc ↦ by
      simp only [decide_eq_true_iff, BitVec.le_def] at hab hbc ⊢
      exact hab.trans hbc)
    (fun a b ↦ by
      simp only [Bool.or_eq_true, decide_eq_true_iff, BitVec.le_def]
      exact le_total _ _) keyIDs
  rw [sortKeys]
  simpa only [decide_eq_true_iff] using h

theorem sortKeys_eq_of_perm {a b : List UInt160} (h : a.Perm b) (hb : b.Pairwise (· ≤ ·)) :
    sortKeys a = b :=
  ((sortKeys_perm a).trans h).eq_of_pairwise
    (fun _ _ _ _ hxy hyx ↦ BitVec.eq_of_toNat_eq (le_antisymm hxy hyx)) (pairwise_sortKeys a) hb

theorem length_multisigData (keyIDs : List UInt160) (count : UInt8) :
    (multisigData keyIDs count).length = 20 * keyIDs.length + 1 := by
  rw [multisigData, List.length_append, List.length_flatMap]
  simp [Nat.mul_comm]

theorem multisigData_inj {a b : List UInt160} {m n : UInt8}
    (h : multisigData a m = multisigData b n) : a = b ∧ m = n := by
  have hlength := congrArg List.length h
  rw [length_multisigData, length_multisigData] at hlength
  obtain ⟨hkeys, hcount⟩ := Transaction.prefixFreeOn_key.flatMap (fun _ _ ↦ Set.mem_univ _)
    (fun _ _ ↦ Set.mem_univ _) (by omega) h
  exact ⟨hkeys, List.head_eq_of_cons_eq hcount⟩

theorem mapM_eq_some_iff {α β : Type} {f : α → Option β} {as : List α} {bs : List β} :
    as.mapM f = some bs ↔ List.Forall₂ (fun a b ↦ f a = some b) as bs := by
  induction as generalizing bs with
  | nil =>
    rw [List.mapM_nil, List.forall₂_nil_left_iff]
    exact Option.some_inj.trans eq_comm
  | cons a as ih =>
    rw [List.mapM_cons, List.forall₂_cons_left_iff]
    simp only [Option.bind_eq_bind, Option.bind_eq_some_iff, ih, Option.pure_def, Option.some_inj]
    constructor
    · rintro ⟨b, hb, bs, hbs, rfl⟩
      exact ⟨b, bs, hb, hbs, rfl⟩
    · rintro ⟨b, bs, hb, hbs, rfl⟩
      exact ⟨b, hb, bs, hbs, rfl⟩

theorem ite_false_eq_true_iff {c : Prop} [Decidable c] {b : Bool} :
    (if c then false else b) = true ↔ ¬c ∧ b = true := by
  split_ifs with hc
  · simp [hc]
  · simp [hc]

/-- The keys in a script that have not signed. -/
def explicitKeys : List UInt8 → List UInt160
  | [] => []
  | count :: area => (List.range ((area.length - count.toNat * 65) % 2 ^ 32 / 20)).map fun i ↦
      BitVec.ofNat 160 (leNat ((area.drop (count.toNat * 65 + i * 20)).take 20))

theorem exists_of_mem_right {α β : Type} {R : α → β → Prop} {as : List α} {bs : List β}
    (h : List.Forall₂ R as bs) {b : β} (hb : b ∈ bs) : ∃ a ∈ as, R a b := by
  induction h with
  | nil => exact absurd hb List.not_mem_nil
  | cons hab _ ih =>
    rcases List.mem_cons.mp hb with rfl | hb
    · exact ⟨_, List.mem_cons_self, hab⟩
    · obtain ⟨a, ha, hab⟩ := ih hb
      exact ⟨a, List.mem_cons_of_mem _ ha, hab⟩

/-- The conditions on a script. -/
structure Accepted (keys : Keys) (hash : UInt256) (pubKey : UInt160) (count : UInt8)
    (area : List UInt8) (recoveredKeys : List UInt160) : Prop where
  pos : count.toNat ≠ 0
  length_le : count.toNat * 65 ≤ area.length
  whole : (area.length - count.toNat * 65) % 2 ^ 32 % 20 = 0
  recovers : List.Forall₂ (fun sig key ↦ keys.recoverCompact hash sig = some key)
    (signatures (count :: area)) recoveredKeys
  sorted : recoveredKeys.Pairwise (· ≤ ·)
  explicit_sorted : (explicitKeys (count :: area)).Pairwise (· ≤ ·)
  /-- A single signature, or a hash of all keys and the count. -/
  key_eq : if count.toNat = 1 ∧ explicitKeys (count :: area) = [] then recoveredKeys = [pubKey]
    else keys.hash160 (multisigData
      (sortKeys (recoveredKeys ++ explicitKeys (count :: area))) count) = pubKey

/-- **VerifyScript**, on the script of one input. -/
theorem verifyInput_eq_true_iff {keys : Keys} {hash : UInt256} {pubKey : UInt160} {txin : TxIn}
    {count : UInt8} {area : List UInt8} (hscript : txin.scriptSig = count :: area) :
    verifyInput keys hash pubKey txin = true ↔
      ∃ recoveredKeys, Accepted keys hash pubKey count area recoveredKeys := by
  have hmap : ((List.range count.toNat).mapM fun i ↦
      keys.recoverCompact hash ((area.drop (i * 65)).take 65))
      = (signatures (count :: area)).mapM (keys.recoverCompact hash) := List.mapM_map.symm
  have harea : (count :: area).length - (count.toNat * 65 + 1)
      = area.length - count.toNat * 65 := by
    rw [List.length_cons, Nat.add_sub_add_right]
  have hnil : explicitKeys (count :: area) = [] ↔
      (area.length - count.toNat * 65) % 2 ^ 32 / 20 = 0 := by
    rw [explicitKeys, List.map_eq_nil_iff, List.range_eq_nil]
  rw [verifyInput, hscript]
  simp only [ite_false_eq_true_iff, harea, hmap]
  rcases hrecovered : (signatures (count :: area)).mapM (keys.recoverCompact hash)
    with _ | recoveredKeys
  · refine iff_of_false (by simp) ?_
    rintro ⟨recoveredKeys, h⟩
    exact absurd (hrecovered.symm.trans (mapM_eq_some_iff.mpr h.recovers)) (by simp)
  · have hkey : (if count.toNat = 1 ∧ (area.length - count.toNat * 65) % 2 ^ 32 / 20 = 0 then
        recoveredKeys == [pubKey] else keys.hash160 (multisigData
          (sortKeys (recoveredKeys ++ explicitKeys (count :: area))) count) == pubKey) = true ↔
        if count.toNat = 1 ∧ explicitKeys (count :: area) = [] then recoveredKeys = [pubKey]
        else keys.hash160 (multisigData
          (sortKeys (recoveredKeys ++ explicitKeys (count :: area))) count) = pubKey := by
      simp only [hnil]
      split_ifs
      · exact beq_iff_eq
      · exact beq_iff_eq
    dsimp only
    simp only [ite_false_eq_true_iff, Bool.not_eq_true', Bool.not_eq_false, isSorted_iff, not_not,
      not_lt, List.length_cons, Nat.add_le_add_iff_right]
    constructor
    · rintro ⟨hpos, hlength, hwhole, hsorted, hsorted', h⟩
      exact ⟨recoveredKeys, hpos, hlength, hwhole, mapM_eq_some_iff.mp hrecovered, hsorted,
        hsorted', hkey.mp h⟩
    · rintro ⟨keys', h⟩
      obtain rfl := Option.some.inj (hrecovered.symm.trans (mapM_eq_some_iff.mpr h.recovers))
      exact ⟨h.pos, h.length_le, h.whole, h.sorted, h.explicit_sorted, hkey.mpr h.key_eq⟩

/-! ### Putting a script together -/

/-- The script of some signatures and the keys of those who have not signed. -/
def composeScript (sigs : List (List UInt8)) (keyIDs : List UInt160) : List UInt8 :=
  UInt8.ofNat sigs.length :: (sigs.flatten ++ keyIDs.flatMap fun key ↦ leBytes 20 key.toNat)

section Compose

variable {sigs : List (List UInt8)} {keyIDs : List UInt160}

theorem toNat_countOf (hcount : sigs.length ≤ 255) :
    (UInt8.ofNat sigs.length).toNat = sigs.length := by
  rw [UInt8.toNat_ofNat']
  exact Nat.mod_eq_of_lt (Nat.lt_succ_of_le hcount)

theorem length_flatten_sigs (hsigs : ∀ sig ∈ sigs, sig.length = 65) :
    sigs.flatten.length = sigs.length * 65 := by
  rw [List.length_flatten, List.map_congr_left hsigs, List.map_const', List.sum_replicate,
    smul_eq_mul]

theorem signatures_composeScript (hsigs : ∀ sig ∈ sigs, sig.length = 65)
    (hcount : sigs.length ≤ 255) : signatures (composeScript sigs keyIDs) = sigs := by
  rw [composeScript, signatures, toNat_countOf hcount]
  exact fields_flatten hsigs _

theorem length_keyBytes (keyIDs : List UInt160) :
    (keyIDs.flatMap fun key ↦ leBytes 20 key.toNat).length = 20 * keyIDs.length := by
  simp [List.length_flatMap, Nat.mul_comm]

theorem explicitKeys_composeScript (hsigs : ∀ sig ∈ sigs, sig.length = 65)
    (hcount : sigs.length ≤ 255) (hkeys : 20 * keyIDs.length < 2 ^ 32) :
    explicitKeys (composeScript sigs keyIDs) = keyIDs := by
  have hlength : (sigs.flatten ++ keyIDs.flatMap fun key ↦ leBytes 20 key.toNat).length
      - sigs.length * 65 = 20 * keyIDs.length := by
    rw [List.length_append, length_flatten_sigs hsigs, length_keyBytes, Nat.add_sub_cancel_left]
  rw [composeScript, explicitKeys, toNat_countOf hcount, hlength, Nat.mod_eq_of_lt hkeys,
    Nat.mul_div_cancel_left _ (by decide)]
  have hfields : fields 20 keyIDs.length (keyIDs.flatMap fun key ↦ leBytes 20 key.toNat)
      = keyIDs.map fun key ↦ leBytes 20 key.toNat := by
    have h := @fields_flatten 20 (keyIDs.map fun key ↦ leBytes 20 key.toNat) (by simp) []
    rwa [List.length_map, List.append_nil, ← List.flatMap_def] at h
  have hdrop : ∀ i, (sigs.flatten ++ keyIDs.flatMap fun key ↦ leBytes 20 key.toNat).drop
      (sigs.length * 65 + i * 20)
      = (keyIDs.flatMap fun key ↦ leBytes 20 key.toNat).drop (i * 20) := fun i ↦ by
    rw [← List.drop_drop, List.drop_left' (length_flatten_sigs hsigs)]
  simp only [hdrop]
  calc _ = (fields 20 keyIDs.length (keyIDs.flatMap fun key ↦ leBytes 20 key.toNat)).map
        fun bs ↦ BitVec.ofNat 160 (leNat bs) := by rw [fields, List.map_map]; rfl
    _ = keyIDs := by
      rw [hfields, List.map_map]
      refine (List.map_congr_left fun key _ ↦ ?_).trans (List.map_id _)
      change BitVec.ofNat 160 (leNat (leBytes 20 key.toNat)) = key
      rw [leNat_leBytes_of_lt (by exact key.isLt), BitVec.ofNat_toNat, BitVec.setWidth_eq]

/-- A script that was put together from signatures and keys in order is accepted. -/
theorem verifyInput_composeScript {keys : Keys} {hash : UInt256} {pubKey : UInt160} {txin : TxIn}
    {recoveredKeys : List UInt160} (hscript : txin.scriptSig = composeScript sigs keyIDs)
    (hsigs : ∀ sig ∈ sigs, sig.length = 65) (hpos : sigs ≠ []) (hcount : sigs.length ≤ 255)
    (hkeys : 20 * keyIDs.length < 2 ^ 32)
    (hrecovers : List.Forall₂ (fun sig key ↦ keys.recoverCompact hash sig = some key) sigs
      recoveredKeys) (hsorted : recoveredKeys.Pairwise (· ≤ ·)) (hsorted' : keyIDs.Pairwise (· ≤ ·))
    (hmany : ¬(sigs.length = 1 ∧ keyIDs = []))
    (hkey : keys.hash160 (multisigData (sortKeys (recoveredKeys ++ keyIDs))
      (UInt8.ofNat sigs.length)) = pubKey) : verifyInput keys hash pubKey txin = true := by
  have hsignatures := @signatures_composeScript sigs keyIDs hsigs hcount
  have hexplicit := explicitKeys_composeScript hsigs hcount hkeys
  have hlength : (sigs.flatten ++ keyIDs.flatMap fun key ↦ leBytes 20 key.toNat).length
      = sigs.length * 65 + 20 * keyIDs.length := by
    rw [List.length_append, length_flatten_sigs hsigs, length_keyBytes]
  rw [composeScript] at hscript hsignatures hexplicit
  refine (verifyInput_eq_true_iff hscript).mpr ⟨recoveredKeys, ?_, ?_, ?_, ?_, hsorted, ?_, ?_⟩
  · rw [toNat_countOf hcount]
    exact fun h ↦ hpos (List.eq_nil_of_length_eq_zero h)
  · rw [toNat_countOf hcount, hlength]
    exact Nat.le_add_right _ _
  · rw [toNat_countOf hcount, hlength, Nat.add_sub_cancel_left, Nat.mod_eq_of_lt hkeys]
    exact Nat.mul_mod_right 20 _
  · rwa [hsignatures]
  · rwa [hexplicit]
  · rw [hexplicit, if_neg (by rwa [toNat_countOf hcount])]
    exact hkey

end Compose

/-! ## The threshold -/

namespace KeyLib

variable {lib : KeyLib} {nRequired : ℤ} {keys : List String} {keyIDs : List UInt160}
  {address : UInt160}

/-- An address of several keys, as `_createmultisig` makes it. -/
structure IsMultisig (lib : KeyLib) (nRequired : ℤ) (keys : List String) (keyIDs : List UInt160)
    (address : UInt160) : Prop where
  one_le : 1 ≤ nRequired
  le_length : nRequired ≤ toInt32 keys.length
  two_le : 2 ≤ toInt32 keys.length
  keyIDs_eq : keys.mapM lib.keyID = .ok keyIDs
  address_eq : lib.hash160 (multisigData (sortKeys keyIDs) (countByte nRequired)) = address

theorem toNat_countByte (nRequired : ℤ) :
    (countByte nRequired).toNat = (nRequired % 256).toNat := by
  rw [countByte, UInt8.toNat_ofNat', Nat.mod_eq_of_lt]
  omega

theorem createMultisig_eq_ok_iff : lib.createMultisig nRequired keys = .ok address ↔
    ∃ keyIDs, lib.IsMultisig nRequired keys keyIDs address := by
  rw [createMultisig]
  split_ifs with hone henough htwo
  · refine iff_of_false (by simp) ?_
    rintro ⟨keyIDs, h⟩
    exact absurd h.one_le (by omega)
  · refine iff_of_false (by simp) ?_
    rintro ⟨keyIDs, h⟩
    exact absurd h.le_length (by omega)
  · refine iff_of_false (by simp) ?_
    rintro ⟨keyIDs, h⟩
    exact absurd h.two_le (by omega)
  · rw [Except.bind_eq_ok_iff]
    constructor
    · rintro ⟨keyIDs, hids, haddress⟩
      exact ⟨keyIDs, by omega, by omega, by omega, hids, Except.ok.inj haddress⟩
    · rintro ⟨keyIDs, h⟩
      exact ⟨keyIDs, h.keyIDs_eq, congrArg Except.ok h.address_eq⟩

theorem toInt32_le (n : ℕ) : toInt32 n ≤ n := by
  rw [toInt32, Int.bmod]
  split_ifs
  · omega
  · omega

theorem IsMultisig.length_eq (h : lib.IsMultisig nRequired keys keyIDs address) :
    keyIDs.length = keys.length := by
  simpa using (congrArg List.length (Except.mapM_eq_ok_iff.mp h.keyIDs_eq)).symm

theorem IsMultisig.le_card (h : lib.IsMultisig nRequired keys keyIDs address) :
    nRequired ≤ keyIDs.length ∧ 2 ≤ keyIDs.length := by
  have hle := toInt32_le keys.length
  have hlength := h.length_eq
  have h₁ := h.le_length
  have h₂ := h.two_le
  omega

/-- The script carries signatures over the hash, made with at least `nRequired` different keys out
of the list. -/
def SignedByEnough (lib : KeyLib) (made : List UInt8 → UInt256 → List UInt8 → Prop)
    (nRequired : ℤ) (keyIDs : List UInt160) (hash : UInt256) (scriptSig : List UInt8) : Prop :=
  ∃ signers : Finset UInt160, nRequired ≤ signers.card ∧ ∀ id ∈ signers, id ∈ keyIDs ∧
    ∃ sig ∈ signatures scriptSig, ∃ vch, lib.hash160 vch = id ∧ made vch hash sig

/-- `VerifyScript` accepts no input of the address without enough signatures. -/
def KeepsThreshold (lib : KeyLib) (H : List UInt8 → UInt256)
    (made : List UInt8 → UInt256 → List UInt8 → Prop) (nRequired : ℤ) (keyIDs : List UInt160)
    (address : UInt160) : Prop :=
  ∀ (tx : Transaction) (nIn : ℕ),
    verifyScript lib.keys H address tx nIn = .ok true →
    ∀ txin ∈ tx.vin, txin.pubKey = address →
      lib.SignedByEnough made nRequired keyIDs (tx.signatureHash H) txin.scriptSig

/-- When the number of signatures in a script is that of the keys it takes. -/
def Enforceable (nRequired : ℤ) (keyIDs : List UInt160) : Prop :=
  nRequired % 256 = 0 ∨ nRequired = 1 ∨ nRequired < 256 ∧ keyIDs.Nodup

theorem IsMultisig.recovered (h : lib.IsMultisig nRequired keys keyIDs address)
    (hunique : ∀ m, lib.hash160 m = address →
      m = multisigData (sortKeys keyIDs) (countByte nRequired))
    {hash : UInt256} {txin : TxIn} (hverify : verifyInput lib.keys hash address txin = true) :
    ∃ recoveredKeys rest, List.Forall₂ (fun sig key ↦
        ∃ vch, lib.recoverCompact hash sig = some vch ∧ lib.hash160 vch = key)
        (signatures txin.scriptSig) recoveredKeys ∧
      (recoveredKeys ++ rest).Perm keyIDs ∧ (recoveredKeys.length : ℤ) = nRequired % 256 ∧
      recoveredKeys ≠ [] := by
  obtain ⟨hlen, htwo⟩ := h.le_card
  rcases hscript : txin.scriptSig with _ | ⟨count, area⟩
  · exact absurd hscript (scriptSig_ne_nil_of_verifyInput hverify)
  obtain ⟨recoveredKeys, haccepted⟩ := (verifyInput_eq_true_iff hscript).mp hverify
  have hrecovers := haccepted.recovers.imp fun sig key hkey ↦ Option.map_eq_some_iff.mp hkey
  have hcount : recoveredKeys.length = count.toNat := by
    rw [← hrecovers.length_eq, signatures, fields, List.length_map, List.length_range]
  have hkey := haccepted.key_eq
  split_ifs at hkey with hsingle
  · -- a public key has the wrong length to be the data of the address
    rw [hkey] at hrecovers
    obtain ⟨sig, -, ⟨vch, hvch, haddress⟩, -⟩ := List.forall₂_cons_right_iff.mp hrecovers
    have hlength := congrArg List.length (hunique vch haddress)
    rw [length_multisigData, (sortKeys_perm keyIDs).length_eq] at hlength
    have := lib.size_recovered hvch
    omega
  · obtain ⟨hkeys, hbyte⟩ := multisigData_inj (hunique _ hkey)
    refine ⟨recoveredKeys, explicitKeys (count :: area), hrecovers, ?_, ?_, ?_⟩
    · exact ((sortKeys_perm _).symm.trans (hkeys ▸ sortKeys_perm keyIDs))
    · rw [hcount, hbyte, toNat_countByte]
      omega
    · rintro rfl
      exact haccepted.pos hcount.symm

theorem IsMultisig.keepsThreshold (h : lib.IsMultisig nRequired keys keyIDs address)
    (hunique : ∀ m, lib.hash160 m = address →
      m = multisigData (sortKeys keyIDs) (countByte nRequired))
    {made : List UInt8 → UInt256 → List UInt8 → Prop}
    (hmade : ∀ {hash sig vch}, lib.recoverCompact hash sig = some vch → made vch hash sig)
    (hcond : Enforceable nRequired keyIDs) (H : List UInt8 → UInt256) :
    lib.KeepsThreshold H made nRequired keyIDs address := by
  intro tx nIn hverify txin hmem hkey
  have hinput := (verifyScript_eq_true_iff.mp hverify).2.1 txin hmem hkey
  obtain ⟨recoveredKeys, rest, hrecovers, hperm, hlength, hne⟩ := h.recovered hunique hinput
  have hpos := List.length_pos_iff.mpr hne
  refine ⟨recoveredKeys.toFinset, ?_, fun id hid ↦ ⟨?_, ?_⟩⟩
  · rcases hcond with hzero | rfl | ⟨hlt, hnodup⟩
    · omega
    · obtain ⟨id, hid⟩ := List.length_eq_one_iff.mp (show recoveredKeys.length = 1 by omega)
      rw [hid]
      rfl
    · have hone := h.one_le
      rw [List.toFinset_card_of_nodup
        ((List.sublist_append_left _ _).nodup (hperm.nodup_iff.mpr hnodup))]
      omega
  · exact hperm.subset (List.mem_append_left rest (List.mem_toFinset.mp hid))
  · obtain ⟨sig, hsig, vch, hvch, hid'⟩ := exists_of_mem_right hrecovers (List.mem_toFinset.mp hid)
    exact ⟨sig, hsig, vch, hid', hmade hvch⟩

/-- Every key of the list can sign. -/
def CanSign (lib : KeyLib) (keyIDs : List UInt160) : Prop :=
  ∀ hash, ∀ id ∈ keyIDs, ∃ sig vch, sig.length = 65 ∧ lib.recoverCompact hash sig = some vch ∧
    lib.hash160 vch = id

theorem exists_few_of_not_enforceable (hone : 1 ≤ nRequired) (hle : nRequired ≤ keyIDs.length)
    (h : ¬Enforceable nRequired keyIDs) :
    ∃ few rest : List UInt160, (few ++ rest).Perm keyIDs ∧
      (few.length : ℤ) = nRequired % 256 ∧ (few.toFinset.card : ℤ) < nRequired := by
  rw [Enforceable, not_or, not_or, not_and_or] at h
  obtain ⟨hzero, hne, h⟩ := h
  by_cases hlt : nRequired < 256
  · -- one of the keys is there twice
    obtain ⟨id, hid⟩ := List.exists_duplicate_iff_not_nodup.mpr (h.resolve_left (not_not.mpr hlt))
    obtain ⟨rest, hrest⟩ := (List.duplicate_iff_sublist.mp hid).exists_perm_append
    have hlength := hrest.length_eq
    rw [List.length_append, List.length_cons, List.length_singleton] at hlength
    refine ⟨id :: id :: rest.take (nRequired - 2).toNat, rest.drop (nRequired - 2).toNat,
      ?_, ?_, ?_⟩
    · rw [List.cons_append, List.cons_append, List.take_append_drop]
      exact hrest.symm
    · simp only [List.length_cons, List.length_take]
      omega
    · have hcard := List.toFinset_card_le (id :: rest.take (nRequired - 2).toNat)
      rw [List.length_cons, List.length_take] at hcard
      rw [List.toFinset_cons, Finset.insert_eq_of_mem (by simp)]
      omega
  · refine ⟨keyIDs.take (nRequired % 256).toNat, keyIDs.drop (nRequired % 256).toNat, ?_, ?_, ?_⟩
    · rw [List.take_append_drop]
    · rw [List.length_take]
      omega
    · have hcard := List.toFinset_card_le (keyIDs.take (nRequired % 256).toNat)
      rw [List.length_take] at hcard
      omega

theorem CanSign.exists_sigs (hsign : lib.CanSign keyIDs) (hash : UInt256) : ∀ {ids : List UInt160},
    (∀ id ∈ ids, id ∈ keyIDs) → ∃ sigs : List (List UInt8), (∀ sig ∈ sigs, sig.length = 65) ∧
      List.Forall₂ (fun sig id ↦ lib.keys.recoverCompact hash sig = some id) sigs ids := by
  intro ids
  induction ids with
  | nil => exact fun _ ↦ ⟨[], by simp, .nil⟩
  | cons id ids ih =>
    intro hmem
    rw [List.forall_mem_cons] at hmem
    obtain ⟨sig, vch, hlength, hrecover, hid⟩ := hsign hash id hmem.1
    obtain ⟨sigs, hsigs, hrecovers⟩ := ih hmem.2
    refine ⟨sig :: sigs, List.forall_mem_cons.mpr ⟨hlength, hsigs⟩, .cons ?_ hrecovers⟩
    exact Option.map_eq_some_iff.mpr ⟨vch, hrecover, hid⟩

/-- The transaction that takes nothing from an account, with a script. -/
def takeNothing (address : UInt160) (scriptSig : List UInt8) : Transaction :=
  ⟨1, [⟨0, address, scriptSig⟩], [], [], 0, 0, false⟩

theorem IsMultisig.exists_accepted (h : lib.IsMultisig nRequired keys keyIDs address)
    (hsign : lib.CanSign keyIDs) (hsmall : 20 * keyIDs.length < 2 ^ 32) {few rest : List UInt160}
    (hperm : (few ++ rest).Perm keyIDs) (hlength : (few.length : ℤ) = nRequired % 256)
    (hne : few ≠ []) (H : List UInt8 → UInt256) : ∃ scriptSig,
      verifyScript lib.keys H address (takeNothing address scriptSig) 0 = .ok true ∧
      ∀ sig ∈ signatures scriptSig, ∃ id ∈ few, lib.keys.recoverCompact
        ((takeNothing address scriptSig).signatureHash H) sig = some id := by
  obtain ⟨sigs, hsigs, hrecovers⟩ := hsign.exists_sigs ((takeNothing address []).signatureHash H)
    fun id hid ↦ hperm.subset (List.mem_append_left rest ((sortKeys_perm few).mem_iff.mp hid))
  have hnum : sigs.length = few.length := hrecovers.length_eq.trans (sortKeys_perm few).length_eq
  have hrest := (sortKeys_perm rest).length_eq
  have hall := hperm.length_eq
  rw [List.length_append] at hall
  have hpos := List.length_pos_iff.mpr hne
  have hbyte : UInt8.ofNat sigs.length = countByte nRequired := by
    rw [countByte, hnum]
    exact congrArg UInt8.ofNat (by omega)
  have hsorted : sortKeys (sortKeys few ++ sortKeys rest) = sortKeys keyIDs :=
    sortKeys_eq_of_perm ((((sortKeys_perm few).append (sortKeys_perm rest)).trans hperm).trans
      (sortKeys_perm keyIDs).symm) (pairwise_sortKeys keyIDs)
  have hcount : sigs.length ≤ 255 := by omega
  refine ⟨composeScript sigs (sortKeys rest), verifyScript_eq_true_iff.mpr
    ⟨Nat.one_pos, fun txin hmem _ ↦ ?_, _, List.mem_singleton_self _, rfl⟩, fun sig hsig ↦ ?_⟩
  · obtain rfl := List.mem_singleton.mp hmem
    refine verifyInput_composeScript rfl hsigs ?_ hcount (by omega) hrecovers
      (pairwise_sortKeys few) (pairwise_sortKeys rest) ?_ ?_
    · exact List.ne_nil_of_length_pos (by omega)
    · rintro ⟨hone, hnil⟩
      have := h.le_card.2
      have := congrArg List.length hnil
      rw [List.length_nil] at this
      omega
    · rw [hsorted, hbyte]
      exact h.address_eq
  · rw [signatures_composeScript hsigs hcount] at hsig
    obtain ⟨id, hid, hrecover⟩ := exists_of_mem_right hrecovers.flip hsig
    exact ⟨id, (sortKeys_perm few).mem_iff.mp hid, hrecover⟩

theorem not_signedByEnough {few : List UInt160} {hash : UInt256} {scriptSig : List UInt8}
    (hcard : (few.toFinset.card : ℤ) < nRequired) (hsigs : ∀ sig ∈ signatures scriptSig, ∃ id ∈ few,
      lib.keys.recoverCompact hash sig = some id) :
    ¬lib.SignedByEnough (fun vch hash sig ↦ lib.recoverCompact hash sig = some vch) nRequired keyIDs
      hash scriptSig := by
  rintro ⟨signers, henough, hsigners⟩
  have hsub : signers ⊆ few.toFinset := by
    intro id hid
    obtain ⟨-, sig, hsig, vch, hvch, hrecover⟩ := hsigners id hid
    obtain ⟨id', hid', hrecover'⟩ := hsigs sig hsig
    obtain ⟨vch', hvch', rfl⟩ := Option.map_eq_some_iff.mp hrecover'
    obtain rfl := Option.some.inj (hrecover.symm.trans hvch')
    rw [← hvch]
    exact List.mem_toFinset.mpr hid'
  have := Finset.card_le_card hsub
  omega

/-- **Threshold.** Suppose the address is the hash of nothing but its own data, as it is if
`Hash160` is injective. If the threshold can be enforced, `VerifyScript` accepts an input of the
address only with signatures made with at least `nRequired` different keys of the list. If all keys
of the list can sign, and they fit a script, then it can be enforced only in that case. -/
theorem multisig_threshold (hcreate : lib.createMultisig nRequired keys = .ok address)
    (hids : keys.mapM lib.keyID = .ok keyIDs)
    (hunique : ∀ m, lib.hash160 m = address →
      m = multisigData (sortKeys keyIDs) (countByte nRequired)) (H : List UInt8 → UInt256) :
    (Enforceable nRequired keyIDs → ∀ made : List UInt8 → UInt256 → List UInt8 → Prop,
      (∀ {hash sig vch}, lib.recoverCompact hash sig = some vch → made vch hash sig) →
      lib.KeepsThreshold H made nRequired keyIDs address) ∧
    (lib.CanSign keyIDs → 20 * keyIDs.length < 2 ^ 32 →
      lib.KeepsThreshold H (fun vch hash sig ↦ lib.recoverCompact hash sig = some vch) nRequired
        keyIDs address → Enforceable nRequired keyIDs) := by
  obtain ⟨keyIDs', h⟩ := createMultisig_eq_ok_iff.mp hcreate
  obtain rfl := Except.ok.inj (h.keyIDs_eq.symm.trans hids)
  refine ⟨fun hcond made hmade ↦ h.keepsThreshold hunique hmade hcond H,
    fun hsign hsmall hkeeps ↦ ?_⟩
  by_contra hcond
  obtain ⟨few, rest, hperm, hlength, hcard⟩ :=
    exists_few_of_not_enforceable h.one_le h.le_card.1 hcond
  have hne : few ≠ [] := by
    rintro rfl
    exact hcond (.inl hlength.symm)
  obtain ⟨scriptSig, hverify, hsigs⟩ := h.exists_accepted hsign hsmall hperm hlength hne H
  exact not_signedByEnough hcard hsigs (hkeeps _ 0 hverify _ (List.mem_singleton_self _) rfl)

end KeyLib

/-! ### Two keys, and one key twice -/

/-- A library with keys of one byte: a signature is that of the key it begins with. The hash of the
given data is `1000`, which is that of nothing else. -/
def byteKeys (data : List UInt8) : KeyLib where
  recoverCompact _ sig := some (List.replicate 33 (sig.headD 0))
  hash160 m := if m = data then 1000 else BitVec.ofNat 160 (m.headD 0).toNat
  readKey ks := .address (if ks = "a" then some 1 else if ks = "b" then some 2 else none)
  isFullyValid _ := false
  size_recovered h := .inl (by rw [← Option.some.inj h, List.length_replicate])

theorem eq_of_hash160_byteKeys {data m : List UInt8} (h : (byteKeys data).hash160 m = 1000) :
    m = data := by
  by_contra hne
  have hlt := (m.headD 0).toNat_lt
  have hnat : (m.headD 0).toNat % 2 ^ 160 = 1000 := by
    have hnat := congrArg BitVec.toNat h
    simp only [byteKeys, if_neg hne, BitVec.toNat_ofNat] at hnat
    exact hnat
  omega

theorem sortKeys_of_le {a b : UInt160} (h : a ≤ b) : sortKeys [a, b] = [a, b] :=
  sortKeys_eq_of_perm (.refl _) (by simpa using h)

theorem isMultisig_byteKeys {a b : UInt160} (hle : a ≤ b) {keys : List String}
    (hlength : keys.length = 2)
    (hids : keys.mapM (byteKeys (multisigData [a, b] 2)).keyID = .ok [a, b]) :
    (byteKeys (multisigData [a, b] 2)).IsMultisig 2 keys [a, b] 1000 := by
  refine ⟨by decide, by rw [hlength]; decide, by rw [hlength]; decide, hids, ?_⟩
  rw [sortKeys_of_le hle, byteKeys]
  exact if_pos rfl

/-- Two of two keys. -/
theorem multisig_threshold_two :
    (byteKeys (multisigData [1, 2] 2)).KeepsThreshold Sha256.sha256d
      (fun vch hash sig ↦ (byteKeys (multisigData [1, 2] 2)).recoverCompact hash sig = some vch)
      2 [1, 2] 1000 := by
  have h : (byteKeys (multisigData [1, 2] 2)).IsMultisig 2 ["a", "b"] [1, 2] 1000 :=
    isMultisig_byteKeys (by decide) rfl rfl
  refine (KeyLib.multisig_threshold (KeyLib.createMultisig_eq_ok_iff.mpr ⟨_, h⟩) h.keyIDs_eq
    (fun m hm ↦ ?_) Sha256.sha256d).1 (.inr (.inr ⟨by decide, by decide⟩)) _ id
  rw [sortKeys_of_le (by decide)]
  exact eq_of_hash160_byteKeys hm

/-- The script with two signatures of the key `1`. -/
def twoOfOne : List UInt8 := composeScript [List.replicate 65 1, List.replicate 65 1] []

/-- With one key given twice and two signatures required, the key signs twice and is accepted. -/
theorem one_key_signs_twice :
    (byteKeys (multisigData [1, 1] 2)).createMultisig 2 ["a", "a"] = .ok 1000 ∧
    (∀ m, (byteKeys (multisigData [1, 1] 2)).hash160 m = 1000 → m = multisigData [1, 1] 2) ∧
    verifyScript (byteKeys (multisigData [1, 1] 2)).keys Sha256.sha256d 1000
      (KeyLib.takeNothing 1000 twoOfOne) 0 = .ok true ∧
    ¬(byteKeys (multisigData [1, 1] 2)).SignedByEnough
      (fun vch hash sig ↦ (byteKeys (multisigData [1, 1] 2)).recoverCompact hash sig = some vch)
      2 [1, 1] ((KeyLib.takeNothing 1000 twoOfOne).signatureHash Sha256.sha256d) twoOfOne := by
  have h : (byteKeys (multisigData [1, 1] 2)).IsMultisig 2 ["a", "a"] [1, 1] 1000 :=
    isMultisig_byteKeys (by decide) rfl rfl
  have hrecover : ∀ hash, (byteKeys (multisigData [1, 1] 2)).keys.recoverCompact hash
      (List.replicate 65 1) = some 1 := fun hash ↦ congrArg some
    (show (byteKeys (multisigData [1, 1] 2)).hash160 (List.replicate 33 1) = 1 by decide)
  have hsignatures : signatures twoOfOne = [List.replicate 65 1, List.replicate 65 1] :=
    signatures_composeScript (by simp) (by decide)
  refine ⟨KeyLib.createMultisig_eq_ok_iff.mpr ⟨_, h⟩, fun m ↦ eq_of_hash160_byteKeys,
    verifyScript_eq_true_iff.mpr ⟨Nat.one_pos, fun txin hmem _ ↦ ?_, _, List.mem_singleton_self _,
      rfl⟩, @KeyLib.not_signedByEnough _ _ _ [1] _ _ (by decide) fun sig hsig ↦ ⟨1, by decide, ?_⟩⟩
  · obtain rfl := List.mem_singleton.mp hmem
    refine verifyInput_composeScript rfl (by simp) (by simp) (by decide) (by decide)
      (.cons (hrecover _) (.cons (hrecover _) .nil)) (by decide) .nil (by simp) ?_
    rw [List.append_nil]
    exact h.address_eq
  · rw [hsignatures] at hsig
    obtain rfl : sig = List.replicate 65 1 := by simpa using hsig
    exact hrecover _

end Cryptonite
