import Cryptonite.Core.Validation

/-!
# Signatures

`VerifyScript` of `script.cpp` and `CheckInputs` of `main.cpp`. A script is a count, that many
compact signatures of 65 bytes, and the 20-byte hashes of the keys that did not sign; the account it
may spend from is the key the one signature recovers to, or the hash of all keys and the count.

Recovering a key from a signature and hashing keys are not part of the repository; `Keys` stands for
them.
-/

namespace Cryptonite

open Codec Check

/-- The key functions of the cryptographic library. -/
structure Keys where
  /-- `CPubKey::RecoverCompact` and `CPubKey::GetID`; nothing if no key is recovered. -/
  recoverCompact : UInt256 → List UInt8 → Option UInt160
  /-- `Hash160`. -/
  hash160 : List UInt8 → UInt160

/-- `std::is_sorted`. -/
def isSorted (keys : List UInt160) : Bool := decide (keys.Pairwise (· ≤ ·))

/-- The body of the loop in `VerifyScript`, on an input of the account. -/
def verifyInput (keys : Keys) (hash : UInt256) (pubKey : UInt160) (txin : TxIn) : Bool :=
  match txin.scriptSig with
  | [] => false
  | count :: area =>
    let nSigs := count.toNat
    let nHashStart := nSigs * 65 + 1
    let nHashArea := (txin.scriptSig.length - nHashStart) % 2 ^ 32
    let nHashSigs := nHashArea / 20
    if nSigs = 0 then false
    else if txin.scriptSig.length < nHashStart then false
    else if nHashArea % 20 ≠ 0 then false
    else
      match (List.range nSigs).mapM fun i ↦
          keys.recoverCompact hash ((area.drop (i * 65)).take 65) with
      | none => false
      | some recoveredKeys =>
        let explicitKeys := (List.range nHashSigs).map fun i ↦
          BitVec.ofNat 160 (leNat ((area.drop (nSigs * 65 + i * 20)).take 20))
        if !isSorted recoveredKeys then false
        else if !isSorted explicitKeys then false
        else if nSigs = 1 ∧ nHashSigs = 0 then recoveredKeys == [pubKey]
        else
          let allKeys := (recoveredKeys ++ explicitKeys).mergeSort (fun a b ↦ decide (a ≤ b))
          keys.hash160 (allKeys.flatMap (fun key ↦ leBytes 20 key.toNat) ++ [count]) == pubKey

/-- The loop of `VerifyScript`. -/
def verifyInputs (keys : Keys) (hash : UInt256) (pubKey : UInt160) : Bool → List TxIn → Bool
  | found, [] => found
  | found, txin :: vin =>
    if txin.pubKey ≠ pubKey then verifyInputs keys hash pubKey found vin
    else if verifyInput keys hash pubKey txin then verifyInputs keys hash pubKey true vin
    else false

/-- `VerifyScript`. Its first argument, the script of the input `nIn`, is not read: the scripts of
all inputs of the account are checked. -/
def verifyScript (keys : Keys) (H : List UInt8 → UInt256) (pubKey : UInt160) (txTo : Transaction)
    (nIn : ℕ) : Exec Bool :=
  if txTo.vin.length ≤ nIn then .error .assertion
  else .ok (verifyInputs keys (txTo.signatureHash H) pubKey false txTo.vin)

def checkInputs (keys : Keys) (H : List UInt8 → UInt256) (tx : Transaction) : Check Unit :=
  if tx.isCoinBase then .ok ()
  else forM tx.vin.zipIdx fun (txin, i) ↦ do
    let valid ← call (verifyScript keys H txin.pubKey tx i)
    rejectIf (!valid) ⟨100, .nonstandard, "non-canonical", false⟩

/-! ## What the checks say -/

variable {keys : Keys} {hash : UInt256} {pubKey : UInt160}

theorem verifyInputs_eq_true_iff : ∀ {vin : List TxIn} {found : Bool},
    verifyInputs keys hash pubKey found vin = true ↔
      (∀ txin ∈ vin, txin.pubKey = pubKey → verifyInput keys hash pubKey txin = true) ∧
        (found = true ∨ ∃ txin ∈ vin, txin.pubKey = pubKey) := by
  intro vin
  induction vin with
  | nil => intro found; simp [verifyInputs]
  | cons txin vin ih =>
    intro found
    rw [verifyInputs]
    by_cases hkey : txin.pubKey = pubKey
    · rw [if_neg (not_not.mpr hkey)]
      by_cases hvalid : verifyInput keys hash pubKey txin = true
      · rw [if_pos hvalid, ih]
        simp [hkey, hvalid]
      · rw [if_neg hvalid]
        simp [hkey, hvalid]
    · rw [if_pos hkey, ih]
      simp [hkey]

variable {H : List UInt8 → UInt256} {tx : Transaction}

theorem verifyScript_eq_true_iff {nIn : ℕ} :
    verifyScript keys H pubKey tx nIn = .ok true ↔ nIn < tx.vin.length ∧
      (∀ txin ∈ tx.vin, txin.pubKey = pubKey →
        verifyInput keys (tx.signatureHash H) pubKey txin = true) ∧
      ∃ txin ∈ tx.vin, txin.pubKey = pubKey := by
  rw [verifyScript]
  split
  · next h => simp [h.not_gt]
  · next h => simp [verifyInputs_eq_true_iff, not_le.mp h]

theorem scriptSig_ne_nil_of_verifyInput {txin : TxIn}
    (h : verifyInput keys hash pubKey txin = true) : txin.scriptSig ≠ [] := by
  intro hnil
  rw [verifyInput, hnil] at h
  exact Bool.false_ne_true h

/-- **CheckInputs.** Every input of a transaction that is not a coinbase is signed. -/
theorem checkInputs_eq_ok_iff :
    checkInputs keys H tx = .ok () ↔ (tx.isCoinBase = false →
      ∀ txin ∈ tx.vin, verifyInput keys (tx.signatureHash H) txin.pubKey txin = true) := by
  rw [checkInputs]
  split
  · next h => simp [h]
  · next h =>
    simp only [Check.forM_eq_ok_iff, Except.bind_eq_ok_iff, call_eq_ok_iff, rejectIf_eq_ok_iff,
      Bool.not_eq_false', exists_eq_right, Prod.forall]
    constructor
    · intro hall _ txin hmem
      obtain ⟨i, hi, rfl⟩ := List.getElem_of_mem hmem
      have hscript := hall _ i (List.mk_mem_zipIdx_iff_getElem?.mpr (List.getElem?_eq_getElem hi))
      exact (verifyScript_eq_true_iff.mp hscript).2.1 _ hmem rfl
    · intro hall txin i hmem
      have hget := List.mk_mem_zipIdx_iff_getElem?.mp hmem
      obtain ⟨hi, -⟩ := List.getElem?_eq_some_iff.mp hget
      have hsigned := hall (Bool.not_eq_true _ ▸ h)
      refine verifyScript_eq_true_iff.mpr ⟨hi, fun txin' hmem' hkey ↦ ?_, txin,
        List.mem_of_getElem? hget, rfl⟩
      rw [← hkey]
      exact hsigned txin' hmem'

end Cryptonite
