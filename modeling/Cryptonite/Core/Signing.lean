import Cryptonite.Core.Multisig

/-!
# Signing for several keys

`setuprawtransaction` writes a script with no signatures and the keys of an address in order, and
the key holders sign it one after the other with `SignOnce`. A call takes the script apart
(`DecomposeSig`), moves its own key from the listed keys to the signed ones, sorts these, and puts
the script together again (`ComposeSig`). At every step the keys that have signed and the keys that
are listed are both in order and together those of the address (`PartlySigned`), so after as many
steps as the address asks for `VerifyScript` finds the data the address is the hash of
(`KeyLib.signing_workflow`).

This takes that the template lists the keys of the address. `_createmultisig` takes keys as
addresses or in hex, but `setuprawtransaction` reads them as addresses only, and lists zero for the
others.
-/

namespace Cryptonite

open Codec

/-! ## The model -/

/-- A `CKey`: what its public key is, and what it signs. -/
structure SigningKey where
  /-- `GetPubKey().GetID()`. -/
  id : UInt160
  /-- `SignCompact`. -/
  signCompact : UInt256 → Option (List UInt8)

/-- The order of pairs of a key and a signature. -/
def pairLe (a b : UInt160 × List UInt8) : Bool :=
  decide (a.1 < b.1) || (a.1 == b.1 && decide (a.2 ≤ b.2))

/-- `sort(recoveredPairs.begin(), recoveredPairs.end())`. -/
def sortPairs (pairs : List (UInt160 × List UInt8)) : List (UInt160 × List UInt8) :=
  pairs.mergeSort pairLe

def composeSig (txin : TxIn) (recoveredKeys : List (UInt160 × List UInt8))
    (explicitKeys : List UInt160) : TxIn :=
  { txin with scriptSig := composeScript (recoveredKeys.map Prod.snd) explicitKeys }

/-- The first loop of `DecomposeSig`, from the `i`-th signature on, for `n` of them. -/
def recoverPairs (keys : Keys) (hash : UInt256) (area : List UInt8) :
    ℕ → ℕ → Exec (Option (List (UInt160 × List UInt8)))
  | 0, _ => .ok (some [])
  | n + 1, i =>
    if area.length < (i + 1) * 65 then .error .outOfBounds
    else
      let sigpart := (area.drop (i * 65)).take 65
      match keys.recoverCompact hash sigpart with
      | none => .ok none
      | some key => do
        let pairs ← recoverPairs keys hash area n (i + 1)
        .ok (pairs.map ((key, sigpart) :: ·))

def decomposeSig (keys : Keys) (hash : UInt256) (sig : List UInt8) :
    Exec (Option (List (UInt160 × List UInt8) × List UInt160)) :=
  match sig with
  | [] => .error .outOfBounds
  | count :: area => do
    let pairs ← recoverPairs keys hash area count.toNat 0
    .ok (pairs.map fun pairs ↦ (pairs, explicitKeys (count :: area)))

def signOnce (keys : Keys) (tx : Transaction) (hash : UInt256) (idx : ℕ) (key : SigningKey) :
    Exec (Bool × Transaction) :=
  match tx.vin[idx]? with
  | none => .error .outOfBounds
  | some txin => do
    match ← decomposeSig keys hash txin.scriptSig with
    | none => .ok (false, tx)
    | some (recoveredPairs, explicitKeys) =>
      if key.id ∈ explicitKeys then
        match key.signCompact hash with
        | none => .ok (false, tx)
        | some vchSig =>
          let txin := composeSig txin (sortPairs (recoveredPairs ++ [(key.id, vchSig)]))
            (explicitKeys.erase key.id)
          .ok (true, { tx with vin := tx.vin.set idx txin })
      else .ok (false, tx)

/-- The key holders call `SignOnce` one after the other, as long as it succeeds. -/
def signAll (keys : Keys) (hash : UInt256) (idx : ℕ) :
    Transaction → List SigningKey → Exec (Bool × Transaction)
  | tx, [] => .ok (true, tx)
  | tx, key :: signers => do
    let (ok, tx) ← signOnce keys tx hash idx key
    if ok then signAll keys hash idx tx signers else .ok (false, tx)

/-- The key IDs of `setuprawtransaction`: `GetKeyID` leaves zero if it fails. -/
def KeyLib.templateID (lib : KeyLib) (ks : String) : UInt160 :=
  match lib.readKey ks with
  | .address (some keyID) => keyID
  | .address none => 0
  | .hex _ => 0
  | .other => 0

/-- What `setuprawtransaction` does with one of the inputs it is given: its index, and the number
and the keys of its address. -/
def KeyLib.setupInput (lib : KeyLib) (indexSet : List ℤ) (tx : Transaction)
    (input : ℤ × ℤ × List String) : Except String Transaction :=
  let (idx, nRequired, keys) := input
  match if idx < 0 then none else tx.vin[idx.toNat]? with
  | none => .error "Indexes out of bounds"
  | some txin =>
    if idx ∈ indexSet then .error "Duplicate indexes"
    else do
      let key ← lib.createMultisig nRequired keys
      if txin.pubKey ≠ key then .error "Vin address does not match configured address"
      else
        let keyIDs := sortKeys (keys.map lib.templateID)
        let scriptSig := 0 :: keyIDs.flatMap fun key ↦ leBytes 20 key.toNat
        .ok { tx with vin := tx.vin.set idx.toNat { txin with scriptSig } }

/-- The loop of `setuprawtransaction`. -/
def KeyLib.setupInputs (lib : KeyLib) : List ℤ → Transaction → List (ℤ × ℤ × List String) →
    Except String Transaction
  | _, tx, [] => .ok tx
  | indexSet, tx, input :: inputs => do
    let tx ← lib.setupInput indexSet tx input
    setupInputs lib (input.1 :: indexSet) tx inputs

/-- `setuprawtransaction`, between reading the transaction and writing it. -/
def KeyLib.setupRawTransaction (lib : KeyLib) (tx : Transaction)
    (inputs : List (ℤ × ℤ × List String)) : Except String Transaction :=
  lib.setupInputs [] tx inputs

/-! ## Taking a script apart -/

section Decompose

variable {keys : Keys} {hash : UInt256} {pairs : List (UInt160 × List UInt8)}
  {explicit : List UInt160}

/-- The signature is one of the key over the hash. -/
def SignatureOf (keys : Keys) (hash : UInt256) (pair : UInt160 × List UInt8) : Prop :=
  pair.2.length = 65 ∧ keys.recoverCompact hash pair.2 = some pair.1

theorem recoverPairs_flatten (rest : List UInt8) : ∀ {todo done : List (UInt160 × List UInt8)},
    (∀ pair ∈ done, SignatureOf keys hash pair) → (∀ pair ∈ todo, SignatureOf keys hash pair) →
    recoverPairs keys hash (((done ++ todo).map Prod.snd).flatten ++ rest) todo.length done.length
      = .ok (some todo) := by
  intro todo
  induction todo with
  | nil => exact fun _ _ ↦ rfl
  | cons pair todo ih =>
    intro done hdone htodo
    rw [List.forall_mem_cons] at htodo
    have hlength : ((done.map Prod.snd).flatten).length = done.length * 65 := by
      rw [length_flatten_sigs, List.length_map]
      rintro sig hsig
      obtain ⟨pair, hpair, rfl⟩ := List.mem_map.mp hsig
      exact (hdone pair hpair).1
    have hslot : ((((done ++ pair :: todo).map Prod.snd).flatten ++ rest).drop
        (done.length * 65)).take 65 = pair.2 := by
      rw [List.map_append, List.flatten_append, List.append_assoc, List.drop_left' hlength,
        List.map_cons, List.flatten_cons, List.append_assoc, List.take_left' htodo.1.1]
    have hbound : ¬(((done ++ pair :: todo).map Prod.snd).flatten ++ rest).length
        < (done.length + 1) * 65 := by
      rw [List.map_append, List.flatten_append, List.map_cons, List.flatten_cons]
      simp only [List.length_append, hlength, htodo.1.1]
      omega
    have hih := @ih (done ++ [pair])
      (List.forall_mem_append.mpr ⟨hdone, List.forall_mem_singleton.mpr htodo.1⟩) htodo.2
    rw [List.append_assoc, List.singleton_append, List.length_append, List.length_singleton] at hih
    rw [List.length_cons, recoverPairs, if_neg hbound]
    dsimp only
    rw [hslot, htodo.1.2]
    dsimp only
    rw [hih]
    rfl

theorem decomposeSig_composeScript (hpairs : ∀ pair ∈ pairs, SignatureOf keys hash pair)
    (hcount : pairs.length ≤ 255) (hexplicit : 20 * explicit.length < 2 ^ 32) :
    decomposeSig keys hash (composeScript (pairs.map Prod.snd) explicit)
      = .ok (some (pairs, explicit)) := by
  have hsigs : ∀ sig ∈ pairs.map Prod.snd, sig.length = 65 := by
    rintro sig hsig
    obtain ⟨pair, hpair, rfl⟩ := List.mem_map.mp hsig
    exact (hpairs pair hpair).1
  have hcount' : (pairs.map Prod.snd).length ≤ 255 := by rwa [List.length_map]
  have hkeys := explicitKeys_composeScript hsigs hcount' hexplicit
  have hrecover := @recoverPairs_flatten keys hash
    (explicit.flatMap fun key ↦ leBytes 20 key.toNat) pairs [] (by simp) hpairs
  rw [composeScript] at hkeys ⊢
  rw [decomposeSig, hkeys, toNat_countOf hcount', List.length_map]
  rw [List.nil_append, List.length_nil] at hrecover
  rw [hrecover]
  rfl

/-! ## Sorted pairs -/

theorem sortPairs_perm (pairs : List (UInt160 × List UInt8)) : (sortPairs pairs).Perm pairs :=
  List.mergeSort_perm _ _

theorem pairLe_iff {a b : UInt160 × List UInt8} : pairLe a b = true ↔
    a.1.toNat < b.1.toNat ∨ a.1.toNat = b.1.toNat ∧ a.2 ≤ b.2 := by
  rw [pairLe, Bool.or_eq_true, Bool.and_eq_true, decide_eq_true_iff, decide_eq_true_iff,
    beq_iff_eq, BitVec.lt_def, BitVec.toNat_inj]

theorem pairwise_sortPairs (pairs : List (UInt160 × List UInt8)) :
    ((sortPairs pairs).map Prod.fst).Pairwise (· ≤ ·) := by
  have hsorted := @List.pairwise_mergeSort (UInt160 × List UInt8) pairLe (fun a b c hab hbc ↦ by
      rw [pairLe_iff] at hab hbc ⊢
      rcases hab with hab | ⟨hab, hab'⟩
      · rcases hbc with hbc | ⟨hbc, -⟩
        · exact .inl (hab.trans hbc)
        · exact .inl (hab.trans_eq hbc)
      · rcases hbc with hbc | ⟨hbc, hbc'⟩
        · exact .inl (hab.trans_lt hbc)
        · exact .inr ⟨hab.trans hbc, List.le_trans hab' hbc'⟩)
    (fun a b ↦ by
      rw [Bool.or_eq_true, pairLe_iff, pairLe_iff]
      rcases lt_trichotomy a.1.toNat b.1.toNat with h | h | h
      · exact .inl (.inl h)
      · exact (List.le_total a.2 b.2).imp (fun hle ↦ .inr ⟨h, hle⟩) fun hle ↦ .inr ⟨h.symm, hle⟩
      · exact .inr (.inl h)) pairs
  rw [List.pairwise_map]
  refine hsorted.imp fun {a b} hab ↦ ?_
  rw [pairLe_iff] at hab
  rw [BitVec.le_def]
  rcases hab with hab | hab
  · exact hab.le
  · exact hab.1.le

end Decompose

/-! ## Signing -/

section Sign

variable {keys : Keys} {hash : UInt256} {pairs : List (UInt160 × List UInt8)}
  {explicit ids : List UInt160} {tx : Transaction} {txin : TxIn} {idx : ℕ} {key : SigningKey}

/-- `RecoverCompact` inverts `SignCompact`. -/
def SigningKey.Signs (keys : Keys) (key : SigningKey) : Prop :=
  ∀ hash, ∃ sig, key.signCompact hash = some sig ∧ SignatureOf keys hash (key.id, sig)

/-- Some of the keys have signed, the others are listed, and all of it is in order. -/
structure PartlySigned (keys : Keys) (hash : UInt256) (ids : List UInt160)
    (pairs : List (UInt160 × List UInt8)) (explicit : List UInt160) : Prop where
  signatureOf : ∀ pair ∈ pairs, SignatureOf keys hash pair
  sorted : (pairs.map Prod.fst).Pairwise (· ≤ ·)
  explicit_sorted : explicit.Pairwise (· ≤ ·)
  perm : (pairs.map Prod.fst ++ explicit).Perm ids

theorem partlySigned_nil (ids : List UInt160) : PartlySigned keys hash ids [] (sortKeys ids) where
  signatureOf := by simp
  sorted := .nil
  explicit_sorted := pairwise_sortKeys ids
  perm := sortKeys_perm ids

theorem PartlySigned.sign (h : PartlySigned keys hash ids pairs explicit)
    {pair : UInt160 × List UInt8} (hpair : SignatureOf keys hash pair) (hmem : pair.1 ∈ explicit) :
    PartlySigned keys hash ids (sortPairs (pairs ++ [pair])) (explicit.erase pair.1) where
  signatureOf p hp := by
    have hp := (sortPairs_perm _).mem_iff.mp hp
    rcases List.mem_append.mp hp with hp | hp
    · exact h.signatureOf p hp
    · rwa [List.mem_singleton.mp hp]
  sorted := pairwise_sortPairs _
  explicit_sorted := h.explicit_sorted.sublist List.erase_sublist
  perm := by
    have hpairs := (sortPairs_perm (pairs ++ [pair])).map Prod.fst
    rw [List.map_append, List.map_singleton] at hpairs
    refine (hpairs.append_right _).trans (.trans ?_ h.perm)
    rw [List.append_assoc, List.singleton_append]
    exact (List.perm_cons_erase hmem).symm.append_left _

/-- What the transaction is like with another script on one of the inputs. -/
def setScript (tx : Transaction) (idx : ℕ) (txin : TxIn) (scriptSig : List UInt8) : Transaction :=
  { tx with vin := tx.vin.set idx { txin with scriptSig } }

/-- **SignOnce** succeeds for a key that is listed. -/
theorem signOnce_eq (h : PartlySigned keys hash ids pairs explicit)
    (hvin : tx.vin[idx]? = some txin)
    (hscript : txin.scriptSig = composeScript (pairs.map Prod.snd) explicit)
    (hcount : pairs.length ≤ 255) (hsmall : 20 * explicit.length < 2 ^ 32)
    (hmem : key.id ∈ explicit) {sig : List UInt8} (hsig : key.signCompact hash = some sig) :
    signOnce keys tx hash idx key = .ok (true, setScript tx idx txin (composeScript
      ((sortPairs (pairs ++ [(key.id, sig)])).map Prod.snd) (explicit.erase key.id))) := by
  rw [signOnce, hvin]
  dsimp only
  rw [hscript, decomposeSig_composeScript h.signatureOf hcount hsmall, Except.bind_of_eq_ok rfl]
  dsimp only
  rw [if_pos hmem, hsig]
  rfl

theorem signOnce_of_notMem (h : PartlySigned keys hash ids pairs explicit)
    (hvin : tx.vin[idx]? = some txin)
    (hscript : txin.scriptSig = composeScript (pairs.map Prod.snd) explicit)
    (hcount : pairs.length ≤ 255) (hsmall : 20 * explicit.length < 2 ^ 32)
    (hmem : key.id ∉ explicit) : signOnce keys tx hash idx key = .ok (false, tx) := by
  rw [signOnce, hvin]
  dsimp only
  rw [hscript, decomposeSig_composeScript h.signatureOf hcount hsmall, Except.bind_of_eq_ok rfl]
  dsimp only
  rw [if_neg hmem]

theorem getElem?_setScript (hvin : tx.vin[idx]? = some txin) (scriptSig : List UInt8) :
    (setScript tx idx txin scriptSig).vin[idx]? = some { txin with scriptSig } := by
  obtain ⟨hlt, -⟩ := List.getElem?_eq_some_iff.mp hvin
  exact List.getElem?_set_self hlt

theorem setScript_self (hvin : tx.vin[idx]? = some txin) :
    setScript tx idx txin txin.scriptSig = tx := by
  obtain ⟨hlt, hget⟩ := List.getElem?_eq_some_iff.mp hvin
  rw [setScript, ← hget, List.set_getElem_self]

theorem setScript_setScript (tx : Transaction) (idx : ℕ) (txin : TxIn) (a b : List UInt8) :
    setScript (setScript tx idx txin a) idx { txin with scriptSig := a } b
      = setScript tx idx txin b := by
  rw [setScript, setScript, List.set_set, setScript]

theorem signatureHash_setScript (hvin : tx.vin[idx]? = some txin) (scriptSig : List UInt8)
    (H : List UInt8 → UInt256) :
    (setScript tx idx txin scriptSig).signatureHash H = tx.signatureHash H := by
  have hspends : (tx.vin.set idx { txin with scriptSig }).map
      (fun txin ↦ (txin.pubKey, txin.nValue))
      = tx.vin.map fun txin ↦ (txin.pubKey, txin.nValue) := by
    have hget : (tx.vin.map fun txin ↦ (txin.pubKey, txin.nValue))[idx]?
        = some (txin.pubKey, txin.nValue) := by rw [List.getElem?_map, hvin, Option.map_some]
    obtain ⟨hlt, hspend⟩ := List.getElem?_eq_some_iff.mp hget
    rw [List.map_set, ← hspend, List.set_getElem_self]
  have hbytes : ∀ (n : ℕ) (vin : List TxIn), ((vin.take n).flatMap fun txin ↦
      leBytes 20 txin.pubKey.toNat ++ leBytes 8 txin.nValue.toNat)
      = ((vin.map fun txin ↦ (txin.pubKey, txin.nValue)).take n).flatMap fun spend ↦
        leBytes 20 spend.1.toNat ++ leBytes 8 spend.2.toNat := fun n vin ↦ by
    rw [← List.map_take, List.flatMap_map]
  rw [Transaction.signatureHash, Transaction.signatureHash, Transaction.signatureBytes,
    Transaction.signatureBytes, setScript]
  simp only [hbytes, hspends, List.length_set]

/-- **SignOnce**, one key after the other, whatever their order. -/
theorem signAll_eq (hsmall : 20 * ids.length < 2 ^ 32) {signers : List SigningKey} :
    ∀ {tx : Transaction} {txin : TxIn} {pairs : List (UInt160 × List UInt8)}
      {explicit : List UInt160}, PartlySigned keys hash ids pairs explicit →
    tx.vin[idx]? = some txin →
    txin.scriptSig = composeScript (pairs.map Prod.snd) explicit →
    pairs.length + signers.length ≤ 255 → (signers.map SigningKey.id).Nodup →
    (∀ key ∈ signers, key.id ∈ explicit ∧ key.Signs keys) →
    ∃ pairs' explicit', PartlySigned keys hash ids pairs' explicit' ∧
      pairs'.length = pairs.length + signers.length ∧
      signAll keys hash idx tx signers = .ok (true,
        setScript tx idx txin (composeScript (pairs'.map Prod.snd) explicit')) := by
  induction signers with
  | nil =>
    intro tx txin pairs explicit h hvin hscript _ _ _
    refine ⟨pairs, explicit, h, rfl, ?_⟩
    rw [signAll, ← hscript, setScript_self hvin]
  | cons key signers ih =>
    intro tx txin pairs explicit h hvin hscript hcount hnodup hsigns
    rw [List.map_cons, List.nodup_cons] at hnodup
    rw [List.forall_mem_cons] at hsigns
    rw [List.length_cons] at hcount
    obtain ⟨⟨hmem, hkey⟩, hsigns⟩ := hsigns
    obtain ⟨sig, hsig, hpair⟩ := hkey hash
    have hexplicit : 20 * explicit.length < 2 ^ 32 := by
      have := h.perm.length_eq
      rw [List.length_append] at this
      omega
    have hlength := (sortPairs_perm (pairs ++ [(key.id, sig)])).length_eq
    rw [List.length_append, List.length_singleton] at hlength
    -- the other signers are still listed, since their keys are different
    have hstill : ∀ key' ∈ signers, key'.id ∈ explicit.erase key.id ∧ key'.Signs keys := by
      intro key' hkey'
      have hne : key'.id ≠ key.id := fun heq ↦ hnodup.1 (heq ▸ List.mem_map_of_mem hkey')
      exact ⟨(List.mem_erase_of_ne hne).mpr (hsigns key' hkey').1, (hsigns key' hkey').2⟩
    obtain ⟨pairs', explicit', h', hlength', hrest⟩ := ih (h.sign hpair hmem)
      (getElem?_setScript hvin _) rfl (by omega) hnodup.2 hstill
    refine ⟨pairs', explicit', h', by rw [List.length_cons]; omega, ?_⟩
    rw [signAll, signOnce_eq h hvin hscript (by omega) hexplicit hmem hsig,
      Except.bind_of_eq_ok rfl]
    dsimp only
    rw [if_pos rfl]
    refine Eq.trans hrest ?_
    rw [setScript_setScript]

end Sign

/-! ## The template -/

namespace KeyLib

variable {lib : KeyLib} {nRequired : ℤ} {keys : List String} {keyIDs : List UInt160}
  {tx template : Transaction} {idx : ℕ} {inputs : List (ℤ × ℤ × List String)} {indexSet : List ℤ}

/-- What `setuprawtransaction` writes for an input. -/
def templateScript (lib : KeyLib) (keys : List String) : List UInt8 :=
  composeScript [] (sortKeys (keys.map lib.templateID))

theorem setupInput_eq_ok {input : ℤ × ℤ × List String}
    (h : lib.setupInput indexSet tx input = .ok template) :
    0 ≤ input.1 ∧ input.1 ∉ indexSet ∧ ∃ txin, tx.vin[input.1.toNat]? = some txin ∧
      lib.createMultisig input.2.1 input.2.2 = .ok txin.pubKey ∧
      template = setScript tx input.1.toNat txin (lib.templateScript input.2.2) := by
  obtain ⟨i, n, ks⟩ := input
  rw [setupInput] at h
  dsimp only at h ⊢
  rcases hvin : (if i < 0 then none else tx.vin[i.toNat]?) with _ | txin <;> rw [hvin] at h
  · cases h
  dsimp only at h
  split_ifs at hvin with hneg
  split_ifs at h with hmem
  obtain ⟨key, hkey, h⟩ := Except.bind_eq_ok_iff.mp h
  split_ifs at h with hne
  rw [ne_eq, not_not] at hne
  exact ⟨not_lt.mp hneg, hmem, txin, hvin, hne ▸ hkey, (Except.ok.inj h).symm⟩

theorem getElem?_of_setupInputs {i : ℤ} (hi : 0 ≤ i) : ∀ {indexSet : List ℤ} {tx : Transaction},
    i ∈ indexSet → lib.setupInputs indexSet tx inputs = .ok template →
    template.vin[i.toNat]? = tx.vin[i.toNat]? := by
  induction inputs with
  | nil =>
    intro indexSet tx _ h
    rw [Except.ok.inj h]
  | cons input inputs ih =>
    intro indexSet tx hmem h
    obtain ⟨tx₁, hinput, h⟩ := Except.bind_eq_ok_iff.mp h
    obtain ⟨hpos, hnew, txin, -, -, rfl⟩ := setupInput_eq_ok hinput
    rw [ih (List.mem_cons_of_mem _ hmem) h, setScript]
    refine List.getElem?_set_ne fun heq ↦ hnew ?_
    rwa [show input.1 = i by omega]

theorem exists_of_setupInputs (hinput : ((idx : ℤ), nRequired, keys) ∈ inputs) :
    ∀ {indexSet : List ℤ} {tx : Transaction}, lib.setupInputs indexSet tx inputs = .ok template →
    ∃ txin, template.vin[idx]? = some txin ∧ txin.scriptSig = lib.templateScript keys ∧
      lib.createMultisig nRequired keys = .ok txin.pubKey := by
  induction inputs with
  | nil => exact absurd hinput List.not_mem_nil
  | cons input inputs ih =>
    intro indexSet tx h
    obtain ⟨tx₁, hfirst, h⟩ := Except.bind_eq_ok_iff.mp h
    rcases List.mem_cons.mp hinput with rfl | hinput
    · obtain ⟨hpos, -, txin, hvin, hcreate, rfl⟩ := setupInput_eq_ok hfirst
      refine ⟨{ txin with scriptSig := lib.templateScript keys }, ?_, rfl, hcreate⟩
      exact (getElem?_of_setupInputs hpos List.mem_cons_self h).trans (getElem?_setScript hvin _)
    · exact ih hinput h

theorem map_templateID (hids : keys.mapM lib.keyID = .ok keyIDs)
    (haddress : ∀ ks ∈ keys, ∀ vch, lib.readKey ks ≠ .hex vch) :
    keys.map lib.templateID = keyIDs := by
  refine (Except.eq_map_of_mapM hids fun ks hks id hid ↦ ?_).symm
  rw [templateID]
  rw [keyID] at hid
  rcases hread : lib.readKey ks with (_ | keyID) | vch | _ <;> rw [hread] at hid
  · cases hid
  · rw [Except.ok.inj hid]
  · exact absurd hread (haddress ks hks vch)
  · cases hid

variable {ks : String} {vch : List UInt8} {id address : UInt160} {txin : TxIn}

theorem keyID_of_hex (hids : keys.mapM lib.keyID = .ok keyIDs) (hks : ks ∈ keys)
    (hread : lib.readKey ks = .hex vch) : lib.keyID ks = .ok (lib.hash160 vch) := by
  obtain ⟨id, -, hid⟩ := Except.exists_of_mapM hids hks
  rw [keyID, hread] at hid ⊢
  dsimp only at hid ⊢
  split_ifs at hid ⊢
  rfl

theorem eq_of_keyID (hids : keys.mapM lib.keyID = .ok keyIDs) (hnodup : keyIDs.Nodup)
    {ks' : String} (hks : ks ∈ keys) (hks' : ks' ∈ keys)
    (hid : lib.keyID ks = .ok id) (hid' : lib.keyID ks' = .ok id) : ks = ks' := by
  have hmap : (keys.map lib.keyID).Nodup := by
    rw [Except.mapM_eq_ok_iff.mp hids]
    exact hnodup.map fun _ _ ↦ Except.ok.inj
  exact List.inj_on_of_nodup_map hmap hks hks' (hid.trans hid'.symm)

theorem notMem_templateID
    (hids : keys.mapM lib.keyID = .ok keyIDs) (hnodup : keyIDs.Nodup) (hks : ks ∈ keys)
    (hread : lib.readKey ks = .hex vch) (hid : lib.keyID ks = .ok id)
    (hne : id ≠ 0) : id ∉ keys.map lib.templateID := by
  intro hmem
  obtain ⟨ks', hks', htemplate⟩ := List.mem_map.mp hmem
  rw [templateID] at htemplate
  rcases hread' : lib.readKey ks' with (_ | id') | vch' | _ <;> rw [hread'] at htemplate
  · exact hne htemplate.symm
  · -- an address of the same key
    have hid' : lib.keyID ks' = .ok id := by
      rw [keyID, hread']
      exact congrArg Except.ok htemplate
    rw [eq_of_keyID hids hnodup hks' hks hid' hid, hread] at hread'
    cases hread'
  · exact hne htemplate.symm
  · exact hne htemplate.symm

theorem IsMultisig.verifyInput_signed {hash : UInt256}
    {pairs : List (UInt160 × List UInt8)} {explicit : List UInt160}
    (hmultisig : lib.IsMultisig nRequired keys keyIDs address)
    (h : PartlySigned lib.keys hash keyIDs pairs explicit) (hrequired : nRequired ≤ 255)
    (hsmall : 20 * keyIDs.length < 2 ^ 32) (hlength : (pairs.length : ℤ) = nRequired)
    (hscript : txin.scriptSig = composeScript (pairs.map Prod.snd) explicit) :
    verifyInput lib.keys hash address txin = true := by
  have hone := hmultisig.one_le
  have htwo := hmultisig.le_card.2
  have hall := h.perm.length_eq
  rw [List.length_append, List.length_map] at hall
  have hrecovers : List.Forall₂ (fun sig key ↦ lib.keys.recoverCompact hash sig = some key)
      (pairs.map Prod.snd) (pairs.map Prod.fst) := by
    rw [List.forall₂_map_left_iff, List.forall₂_map_right_iff, List.forall₂_same]
    exact fun pair hpair ↦ (h.signatureOf pair hpair).2
  have hbyte : UInt8.ofNat (pairs.map Prod.snd).length = countByte nRequired := by
    rw [List.length_map, countByte]
    exact congrArg UInt8.ofNat (by omega)
  refine verifyInput_composeScript hscript (fun sig hsig ↦ ?_) ?_ (by rw [List.length_map]; omega)
    (by omega) hrecovers h.sorted h.explicit_sorted ?_ ?_
  · obtain ⟨pair, hpair, rfl⟩ := List.mem_map.mp hsig
    exact (h.signatureOf pair hpair).1
  · exact List.ne_nil_of_length_pos (by rw [List.length_map]; omega)
  · rintro ⟨hnum, rfl⟩
    rw [List.length_map] at hnum
    rw [List.length_nil] at hall
    omega
  · rw [hbyte, sortKeys_eq_of_perm (h.perm.trans (sortKeys_perm keyIDs).symm)
      (pairwise_sortKeys keyIDs)]
    exact hmultisig.address_eq

theorem verifyScript_setScript {keys : Keys} {H : List UInt8 → UInt256}
    {scriptSig : List UInt8} (hvin : tx.vin[idx]? = some txin)
    (honly : ∀ i txin', tx.vin[i]? = some txin' → txin'.pubKey = txin.pubKey → i = idx)
    (hinput : verifyInput keys ((setScript tx idx txin scriptSig).signatureHash H) txin.pubKey
      { txin with scriptSig } = true) :
    verifyScript keys H txin.pubKey (setScript tx idx txin scriptSig) idx = .ok true := by
  have hget := getElem?_setScript hvin scriptSig
  obtain ⟨hlt, -⟩ := List.getElem?_eq_some_iff.mp hget
  refine verifyScript_eq_true_iff.mpr ⟨hlt, fun txin' hmem hkey ↦ ?_, _, List.mem_of_getElem? hget,
    rfl⟩
  obtain ⟨i, hi⟩ := List.getElem?_of_mem hmem
  by_cases hidx : i = idx
  · rw [hidx, hget] at hi
    rwa [← Option.some.inj hi]
  · rw [setScript, List.getElem?_set_ne (Ne.symm hidx)] at hi
    exact absurd (honly i txin' hi hkey) hidx

/-- **Signing workflow.** Suppose an input is set up for an address of different keys, of which at
most 255 have to sign. If all keys are given as addresses, any `nRequired` of the key holders can
call `SignOnce` one after the other, in any order: every call succeeds, and the script is accepted
in the end. If one of the keys is given as a public key in hex, its holder cannot sign, since
`setuprawtransaction` has written zero in its place. -/
theorem signing_workflow (hsetup : lib.setupRawTransaction tx inputs = .ok template)
    (hinput : ((idx : ℤ), nRequired, keys) ∈ inputs) (hids : keys.mapM lib.keyID = .ok keyIDs)
    (hnodup : keyIDs.Nodup) (hrequired : nRequired ≤ 255) (hsmall : 20 * keyIDs.length < 2 ^ 32)
    (H : List UInt8 → UInt256) :
    ∃ address, lib.createMultisig nRequired keys = .ok address ∧
    ((∀ ks ∈ keys, ∀ vch, lib.readKey ks ≠ .hex vch) → ∀ signers : List SigningKey,
      (signers.length : ℤ) = nRequired → (signers.map SigningKey.id).Nodup →
      (∀ key ∈ signers, key.id ∈ keyIDs ∧ key.Signs lib.keys) →
      ∃ signed txin, signAll lib.keys (template.signatureHash H) idx template signers
          = .ok (true, signed) ∧
        signed.vin[idx]? = some txin ∧ txin.pubKey = address ∧
        verifyInput lib.keys (signed.signatureHash H) address txin = true ∧
        ((∀ i txin', template.vin[i]? = some txin' → txin'.pubKey = address → i = idx) →
          verifyScript lib.keys H address signed idx = .ok true)) ∧
    (∀ ks ∈ keys, ∀ vch, lib.readKey ks = .hex vch → lib.hash160 vch ≠ 0 →
      ∀ key : SigningKey, key.id = lib.hash160 vch →
        signOnce lib.keys template (template.signatureHash H) idx key = .ok (false, template)) := by
  obtain ⟨txin, hvin, hscript, hcreate⟩ := exists_of_setupInputs hinput hsetup
  obtain ⟨keyIDs', hmultisig⟩ := createMultisig_eq_ok_iff.mp hcreate
  obtain rfl := Except.ok.inj (hmultisig.keyIDs_eq.symm.trans hids)
  refine ⟨txin.pubKey, hcreate, fun haddress signers hlength hdistinct hsigns ↦ ?_,
    fun ks hks vch hread hne key hkey ↦ ?_⟩
  · have hscript' : txin.scriptSig = composeScript (([] : List (UInt160 × List UInt8)).map Prod.snd)
        (sortKeys keyIDs') := by
      rw [hscript, templateScript, map_templateID hids haddress]
      rfl
    obtain ⟨pairs, explicit, h, hnum, hsigned⟩ := @signAll_eq lib.keys
      (template.signatureHash H) keyIDs' idx hsmall signers template txin [] _
      (partlySigned_nil keyIDs') hvin hscript' (by rw [List.length_nil]; omega) hdistinct
      fun key hkey ↦ ⟨(sortKeys_perm keyIDs').mem_iff.mpr (hsigns key hkey).1, (hsigns key hkey).2⟩
    rw [List.length_nil, Nat.zero_add] at hnum
    have hverify : verifyInput lib.keys ((setScript template idx txin
        (composeScript (pairs.map Prod.snd) explicit)).signatureHash H) txin.pubKey
        { txin with scriptSig := composeScript (pairs.map Prod.snd) explicit } = true := by
      rw [signatureHash_setScript hvin]
      exact hmultisig.verifyInput_signed h hrequired hsmall (by omega) rfl
    exact ⟨_, _, hsigned, getElem?_setScript hvin _, rfl, hverify,
      fun honly ↦ verifyScript_setScript hvin honly hverify⟩
  · refine signOnce_of_notMem (partlySigned_nil (keys.map lib.templateID)) hvin hscript
      (Nat.zero_le _) ?_ ?_
    · rw [(sortKeys_perm _).length_eq, List.length_map, ← hmultisig.length_eq]
      exact hsmall
    · rw [hkey, (sortKeys_perm _).mem_iff]
      exact notMem_templateID hids hnodup hks hread (keyID_of_hex hids hks hread) hne

theorem setupRawTransaction_takeNothing
    (hcreate : lib.createMultisig nRequired keys = .ok address) :
    lib.setupRawTransaction (takeNothing address []) [(0, nRequired, keys)]
      = .ok (takeNothing address (lib.templateScript keys)) := by
  rw [setupRawTransaction, setupInputs, setupInput]
  simp only [hcreate, lt_irrefl, if_false, List.not_mem_nil, Except.bind_of_eq_ok rfl]
  simp [takeNothing, setupInputs, templateScript, composeScript, Except.bind_of_eq_ok rfl]

end KeyLib

/-! ### Two keys, as addresses and in hex -/

def byteKey (b : UInt8) : SigningKey where
  id := BitVec.ofNat 160 b.toNat
  signCompact _ := some (List.replicate 65 b)

theorem signs_byteKey {lib : KeyLib} {b : UInt8}
    (hrecover : ∀ hash sig, lib.recoverCompact hash sig = some (List.replicate 33 (sig.headD 0)))
    (hhash : lib.hash160 (List.replicate 33 b) = BitVec.ofNat 160 b.toNat) :
    (byteKey b).Signs lib.keys := by
  refine fun hash ↦ ⟨_, rfl, List.length_replicate, ?_⟩
  rw [KeyLib.keys, byteKey]
  dsimp only
  rw [hrecover]
  exact congrArg some hhash

/-- Two keys given as addresses sign one after the other. -/
theorem signing_workflow_two :
    ∃ signed, signAll (byteKeys (multisigData [1, 2] 2)).keys
        ((KeyLib.takeNothing 1000 ((byteKeys (multisigData [1, 2] 2)).templateScript
          ["a", "b"])).signatureHash Sha256.sha256d) 0
        (KeyLib.takeNothing 1000 ((byteKeys (multisigData [1, 2] 2)).templateScript ["a", "b"]))
        [byteKey 2, byteKey 1] = .ok (true, signed) ∧
      verifyScript (byteKeys (multisigData [1, 2] 2)).keys Sha256.sha256d 1000 signed 0
        = .ok true := by
  have h : (byteKeys (multisigData [1, 2] 2)).IsMultisig 2 ["a", "b"] [1, 2] 1000 :=
    isMultisig_byteKeys (by decide) rfl rfl
  have hcreate := KeyLib.createMultisig_eq_ok_iff.mpr ⟨_, h⟩
  obtain ⟨address, haddress, hsign, -⟩ := KeyLib.signing_workflow
    (KeyLib.setupRawTransaction_takeNothing hcreate) (List.mem_singleton_self _) h.keyIDs_eq
    (by decide) (by decide) (by decide) Sha256.sha256d
  obtain rfl := Except.ok.inj (hcreate.symm.trans haddress)
  obtain ⟨signed, txin, hsigned, -, -, -, hverify⟩ := hsign (by simp [byteKeys])
    [byteKey 2, byteKey 1] rfl (by decide) (by
      rw [List.forall_mem_cons, List.forall_mem_singleton]
      exact ⟨⟨by decide, signs_byteKey (fun _ _ ↦ rfl) (by decide)⟩,
        by decide, signs_byteKey (fun _ _ ↦ rfl) (by decide)⟩)
  refine ⟨signed, hsigned, hverify fun i txin' htxin' _ ↦ ?_⟩
  obtain ⟨hlt, -⟩ := List.getElem?_eq_some_iff.mp htxin'
  exact Nat.lt_one_iff.mp hlt

def hexKeys : KeyLib :=
  { byteKeys (multisigData [1, 2] 2) with
    readKey ks := if ks = "a" then .address (some 1) else .hex (List.replicate 33 2)
    isFullyValid _ := true }

/-- The holder of the key given in hex cannot sign the template of its own address. -/
theorem hex_key_not_listed :
    hexKeys.createMultisig 2 ["a", "b"] = .ok 1000 ∧
    ["a", "b"].mapM hexKeys.keyID = .ok [1, (byteKey 2).id] ∧
    hexKeys.setupRawTransaction (KeyLib.takeNothing 1000 []) [(0, 2, ["a", "b"])]
      = .ok (KeyLib.takeNothing 1000 (composeScript [] [0, 1])) ∧
    (byteKey 2).Signs hexKeys.keys ∧
    ∀ hash, signOnce hexKeys.keys (KeyLib.takeNothing 1000 (composeScript [] [0, 1])) hash 0
      (byteKey 2) = .ok (false, KeyLib.takeNothing 1000 (composeScript [] [0, 1])) := by
  have h : hexKeys.IsMultisig 2 ["a", "b"] [1, 2] 1000 :=
    ⟨by decide, by decide, by decide, rfl,
      (@isMultisig_byteKeys 1 2 (by decide) ["a", "b"] rfl rfl).address_eq⟩
  have hcreate := KeyLib.createMultisig_eq_ok_iff.mpr ⟨_, h⟩
  have htemplate : hexKeys.templateScript ["a", "b"] = composeScript [] [0, 1] :=
    congrArg (composeScript []) (sortKeys_eq_of_perm (.swap 0 1 []) (by decide))
  refine ⟨hcreate, rfl, ?_, signs_byteKey (fun _ _ ↦ rfl) (by decide), fun hash ↦ ?_⟩
  · rw [KeyLib.setupRawTransaction_takeNothing hcreate, htemplate]
  · have hlisted := @partlySigned_nil hexKeys.keys hash [0, 1]
    rw [sortKeys_of_le (by decide)] at hlisted
    exact signOnce_of_notMem hlisted rfl rfl (by decide) (by decide) (by decide)

end Cryptonite
