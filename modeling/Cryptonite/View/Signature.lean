import Cryptonite.View.Emission

/-!
# What a signature binds

`SignatureHash` covers the version, the account and amount of every input, the outputs, the message
and the lock height. `TempApply` acts on the inputs and outputs, which are covered, and on
`fSetLimit` and `nLimitValue`, which are not. The first does no harm: it can be told from the input
and the output of a transaction off the network. The second is the new limit itself, and a set-limit
transaction keeps its signature whatever limit is written into it (`sameEffect_iff`).
-/

namespace Cryptonite

open Transaction Ledger

/-- Two transactions move the same amounts between the same accounts. -/
structure SameAmounts (tx tx' : Transaction) : Prop where
  spends : tx.spends = tx'.spends
  vout : tx.vout = tx'.vout

/-- The parts of two transactions `TempApply` acts on are the same. -/
structure SameParts (tx tx' : Transaction) : Prop extends SameAmounts tx tx' where
  fSetLimit : tx.fSetLimit = tx'.fSetLimit
  nLimitValue : tx.nLimitValue = tx'.nLimitValue

/-- Either of the two transactions, put in the same place of any block, has the same effect on every
trie: the same verdict or fault, the same trie and the same undo list. -/
def SameEffect (tx tx' : Transaction) : Prop :=
  ∀ (junk : ℕ → UInt64) (root : Option TrieNode) (block : Block) (pre post : List Transaction),
    tempApply junk root { block with vtx := pre ++ tx :: post }
      = tempApply junk root { block with vtx := pre ++ tx' :: post }

section SameParts

variable {tx tx' : Transaction}

theorem withdrawAll_congr (hset : tx.fSetLimit = tx'.fSetLimit)
    (hlimit : tx.nLimitValue = tx'.nLimitValue) (nHeight : UInt64) : ∀ {vin vin' : List TxIn},
    (vin.map fun txin ↦ (txin.pubKey, txin.nValue))
      = (vin'.map fun txin ↦ (txin.pubKey, txin.nValue)) →
    ∀ s, withdrawAll nHeight tx vin s = withdrawAll nHeight tx' vin' s := by
  have hone : ∀ (s : Applying) (txin txin' : TxIn), txin.pubKey = txin'.pubKey →
      txin.nValue = txin'.nValue → withdraw nHeight tx s txin = withdraw nHeight tx' s txin' := by
    intro s txin txin' hkey hvalue
    simp only [withdraw, settle, Book.note, hset, hlimit, hkey, hvalue]
  intro vin
  induction vin with
  | nil =>
    intro vin' h s
    rw [List.map_eq_nil_iff.mp h.symm]
    rfl
  | cons txin vin ih =>
    intro vin' h s
    rcases vin' with _ | ⟨txin', vin'⟩
    · cases h
    · obtain ⟨hhead, htail⟩ := List.cons.inj h
      obtain ⟨hkey, hvalue⟩ := Prod.mk.inj hhead
      rw [withdrawAll, withdrawAll, hone s txin txin' hkey hvalue]
      rcases withdraw nHeight tx' s txin' with ⟨_ | _, s₁⟩
      · rfl
      · exact ih htail s₁

theorem isCoinBase_iff_spends : tx.isCoinBase = true ↔ ∃ v, tx.spends = [(0, v)] := by
  constructor
  · intro h
    obtain ⟨txin, hvin, hkey⟩ := exists_of_isCoinBase h
    exact ⟨txin.nValue, by rw [Transaction.spends, hvin, List.map_singleton, hkey]⟩
  · rintro ⟨v, h⟩
    obtain ⟨txin, hvin, hspend⟩ := List.map_eq_singleton_iff.mp h
    rw [isCoinBase, hvin]
    exact beq_iff_eq.mpr (Prod.mk.inj hspend).1

namespace SameAmounts

theorem valueIn_eq (h : SameAmounts tx tx') : tx.vin.map TxIn.nValue = tx'.vin.map TxIn.nValue := by
  have hmap := congrArg (List.map Prod.snd) h.spends
  rwa [Transaction.spends, Transaction.spends, List.map_map, List.map_map] at hmap

theorem getFee_eq (h : SameAmounts tx tx') : tx.getFee = tx'.getFee := by
  rw [getFee, getFee, getValueIn, getValueIn, getValueOut, getValueOut, h.valueIn_eq, h.vout]

theorem isCoinBase_eq (h : SameAmounts tx tx') : tx.isCoinBase = tx'.isCoinBase := by
  rw [Bool.eq_iff_iff, isCoinBase_iff_spends, isCoinBase_iff_spends, h.spends]

theorem coinbaseAllowed_eq (h : SameAmounts tx tx') {block block' : Block}
    (hfees : block.getFees = block'.getFees) (junk : UInt64) (root : Option TrieNode) :
    coinbaseAllowed junk block root tx = coinbaseAllowed junk block' root tx' := by
  rw [coinbaseAllowed, coinbaseAllowed, h.isCoinBase_eq, h.vout, hfees]

end SameAmounts

theorem SameParts.applyTx_eq (h : SameParts tx tx') {block block' : Block}
    (hheight : block.nHeight = block'.nHeight) (hfees : block.getFees = block'.getFees)
    (junk : UInt64) (s : Applying) : applyTx junk block s tx = applyTx junk block' s tx' := by
  have hwithdraw : withdrawAll block.nHeight tx tx.vin s
      = withdrawAll block'.nHeight tx' tx'.vin s := by
    rw [hheight]
    exact withdrawAll_congr h.fSetLimit h.nLimitValue block'.nHeight h.spends s
  rw [applyTx, applyTx, h.coinbaseAllowed_eq hfees, h.vout, hwithdraw, hheight]

theorem getFees_congr {block block' : Block}
    (h : List.Forall₂ SameAmounts block.vtx block'.vtx) : block.getFees = block'.getFees := by
  have hfold : ∀ {vtx vtx' : List Transaction}, List.Forall₂ SameAmounts vtx vtx' → ∀ sum,
      vtx.foldlM addFee sum = vtx'.foldlM addFee sum := by
    intro vtx vtx' h
    induction h with
    | nil => exact fun _ ↦ rfl
    | cons hhead _ ih =>
      intro sum
      rw [List.foldlM_cons, List.foldlM_cons, addFee, addFee, hhead.getFee_eq]
      exact bind_congr ih
  exact hfold h 0

theorem tempApply_congr {block block' : Block} {junk : ℕ → UInt64}
    (h : List.Forall₂ (fun t t' ↦ ∀ i s, applyTx (junk i) block s t = applyTx (junk i) block' s t')
      block.vtx block'.vtx) (root : Option TrieNode) :
    tempApply junk root block = tempApply junk root block' := by
  have hrun : ∀ {vtx vtx' : List Transaction}, List.Forall₂ (fun t t' ↦ ∀ i s,
      applyTx (junk i) block s t = applyTx (junk i) block' s t') vtx vtx' → ∀ i s,
      applyTxs junk block i vtx s = applyTxs junk block' i vtx' s := by
    intro vtx vtx' h
    induction h with
    | nil => exact fun _ _ ↦ rfl
    | cons hhead _ ih =>
      intro i s
      rw [applyTxs, applyTxs, hhead i s]
      refine bind_congr fun r ↦ ?_
      rcases r with ⟨_ | _, s₁⟩
      · rfl
      · exact ih (i + 1) s₁
  rw [tempApply, tempApply, hrun h]

/-- **What `TempApply` acts on.** To have the same effect in every place of every block, it is
enough for two transactions of the same amounts to have it on the state they meet there. -/
theorem SameAmounts.sameEffect (hamounts : SameAmounts tx tx')
    (h : ∀ {block block' : Block}, block.nHeight = block'.nHeight →
      block.getFees = block'.getFees → tx ∈ block.vtx →
      ∀ junk s, applyTx junk block s tx = applyTx junk block' s tx') : SameEffect tx tx' := by
  intro junk root block pre post
  have hrefl : ∀ vtx : List Transaction, List.Forall₂ SameAmounts vtx vtx := fun vtx ↦
    List.forall₂_same.mpr fun _ _ ↦ ⟨rfl, rfl⟩
  have hfees := @getFees_congr { block with vtx := pre ++ tx :: post }
    { block with vtx := pre ++ tx' :: post }
    (List.rel_append (hrefl pre) (.cons hamounts (hrefl post)))
  have hsame : ∀ vtx : List Transaction, List.Forall₂ (fun t t' ↦ ∀ i s,
      applyTx (junk i) { block with vtx := pre ++ tx :: post } s t
        = applyTx (junk i) { block with vtx := pre ++ tx' :: post } s t') vtx vtx := by
    refine fun vtx ↦ List.forall₂_same.mpr fun t _ i s ↦ ?_
    refine SameParts.applyTx_eq ⟨⟨rfl, rfl⟩, rfl, rfl⟩ ?_ hfees (junk i) s
    rfl
  refine tempApply_congr (List.rel_append (hsame pre) (.cons (fun i s ↦ ?_) (hsame post))) root
  refine h ?_ hfees (List.mem_append_right pre List.mem_cons_self) (junk i) s
  rfl

/-! ## Coinbases beyond the money range -/

theorem valueIn_le_of_getFees {block : Block} {fees : UInt64} (h : block.getFees = .ok fees)
    (hmem : tx ∈ block.vtx) : tx.valueIn ≤ MAX_MONEY.toNat := by
  have hfold : ∀ {vtx : List Transaction} {sum : UInt64}, vtx.foldlM addFee sum = .ok fees →
      tx ∈ vtx → tx.valueIn ≤ MAX_MONEY.toNat := by
    intro vtx
    induction vtx with
    | nil => exact fun _ hmem ↦ absurd hmem List.not_mem_nil
    | cons t vtx ih =>
      intro sum h hmem
      rw [List.foldlM_cons, addFee] at h
      obtain ⟨_, hadd, hrest⟩ := Except.bind_eq_ok_iff.mp h
      obtain ⟨fee, hfee, -⟩ := Except.bind_eq_ok_iff.mp hadd
      rcases List.mem_cons.mp hmem with rfl | hmem
      · exact (getFee_eq_ok_iff.mp hfee).1
      · exact ih hrest hmem
  exact hfold h hmem

theorem SameAmounts.sameEffect_of_coinbase (hamounts : SameAmounts tx tx')
    (hcb : tx.isCoinBase = true) (hrange : MAX_MONEY.toNat < tx.valueIn) : SameEffect tx tx' := by
  refine hamounts.sameEffect fun {block block'} _ hfees hmem junk s ↦ ?_
  have hallowed := hamounts.coinbaseAllowed_eq hfees junk s.root
  rw [applyTx, applyTx, ← hallowed, coinbaseAllowed, if_pos hcb]
  rcases tx.vout with _ | ⟨txout, vout⟩
  · rfl
  · rcases hfees' : block.getFees with f | fees
    · rfl
    · exact absurd (valueIn_le_of_getFees hfees' hmem) hrange.not_ge

/-! ## The limit is not bound -/

def plenty : AccountData := unlimited 1 0xFFFFFFFFFFFFFFFF

theorem step_check_of_pays_nothing {pubKey : UInt160} (hvout : tx.vout = [⟨0, pubKey⟩])
    (hrange : tx.isCoinBase = true → tx.valueIn ≤ MAX_MONEY.toNat) (junk : ℕ → UInt64)
    (accts : AccountMap) : step junk (blockOf [tx]) (Ledger.start accts) (.check 0 tx)
      = .ok (true, Ledger.start accts) := by
  rw [step, hvout]
  split
  · next hcb =>
    have hout : tx.valueOut = 0 := by
      rw [valueOut, hvout]
      rfl
    have hfees := (@getFees_eq_ok_iff (blockOf [tx]) tx [] rfl _).mpr
      ⟨_, 0, getFee_eq (hrange hcb) (hout ▸ Nat.zero_le _), rfl, rfl⟩
    rw [hfees]
    simp [Except.map, UInt64.not_lt.mpr UInt64.zero_le]
  · rfl

theorem keep_plenty {nValue : UInt64} (hv : nValue.toNat + 1 < 2 ^ 64) :
    (plenty.afterWithdrawal 1 tx nValue).keep = some (plenty.afterWithdrawal 1 tx nValue) := by
  have hbalance : (plenty.afterWithdrawal 1 tx nValue).balance.toNat
      = 0xFFFFFFFFFFFFFFFF - nValue.toNat :=
    UInt64.toNat_sub_of_le _ _ (le_unlimited 1 0 nValue)
  refine if_neg ?_
  rw [MIN_BALANCE, UInt64.lt_iff_toNat_lt, hbalance, UInt64.toNat_one]
  omega

theorem step_withdraw_plenty {txin : TxIn} (hset : tx.fSetLimit = true)
    (hv : txin.nValue.toNat + 1 < 2 ^ 64) (junk : ℕ → UInt64) {accts : AccountMap}
    (ha : accts txin.pubKey = some plenty) :
    step junk (blockOf [tx]) (Ledger.start accts) (.withdraw tx txin)
      = .ok (true, (Ledger.start accts).change txin.pubKey
        (some (plenty.afterWithdrawal 1 tx txin.nValue))
        (Book.empty.note tx txin.pubKey Book.empty.limits)) := by
  have hrefused : refused 1 tx Book.empty txin plenty = false := by
    have hle : txin.nValue ≤ plenty.balance := le_unlimited 1 0 txin.nValue
    simpa [refused, Book.empty, hset, plenty, unlimited] using hle
  have haccts : (Ledger.start accts).accts txin.pubKey = some plenty := ha
  rw [step, haccts]
  dsimp only
  rw [hset, checkLimit, if_pos rfl]
  dsimp only
  rw [← keep_plenty hv]
  exact if_neg (by rw [Bool.not_eq_true]; exact hrefused)

theorem apply_setLimit {txin : TxIn} (hset : tx.fSetLimit = true) (hvin : tx.vin = [txin])
    (hvout : tx.vout = [⟨0, txin.pubKey⟩]) (hv : txin.nValue.toNat + 1 < 2 ^ 64)
    (hrange : tx.isCoinBase = true → tx.valueIn ≤ MAX_MONEY.toNat) (junk : ℕ → UInt64)
    {accts : AccountMap} (ha : accts txin.pubKey = some plenty) :
    ∃ ℓ a, Ledger.apply junk accts (blockOf [tx]) = .ok (true, ℓ) ∧
      ℓ.accts txin.pubKey = some a ∧ a.futureLimit = tx.nLimitValue := by
  have hcheck := step_check_of_pays_nothing hvout hrange junk accts
  have hwithdraw := step_withdraw_plenty hset hv junk ha
  have hdeposit : ∀ (a : AccountData) (book : Book), step junk (blockOf [tx])
      ((Ledger.start accts).change txin.pubKey (some a) book) (.deposit ⟨0, txin.pubKey⟩)
        = .ok (true, ((Ledger.start accts).change txin.pubKey (some a) book).change txin.pubKey
          (some (afterDeposit 1 0 (some a))) book) := by
    intro a book
    rw [step, accts_change, Function.update_self]
    rfl
  have hmoves : (blockOf [tx]).moves
      = [.check 0 tx, .withdraw tx txin, .deposit ⟨0, txin.pubKey⟩] := by
    simp [Block.moves, blockOf, movesFrom, txMoves, hvin, hvout]
  have hdone : ∀ ℓ, runMoves (step junk (blockOf [tx])) ℓ [] = .ok (true, ℓ) := fun _ ↦ rfl
  have hrun := runMoves_cons_true_iff.mpr ⟨_, hcheck, runMoves_cons_true_iff.mpr ⟨_, hwithdraw,
    runMoves_cons_true_iff.mpr ⟨_, hdeposit _ _, hdone _⟩⟩⟩
  rw [← hmoves] at hrun
  exact ⟨_, afterDeposit 1 0 (some (plenty.afterWithdrawal 1 tx txin.nValue)), hrun,
    Function.update_self _ _ _, if_pos hset⟩

/-- Two set-limit transactions of the same effect set the same limit, unless they fail. -/
theorem SameEffect.nLimitValue_eq (h : SameEffect tx tx') (hamounts : SameAmounts tx tx')
    (hwire : tx.FromWire) (hwire' : tx'.FromWire) (hset : tx.fSetLimit = true)
    (hset' : tx'.fSetLimit = true) (hrange : tx.isCoinBase = true → tx.valueIn ≤ MAX_MONEY.toNat) :
    tx.nLimitValue = tx'.nLimitValue := by
  obtain ⟨txin, hvin, hvout, hlimit⟩ := hwire.setLimit hset
  obtain ⟨txin', hvin', hvout', hlimit'⟩ := hwire'.setLimit hset'
  have hspends := hamounts.spends
  rw [Transaction.spends, Transaction.spends, hvin, hvin'] at hspends
  obtain ⟨hkey, hvalue⟩ := Prod.mk.inj (List.cons.inj hspends).1
  by_contra hne
  -- of two different limits one is positive, so the amount is not the largest there is
  have hv : txin.nValue.toNat + 1 < 2 ^ 64 := by
    have hne' : tx.nLimitValue.toNat ≠ tx'.nLimitValue.toNat := fun h ↦ hne (UInt64.toNat_inj.mp h)
    rw [← hvalue] at hlimit'
    omega
  have hrange' : tx'.isCoinBase = true → tx'.valueIn ≤ MAX_MONEY.toNat := by
    rw [← hamounts.isCoinBase_eq, valueIn, ← hamounts.valueIn_eq]
    exact hrange
  let start : AccountTrie Sha256.sha256d := .singleton txin.pubKey plenty
  have hplenty : accounts start.root txin.pubKey = some plenty := if_pos rfl
  obtain ⟨ℓ, a, hrun, ha, hfuture⟩ := apply_setLimit hset hvin hvout hv hrange (fun _ ↦ 0) hplenty
  obtain ⟨ℓ', a', hrun', ha', hfuture'⟩ := @apply_setLimit tx' txin' hset' hvin' hvout'
    (hvalue ▸ hv) hrange' (fun _ ↦ 0) (accounts start.root) (hkey ▸ hplenty)
  obtain ⟨root₁, undos, happly, haccts⟩ := exists_tempApply_of_ledger start.valid hrun
  obtain ⟨root₁', undos', happly', haccts'⟩ := exists_tempApply_of_ledger start.valid hrun'
  have heffect := happly.symm.trans ((h (fun _ ↦ 0) start.root (blockOf []) [] []).trans happly')
  obtain rfl : root₁ = root₁' := (Prod.mk.inj (Prod.mk.inj (Except.ok.inj heffect)).2).1
  rw [← haccts] at ha
  rw [← haccts', ← hkey, ha, Option.some.injEq] at ha'
  exact hne (hfuture.symm.trans (ha' ▸ hfuture'))

/-! ## What a signature binds -/

def Transaction.withScripts (tx : Transaction) (scripts : List (List UInt8)) : Transaction :=
  { tx with vin := List.zipWith (fun spend script ↦ ⟨spend.2, spend.1, script⟩) tx.spends scripts }

theorem signatureBytes_withScripts {scripts : List (List UInt8)}
    (h : scripts.length = tx.vin.length) :
    (tx.withScripts scripts).signatureBytes = tx.signatureBytes := by
  have hzip : ∀ {spends : List (UInt160 × UInt64)} {scripts : List (List UInt8)},
      scripts.length = spends.length → (List.zipWith (fun spend script ↦
        (⟨spend.2, spend.1, script⟩ : TxIn)) spends scripts).map
          (fun txin ↦ (txin.pubKey, txin.nValue)) = spends := by
    intro spends
    induction spends with
    | nil => exact fun _ ↦ rfl
    | cons spend spends ih =>
      intro scripts h
      obtain ⟨script, scripts, rfl⟩ := List.exists_cons_of_length_eq_add_one h
      exact congrArg (spend :: ·) (ih (Nat.succ.inj h))
  have hspends : (tx.withScripts scripts).spends = tx.spends :=
    hzip (h.trans (List.length_map _).symm)
  have hbytes : ∀ t : Transaction, (t.vin.take (t.vin.length % 2 ^ 32)).flatMap (fun txin ↦
      Codec.leBytes 20 txin.pubKey.toNat ++ Codec.leBytes 8 txin.nValue.toNat)
        = (t.spends.take (t.spends.length % 2 ^ 32)).flatMap spendBytes := by
    intro t
    rw [Transaction.spends, List.length_map, ← List.map_take, List.flatMap_map]
    rfl
  have hlength : (tx.withScripts scripts).vin.length = tx.vin.length := by
    have hlen := congrArg List.length hspends
    rwa [Transaction.spends, Transaction.spends, List.length_map, List.length_map] at hlen
  simp only [signatureBytes, hbytes, hspends]
  rw [hlength]
  rfl

theorem checkInputs_congr {keys : Keys} {H : List UInt8 → UInt256} (hvin : tx.vin = tx'.vin)
    (hhash : tx.signatureHash H = tx'.signatureHash H) :
    checkInputs keys H tx = checkInputs keys H tx' := by
  have hcb : tx.isCoinBase = tx'.isCoinBase := by
    rw [isCoinBase, isCoinBase, hvin]
  simp only [checkInputs, verifyScript, hvin, hhash, hcb]

theorem sameAmounts_of_signatureBytes (h : tx.FromWire) (h' : tx'.FromWire)
    (hbytes : tx.signatureBytes = tx'.signatureBytes) :
    SameAmounts tx tx' ∧ tx.fSetLimit = tx'.fSetLimit := by
  obtain ⟨hspends, hvout⟩ := h.spends_eq h' hbytes
  refine ⟨⟨hspends, hvout⟩, ?_⟩
  rw [Bool.eq_iff_iff, h.fSetLimit_iff, h'.fSetLimit_iff, LimitShaped, LimitShaped, hspends, hvout]

/-- **What a signature binds.** Let two transactions off the network have the same `SignatureHash`,
and let the hash not collide on what is signed. Then the same scripts verify on both; but they have
the same effect exactly when they set no limit, or the same one, or never get to it: `GetFees`
throws on a coinbase whose input is beyond the money range. -/
theorem sameEffect_iff {H : List UInt8 → UInt256} (hdecoded : tx.Decoded)
    (hdecoded' : tx'.Decoded)
    (hcollision : H tx.signatureBytes = H tx'.signatureBytes →
      tx.signatureBytes = tx'.signatureBytes)
    (hhash : tx.signatureHash H = tx'.signatureHash H) :
    (∀ (keys : Keys) (scripts : List (List UInt8)), scripts.length = tx.vin.length →
      checkInputs keys H (tx.withScripts scripts)
        = checkInputs keys H (tx'.withScripts scripts)) ∧
    (SameEffect tx tx' ↔ tx.fSetLimit = false ∨ tx.nLimitValue = tx'.nLimitValue ∨
      tx.isCoinBase = true ∧ MAX_MONEY.toNat < tx.valueIn) := by
  have hwire := hdecoded.fromWire
  have hwire' := hdecoded'.fromWire
  obtain ⟨hamounts, hset⟩ := sameAmounts_of_signatureBytes hwire hwire' (hcollision hhash)
  have hlength : tx.vin.length = tx'.vin.length := by
    have hlen := congrArg List.length hamounts.spends
    rwa [Transaction.spends, Transaction.spends, List.length_map, List.length_map] at hlen
  refine ⟨fun keys scripts hscripts ↦ checkInputs_congr ?_ ?_, fun h ↦ ?_, fun h ↦ ?_⟩
  · rw [withScripts, withScripts, hamounts.spends]
  · rw [signatureHash, signatureHash,
      signatureBytes_withScripts hscripts, signatureBytes_withScripts (hscripts.trans hlength)]
    exact hhash
  · by_contra hnot
    rw [not_or, not_or, not_and, not_lt, Bool.not_eq_false] at hnot
    exact hnot.2.1 (h.nLimitValue_eq hamounts hwire hwire' hnot.1 (hset ▸ hnot.1) hnot.2.2)
  · have hsame : tx.nLimitValue = tx'.nLimitValue → SameEffect tx tx' := fun hlimit ↦
      hamounts.sameEffect fun hheight hfees _ ↦
        SameParts.applyTx_eq ⟨hamounts, hset, hlimit⟩ hheight hfees
    rcases h with hplain | hlimit | ⟨hcb, hrange⟩
    · refine hsame ?_
      rw [hwire.nLimitValue_eq hplain, hwire'.nLimitValue_eq (hset ▸ hplain)]
    · exact hsame hlimit
    · exact hamounts.sameEffect_of_coinbase hcb hrange

def scripted (script : List UInt8) : Transaction :=
  { payment 5 3 6 with vin := [⟨3, 5, script⟩] }

/-- A set-limit transaction of account `5`, at a fee of one. -/
def setLimitTo (nLimitValue : UInt64) : Transaction :=
  { payment 5 1 5 with vout := [⟨0, 5⟩], nLimitValue, fSetLimit := true }

def wireBytes (tx : Transaction) : List UInt8 :=
  match tx.serialize with
  | .ok bytes => bytes
  | .error _ => []

/-- A payment has the same effect under another script. -/
theorem sameEffect_iff_scripted : SameEffect (scripted [1]) (scripted [2, 3]) :=
  (@sameEffect_iff (scripted [1]) (scripted [2, 3]) Sha256.sha256d
    ⟨wireBytes (scripted [1]), [], by decide +kernel⟩
    ⟨wireBytes (scripted [2, 3]), [], by decide +kernel⟩ (fun _ ↦ by decide +kernel)
    (congrArg Sha256.sha256d (by decide +kernel))).2.mpr (.inl rfl)

/-- Account `5` signs a limit of four; a limit of nine in its place has the same hash and sets the
account's limit to nine. -/
theorem limit_not_signed :
    Transaction.unserialize (wireBytes (setLimitTo 4)) = some (setLimitTo 4, []) ∧
    Transaction.unserialize (wireBytes (setLimitTo 9)) = some (setLimitTo 9, []) ∧
    (setLimitTo 4).signatureHash Sha256.sha256d = (setLimitTo 9).signatureHash Sha256.sha256d ∧
    ((tempApply (fun _ ↦ 0) tenInFive.root (blockOf [setLimitTo 4])).map fun r ↦
      (TrieEngine.find 5 r.2.1).map fun p ↦ p.data.limit) = .ok (some 4) ∧
    ((tempApply (fun _ ↦ 0) tenInFive.root (blockOf [setLimitTo 9])).map fun r ↦
      (TrieEngine.find 5 r.2.1).map fun p ↦ p.data.limit) = .ok (some 9) :=
  ⟨by decide +kernel, by decide +kernel, congrArg Sha256.sha256d (by decide +kernel),
    by decide +kernel, by decide +kernel⟩

end SameParts

end Cryptonite
