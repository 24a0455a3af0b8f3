import Cryptonite.Core.Script
import Cryptonite.View.Supply

/-!
# What a block may take out of account zero

A coinbase moves coins from account zero to the miner. `TempApply` compares its first output with
`GetBlockValue` of the balance of account zero and the fees of the block, and nothing else limits
it. The fees are those of `GetFees`, which adds up the fee of *every* transaction of the block, the
coinbase among them; so a coinbase that takes out more than it pays raises its own limit by the
difference. `emissionBounded_iff` says that this is the only way past the limit: a coinbase is held
to the reward and the fees of the others exactly when it burns nothing.
-/

namespace Cryptonite

open Patricia Transaction Ledger Function

/-! ## Fees -/

def Block.otherFees (block : Block) : Exec UInt64 := { block with vtx := block.vtx.tail }.getFees

variable {tx coinbase : Transaction} {junk : ℕ → UInt64} {root root' : Option TrieNode}
  {block : Block} {rest : List Transaction} {undos : List TxUndo} {k : UInt160} {nValue : UInt64}
  {txin : TxIn} {txout : TxOut} {vout : List TxOut}

theorem getFee_eq (hin : tx.valueIn ≤ MAX_MONEY.toNat) (hout : tx.valueOut ≤ MAX_MONEY.toNat) :
    tx.getFee = .ok (UInt64.ofNat tx.valueIn - UInt64.ofNat tx.valueOut) := by
  have h₁ : tx.getValueIn = .ok (UInt64.ofNat tx.valueIn) :=
    sumValues_eq_ok_iff.mpr ⟨hin, toNat_ofNat_exactSum hin⟩
  have h₂ : tx.getValueOut = .ok (UInt64.ofNat tx.valueOut) :=
    sumValues_eq_ok_iff.mpr ⟨hout, toNat_ofNat_exactSum hout⟩
  rw [getFee, h₁, h₂]
  rfl

theorem getFee_eq_ok_iff {fee : UInt64} : tx.getFee = .ok fee ↔
    tx.valueIn ≤ MAX_MONEY.toNat ∧ tx.valueOut ≤ MAX_MONEY.toNat ∧
      fee = UInt64.ofNat tx.valueIn - UInt64.ofNat tx.valueOut := by
  constructor
  · intro h
    have h' := h
    rw [getFee, Except.bind_eq_ok_iff] at h'
    obtain ⟨valueIn, hin, h'⟩ := h'
    obtain ⟨valueOut, hout, -⟩ := Except.bind_eq_ok_iff.mp h'
    have hin := (sumValues_eq_ok_iff.mp hin).1
    have hout := (sumValues_eq_ok_iff.mp hout).1
    exact ⟨hin, hout, Except.ok.inj (h.symm.trans (getFee_eq hin hout))⟩
  · rintro ⟨hin, hout, rfl⟩
    exact getFee_eq hin hout

/-- The body of the loop of `GetFees`. -/
def addFee (sum : UInt64) (tx : Transaction) : Exec UInt64 := do
  let fee ← tx.getFee
  pure (sum + fee)

theorem foldlM_addFee_eq_ok_iff : ∀ {vtx : List Transaction} {sum fees : UInt64},
    vtx.foldlM addFee sum = .ok fees ↔ vtx.foldlM addFee 0 = .ok (fees - sum) := by
  intro vtx
  induction vtx with
  | nil =>
    intro sum fees
    simp only [List.foldlM_nil, pure, Except.pure, Except.ok.injEq]
    grind
  | cons tx vtx ih =>
    intro sum fees
    rw [List.foldlM_cons, List.foldlM_cons, addFee, addFee]
    rcases tx.getFee with f | fee
    · exact ⟨nofun, nofun⟩
    · have hshift : fees - (sum + fee) = fees - sum - (0 + fee) := by
        clear ih
        grind
      refine ih.trans ?_
      rw [hshift]
      exact ih.symm

theorem getFees_eq_ok_iff {block : Block} {tx : Transaction} {rest : List Transaction}
    (hvtx : block.vtx = tx :: rest) {fees : UInt64} : block.getFees = .ok fees ↔
      ∃ fee others, tx.getFee = .ok fee ∧ block.otherFees = .ok others ∧ fees = fee + others := by
  have hother : block.otherFees = rest.foldlM addFee 0 := by
    rw [Block.otherFees, hvtx]
    rfl
  have hall : block.getFees = (tx :: rest).foldlM addFee 0 := by
    rw [← hvtx]
    rfl
  rw [hall, hother, List.foldlM_cons, addFee]
  rcases tx.getFee with f | fee
  · exact ⟨nofun, nofun⟩
  · refine foldlM_addFee_eq_ok_iff.trans ⟨fun h ↦ ⟨fee, _, rfl, h, ?_⟩, ?_⟩
    · grind
    · rintro ⟨_, others, ⟨⟩, h, rfl⟩
      rw [h, Except.ok.injEq]
      grind

/-! ## The limit of a coinbase -/

/-- Whatever block the coinbase leads, if `CheckBlock` and `TempApply` accept it and no other
transaction of it is a coinbase, the coinbase pays out at most the reward and the others' fees. -/
def EmissionBounded (coinbase : Transaction) : Prop :=
  ∀ (env : Surroundings) (fCheckPOW fCheckMerkleRoot : Bool) (junk : ℕ → UInt64)
    (root root' : Option TrieNode) (block : Block) (rest : List Transaction) (undos : List TxUndo),
    ValidRoot env.H root → block.vtx = coinbase :: rest → (∀ tx ∈ rest, tx.isCoinBase = false) →
    checkBlock env fCheckPOW fCheckMerkleRoot block = .ok () →
    tempApply junk root block = .ok (true, root', undos) →
    ∃ others, block.otherFees = .ok others ∧
      coinbase.valueOut ≤ (getBlockValue (junk 0) (balanceAt 0 root) others).toNat

/-- A coinbase that some block can be led by. `CheckTransaction` is not run at height zero. -/
structure Transaction.CanLead (coinbase : Transaction) : Prop where
  vout_ne_nil : coinbase.vout ≠ []
  valueIn_le : coinbase.valueIn ≤ MAX_MONEY.toNat
  valueOut_le : coinbase.valueOut ≤ MAX_MONEY.toNat
  wellFormed : coinbase.nLockHeight ≠ 0 → coinbase.WellFormed none

/-- The first output is all there is, and the coinbase takes out what it pays. -/
def Transaction.BurnsNothing (coinbase : Transaction) : Prop :=
  coinbase.valueIn = coinbase.valueOut ∧
    ∀ txout ∈ coinbase.vout.head?, txout.nValue.toNat = coinbase.valueOut

theorem Transaction.WellFormed.of_isCoinBase {tip tip' : Option TrieNode}
    (h : tx.WellFormed tip) (hcb : tx.isCoinBase = true) : tx.WellFormed tip' :=
  { h with balance_le := fun hncb ↦ absurd hcb (by simp [hncb]) }

theorem coinbase_of_tempApply {H : List UInt8 → UInt256} (hvalid : ValidRoot H root)
    (hvtx : block.vtx = coinbase :: rest) (hcb : coinbase.isCoinBase = true)
    (h : tempApply junk root block = .ok (true, root', undos)) :
    ∃ txout vout fees, coinbase.vout = txout :: vout ∧ block.getFees = .ok fees ∧
      txout.nValue ≤ getBlockValue (junk 0) (balanceAt 0 root) fees := by
  obtain ⟨ℓ, hℓ, -⟩ := exists_ledger_of_tempApply hvalid h
  rw [Ledger.apply, Block.moves, hvtx, movesFrom, txMoves, List.cons_append] at hℓ
  obtain ⟨ℓ₁, hcheck, -⟩ := runMoves_cons_true_iff.mp hℓ
  rw [balanceAt_eq hvalid]
  exact (step_check hcheck).2 rfl hcb

theorem canLead_of_accepted {env : Surroundings} {fCheckPOW fCheckMerkleRoot : Bool}
    (hvalid : ValidRoot env.H root)
    (hvtx : block.vtx = coinbase :: rest) (hcb : coinbase.isCoinBase = true)
    (hcheck : checkBlock env fCheckPOW fCheckMerkleRoot block = .ok ())
    (h : tempApply junk root block = .ok (true, root', undos)) : coinbase.CanLead := by
  obtain ⟨-, first, rest', hblock⟩ := checkBlock_eq_ok_iff.mp hcheck
  obtain ⟨rfl, rfl⟩ := List.cons.inj (hblock.vtx_eq.symm.trans hvtx)
  obtain ⟨txout, vout, fees, hvout, hfees, -⟩ := coinbase_of_tempApply hvalid hvtx hcb h
  obtain ⟨fee, -, hfee, -, -⟩ := (getFees_eq_ok_iff hvtx).mp hfees
  obtain ⟨hin, hout, -⟩ := getFee_eq_ok_iff.mp hfee
  refine ⟨by simp [hvout], hin, hout, fun hlock ↦ ?_⟩
  rw [hblock.lockHeight_eq] at hlock
  exact (hblock.wellFormed hlock first (by simp [hvtx])).of_isCoinBase hcb

theorem emissionBounded_of_burnsNothing (hcb : coinbase.isCoinBase = true)
    (h : coinbase.CanLead → coinbase.valueOut = 0 ∨ coinbase.BurnsNothing) :
    EmissionBounded coinbase := by
  intro env fCheckPOW fCheckMerkleRoot junk root root' block rest undos hvalid hvtx _ hcheck happly
  obtain ⟨txout, vout, fees, hvout, hfees, hle⟩ := coinbase_of_tempApply hvalid hvtx hcb happly
  obtain ⟨fee, others, hfee, hothers, rfl⟩ := (getFees_eq_ok_iff hvtx).mp hfees
  refine ⟨others, hothers, ?_⟩
  rcases h (canLead_of_accepted hvalid hvtx hcb hcheck happly) with hzero | ⟨hburn, hfirst⟩
  · rw [hzero]
    exact Nat.zero_le _
  · obtain ⟨-, -, hfee⟩ := getFee_eq_ok_iff.mp hfee
    have hnone : fee + others = others := by
      rw [hfee, hburn]
      grind
    rw [hnone, UInt64.le_iff_toNat_le] at hle
    rwa [← hfirst txout (by simp [hvout])]

/-! ## A block that pays too much

The other direction builds a block around a coinbase that burns something. Two more transactions
bring the other fees to any amount there is, and each spends all of an account of its own. -/

def unlimited (nHeight nValue : UInt64) : AccountData :=
  { AccountData.init with age := nHeight, balance := nValue }

/-- The account holds `nValue`, and the block has not come to it yet. -/
structure Ledger.Fresh (ℓ : Ledger) (nHeight : UInt64) (k : UInt160) (nValue : UInt64) : Prop where
  account : ℓ.accts k = some (unlimited nHeight nValue)
  limits : ℓ.book.limits k = none
  notMem_setLimit : k ∉ ℓ.book.setLimit
  notMem_setTxIn : k ∉ ℓ.book.setTxIn

section Fresh

variable {junk : ℕ → UInt64} {block : Block} {ℓ : Ledger}

theorem le_unlimited (nHeight nValue x : UInt64) : x ≤ (unlimited nHeight nValue).limit := by
  have hx := x.toNat_lt
  have hlimit : (unlimited nHeight nValue).limit.toNat = 0xFFFFFFFFFFFFFFFF := rfl
  rw [UInt64.le_iff_toNat_le, hlimit]
  omega

theorem Ledger.Fresh.withdraw {txin : TxIn}
    (h : ℓ.Fresh block.nHeight txin.pubKey txin.nValue) (tx : Transaction) :
    ∃ ℓ', step junk block ℓ (.withdraw tx txin) = .ok (true, ℓ') ∧
      ∀ k v, k ≠ txin.pubKey → ℓ.Fresh block.nHeight k v → ℓ'.Fresh block.nHeight k v := by
  have hlimit := le_unlimited block.nHeight txin.nValue txin.nValue
  obtain ⟨limits, hlimits⟩ : ∃ limits, checkLimit tx.fSetLimit ℓ.book.limits txin.pubKey
      (unlimited block.nHeight txin.nValue).limit txin.nValue = some limits := by
    rw [checkLimit, h.limits]
    split
    · exact ⟨_, rfl⟩
    · exact ⟨_, if_neg (UInt64.not_lt.mpr hlimit)⟩
  have hrefused : refused block.nHeight tx ℓ.book txin (unlimited block.nHeight txin.nValue)
      = false := by
    simp [refused, unlimited, h.notMem_setLimit, h.notMem_setTxIn]
  refine ⟨ℓ.change txin.pubKey ((unlimited block.nHeight txin.nValue).afterWithdrawal
    block.nHeight tx txin.nValue).keep (ℓ.book.note tx txin.pubKey limits), ?_,
    fun k v hk hfresh ↦ ?_⟩
  · rw [step, h.account]
    dsimp only
    rw [hlimits]
    dsimp only
    rw [hrefused]
    rfl
  · obtain ⟨hset, hin⟩ := @Book.notMem_note ℓ.book tx _ k limits hk
      hfresh.notMem_setLimit hfresh.notMem_setTxIn
    refine ⟨?_, ?_, hset, hin⟩
    · rw [accts_change, update_of_ne hk]
      exact hfresh.account
    · rw [change, Book.limits_note, checkLimit_of_ne hk.symm hlimits]
      exact hfresh.limits

theorem Ledger.Fresh.deposits (vout : List TxOut) : ∀ ℓ : Ledger,
    ∃ ℓ', runMoves (step junk block) ℓ (vout.map .deposit) = .ok (true, ℓ') ∧
      ∀ k v, k ∉ vout.map TxOut.pubKey → ℓ.Fresh block.nHeight k v →
        ℓ'.Fresh block.nHeight k v := by
  induction vout with
  | nil => exact fun ℓ ↦ ⟨ℓ, rfl, fun _ _ _ h ↦ h⟩
  | cons txout vout ih =>
    intro ℓ
    obtain ⟨ℓ', hrun, hframe⟩ := ih (ℓ.change txout.pubKey
      (some (afterDeposit block.nHeight txout.nValue (ℓ.accts txout.pubKey))) ℓ.book)
    refine ⟨ℓ', hrun, fun k v hk hfresh ↦ ?_⟩
    rw [List.map_cons, List.mem_cons, not_or] at hk
    refine hframe k v hk.2 ⟨?_, hfresh.limits, hfresh.notMem_setLimit, hfresh.notMem_setTxIn⟩
    rw [accts_change, update_of_ne hk.1]
    exact hfresh.account

theorem Ledger.Fresh.run_txMoves {i : ℕ} {tx : Transaction} {txin : TxIn} (hvin : tx.vin = [txin])
    (hcheck : step junk block ℓ (.check i tx) = .ok (true, ℓ))
    (h : ℓ.Fresh block.nHeight txin.pubKey txin.nValue) :
    ∃ ℓ', runMoves (step junk block) ℓ (txMoves i tx) = .ok (true, ℓ') ∧
      ∀ k v, k ≠ txin.pubKey → k ∉ tx.vout.map TxOut.pubKey → ℓ.Fresh block.nHeight k v →
        ℓ'.Fresh block.nHeight k v := by
  obtain ⟨ℓ₁, hstep, hframe₁⟩ := @Ledger.Fresh.withdraw junk block ℓ txin h tx
  obtain ⟨ℓ₂, hrun, hframe₂⟩ := @Ledger.Fresh.deposits junk block tx.vout ℓ₁
  refine ⟨ℓ₂, ?_, fun k v hk hout hfresh ↦ hframe₂ k v hout (hframe₁ k v hk hfresh)⟩
  rw [txMoves, hvin]
  exact runMoves_cons_true_iff.mpr ⟨ℓ, hcheck, runMoves_cons_true_iff.mpr ⟨ℓ₁, hstep, hrun⟩⟩

end Fresh

def feePayer (k : UInt160) (nValue : UInt64) : Transaction :=
  { payment k nValue 0 with vout := [⟨0, 0⟩] }

theorem valueIn_feePayer (k : UInt160) (nValue : UInt64) :
    (feePayer k nValue).valueIn = nValue.toNat := by
  simp [valueIn, feePayer, payment, exactSum]

theorem valueOut_feePayer (k : UInt160) (nValue : UInt64) : (feePayer k nValue).valueOut = 0 := rfl

theorem getFee_feePayer (h : nValue.toNat ≤ MAX_MONEY.toNat) :
    (feePayer k nValue).getFee = .ok nValue := by
  refine getFee_eq_ok_iff.mpr ⟨by rwa [valueIn_feePayer], Nat.zero_le _, ?_⟩
  rw [valueIn_feePayer, valueOut_feePayer, UInt64.ofNat_toNat]
  grind

theorem isCoinBase_feePayer (hk : k ≠ 0) (nValue : UInt64) :
    (feePayer k nValue).isCoinBase = false := beq_eq_false_iff_ne.mpr hk

theorem exists_serialize (hin : tx.vin ≠ []) (hout : tx.vout ≠ []) :
    ∃ bytes, tx.serialize = .ok bytes := by
  obtain ⟨txin, vin, hvin⟩ := List.exists_cons_of_ne_nil hin
  obtain ⟨txout, vout, hvout⟩ := List.exists_cons_of_ne_nil hout
  rw [serialize, wireParts, hvin, hvout]
  split <;> exact ⟨_, rfl⟩

theorem wellFormed_feePayer (hk : k ≠ 0)
    (h : nValue.toNat ≤ MAX_MONEY.toNat) : (feePayer k nValue).WellFormed none := by
  have hncb := isCoinBase_feePayer hk nValue
  refine ⟨by simp [feePayer, payment], by simp [feePayer], ⟨_, rfl, ?_⟩, ?_, ?_, ?_, ?_, ?_, ?_,
    ?_, ?_, ?_⟩
  · simp [feePayer, payment, writeVector, TxIn.serialize, TxOut.serialize, writeBytes,
      writeCompactSize, MAX_BLOCK_SIZE]
  · rw [← valueIn, valueIn_feePayer]
    exact h
  · exact Nat.zero_le _
  · exact Nat.zero_le _
  · exact fun _ _ _ ↦ UInt64.le_iff_toNat_le.mpr (Nat.zero_le _)
  · simp [feePayer, payment]
  · simp [feePayer]
  · exact fun hcb ↦ absurd hcb (by simp [hncb])
  · exact fun hcb ↦ absurd hcb (by simp [hncb])
  · intro _ txin hmem
    obtain rfl := List.mem_singleton.mp hmem
    exact beq_eq_false_iff_ne.mpr hk

/-- A stand-in for the hash that tells transactions with different first inputs apart. -/
def keyHash (bytes : List UInt8) : UInt256 :=
  BitVec.ofNat 256 (Codec.leNat ((bytes.drop 5).take 20))

theorem getTxID_keyHash (hvin : tx.vin = [txin]) :
    tx.getTxID keyHash = BitVec.ofNat 256 txin.pubKey.toNat := by
  have hbytes : ∃ tail, tx.signatureBytes = (Codec.leBytes 4 tx.nVersion.toNat ++ Codec.leBytes 1 1)
      ++ (Codec.leBytes 20 txin.pubKey.toNat ++ tail) := by
    constructor
    simp only [signatureBytes, hvin, List.append_assoc]
    rfl
  obtain ⟨tail, hbytes⟩ := hbytes
  rw [getTxID, signatureHash, keyHash, hbytes, List.drop_left' (by simp),
    List.take_left' (by simp), Codec.leNat_leBytes_of_lt (by simpa using txin.pubKey.isLt)]

theorem getTxID_keyHash_ne {tx' : Transaction} {txin' : TxIn} (hvin : tx.vin = [txin])
    (hvin' : tx'.vin = [txin']) (hne : txin.pubKey ≠ txin'.pubKey) :
    tx.getTxID keyHash ≠ tx'.getTxID keyHash := by
  rw [getTxID_keyHash hvin, getTxID_keyHash hvin']
  intro h
  have hlt := txin.pubKey.isLt
  have hlt' := txin'.pubKey.isLt
  have hnat := congrArg BitVec.toNat h
  rw [BitVec.toNat_ofNat, BitVec.toNat_ofNat, Nat.mod_eq_of_lt (by omega),
    Nat.mod_eq_of_lt (by omega)] at hnat
  exact hne (BitVec.eq_of_toNat_eq hnat)

theorem exists_of_isCoinBase (h : tx.isCoinBase = true) :
    ∃ txin, tx.vin = [txin] ∧ txin.pubKey = 0 := by
  rw [isCoinBase] at h
  split at h
  · next txin hvin => exact ⟨txin, hvin, eq_of_beq h⟩
  · exact absurd h Bool.false_ne_true

/-- A first transaction never overlaps, and at most its own account is in `setLimit` then. -/
theorem noteOverlap_coinbase (hvin : tx.vin = [txin]) :
    ∃ sets, noteOverlap ([], []) tx = .ok sets ∧ ∀ k ≠ txin.pubKey, k ∉ sets.1 := by
  rw [noteOverlap, hvin]
  split
  · exact ⟨_, rfl, fun k hk ↦ by simpa using hk⟩
  · exact ⟨_, rfl, fun k _ ↦ by simp⟩

theorem noteOverlap_feePayer {limit wd : List UInt160}
    (hk : k ∉ limit) : noteOverlap (limit, wd) (feePayer k nValue) = .ok (limit, k :: wd) := by
  have hany : (feePayer k nValue).vin.any (fun txin ↦ limit.contains txin.pubKey) = false := by
    simpa [feePayer, payment] using hk
  rw [noteOverlap, if_neg (by simp [feePayer, payment]), hany]
  rfl

/-- A block led by a coinbase, with two transactions that pay fees. -/
def leadBlock (coinbase : Transaction) (k₁ k₂ : UInt160) (v₁ v₂ : UInt64)
    (hashMerkleRoot : UInt256) : Block :=
  { blockOf [coinbase, feePayer k₁ v₁, feePayer k₂ v₂] with
    nHeight := coinbase.nLockHeight, hashMerkleRoot }

section LeadBlock

variable {coinbase : Transaction} {k₁ k₂ : UInt160} {v₁ v₂ : UInt64}

def idleNode : Surroundings :=
  { H := keyHash, checkProofOfWork := fun _ ↦ true, adjustedTime := 0, tip := none }

theorem checkBlock_leadBlock (hcb : coinbase.isCoinBase = true) (hlead : coinbase.CanLead)
    (hk₁ : k₁ ≠ 0) (hk₂ : k₂ ≠ 0) (hne : k₂ ≠ k₁) (hv₁ : v₁.toNat ≤ MAX_MONEY.toNat)
    (hv₂ : v₂.toNat ≤ MAX_MONEY.toNat) :
    ∃ merkle, checkBlock idleNode true true (leadBlock coinbase k₁ k₂ v₁ v₂ merkle) = .ok () := by
  obtain ⟨txin, hvin, hkey⟩ := exists_of_isCoinBase hcb
  obtain ⟨bytes, hbytes⟩ := exists_serialize (by simp [hvin]) hlead.vout_ne_nil
  have hhash : coinbase.getHash keyHash = .ok (keyHash bytes) := by
    rw [getHash, hbytes]
    rfl
  obtain ⟨merkle, hmerkle⟩ : ∃ merkle, buildMerkleTree keyHash
      [coinbase, feePayer k₁ v₁, feePayer k₂ v₂] = .ok merkle := by
    rw [buildMerkleTree, List.mapM_cons, hhash]
    exact ⟨_, rfl⟩
  refine ⟨merkle, checkBlock_eq_ok_iff.mpr ⟨rfl, coinbase, _, rfl, fun _ ↦ hcb, rfl,
    fun hheight ↦ ?_, ?_, ?_, merkle, hmerkle, fun _ ↦ rfl⟩⟩
  · exact List.forall_mem_cons.mpr ⟨hlead.wellFormed hheight, List.forall_mem_cons.mpr
      ⟨wellFormed_feePayer hk₁ hv₁, List.forall_mem_singleton.mpr (wellFormed_feePayer hk₂ hv₂)⟩⟩
  · obtain ⟨⟨limit, wd⟩, hsets, hmem⟩ := noteOverlap_coinbase hvin
    refine ⟨(limit, k₂ :: k₁ :: wd), ?_⟩
    change [coinbase, feePayer k₁ v₁, feePayer k₂ v₂].foldlM noteOverlap ([], []) = _
    rw [List.foldlM_cons, Except.bind_of_eq_ok hsets, List.foldlM_cons,
      Except.bind_of_eq_ok (noteOverlap_feePayer (hmem k₁ (hkey ▸ hk₁))), List.foldlM_cons,
      Except.bind_of_eq_ok (noteOverlap_feePayer (hmem k₂ (hkey ▸ hk₂)))]
    rfl
  · change ([coinbase, feePayer k₁ v₁, feePayer k₂ v₂].map (getTxID keyHash)).Nodup
    have hfirst : ∀ k v, k ≠ 0 → coinbase.getTxID keyHash ≠ (feePayer k v).getTxID keyHash :=
      fun k v hk ↦ getTxID_keyHash_ne hvin rfl (hkey ▸ hk.symm)
    have hsecond : (feePayer k₁ v₁).getTxID keyHash ≠ (feePayer k₂ v₂).getTxID keyHash :=
      getTxID_keyHash_ne rfl rfl hne.symm
    simp [hfirst k₁ v₁ hk₁, hfirst k₂ v₂ hk₂, hsecond]

/-- `TempApply` makes every move of the block if the coinbase passes its payout check. -/
theorem tempApply_leadBlock {H : List UInt8 → UInt256} {junk : ℕ → UInt64}
    {root : Option TrieNode} {merkle : UInt256} {txin : TxIn} {txout : TxOut} {vout : List TxOut}
    {fees : UInt64} (hvalid : ValidRoot H root) (hvin : coinbase.vin = [txin])
    (hkey : txin.pubKey = 0) (hvout : coinbase.vout = txout :: vout)
    (hk₁ : k₁ ∉ 0 :: coinbase.vout.map TxOut.pubKey)
    (hk₂ : k₂ ∉ k₁ :: 0 :: coinbase.vout.map TxOut.pubKey)
    (ha₀ : accounts root 0 = some (unlimited coinbase.nLockHeight txin.nValue))
    (ha₁ : accounts root k₁ = some (unlimited coinbase.nLockHeight v₁))
    (ha₂ : accounts root k₂ = some (unlimited coinbase.nLockHeight v₂))
    (hfees : (leadBlock coinbase k₁ k₂ v₁ v₂ merkle).getFees = .ok fees)
    (hle : txout.nValue ≤ getBlockValue (junk 0) txin.nValue fees) :
    ∃ root' undos, tempApply junk root (leadBlock coinbase k₁ k₂ v₁ v₂ merkle)
      = .ok (true, root', undos) := by
  rw [List.mem_cons, not_or] at hk₁
  rw [List.mem_cons, List.mem_cons, not_or, not_or] at hk₂
  have hfresh : ∀ {k v}, accounts root k = some (unlimited coinbase.nLockHeight v) →
      (start (accounts root)).Fresh (leadBlock coinbase k₁ k₂ v₁ v₂ merkle).nHeight k v :=
    fun h ↦ ⟨h, rfl, List.not_mem_nil, List.not_mem_nil⟩
  have hcheck : step junk (leadBlock coinbase k₁ k₂ v₁ v₂ merkle)
      (start (accounts root)) (.check 0 coinbase)
      = .ok (true, start (accounts root)) := by
    have hcb : coinbase.isCoinBase = true := by
      rw [isCoinBase, hvin]
      exact beq_iff_eq.mpr hkey
    have hbalance : balanceOf ((start (accounts root)).accts 0) = txin.nValue :=
      congrArg balanceOf ha₀
    rw [step, if_pos hcb, hvout]
    dsimp only
    rw [hfees, hbalance]
    simp [Except.map, UInt64.not_lt.mpr hle]
  have hplain : ∀ {k v} (ℓ : Ledger) (i : ℕ), k ≠ 0 →
      step junk (leadBlock coinbase k₁ k₂ v₁ v₂ merkle) ℓ (.check i (feePayer k v))
        = .ok (true, ℓ) := fun ℓ i hk ↦ if_neg (by simp [isCoinBase_feePayer hk])
  obtain ⟨ℓ₁, hrun₁, hframe₁⟩ := Fresh.run_txMoves hvin hcheck (hfresh (by rwa [hkey]))
  rw [hkey] at hframe₁
  obtain ⟨ℓ₂, hrun₂, hframe₂⟩ := @Ledger.Fresh.run_txMoves _ _ _ _ (feePayer k₁ v₁) ⟨v₁, k₁, []⟩ rfl
    (hplain ℓ₁ 1 hk₁.1) (hframe₁ k₁ v₁ hk₁.1 hk₁.2 (hfresh ha₁))
  obtain ⟨ℓ₃, hrun₃, -⟩ := @Ledger.Fresh.run_txMoves _ _ _ _ (feePayer k₂ v₂) ⟨v₂, k₂, []⟩ rfl
    (hplain ℓ₂ 2 hk₂.2.1) (hframe₂ k₂ v₂ hk₂.1 (by simpa [feePayer] using hk₂.2.1)
      (hframe₁ k₂ v₂ hk₂.2.1 hk₂.2.2 (hfresh ha₂)))
  have hrun : Ledger.apply junk (accounts root) (leadBlock coinbase k₁ k₂ v₁ v₂ merkle)
      = .ok (true, ℓ₃) :=
    runMoves_append_true_iff.mpr ⟨ℓ₁, hrun₁, runMoves_append_true_iff.mpr ⟨ℓ₂, hrun₂,
      runMoves_append_true_iff.mpr ⟨ℓ₃, hrun₃, rfl⟩⟩⟩
  obtain ⟨root', undos, happly, -⟩ := exists_tempApply_of_ledger hvalid hrun
  exact ⟨root', undos, happly⟩

end LeadBlock

/-! ## Which coinbases are bounded -/

/-- Unless the coinbase burns nothing, some value of the reward and the other fees is below what it
pays out and yet lets it pass. -/
theorem exists_gap {x y first : UInt64} (hfirst : first ≤ y) (hy : y ≠ 0)
    (h : ¬(x = y ∧ first = y)) : ∃ cap, cap < y ∧ first ≤ cap + (x - y) := by
  have hpos : 0 < y.toNat := Nat.pos_of_ne_zero fun h0 ↦ hy (UInt64.toNat_inj.mp h0)
  have hxlt := x.toNat_lt
  have hylt := y.toNat_lt
  have hsub := UInt64.toNat_sub x y
  rw [UInt64.le_iff_toNat_le] at hfirst
  have hcap : ∀ n < y.toNat, first.toNat ≤ (n + (x - y).toNat) % 2 ^ 64 →
      ∃ cap, cap < y ∧ first ≤ cap + (x - y) := by
    intro n hn hle
    have hn' : (UInt64.ofNat n).toNat = n := UInt64.toNat_ofNat_of_lt' (hn.trans hylt)
    refine ⟨UInt64.ofNat n, ?_, ?_⟩
    · rwa [UInt64.lt_iff_toNat_lt, hn']
    · rwa [UInt64.le_iff_toNat_le, UInt64.toNat_add, hn']
  rcases lt_trichotomy x.toNat y.toNat with hlt | heq | hgt
  · exact hcap (y.toNat - x.toNat - 1) (by omega) (by omega)
  · have hne : first.toNat ≠ y.toNat := fun hf ↦
      h ⟨UInt64.toNat_inj.mp heq, UInt64.toNat_inj.mp hf⟩
    exact hcap (y.toNat - 1) (by omega) (by omega)
  · exact hcap (y.toNat - 1) (by omega) (by omega)

theorem exists_three_accounts (H : List UInt8 → UInt256) {k₀ k₁ k₂ : UInt160} (h₁ : k₁ ≠ k₀)
    (h₂ : k₂ ≠ k₁) (h₃ : k₂ ≠ k₀) (a₀ a₁ a₂ : AccountData) :
    ∃ root, ValidRoot H root ∧ accounts root k₀ = some a₀ ∧ accounts root k₁ = some a₁ ∧
      accounts root k₂ = some a₂ := by
  obtain ⟨root, -, hvalid, haccts⟩ := @runCalls_spec H [.insert (Leaf.new k₀ a₀),
    .insert (Leaf.new k₁ a₁), .insert (Leaf.new k₂ a₂)] none validRoot_none
    ⟨⟨TrieEngine.insertable_new k₀ a₀, rfl⟩,
      ⟨TrieEngine.insertable_new k₁ a₁, update_of_ne h₁ _ _⟩,
      ⟨TrieEngine.insertable_new k₂ a₂, (update_of_ne h₂ _ _).trans
        (update_of_ne h₃ _ _)⟩, trivial⟩
  have hmap : accounts root = update (update (update (fun _ ↦ none) k₀
    (some a₀)) k₁ (some a₁)) k₂ (some a₂) := haccts
  refine ⟨root, hvalid, ?_, ?_, ?_⟩ <;> rw [hmap]
  · rw [update_of_ne h₃.symm, update_of_ne h₁.symm, update_self]
  · rw [update_of_ne h₂.symm, update_self]
  · rw [update_self]

theorem le_valueOut (h : tx.vout = txout :: vout) : txout.nValue.toNat ≤ tx.valueOut := by
  rw [valueOut, h, exactSum, List.map_cons, List.map_cons, List.sum_cons]
  exact Nat.le_add_right _ _

theorem exists_fees (total : UInt64) : ∃ v₁ v₂ : UInt64, v₁ + v₂ = total ∧
    v₁.toNat ≤ MAX_MONEY.toNat ∧ v₂.toNat ≤ MAX_MONEY.toNat := by
  have htotal := total.toNat_lt
  have hhalf : (total / 2).toNat = total.toNat / 2 := UInt64.toNat_div total 2
  refine ⟨total / 2, total - total / 2, by grind, ?_, ?_⟩
  · rw [hhalf, toNat_MAX_MONEY]
    omega
  · rw [UInt64.toNat_sub, hhalf, toNat_MAX_MONEY]
    omega

theorem otherFees_leadBlock {coinbase : Transaction} {k₁ k₂ : UInt160} {v₁ v₂ : UInt64}
    {merkle : UInt256} (hv₁ : v₁.toNat ≤ MAX_MONEY.toNat) (hv₂ : v₂.toNat ≤ MAX_MONEY.toNat) :
    (leadBlock coinbase k₁ k₂ v₁ v₂ merkle).otherFees = .ok (v₁ + v₂) := by
  change [feePayer k₁ v₁, feePayer k₂ v₂].foldlM addFee 0 = _
  rw [List.foldlM_cons, addFee, getFee_feePayer hv₁]
  change [feePayer k₂ v₂].foldlM addFee (0 + v₁) = _
  rw [List.foldlM_cons, addFee, getFee_feePayer hv₂]
  change Except.ok (0 + v₁ + v₂) = _
  rw [UInt64.zero_add]

theorem getBlockValue_eq_add (junk coinbase fees : UInt64) :
    getBlockValue junk coinbase fees = getBlockValue junk coinbase 0 + fees := by
  rw [getBlockValue, getBlockValue, UInt64.add_zero]

/-- A coinbase that pays something and burns some of it passes the payout check of `TempApply` with
less than what it pays out. -/
theorem Transaction.CanLead.exists_cap (h : coinbase.CanLead) (hvin : coinbase.vin = [txin])
    (hvout : coinbase.vout = txout :: vout) (hpays : coinbase.valueOut ≠ 0)
    (hburns : ¬coinbase.BurnsNothing) :
    ∃ cap : UInt64, cap.toNat < coinbase.valueOut ∧
      txout.nValue ≤ cap + (txin.nValue - UInt64.ofNat coinbase.valueOut) := by
  have hin : coinbase.valueIn = txin.nValue.toNat := by
    rw [valueIn, hvin]
    rfl
  have hout : (UInt64.ofNat coinbase.valueOut).toNat = coinbase.valueOut :=
    toNat_ofNat_exactSum h.valueOut_le
  have hfirst : txout.nValue ≤ UInt64.ofNat coinbase.valueOut := by
    rw [UInt64.le_iff_toNat_le, hout]
    exact le_valueOut hvout
  have hne : UInt64.ofNat coinbase.valueOut ≠ 0 := by
    intro h0
    rw [h0] at hout
    exact hpays hout.symm
  obtain ⟨cap, hcap, hle⟩ := @exists_gap txin.nValue _ _ hfirst hne (by
    rintro ⟨hx, hf⟩
    refine hburns ⟨by rw [hin, hx, hout], fun o ho ↦ ?_⟩
    rw [hvout] at ho
    cases ho
    rw [hf, hout])
  rw [UInt64.lt_iff_toNat_lt, hout] at hcap
  exact ⟨cap, hcap, hle⟩

/-- A bounded coinbase that can lead a block pays nothing or burns nothing. -/
theorem EmissionBounded.burnsNothing (hcb : coinbase.isCoinBase = true)
    (hlen : coinbase.vout.length < 2 ^ 64) (hbounded : EmissionBounded coinbase)
    (hlead : coinbase.CanLead) : coinbase.valueOut = 0 ∨ coinbase.BurnsNothing := by
  by_contra hnot
  rw [not_or] at hnot
  obtain ⟨txin, hvin, hkey⟩ := exists_of_isCoinBase hcb
  obtain ⟨txout, vout, hvout⟩ := List.exists_cons_of_ne_nil hlead.vout_ne_nil
  have hin : coinbase.valueIn = txin.nValue.toNat := by
    rw [valueIn, hvin]
    rfl
  obtain ⟨cap, hcap, hfirst⟩ := hlead.exists_cap hvin hvout hnot.1 hnot.2
  -- two accounts the coinbase does not touch pay the fees that make up the gap
  obtain ⟨k₁, hk₁⟩ := @exists_key_notMem 160 (0 :: coinbase.vout.map TxOut.pubKey)
    (by rw [List.length_cons, List.length_map]; omega)
  obtain ⟨k₂, hk₂⟩ := @exists_key_notMem 160 (k₁ :: 0 :: coinbase.vout.map TxOut.pubKey)
    (by rw [List.length_cons, List.length_cons, List.length_map]; omega)
  have hk₁' := List.ne_of_not_mem_cons hk₁
  have hk₂' := List.ne_of_not_mem_cons (List.not_mem_of_not_mem_cons hk₂)
  obtain ⟨v₁, v₂, hv, hv₁, hv₂⟩ := exists_fees (cap - getBlockValue 0 txin.nValue 0)
  obtain ⟨merkle, hcheck⟩ := checkBlock_leadBlock hcb hlead hk₁' hk₂'
    (List.ne_of_not_mem_cons hk₂) hv₁ hv₂
  obtain ⟨root, hvalid, ha₀, ha₁, ha₂⟩ := exists_three_accounts keyHash hk₁'
    (List.ne_of_not_mem_cons hk₂) hk₂' (unlimited coinbase.nLockHeight txin.nValue)
    (unlimited coinbase.nLockHeight v₁) (unlimited coinbase.nLockHeight v₂)
  have hothers := @otherFees_leadBlock coinbase k₁ k₂ v₁ v₂ merkle hv₁ hv₂
  have hfees := (@getFees_eq_ok_iff (leadBlock coinbase k₁ k₂ v₁ v₂ merkle) _ _ rfl _).mpr
    ⟨_, _, getFee_eq hlead.valueIn_le hlead.valueOut_le, hothers, rfl⟩
  obtain ⟨root', undos, happly⟩ := @tempApply_leadBlock coinbase k₁ k₂ v₁ v₂ keyHash (fun _ ↦ 0)
    root merkle txin txout vout _ hvalid hvin hkey hvout hk₁ hk₂ ha₀ ha₁ ha₂ hfees (by
      have hgap : ∀ reward d : UInt64, reward + (d + (cap - reward)) = cap + d := by grind
      rwa [getBlockValue_eq_add, hv, hin, UInt64.ofNat_toNat, hgap])
  obtain ⟨others, hothers', hle⟩ := hbounded idleNode true true (fun _ ↦ 0) root root' _ _ undos
    hvalid rfl (List.forall_mem_cons.mpr ⟨isCoinBase_feePayer hk₁' v₁,
      List.forall_mem_singleton.mpr (isCoinBase_feePayer hk₂' v₂)⟩) hcheck happly
  obtain rfl := Except.ok.inj (hothers.symm.trans hothers')
  have hreward : ∀ reward : UInt64, reward + (cap - reward) = cap := by grind
  rw [balanceAt_eq hvalid, ha₀, hv] at hle
  refine hcap.not_ge (hle.trans_eq ?_)
  exact congrArg UInt64.toNat ((getBlockValue_eq_add _ _ _).trans (hreward _))

/-- **What bounds the emission.** A coinbase is held to the reward and the fees of the other
transactions exactly when, if it can lead a block at all, it pays out nothing, or pays out in one
output all it takes. -/
theorem emissionBounded_iff {coinbase : Transaction} (hcb : coinbase.isCoinBase = true)
    (hlen : coinbase.vout.length < 2 ^ 64) : EmissionBounded coinbase ↔
      (coinbase.CanLead → coinbase.valueOut = 0 ∨ coinbase.BurnsNothing) :=
  ⟨fun h ↦ h.burnsNothing hcb hlen, emissionBounded_of_burnsNothing hcb⟩

/-- A coinbase that pays out what it takes is held to the limit. -/
theorem emissionBounded_iff_plain : EmissionBounded (payment 0 5 7) :=
  (emissionBounded_iff rfl (by decide)).mpr fun _ ↦
    .inr ⟨rfl, fun txout h ↦ by obtain rfl := Option.some.inj h; rfl⟩

/-- A coinbase at height one that takes `nValueIn` and pays out `nValueOut`. -/
def coinbaseOf (nValueIn nValueOut : UInt64) (target : UInt160) : Transaction :=
  { payment 0 nValueIn target with vout := [⟨nValueOut, target⟩], nLockHeight := 1 }

def genesisNode : Surroundings :=
  { H := Sha256.sha256d, checkProofOfWork := fun _ ↦ true, adjustedTime := 0, tip := genesisTrie }

/-- The first block after the genesis block has a reward of `2431000000000`. A coinbase that takes
three times as much out of account zero and pays out twice as much is accepted. -/
theorem emission_twice_reward :
    let coinbase := coinbaseOf 7293000000000 4862000000000 7
    let block := { blockOf [coinbase] with hashMerkleRoot :=
      0x6c110352af7de4b843b8ae81f7e10f4017326ebeb9cb8bd63cf0e9e05006502c }
    checkBlock genesisNode true true block = .ok () ∧
      (tempApply (fun _ ↦ 0) genesisTrie block).map Prod.fst = .ok true ∧
      block.otherFees = .ok 0 ∧
      (getBlockValue 0 (balanceAt 0 genesisTrie) 0).toNat = 2431000000000 ∧
      coinbase.valueOut = 4862000000000 := by
  decide +kernel

/-! ## One coinbase a block

`CheckBlock` asks that the first transaction be a coinbase. Of the others it asks nothing of the
kind, and neither does `CheckTransaction`; a coinbase needs no signature, and `TempApply` holds each
of them to the limit separately. -/

/-- The first transaction of the block is a coinbase and no other is. -/
def Block.OneCoinBase (block : Block) : Prop :=
  ∃ first rest, block.vtx = first :: rest ∧ first.isCoinBase = true ∧
    ∀ tx ∈ rest, tx.isCoinBase = false

/-- Every withdrawal from account zero is that of the first transaction, whose payout is within the
limit `TempApply` sets it. -/
def Block.OnePayout (block : Block) : Prop :=
  ∃ first rest, block.vtx = first :: rest ∧
    (∀ tx ∈ rest, ∀ txin ∈ tx.vin, txin.pubKey ≠ 0) ∧
    ∀ (H : List UInt8 → UInt256) (junk : ℕ → UInt64) (root root' : Option TrieNode)
      (undos : List TxUndo), ValidRoot H root →
      tempApply junk root block = .ok (true, root', undos) →
      ∃ txin txout fees, first.vin = [txin] ∧ first.vout = [txout] ∧ block.getFees = .ok fees ∧
        txout.nValue ≤ getBlockValue (junk 0) (balanceAt 0 root) fees

def Block.OthersSigned (block : Block) : Prop :=
  ∀ tx ∈ block.vtx.tail, ∃ txin ∈ tx.vin, txin.scriptSig ≠ []

section OneCoinBase

variable {env : Surroundings} {fCheckPOW fCheckMerkleRoot : Bool} {block : Block}

variable {tip : Option TrieNode} {tx : Transaction}

theorem Transaction.WellFormed.isCoinBase_iff
    (h : tx.WellFormed tip) : tx.isCoinBase = true ↔ ∃ txin ∈ tx.vin, txin.pubKey = 0 := by
  constructor
  · intro hcb
    obtain ⟨txin, hvin, hkey⟩ := exists_of_isCoinBase hcb
    exact ⟨txin, by simp [hvin], hkey⟩
  · rintro ⟨txin, hmem, hkey⟩
    by_contra hncb
    have hnull := h.not_isNull (Bool.eq_false_of_not_eq_true hncb) txin hmem
    exact beq_eq_false_iff_ne.mp hnull hkey

theorem Transaction.WellFormed.isCoinBase_eq_false
    (h : tx.WellFormed tip) (hsigned : ∃ txin ∈ tx.vin, txin.scriptSig ≠ []) :
    tx.isCoinBase = false := by
  obtain ⟨txin, hmem, hsig⟩ := hsigned
  by_contra hcb
  exact hsig (h.scriptSig_eq_nil (by simpa using hcb) txin hmem)

theorem Transaction.WellFormed.exists_signed
    {keys : Keys} {H : List UInt8 → UInt256} (h : tx.WellFormed tip)
    (hcb : tx.isCoinBase = false) (hinputs : checkInputs keys H tx = .ok ()) :
    ∃ txin ∈ tx.vin, txin.scriptSig ≠ [] := by
  obtain ⟨txin, vin, hvin⟩ := List.exists_cons_of_ne_nil h.vin_ne_nil
  have hmem : txin ∈ tx.vin := by simp [hvin]
  exact ⟨txin, hmem, scriptSig_ne_nil_of_verifyInput
    (checkInputs_eq_ok_iff.mp hinputs hcb txin hmem)⟩

theorem oneCoinBase_and_onePayout_iff {first : Transaction} {rest : List Transaction}
    (hheight : block.nHeight ≠ 0) (hblock : block.WellFormed env fCheckMerkleRoot first rest) :
    block.OneCoinBase ∧ block.OnePayout ↔ ∀ tx ∈ rest, tx.isCoinBase = false := by
  have hwf := hblock.wellFormed hheight
  rw [hblock.vtx_eq] at hwf
  have hcb := hblock.isCoinBase hheight
  constructor
  · rintro ⟨⟨first', rest', hvtx, -, hothers⟩, -⟩
    obtain ⟨-, rfl⟩ := List.cons.inj (hblock.vtx_eq.symm.trans hvtx)
    exact hothers
  · intro hothers
    refine ⟨⟨first, rest, hblock.vtx_eq, hcb, hothers⟩, first, rest, hblock.vtx_eq, ?_, ?_⟩
    · intro tx htx txin hmem hkey
      have hnull := (hwf tx (List.mem_cons_of_mem _ htx)).isCoinBase_iff.mpr ⟨txin, hmem, hkey⟩
      exact absurd (hothers tx htx) (by simp [hnull])
    · intro H junk root root' undos hvalid happly
      obtain ⟨txin, hvin, -⟩ := exists_of_isCoinBase hcb
      obtain ⟨txout, vout, fees, hvout, hfees, hle⟩ :=
        coinbase_of_tempApply hvalid hblock.vtx_eq hcb happly
      have hone := (hwf first List.mem_cons_self).length_vout hcb
      rw [hvout, List.length_cons] at hone
      obtain rfl := List.eq_nil_of_length_eq_zero (Nat.succ.inj hone)
      exact ⟨txin, txout, fees, hvin, hvout, hfees, hle⟩

/-- **One coinbase a block.** Let `CheckBlock` accept a block at a height other than zero. If every
transaction after the first carries a signature, the block has one coinbase and one payout; and if
the transactions pass `CheckInputs`, that is what it takes. -/
theorem oneCoinBase_iff (hheight : block.nHeight ≠ 0)
    (hcheck : checkBlock env fCheckPOW fCheckMerkleRoot block = .ok ()) :
    (block.OthersSigned → block.OneCoinBase ∧ block.OnePayout) ∧
    ∀ keys : Keys, (∀ tx ∈ block.vtx, checkInputs keys env.H tx = .ok ()) →
      (block.OneCoinBase ∧ block.OnePayout ↔ block.OthersSigned) := by
  obtain ⟨-, first, rest, hblock⟩ := checkBlock_eq_ok_iff.mp hcheck
  have hwf : ∀ tx ∈ rest, tx.WellFormed env.tip := fun tx htx ↦
    hblock.wellFormed hheight tx (by rw [hblock.vtx_eq]; exact List.mem_cons_of_mem _ htx)
  rw [Block.OthersSigned, oneCoinBase_and_onePayout_iff hheight hblock, hblock.vtx_eq,
    List.tail_cons]
  refine ⟨fun hsigned tx htx ↦ (hwf tx htx).isCoinBase_eq_false (hsigned tx htx),
    fun keys hinputs ↦ forall₂_congr fun tx htx ↦ ⟨fun hcb ↦ ?_, (hwf tx htx).isCoinBase_eq_false⟩⟩
  exact (hwf tx htx).exists_signed hcb (hinputs tx (List.mem_cons_of_mem _ htx))

def noKeys : Keys := ⟨fun _ _ ↦ none, fun _ ↦ 0⟩

def signedBlock : Block :=
  blockOf [coinbaseOf 5 5 7, { payment 5 3 6 with vin := [⟨3, 5, [1]⟩] }]

theorem oneCoinBase_iff_signed : signedBlock.OneCoinBase ∧ signedBlock.OnePayout :=
  (@oneCoinBase_iff genesisNode true false signedBlock (by decide) (by decide +kernel)).1
    (List.forall_mem_singleton.mpr ⟨_, List.mem_singleton_self _, by simp⟩)

/-- Two coinbases in one block: all checks pass and both take coins out of account zero. -/
theorem two_coinbases :
    let block := { blockOf [coinbaseOf 2431000000000 2431000000000 6,
      coinbaseOf 2430000000000 2430000000000 7] with hashMerkleRoot :=
      0x9ff52c964e5e75126d8205540469b00fd70b6189cdf56fe91a1092c8cbf5a4e }
    checkBlock genesisNode true true block = .ok () ∧
      (∀ tx ∈ block.vtx, checkInputs noKeys Sha256.sha256d tx = .ok ()) ∧
      (tempApply (fun _ ↦ 0) genesisTrie block).map Prod.fst = .ok true ∧
      block.vtx.map Transaction.isCoinBase = [true, true] := by
  decide +kernel

end OneCoinBase

end Cryptonite
