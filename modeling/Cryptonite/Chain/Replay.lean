import Cryptonite.Chain.TxIndex

/-!
# No transaction twice

A transaction that is in the active chain is in the index, or it is too old to be accepted again,
and then a purge may have erased it. That is the invariant `Guarded`, and the second case is about
heights: what a purge erases has expired at the height of the tip *at that time*. Nothing keeps the
tip there. A reorganisation after a purge takes blocks off, and below the height of the purge a
purged transaction is final again.

`Guarded.run` is the guarantee for the runs in which that does not happen, the `Sheltered` ones.
-/

namespace Cryptonite

open Patricia ChainSetup

/-! ## What a TxID determines -/

namespace Transaction

/-- `(int64_t)nLockHeight`. -/
def lockHeight (tx : Transaction) : ℤ := tx.nLockHeight.toInt64.toInt

variable {tx tx' : Transaction}

theorem nLockHeight_eq_of_signatureBytes
    (heq : tx.signatureBytes = tx'.signatureBytes) : tx.nLockHeight = tx'.nLockHeight := by
  obtain ⟨-, h⟩ := List.append_inj' heq (by simp)
  exact UInt64.toNat_inj.mp (Codec.leBytes_injOn (n := 8) tx.nLockHeight.toNat_lt
    tx'.nLockHeight.toNat_lt h)

theorem isCoinBase_eq_of_spends (h : tx.spends = tx'.spends) : tx.isCoinBase = tx'.isCoinBase := by
  have hcoinbase : ∀ t : Transaction, t.isCoinBase = (t.spends.map Prod.fst == [0]) := by
    intro t
    rw [isCoinBase, spends]
    rcases t.vin with _ | ⟨txin, _ | ⟨txin', vin⟩⟩ <;> simp [TxIn.isNull]
  rw [hcoinbase, hcoinbase, h]

end Transaction

/-- What is known of the blocks in the index: they were read from the wire or from disk, their
TxIDs do not collide, the genesis block is the one at height zero, it has no parent, and its
transactions have no inputs. Heights fit an `int`. -/
structure ChainSetup.Sound (setup : ChainSetup) : Prop where
  decoded : ∀ p, ∀ tx ∈ setup.vtx p, tx.Decoded
  injOn : Set.InjOn setup.H {m | ∃ p, ∃ tx ∈ setup.vtx p, m = tx.signatureBytes}
  genesis : ∀ p, (setup.index p).hash = setup.hashGenesisBlock ↔ (setup.index p).nHeight = 0
  noParent : ∀ p, (setup.index p).nHeight = 0 → (setup.index p).pprev = none
  noInputs : ∀ p, (setup.index p).nHeight = 0 → ∀ tx ∈ setup.vtx p, tx.vin = []
  height : ∀ p, (setup.index p).nHeight < 2 ^ 31
  history : ∃ testnet, setup.MIN_HISTORY = minHistory testnet

variable {setup : ChainSetup}

variable {p : ℕ} {tx : Transaction} {txIndex : UInt256 → Option TxPos} {id : UInt256}

theorem ChainSetup.Sound.eq_of_txid (h : setup.Sound) {q : ℕ} {tx' : Transaction}
    (hp : tx ∈ setup.vtx p) (hq : tx' ∈ setup.vtx q) (hid : setup.txid tx = setup.txid tx') :
    tx.lockHeight = tx'.lockHeight ∧ tx.isCoinBase = tx'.isCoinBase ∧
      (tx.vin = [] ↔ tx'.vin = []) := by
  have hbytes := h.injOn ⟨p, tx, hp, rfl⟩ ⟨q, tx', hq, rfl⟩ hid
  have hspends := ((h.decoded p tx hp).fromWire.spends_eq (h.decoded q tx' hq).fromWire hbytes).1
  refine ⟨?_, Transaction.isCoinBase_eq_of_spends hspends, ?_⟩
  · rw [Transaction.lockHeight, Transaction.nLockHeight_eq_of_signatureBytes hbytes,
      Transaction.lockHeight]
  · have hnil : ∀ t : Transaction, t.vin = [] ↔ t.spends = [] := fun t ↦
      List.map_eq_nil_iff.symm
    rw [hnil, hnil, hspends]

/-! ## Finality -/

theorem ChainSetup.Sound.history_eq (h : setup.Sound) :
    setup.history = 1000 ∨ setup.history = 10000 := by
  obtain ⟨_ | _, htestnet⟩ := h.history
  · exact .inr (by rw [ChainSetup.history, htestnet]; rfl)
  · exact .inl (by rw [ChainSetup.history, htestnet]; rfl)

theorem toInt32_of_lt {n : ℕ} (h : n < 2 ^ 31) : toInt32 n = n :=
  Int.bmod_eq_of_le (by omega) (by omega)

/-- A transaction is final in a block other than the genesis block from its lock height on, for
`MIN_HISTORY` blocks: the sum does not wrap, since the lock height is at most a height. -/
theorem isFinalTx_eq_true_iff (hhistory : 0 ≤ setup.history) (hshort : setup.history < 2 ^ 31)
    {activeHeight : ℤ} {nHeight : ℕ} (hfits : nHeight < 2 ^ 31) (hpos : nHeight ≠ 0) :
    isFinalTx setup.MIN_HISTORY activeHeight tx (toInt32 nHeight) = true ↔
      tx.lockHeight ≤ nHeight ∧ nHeight ≤ tx.lockHeight + setup.history := by
  have hne : (nHeight : ℤ) ≠ 0 := Int.natCast_ne_zero.mpr hpos
  have hneg : ¬(nHeight : ℤ) < 0 := not_lt.mpr (Int.natCast_nonneg nHeight)
  simp only [isFinalTx, toInt32_of_lt hfits, hne, hneg, if_false]
  change (if tx.lockHeight > nHeight then false else _) = true ↔ _
  by_cases hlock : tx.lockHeight ≤ nHeight
  · have hge : -(2 ^ 63) ≤ tx.lockHeight := tx.nLockHeight.toInt64.le_toInt
    have hsum : (tx.nLockHeight + setup.MIN_HISTORY).toInt64.toInt
        = tx.lockHeight + setup.history := by
      rw [UInt64.toInt64_add, Int64.toInt_add]
      change (tx.lockHeight + setup.history).bmod (2 ^ 64) = tx.lockHeight + setup.history
      exact Int.bmod_eq_of_le (by omega) (by omega)
    rw [if_neg (not_lt.mpr hlock), hsum]
    by_cases hlate : tx.lockHeight + setup.history < nHeight
    · simp [hlate]
    · simp [hlate, hlock, not_lt.mp hlate]
  · rw [if_pos (not_le.mp hlock)]
    simp [hlock]

/-! ## The invariant -/

/-- No TxID of a transaction other than a coinbase is in two blocks of the active chain. -/
def NoReplay (setup : ChainSetup) (s : ChainState) : Prop :=
  s.active.Pairwise fun p q ↦ ∀ tx ∈ setup.vtx p, ∀ tx' ∈ setup.vtx q,
    setup.txid tx = setup.txid tx' → tx.isCoinBase = true ∧ tx'.isCoinBase = true

/-- The invariant of a run whose purges reached up to the height `mark`. -/
structure Guarded (setup : ChainSetup) (mark : ℤ) (s : ChainState) : Prop where
  /-- The blocks on disk passed `AcceptBlock`. -/
  accepted : ∀ p, s.haveData p = true ∨ s.haveUndo p = true → (setup.index p).nHeight ≠ 0 →
    (setup.index p).block.nHeight ≠ 0 ∧ ∀ tx ∈ setup.vtx p,
      tx.lockHeight ≤ (setup.index p).nHeight ∧
        (setup.index p).nHeight ≤ tx.lockHeight + setup.history
  /-- An active transaction is indexed, or had expired at the mark, or belongs to the genesis
  block. -/
  indexed : ∀ p ∈ s.active, ∀ tx ∈ setup.vtx p, tx.isCoinBase = false →
    (s.txIndex (setup.txid tx)).isSome = true ∨ tx.lockHeight + setup.history < mark ∨ tx.vin = []
  /-- No transaction is active twice. -/
  noReplay : NoReplay setup s

/-- How far the purges of a run have reached after one more step. -/
def ChainStep.mark (setup : ChainSetup) (mark : ℤ) (s : ChainState) : ChainStep → ℤ
  | .purge _ => if s.height ≤ setup.history then mark else max mark s.height
  | _ => mark

/-- No block is connected below the height that the tip had at an earlier purge. -/
def Sheltered (setup : ChainSetup) : ℤ → ChainState → List ChainStep → Prop
  | _, _, [] => True
  | mark, s, step :: steps =>
    (∀ v p, step = .connect v p → mark ≤ (setup.index p).nHeight) ∧
      ∀ s', setup.step s step = some s' → Sheltered setup (step.mark setup mark s) s' steps

/-! ### Reading and writing the index -/

theorem isSome_writeTxIndex :
    (setup.writeTxIndex p txIndex id).isSome = true ↔
      (txIndex id).isSome = true ∨ ∃ tx ∈ setup.vtx p, setup.txid tx = id := by
  have hfold : ∀ (l : List (Transaction × ℕ)) (ix : UInt256 → Option TxPos),
      (l.foldl (fun ix e ↦ Function.update ix (setup.txid e.1)
        (some ⟨(setup.index p).hash, e.2⟩)) ix id).isSome = true ↔
      (ix id).isSome = true ∨ ∃ e ∈ l, setup.txid e.1 = id := by
    intro l
    induction l with
    | nil => intro ix; simp
    | cons e l ih =>
      intro ix
      rw [List.foldl_cons, ih]
      by_cases h : setup.txid e.1 = id
      · simp [h]
      · simp [Function.update_of_ne (Ne.symm h), h]
  refine (hfold _ _).trans (or_congr_right ⟨?_, ?_⟩)
  · rintro ⟨e, he, hid⟩
    exact ⟨e.1, (List.mem_zipIdx' he).2 ▸ List.getElem_mem _, hid⟩
  · rintro ⟨tx, htx, hid⟩
    obtain ⟨i, hi, rfl⟩ := List.getElem_of_mem htx
    exact ⟨((setup.vtx p)[i], i), List.mem_zipIdx_iff_getElem?.mpr (by simp [hi]), hid⟩

theorem eraseTxIndex_eq {vtx : List Transaction} (h : ∀ tx ∈ vtx, setup.txid tx ≠ id) :
    setup.eraseTxIndex vtx txIndex id = txIndex id := by
  rw [eraseTxIndex]
  induction vtx generalizing txIndex with
  | nil => rfl
  | cons tx vtx ih =>
    rw [List.foldl_cons, ih fun t ht ↦ h t (List.mem_cons_of_mem tx ht),
      Function.update_of_ne (h tx List.mem_cons_self).symm]

/-! ### The steps -/

section Steps

variable {mark : ℤ} {s s' : ChainState}

theorem Guarded.of_files (h : Guarded setup mark s) (hactive : s'.active = s.active)
    (hindex : s'.txIndex = s.txIndex)
    (hfiles : ∀ p, s'.haveData p = true ∨ s'.haveUndo p = true → (setup.index p).nHeight ≠ 0 →
      (setup.index p).block.nHeight ≠ 0 ∧ ∀ tx ∈ setup.vtx p,
        tx.lockHeight ≤ (setup.index p).nHeight ∧
          (setup.index p).nHeight ≤ tx.lockHeight + setup.history) : Guarded setup mark s' :=
  ⟨hfiles, by rw [hactive, hindex]; exact h.indexed, by
    rw [NoReplay, hactive]
    exact h.noReplay⟩

variable {p : ℕ} {v : ConnectVerdicts}

theorem Guarded.accept (hsetup : setup.Sound) (h : Guarded setup mark s) {file : ℕ}
    (hstep : setup.acceptBlock s p file = some s') : Guarded setup mark s' := by
  rw [acceptBlock] at hstep
  split at hstep
  · cases hstep
  next hheader =>
  split at hstep
  · next hfinal =>
    cases hstep
    refine h.of_files rfl rfl fun q hq hpos ↦ ?_
    by_cases hqp : q = p
    · subst hqp
      have hfits := hsetup.height q
      rw [List.all_eq_true] at hfinal
      refine ⟨fun hzero ↦ hheader ⟨fun heq ↦ hpos ((hsetup.genesis q).mp heq), ?_⟩,
        fun tx htx ↦ (isFinalTx_eq_true_iff ?_ ?_ hfits hpos).mp (hfinal tx htx)⟩
      · rw [toInt32_of_lt hfits, hzero, UInt64.toNat_zero, toInt32_of_lt (by norm_num)]
        exact Int.natCast_ne_zero.mpr hpos
      · rcases hsetup.history_eq with h | h <;> rw [h] <;> norm_num
      · rcases hsetup.history_eq with h | h <;> rw [h] <;> norm_num
    · refine h.accepted q ?_ hpos
      simpa only [Function.update_of_ne hqp] using hq
  · cases hstep

theorem Guarded.writeUndo (h : Guarded setup mark s) (hdata : s.haveData p = true) :
    Guarded setup mark { s with haveUndo := Function.update s.haveUndo p true } := by
  refine h.of_files rfl rfl fun q hq hpos ↦ h.accepted q ?_ hpos
  by_cases hqp : q = p
  · exact .inl (hqp ▸ hdata)
  · simpa only [Function.update_of_ne hqp] using hq

/-- What is erased with the tip belongs to no other active block. -/
theorem Guarded.disconnect (h : Guarded setup mark s)
    {erased : Transaction → Bool} (hstep : setup.disconnectTip s erased = some s') :
    Guarded setup mark s' := by
  rw [disconnectTip] at hstep
  split at hstep
  · cases hstep
  next p active hactive =>
  split at hstep
  · cases hstep
    have hpairs := h.noReplay
    rw [NoReplay, hactive, List.pairwise_cons] at hpairs
    refine ⟨h.accepted, fun q hq tx htx hcoinbase ↦ ?_, hpairs.2⟩
    have hkept : setup.eraseTxIndex ((setup.vtx p).filter erased) s.txIndex (setup.txid tx)
        = s.txIndex (setup.txid tx) := by
      refine eraseTxIndex_eq fun tx' htx' hid ↦ ?_
      have hboth := hpairs.1 q hq tx' (List.mem_of_mem_filter htx') tx htx hid
      rw [hboth.2] at hcoinbase
      exact Bool.noConfusion hcoinbase
    change (setup.eraseTxIndex _ _ _).isSome = true ∨ _
    rw [hkept]
    exact h.indexed q (hactive ▸ List.mem_cons_of_mem p hq) tx htx hcoinbase
  · cases hstep

/-- What a purge erases had expired, whichever block it was in. -/
theorem Guarded.purge (hsetup : setup.Sound) (h : Guarded setup mark s) (readable : ℕ → Bool) :
    Guarded setup ((ChainStep.purge readable).mark setup mark s) (setup.purgeDB s readable) := by
  rw [ChainStep.mark, purgeDB]
  by_cases hheight : s.height ≤ setup.history
  · rw [if_pos hheight, if_pos hheight]
    exact h
  rw [if_neg hheight, if_neg hheight]
  refine ⟨fun p hp hpos ↦ h.accepted p ?_ hpos, fun p hp tx htx hcoinbase ↦ ?_, h.noReplay⟩
  · simp only [Bool.and_eq_true] at hp
    exact hp.imp And.left And.left
  by_cases herased : ∃ tx' ∈ ((setup.setDelete s).filter readable).flatMap setup.vtx,
      setup.txid tx' = setup.txid tx
  · obtain ⟨tx', htx', hid⟩ := herased
    obtain ⟨q, hq, htx'⟩ := List.mem_flatMap.mp htx'
    obtain ⟨hlock, -, hvin⟩ := hsetup.eq_of_txid htx' htx hid
    have hdelete := List.mem_filter.mp (List.mem_of_mem_filter hq)
    simp only [recent, ge_iff_le, Bool.and_eq_true, Bool.not_eq_true',
      decide_eq_false_iff_not, not_le, Bool.or_eq_true] at hdelete
    obtain ⟨-, ⟨hold, hfile⟩, -⟩ := hdelete
    by_cases hpos : (setup.index q).nHeight = 0
    · exact .inr (.inr (hvin.mp (hsetup.noInputs q hpos tx' htx')))
    · have hle := ((h.accepted q hfile hpos).2 tx' htx').1
      refine .inr (.inl ?_)
      have hmax : s.height ≤ max mark s.height := le_max_right _ _
      rw [← hlock]
      omega
  · change (setup.eraseTxIndex _ _ _).isSome = true ∨ _
    rw [eraseTxIndex_eq fun tx' htx' hid ↦ herased ⟨tx', htx', hid⟩]
    refine (h.indexed p hp tx htx hcoinbase).imp_right (Or.imp_left fun hlt ↦ ?_)
    exact hlt.trans_le (le_max_left _ _)

theorem ChainSetup.connectBlock_eq_some
    {txIndex : UInt256 → Option TxPos} (hon : setup.fTxIndex = true)
    (h : setup.connectBlock s v p = some txIndex) :
    checkBlock ⟨setup.H, v.checkProofOfWork, v.adjustedTime, v.tip⟩ true true
        (setup.index p).block = .ok () ∧
      (∀ tx ∈ setup.vtx p, setup.connectTx s v p tx = true) ∧
      txIndex = setup.writeTxIndex p s.txIndex := by
  rw [connectBlock] at h
  simp only [hon, if_true, Option.ite_none_left_eq_some, not_not] at h
  obtain ⟨hcheck, -, -, htxs, hwrite⟩ := h
  rw [Bool.not_eq_true', Bool.not_eq_false, List.all_eq_true] at htxs
  exact ⟨hcheck, htxs, (Option.some.inj (Option.ite_none_right_eq_some.mp hwrite).2).symm⟩

/-- A transaction of a block that `ConnectBlock` accepts is not in the active chain: if it were, it
would be in the index, unless it had expired, and then it is not final. -/
theorem Guarded.fresh (hsetup : setup.Sound) (h : Guarded setup mark s)
    {q : ℕ} {tx tx' : Transaction} (hdata : s.haveData p = true)
    (hpos : (setup.index p).nHeight ≠ 0) (hmark : mark ≤ (setup.index p).nHeight)
    (hcheck : checkBlock ⟨setup.H, v.checkProofOfWork, v.adjustedTime, v.tip⟩ true true
      (setup.index p).block = .ok ())
    (hconnect : setup.connectTx s v p tx = true) (htx : tx ∈ setup.vtx p) (hq : q ∈ s.active)
    (htx' : tx' ∈ setup.vtx q) (hid : setup.txid tx = setup.txid tx') : tx.isCoinBase = true := by
  obtain ⟨hlock, hcoinbase, hvin⟩ := hsetup.eq_of_txid htx htx' hid
  by_contra hspends
  have hnotGenesis : (setup.index p).hash ≠ setup.hashGenesisBlock := fun heq ↦
    hpos ((hsetup.genesis p).mp heq)
  rw [Bool.not_eq_true] at hspends
  simp only [connectTx, hnotGenesis, hspends, decide_false, Bool.false_or,
    Bool.and_eq_true, Option.isNone_iff_eq_none] at hconnect
  obtain ⟨hheight, hfinal⟩ := h.accepted p (.inl hdata) hpos
  rcases h.indexed q hq tx' htx' (hcoinbase.symm.trans hspends) with hindexed | hexpired | hnil
  · rw [← hid, hconnect.2] at hindexed
    exact Bool.noConfusion hindexed
  · have hlate := (hfinal tx htx).2
    omega
  · obtain ⟨-, first, rest, hwell⟩ := checkBlock_eq_ok_iff.mp hcheck
    exact (hwell.wellFormed hheight tx htx).vin_ne_nil (hvin.mpr hnil)

theorem Guarded.connect (hsetup : setup.Sound) (hon : setup.fTxIndex = true)
    (h : Guarded setup mark s)
    (hmark : mark ≤ (setup.index p).nHeight) (hstep : setup.connectTip s v p = some s') :
    Guarded setup mark s' := by
  rw [connectTip, Option.ite_none_left_eq_some, Option.map_eq_some_iff] at hstep
  obtain ⟨hready, txIndex, hblock, rfl⟩ := hstep
  rw [not_or, Bool.not_eq_true', Bool.not_eq_false, not_not] at hready
  obtain ⟨hdata, hparent⟩ := hready
  obtain ⟨hcheck, htxs, rfl⟩ := connectBlock_eq_some hon hblock
  refine ⟨h.accepted, fun q hq tx htx hcoinbase ↦ ?_, List.pairwise_cons.mpr ⟨?_, h.noReplay⟩⟩
  · change (setup.writeTxIndex _ _ _).isSome = true ∨ _
    rw [isSome_writeTxIndex]
    rcases List.mem_cons.mp hq with rfl | hq
    · exact .inl (.inr ⟨tx, htx, rfl⟩)
    · exact (h.indexed q hq tx htx hcoinbase).imp_left .inl
  · intro q hq tx htx tx' htx' hid
    by_cases hpos : (setup.index p).nHeight = 0
    · -- the genesis block is connected to nothing
      rw [hsetup.noParent p hpos, eq_comm, List.head?_eq_none_iff] at hparent
      rw [hparent] at hq
      exact absurd hq List.not_mem_nil
    · have hfresh := h.fresh hsetup hdata hpos hmark hcheck (htxs tx htx) htx hq htx' hid
      exact ⟨hfresh, (hsetup.eq_of_txid htx htx' hid).2.1 ▸ hfresh⟩

theorem Guarded.step (hsetup : setup.Sound) (hon : setup.fTxIndex = true)
    (h : Guarded setup mark s) {step : ChainStep}
    (hmark : ∀ v p, step = .connect v p → mark ≤ (setup.index p).nHeight)
    (hstep : setup.step s step = some s') : Guarded setup (step.mark setup mark s) s' := by
  cases step with
  | accept p file => exact h.accept hsetup hstep
  | writeUndo p =>
    obtain ⟨hdata, hs'⟩ := Option.ite_none_right_eq_some.mp hstep
    exact Option.some.inj hs' ▸ h.writeUndo hdata
  | connect v p => exact h.connect hsetup hon (hmark v p rfl) hstep
  | disconnect erased => exact h.disconnect hstep
  | purge readable => exact Option.some.inj hstep ▸ h.purge hsetup readable

theorem Guarded.run (hsetup : setup.Sound) (hon : setup.fTxIndex = true) {steps : List ChainStep}
    (h : Guarded setup mark s) (hsheltered : Sheltered setup mark s steps)
    (hrun : setup.run s steps = some s') : NoReplay setup s' := by
  induction steps generalizing mark s with
  | nil => exact Option.some.inj hrun ▸ h.noReplay
  | cons step steps ih =>
    obtain ⟨next, hnext, hrest⟩ := Option.bind_eq_some_iff.mp hrun
    exact ih (h.step hsetup hon hsheltered.1 hnext) (hsheltered.2 next hnext) hrest

end Steps

theorem guarded_initial (hsetup : setup.Sound) {genesis : ℕ}
    (hgenesis : (setup.index genesis).nHeight = 0) :
    Guarded setup 0 (ChainState.initial genesis) := by
  refine ⟨fun p hp ↦ ?_, fun p hp tx htx _ ↦ ?_, List.pairwise_singleton _ _⟩
  · simp [ChainState.initial] at hp
  · obtain rfl := List.mem_singleton.mp hp
    exact .inr (.inr (hsetup.noInputs p hgenesis tx htx))

end Cryptonite
