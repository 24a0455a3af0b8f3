import Cryptonite.Chain.Replay
import Cryptonite.Foundation.Sha256

/-!
# A purge, a reorganisation, a replay

`replay_protected` says that no transaction is in the active chain twice as long as no block is
connected below the height of an earlier purge. The condition is needed, and this module follows a
run that breaks it, for every length `n` of the history.

The chain has `n + 2` blocks. The first holds a payment that may be included up to height `n + 1`.
A purge at height `n + 2` takes the payment out of the index, two blocks are taken off, and the
block that comes in their place, at height `n + 1`, holds the payment once more.
-/

namespace Cryptonite

open ChainSetup Function

/-! ## The blocks and the steps -/

namespace Replay

/-- One unit from account five to account six, for a fee of one. -/
def payment : Transaction := ⟨1, [⟨2, 5, []⟩], [⟨1, 6⟩], [], 1, 0, false⟩

def coinbase (h : ℕ) : Transaction := ⟨1, [⟨1, 0, []⟩], [⟨1, 7⟩], [], UInt64.ofNat h, 0, false⟩

/-- Entry `n + 3` is the one that competes with entry `n + 1`. -/
def height (n p : ℕ) : ℕ := if p = n + 3 then n + 1 else p

/-- The transactions of an entry. The genesis transaction has no inputs. -/
def vtx (n p : ℕ) : List Transaction :=
  if p = 0 then [{ coinbase 0 with vin := [] }]
  else coinbase (height n p) :: if p = 1 ∨ p = n + 3 then [payment] else []

def block (H : List UInt8 → UInt256) (n p : ℕ) : Block :=
  { hashPrevBlock := BitVec.ofNat 256 (height n p - 1)
    hashMerkleRoot := match buildMerkleTree H (vtx n p) with
      | .ok root => root
      | .error _ => 0
    hashAccountRoot := 0, nTime := 0, nHeight := UInt64.ofNat (height n p), nNonce := 0
    nVersion := 1, vtx := vtx n p }

def entry (H : List UInt8 → UInt256) (n p : ℕ) : BlockIndex :=
  { hash := BitVec.ofNat 256 p, headerHash := BitVec.ofNat 256 p, nHeight := height n p
    pprev := if p = 0 then none else some (height n p - 1), block := block H n p }

/-- A node that knows some of the entries. -/
def forkSetup (H : List UInt8 → UInt256) (n : ℕ) (known : ℕ → ℕ) : ChainSetup :=
  { H, MIN_HISTORY := UInt64.ofNat n, fTxIndex := true, hashGenesisBlock := 0
    index := fun p ↦ entry H n (known p), entries := List.range (n + 4) }

/-- The other checks pass; account five is the only one with coins. -/
def verdicts : ConnectVerdicts :=
  { checkProofOfWork := fun _ ↦ true, adjustedTime := 0, prevFound := true, sizeLimits := true
    tip := some (.leaf NodeCache.newLeaf 5 { AccountData.init with balance := 100 })
    haveInputs := fun _ ↦ true, checkInputs := fun _ ↦ true, writeTxIndex := true }

/-- The first block goes to a file of its own. -/
def grow (k : ℕ) : List ChainStep :=
  (List.range k).flatMap fun i ↦ [.accept (i + 1) (min i 1), .connect verdicts (i + 1)]

def steps (n : ℕ) : List ChainStep :=
  grow (n + 2) ++ [.purge fun _ ↦ true, .disconnect fun _ ↦ true, .disconnect fun _ ↦ true] ++
    [.accept (n + 3) 1, .connect verdicts (n + 3)]

/-! ## The blocks pass the checks -/

theorem wellFormed_payment : payment.WellFormed verdicts.tip :=
  checkTransaction_eq_ok_iff.mp (by decide)

theorem wellFormed_coinbase (h : ℕ) : (coinbase h).WellFormed verdicts.tip where
  vin_ne_nil := List.cons_ne_nil _ _
  vout_ne_nil := List.cons_ne_nil _ _
  size_le := ⟨_, rfl, by simp [writeVector, writeBytes, writeCompactSize, coinbase, TxIn.serialize,
    TxOut.serialize, MAX_BLOCK_SIZE]⟩
  valueIn_le := show exactSum [1] ≤ _ by decide
  valueOut_le := le_rfl
  msg_le := Nat.zero_le _
  balance_le := fun hcoinbase ↦ Bool.noConfusion hcoinbase
  nodup_vin := List.nodup_singleton _
  nodup_vout := List.nodup_singleton _
  scriptSig_eq_nil := fun _ txin htxin ↦ by rw [List.mem_singleton.mp htxin]
  length_vout := fun _ ↦ rfl
  not_isNull := fun hcoinbase ↦ Bool.noConfusion hcoinbase

variable {H : List UInt8 → UInt256} {n p : ℕ}

/-- The payment has an identity of its own. -/
def Apart (H : List UInt8 → UInt256) (n : ℕ) : Prop :=
  ∀ h, h = 1 ∨ h = n + 1 → (coinbase h).getTxID H ≠ payment.getTxID H

theorem vtx_of_ne_zero (hp : p ≠ 0) : vtx n p = [coinbase (height n p)] ∨
    vtx n p = [coinbase (height n p), payment] ∧ (p = 1 ∨ p = n + 3) := by
  rw [vtx, if_neg hp]
  split
  · next h => exact .inr ⟨rfl, h⟩
  · exact .inl rfl

variable {tx : Transaction} {s : ChainState} {k : ℕ}

theorem mem_vtx (hp : p ≠ 0) (htx : tx ∈ vtx n p) :
    tx = coinbase (height n p) ∨ tx = payment ∧ (p = 1 ∨ p = n + 3) := by
  rcases vtx_of_ne_zero (n := n) hp with hvtx | ⟨hvtx, hpays⟩ <;> rw [hvtx] at htx
  · exact .inl (List.mem_singleton.mp htx)
  · rcases List.mem_cons.mp htx with rfl | htx
    · exact .inl rfl
    · exact .inr ⟨List.mem_singleton.mp htx, hpays⟩

theorem payment_mem_vtx (hp : p ≠ 0) : payment ∈ vtx n p ↔ p = 1 ∨ p = n + 3 := by
  refine ⟨fun hmem ↦ ?_, fun hpays ↦ ?_⟩
  · rcases mem_vtx hp hmem with hcoinbase | ⟨-, hpays⟩
    · exact Bool.noConfusion (congrArg Transaction.isCoinBase hcoinbase)
    · exact hpays
  · rw [vtx, if_neg hp, if_pos hpays]
    exact List.mem_cons_of_mem _ List.mem_cons_self

theorem height_of_pays (hpays : p = 1 ∨ p = n + 3) : height n p = 1 ∨ height n p = n + 1 := by
  rcases hpays with rfl | rfl
  · exact .inl (if_neg (by omega))
  · exact .inr (if_pos rfl)

theorem height_bounds (hn : n < 2 ^ 30) (hpos : p ≠ 0) (hp : p ≤ n + 3) :
    height n p ≠ 0 ∧ height n p < 2 ^ 31 := by
  rw [height]
  split <;> omega

theorem checkBlock_block (hapart : Apart H n) (hp : p ≠ 0) :
    checkBlock ⟨H, verdicts.checkProofOfWork, verdicts.adjustedTime, verdicts.tip⟩ true true
      (block H n p) = .ok () := by
  have hwell : ∀ tx ∈ vtx n p, tx.WellFormed verdicts.tip := by
    intro tx htx
    rcases mem_vtx hp htx with rfl | ⟨rfl, -⟩
    · exact wellFormed_coinbase _
    · exact wellFormed_payment
  refine checkBlock_eq_ok_iff.mpr ⟨rfl, ?_⟩
  rcases vtx_of_ne_zero (n := n) hp with hvtx | ⟨hvtx, hpays⟩
  · refine ⟨coinbase (height n p), [], hvtx, fun _ ↦ rfl, rfl, fun _ ↦ hwell, ?_, ?_, ?_⟩
    all_goals simp only [block, hvtx]
    · exact ⟨_, rfl⟩
    · exact List.nodup_singleton _
    · exact ⟨_, rfl, fun _ ↦ rfl⟩
  · refine ⟨coinbase (height n p), [payment], hvtx, fun _ ↦ rfl, rfl, fun _ ↦ hwell, ?_, ?_, ?_⟩
    all_goals simp only [block, hvtx]
    · exact ⟨_, rfl⟩
    · simpa using hapart _ (height_of_pays hpays)
    · exact ⟨_, rfl, fun _ ↦ rfl⟩

theorem toInt_ofNat {m : ℕ} (h : m < 2 ^ 31) : (UInt64.ofNat m).toInt64.toInt = m := by
  have hnat : (BitVec.ofNat 64 m).toNat = m := Nat.mod_eq_of_lt (h.trans (by norm_num))
  change (BitVec.ofNat 64 m).toInt = m
  rw [BitVec.toInt_eq_toNat_of_lt (by omega), hnat]

variable {known : ℕ → ℕ}

theorem history_forkSetup (hn : n < 2 ^ 30) : (forkSetup H n known).history = n :=
  toInt_ofNat (by omega)

theorem isFinalTx_vtx (hn : n < 2 ^ 30) (hp : p ≠ 0) (hle : p ≤ n + 3) (activeHeight : ℤ)
    (htx : tx ∈ vtx n p) :
    isFinalTx (forkSetup H n known).MIN_HISTORY activeHeight tx (toInt32 (height n p)) = true := by
  obtain ⟨hpos, hfits⟩ := height_bounds hn hp hle
  have hhistory := @history_forkSetup H n known hn
  rw [isFinalTx_eq_true_iff (by omega) (by omega) hfits hpos, hhistory]
  rcases mem_vtx hp htx with rfl | ⟨rfl, hpays⟩
  · have hlock : (coinbase (height n p)).lockHeight = height n p := toInt_ofNat hfits
    omega
  · have hlock : payment.lockHeight = 1 := rfl
    have hheight := height_of_pays hpays
    omega

theorem accept_eq (hn : n < 2 ^ 30) (hp : p ≠ 0) (hle : p ≤ n + 3) (hknown : known p = p)
    (s : ChainState) (file : ℕ) : (forkSetup H n known).acceptBlock s p file = some
      { s with haveData := update s.haveData p true
               haveUndo := update s.haveUndo p false
               nFile := update s.nFile p file } := by
  have hindex : (forkSetup H n known).index p = entry H n p := congrArg (entry H n) hknown
  obtain ⟨hpos, hfits⟩ := height_bounds hn hp hle
  have hheader : (entry H n p).block.nHeight.toNat = height n p :=
    UInt64.toNat_ofNat_of_lt' (hfits.trans (by decide))
  rw [ChainSetup.acceptBlock, ChainSetup.vtx, hindex, if_neg, if_pos]
  · exact List.all_eq_true.mpr fun tx htx ↦ isFinalTx_vtx hn hp hle _ htx
  · rintro ⟨-, hne⟩
    exact hne (by rw [hheader]; rfl)

theorem connect_eq (hapart : Apart H n) (hp : p ≠ 0) (hknown : known p = p)
    (hdata : s.haveData p = true) (hparent : s.active.head? = some (height n p - 1))
    (hnew : payment ∈ vtx n p → s.txIndex (payment.getTxID H) = none) :
    (forkSetup H n known).connectTip s verdicts p = some
      { s with active := p :: s.active
               txIndex := (forkSetup H n known).writeTxIndex p s.txIndex } := by
  have hindex : (forkSetup H n known).index p = entry H n p := congrArg (entry H n) hknown
  have hprev : (entry H n p).pprev = s.active.head? := by
    rw [hparent]
    exact if_neg hp
  have htxs : (entry H n p).block.vtx.all ((forkSetup H n known).connectTx s verdicts p)
      = true := by
    refine List.all_eq_true.mpr fun tx htx ↦ ?_
    rcases mem_vtx hp htx with rfl | ⟨rfl, -⟩
    · simp [connectTx, show (coinbase (height n p)).isCoinBase = true from rfl]
    · have hnone : s.txIndex ((forkSetup H n known).txid payment) = none := hnew htx
      simp [connectTx, hnone, verdicts, show payment.getFee.isOk = true from rfl]
  have hcheck : checkBlock ⟨(forkSetup H n known).H, verdicts.checkProofOfWork,
      verdicts.adjustedTime, verdicts.tip⟩ true true (entry H n p).block = .ok () :=
    checkBlock_block hapart hp
  have hblock : (forkSetup H n known).connectBlock s verdicts p
      = some ((forkSetup H n known).writeTxIndex p s.txIndex) := by
    rw [ChainSetup.connectBlock, ChainSetup.vtx, hindex]
    simp only [hcheck, htxs, hprev]
    rw [if_neg (not_not.mpr rfl), if_neg (not_not.mpr rfl)]
    rfl
  rw [connectTip, hindex, if_neg (by simp [hdata, hprev]), hblock]
  rfl

/-- The node once it has accepted a block and made it the tip. -/
def extended (setup : ChainSetup) (s : ChainState) (p file : ℕ) : ChainState :=
  { active := p :: s.active
    txIndex := setup.writeTxIndex p s.txIndex
    haveData := Function.update s.haveData p true
    haveUndo := Function.update s.haveUndo p false
    nFile := Function.update s.nFile p file }

theorem run_extend (hn : n < 2 ^ 30) (hapart : Apart H n) (hp : p ≠ 0) (hle : p ≤ n + 3)
    (hknown : known p = p) (hparent : s.active.head? = some (height n p - 1))
    (hnew : payment ∈ vtx n p → s.txIndex (payment.getTxID H) = none) (file : ℕ) :
    (forkSetup H n known).run s [.accept p file, .connect verdicts p]
      = some (extended (forkSetup H n known) s p file) := by
  rw [run, step, accept_eq hn hp hle hknown, Option.bind_some,
    run, step, connect_eq hapart hp hknown]
  · rfl
  · exact update_self _ _ _
  · exact hparent
  · exact hnew

/-- The node after `k` blocks of the first chain. -/
structure Grown (k : ℕ) (s : ChainState) : Prop where
  active : s.active = (List.range (k + 1)).reverse
  haveData : ∀ p, s.haveData p = true ↔ p ≠ 0 ∧ p ≤ k
  haveUndo : ∀ p, s.haveUndo p = false
  nFile : ∀ p, p ≤ k → s.nFile p = min (p - 1) 1
  unindexed : k = 0 → ∀ id, s.txIndex id = none

theorem grown_initial : Grown 0 (.initial 0) where
  active := rfl
  haveData p := by simp [ChainState.initial]
  haveUndo _ := rfl
  nFile p hp := by rw [Nat.le_zero.mp hp]; rfl
  unindexed _ _ := rfl

theorem Grown.head? (h : Grown k s) : s.active.head? = some k := by
  rw [h.active, List.range_succ, List.reverse_append]
  rfl

theorem Grown.extended (h : Grown k s) (setup : ChainSetup) :
    Grown (k + 1) (extended setup s (k + 1) (min k 1)) where
  active := by
    rw [Replay.extended, h.active, ← List.reverse_concat, ← List.range_succ]
  haveData p := by
    by_cases hp : p = k + 1
    · simp [Replay.extended, hp]
    · simp only [Replay.extended, update_of_ne hp, h.haveData]
      omega
  haveUndo p := by
    by_cases hp : p = k + 1
    · simp [Replay.extended, hp]
    · simp only [Replay.extended, update_of_ne hp, h.haveUndo]
  nFile p hle := by
    by_cases hp : p = k + 1
    · simp [Replay.extended, hp]
    · simp only [Replay.extended, update_of_ne hp, h.nFile p (by omega)]
  unindexed hk := absurd hk k.succ_ne_zero

theorem grown_grow (hn : n < 2 ^ 30) (hapart : Apart H n) (hk : k ≤ n + 2) :
    ∃ s, (forkSetup H n id).run (.initial 0) (grow k) = some s ∧ Grown k s := by
  induction k with
  | zero => exact ⟨_, rfl, grown_initial⟩
  | succ k ih =>
    obtain ⟨s, hrun, hgrown⟩ := ih (by omega)
    have hheight : height n (k + 1) = k + 1 := if_neg (by omega)
    refine ⟨_, ?_, hgrown.extended (forkSetup H n id)⟩
    rw [grow, List.range_succ, List.flatMap_append, run_append, ← grow, hrun]
    refine run_extend hn hapart k.succ_ne_zero (by omega) rfl
      (by rw [hheight]; exact hgrown.head?) (fun hpayment ↦ hgrown.unindexed ?_ _) _
    have hfirst := (payment_mem_vtx k.succ_ne_zero).mp hpayment
    omega

/-! ## The purge and what follows -/

theorem eraseTxIndex_eq_none (setup : ChainSetup) {vtx : List Transaction}
    {txIndex : UInt256 → Option TxPos} (h : tx ∈ vtx ∨ txIndex (setup.txid tx) = none) :
    setup.eraseTxIndex vtx txIndex (setup.txid tx) = none := by
  rw [eraseTxIndex]
  induction vtx generalizing txIndex with
  | nil => exact h.resolve_left List.not_mem_nil
  | cons head vtx ih =>
    refine ih ?_
    rcases h with h | h
    · rcases List.mem_cons.mp h with rfl | h
      · exact .inr (update_self _ _ _)
      · exact .inl h
    · right
      dsimp only
      rw [update_apply, h, ite_self]

theorem Grown.height_eq (h : Grown k s) : s.height = k := by
  rw [ChainState.height, h.active, List.length_reverse, List.length_range]
  omega

theorem Grown.mem_setDelete_iff (hn : n < 2 ^ 30) (h : Grown (n + 2) s) :
    p ∈ (forkSetup H n id).setDelete s ↔ p = 1 := by
  have hrecent : ∀ q, (forkSetup H n id).recent s q = true ↔ 2 ≤ height n q := by
    intro q
    rw [recent, history_forkSetup hn, h.height_eq, decide_eq_true_iff]
    change (height n q : ℤ) + n ≥ ((n + 2 : ℕ) : ℤ) ↔ _
    omega
  have hdata : ∀ q, (s.haveData q || s.haveUndo q) = true ↔ q ≠ 0 ∧ q ≤ n + 2 := by
    intro q
    rw [h.haveUndo, Bool.or_false, h.haveData]
  have hheight : ∀ q, q ≤ n + 2 → height n q = q := fun q hq ↦ if_neg (by omega)
  have hneed : 0 ∉ (forkSetup H n id).setNeed s := by
    intro hzero
    obtain ⟨q, hq, hfile⟩ := List.mem_map.mp hzero
    have hq := (List.mem_filter.mp hq).2
    rw [Bool.and_eq_true, hrecent, hdata] at hq
    rw [h.nFile q hq.2.2] at hfile
    have hle := hheight q hq.2.2 ▸ hq.1
    omega
  rw [setDelete, List.mem_filter, Bool.and_eq_true, Bool.and_eq_true, Bool.not_eq_true',
    ← Bool.not_eq_true, hrecent, hdata, Bool.not_eq_true', ← Bool.not_eq_true,
    List.contains_iff_mem]
  constructor
  · rintro ⟨-, ⟨hold, hp, hle⟩, -⟩
    rw [hheight p hle] at hold
    omega
  · rintro rfl
    rw [hheight 1 (by omega), h.nFile 1 (by omega)]
    exact ⟨List.mem_range.mpr (by omega), by omega, hneed⟩

theorem disconnect_eq {active : List ℕ} (hactive : s.active = p :: active)
    (hdata : s.haveData p = true) (hnone : s.txIndex (payment.getTxID H) = none) :
    ∃ s', (forkSetup H n id).disconnectTip s (fun _ ↦ true) = some s' ∧ s'.active = active ∧
      s'.haveData = s.haveData ∧ s'.txIndex (payment.getTxID H) = none := by
  rw [disconnectTip, hactive]
  simp only [hdata, if_true]
  exact ⟨_, rfl, rfl, rfl, eraseTxIndex_eq_none (forkSetup H n id) (.inr hnone)⟩

/-- After the purge and two steps back the node no longer knows the payment. -/
theorem Grown.forgets (hn : n < 2 ^ 30) (hpos : n ≠ 0) (h : Grown (n + 2) s) :
    ∃ s', (forkSetup H n id).run s
        [.purge fun _ ↦ true, .disconnect fun _ ↦ true, .disconnect fun _ ↦ true] = some s' ∧
      s'.active = (List.range (n + 1)).reverse ∧ s'.txIndex (payment.getTxID H) = none := by
  have hpurge : ∃ s₁, (forkSetup H n id).purgeDB s (fun _ ↦ true) = s₁ ∧ s₁.active = s.active ∧
      (∀ p, p ≠ 1 → s₁.haveData p = s.haveData p) ∧ s₁.txIndex (payment.getTxID H) = none := by
    rw [purgeDB, history_forkSetup hn, h.height_eq, if_neg (by omega)]
    refine ⟨_, rfl, rfl, fun p hp ↦ ?_, ?_⟩
    · have hkept : p ∉ (forkSetup H n id).setDelete s := (h.mem_setDelete_iff hn).not.mpr hp
      simp [hkept]
    · refine eraseTxIndex_eq_none (forkSetup H n id)
        (.inl (List.mem_flatMap.mpr ⟨1, ?_, (payment_mem_vtx one_ne_zero).mpr (.inl rfl)⟩))
      exact List.mem_filter.mpr ⟨(h.mem_setDelete_iff hn).mpr rfl, rfl⟩
  obtain ⟨s₁, hs₁, hactive₁, hdata₁, hnone₁⟩ := hpurge
  rw [h.active, List.range_succ, List.reverse_append, List.range_succ, List.reverse_append]
    at hactive₁
  obtain ⟨s₂, hs₂, hactive₂, hdata₂, hnone₂⟩ := disconnect_eq (n := n) (p := n + 2) hactive₁
    (by rw [hdata₁ (n + 2) (by omega), h.haveData]; omega) hnone₁
  obtain ⟨s₃, hs₃, hactive₃, -, hnone₃⟩ := disconnect_eq (n := n) (p := n + 1) hactive₂
    (by rw [hdata₂, hdata₁ (n + 1) (by omega), h.haveData]; omega) hnone₂
  refine ⟨s₃, ?_, hactive₃, hnone₃⟩
  simp only [run, step, hs₁, hs₂, hs₃, Option.bind_some]

/-- The payment is in the chain twice at the end of the run. -/
theorem replayed (hn : n < 2 ^ 30) (hpos : n ≠ 0) (hapart : Apart H n) :
    ∃ s, (forkSetup H n id).run (.initial 0) (steps n) = some s ∧
      ¬NoReplay (forkSetup H n id) s := by
  obtain ⟨s₁, hrun₁, hgrown⟩ := grown_grow hn hapart (k := n + 2) le_rfl
  obtain ⟨s₂, hrun₂, hactive, hnone⟩ := hgrown.forgets (H := H) hn hpos
  have hheight : height n (n + 3) = n + 1 := if_pos rfl
  have hhead : s₂.active.head? = some (height n (n + 3) - 1) := by
    rw [hactive, hheight, List.range_succ, List.reverse_append]
    rfl
  refine ⟨extended (forkSetup H n id) s₂ (n + 3) 1, ?_, fun hpairs ↦ ?_⟩
  · rw [steps, run_append, run_append, hrun₁, Option.bind_some, hrun₂]
    exact run_extend hn hapart (by omega) le_rfl rfl hhead (fun _ ↦ hnone) 1
  · have hone : 1 ∈ s₂.active := by
      rw [hactive, List.mem_reverse, List.mem_range]
      omega
    have hboth := (List.pairwise_cons.mp hpairs).1 1 hone payment
      ((payment_mem_vtx (by omega)).mpr (.inr rfl)) payment
      ((payment_mem_vtx one_ne_zero).mpr (.inl rfl)) rfl
    exact Bool.noConfusion hboth.1

def shortSetup : ChainSetup := forkSetup Sha256.sha256d 10000 fun p ↦ min p 1

theorem nodup_txids : (([{ coinbase 0 with vin := [] }, coinbase 1, payment, coinbase 10001].map
    Transaction.signatureBytes).map Sha256.sha256d).Nodup := by
  decide +kernel

theorem apart_sha256d : Apart Sha256.sha256d 10000 := by
  have hnodup := nodup_txids
  simp only [List.map_cons, List.nodup_cons, List.mem_cons, not_or] at hnodup
  rintro h (rfl | rfl)
  · exact hnodup.2.1.1
  · exact Ne.symm hnodup.2.2.1.1

theorem mem_shortSetup {p : ℕ} (htx : tx ∈ shortSetup.vtx p) :
    tx ∈ [{ coinbase 0 with vin := [] }, coinbase 1, payment] := by
  rcases p with _ | p
  · exact List.mem_singleton.mp htx ▸ List.mem_cons_self
  · have hmin : min (p + 1) 1 = 1 := by omega
    rw [ChainSetup.vtx, shortSetup, forkSetup] at htx
    simp only [hmin] at htx
    exact List.mem_cons_of_mem _ htx

theorem sound_shortSetup : shortSetup.Sound where
  decoded p tx htx := by
    have hwire : ∀ tx ∈ [{ coinbase 0 with vin := [] }, coinbase 1, payment],
        Except.map Transaction.unserialize tx.serialize = .ok (some (tx, [])) := by decide
    have hread := hwire tx (mem_shortSetup htx)
    rcases hbytes : tx.serialize with _ | bytes <;> rw [hbytes] at hread
    · simp [Except.map] at hread
    · exact ⟨bytes, [], Except.ok.inj hread⟩
  injOn := by
    refine Set.InjOn.mono ?_ (List.inj_on_of_nodup_map nodup_txids)
    rintro m ⟨p, tx, htx, rfl⟩
    exact List.mem_map_of_mem (List.mem_append_left [coinbase 10001] (mem_shortSetup htx))
  genesis p := by
    rcases p with _ | p
    · exact iff_of_true rfl rfl
    · have hmin : min (p + 1) 1 = 1 := by omega
      simp only [shortSetup, forkSetup, hmin]
      decide
  noParent p hp := by
    rcases p with _ | p
    · rfl
    · have hmin : min (p + 1) 1 = 1 := by omega
      simp only [shortSetup, forkSetup, hmin] at hp
      exact absurd hp (by decide)
  noInputs p hp tx htx := by
    rcases p with _ | p
    · rw [List.mem_singleton.mp htx]
    · have hmin : min (p + 1) 1 = 1 := by omega
      simp only [shortSetup, forkSetup, hmin] at hp
      exact absurd hp (by decide)
  height p := by
    rcases p with _ | p
    · decide
    · have hmin : min (p + 1) 1 = 1 := by omega
      simp only [shortSetup, forkSetup, hmin]
      decide
  history := ⟨false, rfl⟩

end Replay

/-! ## The guarantee -/

/-- **Replay protection.** A node that keeps a transaction index starts from the genesis block and
accepts, connects and disconnects blocks and purges its history in any order. If it connects no
block below a height at which it has purged, no transaction other than a coinbase is ever in two
blocks of the active chain. -/
theorem replay_protected {setup : ChainSetup} (hsetup : setup.Sound)
    (hon : setup.fTxIndex = true) {genesis : ℕ} (hgenesis : (setup.index genesis).nHeight = 0)
    {steps : List ChainStep} {s : ChainState}
    (hrun : setup.run (ChainState.initial genesis) steps = some s)
    (hsheltered : Sheltered setup 0 (ChainState.initial genesis) steps) : NoReplay setup s :=
  (guarded_initial hsetup hgenesis).run hsetup hon hsheltered hrun

/-- The payment is made in the first block. -/
theorem replay_protected_short : ∃ s, Replay.shortSetup.run (.initial 0)
      [.accept 1 0, .connect Replay.verdicts 1] = some s ∧
      s.active = [1, 0] ∧ NoReplay Replay.shortSetup s := by
  have hrun : Replay.shortSetup.run (.initial 0) [.accept 1 0, .connect Replay.verdicts 1]
      = some (Replay.extended Replay.shortSetup (.initial 0) 1 0) :=
    Replay.run_extend (by norm_num) Replay.apart_sha256d one_ne_zero (by norm_num) rfl rfl
      (fun _ ↦ rfl) 0
  exact ⟨_, hrun, rfl, replay_protected Replay.sound_shortSetup rfl rfl hrun
    (by simp [Sheltered, ChainStep.mark])⟩

/-- The payment of the first block is in the chain a second time, at height 10001. -/
theorem replayed_after_purge :
    (Replay.forkSetup Sha256.sha256d 10000 id).MIN_HISTORY = minHistory false ∧
      (Replay.forkSetup Sha256.sha256d 10000 id).fTxIndex = true ∧
      ∃ s, (Replay.forkSetup Sha256.sha256d 10000 id).run (.initial 0) (Replay.steps 10000)
          = some s ∧ ¬NoReplay (Replay.forkSetup Sha256.sha256d 10000 id) s := by
  exact ⟨rfl, rfl, Replay.replayed (by norm_num) (by norm_num) Replay.apart_sha256d⟩

end Cryptonite
