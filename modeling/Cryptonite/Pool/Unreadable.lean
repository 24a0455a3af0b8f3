import Cryptonite.Core.Merkle
import Cryptonite.Pool.Balances

/-!
# Balances over unreadable blocks

`TrieView::ComplexBalances` of `trieview.cpp` takes off the balance what the last blocks have paid
to an account. If one of these blocks cannot be read, it is to be skipped, which is meant to be "the
safe direction". The loop that reads the blocks does not go on to the parent in that case, though:
it tries the same block again until it has used up its rounds. All blocks behind the first one that
cannot be read are left out, and what they have paid is not taken off.

`balances_le_iff` compares the answers with and without the unreadable blocks. Besides the deposits
that are left out there is one more difference: behind the genesis block the loop lowers the two
depths, and it never gets there if it is stuck.
-/

namespace Cryptonite

namespace TipView

/-! ## Two ways to read the chain -/

/-- The view of a chain with the given blocks, of which some cannot be read. -/
def reading (tip : TipView) (content : ℕ → Block) (lost : ℕ → Bool) : TipView :=
  { tip with readBlock := fun p ↦ if lost p then none else some (content p) }

/-- The blocks the loop comes to in a number of rounds, if it is not stuck. -/
def back (tip : TipView) : ℕ → Option ℕ → List ℕ
  | 0, _ => []
  | _ + 1, none => []
  | n + 1, some p => p :: back tip n (tip.pprev p)

variable {tip : TipView} {pool : TxMemPool} {content : ℕ → Block} {lost : ℕ → Bool}
  {key : UInt160} {nMineConf nTheirsConf : ℤ}

theorem scan_none (runs : ℕ) : ∀ (m t : ℤ) (blocks : List Block),
    tip.scan runs none m t blocks = (blocks, m - runs, t - runs) := by
  induction runs with
  | zero => simp [scan]
  | succ runs ih =>
    intro m t blocks
    rw [scan, ih, Nat.cast_succ, sub_sub, sub_sub, add_comm (1 : ℤ)]

variable {p phead : ℕ} {node : LeafPtr}

theorem scan_stuck (hp : lost p = true) (runs : ℕ) (m t : ℤ) (blocks : List Block) :
    (tip.reading content lost).scan runs (some p) m t blocks = (blocks, m, t) := by
  have hread : (tip.reading content lost).readBlock p = none := if_pos hp
  induction runs with
  | zero => rfl
  | succ runs ih => rw [scan, hread, ih]

theorem scan_read (hp : lost p = false) (runs : ℕ) (m t : ℤ) (blocks : List Block) :
    (tip.reading content lost).scan (runs + 1) (some p) m t blocks =
      (tip.reading content lost).scan runs (tip.pprev p) m t (blocks ++ [content p]) := by
  have hread : (tip.reading content lost).readBlock p = some (content p) :=
    if_neg (by simp [hp])
  rw [scan, hread]
  rfl

theorem scan_of_readable (runs : ℕ) : ∀ {o : Option ℕ} (m t : ℤ) (blocks : List Block),
    (∀ p ∈ tip.back runs o, lost p = false) →
    (tip.reading content lost).scan runs o m t blocks =
      (blocks ++ (tip.back runs o).map content, m - (runs - (tip.back runs o).length : ℕ),
        t - (runs - (tip.back runs o).length : ℕ)) := by
  induction runs with
  | zero => simp [scan, back]
  | succ runs ih =>
    intro o m t blocks hread
    rcases o with _ | p
    · simp [scan_none, back]
    · rw [back, List.forall_mem_cons] at hread
      rw [scan_read hread.1, ih _ _ _ hread.2, back, List.map_cons, List.length_cons,
        Nat.add_sub_add_right, List.append_assoc, List.singleton_append]

/-- With something lost the loop reads the blocks in front of it, and keeps the depths. -/
theorem scan_of_lost (runs : ℕ) : ∀ {o : Option ℕ} (m t : ℤ) (blocks : List Block),
    (∃ p ∈ tip.back runs o, lost p = true) →
    (tip.reading content lost).scan runs o m t blocks =
      (blocks ++ ((tip.back runs o).takeWhile fun p ↦ !lost p).map content, m, t) := by
  induction runs with
  | zero => simp [back]
  | succ runs ih =>
    intro o m t blocks hlost
    rcases o with _ | p
    · simp [back] at hlost
    · rw [back] at hlost ⊢
      cases hp : lost p with
      | true => simp [scan_stuck hp, hp]
      | false =>
        obtain ⟨q, hq, hqlost⟩ := hlost
        have hmem : q ∈ tip.back runs (tip.pprev p) :=
          (List.mem_cons.mp hq).resolve_left fun h ↦ by simp [h, hp] at hqlost
        rw [scan_read hp, ih _ _ _ ⟨q, hmem, hqlost⟩, List.takeWhile_cons_of_pos (by simp [hp]),
          List.map_cons, List.append_assoc, List.singleton_append]

/-! ## Amounts -/

/-- The balance with what the pool credits, a `uint64_t`. -/
def funds (tip : TipView) (pool : TxMemPool) (nMineConf nTheirsConf : ℤ) (key : UInt160)
    (balance : UInt64) : UInt64 :=
  balance + UInt64.ofNat (tip.credited pool nMineConf nTheirsConf key)

/-- What is taken off the balance, a `uint64_t`. -/
def charges (tip : TipView) (pool : TxMemPool) (nMineConf : ℤ) (key : UInt160)
    (blocks : List Block) : UInt64 :=
  UInt64.ofNat (tip.deposited nMineConf key blocks) + UInt64.ofNat (tip.withdrawn pool key)

theorem balance_of_find {blocks : List Block} (hfind : TrieEngine.find key tip.root = some node) :
    (tip.accountInfo pool nMineConf nTheirsConf blocks key).balance =
      if tip.funds pool nMineConf nTheirsConf key node.data.balance
          < tip.charges pool nMineConf key blocks then 0
      else tip.funds pool nMineConf nTheirsConf key node.data.balance
        - tip.charges pool nMineConf key blocks := by
  obtain ⟨hlt, hzero⟩ | ⟨hle, hbalance, -⟩ :=
    @accountInfo_of_find tip pool key nMineConf nTheirsConf node hfind blocks
  · rw [hzero]
    exact (if_pos hlt).symm
  · rw [hbalance]
    exact (if_neg (UInt64.not_lt.mpr hle)).symm

/-! ## The comparison -/

/-- The blocks `ComplexBalances` looks back at. -/
def scanned (tip : TipView) (phead : ℕ) (nTheirsConf : ℤ) : List ℕ :=
  tip.back (nTheirsConf - 1).toNat (some phead)

/-- The blocks in front of the first one that is lost. -/
def reached (tip : TipView) (lost : ℕ → Bool) (phead : ℕ) (nTheirsConf : ℤ) : List ℕ :=
  (tip.scanned phead nTheirsConf).takeWhile fun p ↦ !lost p

/-- The rounds for which there is no block. -/
def rounds (tip : TipView) (phead : ℕ) (nTheirsConf : ℤ) : ℕ :=
  (nTheirsConf - 1).toNat - (tip.scanned phead nTheirsConf).length

/-- What is not read does not matter for an account with the given balance: nothing is lost, or
nothing would be left anyway, or no less is left of the balance if everything is read. -/
def Harmless (tip : TipView) (pool : TxMemPool) (content : ℕ → Block) (lost : ℕ → Bool)
    (nMineConf nTheirsConf : ℤ) (phead : ℕ) (key : UInt160) (balance : UInt64) : Prop :=
  (∀ p ∈ tip.scanned phead nTheirsConf, lost p = false) ∨
  let funds := tip.funds pool nMineConf nTheirsConf key balance
  let charges := tip.charges pool nMineConf key ((tip.reached lost phead nTheirsConf).map content)
  let allFunds := tip.funds pool (nMineConf - tip.rounds phead nTheirsConf)
    (nTheirsConf - tip.rounds phead nTheirsConf) key balance
  let allCharges := tip.charges pool (nMineConf - tip.rounds phead nTheirsConf) key
    ((tip.scanned phead nTheirsConf).map content)
  funds ≤ charges ∨ allCharges ≤ allFunds ∧ funds - charges ≤ allFunds - allCharges

theorem complexBalances_of_readable (hbest : tip.best = some phead)
    (hread : ∀ p ∈ tip.scanned phead nTheirsConf, lost p = false) (hashes : List UInt160) :
    ((tip.reading content lost).complexBalances pool nMineConf nTheirsConf hashes).2 =
      hashes.map (tip.accountInfo pool (nMineConf - tip.rounds phead nTheirsConf)
        (nTheirsConf - tip.rounds phead nTheirsConf)
        ((tip.scanned phead nTheirsConf).map content)) := by
  have hbest' : (tip.reading content lost).best = some phead := hbest
  rw [complexBalances, hbest']
  dsimp only
  rw [scan_of_readable _ _ _ _ hread]
  rfl

theorem complexBalances_of_lost (hbest : tip.best = some phead)
    (hlost : ∃ p ∈ tip.scanned phead nTheirsConf, lost p = true) (hashes : List UInt160) :
    ((tip.reading content lost).complexBalances pool nMineConf nTheirsConf hashes).2 =
      hashes.map (tip.accountInfo pool nMineConf nTheirsConf
        ((tip.reached lost phead nTheirsConf).map content)) := by
  have hbest' : (tip.reading content lost).best = some phead := hbest
  rw [complexBalances, hbest']
  dsimp only
  rw [scan_of_lost _ _ _ _ hlost]
  rfl

theorem accountInfo_le_iff (hfind : TrieEngine.find key tip.root = some node)
    (hlost : ¬∀ p ∈ tip.scanned phead nTheirsConf, lost p = false) :
    (tip.accountInfo pool nMineConf nTheirsConf
        ((tip.reached lost phead nTheirsConf).map content) key).balance ≤
      (tip.accountInfo pool (nMineConf - tip.rounds phead nTheirsConf)
        (nTheirsConf - tip.rounds phead nTheirsConf)
        ((tip.scanned phead nTheirsConf).map content) key).balance ↔
    tip.Harmless pool content lost nMineConf nTheirsConf phead key node.data.balance := by
  have hcut : ∀ F C F' C' : UInt64,
      ((if F < C then 0 else F - C) ≤ if F' < C' then 0 else F' - C') ↔
        F ≤ C ∨ C' ≤ F' ∧ F - C ≤ F' - C' := by
    intro F C F' C'
    split_ifs with h h' h'
    · exact iff_of_true (UInt64.le_refl _) (.inl (UInt64.le_of_lt h))
    · exact iff_of_true UInt64.zero_le (.inl (UInt64.le_of_lt h))
    · have hle := UInt64.not_lt.mp h
      rw [or_iff_left fun hboth ↦ UInt64.not_lt.mpr hboth.1 h', UInt64.le_iff_toNat_le,
        UInt64.le_iff_toNat_le, UInt64.toNat_sub_of_le _ _ hle]
      exact Nat.sub_le_iff_le_add'.trans (by rw [UInt64.toNat_zero, Nat.add_zero])
    · have hle := UInt64.not_lt.mp h
      refine ⟨fun hsub ↦ .inr ⟨UInt64.not_lt.mp h', hsub⟩, ?_⟩
      rintro (hge | hboth)
      · rw [UInt64.le_antisymm hge hle, UInt64.sub_self]
        exact UInt64.zero_le
      · exact hboth.2
  rw [balance_of_find hfind, balance_of_find hfind, Harmless, or_iff_right hlost]
  exact hcut _ _ _ _

/-- Where no sum wraps: nothing would be left anyway, or the deposits that are overlooked are no
more than what the pool adds because the depths have been lowered. -/
theorem harmless_iff {balance : UInt64}
    (hfunds : ∀ m t, balance.toNat + tip.credited pool m t key < 2 ^ 64)
    (hcharges : ∀ m, ∀ ps ∈ [tip.reached lost phead nTheirsConf, tip.scanned phead nTheirsConf],
      tip.deposited m key (ps.map content) + tip.withdrawn pool key < 2 ^ 64) :
    tip.Harmless pool content lost nMineConf nTheirsConf phead key balance ↔
      (∀ p ∈ tip.scanned phead nTheirsConf, lost p = false) ∨
      balance.toNat + tip.credited pool nMineConf nTheirsConf key ≤
        tip.deposited nMineConf key ((tip.reached lost phead nTheirsConf).map content) +
          tip.withdrawn pool key ∨
      tip.deposited (nMineConf - tip.rounds phead nTheirsConf) key
          ((tip.scanned phead nTheirsConf).map content) +
        tip.credited pool nMineConf nTheirsConf key ≤
      tip.deposited nMineConf key ((tip.reached lost phead nTheirsConf).map content) +
        tip.credited pool (nMineConf - tip.rounds phead nTheirsConf)
          (nTheirsConf - tip.rounds phead nTheirsConf) key := by
  have hfund (m t : ℤ) : (tip.funds pool m t key balance).toNat
      = balance.toNat + tip.credited pool m t key := by
    rw [funds, UInt64.toNat_add, UInt64.toNat_ofNat', Nat.add_mod_mod,
      Nat.mod_eq_of_lt (hfunds m t)]
  have hcharge (m : ℤ) {ps : List ℕ}
      (hps : ps ∈ [tip.reached lost phead nTheirsConf, tip.scanned phead nTheirsConf]) :
      (tip.charges pool m key (ps.map content)).toNat
        = tip.deposited m key (ps.map content) + tip.withdrawn pool key := by
    rw [charges, ← UInt64.ofNat_add, UInt64.toNat_ofNat_of_lt' (hcharges m ps hps)]
  have hexact : ∀ F C F' C' : UInt64, F ≤ C ∨ C' ≤ F' ∧ F - C ≤ F' - C' ↔
      F.toNat ≤ C.toNat ∨ F.toNat + C'.toNat ≤ F'.toNat + C.toNat := by
    intro F C F' C'
    rw [UInt64.le_iff_toNat_le, UInt64.le_iff_toNat_le, UInt64.le_iff_toNat_le]
    rcases Nat.le_total F.toNat C.toNat with hle | hle
    · exact iff_of_true (.inl hle) (.inl hle)
    · rw [UInt64.toNat_sub_of_le _ _ (UInt64.le_iff_toNat_le.mpr hle)]
      refine or_congr_right ⟨fun ⟨hfit, h⟩ ↦ ?_, fun h ↦ ?_⟩
      · rw [UInt64.toNat_sub_of_le _ _ (UInt64.le_iff_toNat_le.mpr hfit)] at h
        omega
      · have hfit : C'.toNat ≤ F'.toNat := by omega
        rw [UInt64.toNat_sub_of_le _ _ (UInt64.le_iff_toNat_le.mpr hfit)]
        omega
  refine or_congr_right ((hexact _ _ _ _).trans ?_)
  rw [hfund, hfund, hcharge _ List.mem_cons_self, hcharge _ (by simp)]
  omega

/-- **Conservative balances.** Unreadable blocks do not make the balance larger that
`ComplexBalances` reports for an account, iff what is not read does not matter. -/
theorem balances_le_iff {hashes : List UInt160} :
    List.Forall₂ (fun info info' ↦ info.balance ≤ info'.balance)
      ((tip.reading content lost).complexBalances pool nMineConf nTheirsConf hashes).2
      ((tip.reading content fun _ ↦ false).complexBalances pool nMineConf nTheirsConf hashes).2 ↔
    ∀ phead, tip.best = some phead → ∀ key ∈ hashes, ∀ node,
      TrieEngine.find key tip.root = some node →
      tip.Harmless pool content lost nMineConf nTheirsConf phead key node.data.balance := by
  rcases hbest : tip.best with _ | phead
  · have hnone : ∀ lost, (tip.reading content lost).best = none := fun _ ↦ hbest
    refine iff_of_true ?_ fun _ h ↦ absurd h (by simp)
    rw [complexBalances, complexBalances, hnone, hnone]
    exact List.forall₂_same.mpr fun _ _ ↦ UInt64.le_refl _
  · rw [complexBalances_of_readable hbest (fun _ _ ↦ rfl)]
    simp only [Option.some.injEq, forall_eq']
    by_cases hread : ∀ p ∈ tip.scanned phead nTheirsConf, lost p = false
    · rw [complexBalances_of_readable hbest hread]
      exact iff_of_true (List.forall₂_same.mpr fun _ _ ↦ UInt64.le_refl _) fun _ _ _ _ ↦ .inl hread
    · have hlost : ∃ p ∈ tip.scanned phead nTheirsConf, lost p = true := by
        push Not at hread
        simpa using hread
      rw [complexBalances_of_lost hbest hlost, List.forall₂_map_left_iff,
        List.forall₂_map_right_iff, List.forall₂_same]
      refine forall₂_congr fun key hkey ↦ ?_
      rcases hfind : TrieEngine.find key tip.root with _ | node
      · have hzero : ∀ m t blocks, tip.accountInfo pool m t blocks key = .zero := by
          intro m t blocks
          rw [accountInfo, hfind]
        rw [hzero, hzero]
        exact iff_of_true (UInt64.le_refl _) fun _ h ↦ absurd h (by simp)
      · rw [accountInfo_le_iff hfind hread]
        simp

/-! ## Instances -/

/-- A node at height two, where the account `5` has a hundred units. -/
def twoBlockTip : TipView where
  root := some (Leaf.new 5 ⟨0, 100, 100, 100⟩).toNode
  best := some 2
  pprev p := if p = 0 then none else some (p - 1)
  readBlock _ := none
  height := 2
  MIN_HISTORY := 1000
  isFromMe _ := false

/-- The blocks of its chain: the last but one has paid fifty units to the account. -/
def paidBefore (p : ℕ) : Block := if p = 1 then mintBlock 1 50 5 else mintBlock (UInt64.ofNat p) 1 7

/-- If only the last block is looked back at, it does not matter whether it can be read. -/
theorem balances_le_iff_last : List.Forall₂ (fun info info' ↦ info.balance ≤ info'.balance)
    ((twoBlockTip.reading paidBefore fun p ↦ p == 2).complexBalances .empty 1 2 [5]).2
    ((twoBlockTip.reading paidBefore fun _ ↦ false).complexBalances .empty 1 2 [5]).2 := by
  refine balances_le_iff.mpr fun phead hbest key hkey node hfind ↦ .inr (.inr ?_)
  cases hbest
  obtain rfl := List.mem_singleton.mp hkey
  rw [← Option.some.inj hfind]
  decide +kernel

/-- If the last two are looked back at, and the last one cannot be read, the deposit is
overlooked. -/
theorem deposit_overlooked :
    ((twoBlockTip.reading paidBefore fun _ ↦ false).complexBalances .empty 1 3 [5]).2.map
        ActInfo.balance = [50] ∧
      ((twoBlockTip.reading paidBefore fun p ↦ p == 2).complexBalances .empty 1 3 [5]).2.map
        ActInfo.balance = [100] := by
  decide +kernel

end TipView

end Cryptonite
