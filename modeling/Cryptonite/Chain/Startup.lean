import Cryptonite.Chain.BestHeader
import Cryptonite.Chain.TxIndex

/-!
# Accelerated startup

`LoadBlockIndexDB` does not connect the blocks again that were connected before: if the header chain
is long enough, the tip of the active chain is moved to the block 144 below the header tip. The
blocks behind it are taken for connected, back to `MIN_HISTORY` below the header tip. They are not
looked at: the loop that should do so goes back with `pmove`, and asks for the status of `pindex`,
which is the block the tip is to be moved to, in each of its rounds.
-/

namespace Cryptonite

open Function HeaderTree

/-! ## The model -/

def BLOCK_VALID_TRANSACTIONS : UInt32 := 3

/-- What `LoadBlockIndexDB` reads and writes to move the tip. -/
structure LoadState (tree : HeaderTree) extends HeaderState tree where
  fConnected : ℕ → Bool

namespace LoadState

variable {tree : HeaderTree}

/-- `(nStatus & BLOCK_VALID_MASK) < BLOCK_VALID_TRANSACTIONS || (nStatus & BLOCK_FAILED_MASK)` is
not the case. -/
def sound (s : LoadState tree) (p : ℕ) : Bool :=
  !(decide (s.nStatus p &&& BLOCK_VALID_MASK < BLOCK_VALID_TRANSACTIONS) || s.failed p)

/-- The loop that decides `canMove`, for `n` rounds. -/
def canMove (s : LoadState tree) (pindex : ℕ) : ℕ → Option ℕ → Exec Bool
  | 0, _ => .ok true
  | n + 1, pmove =>
    -- it is not `pmove` that is tested
    if s.sound pindex then
      match pmove with
      | none => .error .nullDeref
      | some p => s.canMove pindex n (tree.pprev p)
    else .ok false

/-- The loop that takes the blocks for connected, for `n` rounds. -/
def connect : ℕ → Option ℕ → LoadState tree → Exec (LoadState tree)
  | 0, _, s => .ok s
  | _ + 1, none, _ => .error .nullDeref
  | n + 1, some p, s =>
    connect n (tree.pprev p) { s with fConnected := update s.fConnected p true }

/-- The accelerated startup of `LoadBlockIndexDB`: `canMove`, if it comes to that, and what is left
behind. -/
def accelerate (testnet : Bool) (s : LoadState tree) : Exec (Option Bool × LoadState tree) :=
  -- the height is one less than the size
  if (minHistory testnet).toNat + 1 < s.chainHeaders.vChain.length then
    match s.chainHeaders.get (s.chainHeaders.vChain.length - 1 - 144) with
    | none => .error .nullDeref
    | some pindex => do
      let rounds := (minHistory testnet).toNat - 144
      if ← s.canMove pindex rounds (some pindex) then
        let s ← connect rounds (some pindex) s
        .ok (some true, { s with chainActive := (tree.setTip s.chainActive (some pindex)).1 })
      else .ok (some false, s)
  else .ok (none, s)

/-! ## What is decided -/

variable {s : LoadState tree} {pindex p : ℕ}

theorem canMove_eq {n : ℕ} (hn : n + 1 ≤ tree.nHeight p + 1) :
    s.canMove pindex (n + 1) (some p) = .ok (s.sound pindex) := by
  rcases hsound : s.sound pindex with _ | _
  · rw [canMove, hsound]
    rfl
  · induction n generalizing p with
    | zero =>
      rw [canMove, hsound, if_pos rfl]
      rfl
    | succ n ih =>
      rw [canMove, hsound, if_pos rfl]
      rcases hp : tree.pprev p with _ | q
      · exact absurd (tree.height_root hp) (by omega)
      · exact ih (by have := tree.height_step hp; omega)

theorem connect_eq {n : ℕ} (hn : n ≤ tree.nHeight p + 1) : connect n (some p) s = .ok { s with
      fConnected := fun q ↦ s.fConnected q || decide (q ∈ (tree.ancestry p).take n) } := by
  induction n generalizing p s with
  | zero => simp [connect]
  | succ n ih =>
    have hupdate : update s.fConnected p true = fun q ↦ s.fConnected q || decide (q = p) := by
      funext q
      by_cases hq : q = p
      · subst hq
        simp
      · rw [update_of_ne hq, decide_eq_false hq, Bool.or_false]
    rw [connect]
    rcases hp : tree.pprev p with _ | q
    · have hroot := tree.height_root hp
      obtain rfl : n = 0 := by omega
      rw [connect, ancestry_root hp]
      simp only [hupdate, zero_add, List.take_succ_cons, List.take_zero, List.mem_singleton]
    · have hstep := tree.height_step hp
      rw [ih (by omega), ancestry_step hp]
      simp only [hupdate, List.take_succ_cons, List.mem_cons, Bool.decide_or, Bool.or_assoc]

/-- The blocks that are taken for connected: `MIN_HISTORY - 144` of them, from `pindex`
backwards. -/
def window (tree : HeaderTree) (testnet : Bool) (pindex : ℕ) : List ℕ :=
  (tree.ancestry pindex).take ((minHistory testnet).toNat - 144)

theorem accelerate_eq {testnet : Bool} {tip : ℕ} {o : Option ℕ}
    (hheaders : s.chainHeaders = tree.chainTo (some tip)) (hactive : s.chainActive = tree.chainTo o)
    (hlong : (minHistory testnet).toNat < tree.nHeight tip) (hmem : pindex ∈ tree.ancestry tip)
    (hheight : tree.nHeight pindex = tree.nHeight tip - 144) :
    s.accelerate testnet = if s.sound pindex then
      .ok (some true, { s with
        chainActive := tree.chainTo (some pindex)
        fConnected := fun q ↦ s.fConnected q || decide (q ∈ window tree testnet pindex) })
      else .ok (some false, s) := by
  have hlength : s.chainHeaders.vChain.length = tree.nHeight tip + 1 := by
    rw [hheaders, length_chainTo]
  have hmin : 144 < (minHistory testnet).toNat := by
    cases testnet <;> decide
  obtain ⟨n, hn⟩ : ∃ n, (minHistory testnet).toNat - 144 = n + 1 :=
    ⟨(minHistory testnet).toNat - 145, by omega⟩
  have hget : s.chainHeaders.get (tree.nHeight tip - 144) = some pindex := by
    rw [hheaders]
    exact get_chainTo.mpr ⟨hmem, hheight⟩
  have hrounds : n + 1 ≤ tree.nHeight pindex + 1 := by omega
  rw [accelerate, hlength, if_pos (by omega), Nat.add_sub_cancel, hget, hn]
  simp only [canMove_eq hrounds, bind, Except.bind, connect_eq hrounds, hactive,
    setTip_chainTo, window, hn]

/-- **Accelerated startup.** For every header chain longer than `MIN_HISTORY`, `canMove` is decided
by the block 144 below the tip alone. So the tip is moved only if all blocks of the window are valid
so far and have not failed, if and only if they are as soon as that one block is. -/
theorem accelerate_safe_iff {testnet : Bool} {tip : ℕ} {o : Option ℕ}
    (hheaders : s.chainHeaders = tree.chainTo (some tip)) (hactive : s.chainActive = tree.chainTo o)
    (hlong : (minHistory testnet).toNat < tree.nHeight tip) :
    ∃ pindex s', pindex ∈ tree.ancestry tip ∧ tree.nHeight pindex = tree.nHeight tip - 144 ∧
      s.accelerate testnet = .ok (some (s.sound pindex), s') ∧
      s'.chainActive = (if s.sound pindex then tree.chainTo (some pindex) else s.chainActive) ∧
      (∀ q, s'.fConnected q =
        (s.fConnected q || s.sound pindex && decide (q ∈ window tree testnet pindex))) ∧
      ((∀ s'', s.accelerate testnet = .ok (some true, s'') →
          ∀ q ∈ window tree testnet pindex, s.sound q = true) ↔
        (s.sound pindex = true → ∀ q ∈ window tree testnet pindex, s.sound q = true)) := by
  obtain ⟨pindex, hget⟩ := exists_get_chainTo (Nat.sub_le (tree.nHeight tip) 144)
  obtain ⟨hmem, hheight⟩ := get_chainTo.mp hget
  have hrun := accelerate_eq hheaders hactive hlong hmem hheight
  rcases hsound : s.sound pindex with _ | _
  · rw [hsound, if_neg (by decide)] at hrun
    refine ⟨pindex, s, hmem, hheight, by rw [hrun, hsound], by rw [hsound]; rfl, ?_, ?_⟩
    · simp [hsound]
    · rw [hrun]
      simp [hsound]
  · rw [hsound, if_pos rfl] at hrun
    refine ⟨pindex, _, hmem, hheight, by rw [hrun, hsound], by rw [hsound]; rfl, ?_, ?_⟩
    · simp [hsound]
    · rw [hrun]
      simp [hsound]

def straight : HeaderTree where
  pprev p := if p = 0 then none else some (p - 1)
  nHeight p := p
  nChainWork p := BitVec.ofNat _ (p + 1)
  nSequenceId p := UInt32.ofNat p
  height_step {p q} h := by grind
  height_root {p} h := by grind

/-- 1002 headers, of which all have valid transactions, except that the blocks of a list have
failed. -/
def startedWith (bad : List ℕ) : LoadState straight where
  nStatus p := if p ∈ bad then BLOCK_VALID_TRANSACTIONS ||| BLOCK_FAILED_VALID
    else BLOCK_VALID_TRANSACTIONS
  setBlockIndexValid := ⟨[], .nil⟩
  chainHeaders := straight.chainTo (some 1001)
  chainActive := straight.chainTo (some 0)
  pindexBestInvalid := none
  fConnected _ := false

theorem accelerate_safe_straight :
    ∃ s', (startedWith []).accelerate true = .ok (some true, s') ∧
      s'.chainActive.tip = some 857 := by
  obtain ⟨pindex, s', -, hheight, hrun, hactive, -⟩ :=
    @accelerate_safe_iff straight (startedWith []) true 1001 (some 0) rfl rfl (by decide)
  obtain rfl : pindex = 857 := hheight
  exact ⟨s', hrun, by rw [hactive]; exact tip_chainTo _⟩

/-- The tip is moved over a failed block, which is taken for connected. -/
theorem moved_over_failed :
    ∃ s', (startedWith [800]).accelerate true = .ok (some true, s') ∧
      800 ∈ window straight true 857 ∧ (startedWith [800]).sound 800 = false ∧
      s'.fConnected 800 = true := by
  have hrun := @accelerate_eq straight (startedWith [800]) 857 true 1001 (some 0) rfl rfl
    (by decide) (by decide +kernel) rfl
  have hwindow : 800 ∈ window straight true 857 := by decide +kernel
  exact ⟨_, hrun, hwindow, by decide, by simp [hwindow]⟩

end LoadState

end Cryptonite
