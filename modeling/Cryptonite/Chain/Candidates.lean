import Cryptonite.Chain.Headers
import Cryptonite.View.Apply
import Mathlib.Data.Prod.Lex
import Mathlib.Order.OrderDual

/-!
# Candidates for the best header

`ActivateBestHeader` looks for the candidate with the most work among the headers in
`setBlockIndexValid`. A header is marked as failed when its block is invalid, or when it descends
from such a block; `InvalidBlockFound` marks the blocks that follow in the header chain, and the
descendants on other branches are left to the loop over the candidates. There the source walks from
a candidate to the header chain, and if it comes by a failed block it marks the candidate and goes
on with the next one.

That walk follows a test whether the candidate is an improvement, and the test is the wrong way
round: the loop ends without the walk when the candidate compares above the tip. So what is chosen
is the greatest candidate that either compares above the tip or has no failed block between itself
and the chain (`HeaderState.Chosen`).
-/

namespace Cryptonite

open HeaderTree

/-! ## The model -/

def BLOCK_VALID_TREE : UInt32 := 2

def BLOCK_FAILED_VALID : UInt32 := 32

def BLOCK_FAILED_CHILD : UInt32 := 64

def BLOCK_FAILED_MASK : UInt32 := 96

/-- `CBlockIndexWorkComparator`. -/
def HeaderTree.workComparator (tree : HeaderTree) (pa pb : ℕ) : Bool :=
  -- first by most total work
  if tree.nChainWork pa > tree.nChainWork pb then false
  else if tree.nChainWork pa < tree.nChainWork pb then true
  -- then by earliest time received
  else if tree.nSequenceId pa < tree.nSequenceId pb then false
  else if tree.nSequenceId pa > tree.nSequenceId pb then true
  -- then by address
  else if pa < pb then false
  else if pa > pb then true
  else false

/-- A `std::set` of entries ordered by `CBlockIndexWorkComparator`, in ascending order. -/
structure WorkSet (tree : HeaderTree) where
  elems : List ℕ
  sorted : elems.Pairwise fun pa pb ↦ tree.workComparator pa pb = true

/-- `erase(const key_type&)`: what is neither smaller nor greater goes. -/
def WorkSet.erase {tree : HeaderTree} (set : WorkSet tree) (p : ℕ) : WorkSet tree :=
  ⟨set.elems.filter fun q ↦ tree.workComparator p q || tree.workComparator q p,
    set.sorted.filter _⟩

/-- What the choice of the best header reads and writes. -/
structure HeaderState (tree : HeaderTree) where
  /-- `nStatus` of the entries. -/
  nStatus : ℕ → UInt32
  setBlockIndexValid : WorkSet tree
  chainHeaders : CChain
  chainActive : CChain
  pindexBestInvalid : Option ℕ

namespace HeaderState

variable {tree : HeaderTree}

/-- `nStatus & BLOCK_FAILED_MASK`. -/
def failed (s : HeaderState tree) (p : ℕ) : Bool := s.nStatus p &&& BLOCK_FAILED_MASK ≠ 0

/-- `(nStatus & BLOCK_VALID_MASK) >= BLOCK_VALID_TREE`. -/
def validTree (s : HeaderState tree) (p : ℕ) : Bool :=
  BLOCK_VALID_TREE ≤ s.nStatus p &&& BLOCK_VALID_MASK

/-- The first loop of `ActivateBestHeader`: failed tips are taken off. -/
def dropFailed : ℕ → HeaderState tree → HeaderState tree
  | 0, s => s
  | n + 1, s =>
    match s.chainHeaders.tip with
    | none => s
    | some p =>
      if s.failed p then
        dropFailed n { s with chainHeaders := (tree.setTip s.chainHeaders (tree.pprev p)).1 }
      else s

/-- `pindexBestInvalid` after an invalid entry has been found. -/
def noteInvalid (s : HeaderState tree) (p : ℕ) : HeaderState tree :=
  match s.pindexBestInvalid with
  | none => { s with pindexBestInvalid := some p }
  | some best =>
    if tree.nChainWork p > tree.nChainWork best then { s with pindexBestInvalid := some p } else s

/-- An entry is marked with a flag, and is no candidate any more. -/
def mark (flag : UInt32) (s : HeaderState tree) (p : ℕ) : HeaderState tree :=
  { s with nStatus := Function.update s.nStatus p (s.nStatus p ||| flag)
           setBlockIndexValid := s.setBlockIndexValid.erase p }

/-- An entry is marked as the child of a failed one. -/
def failChild (s : HeaderState tree) (p : ℕ) : HeaderState tree := s.mark BLOCK_FAILED_CHILD p

/-- `while (pindexTest != pindexFailed)`, for at most `n` rounds. -/
def failDown (pindexTest : ℕ) : ℕ → HeaderState tree → ℕ → HeaderState tree
  | 0, s, _ => s
  | n + 1, s, p =>
    if pindexTest = p then s
    else
      match tree.pprev p with
      | none => s.failChild p
      | some q => failDown pindexTest n (s.failChild p) q

end HeaderState

/-- How a round of the loop over the candidates ends. -/
inductive Round (tree : HeaderTree) where
  /-- There is no candidate, and the function returns. -/
  | noSet
  /-- The loop ends with a candidate. -/
  | best (p : ℕ)
  /-- The loop goes on. -/
  | again (s : HeaderState tree)

namespace HeaderState

variable {tree : HeaderTree}

/-- One round of the loop over the candidates. -/
def round (s : HeaderState tree) : Round tree :=
  match s.setBlockIndexValid.elems.getLast? with
  | none => .noSet
  | some pindexNewBest =>
    if s.failed pindexNewBest || !s.validTree pindexNewBest then
      .again { s with setBlockIndexValid := s.setBlockIndexValid.erase pindexNewBest }
    else if s.chainHeaders.tip.any fun tip ↦ tree.workComparator tip pindexNewBest then
      .best pindexNewBest
    else
      match tree.climb (fun p ↦ tree.contains s.chainHeaders p || s.failed p)
        (some pindexNewBest) with
      | none => .best pindexNewBest
      | some pindexTest =>
        if s.failed pindexTest then
          -- nothing is marked if the failed entry is in the chain
          if tree.contains s.chainHeaders pindexTest then .again s
          else .again ((s.noteInvalid pindexTest).failDown pindexTest (tree.nHeight pindexNewBest)
            pindexNewBest)
        else .best pindexNewBest

/-- The loop over the candidates, for at most `n` rounds: the candidate it ends with, if there is
one, and nothing if it is still running. -/
def select : ℕ → HeaderState tree → Option (Option ℕ × HeaderState tree)
  | 0, _ => none
  | n + 1, s =>
    match s.round with
    | .noSet => some (none, s)
    | .best p => some (some p, s)
    | .again s => select n s

/-- `DisconnectTip`, where `disconnects` says for which blocks the files can be read. `UpdateTip`
reads the new tip, so the genesis block cannot be disconnected. -/
def disconnectTip (disconnects : ℕ → Bool) (s : HeaderState tree) :
    Exec (Bool × HeaderState tree) :=
  match s.chainActive.tip with
  | none => .ok (false, s)
  | some p =>
    if disconnects p then
      match tree.pprev p with
      | none => .error .nullDeref
      | some q => .ok (true, { s with chainActive := (tree.setTip s.chainActive (some q)).1 })
    else .ok (false, s)

/-- `while (!chainHeaders.Contains(chainActive.Tip()))`, for at most `n` rounds. -/
def disconnectTips (disconnects : ℕ → Bool) : ℕ → HeaderState tree → Exec (Bool × HeaderState tree)
  | 0, _ => .error .nullDeref
  | n + 1, s =>
    match s.chainActive.tip with
    | none => .error .nullDeref
    | some p =>
      if tree.contains s.chainHeaders p then .ok (true, s)
      else do
        let (ok, s) ← s.disconnectTip disconnects
        if ok then disconnectTips disconnects n s else .ok (false, s)

/-- `chainHeaders.SetTip(chainHeaders.Tip()->pprev)`. -/
def popHeader (s : HeaderState tree) : Exec (HeaderState tree) :=
  match s.chainHeaders.tip with
  | none => .error .nullDeref
  | some p => .ok { s with chainHeaders := (tree.setTip s.chainHeaders (tree.pprev p)).1 }

/-- `while (chainHeaders.FindFork(pindexFork) != chainHeaders.Tip())`, for at most `n` rounds. -/
def rewind (disconnects : ℕ → Bool) (pindexFork : ℕ) :
    ℕ → HeaderState tree → Exec (Bool × HeaderState tree)
  | n, s =>
    if tree.findFork s.chainHeaders (some pindexFork) = s.chainHeaders.tip then .ok (true, s)
    else
      match n with
      | 0 => .error .nullDeref
      | n + 1 => do
        let (ok, s) ← s.disconnectTips disconnects (s.chainActive.vChain.length + 1)
        if ok then rewind disconnects pindexFork n (← s.popHeader) else .ok (false, s)

/-- `ActivateBestHeader`; nothing if the loop over the candidates runs for more than `fuel`
rounds. -/
def activateBestHeader (disconnects : ℕ → Bool) (fuel : ℕ) (s : HeaderState tree) :
    Option (Exec (Bool × HeaderState tree)) :=
  ((s.dropFailed s.chainHeaders.vChain.length).select fuel).map fun (best, s) ↦
    match best with
    | none => .ok (true, s)
    | some pindexFork => do
      let (ok, s) ← s.rewind disconnects pindexFork s.chainHeaders.vChain.length
      if ok then
        .ok (true, { s with chainHeaders := (tree.setTip s.chainHeaders (some pindexFork)).1 })
      else .ok (false, s)

/-- The loop of `InvalidBlockFound` over the blocks that follow in the chain, for at most `n`
rounds: the last of them. -/
def failNext : ℕ → HeaderState tree → ℕ → HeaderState tree × ℕ
  | 0, s, pindexWalk => (s, pindexWalk)
  | n + 1, s, pindexWalk =>
    match tree.next s.chainHeaders pindexWalk with
    | none => (s, pindexWalk)
    | some pindexNext => failNext n (s.failChild pindexNext) pindexNext

/-- `InvalidBlockFound`, up to the call of `ActivateBestHeader`. -/
def failValid (s : HeaderState tree) (pindex : ℕ) : HeaderState tree :=
  let s := s.mark BLOCK_FAILED_VALID pindex
  let (s, pindexWalk) := s.failNext s.chainHeaders.vChain.length pindex
  s.noteInvalid pindexWalk

def invalidBlockFound (disconnects : ℕ → Bool) (fuel : ℕ) (s : HeaderState tree) (pindex : ℕ) :
    Option (Exec (Bool × HeaderState tree)) :=
  (s.failValid pindex).activateBestHeader disconnects fuel

end HeaderState

/-! ## The order of the candidates -/

namespace HeaderTree

variable {tree : HeaderTree} {p q : ℕ}

/-- The place of an entry in the order of `CBlockIndexWorkComparator`. -/
def rank (tree : HeaderTree) (p : ℕ) : ℕ ×ₗ ℕᵒᵈ ×ₗ ℕᵒᵈ :=
  toLex ((tree.nChainWork p).toNat,
    toLex (OrderDual.toDual (tree.nSequenceId p).toNat, OrderDual.toDual p))

theorem rank_injective (tree : HeaderTree) : Function.Injective tree.rank := by
  intro p q h
  simp only [rank, EmbeddingLike.apply_eq_iff_eq, Prod.mk.injEq] at h
  exact h.2.2

theorem workComparator_iff : tree.workComparator p q = true ↔ tree.rank p < tree.rank q := by
  rw [workComparator, rank, rank, Prod.Lex.toLex_lt_toLex, Prod.Lex.toLex_lt_toLex]
  simp only [OrderDual.toDual_lt_toDual, EmbeddingLike.apply_eq_iff_eq, gt_iff_lt, BitVec.lt_def,
    UInt32.lt_iff_toNat_lt]
  split_ifs <;> simp <;> omega

theorem nChainWork_le (h : tree.rank p ≤ tree.rank q) :
    (tree.nChainWork p).toNat ≤ (tree.nChainWork q).toNat := by
  rw [rank, rank, Prod.Lex.toLex_le_toLex] at h
  rcases h with h | ⟨h, -⟩
  · exact h.le
  · exact h.le

end HeaderTree

namespace WorkSet

variable {tree : HeaderTree} {set : WorkSet tree} {p q : ℕ}

theorem mem_erase : q ∈ (set.erase p).elems ↔ q ∈ set.elems ∧ q ≠ p := by
  rw [erase, List.mem_filter, Bool.or_eq_true, workComparator_iff,
    workComparator_iff, ← ne_iff_lt_or_gt, tree.rank_injective.ne_iff, ne_comm]

theorem rank_le_last (hp : set.elems.getLast? = some p) (hq : q ∈ set.elems) :
    tree.rank q ≤ tree.rank p := by
  obtain ⟨l, hl⟩ := List.getLast?_eq_some_iff.mp hp
  rw [hl, List.mem_append, List.mem_singleton] at hq
  rcases hq with hq | rfl
  · have hsorted := set.sorted
    rw [hl, List.pairwise_append] at hsorted
    exact (workComparator_iff.mp (hsorted.2.2 q hq p (List.mem_singleton_self p))).le
  · exact le_rfl

end WorkSet

/-! ## Failed entries -/

namespace HeaderState

variable {tree : HeaderTree} {s s' s₀ : HeaderState tree} {p q t x : ℕ}

/-- Entries are marked as failed, and are no candidates any more. -/
structure Marks (s s' : HeaderState tree) (m : ℕ → Prop) : Prop where
  chainHeaders : s'.chainHeaders = s.chainHeaders
  chainActive : s'.chainActive = s.chainActive
  failed_iff : ∀ x, s'.failed x = true ↔ s.failed x = true ∨ m x
  validTree : ∀ x, s'.validTree x = s.validTree x
  mem_iff : ∀ x, x ∈ s'.setBlockIndexValid.elems ↔ x ∈ s.setBlockIndexValid.elems ∧ ¬m x

variable {m m' : ℕ → Prop} {s'' : HeaderState tree} {o : Option ℕ} {n tip : ℕ}
  {disconnects : ℕ → Bool} {ok : Bool}

theorem Marks.none (hheaders : s'.chainHeaders = s.chainHeaders)
    (hactive : s'.chainActive = s.chainActive) (hstatus : s'.nStatus = s.nStatus)
    (hset : s'.setBlockIndexValid = s.setBlockIndexValid) (hm : ∀ x, ¬m x) : s.Marks s' m where
  chainHeaders := hheaders
  chainActive := hactive
  failed_iff x := by rw [failed, hstatus, ← failed, or_iff_left (hm x)]
  validTree x := by rw [HeaderState.validTree, hstatus, ← HeaderState.validTree]
  mem_iff x := by rw [hset, and_iff_left (hm x)]

theorem marks_noteInvalid (s : HeaderState tree) (p : ℕ) :
    s.Marks (s.noteInvalid p) fun _ ↦ False := by
  rw [noteInvalid]
  split
  · exact .none rfl rfl rfl rfl fun _ ↦ id
  · split_ifs
    · exact .none rfl rfl rfl rfl fun _ ↦ id
    · exact .none rfl rfl rfl rfl fun _ ↦ id

theorem marks_mark {flag : UInt32} (hfailed : flag &&& BLOCK_FAILED_MASK ≠ 0)
    (hvalid : flag &&& BLOCK_VALID_MASK = 0) (s : HeaderState tree) (p : ℕ) :
    s.Marks (s.mark flag p) (· = p) := by
  refine ⟨rfl, rfl, fun x ↦ ?_, fun x ↦ ?_, fun x ↦ WorkSet.mem_erase⟩
  · by_cases hx : x = p
    · simp [failed, mark, hx, status_or_and, hfailed]
    · simp [failed, mark, hx]
  · by_cases hx : x = p
    · simp [validTree, mark, hx, status_or_and, hvalid]
    · simp [validTree, mark, hx]

theorem marks_failChild (s : HeaderState tree) (p : ℕ) : s.Marks (s.failChild p) (· = p) :=
  marks_mark (by decide) (by decide) s p

theorem Marks.trans (h : s.Marks s' m) (h' : s'.Marks s'' m') : s.Marks s'' fun x ↦ m x ∨ m' x where
  chainHeaders := h'.chainHeaders.trans h.chainHeaders
  chainActive := h'.chainActive.trans h.chainActive
  failed_iff x := by rw [h'.failed_iff, h.failed_iff, or_assoc]
  validTree x := (h'.validTree x).trans (h.validTree x)
  mem_iff x := by rw [h'.mem_iff, h.mem_iff, not_or, and_assoc]

theorem Marks.congr (h : s.Marks s' m) (hm : ∀ x, m x ↔ m' x) : s.Marks s' m' := by
  rwa [← funext fun x ↦ propext (hm x)]

/-- The loop marks the entries between the candidate and its failed ancestor. -/
theorem marks_failDown (ht : t ∈ tree.ancestry p) (s : HeaderState tree) :
    s.Marks (s.failDown t (tree.nHeight p) p)
      fun x ↦ x ∈ tree.ancestry p ∧ x ∉ tree.ancestry t := by
  induction p using parent_induction tree generalizing s with
  | root p hp =>
    rw [ancestry_root hp, List.mem_singleton] at ht
    subst ht
    rw [tree.height_root hp]
    exact .none rfl rfl rfl rfl fun _ ↦ and_not_self
  | step p q hp ih =>
    rw [tree.height_step hp, failDown]
    split_ifs with htp
    · subst htp
      exact .none rfl rfl rfl rfl fun _ ↦ and_not_self
    · rw [ancestry_step hp, List.mem_cons, or_iff_right htp] at ht
      rw [hp]
      refine ((marks_failChild s p).trans (ih ht _)).congr fun x ↦ ?_
      -- the candidate is above its parent, and so is not an ancestor of the failed entry
      have hpt : p ∉ tree.ancestry t := fun hmem ↦ by
        have := nHeight_le (ancestry_subset ht hmem)
        have := tree.height_step hp
        omega
      rw [ancestry_step hp, List.mem_cons, or_and_right]
      refine or_congr_left ⟨fun hx ↦ ⟨hx, hx ▸ hpt⟩, And.left⟩

/-! ## A round -/

/-- The candidate compares above the tip of the header chain. -/
def Outruns (s : HeaderState tree) (p : ℕ) : Prop :=
  ∃ tip, s.chainHeaders.tip = some tip ∧ tree.rank tip < tree.rank p

/-- There is a failed entry on the way from the candidate to the header chain. -/
def Tainted (s : HeaderState tree) (p : ℕ) : Prop :=
  ∃ x ∈ tree.ancestry p, tree.contains s.chainHeaders x = false ∧ s.failed x = true

/-- The candidate gets through the tests of a round. -/
structure Passes (s : HeaderState tree) (p : ℕ) : Prop where
  mem : p ∈ s.setBlockIndexValid.elems
  validTree : s.validTree p = true
  unfailed : s.failed p = false
  improves : s.Outruns p ∨ ¬s.Tainted p

/-- The round can end with the candidate: its ancestors are not looked at, or the block where its
branch leaves the chain has not failed. -/
def Leaves (s : HeaderState tree) (p : ℕ) : Prop :=
  s.Outruns p ∨ ∀ t, tree.findFork s.chainHeaders (some p) = some t → s.failed t = false

theorem any_tip_iff : (s.chainHeaders.tip.any fun tip ↦ tree.workComparator tip p) = true ↔
    s.Outruns p := by
  rw [Option.any_eq_true]
  simp only [workComparator_iff]
  rfl

/-- What a round does with the last candidate. -/
inductive Outcome (s : HeaderState tree) : Round tree → Prop
  | noSet (hnil : s.setBlockIndexValid.elems = []) : Outcome s .noSet
  | best {p : ℕ} (hlast : s.setBlockIndexValid.elems.getLast? = some p) (hpasses : s.Passes p)
      (hleaves : s.Leaves p) : Outcome s (.best p)
  /-- It has failed, or its header has not been checked. -/
  | dropped {p : ℕ} (hlast : s.setBlockIndexValid.elems.getLast? = some p)
      (hbad : s.failed p = true ∨ s.validTree p = false) :
      Outcome s (.again { s with setBlockIndexValid := s.setBlockIndexValid.erase p })
  /-- It has a failed ancestor outside of the chain. -/
  | tainted {p t : ℕ} {s' : HeaderState tree}
      (hlast : s.setBlockIndexValid.elems.getLast? = some p) (hp : s.failed p = false)
      (hslow : ¬s.Outruns p) (ht : t ∈ tree.ancestry p)
      (hout : tree.contains s.chainHeaders t = false) (hfailed : s.failed t = true)
      (hmarks : s.Marks s' fun x ↦ x ∈ tree.ancestry p ∧ x ∉ tree.ancestry t) :
      Outcome s (.again s')
  /-- The chain has failed where the candidate leaves it, and nothing changes. -/
  | stuck {p : ℕ} (hlast : s.setBlockIndexValid.elems.getLast? = some p) (hpasses : s.Passes p)
      (hstays : ¬s.Leaves p) : Outcome s (.again s)

/-- What the walk from a candidate to a block of the chain has passed is neither in the chain nor
failed. -/
theorem walk_spec (hchain : s.chainHeaders = tree.chainTo o)
    (hfind : (tree.ancestry p).find? (fun x ↦ tree.contains s.chainHeaders x || s.failed x)
      = some t)
    (hin : tree.contains s.chainHeaders t = true) :
    ¬s.Tainted p ∧ tree.findFork s.chainHeaders (some p) = some t := by
  refine ⟨?_, ?_⟩
  · rintro ⟨x, hx, hout, hfailed⟩
    -- a failed entry is not passed on the way, so it would be in the chain
    have hxt := mem_ancestry_of_find hfind hx (by simp [hfailed])
    rw [hchain, contains_chainTo] at hin
    have := contains_chainTo.mpr (blocks_subset hin hxt)
    rw [← hchain, hout] at this
    exact Bool.false_ne_true this
  · rw [findFork, climb_some]
    obtain ⟨-, before, after, hsplit, hbefore⟩ := List.find?_eq_some_iff_append.mp hfind
    refine List.find?_eq_some_iff_append.mpr ⟨hin, before, after, hsplit, fun x hx ↦ ?_⟩
    have := hbefore x hx
    simp only [Bool.not_or, Bool.and_eq_true] at this
    exact this.1

theorem round_outcome (hchain : s.chainHeaders = tree.chainTo o) : Outcome s s.round := by
  rw [round]
  rcases hlast : s.setBlockIndexValid.elems.getLast? with _ | p
  · exact .noSet (List.getLast?_eq_none_iff.mp hlast)
  have hmem : p ∈ s.setBlockIndexValid.elems := List.mem_of_getLast? hlast
  dsimp only
  split_ifs with hbad houtruns
  · refine .dropped hlast ?_
    rwa [Bool.or_eq_true, Bool.not_eq_true'] at hbad
  · rw [Bool.or_eq_true, not_or, Bool.not_eq_true, Bool.not_eq_true', Bool.not_eq_false] at hbad
    rw [any_tip_iff] at houtruns
    exact .best hlast ⟨hmem, hbad.2, hbad.1, .inl houtruns⟩ (.inl houtruns)
  · rw [Bool.or_eq_true, not_or, Bool.not_eq_true, Bool.not_eq_true', Bool.not_eq_false] at hbad
    rw [any_tip_iff] at houtruns
    rw [climb_some]
    rcases hfind : (tree.ancestry p).find?
      (fun x ↦ tree.contains s.chainHeaders x || s.failed x) with _ | t
    · rw [List.find?_eq_none] at hfind
      refine .best hlast ⟨hmem, hbad.2, hbad.1, .inr ?_⟩ (.inr fun t ht ↦ ?_)
      · rintro ⟨x, hx, hout, hfailed⟩
        exact absurd (hfind x hx) (by simp [hfailed])
      · rw [findFork, climb_some] at ht
        exact absurd (hfind t (List.mem_of_find?_eq_some ht)) (by simp [List.find?_some ht])
    · have ht := List.mem_of_find?_eq_some hfind
      dsimp only
      split_ifs with hfailed hin
      · obtain ⟨hclear, hfork⟩ := walk_spec hchain hfind hin
        refine .stuck hlast ⟨hmem, hbad.2, hbad.1, .inr hclear⟩ fun hleaves ↦ ?_
        simp [hleaves.resolve_left houtruns t hfork] at hfailed
      · rw [Bool.not_eq_true] at hin
        refine .tainted hlast hbad.1 houtruns ht hin hfailed ?_
        exact ((marks_noteInvalid s t).trans (marks_failDown ht _)).congr fun x ↦ or_iff_right id
      · have hin : tree.contains s.chainHeaders t = true := by
          have := List.find?_some hfind
          rwa [Bool.or_eq_true, or_iff_left hfailed] at this
        obtain ⟨hclear, hfork⟩ := walk_spec hchain hfind hin
        refine .best hlast ⟨hmem, hbad.2, hbad.1, .inr hclear⟩ (.inr fun t' ht' ↦ ?_)
        obtain rfl := Option.some.inj (hfork.symm.trans ht')
        simpa using hfailed

/-! ## The loop over the candidates -/

/-- What the loop has done so far: candidates that do not pass are gone, and entries with a failed
ancestor outside of the chain are marked. -/
structure Narrowed (s₀ s : HeaderState tree) : Prop where
  chainHeaders : s.chainHeaders = s₀.chainHeaders
  chainActive : s.chainActive = s₀.chainActive
  validTree : ∀ x, s.validTree x = s₀.validTree x
  mem_of_mem : ∀ x ∈ s.setBlockIndexValid.elems, x ∈ s₀.setBlockIndexValid.elems
  failed_of_failed : ∀ x, s₀.failed x = true → s.failed x = true
  failed_or_tainted : ∀ x, s.failed x = true → s₀.failed x = true ∨ s₀.Tainted x
  /-- What is marked is no candidate any more. -/
  failed_of_mem : ∀ x ∈ s.setBlockIndexValid.elems, s.failed x = true → s₀.failed x = true
  mem_of_passes : ∀ x, s₀.Passes x → x ∈ s.setBlockIndexValid.elems

theorem Narrowed.refl (s : HeaderState tree) : s.Narrowed s :=
  ⟨rfl, rfl, fun _ ↦ rfl, fun _ h ↦ h, fun _ h ↦ h, fun _ h ↦ .inl h, fun _ _ h ↦ h,
    fun _ h ↦ h.mem⟩

theorem Narrowed.outruns_iff (h : s₀.Narrowed s) : s.Outruns p ↔ s₀.Outruns p := by
  rw [Outruns, h.chainHeaders, Outruns]

theorem Tainted.of_ancestor (h : s.Tainted q) (hq : q ∈ tree.ancestry p) : s.Tainted p := by
  obtain ⟨x, hx, hout, hfailed⟩ := h
  exact ⟨x, ancestry_subset hq hx, hout, hfailed⟩

theorem Narrowed.dropped (h : s₀.Narrowed s) (hmem : p ∈ s.setBlockIndexValid.elems)
    (hbad : s.failed p = true ∨ s.validTree p = false) :
    s₀.Narrowed { s with setBlockIndexValid := s.setBlockIndexValid.erase p } where
  chainHeaders := h.chainHeaders
  chainActive := h.chainActive
  validTree := h.validTree
  mem_of_mem x hx := h.mem_of_mem x (WorkSet.mem_erase.mp hx).1
  failed_of_failed := h.failed_of_failed
  failed_or_tainted := h.failed_or_tainted
  failed_of_mem x hx := h.failed_of_mem x (WorkSet.mem_erase.mp hx).1
  mem_of_passes x hx := by
    refine WorkSet.mem_erase.mpr ⟨h.mem_of_passes x hx, ?_⟩
    rintro rfl
    rcases hbad with hfailed | hinvalid
    · exact absurd (h.failed_of_mem x hmem hfailed) (by simp [hx.unfailed])
    · exact absurd (hx.validTree.symm.trans ((h.validTree x).symm.trans hinvalid)) (by simp)

/-- A candidate with a failed ancestor is marked and dropped, and with it what is in between. -/
theorem Narrowed.tainted (h : s₀.Narrowed s)
    (hlast : s.setBlockIndexValid.elems.getLast? = some p) (hslow : ¬s.Outruns p)
    (ht : t ∈ tree.ancestry p) (hout : tree.contains s.chainHeaders t = false)
    (hfailed : s.failed t = true)
    (hmarks : s.Marks s' fun x ↦ x ∈ tree.ancestry p ∧ x ∉ tree.ancestry t) : s₀.Narrowed s' := by
  have htaint : s₀.Tainted t := by
    rcases h.failed_or_tainted t hfailed with ht₀ | ht₀
    · exact ⟨t, self_mem_ancestry tree t, h.chainHeaders ▸ hout, ht₀⟩
    · exact ht₀
  have hbetween : ∀ x, x ∈ tree.ancestry p ∧ x ∉ tree.ancestry t → s₀.Tainted x := by
    rintro x ⟨hx, hxt⟩
    exact htaint.of_ancestor ((mem_ancestry_or hx ht).resolve_left hxt)
  refine ⟨hmarks.chainHeaders.trans h.chainHeaders, hmarks.chainActive.trans h.chainActive,
    fun x ↦ (hmarks.validTree x).trans (h.validTree x),
    fun x hx ↦ h.mem_of_mem x ((hmarks.mem_iff x).mp hx).1,
    fun x hx ↦ (hmarks.failed_iff x).mpr (.inl (h.failed_of_failed x hx)), fun x hx ↦ ?_,
    fun x hx hxfailed ↦ ?_, fun x hx ↦ ?_⟩
  · rcases (hmarks.failed_iff x).mp hx with hx | hx
    · exact h.failed_or_tainted x hx
    · exact .inr (hbetween x hx)
  · obtain ⟨hxs, hxm⟩ := (hmarks.mem_iff x).mp hx
    exact h.failed_of_mem x hxs (((hmarks.failed_iff x).mp hxfailed).resolve_right hxm)
  · refine (hmarks.mem_iff x).mpr ⟨h.mem_of_passes x hx, fun hxm ↦ ?_⟩
    -- it would have to outrun the tip, but it is not above the last candidate, which does not
    obtain ⟨tip, htip, hlt⟩ := hx.improves.resolve_right (not_not.mpr (hbetween x hxm))
    refine hslow (h.outruns_iff.mpr ⟨tip, htip, hlt.trans_le ?_⟩)
    exact WorkSet.rank_le_last hlast (h.mem_of_passes x hx)

theorem Narrowed.round (h : s₀.Narrowed s)
    (hchain : s₀.chainHeaders = tree.chainTo o) (hround : s.round = .again s') :
    s₀.Narrowed s' := by
  have houtcome := round_outcome (h.chainHeaders.trans hchain)
  rw [hround] at houtcome
  cases houtcome with
  | dropped hlast hbad => exact h.dropped (List.mem_of_getLast? hlast) hbad
  | tainted hlast _ hslow ht hout hfailed hmarks =>
    exact h.tainted hlast hslow ht hout hfailed hmarks
  | stuck _ _ _ => exact h

theorem Narrowed.passes (h : s₀.Narrowed s) (hp : s.Passes p) : s₀.Passes p where
  mem := h.mem_of_mem p hp.mem
  validTree := (h.validTree p).symm.trans hp.validTree
  unfailed := by
    have := mt (h.failed_of_failed p) (by simp [hp.unfailed])
    simpa using this
  improves := by
    refine hp.improves.imp h.outruns_iff.mp fun hclear htaint ↦ hclear ?_
    obtain ⟨x, hx, hout, hfailed⟩ := htaint
    exact ⟨x, hx, h.chainHeaders ▸ hout, h.failed_of_failed x hfailed⟩

/-- Blocks of the chain are not marked, so where a branch leaves it does not change. -/
theorem Narrowed.leaves_iff (hchain : s₀.chainHeaders = tree.chainTo o) (h : s₀.Narrowed s) :
    s.Leaves p ↔ s₀.Leaves p := by
  rw [Leaves, Leaves, h.outruns_iff, h.chainHeaders]
  refine or_congr_right (forall₂_congr fun t ht ↦ ?_)
  rw [findFork, climb_some] at ht
  have hin := List.find?_some ht
  have hiff : s.failed t = true ↔ s₀.failed t = true := by
    refine ⟨fun hfailed ↦ (h.failed_or_tainted t hfailed).resolve_right ?_, h.failed_of_failed t⟩
    rintro ⟨x, hx, hout, -⟩
    rw [hchain, contains_chainTo] at hin
    have := contains_chainTo.mpr (blocks_subset hin hx)
    rw [← hchain, hout] at this
    exact Bool.false_ne_true this
  rw [← Bool.not_eq_true, ← Bool.not_eq_true, hiff]

/-- The greatest candidate that passes. -/
structure Chosen (s : HeaderState tree) (p : ℕ) : Prop where
  passes : s.Passes p
  rank_le : ∀ q, s.Passes q → tree.rank q ≤ tree.rank p

theorem Narrowed.chosen (h : s₀.Narrowed s) (hlast : s.setBlockIndexValid.elems.getLast? = some p)
    (hp : s.Passes p) : s₀.Chosen p :=
  ⟨h.passes hp, fun q hq ↦ WorkSet.rank_le_last hlast (h.mem_of_passes q hq)⟩

/-- The loop ends with the greatest candidate that passes. -/
theorem chosen_of_select (hchain : s₀.chainHeaders = tree.chainTo o)
    {best : Option ℕ} : ∀ {fuel : ℕ} {s : HeaderState tree}, s₀.Narrowed s →
    s.select fuel = some (best, s') → s₀.Narrowed s' ∧ ((best = none ∧ ∀ p, ¬s₀.Passes p) ∨
      ∃ p, best = some p ∧ s₀.Chosen p ∧ s₀.Leaves p) := by
  intro fuel
  induction fuel with
  | zero => exact fun _ h ↦ absurd h (by simp [select])
  | succ fuel ih =>
    intro s h hselect
    rw [select] at hselect
    have houtcome := round_outcome (h.chainHeaders.trans hchain)
    rcases hround : s.round with _ | p | s₁ <;> rw [hround] at hselect houtcome
    · cases hselect
      cases houtcome with
      | noSet hnil =>
        refine ⟨h, .inl ⟨rfl, fun p hp ↦ ?_⟩⟩
        exact absurd (h.mem_of_passes p hp) (by simp [hnil])
    · cases hselect
      cases houtcome with
      | best hlast hpasses hleaves =>
        exact ⟨h, .inr ⟨p, rfl, h.chosen hlast hpasses, (h.leaves_iff hchain).mp hleaves⟩⟩
    · exact ih (h.round hchain hround) hselect

end HeaderState

end Cryptonite
