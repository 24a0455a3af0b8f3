import Cryptonite.Chain.Candidates

/-!
# The best header

The header that `ActivateBestHeader` chooses has at least the work of every eligible header, but it
may have a failed ancestor, and then there is a failed block in the header chain (`best_header`).
-/

namespace Cryptonite

open HeaderTree

namespace HeaderState

variable {tree : HeaderTree} {s s' s'' s₀ : HeaderState tree} {p q x n : ℕ} {o : Option ℕ}
  {disconnects : ℕ → Bool} {ok : Bool}

/-! ## The chains before and after -/

/-- Only the chains are different. -/
structure SameEntries (s s' : HeaderState tree) : Prop where
  nStatus : s'.nStatus = s.nStatus
  setBlockIndexValid : s'.setBlockIndexValid = s.setBlockIndexValid

theorem SameEntries.refl (s : HeaderState tree) : s.SameEntries s := ⟨rfl, rfl⟩

theorem SameEntries.failed (h : s.SameEntries s') (x : ℕ) : s'.failed x = s.failed x := by
  rw [HeaderState.failed, HeaderState.failed, h.nStatus]

theorem SameEntries.validTree (h : s.SameEntries s') (x : ℕ) : s'.validTree x = s.validTree x := by
  rw [HeaderState.validTree, HeaderState.validTree, h.nStatus]

/-- The first loop leaves a chain whose tip has not failed, if it leaves one. -/
theorem dropFailed_spec : ∀ {o : Option ℕ} {s : HeaderState tree},
    s.chainHeaders = tree.chainTo o → (tree.chainTo o).vChain.length ≤ n →
    s.SameEntries (s.dropFailed n) ∧ ∃ o', (s.dropFailed n).chainHeaders = tree.chainTo o' ∧
      tree.blocks o' ⊆ tree.blocks o ∧ ∀ tip, o' = some tip → s.failed tip = false := by
  induction n with
  | zero =>
    intro o s hchain hle
    rcases o with _ | p
    · exact ⟨.refl s, none, hchain, List.Subset.refl _, fun _ h ↦ absurd h (by simp)⟩
    · rw [length_chainTo] at hle
      omega
  | succ n ih =>
    intro o s hchain hle
    have htip : s.chainHeaders.tip = o := by rw [hchain, tip_chainTo]
    rw [dropFailed, htip]
    rcases o with _ | p
    · exact ⟨.refl s, none, hchain, List.Subset.refl _, fun _ h ↦ absurd h (by simp)⟩
    dsimp only
    split_ifs with hfailed
    · have hset := (congrArg (fun c ↦ (tree.setTip c (tree.pprev p)).1) hchain).trans
        (setTip_chainTo (some p) (tree.pprev p))
      have hshorter : (tree.chainTo (tree.pprev p)).vChain.length ≤ n ∧
          tree.blocks (tree.pprev p) ⊆ tree.blocks (some p) := by
        rw [length_chainTo] at hle
        rcases hp : tree.pprev p with _ | q
        · exact ⟨Nat.zero_le n, List.nil_subset _⟩
        · rw [length_chainTo, ← tree.height_step hp]
          refine ⟨by omega, ?_⟩
          change tree.ancestry q ⊆ tree.ancestry p
          rw [ancestry_step hp]
          exact List.subset_cons_self p _
      obtain ⟨hsame, o', ho', hsub, halive⟩ := @ih (tree.pprev p)
        { s with chainHeaders := (tree.setTip s.chainHeaders (tree.pprev p)).1 } hset hshorter.1
      exact ⟨⟨hsame.nStatus, hsame.setBlockIndexValid⟩, o', ho',
        List.Subset.trans hsub hshorter.2, halive⟩
    · refine ⟨.refl s, some p, hchain, List.Subset.refl _, fun tip htip ↦ ?_⟩
      cases htip
      simpa using hfailed

/-- Blocks are taken off the ends of the chains. -/
inductive Retreats : HeaderState tree → HeaderState tree → Prop
  | refl (s : HeaderState tree) : Retreats s s
  | active {s s' : HeaderState tree} {p q : ℕ} (htip : s.chainActive.tip = some p)
      (hq : tree.pprev p = some q)
      (h : Retreats { s with chainActive := (tree.setTip s.chainActive (some q)).1 } s') :
      Retreats s s'
  | header {s s' : HeaderState tree} {p : ℕ} (htip : s.chainHeaders.tip = some p)
      (h : Retreats { s with chainHeaders := (tree.setTip s.chainHeaders (tree.pprev p)).1 } s') :
      Retreats s s'

theorem Retreats.trans (h : s.Retreats s') (h' : s'.Retreats s'') : s.Retreats s'' := by
  induction h with
  | refl => exact h'
  | active htip hq _ ih => exact .active htip hq (ih h')
  | header htip _ ih => exact .header htip (ih h')

theorem Retreats.same (h : s.Retreats s') : s.SameEntries s' ∧
    ∀ o, s.chainHeaders = tree.chainTo o → ∃ o', s'.chainHeaders = tree.chainTo o' := by
  induction h with
  | refl s => exact ⟨.refl s, fun o ho ↦ ⟨o, ho⟩⟩
  | active _ _ _ ih => exact ⟨⟨ih.1.nStatus, ih.1.setBlockIndexValid⟩, ih.2⟩
  | @header s _ p _ _ ih =>
    refine ⟨⟨ih.1.nStatus, ih.1.setBlockIndexValid⟩, fun o ho ↦ ih.2 (tree.pprev p) ?_⟩
    change (tree.setTip s.chainHeaders _).1 = _
    rw [ho, setTip_chainTo]

theorem disconnectTip_retreats (h : s.disconnectTip disconnects = .ok (ok, s')) :
    s.Retreats s' := by
  rw [disconnectTip] at h
  split at h
  · cases h
    exact .refl _
  · next htip =>
    split_ifs at h
    · split at h
      · cases h
      · next hq =>
        cases h
        exact .active htip hq (.refl _)
    · cases h
      exact .refl _

theorem disconnectTips_retreats :
    ∀ {s : HeaderState tree}, s.disconnectTips disconnects n = .ok (ok, s') → s.Retreats s' := by
  induction n with
  | zero => exact fun h ↦ absurd h (by simp [disconnectTips])
  | succ n ih =>
    intro s h
    rw [disconnectTips] at h
    split at h
    · cases h
    · split_ifs at h
      · cases h
        exact .refl _
      · obtain ⟨⟨ok₁, s₁⟩, hfirst, h⟩ := Except.bind_eq_ok_iff.mp h
        rcases ok₁ with _ | _
        · cases h
          exact disconnectTip_retreats hfirst
        · exact (disconnectTip_retreats hfirst).trans (ih h)

theorem rewind_retreats :
    ∀ {s : HeaderState tree}, s.rewind disconnects p n = .ok (ok, s') → s.Retreats s' := by
  induction n with
  | zero =>
    intro s h
    rw [rewind] at h
    split_ifs at h
    cases h
    exact .refl _
  | succ n ih =>
    intro s h
    rw [rewind] at h
    split_ifs at h
    · cases h
      exact .refl _
    · obtain ⟨⟨ok₁, s₁⟩, hfirst, h⟩ := Except.bind_eq_ok_iff.mp h
      rcases ok₁ with _ | _
      · cases h
        exact disconnectTips_retreats hfirst
      · obtain ⟨s₂, hpop, h⟩ := Except.bind_eq_ok_iff.mp h
        rw [popHeader] at hpop
        split at hpop
        · cases hpop
        · next htip =>
          cases hpop
          exact (disconnectTips_retreats hfirst).trans (.header htip (ih h))

/-! ## The best header -/

/-- No ancestor of an entry has failed, and it has not failed itself. -/
def Sound (s : HeaderState tree) (p : ℕ) : Prop := ∀ x ∈ tree.ancestry p, s.failed x = false

/-- The header is valid, and neither it nor an ancestor has failed. -/
def Eligible (s : HeaderState tree) (p : ℕ) : Prop := s.validTree p = true ∧ s.Sound p

/-- No block of the header chain has failed. -/
def Clean (s : HeaderState tree) : Prop := ∀ x, some x ∈ s.chainHeaders.vChain → s.failed x = false

def withoutFailedTips (s : HeaderState tree) : HeaderState tree :=
  s.dropFailed s.chainHeaders.vChain.length

/-- The greatest candidate, if ancestors do not matter. -/
structure Foremost (s : HeaderState tree) (p : ℕ) : Prop where
  mem : p ∈ s.setBlockIndexValid.elems
  validTree : s.validTree p = true
  unfailed : s.failed p = false
  rank_le : ∀ q ∈ s.setBlockIndexValid.elems, s.validTree q = true → s.failed q = false →
    tree.rank q ≤ tree.rank p

/-- The blocks that follow a failed one in the header chain have failed as well. -/
def FailedAbove (s : HeaderState tree) : Prop :=
  ∀ x y, some x ∈ s.chainHeaders.vChain → some y ∈ s.chainHeaders.vChain →
    x ∈ tree.ancestry y → s.failed x = true → s.failed y = true

theorem SameEntries.sound_iff (h : s.SameEntries s') : s'.Sound p ↔ s.Sound p := by
  simp only [Sound, h.failed]

theorem withoutFailedTips_spec (hchain : s.chainHeaders = tree.chainTo o) :
    s.SameEntries s.withoutFailedTips ∧
      ∃ o', s.withoutFailedTips.chainHeaders = tree.chainTo o' ∧
        tree.blocks o' ⊆ tree.blocks o ∧ ∀ tip, o' = some tip → s.failed tip = false := by
  rw [withoutFailedTips]
  exact dropFailed_spec hchain (by rw [hchain])

theorem Eligible.passes (h : s.Eligible p) (hmem : p ∈ s.setBlockIndexValid.elems) :
    s.Passes p where
  mem := hmem
  validTree := h.1
  unfailed := h.2 p (self_mem_ancestry tree p)
  improves := by
    right
    rintro ⟨x, hx, -, hfailed⟩
    simp [h.2 x hx] at hfailed

theorem Narrowed.sound_iff (h : s₀.Narrowed s) : s.Sound p ↔ s₀.Sound p := by
  constructor
  · intro hsound x hx
    have := mt (h.failed_of_failed x) (by simp [hsound x hx])
    simpa using this
  · intro hsound x hx
    by_contra hfailed
    rw [Bool.not_eq_false] at hfailed
    rcases h.failed_or_tainted x hfailed with hx₀ | ⟨y, hy, -, hy₀⟩
    · simp [hsound x hx] at hx₀
    · simp [hsound y (ancestry_subset hx hy)] at hy₀

theorem Chosen.unique (hp : s.Chosen p) (hq : s.Chosen q) : p = q :=
  tree.rank_injective (le_antisymm (hq.rank_le p hp.passes) (hp.rank_le q hq.passes))

/-- When `ActivateBestHeader` returns true, the chain is that of the greatest header that passes. -/
theorem chosen_of_activateBestHeader {fuel : ℕ} (hchain : s.chainHeaders = tree.chainTo o)
    (heligible : ∃ p ∈ s.setBlockIndexValid.elems, s.Eligible p)
    (hreturns : s.activateBestHeader disconnects fuel = some (.ok (true, s'))) :
    ∃ s₁ tip, s.withoutFailedTips.Narrowed s₁ ∧ s₁.SameEntries s' ∧
      s.withoutFailedTips.Chosen tip ∧ s'.chainHeaders = tree.chainTo (some tip) := by
  obtain ⟨hsame, o', ho', -, -⟩ := withoutFailedTips_spec hchain
  obtain ⟨⟨best, s₁⟩, hselect, hrest⟩ := Option.map_eq_some_iff.mp hreturns
  obtain ⟨hnarrowed, ⟨rfl, hnone⟩ | ⟨tip, rfl, htip, -⟩⟩ := chosen_of_select ho' (.refl _) hselect
  · obtain ⟨p, hmem, hp⟩ := heligible
    have hp' : s.withoutFailedTips.Eligible p :=
      ⟨(hsame.validTree p).trans hp.1, hsame.sound_iff.mpr hp.2⟩
    exact absurd (hp'.passes (hsame.setBlockIndexValid ▸ hmem)) (hnone p)
  · obtain ⟨⟨ok, s₂⟩, hrewind, hset⟩ := Except.bind_eq_ok_iff.mp hrest
    obtain ⟨hsame', hchain'⟩ := (rewind_retreats hrewind).same
    obtain ⟨o₂, ho₂⟩ := hchain' o' (hnarrowed.chainHeaders.trans ho')
    rcases ok with _ | _
    · cases hset
    · cases hset
      refine ⟨s₁, tip, hnarrowed, ⟨hsame'.nStatus, hsame'.setBlockIndexValid⟩, htip, ?_⟩
      change (tree.setTip s₂.chainHeaders (some tip)).1 = _
      rw [ho₂, setTip_chainTo]

/-- The foremost candidate, if it compares above the tip, is chosen whatever its ancestors. -/
theorem Foremost.chosen (h : s.Foremost p) (hsame : s.SameEntries s₀) (hout : s₀.Outruns p) :
    s₀.Chosen p where
  passes := ⟨hsame.setBlockIndexValid ▸ h.mem, (hsame.validTree p).trans h.validTree,
    (hsame.failed p).trans h.unfailed, .inl hout⟩
  rank_le q hq := h.rank_le q (hsame.setBlockIndexValid ▸ hq.mem)
    ((hsame.validTree q).symm.trans hq.validTree) ((hsame.failed q).symm.trans hq.unfailed)

theorem Chosen.foremost (h : s₀.Chosen p) (hsame : s.SameEntries s₀) (hout : s₀.Outruns p) :
    s.Foremost p where
  mem := hsame.setBlockIndexValid ▸ h.passes.mem
  validTree := (hsame.validTree p).symm.trans h.passes.validTree
  unfailed := (hsame.failed p).symm.trans h.passes.unfailed
  rank_le q hq hvalid hunfailed := by
    obtain ⟨tip, htip, hlt⟩ := hout
    rcases lt_or_ge (tree.rank tip) (tree.rank q) with hq' | hq'
    · exact h.rank_le q ⟨hsame.setBlockIndexValid ▸ hq, (hsame.validTree q).trans hvalid,
        (hsame.failed q).trans hunfailed, .inl ⟨tip, htip, hq'⟩⟩
    · exact hq'.trans hlt.le

theorem unfailed_of_failedAbove {o' : Option ℕ} (hchain : s.chainHeaders = tree.chainTo o)
    (habove : s.FailedAbove) (hsub : tree.blocks o' ⊆ tree.blocks o)
    (halive : ∀ tip, o' = some tip → s.failed tip = false) (hx : x ∈ tree.blocks o') :
    s.failed x = false := by
  rcases o' with _ | tip
  · exact absurd hx List.not_mem_nil
  by_contra hfailed
  rw [Bool.not_eq_false] at hfailed
  have hmem : ∀ y ∈ tree.blocks (some tip), some y ∈ s.chainHeaders.vChain := fun y hy ↦ by
    rw [hchain, mem_vChain_chainTo]
    exact hsub hy
  have htip := habove x tip (hmem x hx) (hmem tip (self_mem_ancestry tree tip)) hx hfailed
  simp [halive tip rfl] at htip

theorem Chosen.sound (hchain : s.chainHeaders = tree.chainTo o)
    (habove : s.FailedAbove) (h : s.withoutFailedTips.Chosen p)
    (hslow : ¬s.withoutFailedTips.Outruns p) : s.Sound p := by
  obtain ⟨hsame, o', ho', hsub, halive⟩ := withoutFailedTips_spec hchain
  intro x hx
  by_contra hfailed
  rw [Bool.not_eq_false] at hfailed
  rcases hin : tree.contains s.withoutFailedTips.chainHeaders x with _ | _
  · exact (h.passes.improves.resolve_left hslow) ⟨x, hx, hin, (hsame.failed x).trans hfailed⟩
  · rw [ho', contains_chainTo] at hin
    simp [unfailed_of_failedAbove hchain habove hsub halive hin] at hfailed

/-- **Best header.** When `ActivateBestHeader` returns true and one of the candidates was eligible,
the eligible candidates are as they were and none has more work than the new tip. No block of the
new chain has failed if and only if the greatest header that passes has no failed ancestor. If the
marks on the header chain are in order, this says that the foremost candidate has no failed ancestor
when it compares above the tip: then its ancestors are not looked at. -/
theorem best_header {disconnects : ℕ → Bool} {fuel : ℕ} {o : Option ℕ}
    (hchain : s.chainHeaders = tree.chainTo o)
    (heligible : ∃ p ∈ s.setBlockIndexValid.elems, s.Eligible p)
    (hreturns : s.activateBestHeader disconnects fuel = some (.ok (true, s'))) :
    (∃ tip, s'.chainHeaders = tree.chainTo (some tip) ∧
      ∀ p ∈ s.setBlockIndexValid.elems, s.Eligible p →
        (tree.nChainWork p).toNat ≤ (tree.nChainWork tip).toNat) ∧
    (∀ p, (p ∈ s'.setBlockIndexValid.elems ∧ s'.Eligible p) ↔
      (p ∈ s.setBlockIndexValid.elems ∧ s.Eligible p)) ∧
    (s'.Clean ↔ ∀ p, s.withoutFailedTips.Chosen p → s.Sound p) ∧
    (s.FailedAbove → (s'.Clean ↔
      ∀ p, s.Foremost p → s.withoutFailedTips.Outruns p → s.Sound p)) := by
  obtain ⟨s₁, tip, hnarrowed, hsame, htip, hheaders⟩ :=
    chosen_of_activateBestHeader hchain heligible hreturns
  obtain ⟨hsame₀, -⟩ := withoutFailedTips_spec hchain
  have hsound : ∀ {p}, s'.Sound p ↔ s.Sound p :=
    hsame.sound_iff.trans (hnarrowed.sound_iff.trans hsame₀.sound_iff)
  have hvalid : ∀ p, s'.validTree p = s.validTree p := fun p ↦
    (hsame.validTree p).trans ((hnarrowed.validTree p).trans (hsame₀.validTree p))
  have hpasses : ∀ p ∈ s.setBlockIndexValid.elems, s.Eligible p → s.withoutFailedTips.Passes p :=
    fun p hmem hp ↦ Eligible.passes ⟨(hsame₀.validTree p).trans hp.1, hsame₀.sound_iff.mpr hp.2⟩
      (hsame₀.setBlockIndexValid ▸ hmem)
  have hclean : s'.Clean ↔ s.Sound tip := by
    rw [← hsound, Clean, hheaders]
    simp only [mem_vChain_chainTo]
    rfl
  refine ⟨⟨tip, hheaders, fun p hmem hp ↦ ?_⟩, fun p ↦ ?_, ?_, fun habove ↦ ?_⟩
  · exact nChainWork_le (htip.rank_le p (hpasses p hmem hp))
  · rw [Eligible, hvalid, hsound, ← Eligible, hsame.setBlockIndexValid]
    refine and_congr_left fun hp ↦ ⟨fun hmem ↦ ?_, fun hmem ↦ ?_⟩
    · exact hsame₀.setBlockIndexValid ▸ hnarrowed.mem_of_mem p hmem
    · exact hnarrowed.mem_of_passes p (hpasses p hmem hp)
  · rw [hclean]
    exact ⟨fun h p hp ↦ hp.unique htip ▸ h, fun h ↦ h tip htip⟩
  · rw [hclean]
    refine ⟨fun h p hp hout ↦ (hp.chosen hsame₀ hout).unique htip ▸ h, fun h ↦ ?_⟩
    by_cases hout : s.withoutFailedTips.Outruns tip
    · exact h tip (htip.foremost hsame₀ hout) hout
    · exact htip.sound hchain habove hout

end HeaderState

/-! ### A fork above a failed block -/

/-- Two blocks `2` and `3` on top of a block `1` on top of the genesis block. -/
def forkHeaders : HeaderTree where
  pprev p := if p = 1 then some 0 else if p = 2 ∨ p = 3 then some 1 else none
  nHeight p := if p = 1 then 1 else if p = 2 ∨ p = 3 then 2 else 0
  nChainWork p := if p = 1 then 2 else if p = 2 ∨ p = 3 then 3 else 1
  nSequenceId p := UInt32.ofNat p
  height_step {p q} h := by grind
  height_root {p} h := by grind

/-- The headers have arrived in this order, and the chain is that of block `2`. -/
def forked : HeaderState forkHeaders where
  nStatus _ := BLOCK_VALID_TREE
  setBlockIndexValid := ⟨[0, 1, 3, 2], by decide⟩
  chainHeaders := ⟨[some 0, some 1, some 2]⟩
  chainActive := ⟨[some 0]⟩
  pindexBestInvalid := none

def unchosen : HeaderState forkHeaders := { forked with chainHeaders := ⟨[some 0]⟩ }

/-- The header that arrived first is chosen. -/
theorem best_header_unchosen : ∃ s', unchosen.activateBestHeader (fun _ ↦ true) 1
    = some (.ok (true, s')) ∧ s'.chainHeaders.tip = some 2 ∧ s'.Clean := by
  refine ⟨forked, rfl, rfl, ?_⟩
  have hsound : ∀ p, unchosen.Sound p := fun p x _ ↦
    show decide (BLOCK_VALID_TREE &&& BLOCK_FAILED_MASK ≠ 0) = false by decide
  have hchain : unchosen.chainHeaders = forkHeaders.chainTo (some 0) := rfl
  have hreturns : unchosen.activateBestHeader (fun _ ↦ true) 1 = some (.ok (true, forked)) := rfl
  exact (HeaderState.best_header hchain ⟨0, by decide, rfl, hsound 0⟩ hreturns).2.2.1.mpr
    fun p _ ↦ hsound p

/-- What `InvalidBlockFound` leaves when block `1` turns out to be invalid: block `2` is marked with
it, and block `3` is not. -/
def marked : HeaderState forkHeaders where
  nStatus := Function.update (Function.update (fun _ ↦ BLOCK_VALID_TREE) 1
    (BLOCK_VALID_TREE ||| BLOCK_FAILED_VALID)) 2 (BLOCK_VALID_TREE ||| BLOCK_FAILED_CHILD)
  setBlockIndexValid := ⟨[0, 3], by decide⟩
  chainHeaders := ⟨[some 0, some 1, some 2]⟩
  chainActive := ⟨[some 0]⟩
  pindexBestInvalid := some 2

/-- The header chain goes from the failed tip back to the genesis block, and from there to block
`3`: over the failed block. -/
theorem failed_block_in_chain :
    forked.invalidBlockFound (fun _ ↦ true) 1 1 = marked.activateBestHeader (fun _ ↦ true) 1 ∧
    (0 ∈ marked.setBlockIndexValid.elems ∧ marked.Eligible 0) ∧
    ∃ s', marked.activateBestHeader (fun _ ↦ true) 1 = some (.ok (true, s')) ∧
      s'.chainHeaders.vChain = [some 0, some 1, some 3] ∧ s'.failed 1 = true := by
  refine ⟨rfl, ⟨by decide, by decide, ?_⟩, _, rfl, rfl, by decide⟩
  intro x hx
  obtain rfl := List.mem_singleton.mp hx
  decide

end Cryptonite
