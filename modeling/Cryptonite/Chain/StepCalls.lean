import Cryptonite.Chain.Stepping

/-!
# The steps of a reorganisation

When `Activate` does not accept the new tip, the bad block is marked and `ActivateBestChain` is
called from within `ActivateBestChainStep`. The states in which the loops of such calls begin are
described by `Comes`. They are what the first one was: both chains come from the genesis block, and
so do the candidates (`FromGenesis.comes`). So what is said of the loops holds for every call
(`settles_iff`).
-/

namespace Cryptonite

open HeaderTree

namespace HeaderState

variable {tree : HeaderTree}
variable {s s' : HeaderState tree} {files : StepFiles} {p q tipH : ℕ} {o : Option ℕ}

/-! ## From call to call -/

/-- The states in which the loops of the calls of `ActivateBestChainStep` begin, if those of the
first one begin with some choice of a header chain. -/
inductive Comes (files : ℕ → StepFiles) (s₀ : HeaderState tree) : ℕ → HeaderState tree → Prop
  | first : Comes files s₀ 0 s₀
  /-- `Activate` has found a bad block after the loops of the call before. -/
  | again {call n pBad : ℕ} {fError ok : Bool} {s s₁ s₂ s₃ : HeaderState tree}
      (h : Comes files s₀ call s)
      (hloops : s.reorganize (files call) n = some (.ok (fError, s₁)))
      (hbad : (files call).activate = .bad pBad)
      (hinvalid : s₁.invalidBlockFound (files call).disconnectsLater n pBad =
        some (.ok (ok, s₂)))
      (hheader : s₂.activateBestHeader (files (call + 1)).disconnectsLater n =
        some (.ok (true, s₃))) :
      Comes files s₀ (call + 1) s₃

/-- Every block that has to be disconnected can be read at the first attempt. -/
def Prompt (files : StepFiles) (s : HeaderState tree) : Prop :=
  ∀ i p, s.offHeaders[i]? = some p → files.disconnects i p = true

/-- What is asked of a step: its loops come to an end, and with an error if a block that had to be
disconnected or connected could not be read. -/
def Settles (files : StepFiles) (s : HeaderState tree) : Prop :=
  ∃ n result, s.reorganize files n = some result ∧ ∀ s', result = .ok (false, s') →
    s.Prompt files ∧ ∀ p, s.halt files = some p → s.ready p = true → files.reads p = true

/-- The chain of an entry that descends from the genesis block, or an empty one. -/
def Rooted (tree : HeaderTree) (genesis : ℕ) (c : CChain) : Prop :=
  ∃ o, c = tree.chainTo o ∧ ∀ tip, o = some tip → genesis ∈ tree.ancestry tip

/-- Both chains and all candidates descend from the genesis block. -/
structure FromGenesis (genesis : ℕ) (s : HeaderState tree) : Prop where
  headers : Rooted tree genesis s.chainHeaders
  active : Rooted tree genesis s.chainActive
  candidates : ∀ p ∈ s.setBlockIndexValid.elems, genesis ∈ tree.ancestry p

theorem dropFailed_retreats (n : ℕ) (s : HeaderState tree) : s.Retreats (s.dropFailed n) := by
  induction n generalizing s with
  | zero => exact .refl _
  | succ n ih =>
    rw [dropFailed]
    split
    · exact .refl _
    · next htip =>
      split_ifs
      · exact .header htip (ih _)
      · exact .refl _

theorem unwind_retreats {disconnects : ℕ → ℕ → Bool} {n : ℕ} : ∀ {s : HeaderState tree} {t : ℕ},
    s.unwind disconnects o n t = some (.ok s') → s.Retreats s' := by
  induction n with
  | zero =>
    intro s t h
    rw [unwind] at h
    split_ifs at h
    cases h
    exact .refl _
  | succ n ih =>
    intro s t h
    rw [unwind] at h
    split_ifs at h
    · cases h
      exact .refl _
    · split at h
      · cases h
      · next hfirst => exact (disconnectTip_retreats hfirst).trans (ih h)

section Genesis

variable {genesis : ℕ} {c : CChain} {disconnects : ℕ → Bool} {ok : Bool} {n : ℕ}

theorem Rooted.setTip (h : Rooted tree genesis c)
    (ho : ∀ tip, o = some tip → genesis ∈ tree.ancestry tip) :
    Rooted tree genesis (tree.setTip c o).1 := by
  obtain ⟨o', rfl, -⟩ := h
  exact ⟨o, setTip_chainTo o' o, ho⟩

theorem FromGenesis.narrowed (h : s.FromGenesis genesis) (hnarrowed : s.Narrowed s') :
    s'.FromGenesis genesis :=
  ⟨hnarrowed.chainHeaders ▸ h.headers, hnarrowed.chainActive ▸ h.active,
    fun p hp ↦ h.candidates p (hnarrowed.mem_of_mem p hp)⟩

theorem FromGenesis.noteInvalid (h : s.FromGenesis genesis) (p : ℕ) :
    (s.noteInvalid p).FromGenesis genesis := by
  have hmarks := marks_noteInvalid s p
  exact ⟨hmarks.chainHeaders ▸ h.headers, hmarks.chainActive ▸ h.active,
    fun q hq ↦ h.candidates q ((hmarks.mem_iff q).mp hq).1⟩

theorem FromGenesis.mark (h : s.FromGenesis genesis) (flag : UInt32) (p : ℕ) :
    (s.mark flag p).FromGenesis genesis :=
  ⟨h.headers, h.active, fun q hq ↦ h.candidates q (WorkSet.mem_erase.mp hq).1⟩

theorem FromGenesis.failNext : ∀ {s : HeaderState tree} {p : ℕ}, s.FromGenesis genesis →
    (s.failNext n p).1.FromGenesis genesis := by
  induction n with
  | zero => exact fun h ↦ h
  | succ n ih =>
    intro s p h
    rw [HeaderState.failNext]
    split
    · exact h
    · exact ih (h.mark _ _)

theorem FromGenesis.failValid (h : s.FromGenesis genesis) (p : ℕ) :
    (s.failValid p).FromGenesis genesis :=
  (h.mark _ p).failNext.noteInvalid _

variable (hgenesis : tree.pprev genesis = none)
include hgenesis

theorem genesis_mem_parent (hp : genesis ∈ tree.ancestry p) (hq : tree.pprev p = some q) :
    genesis ∈ tree.ancestry q := by
  rw [ancestry_step hq, List.mem_cons] at hp
  refine hp.resolve_left ?_
  rintro rfl
  rw [hgenesis] at hq
  cases hq

theorem genesis_mem_of_mem (hp : genesis ∈ tree.ancestry p) (hq : q ∈ tree.ancestry p) :
    genesis ∈ tree.ancestry q := by
  rcases mem_ancestry_or hp hq with h | h
  · exact h
  · rw [ancestry_root hgenesis, List.mem_singleton] at h
    exact h ▸ self_mem_ancestry tree q

theorem Rooted.parent (h : Rooted tree genesis c) (htip : c.tip = some p) :
    ∀ q, tree.pprev p = some q → genesis ∈ tree.ancestry q := by
  obtain ⟨o, rfl, ho⟩ := h
  rw [tip_chainTo] at htip
  exact fun q ↦ genesis_mem_parent hgenesis (ho p htip)

theorem FromGenesis.retreats (h : s.FromGenesis genesis) (hretreats : s.Retreats s') :
    s'.FromGenesis genesis := by
  induction hretreats with
  | refl => exact h
  | active htip hq _ ih =>
    exact ih ⟨h.headers, h.active.setTip fun q hq' ↦ h.active.parent hgenesis htip q (hq.trans hq'),
      h.candidates⟩
  | header htip _ ih =>
    exact ih ⟨h.headers.setTip (h.headers.parent hgenesis htip), h.active, h.candidates⟩

theorem FromGenesis.activateBestHeader (h : s.FromGenesis genesis)
    (hrun : s.activateBestHeader disconnects n = some (.ok (ok, s'))) : s'.FromGenesis genesis := by
  have h₀ : (s.dropFailed s.chainHeaders.vChain.length).FromGenesis genesis :=
    h.retreats hgenesis (dropFailed_retreats _ _)
  obtain ⟨o, ho, -⟩ := h₀.headers
  obtain ⟨⟨best, s₁⟩, hselect, hrest⟩ := Option.map_eq_some_iff.mp hrun
  obtain ⟨hnarrowed, ⟨rfl, -⟩ | ⟨tip, rfl, htip, -⟩⟩ := chosen_of_select ho (.refl _) hselect
  · cases hrest
    exact h₀.narrowed hnarrowed
  · obtain ⟨⟨ok₂, s₂⟩, hrewind, hset⟩ := Except.bind_eq_ok_iff.mp hrest
    have h₂ := (h₀.narrowed hnarrowed).retreats hgenesis (rewind_retreats hrewind)
    rcases ok₂ with _ | _
    · cases hset
      exact h₂
    · cases hset
      refine ⟨h₂.headers.setTip ?_, h₂.active, h₂.candidates⟩
      rintro _ ⟨⟩
      exact h₀.candidates tip htip.passes.mem

theorem FromGenesis.connectTip {next : ℕ} (h : s.FromGenesis genesis)
    (hnext : genesis ∈ tree.ancestry next)
    (hrun : s.connectTip files next = some (.ok (ok, s'))) : s'.FromGenesis genesis := by
  rw [HeaderState.connectTip] at hrun
  split_ifs at hrun
  · cases hrun
    exact h
  · cases hrun
    exact h
  · split at hrun
    · cases hrun
      refine ⟨h.headers, h.active.setTip ?_, h.candidates⟩
      rintro _ ⟨⟩
      exact hnext
    · cases hrun
      exact h
    · obtain ⟨result, hinvalid, hmap⟩ := Option.map_eq_some_iff.mp hrun
      rcases result with fault | ⟨ok', s₁⟩
      · cases hmap
      · cases hmap
        exact (h.failValid next).activateBestHeader hgenesis hinvalid

theorem FromGenesis.connectBlocks : ∀ {s : HeaderState tree} {nHeight : ℕ}, s.FromGenesis genesis →
    s.connectBlocks files n nHeight = some (.ok (ok, s')) → s'.FromGenesis genesis := by
  induction n with
  | zero => exact fun _ hrun ↦ by cases hrun
  | succ n ih =>
    intro s nHeight h hrun
    rw [HeaderState.connectBlocks] at hrun
    split_ifs at hrun
    · split at hrun
      · cases hrun
      · next next hget =>
        split_ifs at hrun
        · have hnext : genesis ∈ tree.ancestry next := by
            obtain ⟨o, ho, hroot⟩ := h.headers
            rw [ho] at hget
            obtain ⟨hmem, -⟩ := get_chainTo.mp hget
            rcases o with _ | tip
            · cases hmem
            · exact genesis_mem_of_mem hgenesis (hroot tip rfl) hmem
          split at hrun
          · cases hrun
          · cases hrun
          · next hfirst =>
            cases hrun
            exact h.connectTip hgenesis hnext hfirst
          · next hfirst => exact ih (h.connectTip hgenesis hnext hfirst) hrun
        · cases hrun
          exact h
    · cases hrun
      exact h

theorem FromGenesis.reorganize (h : s.FromGenesis genesis)
    (hrun : s.reorganize files n = some (.ok (ok, s'))) : s'.FromGenesis genesis := by
  rw [HeaderState.reorganize] at hrun
  split at hrun
  · cases hrun
  · cases hrun
  · next hunwind =>
    exact (h.retreats hgenesis (unwind_retreats hunwind)).connectBlocks hgenesis hrun

theorem FromGenesis.comes {files : ℕ → StepFiles} {s₀ : HeaderState tree} {call : ℕ}
    (h : s₀.FromGenesis genesis) (hcomes : Comes files s₀ call s) : s.FromGenesis genesis := by
  induction hcomes with
  | first => exact h
  | again _ hloops _ hinvalid hheader ih =>
    have h₂ := ((ih.reorganize hgenesis hloops).failValid _).activateBestHeader hgenesis hinvalid
    exact h₂.activateBestHeader hgenesis hheader

/-- **Reorg stepping.** The loops of a call of `ActivateBestChainStep` come to an end, and with an
error if a block could not be read, if and only if the blocks that have to be disconnected can be
read in turn, each at some attempt after the one before it, the search for another header ends where
the second loop comes to an invalid block, and either all the blocks to be disconnected could be
read at the first attempt, or the second loop fails. -/
theorem settles_iff {files : ℕ → StepFiles} {s₀ : HeaderState tree} {call : ℕ}
    (h₀ : s₀.FromGenesis genesis) (hcomes : Comes files s₀ call s)
    (htip : s.chainHeaders.tip = some tipH) :
    s.Settles (files call) ↔ Loop.InTurn (files call).disconnects 0 s.offHeaders ∧
      (∀ p, s.halt (files call) = some p → s.ready p = true → ¬s.Endless (files call) p) ∧
      (s.Prompt (files call) ∨ ∃ p, s.halt (files call) = some p ∧ s.ready p = true) := by
  have h := h₀.comes hgenesis hcomes
  obtain ⟨o, hactive, hroot⟩ := h.active
  obtain ⟨oH, hheaders, hrootH⟩ := h.headers
  obtain rfl : oH = some tipH := by rw [← htip, hheaders, tip_chainTo]
  obtain ⟨ending, hending, hrun⟩ := reorganize_eq hheaders hactive
    (fun tip ho ↦ ⟨genesis, hroot tip ho, hrootH tipH rfl⟩) (files call)
  have hends : ∀ {result}, (∃ n, s.reorganize (files call) n = some result) ↔
      Loop.InTurn (files call).disconnects 0 s.offHeaders ∧ ending = some result := by
    intro result
    rw [← Loop.retry_isSome_iff, ← exists_and_right]
    refine exists_congr fun n ↦ ?_
    rw [hrun]
    split <;> simp [*]
  rw [Settles, exists_comm]
  simp only [exists_and_right, hends]
  cases hending with
  | stopped hstop =>
    constructor
    · rintro ⟨_, ⟨hturn, ⟨⟩⟩, hread⟩
      exact ⟨hturn, fun p hp hready ↦ absurd (hstop p hp) (by simp [hready]), .inl (hread _ rfl).1⟩
    · rintro ⟨hturn, -, hprompt | ⟨p, hp, hready⟩⟩
      · refine ⟨_, ⟨hturn, rfl⟩, fun _ _ ↦ ⟨hprompt, fun p hp hready ↦ ?_⟩⟩
        exact absurd (hstop p hp) (by simp [hready])
      · exact absurd (hstop p hp) (by simp [hready])
  | @failed p result hfind hready hendless herror =>
    constructor
    · rintro ⟨_, ⟨hturn, ⟨⟩⟩, -⟩
      refine ⟨hturn, fun q hq _ ↦ ?_, .inr ⟨p, hfind, hready⟩⟩
      obtain rfl := Option.some.inj (hfind.symm.trans hq)
      exact hendless
    · rintro ⟨hturn, -, -⟩
      exact ⟨result, ⟨hturn, rfl⟩, fun s' hs' ↦ absurd hs' (herror s')⟩
  | @endless p hfind hready hendless =>
    refine iff_of_false ?_ fun hcond ↦ hcond.2.1 p hfind hready hendless
    rintro ⟨_, ⟨-, hnone⟩, -⟩
    cases hnone

end Genesis

/-! ### A branch that overtakes the chain -/

/-- A block `1` on top of the genesis block, and a branch of two blocks `2` and `3`. -/
def overtaken : HeaderTree where
  pprev p := if p = 1 ∨ p = 2 then some 0 else if p = 3 then some 2 else none
  nHeight p := if p = 1 ∨ p = 2 then 1 else if p = 3 then 2 else 0
  nChainWork p := if p = 1 ∨ p = 2 then 2 else if p = 3 then 3 else 1
  nSequenceId p := UInt32.ofNat p
  height_step {p q} h := by grind
  height_root {p} h := by grind

/-- Block `1` is the tip of both chains when the headers of the branch have arrived. -/
def beforeOvertaking : HeaderState overtaken where
  nStatus _ := BLOCK_VALID_TRANSACTIONS ||| BLOCK_HAVE_DATA
  setBlockIndexValid := ⟨[0, 2, 1, 3], by decide⟩
  chainHeaders := ⟨[some 0, some 1]⟩
  chainActive := ⟨[some 0, some 1]⟩
  pindexBestInvalid := none

def afterOvertaking : HeaderState overtaken :=
  { beforeOvertaking with chainHeaders := ⟨[some 0, some 2, some 3]⟩ }

/-- All blocks are valid, and those of a list can never be read. -/
def unreadable (lost : List ℕ) : StepFiles where
  disconnects _ p := p ∉ lost
  reads p := p ∉ lost
  connectBlock _ := .connected
  disconnectsLater p := p ∉ lost
  activate := .activated

theorem fromGenesis_afterOvertaking : afterOvertaking.FromGenesis 0 where
  headers := ⟨some 3, by decide, by rintro _ ⟨⟩; decide⟩
  active := ⟨some 1, by decide, by rintro _ ⟨⟩; decide⟩
  candidates := by decide

/-- If all blocks can be read, the step goes through. -/
theorem settles_overtaking : afterOvertaking.Settles (unreadable []) := by
  have htip : afterOvertaking.chainHeaders.tip = some 3 := by decide
  have hfirst : Comes (fun _ ↦ unreadable []) afterOvertaking 0 afterOvertaking := .first
  refine (settles_iff rfl fromGenesis_afterOvertaking hfirst htip).mpr
    ⟨Loop.inTurn_const.mpr (by decide), ?_, .inl fun _ _ _ ↦ rfl⟩
  intro p hp
  rw [show afterOvertaking.halt (unreadable []) = none by decide] at hp
  cases hp

/-- Block `1` has to be disconnected and cannot be read: the step does not end. -/
theorem unwinding_forever : ¬ ∃ n calls result,
    beforeOvertaking.activateBestChain (fun _ ↦ unreadable [1]) n calls 0 = some result := by
  rintro ⟨n, calls, result, hresult⟩
  rcases calls with _ | calls
  · exact nomatch hresult
  rcases n with _ | n
  · exact nomatch hresult
  · have hheader : beforeOvertaking.activateBestHeader (unreadable [1]).disconnectsLater (n + 1) =
        some (.ok (true, afterOvertaking)) := rfl
    have htip : afterOvertaking.chainHeaders.tip = some 3 := by decide
    obtain ⟨ending, -, hrun⟩ := @reorganize_eq overtaken afterOvertaking 3 (some 1) (by decide)
      (by decide) (by rintro tip ⟨⟩; exact ⟨0, by decide, by decide⟩) (unreadable [1])
    have hstuck : Loop.retry (unreadable [1]).disconnects (n + 1) 0 afterOvertaking.offHeaders =
        none := by
      rw [← Option.not_isSome_iff_eq_none]
      have hlost : ∀ t, (unreadable [1]).disconnects t 1 = false := fun _ ↦ rfl
      exact fun h ↦ Loop.not_inTurn hlost (by decide) (Loop.inTurn_of_retry h)
    simp only [activateBestChain, hheader, htip, hrun, hstuck] at hresult
    exact nomatch hresult

end HeaderState

end Cryptonite
