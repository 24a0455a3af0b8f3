import Cryptonite.Chain.SearchEnds
import Cryptonite.Chain.Startup
import Cryptonite.Foundation.Loop

/-!
# Stepping to the best chain

`ActivateBestChainStep` disconnects the blocks of the active chain that are not in the header chain,
and then connects blocks of the header chain for as long as it has them. The first loop goes by the
tip that it finds after each round, and does not look at what `DisconnectTip` returns: if a block
cannot be read the tip stays, and the loop tries again. It works off the blocks above the fork one
by one (`unwind_eq`), ends only if each of them can be read at last, and no attempt that fails is
ever reported. The second loop ends as soon as something fails, and the step returns an error; only
the search for another header, after `ConnectBlock` has found a block invalid, may not end.
-/

namespace Cryptonite

open HeaderTree

/-! ## The model -/

def BLOCK_HAVE_DATA : UInt32 := 8

/-- How `ConnectBlock` ends. -/
inductive Verdict where
  | connected
  | failed
  /-- It fails, and `state.IsInvalid()`. -/
  | invalid
  deriving DecidableEq

/-- How `Activate` ends. -/
inductive Activation where
  | activated
  /-- It fails, with a bad block that is in the index. -/
  | bad (pBad : ℕ)
  /-- It fails, and the bad block is not in the index. -/
  | unknown

/-- What the files, the blocks and the view say to a step. -/
structure StepFiles where
  /-- For each attempt of the first loop, the blocks that `DisconnectTip` can read. -/
  disconnects : ℕ → ℕ → Bool
  /-- The blocks that `ConnectTip` can read. -/
  reads : ℕ → Bool
  connectBlock : ℕ → Verdict
  /-- The blocks that can be read when they are disconnected for another header. -/
  disconnectsLater : ℕ → Bool
  activate : Activation

namespace HeaderState

variable {tree : HeaderTree}

/-- `while (chainActive.Tip() != pindexFork) DisconnectTip(state)`, from attempt `t` on; nothing if
it runs for more than `n` rounds. -/
def unwind (disconnects : ℕ → ℕ → Bool) (pindexFork : Option ℕ) :
    ℕ → ℕ → HeaderState tree → Option (Exec (HeaderState tree))
  | 0, _, s => if s.chainActive.tip = pindexFork then some (.ok s) else none
  | n + 1, t, s =>
    if s.chainActive.tip = pindexFork then some (.ok s)
    else
      match s.disconnectTip (disconnects t) with
      | .error fault => some (.error fault)
      -- whether it has worked is not looked at
      | .ok (_, s) => unwind disconnects pindexFork n (t + 1) s

/-- The data of a block are there, and its transactions are valid. -/
def ready (s : HeaderState tree) (p : ℕ) : Bool :=
  decide (s.nStatus p &&& BLOCK_HAVE_DATA ≠ 0) &&
    decide (BLOCK_VALID_TRANSACTIONS ≤ s.nStatus p &&& BLOCK_VALID_MASK)

/-- `ConnectTip`. `InvalidBlockFound` is given as many rounds as there are candidates, and one more;
nothing if it runs longer. -/
def connectTip (files : StepFiles) (s : HeaderState tree) (pindexNew : ℕ) :
    Option (Exec (Bool × HeaderState tree)) :=
  if tree.pprev pindexNew ≠ s.chainActive.tip then some (.ok (false, s))
  else if !files.reads pindexNew then some (.ok (false, s))
  else
    match files.connectBlock pindexNew with
    | .connected =>
      some (.ok (true, { s with chainActive := (tree.setTip s.chainActive (some pindexNew)).1 }))
    | .failed => some (.ok (false, s))
    | .invalid =>
      let rounds := (s.failValid pindexNew).setBlockIndexValid.elems.length + 1
      (s.invalidBlockFound files.disconnectsLater rounds pindexNew).map fun result ↦
        result.map fun (_, s) ↦ (false, s)

/-- `while (nHeight <= chainHeaders.Height())`: `fError` at the end; nothing if it runs for more
than `n` rounds. -/
def connectBlocks (files : StepFiles) :
    ℕ → ℕ → HeaderState tree → Option (Exec (Bool × HeaderState tree))
  | 0, _, _ => none
  | n + 1, nHeight, s =>
    if nHeight < s.chainHeaders.vChain.length then
      match s.chainHeaders.get nHeight with
      | none => some (.error .nullDeref)
      | some pindexNew =>
        if s.ready pindexNew then
          match s.connectTip files pindexNew with
          | none => none
          | some (.error fault) => some (.error fault)
          | some (.ok (false, s)) => some (.ok (true, s))
          | some (.ok (true, s)) => connectBlocks files n (nHeight + 1) s
        else some (.ok (false, s))
    else some (.ok (false, s))

/-- Both loops of `ActivateBestChainStep`: `fError` at the end; nothing if the first one runs for
more than `n` rounds. -/
def reorganize (files : StepFiles) (n : ℕ) (s : HeaderState tree) :
    Option (Exec (Bool × HeaderState tree)) :=
  match s.unwind files.disconnects (tree.findFork s.chainHeaders s.chainActive.tip) n 0 with
  | none => none
  | some (.error fault) => some (.error fault)
  | some (.ok s) =>
    s.connectBlocks files (s.chainHeaders.vChain.length + 1) s.chainActive.vChain.length

/-- `ActivateBestChain`: what `ActivateBestChainStep` returns, with the calls that it makes of
`ActivateBestChain` in turn, the first of which is number `call`. Nothing if there are more calls
than `calls`, or if a loop runs for more than `n` rounds. -/
def activateBestChain (files : ℕ → StepFiles) (n : ℕ) :
    ℕ → ℕ → HeaderState tree → Option (Exec (Bool × HeaderState tree))
  | 0, _, _ => none
  | calls + 1, call, s =>
    match s.activateBestHeader (files call).disconnectsLater n with
    | none => none
    | some (.error fault) => some (.error fault)
    | some (.ok (false, s)) => some (.ok (false, s))
    | some (.ok (true, s)) =>
      match s.chainHeaders.tip with
      | none => some (.ok (true, s))
      | some _ =>
        match s.reorganize (files call) n with
        | none => none
        | some (.error fault) => some (.error fault)
        | some (.ok (fError, s)) =>
          match (files call).activate with
          | .activated => some (.ok (!fError, s))
          | .unknown => some (.ok (false, s))
          | .bad pBad =>
            -- loop until the pain stops
            match s.invalidBlockFound (files call).disconnectsLater n pBad with
            | none => none
            | some (.error fault) => some (.error fault)
            | some (.ok (_, s)) => activateBestChain files n calls (call + 1) s

end HeaderState

/-! ## The first loop -/

namespace HeaderTree

variable {tree : HeaderTree} {p q f x : ℕ} {path : List ℕ}

theorem eq_of_ancestry_eq (h : tree.ancestry p = tree.ancestry f) : p = f :=
  ancestry_antisymm (h ▸ self_mem_ancestry tree p) (h ▸ self_mem_ancestry tree f)

theorem ne_of_ancestry_append (h : tree.ancestry p = x :: path ++ tree.ancestry f) :
    ¬some p = some f := by
  intro heq
  have hlength := congrArg List.length h
  rw [Option.some.inj heq, List.length_append, List.length_cons] at hlength
  omega

theorem parent_of_ancestry_append (h : tree.ancestry p = x :: path ++ tree.ancestry f) :
    x = p ∧ ∃ q, tree.pprev p = some q ∧ tree.ancestry q = path ++ tree.ancestry f := by
  have hline := line_ancestry tree p
  rw [h, List.cons_append] at hline
  have hne : path ++ tree.ancestry f ≠ [] :=
    List.append_ne_nil_of_right_ne_nil _ (List.ne_nil_of_mem (self_mem_ancestry tree f))
  obtain ⟨rfl, q, hq, hrest⟩ := hline.exists_parent hne
  exact ⟨rfl, q, hq, (line_ancestry tree q).unique hrest⟩

/-- The entries up to the first one with a property, and its ancestors. -/
theorem exists_ancestry_append {stop : ℕ → Bool} (h : ∃ x ∈ tree.ancestry p, stop x = true) :
    ∃ f, (tree.ancestry p).find? stop = some f ∧ tree.ancestry p =
      ((tree.ancestry p).takeWhile fun x ↦ !stop x) ++ tree.ancestry f := by
  obtain ⟨x, hx, hstop⟩ := h
  induction p using parent_induction tree with
  | root p hp =>
    rw [ancestry_root hp, List.mem_singleton] at hx
    subst hx
    exact ⟨x, by simp [ancestry_root hp, hstop], by simp [ancestry_root hp, hstop]⟩
  | step p q hp ih =>
    rcases hcase : stop p with _ | _
    · rw [ancestry_step hp, List.mem_cons,
        or_iff_right (by rintro rfl; simp [hcase] at hstop)] at hx
      obtain ⟨f, hfind, happend⟩ := ih hx
      refine ⟨f, by rw [ancestry_step hp, List.find?_cons_of_neg (by simp [hcase]), hfind], ?_⟩
      rw [ancestry_step hp, List.takeWhile_cons_of_pos (by simp [hcase]), List.cons_append,
        ← happend]
    · exact ⟨p, by simp [ancestry_step hp, hcase], by simp [ancestry_step hp, hcase]⟩

end HeaderTree

namespace HeaderState

variable {tree : HeaderTree}
variable {s s' : HeaderState tree} {files : StepFiles} {p q f tip tipH : ℕ} {o : Option ℕ}

theorem unwind_of_tip {disconnects : ℕ → ℕ → Bool} (hactive : s.chainActive = tree.chainTo o)
    (n t : ℕ) : s.unwind disconnects o n t =
      some (.ok { s with chainActive := tree.chainTo o }) := by
  have htip : s.chainActive.tip = o := by rw [hactive, tip_chainTo]
  cases n with
  | zero => rw [unwind, if_pos htip, ← hactive]
  | succ n => rw [unwind, if_pos htip, ← hactive]

theorem unwind_eq {disconnects : ℕ → ℕ → Bool} {n : ℕ} :
    ∀ {t : ℕ} {s : HeaderState tree} {p : ℕ} {path : List ℕ},
    tree.ancestry p = path ++ tree.ancestry f → s.chainActive = tree.chainTo (some p) →
    s.unwind disconnects (some f) n t = (Loop.retry disconnects n t path).map fun _ ↦
      .ok { s with chainActive := tree.chainTo (some f) } := by
  induction n with
  | zero =>
    intro t s p path hpath hactive
    rcases path with _ | ⟨x, path⟩
    · exact unwind_of_tip (eq_of_ancestry_eq hpath ▸ hactive) 0 t
    · rw [unwind, hactive, tip_chainTo, if_neg (ne_of_ancestry_append hpath)]
      rfl
  | succ n ih =>
    intro t s p path hpath hactive
    rcases path with _ | ⟨x, path⟩
    · exact unwind_of_tip (eq_of_ancestry_eq hpath ▸ hactive) (n + 1) t
    · have htip : s.chainActive.tip = some p := by rw [hactive, tip_chainTo]
      obtain ⟨rfl, q, hq, hrest⟩ := parent_of_ancestry_append hpath
      rw [unwind, htip, if_neg (ne_of_ancestry_append hpath)]
      simp only [disconnectTip, htip, hq, Loop.retry]
      rcases hdisconnects : disconnects t x with _ | _
      · exact ih hpath hactive
      · have hset : (tree.setTip s.chainActive (some q)).1 = tree.chainTo (some q) := by
          rw [hactive, setTip_chainTo]
        exact ih hrest hset

/-! ## The second loop -/

theorem exists_next (hsub : tree.blocks o ⊆ tree.ancestry tipH)
    (hlt : (tree.chainTo o).vChain.length < tree.nHeight tipH + 1) :
    ∃ next ∈ tree.ancestry tipH, tree.pprev next = o ∧
      (tree.chainTo (some tipH)).get (tree.chainTo o).vChain.length = some next := by
  obtain ⟨next, hget⟩ := exists_get_chainTo (Nat.lt_succ_iff.mp hlt)
  obtain ⟨hmem, hheight⟩ := get_chainTo.mp hget
  refine ⟨next, hmem, ?_, hget⟩
  rcases o with _ | q
  · rcases hp : tree.pprev next with _ | r
    · rfl
    · have := tree.height_step hp
      rw [hheight] at this
      exact absurd this (Nat.succ_ne_zero _).symm
  · rw [length_chainTo] at hheight
    rcases hp : tree.pprev next with _ | r
    · have := tree.height_root hp
      omega
    · have hr : r ∈ tree.ancestry tipH := by
        refine ancestry_subset hmem ?_
        rw [ancestry_step hp]
        exact List.mem_cons_of_mem _ (self_mem_ancestry tree r)
      have hstep := tree.height_step hp
      have hq := hsub (self_mem_ancestry tree q)
      rw [eq_of_nHeight_eq hr hq (by omega)]

/-- The second loop goes on after the block. -/
def takes (files : StepFiles) (s : HeaderState tree) (p : ℕ) : Bool :=
  s.ready p && files.reads p && decide (files.connectBlock p = .connected)

/-- The block is found invalid, and the search for another header does not end. The active chain
ends with the parent of the block at that time. -/
structure Endless (files : StepFiles) (s : HeaderState tree) (p : ℕ) : Prop where
  reads : files.reads p = true
  invalid : files.connectBlock p = .invalid
  stuck : ¬({ s with chainActive := tree.chainTo (tree.pprev p) }.failValid p).Searchable

theorem connectTip_of_takes {next : ℕ} (hactive : s.chainActive = tree.chainTo o)
    (hparent : tree.pprev next = o) (htakes : s.takes files next = true) :
    s.connectTip files next =
      some (.ok (true, { s with chainActive := tree.chainTo (some next) })) := by
  rw [takes, Bool.and_eq_true, Bool.and_eq_true, decide_eq_true_iff] at htakes
  rw [connectTip, if_neg (by rw [hactive, tip_chainTo, hparent]; exact not_not.mpr rfl),
    if_neg (by simp [htakes.1.2]), htakes.2, hactive, setTip_chainTo]

theorem connectTip_of_not_takes {next : ℕ} (hheaders : s.chainHeaders = tree.chainTo (some tipH))
    (hactive : s.chainActive = tree.chainTo o) (hparent : tree.pprev next = o)
    (hready : s.ready next = true) (htakes : s.takes files next = false) :
    (s.connectTip files next = none ∧ s.Endless files next) ∨ ¬s.Endless files next ∧
      ∃ result, s.connectTip files next = some result ∧ ∀ s', result ≠ .ok (true, s') := by
  have htip : ¬tree.pprev next ≠ s.chainActive.tip := by
    rw [hactive, tip_chainTo, hparent]
    exact not_not.mpr rfl
  rw [connectTip, if_neg htip]
  rcases hread : files.reads next with _ | _
  · exact .inr ⟨fun h ↦ by simp [h.reads] at hread, _, rfl, by simp⟩
  rw [if_neg (by simp)]
  rcases hverdict : files.connectBlock next with _ | _ | _
  · simp [takes, hready, hread, hverdict] at htakes
  · exact .inr ⟨fun h ↦ by simp [h.invalid] at hverdict, _, rfl, by simp⟩
  · have hhere : { s with chainActive := tree.chainTo (tree.pprev next) } = s := by
      rw [hparent, ← hactive]
    have hends := activateBestHeader_isSome_iff ((marks_failValid hheaders next).chainHeaders.trans
      hheaders) files.disconnectsLater
    simp only [invalidBlockFound]
    rcases hresult : (s.failValid next).activateBestHeader files.disconnectsLater
      ((s.failValid next).setBlockIndexValid.elems.length + 1) with _ | result
    · rw [hresult] at hends
      exact .inl ⟨rfl, hread, hverdict, by rw [hhere]; exact fun h ↦ by simpa using hends.mpr h⟩
    · rw [hresult] at hends
      refine .inr ⟨fun h ↦ h.stuck (by rw [hhere]; exact hends.mp rfl), _, rfl, fun s' ↦ ?_⟩
      rcases result with fault | ⟨ok, s'⟩ <;> simp [Except.map]

/-- How the second loop ends on a list of blocks. -/
inductive Ending (files : StepFiles) (s : HeaderState tree) (path : List ℕ) :
    Option (Exec (Bool × HeaderState tree)) → Prop
  /-- It has come to the end of the list, or to a block that is not there yet. -/
  | stopped {s' : HeaderState tree}
      (hstop : ∀ p, path.find? (fun x ↦ !s.takes files x) = some p → s.ready p = false) :
      Ending files s path (some (.ok (false, s')))
  | failed {p : ℕ} {result : Exec (Bool × HeaderState tree)}
      (hfind : path.find? (fun x ↦ !s.takes files x) = some p) (hready : s.ready p = true)
      (hends : ¬s.Endless files p) (herror : ∀ s', result ≠ .ok (false, s')) :
      Ending files s path (some result)
  | endless {p : ℕ} (hfind : path.find? (fun x ↦ !s.takes files x) = some p)
      (hready : s.ready p = true) (hendless : s.Endless files p) : Ending files s path none

/-- A block that is taken becomes the tip, and nothing else changes. -/
theorem Ending.cons {next : ℕ} {path : List ℕ} {c : CChain}
    {ending : Option (Exec (Bool × HeaderState tree))} (htakes : s.takes files next = true)
    (h : Ending files { s with chainActive := c } path ending) :
    Ending files s (next :: path) ending := by
  have hfind : (next :: path).find? (fun x ↦ !s.takes files x) =
      path.find? (fun x ↦ !s.takes files x) := List.find?_cons_of_neg (by simp [htakes])
  cases h with
  | stopped hstop => exact .stopped (by rw [hfind]; exact hstop)
  | failed hp hready hends herror =>
    exact .failed (hfind.trans hp) hready (fun h ↦ hends ⟨h.reads, h.invalid, h.stuck⟩) herror
  | endless hp hready h => exact .endless (hfind.trans hp) hready ⟨h.reads, h.invalid, h.stuck⟩

theorem connectBlocks_ending {path : List ℕ} : ∀ {s : HeaderState tree} {o : Option ℕ} {n : ℕ},
    s.chainHeaders = tree.chainTo (some tipH) → s.chainActive = tree.chainTo o →
    tree.blocks o ⊆ tree.ancestry tipH →
    (tree.ancestry tipH).reverse.drop (tree.chainTo o).vChain.length = path → path.length < n →
    Ending files s path (s.connectBlocks files n (tree.chainTo o).vChain.length) := by
  induction path with
  | nil =>
    intro s o n hheaders _ _ hpath hlt
    obtain ⟨n, rfl⟩ := Nat.exists_eq_succ_of_ne_zero (Nat.ne_zero_of_lt hlt)
    have hlong := List.drop_eq_nil_iff.mp hpath
    rw [List.length_reverse, length_ancestry] at hlong
    rw [connectBlocks, if_neg (by rw [hheaders, length_chainTo]; omega)]
    exact .stopped (by simp)
  | cons next path ih =>
    intro s o n hheaders hactive hsub hpath hlt
    obtain ⟨n, rfl⟩ := Nat.exists_eq_succ_of_ne_zero (Nat.ne_zero_of_lt hlt)
    have hat : (tree.ancestry tipH).reverse[(tree.chainTo o).vChain.length]? = some next := by
      rw [← List.head?_drop, hpath, List.head?_cons]
    have hshort : (tree.chainTo o).vChain.length < tree.nHeight tipH + 1 := by
      have := (List.getElem?_eq_some_iff.mp hat).1
      rwa [List.length_reverse, length_ancestry] at this
    obtain ⟨next', hmem, hparent, hget⟩ := exists_next hsub hshort
    have hheight := (get_chainTo.mp hget).2
    obtain rfl : next' = next := by
      rw [CChain.get, chainTo, List.getElem?_map, blocks, Option.elim_some, hat] at hget
      exact (Option.some.inj hget).symm
    rw [connectBlocks, hheaders, length_chainTo, if_pos hshort]
    simp only [hget]
    rcases hready : s.ready next' with _ | _
    · refine .stopped fun p hp ↦ ?_
      rw [List.find?_cons_of_pos (by simp [takes, hready])] at hp
      exact Option.some.inj hp ▸ hready
    rcases htakes : s.takes files next' with _ | _
    · have hfind : (next' :: path).find? (fun x ↦ !s.takes files x) = some next' :=
        List.find?_cons_of_pos (by simp [htakes])
      obtain ⟨hnone, hendless⟩ | ⟨hends, result, hresult, herror⟩ :=
        connectTip_of_not_takes hheaders hactive hparent hready htakes
      · rw [hnone]
        exact .endless hfind hready hendless
      · rw [hresult]
        rcases result with fault | ⟨_ | _, s'⟩
        · exact .failed hfind hready hends (by simp)
        · exact .failed hfind hready hends (by simp)
        · exact absurd rfl (herror s')
    · have hlength : (tree.chainTo (some next')).vChain.length =
          (tree.chainTo o).vChain.length + 1 := by
        rw [length_chainTo, hheight]
      have hrest := @ih { s with chainActive := tree.chainTo (some next') } (some next') n hheaders
        rfl (ancestry_subset hmem) (by rw [hlength, ← List.drop_drop, hpath, List.drop_one]; rfl)
        (by rw [List.length_cons] at hlt; omega)
      rw [hlength] at hrest
      simp only [connectTip_of_takes hactive hparent htakes]
      exact hrest.cons htakes

/-! ## The step -/

/-- The blocks that have to be disconnected, the tip first. -/
def offHeaders (s : HeaderState tree) : List ℕ :=
  (tree.blocks s.chainActive.tip).takeWhile fun p ↦ !tree.contains s.chainHeaders p

theorem unwind_fork (hheaders : s.chainHeaders = tree.chainTo (some tipH))
    (hactive : s.chainActive = tree.chainTo o)
    (hroot : ∀ tip, o = some tip → ∃ x ∈ tree.ancestry tip, x ∈ tree.ancestry tipH)
    (disconnects : ℕ → ℕ → Bool) :
    ∃ fork, tree.findFork s.chainHeaders s.chainActive.tip = fork ∧
      tree.blocks fork ⊆ tree.ancestry tipH ∧
      ∀ n t, s.unwind disconnects fork n t = (Loop.retry disconnects n t s.offHeaders).map fun _ ↦
        .ok { s with chainActive := tree.chainTo fork } := by
  have htip : s.chainActive.tip = o := by rw [hactive, tip_chainTo]
  rw [offHeaders, htip]
  rcases o with _ | tip
  · refine ⟨none, rfl, List.nil_subset _, fun n t ↦ ?_⟩
    exact (unwind_of_tip hactive n t).trans (by rw [blocks]; simp)
  · obtain ⟨x, hx, hxH⟩ := hroot tip rfl
    have hstop : tree.contains s.chainHeaders x = true := by
      rw [hheaders, contains_chainTo]
      exact hxH
    obtain ⟨f, hfind, happend⟩ := exists_ancestry_append ⟨x, hx, hstop⟩
    refine ⟨some f, (climb_some _ tip).trans hfind, ?_, fun n t ↦ unwind_eq happend hactive⟩
    have hf := List.find?_some hfind
    rw [hheaders, contains_chainTo] at hf
    exact ancestry_subset hf

/-- The blocks of the header chain above the fork, the lowest first. -/
def onHeaders (s : HeaderState tree) : List ℕ :=
  (tree.blocks s.chainHeaders.tip).reverse.drop
    (tree.chainTo (tree.findFork s.chainHeaders s.chainActive.tip)).vChain.length

/-- The first block that the second loop does not take. -/
def halt (files : StepFiles) (s : HeaderState tree) : Option ℕ :=
  s.onHeaders.find? fun x ↦ !s.takes files x

/-- How the loops end: as the second one does, once the blocks above the fork have been
disconnected. -/
theorem reorganize_eq (hheaders : s.chainHeaders = tree.chainTo (some tipH))
    (hactive : s.chainActive = tree.chainTo o)
    (hroot : ∀ tip, o = some tip → ∃ x ∈ tree.ancestry tip, x ∈ tree.ancestry tipH)
    (files : StepFiles) : ∃ ending, Ending files s s.onHeaders ending ∧ ∀ n,
      s.reorganize files n =
        if (Loop.retry files.disconnects n 0 s.offHeaders).isSome then ending else none := by
  obtain ⟨fork, hfork, hsub, hunwind⟩ := unwind_fork hheaders hactive hroot files.disconnects
  have hpath : (tree.ancestry tipH).reverse.drop (tree.chainTo fork).vChain.length =
      s.onHeaders := by
    rw [onHeaders, hfork, hheaders, tip_chainTo]
    rfl
  have hlength : s.onHeaders.length < s.chainHeaders.vChain.length + 1 := by
    rw [← hpath, hheaders, length_chainTo, List.length_drop, List.length_reverse, length_ancestry]
    omega
  have hending := @connectBlocks_ending tree files tipH _
    { s with chainActive := tree.chainTo fork } fork _ hheaders rfl hsub hpath hlength
  generalize hresult : connectBlocks files _ _ { s with chainActive := tree.chainTo fork } = ending
    at hending
  refine ⟨ending, ?_, fun n ↦ ?_⟩
  · cases hending with
    | stopped hstop => exact .stopped hstop
    | failed hp hready hends herror =>
      exact .failed hp hready (fun h ↦ hends ⟨h.reads, h.invalid, h.stuck⟩) herror
    | endless hp hready h => exact .endless hp hready ⟨h.reads, h.invalid, h.stuck⟩
  · rw [reorganize, hfork, hunwind]
    rcases Loop.retry files.disconnects n 0 s.offHeaders with _ | t
    · rfl
    · exact hresult

end HeaderState

end Cryptonite
