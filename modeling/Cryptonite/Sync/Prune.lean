import Cryptonite.Sync.Ready

/-!
# Pruning the slices

`TrieSync::Update` of `triesync.cpp` is to remove the slices that have become useless. The loop goes
over the multimap `slices`, and where a slice is of no use it is deleted and its key is erased.
Three things go wrong there. The key is that of the entry the loop stands on, so that the iterator
it then advances is no longer valid. Erasing a key erases all entries with it, of which only one has
been deleted. And the `continue` that should go on with the next entry belongs to the loop over the
blocks, so that a slice is deleted once for every block that is missing.

The first of these is undefined behaviour, and the second and the third are visible only if it is
harmless. The model therefore has a parameter for it: whether the increment of an iterator to an
erased entry still finds the next entry. Without it nothing can be removed, and with it only slices
that are alone at their block and are deleted once (`prunes_iff`).

What `Update` expects of a block is not what `CanSync` tests before a slice is asked for:
`getSlice_kept_iff` says which blocks make the difference.
-/

namespace Cryptonite

open HeaderTree

/-! ## The model -/

/-- How the loop of `Update` can fail. -/
inductive MemoryFault where
  /-- A null pointer is dereferenced. -/
  | nullDeref
  /-- `delete` of something that has been deleted. -/
  | doubleFree
  /-- `++` of an iterator to an erased entry. -/
  | invalidIterator
  deriving DecidableEq, Repr

/-- An entry of the multimap `slices`: a block, and the address of a slice. -/
structure Held where
  anchor : ℕ
  ptr : ℕ
  deriving DecidableEq, Repr

/-- The entries of `slices`. Every slice has been allocated for its entry. -/
structure Holdings where
  entries : List Held
  nodup : (entries.map Held.ptr).Nodup

/-- The state of the loop: the entries that are left, and what has been deleted. -/
structure Pruning where
  slices : List Held
  freed : List ℕ
  deriving DecidableEq, Repr

/-- `delete pair.second; slices.erase(pair.first)`. -/
def Pruning.drop (s : Pruning) (pair : Held) : Except MemoryFault Pruning :=
  if s.freed.contains pair.ptr then .error .doubleFree
  else .ok ⟨s.slices.filter fun h ↦ h.anchor ≠ pair.anchor, pair.ptr :: s.freed⟩

def Pruning.dropTimes (s : Pruning) (pair : Held) : ℕ → Except MemoryFault Pruning
  | 0 => .ok s
  | n + 1 => do
    let s ← s.drop pair
    s.dropTimes pair n

namespace SyncNode

variable (node : SyncNode)

/-- The block is in the header chain, and deep enough. -/
def buried (p : ℕ) : Bool :=
  node.tree.contains node.chainHeaders p &&
    decide (node.height - node.tree.nHeight p ≥ node.MIN_HISTORY.toNat)

/-- A round of the loop over the blocks from the anchor on. -/
def inspect (pair : Held) (s : Pruning) (i : ℕ) : Except MemoryFault Pruning :=
  match node.chainHeaders.get (node.tree.nHeight pair.anchor + i) with
  | none => .error .nullDeref
  -- the `continue` behind the two statements ends the round, not the loop
  | some pindex => if node.haveData pindex then .ok s else s.drop pair

/-- The body of the loop of `Update`. -/
def examine (pair : Held) (s : Pruning) : Except MemoryFault Pruning :=
  if node.buried pair.anchor then (List.range node.MIN_HISTORY.toNat).foldlM (node.inspect pair) s
  else s.drop pair

/-- The loop of `Update`, over the entries there were in the beginning; one that has been erased is
not come to. `tolerant` says whether the iterator to an erased entry can be incremented. -/
def pruneFrom (tolerant : Bool) : List Held → Pruning → Except MemoryFault Pruning
  | [], s => .ok s
  | pair :: rest, s =>
    if s.slices.contains pair then do
      let s ← node.examine pair s
      if tolerant || s.slices.contains pair then pruneFrom tolerant rest s
      else .error .invalidIterator
    else pruneFrom tolerant rest s

/-- `TrieSync::Update`, with what it releases. -/
def prune (tolerant : Bool) (held : Holdings) : Except MemoryFault Pruning :=
  node.pruneFrom tolerant held.entries ⟨held.entries, []⟩

/-- How often `Update` deletes a slice, if nothing stops it. -/
def removals (p : ℕ) : ℕ :=
  if node.buried p then (List.range node.MIN_HISTORY.toNat).countP fun i ↦
    !(node.chainHeaders.get (node.tree.nHeight p + i)).any node.haveData
  else 1

/-- What `Update` is for: the slices that are of use remain, and every other one has been released
once. -/
def Prunes (tolerant : Bool) (held : Holdings) : Prop :=
  ∃ s, node.prune tolerant held = .ok s ∧
    s.slices = held.entries.filter (fun h ↦ node.tenable h.anchor) ∧
    ∀ h ∈ held.entries, s.freed.count h.ptr = if node.tenable h.anchor then 0 else 1

/-! ## A round -/

variable {node} {tip : Option ℕ} {pair h : Held} {s s' : Pruning} {tolerant : Bool}

theorem tenable_eq (p : ℕ) : node.tenable p = (node.buried p &&
    (List.range node.MIN_HISTORY.toNat).all fun i ↦
      (node.chainHeaders.get (node.tree.nHeight p + i)).any node.haveData) := rfl

theorem tenable_eq_true_iff (p : ℕ) : node.tenable p = true ↔ node.removals p = 0 := by
  rw [tenable_eq, removals]
  cases node.buried p with
  | false => simp
  | true => simp [List.countP_eq_zero]

theorem exists_get_of_buried (hchain : node.chainHeaders = node.tree.chainTo tip) {p i : ℕ}
    (hburied : node.buried p = true) (hi : i < node.MIN_HISTORY.toNat) :
    ∃ x, node.chainHeaders.get (node.tree.nHeight p + i) = some x := by
  rw [buried, Bool.and_eq_true, decide_eq_true_iff, hchain, contains_chainTo,
    SyncView.height, hchain] at hburied
  rcases tip with _ | tip
  · exact absurd hburied.1 (by simp [blocks])
  · rw [length_chainTo] at hburied
    rw [hchain]
    exact exists_get_chainTo (by omega)

/-- What the loop over the blocks does to a slice: as many deletions as there are blocks missing. -/
theorem foldlM_inspect (l : List ℕ)
    (hl : ∀ i ∈ l, ∃ x, node.chainHeaders.get (node.tree.nHeight pair.anchor + i) = some x)
    (s : Pruning) : l.foldlM (node.inspect pair) s = s.dropTimes pair (l.countP fun i ↦
      !(node.chainHeaders.get (node.tree.nHeight pair.anchor + i)).any node.haveData) := by
  induction l generalizing s with
  | nil => rfl
  | cons i l ih =>
    rw [List.forall_mem_cons] at hl
    obtain ⟨x, hx⟩ := hl.1
    rw [List.foldlM_cons, List.countP_cons, inspect, hx]
    cases hdata : node.haveData x with
    | true => simpa [hdata, bind, Except.bind] using ih hl.2 s
    | false =>
      simp only [hdata, Option.any_some, Bool.not_false, if_true, Bool.false_eq_true, if_false,
        Pruning.dropTimes]
      exact congrArg (s.drop pair).bind (funext (ih hl.2))

theorem examine_eq (hchain : node.chainHeaders = node.tree.chainTo tip) (pair : Held)
    (s : Pruning) : node.examine pair s = s.dropTimes pair (node.removals pair.anchor) := by
  rw [examine, removals]
  split
  · next hburied =>
    exact foldlM_inspect _ (fun i hi ↦ exists_get_of_buried hchain hburied (List.mem_range.mp hi)) s
  · simp only [Pruning.dropTimes]
    exact (bind_pure (s.drop pair)).symm

/-! ## The loop -/

def without (s : Pruning) (pair : Held) : Pruning :=
  ⟨s.slices.filter fun h ↦ h.anchor ≠ pair.anchor, pair.ptr :: s.freed⟩

theorem mem_without : h ∈ (without s pair).slices ↔ h ∈ s.slices ∧ h.anchor ≠ pair.anchor := by
  rw [without, List.mem_filter, decide_eq_true_iff]

theorem drop_eq_ok_iff : s.drop pair = .ok s' ↔ pair.ptr ∉ s.freed ∧ s' = without s pair := by
  rw [Pruning.drop]
  split
  · next hfreed => exact iff_of_false (by simp) fun hs ↦ hs.1 (List.contains_iff_mem.mp hfreed)
  · next hfreed =>
    rw [List.contains_iff_mem] at hfreed
    rw [Except.ok.injEq, eq_comm, and_iff_right hfreed]
    rfl

theorem dropTimes_eq_ok_iff {n : ℕ} : s.dropTimes pair n = .ok s' ↔
    n = 0 ∧ s' = s ∨ n = 1 ∧ pair.ptr ∉ s.freed ∧ s' = without s pair := by
  rcases n with _ | n
  · simp [Pruning.dropTimes, eq_comm]
  · rw [Pruning.dropTimes, Except.bind_eq_ok_iff]
    simp only [drop_eq_ok_iff]
    constructor
    · rintro ⟨s₁, ⟨hfreed, rfl⟩, htimes⟩
      rcases n with _ | n
      · exact .inr ⟨rfl, hfreed, (Except.ok.inj htimes).symm⟩
      · rw [Pruning.dropTimes, Except.bind_eq_ok_iff] at htimes
        obtain ⟨s₂, hdrop, -⟩ := htimes
        exact absurd List.mem_cons_self (drop_eq_ok_iff.mp hdrop).1
    · rintro (⟨hn, -⟩ | ⟨hn, hfreed, rfl⟩)
      · exact absurd hn (Nat.succ_ne_zero n)
      · obtain rfl := Nat.succ.inj hn
        exact ⟨_, ⟨hfreed, rfl⟩, rfl⟩

/-- What a round of the loop can do: skip an entry that is gone, leave a slice that is of use, or
remove one. -/
theorem pruneFrom_cons_iff (hchain : node.chainHeaders = node.tree.chainTo tip)
    {rest : List Held} : node.pruneFrom tolerant (pair :: rest) s = .ok s' ↔
      (pair ∈ s.slices → node.removals pair.anchor = 0) ∧
        node.pruneFrom tolerant rest s = .ok s' ∨
      pair ∈ s.slices ∧ node.removals pair.anchor = 1 ∧ tolerant = true ∧ pair.ptr ∉ s.freed ∧
        node.pruneFrom tolerant rest (without s pair) = .ok s' := by
  rw [pruneFrom]
  split
  · next hmem =>
    rw [List.contains_iff_mem] at hmem
    rw [examine_eq hchain, Except.bind_eq_ok_iff]
    simp only [dropTimes_eq_ok_iff]
    constructor
    · rintro ⟨s₁, ⟨hzero, rfl⟩ | ⟨hone, hfreed, rfl⟩, hrest⟩
      · rw [if_pos (by simp [hmem])] at hrest
        exact .inl ⟨fun _ ↦ hzero, hrest⟩
      · have hgone : (without s pair).slices.contains pair = false := by
          rw [← Bool.not_eq_true, List.contains_iff_mem, mem_without]
          exact fun hs ↦ hs.2 rfl
        rw [hgone, Bool.or_false] at hrest
        cases tolerant with
        | false => exact absurd hrest (by simp)
        | true => exact .inr ⟨hmem, hone, rfl, hfreed, hrest⟩
    · rintro (⟨hzero, hrest⟩ | ⟨-, hone, rfl, hfreed, hrest⟩)
      · refine ⟨s, .inl ⟨hzero hmem, rfl⟩, ?_⟩
        rw [if_pos (by simp [hmem])]
        exact hrest
      · exact ⟨_, .inr ⟨hone, hfreed, rfl⟩, by rw [Bool.true_or, if_pos rfl]; exact hrest⟩
  · next hmem =>
    rw [List.contains_iff_mem] at hmem
    simp [hmem]

theorem count_freed_of_notMem (hchain : node.chainHeaders = node.tree.chainTo tip) :
    ∀ {rest : List Held} {s : Pruning}, node.pruneFrom tolerant rest s = .ok s' →
      (∀ h' ∈ rest, h'.ptr = h.ptr → h' = h) → h ∉ s.slices →
      s'.freed.count h.ptr = s.freed.count h.ptr := by
  intro rest
  induction rest with
  | nil =>
    intro s hrun _ _
    rw [Except.ok.inj hrun]
  | cons pair rest ih =>
    intro s hrun hptr hgone
    rw [List.forall_mem_cons] at hptr
    rcases (pruneFrom_cons_iff hchain).mp hrun with ⟨-, hrest⟩ | ⟨hmem, -, -, -, hrest⟩
    · exact ih hrest hptr.2 hgone
    · have hne : pair.ptr ≠ h.ptr := fun heq ↦ hgone (hptr.1 heq ▸ hmem)
      rw [ih hrest hptr.2 fun hs ↦ hgone (mem_without.mp hs).1, without, List.count_cons_of_ne hne]

/-- If every slice at a useless block is released, then there is one of them and it is deleted
once. -/
theorem alone_of_pruneFrom (hchain : node.chainHeaders = node.tree.chainTo tip) {a : ℕ}
    (huseless : node.removals a ≠ 0) : ∀ {rest : List Held} {s : Pruning},
    node.pruneFrom tolerant rest s = .ok s' → (rest.map Held.ptr).Nodup →
    (∀ h ∈ rest, h.ptr ∉ s.freed) → (∀ h ∈ rest, h.anchor = a → h ∈ s.slices) →
    (∀ h ∈ rest, h.anchor = a → s'.freed.count h.ptr = 1) →
    ∀ h ∈ rest, h.anchor = a → tolerant = true ∧ node.removals a = 1 ∧
      ∀ h' ∈ rest, h'.anchor = a → h' = h := by
  intro rest
  induction rest with
  | nil => exact fun _ _ _ _ _ h hh ↦ absurd hh List.not_mem_nil
  | cons pair rest ih =>
    intro s hrun hnodup hfresh hthere hcount
    rw [List.map_cons, List.nodup_cons] at hnodup
    rw [List.forall_mem_cons] at hfresh hthere hcount
    have hother : ∀ h ∈ rest, h.ptr ≠ pair.ptr :=
      fun h hh heq ↦ hnodup.1 (heq ▸ List.mem_map_of_mem hh)
    have hcases := (pruneFrom_cons_iff hchain).mp hrun
    by_cases hanchor : pair.anchor = a
    · -- the first slice at the block is deleted, and all others there are out of reach
      have hmem := hthere.1 hanchor
      obtain ⟨hzero, -⟩ | ⟨-, hone, htolerant, -, hrest⟩ := hcases
      · exact absurd (hanchor ▸ hzero hmem) huseless
      have hnone : ∀ h ∈ rest, h.anchor ≠ a := by
        intro h hh ha
        have hzero := count_freed_of_notMem hchain hrest
          (fun h' hh' heq ↦ List.inj_on_of_nodup_map hnodup.2 hh' hh heq)
          (fun hs ↦ (mem_without.mp hs).2 (ha.trans hanchor.symm))
        rw [hcount.2 h hh ha, without, List.count_cons_of_ne (hother h hh).symm,
          List.count_eq_zero_of_not_mem (hfresh.2 h hh)] at hzero
        exact absurd hzero one_ne_zero
      rw [hanchor] at hone
      have hpair : ∀ h ∈ pair :: rest, h.anchor = a → h = pair := by
        intro h hh ha
        rcases List.mem_cons.mp hh with rfl | hh
        · rfl
        · exact absurd ha (hnone h hh)
      exact fun h hh ha ↦ ⟨htolerant, hone,
        fun h' hh' ha' ↦ (hpair h' hh' ha').trans (hpair h hh ha).symm⟩
    · have hrest : ∀ h ∈ rest, h.anchor = a → tolerant = true ∧ node.removals a = 1 ∧
          ∀ h' ∈ rest, h'.anchor = a → h' = h := by
        obtain ⟨-, hrest⟩ | ⟨-, -, -, -, hrest⟩ := hcases
        · exact ih hrest hnodup.2 hfresh.2 hthere.2 hcount.2
        · refine ih hrest hnodup.2 (fun h hh hfreed ↦ ?_) (fun h hh ha ↦ ?_) hcount.2
          · rcases List.mem_cons.mp hfreed with heq | hfreed
            · exact hother h hh heq
            · exact hfresh.2 h hh hfreed
          · exact mem_without.mpr ⟨hthere.2 h hh ha, fun heq ↦ hanchor (heq.symm.trans ha)⟩
      intro h hh ha
      rcases List.mem_cons.mp hh with rfl | hh
      · exact absurd ha hanchor
      · obtain ⟨htolerant, hone, halone⟩ := hrest h hh ha
        refine ⟨htolerant, hone, fun h' hh' ha' ↦ ?_⟩
        rcases List.mem_cons.mp hh' with rfl | hh'
        · exact absurd ha' hanchor
        · exact halone h' hh' ha'

/-- If every useless slice is alone at its block and is deleted once, the loop removes what it
should. -/
theorem pruneFrom_eq_ok (hchain : node.chainHeaders = node.tree.chainTo tip) :
    ∀ {rest : List Held} {s : Pruning}, (rest.map Held.ptr).Nodup →
      (∀ h ∈ rest, h ∈ s.slices) → (∀ h ∈ rest, h.ptr ∉ s.freed) →
      (∀ h ∈ rest, node.removals h.anchor = 0 ∨ tolerant = true ∧ node.removals h.anchor = 1 ∧
        ∀ h' ∈ s.slices, h'.anchor = h.anchor → h' = h) →
      node.pruneFrom tolerant rest s = .ok
        ⟨s.slices.filter fun h ↦ node.tenable h.anchor || !rest.contains h,
          ((rest.filter fun h ↦ !node.tenable h.anchor).map Held.ptr).reverse ++ s.freed⟩ := by
  intro rest
  induction rest with
  | nil =>
    intro s _ _ _ _
    simp [pruneFrom]
  | cons pair rest ih =>
    intro s hnodup hthere hfresh halone
    rw [List.map_cons, List.nodup_cons] at hnodup
    rw [List.forall_mem_cons] at hthere hfresh halone
    have hother : ∀ h ∈ rest, h.ptr ≠ pair.ptr :=
      fun h hh heq ↦ hnodup.1 (heq ▸ List.mem_map_of_mem hh)
    rw [pruneFrom_cons_iff hchain]
    rcases halone.1 with hzero | ⟨htolerant, hone, hpair⟩
    · have htenable := (tenable_eq_true_iff _).mpr hzero
      refine .inl ⟨fun _ ↦ hzero, (ih hnodup.2 hthere.2 hfresh.2 halone.2).trans ?_⟩
      rw [List.filter_cons_of_neg (by simp [htenable])]
      refine congrArg (fun l ↦ Except.ok (Pruning.mk l _)) (List.filter_congr fun h _ ↦ ?_)
      by_cases hh : h = pair
      · rw [hh, htenable, Bool.true_or, Bool.true_or]
      · rw [List.contains_cons, beq_false_of_ne hh, Bool.false_or]
    · have htenable : node.tenable pair.anchor = false := by
        rw [← Bool.not_eq_true, tenable_eq_true_iff, hone]
        exact one_ne_zero
      have hleft : ∀ h ∈ rest, h ∈ (without s pair).slices := fun h hh ↦ mem_without.mpr
        ⟨hthere.2 h hh, fun heq ↦ hother h hh (congrArg Held.ptr (hpair h (hthere.2 h hh) heq))⟩
      refine .inr ⟨hthere.1, hone, htolerant, hfresh.1,
        (ih hnodup.2 hleft (fun h hh ↦ ?_) fun h hh ↦ ?_).trans ?_⟩
      · rw [without, List.mem_cons, not_or]
        exact ⟨hother h hh, hfresh.2 h hh⟩
      · exact (halone.2 h hh).imp_right fun ⟨htol, hrem, hsame⟩ ↦
          ⟨htol, hrem, fun h' hh' ↦ hsame h' (mem_without.mp hh').1⟩
      · rw [List.filter_cons_of_pos (by simp [htenable]), without, List.filter_filter,
          List.map_cons, List.reverse_cons, List.append_assoc, List.singleton_append]
        refine congrArg (fun l ↦ Except.ok (Pruning.mk l _)) (List.filter_congr fun h hh ↦ ?_)
        by_cases heq : h = pair
        · simp [heq, htenable]
        · have hne : h.anchor ≠ pair.anchor := fun ha ↦ heq (hpair h hh ha)
          simp [heq, hne]

/-- **Pruning.** `Update` leaves the slices that are of use and releases every other one once, iff
there is nothing to remove, or the loop survives the increment of an iterator to an erased entry and
every slice that is of no use is the only one at its block and lacks one block at most. -/
theorem prunes_iff (hchain : node.chainHeaders = node.tree.chainTo tip) (tolerant : Bool)
    (held : Holdings) : node.Prunes tolerant held ↔ ∀ h ∈ held.entries,
      node.tenable h.anchor = true ∨ tolerant = true ∧ node.removals h.anchor = 1 ∧
        ∀ h' ∈ held.entries, h'.anchor = h.anchor → h' = h := by
  constructor
  · rintro ⟨s, hrun, -, hcount⟩ h hh
    refine or_iff_not_imp_left.mpr fun huseless ↦ ?_
    refine alone_of_pruneFrom hchain (fun hzero ↦ huseless ((tenable_eq_true_iff _).mpr hzero)) hrun
      held.nodup (fun _ _ ↦ List.not_mem_nil) (fun _ hh' _ ↦ hh') (fun h' hh' ha ↦ ?_) h hh rfl
    rw [hcount h' hh', ha, if_neg huseless]
  · intro halone
    refine ⟨_, pruneFrom_eq_ok hchain held.nodup (fun _ hh ↦ hh) (fun _ _ ↦ List.not_mem_nil)
      fun h hh ↦ (halone h hh).imp_left (tenable_eq_true_iff _).mp, ?_, fun h hh ↦ ?_⟩
    · exact List.filter_congr fun h hh ↦ by simp [hh]
    · have hsub := (List.filter_sublist (p := fun h : Held ↦ !node.tenable h.anchor)
        (l := held.entries)).map Held.ptr
      rw [List.append_nil, List.count_reverse, (held.nodup.sublist hsub).count]
      cases htenable : node.tenable h.anchor with
      | false => exact if_pos (List.mem_map_of_mem (List.mem_filter.mpr ⟨hh, by simp [htenable]⟩))
      | true =>
        refine if_neg fun hmem ↦ ?_
        obtain ⟨h', hh', heq⟩ := List.mem_map.mp hmem
        rw [List.mem_filter] at hh'
        rw [List.inj_on_of_nodup_map held.nodup hh'.1 hh heq, htenable] at hh'
        exact absurd hh'.2 (by simp)

theorem pruneFrom_false_eq_ok_iff (hchain : node.chainHeaders = node.tree.chainTo tip) :
    ∀ {rest : List Held}, node.pruneFrom false rest s = .ok s' ↔
      (∀ h ∈ rest, h ∈ s.slices → node.tenable h.anchor = true) ∧ s' = s := by
  intro rest
  induction rest with
  | nil =>
    rw [pruneFrom, Except.ok.injEq, eq_comm]
    simp
  | cons pair rest ih =>
    rw [pruneFrom_cons_iff hchain, ih, List.forall_mem_cons, tenable_eq_true_iff]
    simp only [Bool.false_eq_true, false_and, and_false, or_false, and_assoc]

theorem pruneFrom_of_tenable (hchain : node.chainHeaders = node.tree.chainTo tip) (s : Pruning) :
    ∀ {rest : List Held}, (∀ h ∈ rest, node.tenable h.anchor = true) →
      node.pruneFrom tolerant rest s = .ok s := by
  intro rest
  induction rest with
  | nil => exact fun _ ↦ rfl
  | cons pair rest ih =>
    intro htenable
    rw [List.forall_mem_cons, tenable_eq_true_iff] at htenable
    exact (pruneFrom_cons_iff hchain).mpr (.inl ⟨fun _ ↦ htenable.1, ih htenable.2⟩)

theorem update_eq_of_prune (hchain : node.chainHeaders = node.tree.chainTo tip) {held : Holdings}
    (hprune : node.prune false held = .ok s) {contents : ℕ → Slice} {sync : TrieSync}
    (hslices : sync.slices = held.entries.map fun h ↦ (h.anchor, contents h.ptr))
    (erased : Exec (List (ℕ × Slice))) : node.update erased sync =
      .ok { sync with slices := s.slices.map fun h ↦ (h.anchor, contents h.ptr) } := by
  obtain ⟨htenable, rfl⟩ := (pruneFrom_false_eq_ok_iff hchain).mp hprune
  rw [update, hslices, if_pos]
  · rw [← hslices]
  · simpa [List.all_map] using fun h hh ↦ htenable h hh hh

/-! ## The anchors of `GetSlice` -/

/-- `Update` removes no slice at the block, as long as all other slices are of use. -/
def Keeps (node : SyncNode) (p : ℕ) : Prop :=
  ∀ tolerant (held : Holdings), (∀ h ∈ held.entries, h.anchor ≠ p → node.tenable h.anchor = true) →
    node.prune tolerant held = .ok ⟨held.entries, []⟩

theorem keeps_iff (hchain : node.chainHeaders = node.tree.chainTo tip) {p : ℕ} :
    node.Keeps p ↔ node.tenable p = true := by
  constructor
  · intro hkeeps
    have hprune := hkeeps false ⟨[⟨p, 0⟩], List.nodup_singleton 0⟩
      fun h hh hne ↦ absurd (congrArg Held.anchor (List.mem_singleton.mp hh)) hne
    exact ((pruneFrom_false_eq_ok_iff hchain).mp hprune).1 ⟨p, 0⟩ List.mem_cons_self
      List.mem_cons_self
  · intro htenable tolerant held hothers
    refine pruneFrom_of_tenable hchain _ fun h hh ↦ ?_
    by_cases hp : h.anchor = p
    · rw [hp]
      exact htenable
    · exact hothers h hh hp

/-- The blocks `GetSyncPoint` passes have their data, but for those within five of the tip. -/
theorem haveData_of_syncWalk {q : ℕ} : ∀ {l : List ℕ} {count i : ℕ},
    node.MIN_HISTORY.toNat ≤ (node.syncWalk l count).2 → l[i]? = some q →
    count + i < node.MIN_HISTORY.toNat →
    node.haveData q = true ∨ node.height ≤ (node.tree.nHeight q : ℤ) + 5 := by
  intro l
  induction l with
  | nil => exact fun _ hq ↦ absurd hq (by simp)
  | cons p l ih =>
    intro count i hcount hq hi
    rw [syncWalk] at hcount
    split at hcount
    · exact absurd hcount (by omega)
    · next hpass =>
      split at hcount
      · omega
      · rcases i with _ | i
        · obtain rfl := Option.some.inj hq
          rcases hdata : node.haveData p with _ | _
          · exact .inr (not_lt.mp fun hlt ↦ hpass ⟨by simp [hdata], hlt⟩)
          · exact .inl rfl
        · exact ih hcount hq (by omega)

section Anchor

variable {tip p q : ℕ}

theorem height_eq (hchain : node.chainHeaders = node.tree.chainTo (some tip)) :
    node.height = node.tree.nHeight tip := by
  rw [SyncView.height, hchain, length_chainTo]
  omega

theorem haveData_of_canSync (hchain : node.chainHeaders = node.tree.chainTo (some tip))
    (hsync : node.canSync = true) (hq : q ∈ node.tree.ancestry tip)
    (hrecent : node.tree.nHeight tip < node.tree.nHeight q + node.MIN_HISTORY.toNat) :
    node.haveData q = true ∨ node.tree.nHeight tip ≤ node.tree.nHeight q + 5 := by
  have hle := nHeight_le hq
  have hat := (getElem?_reverse_ancestry node.tree tip _).mpr ⟨hq, rfl⟩
  rw [List.getElem?_reverse (by rw [length_ancestry]; omega),
    length_ancestry, Nat.add_sub_cancel] at hat
  rw [canSync, getSyncPoint] at hsync
  split at hsync
  · cases hsync
  · dsimp only at hsync
    split at hsync
    · next hcount =>
      rw [hchain, tip_chainTo] at hcount
      have hdata := haveData_of_syncWalk hcount hat (by omega)
      rw [height_eq hchain] at hdata
      exact hdata.imp_right fun h ↦ by omega
    · cases hsync

theorem tenable_anchor_iff (hchain : node.chainHeaders = node.tree.chainTo (some tip))
    (hp : p ∈ node.tree.ancestry tip)
    (hheight : node.tree.nHeight p + node.MIN_HISTORY.toNat = node.tree.nHeight tip) :
    node.tenable p = true ↔ ∀ q ∈ node.tree.ancestry tip,
      node.tree.nHeight p ≤ node.tree.nHeight q → q ≠ tip → node.haveData q = true := by
  have hburied : node.buried p = true := by
    rw [buried, hchain, contains_chainTo.mpr hp, Bool.true_and, decide_eq_true_iff,
      height_eq hchain]
    omega
  rw [tenable_eq, hburied, Bool.true_and, List.all_eq_true]
  simp only [List.mem_range]
  constructor
  · intro hall q hq hle hne
    have hlt : node.tree.nHeight q < node.tree.nHeight tip :=
      lt_of_le_of_ne (nHeight_le hq) fun heq ↦
        hne (eq_of_nHeight_eq hq (self_mem_ancestry _ _) heq)
    have hget : node.chainHeaders.get (node.tree.nHeight q) = some q := by
      rw [hchain]
      exact get_chainTo.mpr ⟨hq, rfl⟩
    have hdata := hall (node.tree.nHeight q - node.tree.nHeight p) (by omega)
    rwa [Nat.add_sub_cancel' hle, hget, Option.any_some] at hdata
  · intro hall i hi
    obtain ⟨q, hget⟩ := exists_get_of_buried hchain hburied hi
    have hq := hget
    rw [hchain, get_chainTo] at hq
    rw [hget, Option.any_some]
    refine hall q hq.1 (by omega) ?_
    rintro rfl
    omega

/-- **Usable anchors.** Let `CanSync` be true and `GetSlice` ask for a slice at block `p`. Then
`Update` keeps the slices at `p` iff the node has the data of `p`, and of the blocks behind it that
are at most five below the tip, the tip apart. -/
theorem getSlice_kept_iff (hchain : node.chainHeaders = node.tree.chainTo (some tip))
    (hsync : node.canSync = true) {atEnd : Exec Interval} {sync : SliceSync} {id : ℕ}
    {slice : Slice}
    (hget : node.toSyncView.getSlice atEnd sync id = .ok (slice, sync.request p slice)) :
    node.Keeps p ↔ ∀ q ∈ node.tree.ancestry tip, node.tree.nHeight p ≤ node.tree.nHeight q →
      q ≠ tip → q = p ∨ node.tree.nHeight tip ≤ node.tree.nHeight q + 5 →
      node.haveData q = true := by
  obtain ⟨hlong, hp⟩ := anchor_of_getSlice hget
  rw [height_eq hchain] at hlong hp
  rw [hchain, get_chainTo] at hp
  have hheight : node.tree.nHeight p + node.MIN_HISTORY.toNat = node.tree.nHeight tip := by omega
  rw [keeps_iff hchain, tenable_anchor_iff hchain hp.1 hheight]
  refine ⟨fun hall q hq hle hne _ ↦ hall q hq hle hne, fun hall q hq hle hne ↦ ?_⟩
  by_cases hqp : q = p
  · exact hall q hq hle hne (.inl hqp)
  · -- a block above the anchor is one that `CanSync` has looked at
    have hlt : node.tree.nHeight p < node.tree.nHeight q :=
      lt_of_le_of_ne hle fun heq ↦ hqp (eq_of_nHeight_eq hq hp.1 heq.symm)
    rcases haveData_of_canSync hchain hsync hq (by omega) with hdata | hnear
    · exact hdata
    · exact hall q hq hle hne (.inr hnear)

end Anchor

/-! ## Instances -/

def longChain : SyncView :=
  { twoHeaders with chainHeaders := twoHeaders.tree.chainTo (some 1001), MIN_HISTORY := 1000 }

def lacking (missing : List ℕ) : SyncNode :=
  { longChain with haveData := fun p ↦ !missing.contains p, busy := false }

theorem chainHeaders_lacking (missing : List ℕ) :
    (lacking missing).chainHeaders = (lacking missing).tree.chainTo (some 1001) := rfl

def oneSlice (p : ℕ) : Holdings := ⟨[⟨p, 0⟩], List.nodup_singleton 0⟩

def twoSlices (p : ℕ) : Holdings := ⟨[⟨p, 0⟩, ⟨p, 1⟩], by simp⟩

/-- Nothing is removed if nothing has to be. -/
theorem prunes_twoBlocks : twoBlocks.Prunes false (oneSlice 0) := by
  refine (@prunes_iff twoBlocks (some 1) rfl false (oneSlice 0)).mpr fun h hh ↦ .inl ?_
  rw [List.mem_singleton.mp hh]
  decide +kernel

/-- With two blocks missing a slice is deleted twice. Of two slices at a block that is not in the
chain only one is deleted, if the loop gets any further, and both are erased. -/
theorem slices_released_wrongly :
    ((lacking [5, 6]).tenable 1 = false ∧
      ∀ tolerant, (lacking [5, 6]).prune tolerant (oneSlice 1) = .error .doubleFree) ∧
    (lacking []).tenable 2000 = false ∧
      (lacking []).prune false (twoSlices 2000) = .error .invalidIterator ∧
      (lacking []).prune true (twoSlices 2000) = .ok ⟨[], [0]⟩ := by
  decide +kernel

theorem exists_getSlice_longChain : ∃ slice,
    longChain.getSlice (.error .nullDeref) (holding [(20, 30)]) 7 =
      .ok (slice, (holding [(20, 30)]).request 1 slice) := by
  obtain ⟨slice, p, hget, -⟩ := @exists_getSlice longChain (holding [(20, 30)]) 1001 rfl
    (by decide) 7 (by decide) (by decide) (.error .nullDeref) ⟨20, 30⟩ (by decide +kernel)
    (by decide) 0 19 (by decide +kernel) (by decide)
  obtain ⟨-, hp⟩ := anchor_of_getSlice hget
  obtain rfl : 1 = p := Option.some.inj (Eq.trans (by decide +kernel) hp)
  exact ⟨slice, hget⟩

/-- A slice that is asked for while no block is missing is kept. -/
theorem getSlice_kept_complete : (lacking []).Keeps 1 := by
  obtain ⟨slice, hget⟩ := exists_getSlice_longChain
  have hsync : (lacking []).canSync = true := by decide +kernel
  refine (getSlice_kept_iff (chainHeaders_lacking []) hsync hget).mpr fun q _ _ _ _ ↦ ?_
  simp [lacking]

/-- `CanSync` is true if the anchor is missing, or the block below the tip, and a slice is asked for
that `Update` does not keep. -/
theorem asked_for_and_discarded :
    ((lacking [1]).canSync = true ∧
      (∃ slice, (lacking [1]).toSyncView.getSlice (.error .nullDeref) (holding [(20, 30)]) 7 =
        .ok (slice, (holding [(20, 30)]).request 1 slice)) ∧ ¬(lacking [1]).Keeps 1) ∧
    ((lacking [1000]).canSync = true ∧
      (∃ slice, (lacking [1000]).toSyncView.getSlice (.error .nullDeref) (holding [(20, 30)]) 7 =
        .ok (slice, (holding [(20, 30)]).request 1 slice)) ∧ ¬(lacking [1000]).Keeps 1) := by
  have hancestry : ∀ q ≤ 1001, q ∈ longChain.tree.ancestry 1001 := by
    intro q hq
    obtain ⟨x, hx⟩ := @HeaderTree.exists_get_chainTo longChain.tree q 1001 hq
    obtain ⟨hmem, rfl⟩ := get_chainTo.mp hx
    exact hmem
  have hdiscarded : ∀ missing, ∀ q ∈ missing, 1 ≤ q → q ≤ 1000 → ¬(lacking missing).Keeps 1 := by
    intro missing q hq hlow hhigh hkeeps
    rw [keeps_iff (chainHeaders_lacking missing),
      tenable_anchor_iff (chainHeaders_lacking missing) (hancestry 1 (by omega)) rfl] at hkeeps
    have hdata := hkeeps q (hancestry q (by omega)) hlow (by omega)
    simp [lacking, hq] at hdata
  refine ⟨⟨by decide +kernel, exists_getSlice_longChain, ?_⟩,
    by decide +kernel, exists_getSlice_longChain, ?_⟩
  · exact hdiscarded [1] 1 List.mem_cons_self le_rfl (by omega)
  · exact hdiscarded [1000] 1000 List.mem_cons_self (by omega) le_rfl

end SyncNode

end Cryptonite
