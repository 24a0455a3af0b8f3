import Mathlib.Data.BitVec
import Cryptonite.Chain.BlockIndex

/-!
# Loading the block index

The parent of an entry has to be linked before the entry, and it is: the queue of `LinkOrphans` is a
case of draining a multimap (`IndexState.linkLoop_eq`), where each entry is met once and after its
parent. Since what one entry gets does not change when another one is linked, it stays as it was
computed from the parent (`IndexState.Placed`), and at the end it is determined by the tree alone
(`IndexState.linkOrphans_links`). The multimap's order and the order in which the entries came are
nowhere to be seen in it.
-/

namespace Cryptonite

open Ancestry Multimap IndexEntry

namespace IndexState

/-! ## The queue -/

/-- The entries that are linked when they come up in the queue; their children are next. -/
def expand (setup : LinkSetup) (e : UInt256 × UInt256) : Option UInt256 :=
  if e.1 = 0 ∧ e.2 ≠ setup.hashGenesisBlock then none else some e.2

/-- What the loop of `LinkOrphans` does with the entries that come up. -/
def linkStep (setup : LinkSetup) (s : IndexState) (e : UInt256 × UInt256) : IndexState :=
  let s := { s with mapOrphanBlocksByPrev := s.mapOrphanBlocksByPrev.erase e }
  (expand setup e).elim s fun pindex ↦ s.linkOne setup e.1 pindex

section Queue

variable {setup : LinkSetup} {s : IndexState} {e : UInt256 × UInt256} {p q : UInt256}

theorem expand_eq_some_iff : expand setup e = some p ↔
    p = e.2 ∧ (e.1 = 0 → e.2 = setup.hashGenesisBlock) := by
  rw [expand]
  split_ifs with h
  · simp [h]
  · simp only [Option.some_inj, eq_comm, iff_self_and]
    exact fun _ hzero ↦ not_not.mp fun hne ↦ h ⟨hzero, fun heq ↦ hne heq.symm⟩

/-- The loop goes through the entries as they come out of the multimap. -/
theorem linkLoop_eq {n : ℕ} : ∀ {s : IndexState} {vTodo : List (UInt256 × UInt256)}
    {fWorkDone : Bool}, Ready (expand setup) s.mapOrphanBlocksByPrev vTodo →
    s.mapOrphanBlocksByPrev.elems.length ≤ n →
    ∃ fWorkDone', linkLoop setup n s vTodo fWorkDone = some (fWorkDone',
      (drain (expand setup) n s.mapOrphanBlocksByPrev vTodo).foldl (linkStep setup) s) := by
  induction n with
  | zero =>
    intro s vTodo fWorkDone h hn
    have hnil : s.mapOrphanBlocksByPrev.elems = [] :=
      List.eq_nil_of_length_eq_zero (Nat.le_zero.mp hn)
    have htodo : vTodo = [] := List.subset_nil.mp (hnil ▸ h.todo_subset)
    subst htodo
    exact ⟨fWorkDone, rfl⟩
  | succ n ih =>
    intro s vTodo fWorkDone h hn
    rcases vTodo with _ | ⟨⟨hashPrev, pindex⟩, vTodo⟩
    · exact ⟨fWorkDone, rfl⟩
    · set s₁ := { s with
        mapOrphanBlocksByPrev := s.mapOrphanBlocksByPrev.erase (hashPrev, pindex) } with hs₁
      have hstep := h.step
      have hlength : (s.mapOrphanBlocksByPrev.erase (hashPrev, pindex)).elems.length ≤ n := by
        have herase : (s.mapOrphanBlocksByPrev.erase (hashPrev, pindex)).elems.length
            = s.mapOrphanBlocksByPrev.elems.length - 1 :=
          List.length_erase_of_mem (h.todo_subset List.mem_cons_self)
        omega
      rw [linkLoop, drain, List.foldl_cons, linkStep]
      by_cases hskip : hashPrev = 0 ∧ pindex ≠ setup.hashGenesisBlock
      · have hexpand : expand setup (hashPrev, pindex) = none := if_pos hskip
        rw [hexpand, Option.elim_none, List.append_nil] at hstep
        rw [if_pos hskip, hexpand, Option.elim_none, Option.elim_none, List.append_nil]
        exact ih hstep hlength
      · have hexpand : expand setup (hashPrev, pindex) = some pindex := if_neg hskip
        have horphans := orphans_linkOne setup s₁ hashPrev pindex
        rw [hexpand, Option.elim_some] at hstep
        rw [if_neg hskip, hexpand, Option.elim_some, Option.elim_some]
        have hnext := @ih (s₁.linkOne setup hashPrev pindex)
          (vTodo ++ s₁.mapOrphanBlocksByPrev.equalRange pindex) true
        rw [horphans] at hnext
        obtain ⟨fWorkDone', hloop⟩ := hnext hstep hlength
        refine ⟨fWorkDone', Eq.trans ?_ hloop⟩
        exact congrArg (fun m ↦ linkLoop setup n (s₁.linkOne setup hashPrev pindex)
          (vTodo ++ equalRange m pindex) true) horphans

end Queue

/-! ## What the entries get -/

/-- An entry is in its place: it has its parent, and what it gets is a matter of its chain and of
what the entries of the chain had before. -/
structure Placed (setup : LinkSetup) (s₀ s : IndexState) (e : UInt256 × UInt256)
    (l : List UInt256) : Prop where
  pprev : s.pprev e.2 = if e.1 = 0 then none else some e.1
  line : Line s.pprev e.2 l
  root : l.getLast? = some setup.hashGenesisBlock
  nChainWork : (s.entry e.2).nChainWork = (l.map (setup.getBlockWork s.pprev)).sum
  failed_iff : (s.entry e.2).failed = true ↔
    ∃ x ∈ l, x ≠ setup.hashGenesisBlock ∧ (s₀.entry x).failed = true
  validTree_iff : (s.entry e.2).validTree = true ↔
    e.2 = setup.hashGenesisBlock ∨ (s₀.entry e.2).validTree = true

section Placed

variable {setup : LinkSetup} {s₀ s s' : IndexState} {e : UInt256 × UInt256} {p q : UInt256}
  {l : List UInt256}

theorem map_getBlockWork {pprev pprev' : UInt256 → Option UInt256} (h : Line pprev p l)
    (hpprev : ∀ x ∈ l, pprev' x = pprev x) :
    l.map (setup.getBlockWork pprev') = l.map (setup.getBlockWork pprev) := by
  refine List.map_congr_left fun x hx ↦ ?_
  obtain ⟨pre, t, rfl, ht⟩ := h.of_mem hx
  exact setup.getBlockWork_line (ht.congr fun y hy ↦ hpprev y (List.mem_append_right pre hy)) ht

theorem Placed.touches (h : Placed setup s₀ s e l) (htouches : Touches q s s') (hq : q ∉ l) :
    Placed setup s₀ s' e l := by
  have hne : ∀ x ∈ l, x ≠ q := fun x hx heq ↦ hq (heq ▸ hx)
  have hpprev : ∀ x ∈ l, s'.pprev x = s.pprev x := by
    intro x hx
    rw [IndexState.pprev, htouches.entry x (hne x hx), ← IndexState.pprev]
  have he : e.2 ∈ l := by
    obtain ⟨t, rfl⟩ := h.line.exists_cons
    exact List.mem_cons_self
  have hentry := htouches.entry e.2 (hne e.2 he)
  refine ⟨(hpprev e.2 he).trans h.pprev, h.line.congr hpprev, h.root, ?_, ?_, ?_⟩
  · rw [hentry, h.nChainWork, map_getBlockWork h.line hpprev]
  · rw [hentry, h.failed_iff]
  · rw [hentry, h.validTree_iff]

theorem failed_of_genesis (n : UInt32) :
    (((n &&& ~~~BLOCK_VALID_MASK) ||| BLOCK_VALID_TRANSACTIONS) &&& ~~~BLOCK_FAILED_MASK) &&&
      BLOCK_FAILED_MASK = 0 := by
  rw [UInt32.and_assoc, show ~~~BLOCK_FAILED_MASK &&& BLOCK_FAILED_MASK = 0 by decide,
    UInt32.and_zero]

theorem valid_of_genesis (n : UInt32) :
    (((n &&& ~~~BLOCK_VALID_MASK) ||| BLOCK_VALID_TRANSACTIONS) &&& ~~~BLOCK_FAILED_MASK) &&&
      BLOCK_VALID_MASK = BLOCK_VALID_TRANSACTIONS := by
  rw [UInt32.and_assoc, show ~~~BLOCK_FAILED_MASK &&& BLOCK_VALID_MASK = BLOCK_VALID_MASK by decide,
    status_or_and, UInt32.and_assoc, show ~~~BLOCK_VALID_MASK &&& BLOCK_VALID_MASK = 0 by decide,
    UInt32.and_zero, UInt32.zero_or]
  decide

theorem GenesisLinked.placed (h : GenesisLinked setup s s' setup.hashGenesisBlock)
    (hroot : (s.entry setup.hashGenesisBlock).pprev = none) :
    Placed setup s₀ s' (0, setup.hashGenesisBlock) [setup.hashGenesisBlock] := by
  have hpprev : s'.pprev setup.hashGenesisBlock = none := h.pprev.trans hroot
  refine ⟨hpprev, .root hpprev, rfl, ?_, ?_, ?_⟩
  · rw [h.nChainWork, List.map_singleton, List.sum_singleton]
  · rw [failed, h.nStatus, failed_of_genesis]
    simp
  · rw [validTree, h.nStatus, valid_of_genesis]
    exact iff_of_true (by decide) (.inl rfl)

theorem ChildLinked.placed {e' : UInt256 × UInt256} (h : ChildLinked setup s s' e.1 e.2)
    (hparent : Placed setup s₀ s' e' l) (he' : e'.2 = e.1) (hzero : e.1 ≠ 0)
    (hgenesis : e.2 ≠ setup.hashGenesisBlock) (hentry : s.entry e.2 = s₀.entry e.2) :
    Placed setup s₀ s' e (e.2 :: l) := by
  have hline : Line s'.pprev e.2 (e.2 :: l) := .step h.pprev (he' ▸ hparent.line)
  refine ⟨?_, hline, ?_, ?_, ?_, ?_⟩
  · rw [if_neg hzero]
    exact h.pprev
  · rw [List.getLast?_cons, hparent.root]
    rfl
  · rw [h.nChainWork, ← he', hparent.nChainWork, List.map_cons, List.sum_cons, BitVec.add_comm]
  · rw [List.exists_mem_cons_iff, ← hparent.failed_iff, he', and_iff_right hgenesis,
      failed, h.nStatus, status_or_and, ← hentry]
    rcases hfailed : (s'.entry e.1).failed with _ | _
    · simp [failed]
    · simp [show BLOCK_FAILED_CHILD &&& BLOCK_FAILED_MASK ≠ 0 by decide]
  · have hmask : (if (s'.entry e.1).failed then BLOCK_FAILED_CHILD else 0) &&& BLOCK_VALID_MASK
        = 0 := by
      split_ifs <;> decide
    rw [or_iff_right hgenesis, validTree, h.nStatus, status_or_and, hmask,
      UInt32.or_zero, hentry]
    rfl

end Placed

/-! ## The run -/

/-- An entry has been linked. -/
def Done (setup : LinkSetup) (pre : List (UInt256 × UInt256)) (p : UInt256) : Prop :=
  ∃ e ∈ pre, expand setup e = some p

/-- What holds when the entries `pre` have come up in the queue. -/
structure Progress (setup : LinkSetup) (s₀ : IndexState) (pre : List (UInt256 × UInt256))
    (s : IndexState) : Prop where
  isSome : ∀ q, (s.mapBlockIndex q).isSome = (s₀.mapBlockIndex q).isSome
  rest : ∀ q, ¬Done setup pre q → s.entry q = s₀.entry q
  placed : ∀ e ∈ pre, expand setup e = some e.2 →
    ∃ l, Placed setup s₀ s e l ∧ ∀ x ∈ l, Done setup pre x
  mem_iff : ∀ q, q ∈ s.setBlockIndexValid ↔
    Done setup pre q ∧ (s.entry q).failed = false ∧ (s.entry q).validTree = true
  genesis : ∀ q, s.pindexGenesisBlock = some q ↔ ∃ e ∈ pre, e.1 = 0 ∧ expand setup e = some q

section Progress

variable {setup : LinkSetup} {s₀ s s' : IndexState} {pre : List (UInt256 × UInt256)}
  {e : UInt256 × UInt256} {p q : UInt256}

theorem done_concat : Done setup (pre ++ [e]) q ↔ Done setup pre q ∨ expand setup e = some q := by
  simp only [Done, List.mem_append, List.mem_singleton, or_and_right, exists_or, exists_eq_left]

theorem expand_self (h : expand setup e = some p) : p = e.2 := (expand_eq_some_iff.mp h).1

theorem Progress.orphans (h : Progress setup s₀ pre s) (m : Multimap UInt256 UInt256) :
    Progress setup s₀ pre { s with mapOrphanBlocksByPrev := m } where
  isSome := h.isSome
  rest := h.rest
  placed e he hexpand := by
    obtain ⟨l, hl, hmem⟩ := h.placed e he hexpand
    exact ⟨l, ⟨hl.pprev, hl.line, hl.root, hl.nChainWork, hl.failed_iff, hl.validTree_iff⟩, hmem⟩
  mem_iff := h.mem_iff
  genesis := h.genesis

theorem Progress.skip (h : Progress setup s₀ pre s) (he : expand setup e = none) :
    Progress setup s₀ (pre ++ [e]) s := by
  have hdone : ∀ q, Done setup (pre ++ [e]) q ↔ Done setup pre q := by
    intro q
    rw [done_concat, he, or_iff_left (Option.some_ne_none q).symm]
  have hmem : ∀ e' ∈ pre ++ [e], ∀ q, expand setup e' = some q → e' ∈ pre := by
    intro e' he' q hexpand
    rcases List.mem_append.mp he' with he' | he'
    · exact he'
    · rw [List.mem_singleton.mp he', he] at hexpand
      exact absurd hexpand (Option.some_ne_none q).symm
  refine ⟨h.isSome, fun q hq ↦ h.rest q (mt (hdone q).mpr hq), fun e' he' hexpand ↦ ?_,
    fun q ↦ ?_, fun q ↦ (h.genesis q).trans ⟨?_, ?_⟩⟩
  · obtain ⟨l, hl, hdone'⟩ := h.placed e' (hmem e' he' _ hexpand) hexpand
    exact ⟨l, hl, fun x hx ↦ (hdone x).mpr (hdone' x hx)⟩
  · rw [hdone]
    exact h.mem_iff q
  · rintro ⟨e', he', h'⟩
    exact ⟨e', List.mem_append_left _ he', h'⟩
  · rintro ⟨e', he', hzero, hexpand⟩
    exact ⟨e', hmem e' he' q hexpand, hzero, hexpand⟩

theorem Progress.snoc {s₁ : IndexState} (h : Progress setup s₀ pre s)
    (he : expand setup e = some e.2) (hnew : ¬Done setup pre e.2) (htouches : Touches e.2 s s₁)
    (hset : s₁.setBlockIndexValid = s.setBlockIndexValid)
    (hgenesis : s₁.pindexGenesisBlock = if e.1 = 0 then some e.2 else s.pindexGenesisBlock)
    (hoffered : Offered e.2 s₁ s')
    (hplaced : ∃ l, Placed setup s₀ s' e l ∧ ∀ x ∈ l, x = e.2 ∨ Done setup pre x) :
    Progress setup s₀ (pre ++ [e]) s' := by
  have htouches' := htouches.trans hoffered.toTouches
  have hdone : ∀ q, Done setup (pre ++ [e]) q ↔ q = e.2 ∨ Done setup pre q := by
    intro q
    rw [done_concat, he, Option.some_inj, or_comm, eq_comm]
  have hne : ∀ q, Done setup pre q → q ≠ e.2 := fun q hq heq ↦ hnew (heq ▸ hq)
  refine ⟨fun q ↦ (htouches'.isSome q).trans (h.isSome q), fun q hq ↦ ?_, fun e' he' hexpand ↦ ?_,
    fun q ↦ ?_, fun q ↦ ?_⟩
  · rw [hdone, not_or] at hq
    rw [htouches'.entry q hq.1, h.rest q hq.2]
  · rcases List.mem_append.mp he' with he' | he'
    · obtain ⟨l, hl, hmem⟩ := h.placed e' he' hexpand
      exact ⟨l, hl.touches htouches' fun hl' ↦ hnew (hmem _ hl'),
        fun x hx ↦ (hdone x).mpr (.inr (hmem x hx))⟩
    · obtain ⟨l, hl, hmem⟩ := hplaced
      rw [List.mem_singleton.mp he']
      exact ⟨l, hl, fun x hx ↦ (hdone x).mpr (hmem x hx)⟩
  · rw [hoffered.mem_iff, hset, h.mem_iff, hdone]
    by_cases hq : q = e.2
    · -- it was not a candidate before
      subst hq
      rw [or_iff_right fun hq ↦ hnew hq.1, failed, validTree, ← hoffered.nStatus]
      simp [failed, validTree]
    · rw [or_iff_left fun h ↦ hq h.1, or_iff_right hq, htouches'.entry q hq]
  · rw [hoffered.genesis, hgenesis]
    by_cases hzero : e.1 = 0
    · rw [if_pos hzero, Option.some_inj]
      refine ⟨fun hq ↦ ⟨e, by simp, hzero, hq ▸ he⟩, ?_⟩
      rintro ⟨e', -, hzero', hexpand⟩
      -- only the genesis block is linked without a parent
      obtain ⟨rfl, hgenesis'⟩ := expand_eq_some_iff.mp hexpand
      rw [hgenesis' hzero', (expand_eq_some_iff.mp he).2 hzero]
    · rw [if_neg hzero, h.genesis]
      refine ⟨fun ⟨e', he', h'⟩ ↦ ⟨e', List.mem_append_left _ he', h'⟩, ?_⟩
      rintro ⟨e', he', hzero', hexpand⟩
      rcases List.mem_append.mp he' with he' | he'
      · exact ⟨e', he', hzero', hexpand⟩
      · rw [List.mem_singleton.mp he'] at hzero'
        exact absurd hzero' hzero

theorem Progress.step (h : Progress setup s₀ pre s) (hsome : (s₀.mapBlockIndex e.2).isSome)
    (hnew : ∀ e' ∈ pre, e'.2 ≠ e.2) (hroot : (s₀.entry e.2).pprev = none)
    (hgenesis : e.2 = setup.hashGenesisBlock → e.1 = 0)
    (hparent : e.1 = 0 ∨ ∃ e' ∈ pre, expand setup e' = some e.1) :
    Progress setup s₀ (pre ++ [e]) (linkStep setup s e) := by
  replace h := h.orphans (s.mapOrphanBlocksByPrev.erase e)
  rw [linkStep]
  generalize { s with mapOrphanBlocksByPrev := s.mapOrphanBlocksByPrev.erase e } = s at h
  rcases hexpand : expand setup e with _ | p
  · exact h.skip hexpand
  obtain rfl := expand_self hexpand
  have hnotDone : ¬Done setup pre e.2 := by
    rintro ⟨e', he', hexpand'⟩
    exact hnew e' he' (expand_self hexpand').symm
  have hentry := h.rest e.2 hnotDone
  have hsome' := (h.isSome e.2).trans hsome
  have hset : e.2 ∉ s.setBlockIndexValid := fun hmem ↦ hnotDone ((h.mem_iff e.2).mp hmem).1
  rw [Option.elim_some]
  by_cases hzero : e.1 = 0
  · have heq : e = (0, setup.hashGenesisBlock) :=
      Prod.ext hzero ((expand_eq_some_iff.mp hexpand).2 hzero)
    subst heq
    obtain ⟨s₁, hlinked, htouches, hset', hgenesis', hoffered⟩ :=
      @linkOne_genesis setup s setup.hashGenesisBlock hsome' hset
    refine h.snoc hexpand hnotDone htouches hset' hgenesis' hoffered
      ⟨[setup.hashGenesisBlock], ?_, fun x hx ↦ .inl (List.mem_singleton.mp hx)⟩
    exact (hlinked.offered hoffered).placed (by rw [hentry, hroot])
  · obtain ⟨e', he', hexpand'⟩ := hparent.resolve_left hzero
    have he'eq := expand_self hexpand'
    have hne : e.1 ≠ e.2 := he'eq ▸ hnew e' he'
    obtain ⟨s₁, hlinked, htouches, hset', hgenesis', hoffered⟩ :=
      @linkOne_child setup s e.1 e.2 hsome' hset hzero hne
    obtain ⟨l, hl, hmem⟩ := h.placed e' he' (he'eq ▸ hexpand')
    have hl' := hl.touches (htouches.trans hoffered.toTouches) fun hl' ↦ hnotDone (hmem _ hl')
    refine h.snoc hexpand hnotDone htouches hset' (hgenesis'.trans (if_neg hzero).symm) hoffered
      ⟨e.2 :: l, ?_, fun x hx ↦ ?_⟩
    · exact (hlinked.offered hoffered hne).placed hl' he'eq.symm hzero (mt hgenesis hzero) hentry
    · rcases List.mem_cons.mp hx with rfl | hx
      · exact .inl rfl
      · exact .inr (hmem x hx)

end Progress

end IndexState

/-! ## Loading -/

namespace DiskIndex

/-- `nStatus & BLOCK_FAILED_MASK`. -/
def failed (d : DiskIndex) : Bool := d.nStatus &&& BLOCK_FAILED_MASK ≠ 0

/-- `(nStatus & BLOCK_VALID_MASK) >= BLOCK_VALID_TREE`. -/
def validTree (d : DiskIndex) : Bool := BLOCK_VALID_TREE ≤ d.nStatus &&& BLOCK_VALID_MASK

/-- The entry of the block index before it is linked. -/
def toEntry (d : DiskIndex) : IndexEntry :=
  { nHeight := d.nHeight, nStatus := d.nStatus, nTx := d.nTx }

/-- Where an entry waits for its parent. -/
def orphan (d : DiskIndex) : UInt256 × UInt256 := (d.hashPrev, d.hash)

end DiskIndex

/-- Entries of the database, in the order in which they come. Each one comes once, zero is the hash
of no block, and the genesis block has no parent. -/
structure HeaderForest (setup : LinkSetup) where
  blocks : List DiskIndex
  nodup : (blocks.map DiskIndex.hash).Nodup
  hash_ne_zero : ∀ d ∈ blocks, d.hash ≠ 0
  genesis_root : ∀ d ∈ blocks, d.hash = setup.hashGenesisBlock → d.hashPrev = 0

theorem HeaderForest.eq_of_hash_eq {setup : LinkSetup} {forest : HeaderForest setup}
    {d d' : DiskIndex} (hd : d ∈ forest.blocks) (hd' : d' ∈ forest.blocks)
    (heq : d.hash = d'.hash) : d = d' :=
  List.inj_on_of_nodup_map forest.nodup hd hd' heq

/-- The blocks that can be reached from the genesis block. -/
inductive Reaches (setup : LinkSetup) (blocks : List DiskIndex) : UInt256 → Prop
  | genesis {d : DiskIndex} (hd : d ∈ blocks) (hgenesis : d.hash = setup.hashGenesisBlock) :
      Reaches setup blocks d.hash
  | child {d : DiskIndex} (hd : d ∈ blocks) (hparent : Reaches setup blocks d.hashPrev) :
      Reaches setup blocks d.hash

namespace IndexState

/-- What is there after the entries have been loaded. -/
structure Loaded (blocks : List DiskIndex) (s : IndexState) : Prop where
  orphans : s.mapOrphanBlocksByPrev.elems.Perm (blocks.map DiskIndex.orphan)
  mapBlockIndex : ∀ q, s.mapBlockIndex q = (blocks.find? fun d ↦ d.hash = q).map DiskIndex.toEntry
  candidates : s.setBlockIndexValid = []
  genesis : s.pindexGenesisBlock = none

theorem Loaded.loadOne {blocks : List DiskIndex} {s : IndexState} {d : DiskIndex}
    (h : Loaded blocks s) (hzero : d.hash ≠ 0) (hnew : ∀ d' ∈ blocks, d'.hash ≠ d.hash) :
    Loaded (blocks ++ [d]) (s.loadOne d) := by
  have hnone : s.mapBlockIndex d.hash = none := by
    rw [h.mapBlockIndex, List.find?_eq_none.mpr fun d' hd' ↦ by simpa using hnew d' hd']
    rfl
  have hload : s.loadOne d = { s with
      mapBlockIndex := Function.update s.mapBlockIndex d.hash (some d.toEntry)
      mapOrphanBlocksByPrev := s.mapOrphanBlocksByPrev.insert d.orphan } := by
    rw [IndexState.loadOne, insertBlockIndex, if_neg hzero, hnone]
    simp [modify, DiskIndex.toEntry, DiskIndex.orphan]
  rw [hload]
  refine ⟨?_, fun q ↦ ?_, h.candidates, h.genesis⟩
  · rw [List.map_append, List.map_singleton]
    exact (insert_perm _ _).trans ((h.orphans.cons _).trans (List.perm_append_singleton _ _).symm)
  · change Function.update s.mapBlockIndex d.hash (some d.toEntry) q = _
    rw [Function.update_apply, List.find?_append, h.mapBlockIndex]
    by_cases hq : q = d.hash
    · rw [if_pos hq, hq, List.find?_eq_none.mpr fun d' hd' ↦ by simpa using hnew d' hd']
      simp
    · have hne : d.hash ≠ q := fun heq ↦ hq heq.symm
      rw [if_neg hq, List.find?_cons_of_neg (by simpa using hne), List.find?_nil, Option.or_none]

theorem loaded_loadBlockIndexGuts {blocks : List DiskIndex}
    (hnodup : (blocks.map DiskIndex.hash).Nodup) (hzero : ∀ d ∈ blocks, d.hash ≠ 0) :
    Loaded blocks (loadBlockIndexGuts blocks) := by
  induction blocks using List.reverseRecOn with
  | nil => exact ⟨.nil, fun _ ↦ rfl, rfl, rfl⟩
  | append_singleton blocks d ih =>
    rw [List.map_append, List.nodup_append] at hnodup
    rw [loadBlockIndexGuts, List.foldl_append, ← loadBlockIndexGuts]
    refine (ih hnodup.1 fun d' hd' ↦ hzero d' (List.mem_append_left _ hd')).loadOne
      (hzero d (by simp)) fun d' hd' ↦ ?_
    exact hnodup.2.2 _ (List.mem_map_of_mem hd') _ (by simp)

section Loaded

variable {setup : LinkSetup} {forest : HeaderForest setup} {s₀ s : IndexState} {d : DiskIndex}
  {e : UInt256 × UInt256} {p : UInt256} {l todo : List (UInt256 × UInt256)}

theorem Loaded.mem_orphans (h : Loaded forest.blocks s₀) :
    e ∈ s₀.mapOrphanBlocksByPrev.elems ↔ ∃ d ∈ forest.blocks, d.orphan = e := by
  rw [h.orphans.mem_iff, List.mem_map]

theorem Loaded.entry_of_mem (h : Loaded forest.blocks s₀) (hd : d ∈ forest.blocks) :
    s₀.mapBlockIndex d.hash = some d.toEntry := by
  obtain ⟨d', hd'⟩ : ∃ d', forest.blocks.find? (fun x ↦ x.hash = d.hash) = some d' := by
    rw [← Option.isSome_iff_exists, List.find?_isSome]
    exact ⟨d, hd, by simp⟩
  have heq : d' = d := HeaderForest.eq_of_hash_eq (List.mem_of_find?_eq_some hd') hd
    (by simpa using List.find?_some hd')
  rw [h.mapBlockIndex, hd', heq]
  rfl

theorem Loaded.entry_eq (h : Loaded forest.blocks s₀) (q : UInt256) :
    (s₀.entry q).pprev = none ∧ (s₀.entry q).fConnected = false := by
  rw [entry, h.mapBlockIndex]
  generalize forest.blocks.find? (fun d ↦ d.hash = q) = o
  rcases o with _ | d
  · exact ⟨rfl, rfl⟩
  · exact ⟨rfl, rfl⟩

theorem Loaded.failed_iff (h : Loaded forest.blocks s₀) (q : UInt256) :
    (s₀.entry q).failed = true ↔ ∃ d ∈ forest.blocks, d.hash = q ∧ d.failed = true := by
  constructor
  · intro hfailed
    rcases hfind : forest.blocks.find? fun d ↦ d.hash = q with _ | d
    · rw [entry, h.mapBlockIndex, hfind] at hfailed
      exact absurd hfailed (by decide)
    · rw [entry, h.mapBlockIndex, hfind] at hfailed
      exact ⟨d, List.mem_of_find?_eq_some hfind, by simpa using List.find?_some hfind, hfailed⟩
  · rintro ⟨d, hd, rfl, hfailed⟩
    rw [entry, h.entry_of_mem hd]
    exact hfailed

theorem Loaded.ready (h : Loaded forest.blocks s₀) : Ready (expand setup) s₀.mapOrphanBlocksByPrev
      (s₀.mapOrphanBlocksByPrev.elems.filter fun e ↦ e.1 = 0) := by
  have hnodup : s₀.mapOrphanBlocksByPrev.elems.Nodup := by
    refine h.orphans.nodup_iff.mpr (List.Nodup.of_map Prod.snd ?_)
    rw [List.map_map]
    exact forest.nodup
  refine ⟨hnodup, hnodup.filter _, List.filter_subset_self _, ?_, ?_⟩
  · intro e he e' he' k hk hk'
    obtain ⟨d, hd, rfl⟩ := h.mem_orphans.mp he
    obtain ⟨d', hd', rfl⟩ := h.mem_orphans.mp he'
    rw [HeaderForest.eq_of_hash_eq hd hd' ((expand_self hk).symm.trans (expand_self hk'))]
  · intro e he e' he' hexpand
    obtain ⟨d, hd, rfl⟩ := h.mem_orphans.mp he
    have hzero : e'.1 = 0 := by simpa using (List.mem_filter.mp he').2
    exact forest.hash_ne_zero d hd ((expand_self hexpand).symm.trans hzero)

theorem Loaded.progress (h : Loaded forest.blocks s₀)
    (hl : Drained (expand setup) s₀.mapOrphanBlocksByPrev
      (s₀.mapOrphanBlocksByPrev.elems.filter fun e ↦ e.1 = 0) l) :
    Progress setup s₀ l (l.foldl (linkStep setup) s₀) := by
  have hrun : ∀ pre post, l = pre ++ post →
      Progress setup s₀ pre (pre.foldl (linkStep setup) s₀) := by
    intro pre
    induction pre using List.reverseRecOn with
    | nil =>
      intro _ _
      refine ⟨fun _ ↦ rfl, fun _ _ ↦ rfl, by simp, fun q ↦ ?_, fun q ↦ ?_⟩
      · simp [h.candidates, Done]
      · simp [h.genesis]
    | append_singleton pre e ih =>
      intro post hpost
      rw [List.append_assoc, List.singleton_append] at hpost
      have he : e ∈ s₀.mapOrphanBlocksByPrev.elems := hl.subset (hpost ▸ by simp)
      obtain ⟨d, hd, rfl⟩ := h.mem_orphans.mp he
      rw [List.foldl_append]
      refine (ih _ hpost).step ?_ ?_ (h.entry_eq _).1 (forest.genesis_root d hd) ?_
      · exact Option.isSome_iff_exists.mpr ⟨_, h.entry_of_mem hd⟩
      · intro e' he' heq
        obtain ⟨d', hd', rfl⟩ := h.mem_orphans.mp (hl.subset (hpost ▸ List.mem_append_left _ he'))
        obtain rfl := HeaderForest.eq_of_hash_eq hd' hd heq
        have hnodup := hl.nodup
        rw [hpost, List.nodup_append] at hnodup
        exact hnodup.2.2 _ he' _ List.mem_cons_self rfl
      · rcases hl.parent pre _ post hpost with htodo | hparent
        · exact .inl (by simpa using (List.mem_filter.mp htodo).2)
        · exact .inr hparent
  exact hrun l [] (List.append_nil l).symm

theorem Loaded.done_iff (h : Loaded forest.blocks s₀)
    (hl : Drained (expand setup) s₀.mapOrphanBlocksByPrev
      (s₀.mapOrphanBlocksByPrev.elems.filter fun e ↦ e.1 = 0) l) :
    Done setup l p ↔ Reaches setup forest.blocks p := by
  constructor
  · have hrun : ∀ pre post, l = pre ++ post → ∀ p, Done setup pre p →
        Reaches setup forest.blocks p := by
      intro pre
      induction pre using List.reverseRecOn with
      | nil =>
        rintro - - p ⟨e, he, -⟩
        exact absurd he List.not_mem_nil
      | append_singleton pre e ih =>
        intro post hpost p hp
        rw [List.append_assoc, List.singleton_append] at hpost
        obtain ⟨d, hd, rfl⟩ := h.mem_orphans.mp (hl.subset (hpost ▸ by simp : e ∈ l))
        rcases done_concat.mp hp with hp | hp
        · exact ih _ hpost p hp
        · obtain ⟨rfl, hgenesis⟩ := expand_eq_some_iff.mp hp
          rcases hl.parent pre _ post hpost with htodo | hparent
          · exact .genesis hd (hgenesis (by simpa using (List.mem_filter.mp htodo).2))
          · exact .child hd (ih _ hpost _ hparent)
    exact hrun l [] (List.append_nil l).symm p
  · intro hreaches
    induction hreaches with
    | @genesis d hd hgenesis =>
      refine ⟨d.orphan,
        hl.todo_subset (List.mem_filter.mpr ⟨h.mem_orphans.mpr ⟨d, hd, rfl⟩, ?_⟩), ?_⟩
      · exact decide_eq_true (forest.genesis_root d hd hgenesis)
      · exact expand_eq_some_iff.mpr ⟨rfl, fun _ ↦ hgenesis⟩
    | @child d hd _ ih =>
      obtain ⟨e', he', hexpand'⟩ := ih
      obtain ⟨d', hd', rfl⟩ := h.mem_orphans.mp (hl.subset he')
      refine ⟨d.orphan, hl.closed _ he' _ hexpand' _ (h.mem_orphans.mpr ⟨d, hd, rfl⟩) rfl, ?_⟩
      refine expand_eq_some_iff.mpr ⟨rfl, fun hzero ↦ ?_⟩
      exact absurd ((expand_self hexpand').symm.trans hzero) (forest.hash_ne_zero d' hd')

end Loaded

/-- An entry has a parent, or is the genesis block. -/
def Linked (s : IndexState) (p : UInt256) : Prop :=
  s.pindexGenesisBlock = some p ∨ (s.pprev p).isSome

/-- The entry of a block as it should be: its parent is the one its header names, its chain `l` goes
down to the genesis block, the work of the chain is the sum of the work of its blocks, and it has
failed if a block of the chain other than the genesis block had. -/
structure InTree (setup : LinkSetup) (blocks : List DiskIndex) (s : IndexState) (d : DiskIndex)
    (l : List UInt256) : Prop where
  pprev : s.pprev d.hash = if d.hash = setup.hashGenesisBlock then none else some d.hashPrev
  line : Line s.pprev d.hash l
  root : l.getLast? = some setup.hashGenesisBlock
  nChainWork : (s.entry d.hash).nChainWork = (l.map (setup.getBlockWork s.pprev)).sum
  failed_iff : (s.entry d.hash).failed = true ↔
    ∃ d' ∈ blocks, d'.hash ∈ l ∧ d'.hash ≠ setup.hashGenesisBlock ∧ d'.failed = true
  validTree_iff : (s.entry d.hash).validTree = true ↔
    d.hash = setup.hashGenesisBlock ∨ d.validTree = true

section Main

variable {setup : LinkSetup} {forest : HeaderForest setup} {s₀ s : IndexState} {d : DiskIndex}
  {l : List (UInt256 × UInt256)}

theorem Loaded.linked_iff (h : Loaded forest.blocks s₀) (hs : Progress setup s₀ l s)
    (p : UInt256) : s.Linked p ↔ Done setup l p := by
  rw [Linked, hs.genesis]
  constructor
  · rintro (⟨e, he, -, hexpand⟩ | hpprev)
    · exact ⟨e, he, hexpand⟩
    · by_contra hnot
      rw [IndexState.pprev, hs.rest p hnot, (h.entry_eq p).1] at hpprev
      cases hpprev
  · rintro ⟨e, he, hexpand⟩
    by_cases hzero : e.1 = 0
    · exact .inl ⟨e, he, hzero, hexpand⟩
    · obtain rfl := expand_self hexpand
      obtain ⟨chain, hplaced, -⟩ := hs.placed e he hexpand
      refine .inr ?_
      rw [hplaced.pprev, if_neg hzero]
      rfl

theorem Loaded.inTree (h : Loaded forest.blocks s₀) (hs : Progress setup s₀ l s)
    (hl : l ⊆ s₀.mapOrphanBlocksByPrev.elems) (hd : d ∈ forest.blocks)
    (hdone : Done setup l d.hash) : ∃ chain, InTree setup forest.blocks s d chain := by
  obtain ⟨e, he, hexpand⟩ := hdone
  obtain ⟨d', hd', rfl⟩ := h.mem_orphans.mp (hl he)
  obtain rfl := HeaderForest.eq_of_hash_eq hd hd' (expand_self hexpand)
  obtain ⟨chain, hplaced, -⟩ := hs.placed _ he hexpand
  have hroot : d.hashPrev = 0 ↔ d.hash = setup.hashGenesisBlock :=
    ⟨(expand_eq_some_iff.mp hexpand).2, forest.genesis_root d hd⟩
  refine ⟨chain, ?_, hplaced.line, hplaced.root, hplaced.nChainWork, ?_, ?_⟩
  · simp only [← hroot]
    exact hplaced.pprev
  · refine hplaced.failed_iff.trans ⟨?_, ?_⟩
    · rintro ⟨x, hx, hne, hfailed⟩
      obtain ⟨d', hd', rfl, hfailed'⟩ := (h.failed_iff x).mp hfailed
      exact ⟨d', hd', hx, hne, hfailed'⟩
    · rintro ⟨d', hd', hmem, hne, hfailed⟩
      exact ⟨d'.hash, hmem, hne, (h.failed_iff _).mpr ⟨d', hd', rfl, hfailed⟩⟩
  · refine hplaced.validTree_iff.trans (or_congr Iff.rfl ?_)
    rw [entry, DiskIndex.orphan, h.entry_of_mem hd]
    rfl

/-- Nothing is connected after the loading, so nothing is erased at first, and the queue begins with
what has no parent. -/
theorem Loaded.linkOrphans_eq (h : Loaded forest.blocks s₀) : ∃ fWorkDone l,
    Drained (expand setup) s₀.mapOrphanBlocksByPrev
      (s₀.mapOrphanBlocksByPrev.elems.filter fun e ↦ e.1 = 0) l ∧
    s₀.linkOrphans setup none = some (fWorkDone, l.foldl (linkStep setup) s₀) := by
  have horphans : s₀.mapOrphanBlocksByPrev.filter (fun e ↦ !(s₀.entry e.2).fConnected)
      = s₀.mapOrphanBlocksByPrev := by
    rw [filter]
    simp only [(h.entry_eq _).2, Bool.not_false, List.filter_true]
  have htodo : (s₀.mapOrphanBlocksByPrev.elems.filter fun e ↦
      e.1 = 0 || (s₀.mapBlockIndex e.1).any fun e ↦ e.fConnected)
      = s₀.mapOrphanBlocksByPrev.elems.filter fun e ↦ e.1 = 0 := by
    refine List.filter_congr fun e _ ↦ ?_
    have hany : (s₀.mapBlockIndex e.1).any (fun e ↦ e.fConnected) = false := by
      have hentry := (h.entry_eq e.1).2
      rw [entry] at hentry
      rcases hmap : s₀.mapBlockIndex e.1 with _ | entry
      · rfl
      · rwa [hmap] at hentry
    rw [hany, Bool.or_false]
  obtain ⟨fWorkDone, hloop⟩ := @linkLoop_eq setup _ s₀ _ false h.ready le_rfl
  refine ⟨fWorkDone, _, drain_drained h.ready le_rfl, ?_⟩
  rw [linkOrphans, horphans, htodo]
  exact hloop

end Main

/-- **Loading the block index.** Whatever the order in which the entries of the database come,
`LinkOrphans` ends; it links the blocks that can be reached from the genesis block and no others,
each of them gets what its chain determines, and the candidates are those among them that have not
failed and are valid enough. -/
theorem linkOrphans_links {setup : LinkSetup} (forest : HeaderForest setup) :
    ∃ fWorkDone s,
      (loadBlockIndexGuts forest.blocks).linkOrphans setup none = some (fWorkDone, s) ∧
      (∀ p, s.Linked p ↔ Reaches setup forest.blocks p) ∧
      (∀ d ∈ forest.blocks, Reaches setup forest.blocks d.hash →
        ∃ l, InTree setup forest.blocks s d l) ∧
      ∀ p, p ∈ s.setBlockIndexValid ↔
        s.Linked p ∧ (s.entry p).failed = false ∧ (s.entry p).validTree = true := by
  have hload := loaded_loadBlockIndexGuts forest.nodup forest.hash_ne_zero
  obtain ⟨fWorkDone, l, hdrained, hlink⟩ := hload.linkOrphans_eq
  have hprogress := hload.progress hdrained
  refine ⟨fWorkDone, _, hlink, fun p ↦ ?_, fun d hd hreaches ↦ ?_, fun p ↦ ?_⟩
  · rw [hload.linked_iff hprogress, hload.done_iff hdrained]
  · exact hload.inTree hprogress hdrained.subset hd ((hload.done_iff hdrained).mpr hreaches)
  · rw [hprogress.mem_iff, hload.linked_iff hprogress]

end IndexState

/-- Every block has the same work, and is where its hash says. -/
def unitWork : LinkSetup where
  hashGenesisBlock := 1
  address := BitVec.toNat
  address_injective _ _ := BitVec.eq_of_toNat_eq
  getBlockWork _ _ := 1
  getBlockWork_line _ _ := rfl

/-- A chain 1, 2, 3 that comes from its end, with a failed block 2, a block 4 beside it, and a block
9 whose parent is missing. -/
def scattered : HeaderForest unitWork where
  blocks := [⟨3, 2, 2, 2, 1⟩, ⟨2, 1, 1, 34, 1⟩, ⟨9, 8, 5, 2, 1⟩, ⟨1, 0, 0, 35, 1⟩, ⟨4, 1, 1, 2, 1⟩]
  nodup := by decide
  hash_ne_zero := by decide
  genesis_root := by decide

example : ((IndexState.loadBlockIndexGuts scattered.blocks).linkOrphans unitWork none).map
    (fun r ↦ (r.2.setBlockIndexValid, [1, 2, 3, 4, 9].map fun p ↦ (r.2.entry p).nChainWork))
    = some ([1, 4], [1, 2, 3, 2, 0]) := by
  decide +kernel

end Cryptonite
