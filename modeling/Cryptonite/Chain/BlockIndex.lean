import Cryptonite.Chain.Startup
import Cryptonite.Foundation.Multimap

/-!
# The block index

The entries of the block index come from the database in no order that means anything: an entry may
come before its parent. `InsertBlockIndex` therefore only notes under which hash the parent of an
entry will be found, in the multimap `mapOrphanBlocksByPrev`, and when all entries are there
`LinkOrphans` goes through that multimap from the genesis block on. What an entry gets (its parent,
the work of its chain, a mark if its parent has failed) is computed from what its parent has got.

This module has the model, and what linking one entry does (`IndexState.linkOne_genesis`,
`IndexState.linkOne_child`): it changes that entry and no other.
-/

namespace Cryptonite

open Ancestry

/-! ## The model -/

/-- What the linking takes as given. -/
structure LinkSetup where
  /-- `Params().HashGenesisBlock()`. -/
  hashGenesisBlock : UInt256
  /-- Where the entry with a hash is in memory. -/
  address : UInt256 → ℕ
  /-- Different entries are in different places. -/
  address_injective : Function.Injective address
  /-- `GetBlockWork` of an entry, with the entries linked as they are. -/
  getBlockWork : (UInt256 → Option UInt256) → UInt256 → UInt256
  /-- It depends on the entry and its ancestors. -/
  getBlockWork_line : ∀ {pprev pprev' : UInt256 → Option UInt256} {p : UInt256} {l : List UInt256},
    Line pprev p l → Line pprev' p l → getBlockWork pprev p = getBlockWork pprev' p

/-- `CBlockIndex`, as far as the linking reads and writes it. An entry is named by its hash, and so
is the one it points to. -/
structure IndexEntry where
  pprev : Option UInt256 := none
  nHeight : Int64 := 0
  nChainWork : UInt256 := 0
  nTx : UInt32 := 0
  nChainTx : UInt32 := 0
  nStatus : UInt32 := 0
  fConnected : Bool := false
  nSequenceId : UInt32 := 0

namespace IndexEntry

/-- `nStatus & BLOCK_FAILED_MASK`. -/
def failed (e : IndexEntry) : Bool := e.nStatus &&& BLOCK_FAILED_MASK ≠ 0

/-- `(nStatus & BLOCK_VALID_MASK) >= BLOCK_VALID_TREE`. -/
def validTree (e : IndexEntry) : Bool := BLOCK_VALID_TREE ≤ e.nStatus &&& BLOCK_VALID_MASK

end IndexEntry

/-- `CDiskBlockIndex`, as far as it is used here. -/
structure DiskIndex where
  hash : UInt256
  hashPrev : UInt256
  nHeight : Int64
  nStatus : UInt32
  nTx : UInt32
  deriving DecidableEq

/-- The block index and what is kept with it. -/
structure IndexState where
  mapBlockIndex : UInt256 → Option IndexEntry
  mapOrphanBlocksByPrev : Multimap UInt256 UInt256
  setBlockIndexValid : List UInt256
  pindexGenesisBlock : Option UInt256
  pindexBestInvalid : Option UInt256
  nBlockSequenceId : UInt32

namespace IndexState

/-- Before anything is loaded. -/
def empty : IndexState where
  mapBlockIndex _ := none
  mapOrphanBlocksByPrev := ⟨[], .nil⟩
  setBlockIndexValid := []
  pindexGenesisBlock := none
  pindexBestInvalid := none
  nBlockSequenceId := 1

def entry (s : IndexState) (pindex : UInt256) : IndexEntry := (s.mapBlockIndex pindex).getD {}

def modify (s : IndexState) (pindex : UInt256) (f : IndexEntry → IndexEntry) : IndexState :=
  { s with mapBlockIndex := Function.update s.mapBlockIndex pindex
             ((s.mapBlockIndex pindex).map f) }

/-- The links between the entries. -/
def pprev (s : IndexState) (pindex : UInt256) : Option UInt256 := (s.entry pindex).pprev

def insertBlockIndex (s : IndexState) (hash hashPrevBlock : UInt256) (nHeight : Int64) :
    Option UInt256 × IndexState :=
  if hash = 0 then (none, s)
  else
    let s :=
      if (s.mapBlockIndex hash).isSome then s
      else { s with mapBlockIndex := Function.update s.mapBlockIndex hash (some { nHeight }) }
    (some hash, { s with
      mapOrphanBlocksByPrev := s.mapOrphanBlocksByPrev.insert (hashPrevBlock, hash) })

/-- One entry of the database in `LoadBlockIndexGuts`. -/
def loadOne (s : IndexState) (diskindex : DiskIndex) : IndexState :=
  match s.insertBlockIndex diskindex.hash diskindex.hashPrev diskindex.nHeight with
  | (none, s) => s
  | (some pindexNew, s) =>
    s.modify pindexNew fun e ↦ { e with nStatus := diskindex.nStatus, nTx := diskindex.nTx }

def loadBlockIndexGuts (blocks : List DiskIndex) : IndexState := blocks.foldl loadOne empty

/-- `CBlockIndexWorkComparator`. -/
def workComparator (setup : LinkSetup) (s : IndexState) (pa pb : UInt256) : Bool :=
  if (s.entry pa).nChainWork > (s.entry pb).nChainWork then false
  else if (s.entry pa).nChainWork < (s.entry pb).nChainWork then true
  else if (s.entry pa).nSequenceId < (s.entry pb).nSequenceId then false
  else if (s.entry pa).nSequenceId > (s.entry pb).nSequenceId then true
  else if setup.address pa < setup.address pb then false
  else if setup.address pa > setup.address pb then true
  else false

/-- `LinkOrphans`, where it finds the genesis block. -/
def linkGenesis (setup : LinkSetup) (s : IndexState) (pindex : UInt256) : IndexState :=
  { s.modify pindex fun e ↦ { e with
      fConnected := true
      nChainWork := setup.getBlockWork s.pprev pindex
      nStatus := ((e.nStatus &&& ~~~BLOCK_VALID_MASK) ||| BLOCK_VALID_TRANSACTIONS) &&&
        ~~~BLOCK_FAILED_MASK } with
    pindexGenesisBlock := some pindex }

/-- `pindexBestInvalid` after an invalid entry has been found. -/
def noteInvalid (s : IndexState) (pindex : UInt256) : IndexState :=
  match s.pindexBestInvalid with
  | none => { s with pindexBestInvalid := some pindex }
  | some best =>
    if (s.entry pindex).nChainWork > (s.entry best).nChainWork
    then { s with pindexBestInvalid := some pindex } else s

/-- `LinkOrphans`, where it finds the child of an entry. -/
def linkChild (setup : LinkSetup) (s : IndexState) (hashPrev pindex : UInt256) : IndexState :=
  let s := s.modify pindex fun e ↦ { e with pprev := some hashPrev }
  let parent := s.entry hashPrev
  let s := s.modify pindex fun e ↦ { e with
    nChainWork := parent.nChainWork + setup.getBlockWork s.pprev pindex
    nChainTx := if e.nTx ≠ 0 ∧ parent.nChainTx ≠ 0 then parent.nChainTx + e.nTx else e.nChainTx }
  if parent.failed then
    (s.modify pindex fun e ↦ { e with nStatus := e.nStatus ||| BLOCK_FAILED_CHILD }).noteInvalid
      pindex
  else s

/-- `LinkOrphans`, where it makes an entry a candidate. -/
def addValid (setup : LinkSetup) (s : IndexState) (pindex : UInt256) : IndexState :=
  if !(s.entry pindex).failed && (s.entry pindex).validTree then
    let nBlockSequenceId := s.nBlockSequenceId + 1
    let s := { s.modify pindex fun e ↦ { e with nSequenceId := nBlockSequenceId } with
      nBlockSequenceId }
    { s with setBlockIndexValid :=
        Multimap.insertBy (s.workComparator setup) pindex s.setBlockIndexValid }
  else s

/-- What `LinkOrphans` does with an entry that it links. -/
def linkOne (setup : LinkSetup) (s : IndexState) (hashPrev pindex : UInt256) : IndexState :=
  (if hashPrev = 0 then s.linkGenesis setup pindex
    else s.linkChild setup hashPrev pindex).addValid setup pindex

/-- The loop of `LinkOrphans`, for at most `n` rounds; `none` if it has not ended by then. -/
def linkLoop (setup : LinkSetup) :
    ℕ → IndexState → List (UInt256 × UInt256) → Bool → Option (Bool × IndexState)
  | _, s, [], fWorkDone => some (fWorkDone, s)
  | 0, _, _ :: _, _ => none
  | n + 1, s, (hashPrev, pindex) :: vTodo, fWorkDone =>
    let s := { s with
      mapOrphanBlocksByPrev := s.mapOrphanBlocksByPrev.erase (hashPrev, pindex) }
    if hashPrev = 0 ∧ pindex ≠ setup.hashGenesisBlock then linkLoop setup n s vTodo fWorkDone
    else
      let s := s.linkOne setup hashPrev pindex
      linkLoop setup n s (vTodo ++ s.mapOrphanBlocksByPrev.equalRange pindex) true

/-- `LinkOrphans`. It erases an entry of `mapOrphanBlocksByPrev` in each round. -/
def linkOrphans (setup : LinkSetup) (s : IndexState) :
    Option UInt256 → Option (Bool × IndexState)
  | some hashParent =>
    let vTodo :=
      if hashParent = 0 || (s.mapBlockIndex hashParent).any fun e ↦ e.nHeight ≠ -1
      then s.mapOrphanBlocksByPrev.equalRange hashParent else []
    linkLoop setup s.mapOrphanBlocksByPrev.elems.length s vTodo false
  | none =>
    let orphans := s.mapOrphanBlocksByPrev.filter fun e ↦ !(s.entry e.2).fConnected
    let vTodo := orphans.elems.filter fun e ↦
      e.1 = 0 || (s.mapBlockIndex e.1).any fun e ↦ e.fConnected
    linkLoop setup orphans.elems.length { s with mapOrphanBlocksByPrev := orphans } vTodo false

/-! ## One entry -/

section One

variable {setup : LinkSetup} {s : IndexState} {hashPrev p q : UInt256}

theorem mapBlockIndex_modify (f : IndexEntry → IndexEntry) : (s.modify p f).mapBlockIndex =
    Function.update s.mapBlockIndex p ((s.mapBlockIndex p).map f) :=
  rfl

theorem isSome_modify (f : IndexEntry → IndexEntry) :
    ((s.modify p f).mapBlockIndex q).isSome = (s.mapBlockIndex q).isSome := by
  rw [mapBlockIndex_modify, Function.update_apply]
  split_ifs with hq
  · rw [hq, Option.isSome_map]
  · rfl

theorem entry_modify_self (hp : (s.mapBlockIndex p).isSome) (f : IndexEntry → IndexEntry) :
    (s.modify p f).entry p = f (s.entry p) := by
  obtain ⟨e, he⟩ := Option.isSome_iff_exists.mp hp
  rw [entry, mapBlockIndex_modify, Function.update_self, entry, he]
  rfl

theorem entry_modify_ne (hq : q ≠ p) (f : IndexEntry → IndexEntry) :
    (s.modify p f).entry q = s.entry q := by
  rw [entry, mapBlockIndex_modify, Function.update_of_ne hq, entry]

/-- What is changed when an entry is linked: the entry, and not what is left to link. -/
structure Touches (p : UInt256) (s s' : IndexState) : Prop where
  orphans : s'.mapOrphanBlocksByPrev = s.mapOrphanBlocksByPrev
  isSome : ∀ q, (s'.mapBlockIndex q).isSome = (s.mapBlockIndex q).isSome
  entry : ∀ q, q ≠ p → s'.entry q = s.entry q

theorem Touches.refl (p : UInt256) (s : IndexState) : Touches p s s :=
  ⟨rfl, fun _ ↦ rfl, fun _ _ ↦ rfl⟩

theorem Touches.trans {s' s'' : IndexState} (h : Touches p s s') (h' : Touches p s' s'') :
    Touches p s s'' :=
  ⟨h'.orphans.trans h.orphans, fun q ↦ (h'.isSome q).trans (h.isSome q),
    fun q hq ↦ (h'.entry q hq).trans (h.entry q hq)⟩

theorem touches_modify (s : IndexState) (p : UInt256) (f : IndexEntry → IndexEntry) :
    Touches p s (s.modify p f) :=
  ⟨rfl, fun _ ↦ isSome_modify f, fun _ hq ↦ entry_modify_ne hq f⟩

theorem noteInvalid_eq (s : IndexState) (p : UInt256) :
    ∃ best, s.noteInvalid p = { s with pindexBestInvalid := best } := by
  rw [noteInvalid]
  split
  · exact ⟨_, rfl⟩
  · split_ifs
    · exact ⟨_, rfl⟩
    · exact ⟨s.pindexBestInvalid, rfl⟩

/-- What the genesis block gets. -/
structure GenesisLinked (setup : LinkSetup) (s s' : IndexState) (p : UInt256) : Prop where
  pprev : (s'.entry p).pprev = (s.entry p).pprev
  nChainWork : (s'.entry p).nChainWork = setup.getBlockWork s'.pprev p
  nStatus : (s'.entry p).nStatus =
    (((s.entry p).nStatus &&& ~~~BLOCK_VALID_MASK) ||| BLOCK_VALID_TRANSACTIONS) &&&
      ~~~BLOCK_FAILED_MASK

/-- What the child of an entry gets. -/
structure ChildLinked (setup : LinkSetup) (s s' : IndexState) (hashPrev p : UInt256) : Prop where
  pprev : (s'.entry p).pprev = some hashPrev
  nChainWork : (s'.entry p).nChainWork =
    (s'.entry hashPrev).nChainWork + setup.getBlockWork s'.pprev p
  nStatus : (s'.entry p).nStatus =
    (s.entry p).nStatus ||| if (s'.entry hashPrev).failed then BLOCK_FAILED_CHILD else 0

theorem touches_linkGenesis (setup : LinkSetup) (s : IndexState) (p : UInt256) :
    Touches p s (s.linkGenesis setup p) := by
  have h := touches_modify s p fun e ↦ { e with
      fConnected := true
      nChainWork := setup.getBlockWork s.pprev p
      nStatus := ((e.nStatus &&& ~~~BLOCK_VALID_MASK) ||| BLOCK_VALID_TRANSACTIONS) &&&
        ~~~BLOCK_FAILED_MASK }
  exact ⟨h.orphans, h.isSome, h.entry⟩

theorem pprev_eq_of_touches {s' : IndexState} (h : Touches p s s')
    (hp : (s'.entry p).pprev = (s.entry p).pprev) : s'.pprev = s.pprev := by
  funext q
  by_cases hq : q = p
  · rw [hq]
    exact hp
  · rw [pprev, h.entry q hq, ← pprev]

/-- Making an entry a candidate changes nothing else that matters in it. -/
structure Offered (p : UInt256) (s s' : IndexState) : Prop extends Touches p s s' where
  pprev : s'.pprev = s.pprev
  nChainWork : (s'.entry p).nChainWork = (s.entry p).nChainWork
  nStatus : (s'.entry p).nStatus = (s.entry p).nStatus
  genesis : s'.pindexGenesisBlock = s.pindexGenesisBlock
  mem_iff : ∀ q, q ∈ s'.setBlockIndexValid ↔ q ∈ s.setBlockIndexValid ∨
    q = p ∧ (s.entry p).failed = false ∧ (s.entry p).validTree = true

theorem GenesisLinked.offered {s₁ s₂ : IndexState} (h : GenesisLinked setup s s₁ p)
    (h' : Offered p s₁ s₂) : GenesisLinked setup s s₂ p where
  pprev := (congrFun h'.pprev p).trans h.pprev
  nChainWork := by rw [h'.nChainWork, h.nChainWork, h'.pprev]
  nStatus := h'.nStatus.trans h.nStatus

theorem ChildLinked.offered {s₁ s₂ : IndexState} (h : ChildLinked setup s s₁ hashPrev p)
    (h' : Offered p s₁ s₂) (hne : hashPrev ≠ p) : ChildLinked setup s s₂ hashPrev p where
  pprev := (congrFun h'.pprev p).trans h.pprev
  nChainWork := by rw [h'.nChainWork, h.nChainWork, h'.pprev, h'.entry _ hne]
  nStatus := by rw [h'.nStatus, h.nStatus, h'.entry _ hne]

theorem genesisLinked_linkGenesis (hp : (s.mapBlockIndex p).isSome) :
    GenesisLinked setup s (s.linkGenesis setup p) p := by
  have hentry : (s.linkGenesis setup p).entry p = { s.entry p with
      fConnected := true
      nChainWork := setup.getBlockWork s.pprev p
      nStatus := (((s.entry p).nStatus &&& ~~~BLOCK_VALID_MASK) ||| BLOCK_VALID_TRANSACTIONS) &&&
        ~~~BLOCK_FAILED_MASK } :=
    entry_modify_self hp _
  have hpprev : (s.linkGenesis setup p).pprev = s.pprev := by
    funext q
    rw [IndexState.pprev, IndexState.pprev]
    by_cases hq : q = p
    · rw [hq, hentry]
    · rw [(touches_linkGenesis setup s p).entry q hq]
  refine ⟨by rw [hentry], ?_, by rw [hentry]⟩
  rw [hpprev, hentry]

theorem linkChild_spec (hp : (s.mapBlockIndex p).isSome) (hne : hashPrev ≠ p) :
    Touches p s (s.linkChild setup hashPrev p) ∧
      ChildLinked setup s (s.linkChild setup hashPrev p) hashPrev p := by
  set s₁ := s.modify p fun e ↦ { e with pprev := some hashPrev } with hs₁
  have hp₁ : (s₁.mapBlockIndex p).isSome := by rwa [isSome_modify]
  have hparent : s₁.entry hashPrev = s.entry hashPrev := entry_modify_ne hne _
  set f : IndexEntry → IndexEntry := fun e ↦ { e with
    nChainWork := (s₁.entry hashPrev).nChainWork + setup.getBlockWork s₁.pprev p
    nChainTx := if e.nTx ≠ 0 ∧ (s₁.entry hashPrev).nChainTx ≠ 0
      then (s₁.entry hashPrev).nChainTx + e.nTx else e.nChainTx } with hf
  set s₂ := s₁.modify p f with hs₂
  have hp₂ : (s₂.mapBlockIndex p).isSome := by rwa [isSome_modify]
  have htouches : Touches p s s₂ := (touches_modify s p _).trans (touches_modify s₁ p f)
  have hentry₂ : s₂.entry p = f { s.entry p with pprev := some hashPrev } := by
    rw [hs₂, entry_modify_self hp₁, hs₁, entry_modify_self hp]
  obtain ⟨htouches', hentry⟩ : Touches p s (s.linkChild setup hashPrev p) ∧
      (s.linkChild setup hashPrev p).entry p = { s₂.entry p with nStatus := (s₂.entry p).nStatus |||
        if (s.entry hashPrev).failed then BLOCK_FAILED_CHILD else 0 } := by
    have hlink : s.linkChild setup hashPrev p = if (s.entry hashPrev).failed then
        (s₂.modify p fun e ↦ { e with nStatus := e.nStatus ||| BLOCK_FAILED_CHILD }).noteInvalid p
        else s₂ := by
      rw [← hparent]
      rfl
    rw [hlink]
    split_ifs
    · obtain ⟨best, hbest⟩ := noteInvalid_eq
        (s₂.modify p fun e ↦ { e with nStatus := e.nStatus ||| BLOCK_FAILED_CHILD }) p
      have hmark := touches_modify s₂ p fun e ↦
        { e with nStatus := e.nStatus ||| BLOCK_FAILED_CHILD }
      rw [hbest]
      exact ⟨htouches.trans ⟨hmark.orphans, hmark.isSome, hmark.entry⟩, entry_modify_self hp₂ _⟩
    · exact ⟨htouches, by rw [UInt32.or_zero]⟩
  have hpprev : (s.linkChild setup hashPrev p).pprev = s₁.pprev := by
    funext q
    rw [IndexState.pprev, IndexState.pprev]
    by_cases hq : q = p
    · rw [hq, hentry, hentry₂, hs₁, entry_modify_self hp]
    · rw [htouches'.entry q hq, hs₁, entry_modify_ne hq]
  refine ⟨htouches', by rw [hentry, hentry₂], ?_, ?_⟩
  · rw [hpprev, htouches'.entry _ hne, hentry, hentry₂, hf, hparent]
  · rw [htouches'.entry _ hne, hentry, hentry₂]

theorem workComparator_or (h : setup.address p ≠ setup.address q) :
    s.workComparator setup p q = true ∨ s.workComparator setup q p = true := by
  rw [workComparator, workComparator]
  grind

theorem offered_addValid (hp : (s.mapBlockIndex p).isSome) (hnew : p ∉ s.setBlockIndexValid) :
    Offered p s (s.addValid setup p) := by
  rw [addValid]
  split_ifs with hvalid
  · rw [Bool.and_eq_true, Bool.not_eq_true'] at hvalid
    have htouches := touches_modify s p fun e ↦ { e with nSequenceId := s.nBlockSequenceId + 1 }
    have hentry := entry_modify_self hp fun e ↦ { e with nSequenceId := s.nBlockSequenceId + 1 }
    have hpprev := pprev_eq_of_touches htouches (by rw [hentry])
    refine ⟨⟨htouches.orphans, htouches.isSome, htouches.entry⟩, hpprev, ?_, ?_, rfl, fun q ↦ ?_⟩
    · change ((s.modify p _).entry p).nChainWork = _
      rw [hentry]
    · change ((s.modify p _).entry p).nStatus = _
      rw [hentry]
    · rw [and_iff_left hvalid, or_comm]
      refine Multimap.mem_insertBy fun y hy ↦ workComparator_or fun heq ↦ hnew ?_
      rwa [setup.address_injective heq]
  · rw [Bool.and_eq_true, Bool.not_eq_true'] at hvalid
    refine ⟨.refl p s, rfl, rfl, rfl, rfl, fun q ↦ ?_⟩
    rw [or_iff_left fun h ↦ hvalid h.2]

theorem linkChild_frame (setup : LinkSetup) (s : IndexState) (hashPrev p : UInt256) :
    (s.linkChild setup hashPrev p).mapOrphanBlocksByPrev = s.mapOrphanBlocksByPrev ∧
      (s.linkChild setup hashPrev p).setBlockIndexValid = s.setBlockIndexValid ∧
      (s.linkChild setup hashPrev p).pindexGenesisBlock = s.pindexGenesisBlock := by
  rw [linkChild]
  split_ifs
  · obtain ⟨best, hbest⟩ := noteInvalid_eq _ p
    rw [hbest]
    exact ⟨rfl, rfl, rfl⟩
  · exact ⟨rfl, rfl, rfl⟩

theorem orphans_linkOne (setup : LinkSetup) (s : IndexState) (hashPrev p : UInt256) :
    (s.linkOne setup hashPrev p).mapOrphanBlocksByPrev = s.mapOrphanBlocksByPrev := by
  have hadd : ∀ s : IndexState,
      (s.addValid setup p).mapOrphanBlocksByPrev = s.mapOrphanBlocksByPrev := by
    intro s
    rw [addValid]
    split_ifs <;> rfl
  rw [linkOne, hadd]
  split_ifs
  · rfl
  · exact (linkChild_frame setup s hashPrev p).1

theorem linkOne_genesis (hp : (s.mapBlockIndex p).isSome) (hnew : p ∉ s.setBlockIndexValid) :
    ∃ s₁, GenesisLinked setup s s₁ p ∧ Touches p s s₁ ∧
      s₁.setBlockIndexValid = s.setBlockIndexValid ∧ s₁.pindexGenesisBlock = some p ∧
      Offered p s₁ (s.linkOne setup 0 p) := by
  have htouches := touches_linkGenesis setup s p
  refine ⟨s.linkGenesis setup p, genesisLinked_linkGenesis hp, htouches, rfl, rfl, ?_⟩
  rw [linkOne, if_pos rfl]
  exact offered_addValid ((htouches.isSome p).trans hp) hnew

theorem linkOne_child (hp : (s.mapBlockIndex p).isSome) (hnew : p ∉ s.setBlockIndexValid)
    (hzero : hashPrev ≠ 0) (hne : hashPrev ≠ p) :
    ∃ s₁, ChildLinked setup s s₁ hashPrev p ∧ Touches p s s₁ ∧
      s₁.setBlockIndexValid = s.setBlockIndexValid ∧
      s₁.pindexGenesisBlock = s.pindexGenesisBlock ∧
      Offered p s₁ (s.linkOne setup hashPrev p) := by
  obtain ⟨htouches, hlinked⟩ := @linkChild_spec setup s hashPrev p hp hne
  obtain ⟨-, hset, hgenesis⟩ := linkChild_frame setup s hashPrev p
  refine ⟨s.linkChild setup hashPrev p, hlinked, htouches, hset, hgenesis, ?_⟩
  rw [linkOne, if_neg hzero]
  exact offered_addValid ((htouches.isSome p).trans hp) (hset ▸ hnew)

end One

end IndexState

end Cryptonite
