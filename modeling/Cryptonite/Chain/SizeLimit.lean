import Cryptonite.Chain.Path
import Cryptonite.Core.Validation

/-!
# The size limit of a block

`ConnectBlock` compares the size of a block with `GetNextMaxSize`: twice the mean size of the last
`BLK_SIZE_FILTER` blocks, and at least `MAX_BLOCK_SIZE`. The sizes come from the blocks themselves,
which are read through the block cache. If one of them cannot be read, as after a purge or a sync by
slices, there is no limit.

The limit is thus a function of the chain for the nodes that can read its recent part
(`BlockReader.getNextMaxSize_eq`), and another for those that cannot. `sizeLimits_agree_iff` says
for which blocks this makes a difference.
-/

namespace Cryptonite

open Ancestry

/-! ## Reading blocks -/

def BLK_SIZE_FILTER : ℕ := 100

/-- `GetSerializeSize`: the counter is an `unsigned int`. -/
def Block.getSerializeSize (block : Block) : Exec UInt32 := do
  let bytes ← block.serialize
  pure (UInt32.ofNat bytes.length)

/-- A block index whose blocks have been stored at some time. -/
structure BlockReader extends BlockTree where
  /-- `CBlockHeader::GetHash`. -/
  getHash : BlockHeader → UInt256
  /-- `CACHE_SIZE`. -/
  CACHE_SIZE : ℕ
  /-- An entry has the hash of its block. -/
  getHash_eq : ∀ {h p}, mapBlockIndex h = some p → getHash (index p).block.toBlockHeader = h
  /-- The blocks could be written. -/
  writes : ∀ {h p}, mapBlockIndex h = some p → ∃ bytes, (index p).block.serialize = .ok bytes

/-- What a node has of the blocks. -/
structure BlockCache where
  /-- What `ReadBlockFromDiskI` finds for an entry. -/
  file : ℕ → Option Block
  /-- `listBlock`. For each of its blocks there is an iterator in `mapBlock`, under its hash. -/
  listBlock : List Block

/-- The type of `mapSize`. -/
abbrev SizeMap := UInt256 → Option UInt64

namespace BlockReader

variable (r : BlockReader)

/-- `mapBlock.find` finds the block under the hash of an entry. -/
def isOf (p : ℕ) (block : Block) : Bool := r.getHash block.toBlockHeader = (r.index p).hash

def readBlockFromDisk (cache : BlockCache) (p : ℕ) : Option Block × BlockCache :=
  match cache.listBlock.find? (r.isOf p) with
  | some block =>
    (some block, { cache with listBlock := block :: cache.listBlock.eraseP (r.isOf p) })
  | none =>
    match cache.file p with
    | none => (none, cache)
    | some block =>
      if r.isOf p block then
        let listBlock := if r.CACHE_SIZE ≤ cache.listBlock.length then cache.listBlock.dropLast
          else cache.listBlock
        (some block, { cache with listBlock := block :: listBlock })
      else (none, cache)

def getSize (mapSize : SizeMap) (block : Block) : Exec (UInt64 × SizeMap) :=
  let hash := r.getHash block.toBlockHeader
  match mapSize hash with
  | some size => .ok (size, mapSize)
  | none => do
    let size ← block.getSerializeSize
    pure (size.toUInt64, Function.update mapSize hash (some size.toUInt64))

/-- The loop of `GetNextMaxSize`, for at most `n` more rounds: `accum` and `cnt`. -/
def addSizes : ℕ → Option ℕ → UInt64 → UInt64 → BlockCache → SizeMap →
    Exec ((UInt64 × UInt64) × BlockCache × SizeMap)
  | 0, _, accum, cnt, cache, mapSize => .ok ((accum, cnt), cache, mapSize)
  | _ + 1, none, accum, cnt, cache, mapSize => .ok ((accum, cnt), cache, mapSize)
  | n + 1, some p, accum, cnt, cache, mapSize =>
    match r.readBlockFromDisk cache p with
    | (none, cache) => .ok ((accum, cnt), cache, mapSize)
    | (some block, cache) => do
      let (size, mapSize) ← r.getSize mapSize block
      addSizes n (r.index p).pprev (accum + size) (cnt + 1) cache mapSize

/-- The limit for a sum of sizes. -/
def maxSizeFor (accum : UInt64) : UInt64 :=
  let v := (accum <<< 1) / UInt64.ofNat BLK_SIZE_FILTER
  if v > UInt64.ofNat MAX_BLOCK_SIZE then v else UInt64.ofNat MAX_BLOCK_SIZE

def UINT64_MAX : UInt64 := 0xFFFFFFFFFFFFFFFF

def getNextMaxSize (pindexLast : Option ℕ) (cache : BlockCache) (mapSize : SizeMap) :
    Exec (UInt64 × BlockCache × SizeMap) :=
  match pindexLast with
  | none => .ok (UINT64_MAX, cache, mapSize)
  | some p => do
    let ((accum, cnt), cache, mapSize) ← r.addSizes BLK_SIZE_FILTER (some p) 0 0 cache mapSize
    if cnt ≠ UInt64.ofNat BLK_SIZE_FILTER then pure (UINT64_MAX, cache, mapSize)
    else pure (maxSizeFor accum, cache, mapSize)

/-- The size limits of `ConnectBlock`, for a block on top of an entry. -/
def sizeLimits (pindexPrev : ℕ) (cache : BlockCache) (mapSize : SizeMap) (block : Block) :
    Exec Bool := do
  let (max_size, _, _) ← r.getNextMaxSize (some pindexPrev) cache mapSize
  if UInt64.ofNat block.vtx.length > max_size then pure false
  else do
    let size ← block.getSerializeSize
    pure (!decide (size.toUInt64 > max_size))

/-! ## What a node has is of the chain -/

/-- The blocks a node has are those of the index. -/
structure Holds (cache : BlockCache) : Prop where
  file : ∀ {p block}, r.Mem p → cache.file p = some block → block = (r.index p).block
  list : ∀ {block}, block ∈ cache.listBlock → ∃ p, r.Mem p ∧ block = (r.index p).block

def sizeOf (p : ℕ) : UInt64 :=
  match (r.index p).block.getSerializeSize with
  | .ok size => size.toUInt64
  | .error _ => 0

/-- The sizes that are kept are those of the blocks. -/
def Measures (mapSize : SizeMap) : Prop :=
  ∀ {p size}, r.Mem p → mapSize (r.index p).hash = some size → size = r.sizeOf p

def readAll : List ℕ → BlockCache → Bool
  | [], _ => true
  | p :: chain, cache => (r.readBlockFromDisk cache p).1.isSome &&
      readAll chain (r.readBlockFromDisk cache p).2

variable {r} {p q : ℕ} {cache : BlockCache} {mapSize : SizeMap}

theorem getHash_block (hp : r.Mem p) :
    r.getHash (r.index p).block.toBlockHeader = (r.index p).hash := r.getHash_eq hp

theorem isOf_block_iff (hp : r.Mem p) (hq : r.Mem q) :
    r.isOf p (r.index q).block = true ↔ q = p := by
  rw [isOf, decide_eq_true_iff, getHash_block hq]
  constructor
  · intro h
    have hmap : r.mapBlockIndex (r.index p).hash = some q := h ▸ hq
    exact Option.some.inj (hmap.symm.trans hp)
  · rintro rfl
    rfl

theorem Holds.readBlockFromDisk (h : r.Holds cache) (hp : r.Mem p) :
    r.Holds (r.readBlockFromDisk cache p).2 ∧
      ∀ {block}, (r.readBlockFromDisk cache p).1 = some block → block = (r.index p).block := by
  have hown : ∀ block, r.isOf p block = true → (∃ q, r.Mem q ∧ block = (r.index q).block) →
      block = (r.index p).block := by
    rintro block hof ⟨q, hq, rfl⟩
    rw [(isOf_block_iff hp hq).mp hof]
  rw [BlockReader.readBlockFromDisk]
  split
  · next block hfind =>
    have hmem := List.mem_of_find?_eq_some hfind
    refine ⟨⟨h.file, fun hin ↦ ?_⟩, fun heq ↦ ?_⟩
    · rcases List.mem_cons.mp hin with rfl | hin
      · exact h.list hmem
      · exact h.list (List.mem_of_mem_eraseP hin)
    · cases heq
      exact hown _ (List.find?_some hfind) (h.list hmem)
  · split
    · exact ⟨h, fun heq ↦ absurd heq (by simp)⟩
    · next block hfile =>
      split
      · refine ⟨⟨h.file, fun hin ↦ ?_⟩, fun heq ↦ ?_⟩
        · rcases List.mem_cons.mp hin with rfl | hin
          · exact ⟨p, hp, h.file hp hfile⟩
          · split at hin
            · exact h.list (List.mem_of_mem_dropLast hin)
            · exact h.list hin
        · cases heq
          exact h.file hp hfile
      · exact ⟨h, fun heq ↦ absurd heq (by simp)⟩

theorem file_readBlockFromDisk (cache : BlockCache) (p : ℕ) :
    (r.readBlockFromDisk cache p).2.file = cache.file := by
  rw [BlockReader.readBlockFromDisk]
  repeat' split
  all_goals rfl

theorem isSome_readBlockFromDisk (h : r.Holds cache) (hp : r.Mem p) (hfile : cache.file p ≠ none) :
    (r.readBlockFromDisk cache p).1.isSome = true := by
  obtain ⟨block, hblock⟩ := Option.ne_none_iff_exists'.mp hfile
  have hof : r.isOf p block = true := by
    rw [h.file hp hblock]
    exact (isOf_block_iff hp hp).mpr rfl
  rw [BlockReader.readBlockFromDisk]
  split
  · rfl
  · rw [hblock]
    simp [hof]

theorem exists_getSerializeSize (hp : r.Mem p) :
    ∃ size, (r.index p).block.getSerializeSize = .ok size := by
  obtain ⟨bytes, hbytes⟩ := r.writes hp
  exact ⟨UInt32.ofNat bytes.length, by rw [Block.getSerializeSize, hbytes]; rfl⟩

theorem Measures.getSize (h : r.Measures mapSize) (hp : r.Mem p) :
    ∃ mapSize', r.getSize mapSize (r.index p).block = .ok (r.sizeOf p, mapSize') ∧
      r.Measures mapSize' := by
  obtain ⟨size, hsize⟩ := exists_getSerializeSize hp
  have hof : r.sizeOf p = size.toUInt64 := by rw [sizeOf, hsize]
  rw [BlockReader.getSize, getHash_block hp]
  split
  · next kept hkept => exact ⟨mapSize, by rw [h hp hkept], h⟩
  · rw [hsize, hof]
    refine ⟨_, rfl, fun {q kept} hq hkept ↦ ?_⟩
    by_cases heq : (r.index q).hash = (r.index p).hash
    · have hmap : r.mapBlockIndex (r.index p).hash = some q := heq ▸ hq
      obtain rfl := Option.some.inj (hmap.symm.trans hp)
      rw [Function.update_self] at hkept
      rw [hof, Option.some.inj hkept]
    · rw [Function.update_of_ne heq] at hkept
      exact h hq hkept

/-! ## The limit -/

/-- The entries from a pointer on. -/
def Chain (r : BlockReader) : Option ℕ → List ℕ → Prop
  | none, chain => chain = []
  | some p, chain => r.Mem p ∧ Line r.parent p chain

theorem Chain.cases {chain : List ℕ} (h : r.Chain (some p) chain) :
    ∃ rest, chain = p :: rest ∧ r.Chain (r.index p).pprev rest := by
  obtain ⟨hp, hline⟩ := h
  rcases hline with hnone | ⟨hsome, hq⟩
  · exact ⟨[], rfl, by rw [show (r.index p).pprev = none from hnone]; rfl⟩
  · exact ⟨_, rfl, by rw [show (r.index p).pprev = some _ from hsome]; exact ⟨hp.parent hsome, hq⟩⟩

def sumFrom (r : BlockReader) (accum : UInt64) (chain : List ℕ) : UInt64 :=
  chain.foldl (fun accum p ↦ accum + r.sizeOf p) accum

/-- The loop gets through `n` rounds if the blocks can be read. -/
theorem exists_addSizes (n : ℕ) : ∀ {pindex : Option ℕ} {chain : List ℕ} {accum cnt : UInt64}
    {cache : BlockCache} {mapSize : SizeMap}, r.Chain pindex chain → r.Holds cache →
    r.Measures mapSize → cnt.toNat + n < 2 ^ 64 →
    ∃ accum' cnt' cache' mapSize', r.addSizes n pindex accum cnt cache mapSize
        = .ok ((accum', cnt'), cache', mapSize') ∧
      (n ≤ chain.length ∧ r.readAll (chain.take n) cache = true →
        accum' = r.sumFrom accum (chain.take n) ∧ cnt'.toNat = cnt.toNat + n) ∧
      (¬(n ≤ chain.length ∧ r.readAll (chain.take n) cache = true) →
        cnt'.toNat < cnt.toNat + n) := by
  induction n with
  | zero =>
    intro pindex chain accum cnt cache mapSize _ _ _ _
    exact ⟨accum, cnt, cache, mapSize, rfl, fun _ ↦ ⟨rfl, rfl⟩,
      fun hnot ↦ absurd ⟨Nat.zero_le _, rfl⟩ hnot⟩
  | succ n ih =>
    intro pindex chain accum cnt cache mapSize hchain hholds hmeasures hcnt
    rcases pindex with _ | p
    · obtain rfl : chain = [] := hchain
      exact ⟨accum, cnt, cache, mapSize, rfl, by simp⟩
    · obtain ⟨rest, rfl, hrest⟩ := hchain.cases
      obtain ⟨hkept, hblock⟩ := hholds.readBlockFromDisk hchain.1
      rw [addSizes]
      rcases hread : r.readBlockFromDisk cache p with ⟨_ | block, cache₁⟩
      · exact ⟨accum, cnt, cache₁, mapSize, rfl, by simp [readAll, hread]⟩
      · rw [hread] at hkept hblock
        obtain rfl := hblock rfl
        obtain ⟨mapSize₁, hsize, hmeasures₁⟩ := hmeasures.getSize hchain.1
        have hsucc : (cnt + 1).toNat = cnt.toNat + 1 := by
          rw [UInt64.toNat_add, Nat.mod_eq_of_lt (by simp; omega)]
          rfl
        obtain ⟨accum', cnt', cache', mapSize', hrun, hall, hpart⟩ := @ih _ _ (accum + r.sizeOf p)
          (cnt + 1) _ _ hrest hkept hmeasures₁ (by omega)
        have hreads : r.readAll (p :: rest.take n) cache = r.readAll (rest.take n) cache₁ := by
          rw [readAll, hread]
          rfl
        refine ⟨accum', cnt', cache', mapSize', ?_, ?_⟩
        · simp only [hsize]
          exact hrun
        · rw [List.take_succ_cons, hreads, List.length_cons, Nat.add_le_add_iff_right]
          rw [hsucc, Nat.add_assoc, Nat.add_comm 1 n] at hall hpart
          exact ⟨hall, hpart⟩

/-- The node can read the blocks that the limit depends on. -/
def Complete (r : BlockReader) (chain : List ℕ) (cache : BlockCache) : Prop :=
  BLK_SIZE_FILTER ≤ chain.length ∧ r.readAll (chain.take BLK_SIZE_FILTER) cache = true

instance (chain : List ℕ) (cache : BlockCache) : Decidable (r.Complete chain cache) :=
  inferInstanceAs (Decidable (_ ∧ _))

theorem readAll_of_file : ∀ {chain : List ℕ} {cache : BlockCache}, (∀ p ∈ chain, r.Mem p) →
    r.Holds cache → (∀ p ∈ chain, cache.file p ≠ none) → r.readAll chain cache = true := by
  intro chain
  induction chain with
  | nil => exact fun _ _ _ ↦ rfl
  | cons p chain ih =>
    intro cache hmem hholds hfile
    have hp := hmem p List.mem_cons_self
    rw [readAll, isSome_readBlockFromDisk hholds hp (hfile p List.mem_cons_self), Bool.true_and]
    exact ih (fun q hq ↦ hmem q (List.mem_cons_of_mem _ hq)) (hholds.readBlockFromDisk hp).1
      fun q hq ↦ by rw [file_readBlockFromDisk]; exact hfile q (List.mem_cons_of_mem _ hq)

theorem complete_of_file {chain : List ℕ} (hchain : r.Chain (some p) chain)
    (hholds : r.Holds cache) (hlength : BLK_SIZE_FILTER ≤ chain.length)
    (hfile : ∀ q ∈ chain.take BLK_SIZE_FILTER, cache.file q ≠ none) : r.Complete chain cache :=
  ⟨hlength, readAll_of_file (fun q hq ↦ (BlockTree.Mem.line hchain.2 hchain.1).1 q
    (List.mem_of_mem_take hq)) hholds hfile⟩

/-- The limit of a chain for those who can read it. -/
def chainLimit (r : BlockReader) (chain : List ℕ) : UInt64 :=
  maxSizeFor (r.sumFrom 0 (chain.take BLK_SIZE_FILTER))

/-- The limit is that of the chain, or there is none. -/
theorem getNextMaxSize_eq {chain : List ℕ} (hchain : r.Chain (some p) chain)
    (hholds : r.Holds cache) (hmeasures : r.Measures mapSize) :
    ∃ cache' mapSize', r.getNextMaxSize (some p) cache mapSize =
      .ok (if r.Complete chain cache then r.chainLimit chain else UINT64_MAX,
        cache', mapSize') := by
  obtain ⟨accum, cnt, cache', mapSize', hrun, hall, hpart⟩ := @exists_addSizes r BLK_SIZE_FILTER
    _ _ 0 0 _ _ hchain hholds hmeasures (by decide)
  have hcnt : cnt = UInt64.ofNat BLK_SIZE_FILTER ↔ cnt.toNat = BLK_SIZE_FILTER := by
    rw [← UInt64.toNat_inj]
    rfl
  refine ⟨cache', mapSize', ?_⟩
  rw [getNextMaxSize, hrun]
  by_cases hcomplete : r.Complete chain cache
  · obtain ⟨haccum, hrounds⟩ := hall hcomplete
    rw [if_pos hcomplete, chainLimit, ← haccum]
    exact if_neg (not_not.mpr (hcnt.mpr (hrounds.trans (Nat.zero_add _))))
  · rw [if_neg hcomplete]
    refine if_pos fun heq ↦ ?_
    have hless := hpart hcomplete
    rw [hcnt.mp heq] at hless
    exact absurd hless (by decide)

/-- A block is within a limit. -/
def Fits (limit : UInt64) (block : Block) (bytes : List UInt8) : Prop :=
  UInt64.ofNat block.vtx.length ≤ limit ∧ (UInt32.ofNat bytes.length).toUInt64 ≤ limit

instance (limit : UInt64) (block : Block) (bytes : List UInt8) :
    Decidable (Fits limit block bytes) := inferInstanceAs (Decidable (_ ∧ _))

theorem le_UINT64_MAX (n : UInt64) : n ≤ UINT64_MAX := by
  rw [UInt64.le_iff_toNat_le]
  exact Nat.le_of_lt_succ n.toNat_lt

theorem sizeLimits_eq {chain : List ℕ} (hchain : r.Chain (some p) chain) (hholds : r.Holds cache)
    (hmeasures : r.Measures mapSize) {block : Block} {bytes : List UInt8}
    (hbytes : block.serialize = .ok bytes) : r.sizeLimits p cache mapSize block =
      .ok (decide (r.Complete chain cache → Fits (r.chainLimit chain) block bytes)) := by
  obtain ⟨cache', mapSize', hnext⟩ := getNextMaxSize_eq hchain hholds hmeasures
  have hverdict : ∀ limit : UInt64, (if UInt64.ofNat block.vtx.length > limit then pure false
      else do
        let size ← block.getSerializeSize
        pure (!decide (size.toUInt64 > limit)) : Exec Bool) =
        .ok (decide (Fits limit block bytes)) := by
    intro limit
    rw [Block.getSerializeSize, hbytes]
    by_cases hlength : UInt64.ofNat block.vtx.length > limit
    · rw [if_pos hlength, decide_eq_false fun hfits ↦ UInt64.not_le.mpr hlength hfits.1]
      rfl
    · rw [if_neg hlength]
      simp [Fits, UInt64.not_lt.mp hlength, ← UInt64.not_lt, pure, Except.pure, bind, Except.bind]
  rw [sizeLimits, hnext]
  refine (hverdict _).trans ?_
  by_cases hcomplete : r.Complete chain cache
  · simp [hcomplete]
  · simp [hcomplete, Fits, le_UINT64_MAX]

/-- **Local storage and the size limit.** Two nodes on the same chain come to the same verdict on a
block iff both or neither can read the recent blocks of the chain, or the block is within the limit
of the chain. -/
theorem sizeLimits_agree_iff {chain : List ℕ} (hchain : r.Chain (some p) chain)
    {cache' : BlockCache} {mapSize' : SizeMap} (hholds : r.Holds cache)
    (hmeasures : r.Measures mapSize) (hholds' : r.Holds cache') (hmeasures' : r.Measures mapSize')
    {block : Block} {bytes : List UInt8} (hbytes : block.serialize = .ok bytes) :
    r.sizeLimits p cache mapSize block = r.sizeLimits p cache' mapSize' block ↔
      ((r.Complete chain cache ↔ r.Complete chain cache') ∨
        Fits (r.chainLimit chain) block bytes) := by
  rw [sizeLimits_eq hchain hholds hmeasures hbytes, sizeLimits_eq hchain hholds' hmeasures' hbytes,
    Except.ok.injEq, decide_eq_decide]
  tauto

end BlockReader

/-! ## A purged node -/

/-- A stand-in for the hash. All that matters here is that it tells the transactions of a block
apart, and these have different versions. -/
def firstByte (bytes : List UInt8) : UInt256 := BitVec.ofNat 256 (bytes.headD 0).toNat

/-- The surroundings of a node that has not seen any of the accounts. -/
def newNode : Surroundings := ⟨firstByte, fun _ ↦ true, 0, none⟩

def mintAt (height : ℕ) : Transaction := ⟨1, [⟨1, 0, []⟩], [⟨1, 7⟩], [], .ofNat height, 0, false⟩

/-- The block of a height, behind the one of the height before. A block has its height for a hash
and for a time. -/
def chainBlock (height : ℕ) (vtx : List Transaction) : Block :=
  { hashPrevBlock := BitVec.ofNat 256 (height - 1), hashMerkleRoot := 1, hashAccountRoot := 0
    nTime := .ofNat height, nHeight := .ofNat height, nNonce := 0, nVersion := 1
    vtx := mintAt height :: vtx }

theorem mapBlockIndex_hundred {h : UInt256} {p : ℕ}
    (hp : (if h.toNat < 100 then some h.toNat else none) = some p) : p < 100 ∧ p = h.toNat := by
  rw [Option.ite_none_right_eq_some] at hp
  obtain ⟨hlt, rfl⟩ := hp.imp id Option.some.inj
  exact ⟨hlt, rfl⟩

/-- A chain of a hundred blocks with nothing but a coinbase. -/
def hundredBlocks : BlockReader where
  index p := ⟨BitVec.ofNat 256 p, if p = 0 then none else some (p - 1), p, BitVec.ofNat 256 p,
    chainBlock p []⟩
  mapBlockIndex h := if h.toNat < 100 then some h.toNat else none
  genesis := 0
  getHash header := BitVec.ofNat 256 header.nHeight.toNat
  CACHE_SIZE := 1000
  hash_eq hp := by
    obtain ⟨-, rfl⟩ := mapBlockIndex_hundred hp
    simp
  headerHash_eq hp := by
    obtain ⟨-, rfl⟩ := mapBlockIndex_hundred hp
    simp
  parent_mem {_ p q} hp hq := by
    obtain ⟨hlt, -⟩ := mapBlockIndex_hundred hp
    rw [Option.ite_none_left_eq_some] at hq
    obtain ⟨-, hq⟩ := hq
    obtain rfl := Option.some.inj hq
    have hnat : (BitVec.ofNat 256 (p - 1)).toNat = p - 1 :=
      Nat.mod_eq_of_lt (by omega)
    rw [hnat, if_pos (by omega)]
  height_eq {_ p q} hp hq := by
    rw [Option.ite_none_left_eq_some] at hq
    obtain ⟨hne, hq⟩ := hq
    obtain rfl := Option.some.inj hq
    exact (Nat.succ_pred_eq_of_ne_zero hne).symm
  eq_genesis {_ p} hp hq := by
    by_contra hne
    rw [if_neg hne] at hq
    exact absurd hq (by simp)
  getHash_eq {h p} hp := by
    obtain ⟨hlt, rfl⟩ := mapBlockIndex_hundred hp
    rw [chainBlock, UInt64.toNat_ofNat_of_lt' (hlt.trans (by decide)), BitVec.ofNat_toNat,
      BitVec.setWidth_eq]
  writes _ := ⟨_, rfl⟩

def hundred : List ℕ := (List.range 100).reverse

theorem chain_hundred : hundredBlocks.Chain (some 99) hundred := by
  have hline : ∀ p, Line hundredBlocks.parent p (List.range (p + 1)).reverse := by
    intro p
    induction p with
    | zero => exact .root rfl
    | succ p ih =>
      rw [List.range_succ, List.reverse_append]
      exact .step rfl ih
  exact ⟨rfl, hline 99⟩

def blocksFrom (n : ℕ) : BlockCache :=
  ⟨fun p ↦ if n ≤ p then some (hundredBlocks.index p).block else none, []⟩

theorem holds_blocksFrom (n : ℕ) : hundredBlocks.Holds (blocksFrom n) where
  file {p block} _ h := by
    rw [blocksFrom, Option.ite_none_right_eq_some] at h
    exact (Option.some.inj h.2).symm
  list h := absurd h List.not_mem_nil

theorem measures_none : hundredBlocks.Measures fun _ ↦ none :=
  fun _ h ↦ absurd h (by simp)

theorem complete_blocksFrom : hundredBlocks.Complete hundred (blocksFrom 0) ∧
    ¬hundredBlocks.Complete hundred (blocksFrom 50) :=
  ⟨BlockReader.complete_of_file chain_hundred (holds_blocksFrom 0) (by decide)
    fun q _ ↦ Option.some_ne_none _, by decide +kernel⟩

theorem chainLimit_hundred : hundredBlocks.chainLimit hundred = 1000000 := by
  decide +kernel

/-- On a block with a coinbase alone the node that has lost the first fifty blocks agrees. -/
theorem sizeLimits_agree_coinbase :
    checkBlock newNode true true (chainBlock 100 []) = .ok () ∧
      hundredBlocks.sizeLimits 99 (blocksFrom 0) (fun _ ↦ none) (chainBlock 100 []) =
        hundredBlocks.sizeLimits 99 (blocksFrom 50) (fun _ ↦ none) (chainBlock 100 []) := by
  refine ⟨by decide +kernel, (BlockReader.sizeLimits_agree_iff chain_hundred (holds_blocksFrom 0)
    measures_none (holds_blocksFrom 50) measures_none rfl).mpr (Or.inr ?_)⟩
  rw [chainLimit_hundred]
  decide +kernel

/-- A payment of one coin to each of many accounts. -/
def payMany (nVersion : UInt32) (source : UInt160) (n : ℕ) : Transaction :=
  ⟨nVersion, [⟨.ofNat n, source, []⟩], (List.range n).map fun i ↦ ⟨1, BitVec.ofNat 160 i⟩, [], 0, 0,
    false⟩

theorem serialize_payMany (nVersion : UInt32) (source : UInt160) (n : ℕ) :
    ∃ bytes, (payMany nVersion source n).serialize = .ok bytes ∧
      bytes.length = 43 + (writeCompactSize n).length + 28 * n := by
  refine ⟨_, rfl, ?_⟩
  have hsize : (writeCompactSize 0).length = 1 ∧ (writeCompactSize 1).length = 1 := by decide
  simp only [payMany, writeVector, writeBytes, TxIn.serialize, TxOut.serialize, List.length_append,
    Codec.length_leBytes, List.length_flatMap, List.length_map, List.length_range, List.length_nil,
    List.length_singleton, List.map_const', List.sum_replicate, smul_eq_mul, List.map_singleton,
    List.sum_singleton, hsize]
  omega

theorem wellFormed_payMany {nVersion : UInt32} {source : UInt160} {n : ℕ} (hsource : source ≠ 0)
    (hpos : 0 < n) (hn : n < 30000) (hsize : (writeCompactSize n).length ≤ 9) :
    (payMany nVersion source n).WellFormed none := by
  obtain ⟨bytes, hbytes, hlength⟩ := serialize_payMany nVersion source n
  have hin : exactSum ((payMany nVersion source n).vin.map TxIn.nValue) = n :=
    UInt64.toNat_ofNat_of_lt' (hn.trans (by decide))
  have hout : exactSum ((payMany nVersion source n).vout.map TxOut.nValue) = n := by
    simp [payMany, exactSum, Function.comp_def]
  have hcb : (payMany nVersion source n).isCoinBase = false := beq_eq_false_iff_ne.mpr hsource
  refine ⟨by simp [payMany], by simp [payMany, hpos.ne'], ⟨bytes, hbytes, ?_⟩, ?_, ?_,
    Nat.zero_le _, fun _ txin _ ↦ UInt64.zero_le, by simp [payMany], ?_,
    fun h ↦ absurd h (by simp [hcb]),
    fun h ↦ absurd h (by simp [hcb]), fun _ ↦ ?_⟩
  · rw [hlength, MAX_BLOCK_SIZE]
    omega
  · rw [hin]
    exact hn.le.trans (by decide)
  · rw [hin, hout]
  · rw [payMany, List.map_map]
    refine List.nodup_range.map_on fun i hi j hj hij ↦ ?_
    have hij := congrArg BitVec.toNat hij
    simp only [Function.comp_apply, BitVec.toNat_ofNat] at hij
    rw [List.mem_range] at hi hj
    rwa [Nat.mod_eq_of_lt (by omega), Nat.mod_eq_of_lt (by omega)] at hij
  · exact List.forall_mem_singleton.mpr (beq_eq_false_iff_ne.mpr hsource)

theorem length_serialize_header (header : BlockHeader) : header.serialize.length = 122 := by
  simp only [BlockHeader.serialize, List.length_append, Codec.length_leBytes]

def largeBlock : Block := chainBlock 100 [payMany 2 5 21000, payMany 3 6 21000]

theorem checkBlock_largeBlock : checkBlock newNode true true largeBlock = .ok () := by
  have hmint : (mintAt 100).WellFormed none := checkTransaction_eq_ok_iff.mp (by decide +kernel)
  have hcompact : (writeCompactSize 21000).length ≤ 9 := by decide
  refine checkBlock_eq_ok_iff.mpr ⟨by decide +kernel, mintAt 100, _, rfl, fun _ ↦ rfl, rfl,
    fun _ ↦ ?_, ⟨_, rfl⟩, ?_, 1, by decide +kernel, fun _ ↦ rfl⟩
  · rw [largeBlock, chainBlock, List.forall_mem_cons, List.forall_mem_cons,
      List.forall_mem_singleton]
    exact ⟨hmint, wellFormed_payMany (by decide) (by decide) (by decide) hcompact,
      wellFormed_payMany (by decide) (by decide) (by decide) hcompact⟩
  · decide +kernel

theorem serialize_largeBlock : ∃ bytes, largeBlock.serialize = .ok bytes ∧
    bytes.length = 1176287 := by
  obtain ⟨bytes₁, hbytes₁, hlength₁⟩ := serialize_payMany 2 5 21000
  obtain ⟨bytes₂, hbytes₂, hlength₂⟩ := serialize_payMany 3 6 21000
  obtain ⟨coinbase, hcoinbase⟩ : ∃ bytes, (mintAt 100).serialize = .ok bytes := ⟨_, rfl⟩
  have hlength : coinbase.length = 72 := by
    obtain rfl := Except.ok.inj hcoinbase
    decide
  have hcompact : (writeCompactSize 3).length = 1 ∧ (writeCompactSize 21000).length = 3 := by decide
  refine ⟨largeBlock.toBlockHeader.serialize ++ writeCompactSize 3 ++
    [coinbase, bytes₁, bytes₂].flatten, ?_, ?_⟩
  · simp only [Block.serialize, largeBlock, chainBlock, List.mapM_cons, List.mapM_nil, hcoinbase,
      hbytes₁, hbytes₂]
    rfl
  · simp only [List.length_append, length_serialize_header, hcompact, List.length_flatten,
      List.map_cons, List.map_nil, List.sum_cons, List.sum_nil, hlength, hlength₁, hlength₂,
      Nat.reduceAdd, Nat.reduceMul]

/-- On a large one it does not. -/
theorem sizeLimits_differ :
    (∀ p < 100, checkBlock newNode true true (hundredBlocks.index p).block = .ok ()) ∧
      checkBlock newNode true true largeBlock = .ok () ∧
      hundredBlocks.sizeLimits 99 (blocksFrom 0) (fun _ ↦ none) largeBlock = .ok false ∧
      hundredBlocks.sizeLimits 99 (blocksFrom 50) (fun _ ↦ none) largeBlock = .ok true := by
  refine ⟨by decide +kernel, checkBlock_largeBlock, ?_⟩
  obtain ⟨bytes, hbytes, hlength⟩ := serialize_largeBlock
  have hlarge : ¬BlockReader.Fits 1000000 largeBlock bytes := by
    rintro ⟨-, hfits⟩
    rw [hlength] at hfits
    exact absurd hfits (by decide)
  rw [BlockReader.sizeLimits_eq chain_hundred (holds_blocksFrom 0) measures_none hbytes,
    BlockReader.sizeLimits_eq chain_hundred (holds_blocksFrom 50) measures_none hbytes,
    chainLimit_hundred, decide_eq_false fun h ↦ hlarge (h complete_blocksFrom.1),
    decide_eq_true fun h ↦ absurd h complete_blocksFrom.2]
  exact ⟨rfl, rfl⟩

end Cryptonite
