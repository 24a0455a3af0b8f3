import Cryptonite.Core.Merkle
import Cryptonite.Foundation.BitTable

/-!
# Bloom filters

A light client sends a filter, and is told of the transactions that match it. An element is inserted
by setting one bit for each of the hash functions, and nothing clears a bit again: what has been
inserted is found for as long as the filter exists. Two flags that say that the table is full or
empty spare the hashing; they are not part of the serialized form, and `UpdateEmptyFull` computes
them.

Transactions are matched by their hash and by the accounts they take from. By the accounts they
pay to, they are matched only if the flags of the filter say `BLOOM_UPDATE_ALL` (`relevant_iff`).
And a filter without hash functions has an empty table after all insertions, so nothing is found in
it once `UpdateEmptyFull` has seen this.
-/

namespace Cryptonite

open BitTable Codec

/-! ## The hash -/

def rotl32 (x : UInt32) (r : UInt32) : UInt32 := x <<< r ||| x >>> (32 - r)

/-- What a block of four bytes, or what is left at the end, is turned into. -/
def murmurMix (k1 : UInt32) : UInt32 := rotl32 (k1 * 0xcc9e2d51) 15 * 0x1b873593

/-- The body and the tail of `MurmurHash3`. -/
def murmurBody : UInt32 → List UInt8 → UInt32
  | h1, b0 :: b1 :: b2 :: b3 :: rest =>
    let k1 := UInt32.ofNat (leNat [b0, b1, b2, b3])
    murmurBody (rotl32 (h1 ^^^ murmurMix k1) 13 * 5 + 0xe6546b64) rest
  | h1, [] => h1
  | h1, tail => h1 ^^^ murmurMix (UInt32.ofNat (leNat tail))

def murmurHash3 (nHashSeed : UInt32) (vDataToHash : List UInt8) : UInt32 :=
  let h1 := murmurBody nHashSeed vDataToHash ^^^ UInt32.ofNat vDataToHash.length
  let h1 := (h1 ^^^ h1 >>> 16) * 0x85ebca6b
  let h1 := (h1 ^^^ h1 >>> 13) * 0xc2b2ae35
  h1 ^^^ h1 >>> 16

-- a value that `hash_tests.cpp` expects
example : murmurHash3 0 [0x00, 0x11, 0x22, 0x33, 0x44, 0x55, 0x66, 0x77, 0x88] = 0xb4698def := by
  decide

/-! ## The filter -/

def BLOOM_UPDATE_ALL : UInt8 := 1

def BLOOM_UPDATE_MASK : UInt8 := 3

structure BloomFilter where
  vData : List UInt8
  isFull : Bool
  isEmpty : Bool
  nHashFuncs : UInt32
  nTweak : UInt32
  nFlags : UInt8
  deriving DecidableEq, Repr

/-- The bytes of a `uint256` or `uint160`, as they are inserted and looked for. -/
def keyBytes {w : ℕ} (x : BitVec w) : List UInt8 := leBytes (w / 8) x.toNat

namespace BloomFilter

/-- The bit that a hash function has for some data. -/
def index (f : BloomFilter) (vDataToHash : List UInt8) (nHashNum : ℕ) : ℕ :=
  (murmurHash3 (UInt32.ofNat nHashNum * 0xFBA4C795 + f.nTweak) vDataToHash).toNat %
    (f.vData.length * 8)

/-- `CBloomFilter::Hash`; nothing if the division by zero stops the program. -/
def hash (f : BloomFilter) (nHashNum : ℕ) (vDataToHash : List UInt8) : Option ℕ :=
  if f.vData.length * 8 = 0 then none else some (f.index vDataToHash nHashNum)

/-- The loop of `insert`. -/
def setBits (vKey : List UInt8) : List ℕ → BloomFilter → Option BloomFilter
  | [], f => some f
  | i :: is, f => do
    let nIndex ← f.hash i vKey
    setBits vKey is { f with vData := setBit f.vData nIndex }

def insert (f : BloomFilter) (vKey : List UInt8) : Option BloomFilter :=
  if f.isFull then some f
  else do
    let f ← f.setBits vKey (List.range f.nHashFuncs.toNat)
    some { f with isEmpty := false }

/-- The loop of `contains`. -/
def testBits (f : BloomFilter) (vKey : List UInt8) : List ℕ → Option Bool
  | [] => some true
  | i :: is => do
    let nIndex ← f.hash i vKey
    if bit f.vData nIndex then f.testBits vKey is else some false

def contains (f : BloomFilter) (vKey : List UInt8) : Option Bool :=
  if f.isFull then some true
  else if f.isEmpty then some false
  else f.testBits vKey (List.range f.nHashFuncs.toNat)

/-- The loop over the outputs in `IsRelevantAndUpdate`. -/
def findOutputs (f : BloomFilter) : List TxOut → Bool → Option Bool
  | [], fFound => some fFound
  | txout :: vout, fFound => do
    let found ← f.contains (keyBytes txout.pubKey)
    f.findOutputs vout
      (fFound || found && decide (f.nFlags &&& BLOOM_UPDATE_MASK = BLOOM_UPDATE_ALL))

/-- The loop over the inputs in `IsRelevantAndUpdate`. -/
def findInput (f : BloomFilter) : List TxIn → Option Bool
  | [] => some false
  | txin :: vin => do
    if ← f.contains (keyBytes txin.pubKey) then some true else f.findInput vin

/-- `CBloomFilter::IsRelevantAndUpdate`, which updates nothing. -/
def isRelevantAndUpdate (f : BloomFilter) (tx : Transaction) (hash : UInt256) : Option Bool :=
  if f.isFull then some true
  else if f.isEmpty then some false
  else do
    let fFound ← f.contains (keyBytes hash)
    if ← f.findOutputs tx.vout fFound then some true else f.findInput tx.vin

def updateEmptyFull (f : BloomFilter) : BloomFilter :=
  { f with isFull := f.vData.all (· == 0xff), isEmpty := f.vData.all (· == 0) }

def serialize (f : BloomFilter) : List UInt8 :=
  writeBytes f.vData ++ leBytes 4 f.nHashFuncs.toNat ++ leBytes 4 f.nTweak.toNat ++ [f.nFlags]

/-- `CBloomFilter`, read into a filter that the default constructor has made. This one says that it
is full, and leaves it open whether it is empty. -/
def unserialize (isEmpty : Bool) (src : List UInt8) : Option (BloomFilter × List UInt8) := do
  let (vData, src) ← readByteVector src
  let (nHashFuncs, src) ← readNat 4 src
  let (nTweak, src) ← readNat 4 src
  match src with
  | [] => none
  | nFlags :: src =>
    some ({
      vData := vData
      isFull := true
      isEmpty := isEmpty
      nHashFuncs := UInt32.ofNat nHashFuncs
      nTweak := UInt32.ofNat nTweak
      nFlags := nFlags }, src)

end BloomFilter

inductive FilterOp where
  | insert (vKey : List UInt8)
  | updateEmptyFull
  /-- A round trip, and then `UpdateEmptyFull`. The flag is what the constructor left open. -/
  | reload (isEmpty : Bool)

def insertedBy (ops : List FilterOp) : List (List UInt8) :=
  ops.filterMap fun
    | .insert vKey => some vKey
    | _ => none

namespace BloomFilter

def step (f : BloomFilter) : FilterOp → Option BloomFilter
  | .insert vKey => f.insert vKey
  | .updateEmptyFull => some f.updateEmptyFull
  | .reload isEmpty => (unserialize isEmpty f.serialize).map fun (f, _) ↦ f.updateEmptyFull

def run (f : BloomFilter) (ops : List FilterOp) : Option BloomFilter := ops.foldlM step f

/-! ## What is found -/

def hit (f : BloomFilter) (vKey : List UInt8) : Bool :=
  (List.range f.nHashFuncs.toNat).all fun i ↦ bit f.vData (f.index vKey i)

/-- The filter is full if it says so, its elements can be hashed if it is asked to do so, and it can
be read again. -/
structure WellFormed (f : BloomFilter) : Prop where
  full : f.isFull = true → ∀ b ∈ f.vData, b = 0xff
  hashable : f.vData = [] → f.isFull = true ∨ f.nHashFuncs = 0
  size_le : f.vData.length ≤ MAX_SIZE

variable {f f' : BloomFilter} {vKey : List UInt8}

theorem index_lt (h : f.vData ≠ []) (vKey : List UInt8) (i : ℕ) :
    f.index vKey i < f.vData.length * 8 :=
  Nat.mod_lt _ (Nat.mul_pos (List.length_pos_iff.mpr h) (by decide))

theorem hash_eq (h : f.vData ≠ []) (vKey : List UInt8) (i : ℕ) :
    f.hash i vKey = some (f.index vKey i) := by
  have := List.length_pos_iff.mpr h
  rw [hash, if_neg (by omega)]

theorem index_congr (hlength : f'.vData.length = f.vData.length) (htweak : f'.nTweak = f.nTweak) :
    f'.index = f.index := by
  funext vKey i
  rw [index, index, hlength, htweak]

theorem setBits_eq {is : List ℕ} (h : f.vData ≠ []) : setBits vKey is f =
    some { f with vData := (is.map (f.index vKey)).foldl setBit f.vData } := by
  induction is generalizing f with
  | nil => rfl
  | cons i is ih =>
    have hlength := length_setBit f.vData (f.index vKey i)
    have hne : setBit f.vData (f.index vKey i) ≠ [] := by
      rw [← List.length_pos_iff, hlength]
      exact List.length_pos_iff.mpr h
    have hindex : index { f with vData := setBit f.vData (f.index vKey i) } = f.index :=
      index_congr hlength rfl
    have hrest := @ih { f with vData := setBit f.vData (f.index vKey i) } hne
    rw [hindex] at hrest
    rw [setBits, hash_eq h]
    exact hrest

theorem testBits_eq {is : List ℕ} (h : f.vData ≠ []) :
    f.testBits vKey is = some (is.all fun i ↦ bit f.vData (f.index vKey i)) := by
  induction is with
  | nil => rfl
  | cons i is ih =>
    rw [testBits, hash_eq h]
    rcases hbit : bit f.vData (f.index vKey i) with _ | _
    · simp [hbit]
    · simp [hbit, ih]

namespace WellFormed

theorem cases_hash (h : f.WellFormed) (hfull : f.isFull = false) :
    f.vData ≠ [] ∨ List.range f.nHashFuncs.toNat = [] := by
  by_cases hnil : f.vData = []
  · refine .inr ?_
    rw [(h.hashable hnil).resolve_left (by simp [hfull])]
    rfl
  · exact .inl hnil

theorem insert_eq (h : f.WellFormed) (hfull : f.isFull = false) (vKey : List UInt8) :
    f.insert vKey = some { f with
      vData := ((List.range f.nHashFuncs.toNat).map (f.index vKey)).foldl setBit f.vData
      isEmpty := false } := by
  have hset : setBits vKey (List.range f.nHashFuncs.toNat) f = some { f with
      vData := ((List.range f.nHashFuncs.toNat).map (f.index vKey)).foldl setBit f.vData } := by
    rcases h.cases_hash hfull with hne | hnil
    · exact setBits_eq hne
    · rw [hnil]
      rfl
  rw [insert, if_neg (by simp [hfull]), hset]
  rfl

theorem contains_eq (h : f.WellFormed) (vKey : List UInt8) :
    f.contains vKey = some (f.isFull || !f.isEmpty && f.hit vKey) := by
  rw [contains]
  rcases hfull : f.isFull with _ | _
  · rcases f.isEmpty with _ | _
    · rcases h.cases_hash hfull with hne | hnil
      · simp [testBits_eq hne, hit]
      · simp [hnil, testBits, hit]
    · rfl
  · rfl

theorem isRelevantAndUpdate_eq (h : f.WellFormed) (tx : Transaction) (hash : UInt256) :
    f.isRelevantAndUpdate tx hash = some (f.isFull || !f.isEmpty && (f.hit (keyBytes hash) ||
      tx.vout.any (fun txout ↦ f.hit (keyBytes txout.pubKey)) &&
        decide (f.nFlags &&& BLOOM_UPDATE_MASK = BLOOM_UPDATE_ALL) ||
      tx.vin.any fun txin ↦ f.hit (keyBytes txin.pubKey))) := by
  rw [isRelevantAndUpdate]
  rcases hfull : f.isFull with _ | _
  · rcases hempty : f.isEmpty with _ | _
    · have hcontains : ∀ vKey, f.contains vKey = some (f.hit vKey) := by
        intro vKey
        rw [h.contains_eq, hfull, hempty]
        rfl
      have houtputs : ∀ vout fFound, f.findOutputs vout fFound = some (fFound ||
          vout.any (fun txout ↦ f.hit (keyBytes txout.pubKey)) &&
            decide (f.nFlags &&& BLOOM_UPDATE_MASK = BLOOM_UPDATE_ALL)) := by
        intro vout
        induction vout with
        | nil => simp [findOutputs]
        | cons txout vout ih =>
          intro fFound
          simp only [findOutputs, hcontains, Option.bind_eq_bind, Option.bind_some, ih,
            List.any_cons, Bool.and_or_distrib_right, Bool.or_assoc]
      have hinputs : ∀ vin, f.findInput vin =
          some (vin.any fun txin ↦ f.hit (keyBytes txin.pubKey)) := by
        intro vin
        induction vin with
        | nil => rfl
        | cons txin vin ih =>
          rcases hhit : f.hit (keyBytes txin.pubKey) with _ | _
          · simp [findInput, hcontains, hhit, ih]
          · simp [findInput, hcontains, hhit]
      simp only [hcontains, houtputs, hinputs, Option.bind_eq_bind, Option.bind_some]
      cases f.hit (keyBytes hash) ||
        tx.vout.any (fun txout ↦ f.hit (keyBytes txout.pubKey)) &&
          decide (f.nFlags &&& BLOOM_UPDATE_MASK = BLOOM_UPDATE_ALL) <;> rfl
    · rfl
  · rfl

end WellFormed

/-! ## What an operation preserves -/

/-- A filter says that it is full or empty because it is, and what it says besides is not
written. -/
theorem unserialize_serialize (hsize : f.vData.length ≤ MAX_SIZE) (isEmpty : Bool) :
    unserialize isEmpty f.serialize = some ({ f with isFull := true, isEmpty := isEmpty }, []) := by
  simp only [unserialize, serialize, List.append_assoc, readByteVector_writeBytes hsize,
    @readNat_leBytes 4 _ f.nHashFuncs.toNat_lt, @readNat_leBytes 4 _ f.nTweak.toNat_lt,
    Option.bind_eq_bind, Option.bind_some, UInt32.ofNat_toNat]

/-- What was inserted is found: its bits are set, and if there are any then the filter does not take
itself for empty. -/
structure Sound (f : BloomFilter) (inserted : List (List UInt8)) : Prop where
  wellFormed : f.WellFormed
  hit : ∀ vKey ∈ inserted, f.isFull = true ∨ f.hit vKey = true
  awake : inserted ≠ [] → f.nHashFuncs ≠ 0 → f.isFull = true ∨ f.isEmpty = false

variable {inserted : List (List UInt8)}

theorem updateEmptyFull_isFull : f.updateEmptyFull.isFull = true ↔ ∀ b ∈ f.vData, b = 0xff := by
  simp [updateEmptyFull]

theorem wellFormed_updateEmptyFull (hsize : f.vData.length ≤ MAX_SIZE) :
    f.updateEmptyFull.WellFormed where
  full := updateEmptyFull_isFull.mp
  hashable hnil := .inl (updateEmptyFull_isFull.mpr fun b hb ↦ by
    rw [show f.vData = [] from hnil] at hb
    exact absurd hb List.not_mem_nil)
  size_le := hsize

theorem isEmpty_of_hit (hhit : f.hit vKey = true) (hfuncs : f.nHashFuncs ≠ 0) :
    f.updateEmptyFull.isEmpty = false := by
  have hpos : 0 < f.nHashFuncs.toNat := by
    rw [Nat.pos_iff_ne_zero]
    exact fun hzero ↦ hfuncs (UInt32.toNat_inj.mp hzero)
  have hbit := List.all_eq_true.mp hhit 0 (List.mem_range.mpr hpos)
  obtain ⟨b, hb, hne⟩ := exists_ne_zero_of_bit hbit
  rw [updateEmptyFull, List.all_eq_false]
  exact ⟨b, hb, by simpa using hne⟩

namespace Sound

theorem updateEmptyFull (h : f.Sound inserted) : f.updateEmptyFull.Sound inserted := by
  have hhit : ∀ vKey ∈ inserted, f.updateEmptyFull.isFull = true ∨ f.hit vKey = true := by
    intro vKey hmem
    rcases h.hit vKey hmem with hfull | hhit
    · exact .inl (updateEmptyFull_isFull.mpr (h.wellFormed.full hfull))
    · exact .inr hhit
  refine ⟨wellFormed_updateEmptyFull h.wellFormed.size_le, hhit, ?_⟩
  intro hne hfuncs
  obtain ⟨vKey, hmem⟩ := List.exists_mem_of_ne_nil _ hne
  rcases hhit vKey hmem with hfull | hhit
  · exact .inl hfull
  · exact .inr (isEmpty_of_hit hhit hfuncs)

/-- The flags do not matter for a round trip, since they are computed again. -/
theorem reload (h : f.Sound inserted) (isEmpty : Bool) :
    f.step (.reload isEmpty) = some f.updateEmptyFull := by
  rw [step, unserialize_serialize h.wellFormed.size_le]
  rfl

theorem insert (h : f.Sound inserted) (vKey : List UInt8) :
    ∃ f', f.insert vKey = some f' ∧ f'.Sound (vKey :: inserted) ∧
      f'.nHashFuncs = f.nHashFuncs ∧ f'.nFlags = f.nFlags := by
  rcases hfull : f.isFull with _ | _
  · generalize hindices : (List.range f.nHashFuncs.toNat).map (f.index vKey) = indices
    have hinsert := h.wellFormed.insert_eq hfull vKey
    rw [hindices] at hinsert
    have hlength : (indices.foldl setBit f.vData).length = f.vData.length :=
      length_setBits f.vData indices
    have hindex : index { f with vData := indices.foldl setBit f.vData, isEmpty := false } =
        f.index := index_congr hlength rfl
    refine ⟨_, hinsert, ⟨⟨?_, ?_, ?_⟩, ?_, fun _ _ ↦ .inr rfl⟩, rfl, rfl⟩
    · exact fun hfull' ↦ absurd (hfull.symm.trans hfull') (by decide)
    · intro hnil
      refine h.wellFormed.hashable (List.length_eq_zero_iff.mp ?_)
      rw [← hlength]
      exact List.length_eq_zero_iff.mpr hnil
    · exact hlength.trans_le h.wellFormed.size_le
    · intro x hx
      refine .inr (List.all_eq_true.mpr fun i hi ↦ ?_)
      rw [hindex]
      rcases List.mem_cons.mp hx with rfl | hx
      · -- if there is no table, then there is no hash function either
        have hne := (h.wellFormed.cases_hash hfull).resolve_right fun hnil ↦
          absurd hi (by simp only [hnil, List.not_mem_nil, not_false_eq_true])
        refine bit_setBits_of_mem ?_ (index_lt hne x i)
        rw [← hindices]
        exact List.mem_map_of_mem hi
      · have hhit := (h.hit x hx).resolve_left (by simp [hfull])
        exact bit_setBits_of_bit indices (List.all_eq_true.mp hhit i hi)
  · refine ⟨f, by rw [BloomFilter.insert, if_pos hfull], ?_, rfl, rfl⟩
    exact ⟨h.wellFormed, fun _ _ ↦ .inl hfull, fun _ _ ↦ .inl hfull⟩

theorem run (h : f.Sound inserted) (ops : List FilterOp) :
    ∃ f', f.run ops = some f' ∧ f'.Sound ((insertedBy ops).reverse ++ inserted) ∧
      f'.nHashFuncs = f.nHashFuncs ∧ f'.nFlags = f.nFlags := by
  induction ops generalizing f inserted with
  | nil => exact ⟨f, rfl, h, rfl, rfl⟩
  | cons op ops ih =>
    rw [BloomFilter.run, List.foldlM_cons]
    cases op with
    | insert vKey =>
      obtain ⟨f₁, hinsert, h₁, hfuncs₁, hflags₁⟩ := h.insert vKey
      obtain ⟨f', hrun, h', hfuncs, hflags⟩ := ih h₁
      refine ⟨f', ?_, ?_, hfuncs.trans hfuncs₁, hflags.trans hflags₁⟩
      · rw [step, hinsert]
        exact hrun
      · simpa only [insertedBy, List.filterMap_cons, List.reverse_cons, List.append_assoc,
          List.singleton_append] using h'
    | updateEmptyFull => exact ih h.updateEmptyFull
    | reload isEmpty =>
      rw [h.reload]
      exact ih h.updateEmptyFull

end Sound

/-- **No false negatives.** Every transaction whose hash, one of whose input accounts, or one of
whose output accounts has been inserted is relevant, if there is a hash function at all and, in the
last case, the flags are `BLOOM_UPDATE_ALL`. With other flags the output accounts are not looked at:
the filter must be full, or happen to have the hash or an input account. -/
theorem relevant_iff (h : f.WellFormed) (ops : List FilterOp) (tx : Transaction) (hash : UInt256)
    (hins : keyBytes hash ∈ insertedBy ops ∨
      (∃ txin ∈ tx.vin, keyBytes txin.pubKey ∈ insertedBy ops) ∨
      ∃ txout ∈ tx.vout, keyBytes txout.pubKey ∈ insertedBy ops) :
    ∃ f', f.run ops = some f' ∧
      (f.nHashFuncs ≠ 0 → (f.nFlags &&& BLOOM_UPDATE_MASK = BLOOM_UPDATE_ALL ∨
          keyBytes hash ∈ insertedBy ops ∨
          ∃ txin ∈ tx.vin, keyBytes txin.pubKey ∈ insertedBy ops) →
        f'.isRelevantAndUpdate tx hash = some true) ∧
      (f'.isRelevantAndUpdate tx hash = some true ↔ f'.isFull = true ∨ f'.isEmpty = false ∧
        (f.nFlags &&& BLOOM_UPDATE_MASK = BLOOM_UPDATE_ALL ∨ f'.hit (keyBytes hash) = true ∨
          ∃ txin ∈ tx.vin, f'.hit (keyBytes txin.pubKey) = true)) := by
  have hnone : f.Sound [] :=
    ⟨h, fun _ hmem ↦ absurd hmem List.not_mem_nil, fun hne ↦ absurd rfl hne⟩
  obtain ⟨f', hrun, hsound, hfuncs, hflags⟩ := hnone.run ops
  rw [List.append_nil] at hsound
  have hhit : ∀ {vKey}, vKey ∈ insertedBy ops → f'.isFull = true ∨ f'.hit vKey = true :=
    fun hmem ↦ hsound.hit _ (List.mem_reverse.mpr hmem)
  have hrelevant : f'.isRelevantAndUpdate tx hash = some true ↔
      f'.isFull = true ∨ f'.isEmpty = false ∧ ((f'.hit (keyBytes hash) = true ∨
        (∃ txout ∈ tx.vout, f'.hit (keyBytes txout.pubKey) = true) ∧
          f.nFlags &&& BLOOM_UPDATE_MASK = BLOOM_UPDATE_ALL) ∨
        ∃ txin ∈ tx.vin, f'.hit (keyBytes txin.pubKey) = true) := by
    rw [hsound.wellFormed.isRelevantAndUpdate_eq, hflags]
    simp only [Option.some.injEq, Bool.or_eq_true, Bool.and_eq_true, Bool.not_eq_true',
      List.any_eq_true, decide_eq_true_eq]
  have hiff : f'.isRelevantAndUpdate tx hash = some true ↔ f'.isFull = true ∨ f'.isEmpty = false ∧
      (f.nFlags &&& BLOOM_UPDATE_MASK = BLOOM_UPDATE_ALL ∨ f'.hit (keyBytes hash) = true ∨
        ∃ txin ∈ tx.vin, f'.hit (keyBytes txin.pubKey) = true) := by
    rw [hrelevant]
    constructor
    · rintro (hfull | ⟨hawake, (hhash | ⟨-, hall⟩) | hin⟩)
      · exact .inl hfull
      · exact .inr ⟨hawake, .inr (.inl hhash)⟩
      · exact .inr ⟨hawake, .inl hall⟩
      · exact .inr ⟨hawake, .inr (.inr hin)⟩
    · rintro (hfull | ⟨hawake, hall | hhash | hin⟩)
      · exact .inl hfull
      · -- with these flags, whatever has been inserted is found
        rcases hins with hmem | ⟨txin, htx, hmem⟩ | ⟨txout, htx, hmem⟩
        · exact (hhit hmem).imp_right fun hhash ↦ ⟨hawake, .inl (.inl hhash)⟩
        · exact (hhit hmem).imp_right fun hin ↦ ⟨hawake, .inr ⟨txin, htx, hin⟩⟩
        · exact (hhit hmem).imp_right fun hout ↦ ⟨hawake, .inl (.inr ⟨⟨txout, htx, hout⟩, hall⟩)⟩
      · exact .inr ⟨hawake, .inl (.inl hhash)⟩
      · exact .inr ⟨hawake, .inr hin⟩
  refine ⟨f', hrun, fun hne hfound ↦ hiff.mpr ?_, hiff⟩
  have hsome : (insertedBy ops).reverse ≠ [] := by
    rw [Ne, List.reverse_eq_nil_iff]
    rcases hins with hmem | ⟨_, _, hmem⟩ | ⟨_, _, hmem⟩ <;> exact List.ne_nil_of_mem hmem
  rcases hsound.awake hsome (hfuncs ▸ hne) with hfull | hawake
  · exact .inl hfull
  · rcases hfound with hall | hmem | ⟨txin, htx, hmem⟩
    · exact .inr ⟨hawake, .inl hall⟩
    · exact (hhit hmem).imp_right fun hhash ↦ ⟨hawake, .inr (.inl hhash)⟩
    · exact (hhit hmem).imp_right fun hin ↦ ⟨hawake, .inr (.inr ⟨txin, htx, hin⟩)⟩

/-- What the constructor leaves: a table of zeros, and neither flag. -/
def fresh (size : ℕ) (nHashFuncs nTweak : UInt32) (nFlags : UInt8) : BloomFilter :=
  ⟨List.replicate size 0, false, false, nHashFuncs, nTweak, nFlags⟩

theorem wellFormed_fresh {size : ℕ} {nHashFuncs : UInt32} (h : size = 0 → nHashFuncs = 0)
    (hsize : size ≤ MAX_SIZE) (nTweak : UInt32) (nFlags : UInt8) :
    (fresh size nHashFuncs nTweak nFlags).WellFormed where
  full hfull := absurd hfull Bool.false_ne_true
  hashable hnil := .inr (h (by simpa [fresh] using hnil))
  size_le := by rwa [fresh, List.length_replicate]

theorem wellFormed_blank (isEmpty : Bool) (nHashFuncs nTweak : UInt32) (nFlags : UInt8) :
    WellFormed ⟨[], true, isEmpty, nHashFuncs, nTweak, nFlags⟩ where
  full _ := List.forall_mem_nil _
  hashable _ := .inl rfl
  size_le := Nat.zero_le _

/-- A filter that was sent may be anything, but it is well formed after `UpdateEmptyFull`. -/
theorem wellFormed_loaded {isEmpty : Bool} {src r : List UInt8}
    (h : unserialize isEmpty src = some (f, r)) : f.updateEmptyFull.WellFormed := by
  simp only [unserialize, Option.bind_eq_bind, Option.bind_eq_some_iff] at h
  obtain ⟨⟨vData, src₁⟩, hvData, ⟨nHashFuncs, src₂⟩, -, ⟨nTweak, src₃⟩, -, hflags⟩ := h
  rcases src₃ with _ | ⟨nFlags, src₃⟩
  · cases hflags
  · cases hflags
    exact wellFormed_updateEmptyFull (length_of_readByteVector hvData)

def fiveToSix : Transaction where
  nVersion := 1
  vin := [⟨10, 5, []⟩]
  vout := [⟨10, 6⟩]
  msg := []
  nLockHeight := 0
  nLimitValue := 0
  fSetLimit := false

/-- A client that looks for payments to account 6 with the right flags is told of this one, also by
a filter that has been sent. -/
theorem relevant_with_all : ∃ f', (fresh 8 2 0 BLOOM_UPDATE_ALL).run
      [.insert (keyBytes (6 : UInt160)), .reload false] = some f' ∧
    f'.isRelevantAndUpdate fiveToSix 0 = some true := by
  obtain ⟨f', hrun, hrelevant, -⟩ := relevant_iff
    (@wellFormed_fresh 8 2 (by decide) (by decide) 0 BLOOM_UPDATE_ALL)
    [.insert (keyBytes (6 : UInt160)), .reload false] fiveToSix 0
    (.inr (.inr ⟨⟨10, 6⟩, List.mem_singleton_self _, List.mem_singleton_self _⟩))
  exact ⟨f', hrun, hrelevant (by decide) (.inl (by decide))⟩

/-- With other flags it is not. -/
theorem payment_hidden : ∃ hash, fiveToSix.getHash Sha256.sha256d = .ok hash ∧
    ((fresh 8 2 0 0).run [.insert (keyBytes (6 : UInt160))]).bind
      (·.isRelevantAndUpdate fiveToSix hash) = some false := by
  refine ⟨0xecd3ea9e56637096b34b813cbe7918025858ed2bf06f65abd84eed127c4993b2, ?_, ?_⟩
  · decide +kernel
  · decide +kernel

end BloomFilter

end Cryptonite
