import Cryptonite.Core.Merkle
import Cryptonite.Core.WireCodec
import Cryptonite.Foundation.Loop
import Cryptonite.Foundation.PrunedTree

/-!
# Partial Merkle trees

`CPartialMerkleTree` of `main.cpp` shows that some transactions are in a block. It is the tree of
the block pruned to these transactions, written depth first: `TraverseAndBuild` writes the bits and
hashes, and `TraverseAndExtract` reads them, both along a tree whose shape comes from the number of
transactions.

What `TraverseAndExtract` reads without an error is a pruned tree (`exists_of_traverseAndExtract`),
and a pruned tree that is written down is read back (`traverseAndExtract_eq`). So it is enough to
look at pruned trees.
-/

namespace Cryptonite

open Codec Loop MerkleTree PrunedTree

/-! ## The code -/

structure PartialMerkleTree where
  nTransactions : UInt32
  vBits : List Bool
  vHash : List UInt256
  fBad : Bool
  deriving DecidableEq, Repr

/-- `CalcTreeWidth`: the sum is an `unsigned int`. -/
def calcTreeWidth (nTransactions : UInt32) (height : ℕ) : ℕ :=
  (nTransactions.toNat + 2 ^ height - 1) % 2 ^ 32 / 2 ^ height

/-- The loop that finds `nHeight`. -/
def treeHeight (nTransactions : UInt32) : ℕ :=
  whileSome (fun nHeight ↦ if calcTreeWidth nTransactions nHeight > 1 then some (nHeight + 1)
    else none) 31 0

/-- `CalcHash`. The positions are those of hashes that are there. -/
def calcHash (H : List UInt8 → UInt256) (nTransactions : UInt32) (vTxid : List UInt256) :
    ℕ → ℕ → UInt256
  | 0, pos => vTxid.getD pos 0
  | height + 1, pos =>
    let left := calcHash H nTransactions vTxid height (pos * 2)
    let right := if pos * 2 + 1 < calcTreeWidth nTransactions height then
      calcHash H nTransactions vTxid height (pos * 2 + 1) else left
    H (merklePair (left, right))

def leavesBelow {α : Type*} (height pos : ℕ) (l : List α) : List α :=
  (l.drop (pos * 2 ^ height)).take (2 ^ height)

/-- `fParentOfMatch`: whether there is a match among the leaves below a node. -/
def parentOfMatch (nTransactions : UInt32) (vMatch : List Bool) (height pos : ℕ) : Bool :=
  (leavesBelow height pos (vMatch.take nTransactions.toNat)).any id

/-- `TraverseAndBuild`: what is added to `vBits` and `vHash`. -/
def traverseAndBuild (H : List UInt8 → UInt256) (nTransactions : UInt32) (vTxid : List UInt256)
    (vMatch : List Bool) : ℕ → ℕ → List Bool × List UInt256
  | 0, pos => ([parentOfMatch nTransactions vMatch 0 pos], [calcHash H nTransactions vTxid 0 pos])
  | height + 1, pos =>
    if parentOfMatch nTransactions vMatch (height + 1) pos then
      let left := traverseAndBuild H nTransactions vTxid vMatch height (pos * 2)
      if pos * 2 + 1 < calcTreeWidth nTransactions height then
        let right := traverseAndBuild H nTransactions vTxid vMatch height (pos * 2 + 1)
        (true :: (left.1 ++ right.1), left.2 ++ right.2)
      else (true :: left.1, left.2)
    else ([false], [calcHash H nTransactions vTxid (height + 1) pos])

/-- The bits of a byte, the lowest first. -/
def packByte : List Bool → ℕ
  | [] => 0
  | b :: bits => b.toNat + 2 * packByte bits

/-- `vBytes` on writing, for a number of bytes. -/
def packBytes : ℕ → List Bool → List UInt8
  | 0, _ => []
  | n + 1, bits => UInt8.ofNat (packByte (bits.take 8)) :: packBytes n (bits.drop 8)

/-- `vBytes` on writing. -/
def packBits (vBits : List Bool) : List UInt8 := packBytes ((vBits.length + 7) / 8) vBits

/-- `vBits` on reading. -/
def unpackBits (vBytes : List UInt8) : List Bool :=
  vBytes.flatMap fun byte ↦ (List.range 8).map byte.toNat.testBit

def readUInt256 (src : List UInt8) : Option (UInt256 × List UInt8) := do
  let (n, src) ← readNat 32 src
  some (BitVec.ofNat 256 n, src)

/-- The variables that `TraverseAndExtract` passes by reference, and `fBad`. -/
structure Traversal where
  nBitsUsed : ℕ
  nHashUsed : ℕ
  vMatch : List UInt256
  fBad : Bool
  deriving DecidableEq, Repr

namespace PartialMerkleTree

def build (H : List UInt8 → UInt256) (vTxid : List UInt256) (vMatch : List Bool) :
    PartialMerkleTree :=
  let nTransactions := UInt32.ofNat vTxid.length
  let parts := traverseAndBuild H nTransactions vTxid vMatch (treeHeight nTransactions) 0
  ⟨nTransactions, parts.1, parts.2, false⟩

/-- The writing half of `IMPLEMENT_SERIALIZE`. -/
def serialize (tree : PartialMerkleTree) : List UInt8 :=
  leBytes 4 tree.nTransactions.toNat ++
    writeVector (fun hash : UInt256 ↦ leBytes 32 hash.toNat) tree.vHash ++
    writeBytes (packBits tree.vBits)

def unserialize (src : List UInt8) : Option (PartialMerkleTree × List UInt8) := do
  let (nTransactions, src) ← readNat 4 src
  let (vHash, src) ← readVector readUInt256 src
  let (vBytes, src) ← readByteVector src
  some (⟨UInt32.ofNat nTransactions, unpackBits vBytes, vHash, false⟩, src)

variable (tree : PartialMerkleTree)

/-- A stored hash is used. -/
def useHash (fMatched : Bool) (s : Traversal) : UInt256 × Traversal :=
  match tree.vHash[s.nHashUsed]? with
  | none => (0, { s with fBad := true })
  | some hash => (hash, { s with
      nHashUsed := s.nHashUsed + 1
      vMatch := if fMatched then s.vMatch ++ [hash] else s.vMatch })

def traverseAndExtract (H : List UInt8 → UInt256) : ℕ → ℕ → Traversal → UInt256 × Traversal
  | 0, _, s =>
    match tree.vBits[s.nBitsUsed]? with
    | none => (0, { s with fBad := true })
    | some fParentOfMatch =>
      tree.useHash fParentOfMatch { s with nBitsUsed := s.nBitsUsed + 1 }
  | height + 1, pos, s =>
    match tree.vBits[s.nBitsUsed]? with
    | none => (0, { s with fBad := true })
    | some false => tree.useHash false { s with nBitsUsed := s.nBitsUsed + 1 }
    | some true =>
      let left := traverseAndExtract H height (pos * 2) { s with nBitsUsed := s.nBitsUsed + 1 }
      if pos * 2 + 1 < calcTreeWidth tree.nTransactions height then
        let right := traverseAndExtract H height (pos * 2 + 1) left.2
        (H (merklePair (left.1, right.1)), right.2)
      else (H (merklePair (left.1, left.1)), left.2)

/-- The traversal that `ExtractMatches` makes. -/
def traversal (H : List UInt8 → UInt256) : UInt256 × Traversal :=
  tree.traverseAndExtract H (treeHeight tree.nTransactions) 0 ⟨0, 0, [], tree.fBad⟩

/-- `ExtractMatches`, with `vMatch`. -/
def extractMatches (H : List UInt8 → UInt256) : UInt256 × List UInt256 :=
  if tree.nTransactions = 0 then (0, [])
  else if tree.vHash.length > tree.nTransactions.toNat then (0, [])
  else if tree.vBits.length < tree.vHash.length then (0, [])
  else
    let result := tree.traversal H
    if result.2.fBad then (0, result.2.vMatch)
    else if (result.2.nBitsUsed + 7) / 8 ≠ (tree.vBits.length + 7) / 8 then (0, result.2.vMatch)
    else if result.2.nHashUsed ≠ tree.vHash.length then (0, result.2.vMatch)
    else (result.1, result.2.vMatch)

/-- The pairs that `TraverseAndExtract` hashes. -/
def traversePairs (H : List UInt8 → UInt256) : ℕ → ℕ → Traversal → List (UInt256 × UInt256)
  | 0, _, _ => []
  | height + 1, pos, s =>
    if tree.vBits[s.nBitsUsed]? = some true then
      let left := tree.traverseAndExtract H height (pos * 2) { s with nBitsUsed := s.nBitsUsed + 1 }
      let below := traversePairs H height (pos * 2) { s with nBitsUsed := s.nBitsUsed + 1 }
      if pos * 2 + 1 < calcTreeWidth tree.nTransactions height then
        let right := tree.traverseAndExtract H height (pos * 2 + 1) left.2
        (left.1, right.1) :: (below ++ traversePairs H height (pos * 2 + 1) left.2)
      else (left.1, left.1) :: below
    else []

/-- What is hashed by `ExtractMatches`. -/
def messages (H : List UInt8 → UInt256) : List (List UInt8) :=
  (tree.traversePairs H (treeHeight tree.nTransactions) 0 ⟨0, 0, [], tree.fBad⟩).map merklePair

end PartialMerkleTree

/-! ## The shape of the tree -/

theorem calcTreeWidth_le_one (nTransactions : UInt32) : calcTreeWidth nTransactions 31 ≤ 1 := by
  rw [calcTreeWidth]
  omega

/-- The loop for the height ends with a level of one node at most, and with the first of them. -/
theorem treeHeight_spec (nTransactions : UInt32) :
    calcTreeWidth nTransactions (treeHeight nTransactions) ≤ 1 ∧
      ∀ k < treeHeight nTransactions, 1 < calcTreeWidth nTransactions k := by
  have hstep : ∀ h h' : ℕ, (h ≤ 31 ∧ ∀ k < h, 1 < calcTreeWidth nTransactions k) →
      (if calcTreeWidth nTransactions h > 1 then some (h + 1) else none) = some h' →
      (h' ≤ 31 ∧ ∀ k < h', 1 < calcTreeWidth nTransactions k) ∧ 31 - h' < 31 - h := by
    rintro h h' ⟨hle, hbelow⟩ hsome
    split at hsome
    case isTrue hwide =>
      cases hsome
      have hne : h ≠ 31 := by
        rintro rfl
        exact absurd hwide (Nat.not_lt.mpr (calcTreeWidth_le_one nTransactions))
      refine ⟨⟨by omega, fun k hk ↦ ?_⟩, by omega⟩
      rcases Nat.lt_succ_iff_lt_or_eq.mp hk with hk | rfl
      · exact hbelow k hk
      · exact hwide
    case isFalse => cases hsome
  obtain ⟨⟨-, hbelow⟩, hend⟩ := whileSome_spec hstep
    ⟨Nat.zero_le 31, fun k hk ↦ absurd hk (Nat.not_lt_zero k)⟩ le_rfl
  refine ⟨Nat.le_of_not_lt fun hwide ↦ ?_, hbelow⟩
  rw [treeHeight] at hwide
  rw [if_pos hwide] at hend
  cases hend

section Shape

variable {n : ℕ} (hn : n ≤ 2 ^ 30)
include hn

variable {h : ℕ}

theorem calcTreeWidth_eq (hh : h ≤ 31) :
    calcTreeWidth (UInt32.ofNat n) h = (n + 2 ^ h - 1) / 2 ^ h := by
  have hpow : 2 ^ h ≤ 2 ^ 31 := Nat.pow_le_pow_right two_pos hh
  rw [calcTreeWidth, UInt32.toNat_ofNat_of_lt' (by change n < 2 ^ 32; omega),
    Nat.mod_eq_of_lt (by omega)]

theorem treeHeight_eq (hpos : 0 < n) : treeHeight (UInt32.ofNat n) = Nat.clog 2 n := by
  have hwide : ∀ h ≤ 31, 1 < calcTreeWidth (UInt32.ofNat n) h ↔ h < Nat.clog 2 n := by
    intro h hh
    have hpow := Nat.two_pow_pos h
    rw [calcTreeWidth_eq hn hh, Nat.lt_clog_iff_pow_lt one_lt_two, ← Nat.succ_le_iff,
      Nat.le_div_iff_mul_le hpow]
    omega
  obtain ⟨hend, hbelow⟩ := treeHeight_spec (UInt32.ofNat n)
  have hclog : Nat.clog 2 n ≤ 30 := Nat.clog_le_of_le_pow hn
  have hle : treeHeight (UInt32.ofNat n) ≤ 31 := by
    by_contra hlt
    exact absurd (hbelow 31 (Nat.lt_of_not_le hlt)) (Nat.not_lt.mpr (calcTreeWidth_le_one _))
  refine le_antisymm ?_ ?_
  · by_contra hlt
    exact lt_irrefl _ ((hwide _ (by omega)).mp (hbelow _ (Nat.lt_of_not_le hlt)))
  · by_contra hlt
    exact absurd ((hwide _ hle).mpr (Nat.lt_of_not_le hlt)) (Nat.not_lt.mpr hend)

theorem wide_iff (hh : h ≤ 31) (pos : ℕ) :
    pos < calcTreeWidth (UInt32.ofNat n) h ↔ pos * 2 ^ h < n := by
  have hpow := Nat.two_pow_pos h
  rw [calcTreeWidth_eq hn hh, ← Nat.succ_le_iff, Nat.le_div_iff_mul_le hpow, Nat.succ_mul]
  omega

end Shape

/-! ## Reading a pruned tree -/

variable {α : Type*} {i n : ℕ}

theorem getElem?_of_drop {l ys : List α} {a : α} (h : l.drop i = a :: ys) : l[i]? = some a := by
  rw [← List.head?_drop, h, List.head?_cons]

theorem drop_add_length {l xs ys : List α} (h : l.drop i = xs ++ ys) :
    l.drop (i + xs.length) = ys := by
  rw [← List.drop_drop, h, List.drop_left]

namespace PartialMerkleTree

variable {tree : PartialMerkleTree} {H : List UInt8 → UInt256}

/-- Which nodes have two children. -/
def Wide (tree : PartialMerkleTree) (height pos : ℕ) : Prop :=
  pos * 2 + 1 < calcTreeWidth tree.nTransactions height

theorem useHash_eq {s : Traversal} {d : UInt256} {hs : List UInt256}
    (h : tree.vHash.drop s.nHashUsed = d :: hs) (fMatched : Bool) :
    tree.useHash fMatched s = (d, ⟨s.nBitsUsed, s.nHashUsed + 1,
      if fMatched then s.vMatch ++ [d] else s.vMatch, s.fBad⟩) := by
  rw [useHash, getElem?_of_drop h]

/-- **A pruned tree is read back** from where its bits and hashes stand. -/
theorem traverseAndExtract_eq {h pos : ℕ} {t : PrunedTree UInt256}
    (hfits : t.Fits tree.Wide h pos) : ∀ {s : Traversal} {bs : List Bool} {hs : List UInt256},
    tree.vBits.drop s.nBitsUsed = t.bits ++ bs → tree.vHash.drop s.nHashUsed = t.hashes ++ hs →
    tree.traverseAndExtract H h pos s = (t.value (H ∘ merklePair),
      ⟨s.nBitsUsed + t.bits.length, s.nHashUsed + t.hashes.length, s.vMatch ++ t.matched,
        s.fBad⟩) := by
  induction hfits with
  | @stub h pos d =>
    intro s bs hs hbits hhashes
    have hget : tree.vBits[s.nBitsUsed]? = some false := getElem?_of_drop hbits
    have huse := @useHash_eq tree ⟨s.nBitsUsed + 1, s.nHashUsed, s.vMatch, s.fBad⟩ d hs hhashes
      false
    rcases h with _ | h <;>
    · rw [traverseAndExtract, hget]
      simpa using huse
  | @hit pos d =>
    intro s bs hs hbits hhashes
    have hget : tree.vBits[s.nBitsUsed]? = some true := getElem?_of_drop hbits
    rw [traverseAndExtract, hget]
    exact @useHash_eq tree ⟨s.nBitsUsed + 1, s.nHashUsed, s.vMatch, s.fBad⟩ d hs hhashes true
  | @single h pos t hwide _ ih =>
    intro s bs hs hbits hhashes
    rw [Wide] at hwide
    have hget : tree.vBits[s.nBitsUsed]? = some true := getElem?_of_drop hbits
    have hrest : tree.vBits.drop (s.nBitsUsed + 1) = t.bits ++ bs :=
      drop_add_length (show tree.vBits.drop s.nBitsUsed = [true] ++ (t.bits ++ bs) from hbits)
    have hleft := @ih ⟨s.nBitsUsed + 1, s.nHashUsed, s.vMatch, s.fBad⟩ bs hs hrest hhashes
    rw [traverseAndExtract, hget]
    simp only [hleft]
    rw [if_neg hwide]
    simp [Nat.add_assoc, Nat.add_comm 1]
  | @double h pos l r hwide _ _ ihl ihr =>
    intro s bs hs hbits hhashes
    rw [Wide] at hwide
    have hget : tree.vBits[s.nBitsUsed]? = some true := getElem?_of_drop hbits
    rw [bits, List.cons_append, List.append_assoc] at hbits
    rw [hashes, List.append_assoc] at hhashes
    have hrest : tree.vBits.drop (s.nBitsUsed + 1) = l.bits ++ (r.bits ++ bs) :=
      drop_add_length
        (show tree.vBits.drop s.nBitsUsed = [true] ++ (l.bits ++ (r.bits ++ bs)) from hbits)
    have hleft := @ihl ⟨s.nBitsUsed + 1, s.nHashUsed, s.vMatch, s.fBad⟩ _ _ hrest hhashes
    have hright := @ihr ⟨s.nBitsUsed + 1 + l.bits.length, s.nHashUsed + l.hashes.length,
      s.vMatch ++ l.matched, s.fBad⟩ _ _ (drop_add_length hrest) (drop_add_length hhashes)
    rw [traverseAndExtract, hget]
    simp only [hleft]
    rw [if_pos hwide, hright]
    simp [Nat.add_assoc, Nat.add_comm 1]

theorem useHash_cases {fMatched : Bool} {s : Traversal}
    (hbad : (tree.useHash fMatched s).2.fBad = false) :
    s.fBad = false ∧ (tree.useHash fMatched s).2.vMatch =
      s.vMatch ++ if fMatched then [(tree.useHash fMatched s).1] else [] := by
  rw [useHash] at hbad ⊢
  split at hbad
  · cases hbad
  · exact ⟨hbad, by split <;> simp⟩

/-- **What is read without an error is a pruned tree.** -/
theorem exists_of_traverseAndExtract : ∀ {h pos : ℕ} {s : Traversal},
    (tree.traverseAndExtract H h pos s).2.fBad = false →
    s.fBad = false ∧ ∃ t : PrunedTree UInt256, t.Fits tree.Wide h pos ∧
      (tree.traverseAndExtract H h pos s).1 = t.value (H ∘ merklePair) ∧
      (tree.traverseAndExtract H h pos s).2.vMatch = s.vMatch ++ t.matched ∧
      tree.traversePairs H h pos s = t.pairs (H ∘ merklePair) := by
  intro h
  induction h with
  | zero =>
    intro pos s hbad
    rw [traverseAndExtract] at hbad ⊢
    rcases hget : tree.vBits[s.nBitsUsed]? with _ | fParentOfMatch
    · rw [hget] at hbad
      cases hbad
    · rw [hget] at hbad
      obtain ⟨hs, hmatch⟩ := useHash_cases hbad
      refine ⟨hs, ?_⟩
      rcases fParentOfMatch
      · exact ⟨.stub _, .stub, rfl, hmatch, rfl⟩
      · exact ⟨.hit _, .hit, rfl, hmatch, rfl⟩
  | succ h ih =>
    intro pos s hbad
    rw [traverseAndExtract] at hbad ⊢
    rw [traversePairs]
    rcases hget : tree.vBits[s.nBitsUsed]? with _ | fParentOfMatch
    · rw [hget] at hbad
      cases hbad
    · rw [hget] at hbad
      rcases fParentOfMatch
      · obtain ⟨hs, hmatch⟩ := useHash_cases hbad
        exact ⟨hs, .stub _, .stub, rfl, hmatch, by simp [PrunedTree.pairs]⟩
      · by_cases hwide : pos * 2 + 1 < calcTreeWidth tree.nTransactions h
        · simp only [if_pos hwide] at hbad ⊢
          obtain ⟨hbadLeft, r, hr, hvalueRight, hmatchRight, hpairsRight⟩ := ih hbad
          obtain ⟨hs, l, hl, hvalueLeft, hmatchLeft, hpairsLeft⟩ := ih hbadLeft
          refine ⟨hs, .double l r, .double hwide hl hr, ?_, ?_, ?_⟩
          · rw [hvalueLeft, hvalueRight]
            rfl
          · rw [hmatchRight, hmatchLeft, List.append_assoc]
            rfl
          · rw [hpairsLeft, hpairsRight, hvalueLeft, hvalueRight]
            rfl
        · simp only [if_neg hwide] at hbad ⊢
          obtain ⟨hs, t, ht, hvalue, hmatch, hpairs⟩ := ih hbad
          refine ⟨hs, .single t, .single hwide ht, ?_, hmatch, ?_⟩
          · rw [hvalue]
            rfl
          · rw [hpairs, hvalue]
            rfl

theorem extractMatches_of_traversal {root : UInt256} {s : Traversal}
    (hcount : tree.nTransactions ≠ 0)
    (hhash : tree.vHash.length ≤ tree.nTransactions.toNat)
    (hbits : tree.vHash.length ≤ tree.vBits.length) (h : tree.traversal H = (root, s))
    (hbad : s.fBad = false) (hbitsUsed : (s.nBitsUsed + 7) / 8 = (tree.vBits.length + 7) / 8)
    (hhashUsed : s.nHashUsed = tree.vHash.length) : tree.extractMatches H = (root, s.vMatch) := by
  simp [extractMatches, hcount, Nat.not_lt.mpr hhash, Nat.not_lt.mpr hbits, h, hbad, hbitsUsed,
    hhashUsed]

end PartialMerkleTree

end Cryptonite
