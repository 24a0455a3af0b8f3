import Cryptonite.Core.Merkle
import Cryptonite.Foundation.MerkleBranch

/-!
# The branches of a block's Merkle tree

A block keeps its Merkle tree in one vector, level after level, and `GetMerkleBranch` finds the
nodes of a branch by their places in it. The vector is filled by `BuildMerkleTree`, which clears it
first, or by `GetMerkleBranch` itself if it is still empty. `CheckMerkleBranch` knows nothing of the
tree: it puts together a hash, a branch and the bits of an index.

Both loops go from a level to the next with the place `j` where it begins and its size. The vector
before `j` is what they have left behind, and what begins there is the rest of the tree.
-/

namespace Cryptonite

open MerkleTree

variable {H : List UInt8 → UInt256}

/-! ## The model -/

/-- `Hash` of two nodes. -/
def hashPair (H : List UInt8 → UInt256) (a b : UInt256) : UInt256 := H (merklePair (a, b))

/-- The inner loop of `BuildMerkleTree`, for the pair that begins at `i`. -/
def pushPair (H : List UInt8 → UInt256) (j nSize : ℕ) (vMerkleTree : List UInt256) (i : ℕ) :
    Exec (List UInt256) :=
  let i2 := min (i + 1) (nSize - 1)
  match vMerkleTree[j + i]?, vMerkleTree[j + i2]? with
  | some a, some b => .ok (vMerkleTree ++ [hashPair H a b])
  | _, _ => .error .outOfBounds

/-- The outer loop of `BuildMerkleTree`, for at most `n` rounds. -/
def pushLevels (H : List UInt8 → UInt256) : ℕ → ℕ → ℕ → List UInt256 → Exec (List UInt256)
  | 0, _, _, vMerkleTree => .ok vMerkleTree
  | n + 1, j, nSize, vMerkleTree =>
    if 1 < nSize then do
      let starts := (List.range ((nSize + 1) / 2)).map (2 * ·)
      let vMerkleTree ← starts.foldlM (pushPair H j nSize) vMerkleTree
      pushLevels H n (j + nSize) ((nSize + 1) / 2) vMerkleTree
    else .ok vMerkleTree

/-- `BuildMerkleTree`: what it returns, and the vector it leaves. -/
def fillMerkleTree (H : List UInt8 → UInt256) (vtx : List Transaction) :
    Exec (UInt256 × List UInt256) := do
  let leaves ← vtx.mapM (Transaction.getHash H)
  -- a level is smaller than the one before, so there are fewer rounds than transactions
  let vMerkleTree ← pushLevels H vtx.length 0 vtx.length leaves
  .ok (vMerkleTree.getLast?.getD 0, vMerkleTree)

/-- The loop of `GetMerkleBranch`, for at most `n` rounds. -/
def branchFrom (vMerkleTree : List UInt256) : ℕ → ℕ → ℕ → ℕ → Exec (List UInt256)
  | 0, _, _, _ => .ok []
  | n + 1, j, nSize, nIndex =>
    if 1 < nSize then
      let i := min (nIndex ^^^ 1) (nSize - 1)
      match vMerkleTree[j + i]? with
      | none => .error .outOfBounds
      | some hash => do
        let vMerkleBranch ← branchFrom vMerkleTree n (j + nSize) ((nSize + 1) / 2) (nIndex >>> 1)
        .ok (hash :: vMerkleBranch)
    else .ok []

/-- `GetMerkleBranch`, for a block with some vector of nodes: the branch, and the vector it
leaves. -/
def getMerkleBranch (H : List UInt8 → UInt256) (vtx : List Transaction)
    (vMerkleTree : List UInt256) (nIndex : ℕ) : Exec (List UInt256 × List UInt256) := do
  let vMerkleTree ← if vMerkleTree = [] then (·.2) <$> fillMerkleTree H vtx else .ok vMerkleTree
  let vMerkleBranch ← branchFrom vMerkleTree vtx.length 0 vtx.length nIndex
  .ok (vMerkleBranch, vMerkleTree)

/-- The loop of `CheckMerkleBranch`; `>>` rounds down. -/
def foldBranch (H : List UInt8 → UInt256) : UInt256 → List UInt256 → ℤ → UInt256
  | hash, [], _ => hash
  | hash, otherside :: vMerkleBranch, nIndex =>
    let hash := if nIndex % 2 = 1 then hashPair H otherside hash else hashPair H hash otherside
    foldBranch H hash vMerkleBranch (nIndex / 2)

def checkMerkleBranch (H : List UInt8 → UInt256) (hash : UInt256) (vMerkleBranch : List UInt256)
    (nIndex : ℤ) : UInt256 :=
  if nIndex = -1 then 0 else foldBranch H hash vMerkleBranch nIndex

/-! ## The vector -/

section Vector

variable {pre l rest : List UInt256} {n i : ℕ}

theorem getElem?_middle (hi : i < l.length) : (pre ++ (l ++ rest))[pre.length + i]? = l[i]? := by
  rw [List.getElem?_append_right (Nat.le_add_right _ _), Nat.add_sub_cancel_left,
    List.getElem?_append_left hi]

theorem foldlM_pushPair {k : ℕ} (hk : k ≤ (l.length + 1) / 2) :
    ((List.range k).map (2 * ·)).foldlM (pushPair H pre.length l.length) (pre ++ l) =
      .ok (pre ++ (l ++ (level (H ∘ merklePair) l).take k)) := by
  induction k with
  | zero =>
    rw [List.take_zero, List.append_nil]
    rfl
  | succ k ih =>
    have hlt : 2 * k < l.length := by omega
    have hsib : sibling l.length (2 * k) = min (2 * k + 1) (l.length - 1) :=
      sibling_of_even (by omega) _
    obtain ⟨a, ha⟩ : ∃ a, l[2 * k]? = some a := ⟨_, List.getElem?_eq_getElem hlt⟩
    obtain ⟨b, hb⟩ : ∃ b, l[sibling l.length (2 * k)]? = some b :=
      ⟨_, List.getElem?_eq_getElem (sibling_lt hlt)⟩
    have hup : (level (H ∘ merklePair) l)[k]? = some (hashPair H a b) := by
      have := @getElem?_level_half _ (H ∘ merklePair) a b l (2 * k) ha hb
      rwa [Nat.mul_div_cancel_left k (by decide), if_neg (by omega)] at this
    rw [List.range_succ, List.map_append, List.foldlM_append, ih (by omega)]
    have hpush : pushPair H pre.length l.length
        (pre ++ (l ++ (level (H ∘ merklePair) l).take k)) (2 * k) =
        .ok (pre ++ (l ++ (level (H ∘ merklePair) l).take k) ++ [hashPair H a b]) := by
      rw [pushPair, ← hsib]
      simp only [getElem?_middle hlt, getElem?_middle (sibling_lt hlt), ha, hb]
    simp only [List.map_cons, List.map_nil, List.foldlM_cons, List.foldlM_nil, bind, Except.bind,
      hpush, List.take_add_one, hup, Option.toList_some, List.append_assoc]
    rfl

theorem pushLevels_eq : pushLevels H n pre.length l.length (pre ++ l) =
    .ok (pre ++ rows (H ∘ merklePair) n l) := by
  induction n generalizing pre l with
  | zero => rfl
  | succ n ih =>
    rw [pushLevels, rows]
    split
    · have hlevel := @foldlM_pushPair H pre l _ le_rfl
      rw [List.take_of_length_le (length_level l).le, ← List.append_assoc] at hlevel
      simp only [hlevel, bind, Except.bind]
      rw [← List.append_assoc, ← List.length_append, ← @length_level _ (H ∘ merklePair)]
      exact ih
    · rfl

theorem branchFrom_eq (hi : i < l.length) :
    branchFrom (pre ++ rows (H ∘ merklePair) n l) n pre.length l.length i =
      .ok (branch (H ∘ merklePair) n l i) := by
  induction n generalizing pre l i with
  | zero => rfl
  | succ n ih =>
    rw [branchFrom, branch]
    split
    · next hlt =>
      obtain ⟨y, hy⟩ : ∃ y, l[sibling l.length i]? = some y :=
        ⟨_, List.getElem?_eq_getElem (sibling_lt hi)⟩
      have hlevel := @length_level _ (H ∘ merklePair) l
      have hrest := @ih (pre ++ l) (level (H ∘ merklePair) l) (i / 2) (by omega)
      rw [List.length_append, List.append_assoc, hlevel] at hrest
      have hfound := (@getElem?_middle pre l (rows (H ∘ merklePair) n (level (H ∘ merklePair) l)) _
        (sibling_lt hi)).trans hy
      rw [sibling] at hfound
      rw [rows, if_pos hlt, hy]
      simp only [hfound, Nat.shiftRight_eq_div_pow, pow_one, hrest, bind, Except.bind,
        Option.toList_some, List.singleton_append]
    · rfl

end Vector

theorem foldBranch_eq (hash : UInt256) (vMerkleBranch : List UInt256) (i : ℕ) :
    foldBranch H hash vMerkleBranch i = rise (H ∘ merklePair) hash vMerkleBranch i := by
  induction vMerkleBranch generalizing hash i with
  | nil => rfl
  | cons otherside vMerkleBranch ih =>
    have hdiv : (i : ℤ) / 2 = ((i / 2 : ℕ) : ℤ) := by omega
    simp only [foldBranch, rise, hdiv, ih]
    rcases Nat.mod_two_eq_zero_or_one i with heven | hodd
    · rw [if_neg (by omega), if_neg (by omega)]
      rfl
    · rw [if_pos (by omega), if_pos hodd]
      rfl

/-! ## The branches verify -/

theorem fillMerkleTree_eq {vtx : List Transaction} {leaves : List UInt256}
    (hleaves : vtx.mapM (Transaction.getHash H) = .ok leaves) :
    fillMerkleTree H vtx = .ok (merkleRoot H leaves.length leaves,
      rows (H ∘ merklePair) leaves.length leaves) := by
  have hlength : leaves.length = vtx.length := by
    rw [mapM_getHash hleaves, merkleLeaves, List.length_map]
  have hlevels := @pushLevels_eq H [] leaves leaves.length
  rw [List.nil_append, List.nil_append, List.length_nil] at hlevels
  simp only [fillMerkleTree, hleaves, ← hlength, hlevels, bind, Except.bind]
  rcases eq_or_ne leaves [] with rfl | hne
  · rfl
  · rw [@getLast?_rows _ _ 0 _ _ hne (Nat.le_succ _), Option.getD_some, merkleRoot_eq]

/-- **Merkle branches verify.** For every block whose tree can be built and every transaction of it,
the branch that `GetMerkleBranch` finds, in the vector that `BuildMerkleTree` has left or in one
that it fills itself, leads from the hash of the transaction to the root. -/
theorem merkle_branch_verifies {vtx : List Transaction} {root : UInt256}
    {vMerkleTree : List UInt256} (hbuild : fillMerkleTree H vtx = .ok (root, vMerkleTree)) {i : ℕ}
    (hi : i < vtx.length) :
    ∃ hash vMerkleBranch, vtx[i].getHash H = .ok hash ∧
      (∀ v, v = [] ∨ v = vMerkleTree →
        getMerkleBranch H vtx v i = .ok (vMerkleBranch, vMerkleTree)) ∧
      checkMerkleBranch H hash vMerkleBranch i = root := by
  obtain ⟨leaves, hleaves, -⟩ := Except.bind_eq_ok_iff.mp hbuild
  have hfill := fillMerkleTree_eq hleaves
  obtain ⟨rfl, rfl⟩ := Prod.mk.inj (Except.ok.inj (hbuild.symm.trans hfill))
  have hall := Except.mapM_eq_ok_iff.mp hleaves
  have hlength : vtx.length = leaves.length := by
    simpa only [List.length_map] using congrArg List.length hall
  have hi' : i < leaves.length := hlength ▸ hi
  have hhash : vtx[i].getHash H = .ok leaves[i] := by
    have := congrArg (·[i]?) hall
    simpa [hi, hi'] using this
  refine ⟨leaves[i], branch (H ∘ merklePair) leaves.length leaves i, hhash, ?_, ?_⟩
  · intro v hv
    have hbranch := @branchFrom_eq H [] leaves leaves.length i hi'
    rw [List.nil_append, List.length_nil] at hbranch
    rw [getMerkleBranch, hlength]
    split
    · rw [hfill]
      simp only [Functor.map, Except.map, bind, Except.bind, hbranch]
    · next hne =>
      rw [hv.resolve_left hne]
      simp only [bind, Except.bind, hbranch]
  · rw [checkMerkleBranch, if_neg (by omega), foldBranch_eq, merkleRoot_eq]
    exact rise_branch (Nat.le_succ _) (List.getElem?_eq_getElem hi')

/-- The last of three transactions is paired with itself. -/
theorem merkle_branch_three : ∃ root vMerkleTree hash vMerkleBranch,
    fillMerkleTree Sha256.sha256d [mintOne, payOne, mintOne] = .ok (root, vMerkleTree) ∧
    getMerkleBranch Sha256.sha256d [mintOne, payOne, mintOne] [] 2 =
      .ok (vMerkleBranch, vMerkleTree) ∧
    mintOne.getHash Sha256.sha256d = .ok hash ∧
    checkMerkleBranch Sha256.sha256d hash vMerkleBranch 2 = root := by
  obtain ⟨hash, vMerkleBranch, hhash, hbranch, hcheck⟩ :=
    @merkle_branch_verifies Sha256.sha256d [mintOne, payOne, mintOne] _ _ rfl 2 (by decide)
  exact ⟨_, _, hash, vMerkleBranch, rfl, hbranch [] (.inl rfl), hhash, hcheck⟩

end Cryptonite
