import Cryptonite.Foundation.PrunedTree
import Mathlib.Data.Nat.Bitwise

/-!
# Merkle branches

A branch holds, for a leaf and each node above it but the root, the node it is paired with; where
the last node of an odd level is paired with itself, this is the node. From the leaf and its branch
the root is computed again (`rise_branch`): the place of the leaf says at each level on which side
the other node is.

A tree that is kept in one list has its levels one after the other, the leaves first (`rows`), and
the last node of the list is the root.
-/

namespace MerkleTree

variable {D : Type*} {node : D × D → D} {z x y : D} {l : List D} {i n : ℕ}

/-! ## The branch of a leaf -/

/-- The place of the node that node `i` of a level of `size` nodes is paired with. -/
def sibling (size i : ℕ) : ℕ := min (i ^^^ 1) (size - 1)

/-- The branch of node `i` of a level, for at most `n` more levels. -/
def branch (node : D × D → D) : ℕ → List D → ℕ → List D
  | 0, _, _ => []
  | n + 1, l, i =>
    if 1 < l.length then l[sibling l.length i]?.toList ++ branch node n (level node l) (i / 2)
    else []

/-- What a node and a branch lead to. -/
def rise (node : D × D → D) : D → List D → ℕ → D
  | x, [], _ => x
  | x, y :: ys, i => rise node (node (if i % 2 = 1 then (y, x) else (x, y))) ys (i / 2)

theorem sibling_of_even (h : i % 2 = 0) (size : ℕ) : sibling size i = min (i + 1) (size - 1) := by
  rw [sibling, Nat.xor_one_of_even (Nat.even_iff.mpr h)]

theorem sibling_of_odd (h : i % 2 = 1) {size : ℕ} (hi : i < size) : sibling size i = i - 1 := by
  rw [sibling, Nat.xor_one_of_odd (Nat.odd_iff.mpr h)]
  omega

theorem sibling_lt (hi : i < n) : sibling n i < n := by
  have hle : sibling n i ≤ n - 1 := min_le_right _ _
  omega

theorem getElem?_level_half (hx : l[i]? = some x) (hy : l[sibling l.length i]? = some y) :
    (level node l)[i / 2]? = some (node (if i % 2 = 1 then (y, x) else (x, y))) := by
  obtain ⟨hi, -⟩ := List.getElem?_eq_some_iff.mp hx
  rw [getElem?_level]
  rcases Nat.mod_two_eq_zero_or_one i with heven | hodd
  · have hplace : 2 * (i / 2) = i := by omega
    rw [sibling_of_even heven] at hy
    rw [hplace, hx, Option.map_some, if_neg (by omega)]
    by_cases hlast : i + 1 < l.length
    · rw [min_eq_left (by omega)] at hy
      rw [hy, Option.getD_some]
    · -- the last node of an odd level
      obtain rfl : x = y := by
        rw [min_eq_right (by omega), show l.length - 1 = i by omega, hx] at hy
        exact Option.some.inj hy
      rw [List.getElem?_eq_none (by omega), Option.getD_none]
  · have hplace : 2 * (i / 2) = i - 1 := by omega
    rw [sibling_of_odd hodd hi] at hy
    rw [hplace, hy, Option.map_some, show i - 1 + 1 = i by omega, hx, Option.getD_some, if_pos hodd]

theorem eq_singleton (hx : l[i]? = some x) (hlength : l.length ≤ 1) : l = [x] := by
  have hmem : x ∈ l := List.mem_of_getElem? hx
  obtain ⟨a, rfl⟩ := List.length_eq_one_iff.mp
    (le_antisymm hlength (List.length_pos_of_mem hmem))
  rw [List.mem_singleton.mp hmem]

theorem root_of_one_lt (hlt : 1 < l.length) :
    root node z (n + 1) l = root node z n (level node l) := by
  match l, hlt with
  | _ :: _ :: _, _ => rfl

theorem rise_branch (hlength : l.length ≤ n + 1) (hx : l[i]? = some x) :
    rise node x (branch node n l i) i = root node z n l := by
  induction n generalizing l i x with
  | zero => rw [eq_singleton hx hlength, branch, rise, root_singleton]
  | succ n ih =>
    rw [branch]
    split
    · next hlt =>
      obtain ⟨hi, -⟩ := List.getElem?_eq_some_iff.mp hx
      obtain ⟨y, hy⟩ : ∃ y, l[sibling l.length i]? = some y :=
        ⟨_, List.getElem?_eq_getElem (sibling_lt hi)⟩
      have hlevel : (level node l).length ≤ n + 1 := by
        rw [length_level]
        omega
      rw [hy, Option.toList_some, List.singleton_append, rise,
        ih hlevel (getElem?_level_half hx hy), root_of_one_lt hlt]
    · next hle =>
      rw [eq_singleton hx (Nat.le_of_not_lt hle), rise, root_singleton]

/-! ## The tree in one list -/

/-- The levels one after the other, for at most `n` levels above the first. -/
def rows (node : D × D → D) : ℕ → List D → List D
  | 0, l => l
  | n + 1, l => if 1 < l.length then l ++ rows node n (level node l) else l

theorem getLast?_rows (hne : l ≠ []) (hlength : l.length ≤ n + 1) :
    (rows node n l).getLast? = some (root node z n l) := by
  induction n generalizing l with
  | zero =>
    obtain ⟨a, rfl⟩ := List.length_eq_one_iff.mp
      (le_antisymm hlength (List.length_pos_iff.mpr hne))
    rfl
  | succ n ih =>
    rw [rows]
    split
    · next hlt =>
      have hlevel : (level node l).length ≤ n + 1 := by
        rw [length_level]
        omega
      have hne' : level node l ≠ [] := by
        rw [← List.length_pos_iff, length_level]
        omega
      rw [List.getLast?_append, ih hne' hlevel, root_of_one_lt hlt]
      rfl
    · next hle =>
      obtain ⟨a, rfl⟩ := List.length_eq_one_iff.mp
        (le_antisymm (Nat.le_of_not_lt hle) (List.length_pos_iff.mpr hne))
      rfl

end MerkleTree
