import Cryptonite.Foundation.MerkleTree
import Mathlib.Data.Nat.Log
import Mathlib.Tactic

/-!
# Merkle trees cut down to some of their leaves

A level of a Merkle tree has half as many nodes as the one below, rounded up; `getElem?_level` says
which two nodes are hashed for a node, by its place. So the level at height `k` above `n` leaves has
`⌈n / 2 ^ k⌉` nodes (`length_iterate_level`), and the root is the one node at height `⌈log₂ n⌉`
(`root_eq_iterate`).

A *pruned tree* is what is left of such a tree if subtrees are replaced by their hashes. It is
written down depth first, with a bit for each node that says whether the node was kept: the hashes
in a list, the bits in another. Whoever reads the two lists knows the shape from the bits and the
number of leaves.

The value of a pruned tree determines little if the number of leaves is not known. What it does
determine, for a hash that is injective on the pairs that occur, is in the last section: a leaf of a
pruned tree of height `h`, whose value is a node at height `k` of another tree, is a node of that
tree at height `k - h` (`Fits.matched_mem`), and if `h` exceeds `k` there is no such leaf
(`Fits.matched_eq_nil`).
-/

namespace MerkleTree

variable {D : Type*} {node : D × D → D}

/-! ## A node by its place -/

theorem getElem?_level (l : List D) (i : ℕ) :
    (level node l)[i]? = l[2 * i]?.map fun a ↦ node (a, l[2 * i + 1]?.getD a) := by
  induction l using pairs.induct generalizing i with
  | case1 a b l ih =>
    rcases i with _ | i
    · rfl
    · exact ih i
  | case2 a =>
    rcases i with _ | i
    · rfl
    · simp [level, pairs, Nat.mul_add]
  | case3 => simp [level, pairs]

theorem length_level (l : List D) : (level node l).length = (l.length + 1) / 2 := by
  rw [level, List.length_map, length_pairs]

theorem length_iterate_level (l : List D) (h : ℕ) :
    ((level node)^[h] l).length = (l.length + 2 ^ h - 1) / 2 ^ h := by
  induction h with
  | zero => simp
  | succ h ih =>
    have hpos := Nat.two_pow_pos h
    have hsum : l.length + 2 ^ h - 1 + 2 ^ h = l.length + 2 ^ (h + 1) - 1 := by omega
    rw [Function.iterate_succ_apply', length_level, ih, ← Nat.add_div_right _ hpos, hsum,
      Nat.div_div_eq_div_mul, ← pow_succ]

theorem root_eq_iterate {z r : D} : ∀ {h n : ℕ} {l : List D}, (level node)^[h] l = [r] →
    (∀ k < h, 1 < ((level node)^[k] l).length) → h ≤ n → root node z n l = r := by
  intro h
  induction h with
  | zero =>
    rintro n l hl - -
    rw [Function.iterate_zero, id] at hl
    rw [hl, root_singleton]
  | succ h ih =>
    intro n l hl hbelow hn
    have hlong : 1 < l.length := hbelow 0 (Nat.succ_pos h)
    obtain ⟨n, rfl⟩ := Nat.exists_eq_add_of_le' hn
    match l, hlong with
    | a :: b :: l, _ =>
      rw [← Nat.add_assoc, root_cons_cons]
      exact ih hl (fun k hk ↦ hbelow (k + 1) (Nat.succ_lt_succ hk)) (Nat.le_add_left h n)

theorem mem_hashed_of_iterate {q : D × D} : ∀ {k n : ℕ} {l : List D},
    q ∈ pairs ((level node)^[k] l) → (∀ j ≤ k, 1 < ((level node)^[j] l).length) → k < n →
    q ∈ hashed node n l := by
  intro k
  induction k with
  | zero =>
    intro n l hq hbelow hn
    have hlong : 1 < l.length := hbelow 0 le_rfl
    obtain ⟨n, rfl⟩ := Nat.exists_eq_add_of_lt hn
    match l, hlong with
    | a :: b :: l, _ => exact List.mem_append_left _ hq
  | succ k ih =>
    intro n l hq hbelow hn
    have hlong : 1 < l.length := hbelow 0 (Nat.zero_le _)
    obtain ⟨n, rfl⟩ : ∃ m, n = m + 1 := ⟨n - 1, by omega⟩
    match l, hlong with
    | a :: b :: l, _ =>
      exact List.mem_append_right _
        (ih hq (fun j hj ↦ hbelow (j + 1) (Nat.succ_le_succ hj)) (by omega))

section Height

variable {l : List D} (hne : l ≠ [])
include hne

theorem one_lt_length_iterate_iff (h : ℕ) :
    1 < ((level node)^[h] l).length ↔ h < Nat.clog 2 l.length := by
  have hpos := Nat.two_pow_pos h
  have hlength := List.length_pos_iff.mpr hne
  rw [length_iterate_level, Nat.lt_clog_iff_pow_lt one_lt_two, ← Nat.succ_le_iff,
    Nat.le_div_iff_mul_le hpos]
  omega

theorem length_iterate_pos (h : ℕ) : 0 < ((level node)^[h] l).length := by
  have hpos := Nat.two_pow_pos h
  have hlength := List.length_pos_iff.mpr hne
  rw [length_iterate_level]
  exact Nat.div_pos (by omega) hpos

theorem iterate_clog (z : D) : (level node)^[Nat.clog 2 l.length] l = [root node z l.length l] := by
  have hle : ((level node)^[Nat.clog 2 l.length] l).length ≤ 1 :=
    Nat.le_of_not_lt fun hlt ↦ lt_irrefl _ ((one_lt_length_iterate_iff hne _).mp hlt)
  obtain ⟨r, hr⟩ := List.length_eq_one_iff.mp (le_antisymm hle (length_iterate_pos hne _))
  rw [root_eq_iterate hr (fun k hk ↦ (one_lt_length_iterate_iff hne k).mpr hk), hr]
  exact Nat.clog_le_of_le_pow Nat.lt_two_pow_self.le

theorem mem_hashed {k : ℕ} (hk : k < Nat.clog 2 l.length) {q : D × D}
    (hq : q ∈ pairs ((level node)^[k] l)) : q ∈ hashed node l.length l := by
  refine mem_hashed_of_iterate hq (fun j hj ↦ ?_) ?_
  · exact (one_lt_length_iterate_iff hne j).mpr (hj.trans_lt hk)
  · exact hk.trans_le (Nat.clog_le_of_le_pow Nat.lt_two_pow_self.le)

end Height

end MerkleTree

/-! ## Pruned trees -/

/-- A tree in which subtrees have been replaced by their hashes. -/
inductive PrunedTree (D : Type*) where
  /-- A hash, of a leaf or of a subtree. -/
  | stub (d : D)
  /-- A leaf that was asked for. -/
  | hit (d : D)
  /-- A node with one child, which is paired with itself. -/
  | single (t : PrunedTree D)
  | double (l r : PrunedTree D)

namespace PrunedTree

variable {D : Type*}

@[simp] def bits : PrunedTree D → List Bool
  | stub _ => [false]
  | hit _ => [true]
  | single t => true :: t.bits
  | double l r => true :: (l.bits ++ r.bits)

@[simp] def hashes : PrunedTree D → List D
  | stub d => [d]
  | hit d => [d]
  | single t => t.hashes
  | double l r => l.hashes ++ r.hashes

/-- The leaves asked for. -/
@[simp] def matched : PrunedTree D → List D
  | stub _ => []
  | hit d => [d]
  | single t => t.matched
  | double l r => l.matched ++ r.matched

@[simp] def value (node : D × D → D) : PrunedTree D → D
  | stub d => d
  | hit d => d
  | single t => node (t.value node, t.value node)
  | double l r => node (l.value node, r.value node)

/-- The pairs that are hashed for it. -/
@[simp] def pairs (node : D × D → D) : PrunedTree D → List (D × D)
  | stub _ => []
  | hit _ => []
  | single t => (t.value node, t.value node) :: t.pairs node
  | double l r => (l.value node, r.value node) :: (l.pairs node ++ r.pairs node)

/-- The tree is the part of a larger one at a height and a place. Which nodes of the larger tree
have two children is given by `wide`, at the height of the children. -/
inductive Fits (wide : ℕ → ℕ → Prop) : ℕ → ℕ → PrunedTree D → Prop
  | stub {h pos : ℕ} {d : D} : Fits wide h pos (stub d)
  | hit {pos : ℕ} {d : D} : Fits wide 0 pos (hit d)
  | single {h pos : ℕ} {t : PrunedTree D} : ¬ wide h pos → Fits wide h (pos * 2) t →
      Fits wide (h + 1) pos (single t)
  | double {h pos : ℕ} {l r : PrunedTree D} : wide h pos → Fits wide h (pos * 2) l →
      Fits wide h (pos * 2 + 1) r → Fits wide (h + 1) pos (double l r)

theorem length_hashes_le (t : PrunedTree D) : t.hashes.length ≤ t.bits.length := by
  induction t with
  | stub d => rfl
  | hit d => rfl
  | single t ih => exact ih.trans (Nat.le_succ _)
  | double l r ihl ihr =>
    simp only [hashes, bits, List.length_cons, List.length_append]
    omega

theorem length_matched_le (t : PrunedTree D) : t.matched.length ≤ t.hashes.length := by
  induction t with
  | stub d => exact Nat.zero_le _
  | hit d => rfl
  | single t ih => exact ih
  | double l r ihl ihr =>
    simp only [hashes, matched, List.length_append]
    omega

variable {wide : ℕ → ℕ → Prop} {node : D × D → D} {S : Set (D × D)} {leaves : List D}
  {h pos : ℕ} {t : PrunedTree D}

theorem Fits.length_bits_lt (hfits : Fits wide h pos t) : t.bits.length < 2 ^ (h + 1) := by
  induction hfits with
  | stub => exact Nat.one_lt_two_pow (Nat.succ_ne_zero _)
  | hit => exact Nat.one_lt_two_pow (Nat.succ_ne_zero _)
  | single _ _ ih =>
    simp only [bits, List.length_cons, pow_succ] at ih ⊢
    omega
  | double _ _ _ ihl ihr =>
    simp only [bits, List.length_cons, List.length_append, pow_succ] at ihl ihr ⊢
    omega

theorem mem_of_node_mem {k : ℕ} {q : D × D} (hinj : Set.InjOn node S)
    (hlevels : ∀ q' ∈ MerkleTree.pairs ((MerkleTree.level node)^[k] leaves), q' ∈ S) (hq : q ∈ S)
    (hmem : node q ∈ (MerkleTree.level node)^[k + 1] leaves) :
    q.1 ∈ (MerkleTree.level node)^[k] leaves ∧ q.2 ∈ (MerkleTree.level node)^[k] leaves := by
  rw [Function.iterate_succ_apply'] at hmem
  obtain ⟨q', hq', heq⟩ := List.mem_map.mp hmem
  obtain rfl := hinj (hlevels q' hq') hq heq
  exact MerkleTree.mem_of_mem_pairs hq'

section Authentic

variable {K : ℕ} (hinj : Set.InjOn node S)
  (hlevels : ∀ k < K, ∀ q ∈ MerkleTree.pairs ((MerkleTree.level node)^[k] leaves), q ∈ S)
include hinj hlevels

theorem Fits.matched_mem (hfits : Fits wide h pos t) : ∀ {k : ℕ}, k ≤ K → h ≤ k →
    (∀ q ∈ t.pairs node, q ∈ S) → t.value node ∈ (MerkleTree.level node)^[k] leaves →
    ∀ d ∈ t.matched, d ∈ (MerkleTree.level node)^[k - h] leaves := by
  induction hfits with
  | stub => exact fun _ _ _ _ _ hd ↦ absurd hd (List.not_mem_nil)
  | hit =>
    intro k _ _ _ hvalue d hd
    rwa [List.mem_singleton.mp hd]
  | @single h pos t _ _ ih =>
    intro k hK hk hS hvalue d hd
    obtain ⟨k, rfl⟩ : ∃ m, k = m + 1 := ⟨k - 1, by omega⟩
    obtain ⟨hleft, -⟩ :=
      mem_of_node_mem hinj (hlevels k hK) (hS _ List.mem_cons_self) hvalue
    rw [Nat.add_sub_add_right]
    exact ih (Nat.le_of_succ_le hK) (Nat.le_of_succ_le_succ hk)
      (fun q hq ↦ hS q (List.mem_cons_of_mem _ hq)) hleft d hd
  | @double h pos l r _ _ _ ihl ihr =>
    intro k hK hk hS hvalue d hd
    obtain ⟨k, rfl⟩ : ∃ m, k = m + 1 := ⟨k - 1, by omega⟩
    obtain ⟨hleft, hright⟩ :=
      mem_of_node_mem hinj (hlevels k hK) (hS _ List.mem_cons_self) hvalue
    rw [Nat.add_sub_add_right]
    rcases List.mem_append.mp hd with hd | hd
    · exact ihl (Nat.le_of_succ_le hK) (Nat.le_of_succ_le_succ hk)
        (fun q hq ↦ hS q (List.mem_cons_of_mem _ (List.mem_append_left _ hq))) hleft d hd
    · exact ihr (Nat.le_of_succ_le hK) (Nat.le_of_succ_le_succ hk)
        (fun q hq ↦ hS q (List.mem_cons_of_mem _ (List.mem_append_right _ hq))) hright d hd

/-- If no leaf is the hash of a pair, a pruned tree has no leaves below those of the tree that its
value is a node of. -/
theorem Fits.matched_eq_nil (hleaves : ∀ q ∈ S, node q ∉ leaves) (hfits : Fits wide h pos t) :
    ∀ {k : ℕ}, k ≤ K → k < h → (∀ q ∈ t.pairs node, q ∈ S) →
    t.value node ∈ (MerkleTree.level node)^[k] leaves → t.matched = [] := by
  induction hfits with
  | stub => exact fun _ _ _ _ ↦ rfl
  | hit => exact fun _ hk _ _ ↦ absurd hk (Nat.not_lt_zero _)
  | @single h pos t _ _ ih =>
    intro k hK hk hS hvalue
    rcases k with _ | k
    · exact absurd hvalue (hleaves _ (hS _ List.mem_cons_self))
    · obtain ⟨hleft, -⟩ :=
        mem_of_node_mem hinj (hlevels k hK) (hS _ List.mem_cons_self) hvalue
      exact ih (Nat.le_of_succ_le hK) (Nat.lt_of_succ_lt_succ hk)
        (fun q hq ↦ hS q (List.mem_cons_of_mem _ hq)) hleft
  | @double h pos l r _ _ _ ihl ihr =>
    intro k hK hk hS hvalue
    rcases k with _ | k
    · exact absurd hvalue (hleaves _ (hS _ List.mem_cons_self))
    · obtain ⟨hleft, hright⟩ :=
        mem_of_node_mem hinj (hlevels k hK) (hS _ List.mem_cons_self) hvalue
      rw [matched, ihl (Nat.le_of_succ_le hK) (Nat.lt_of_succ_lt_succ hk)
          (fun q hq ↦ hS q (List.mem_cons_of_mem _ (List.mem_append_left _ hq))) hleft,
        ihr (Nat.le_of_succ_le hK) (Nat.lt_of_succ_lt_succ hk)
          (fun q hq ↦ hS q (List.mem_cons_of_mem _ (List.mem_append_right _ hq))) hright,
        List.append_nil]

end Authentic

end PrunedTree
