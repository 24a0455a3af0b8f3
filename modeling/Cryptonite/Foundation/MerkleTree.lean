import Mathlib.Data.List.Nodup
import Mathlib.Data.Set.Function

/-!
# Merkle trees that repeat an odd node

A level of the tree hashes the nodes of the one below it in pairs, and where their number is odd the
last is paired with itself. Such a root does not determine the leaves, even if no two pairs have the
same hash: `[a, b, c]` and `[a, b, c, c]` have one root, and so have `[a, b]` and the list of the
single leaf that is the hash of `(a, b)`.

Both ambiguities go away together. If no leaf is the hash of a pair, the height of a node can be
told from the node (`AtHeight.unique`), so two trees with one root are equally high. If no leaf
occurs twice, no node of any level does (`nodup_level`), and a level without repetitions can be read
off the level above (`pairs_inj`). `Level.root_inj` puts the two together; nothing is asked of the
hash beyond the pairs that the two trees hash.
-/

namespace MerkleTree

variable {D : Type*}

/-! ## The tree -/

def pairs : List D → List (D × D)
  | a :: b :: l => (a, b) :: pairs l
  | [a] => [(a, a)]
  | [] => []

def level (node : D × D → D) (l : List D) : List D := (pairs l).map node

/-- The root above a level, after at most `n` more levels; `d` if there is nothing to hash. -/
def root (node : D × D → D) (d : D) : ℕ → List D → D
  | _, [] => d
  | _, [a] => a
  | 0, a :: _ => a
  | n + 1, l => root node d n (level node l)

/-- The pairs hashed on the way to the root. -/
def hashed (node : D × D → D) : ℕ → List D → List (D × D)
  | _, [] => []
  | _, [_] => []
  | 0, _ => []
  | n + 1, l => pairs l ++ hashed node n (level node l)

@[simp] theorem root_singleton (node : D × D → D) (z a : D) (n : ℕ) : root node z n [a] = a := by
  rw [root]

@[simp] theorem root_cons_cons (node : D × D → D) (z a b : D) (n : ℕ) (l : List D) :
    root node z (n + 1) (a :: b :: l) = root node z n (level node (a :: b :: l)) := rfl

theorem eq_of_map_eq_map {α β : Type*} {f : α → β} {s : Set α} (hf : s.InjOn f) {l l' : List α}
    (h : ∀ x ∈ l, x ∈ s) (h' : ∀ x ∈ l', x ∈ s) (heq : l.map f = l'.map f) : l = l' := by
  induction l generalizing l' with
  | nil => exact (List.map_eq_nil_iff.mp heq.symm).symm
  | cons x l ih =>
    obtain ⟨y, t, rfl, hxy, ht⟩ := List.map_eq_cons_iff.mp heq.symm
    rw [List.forall_mem_cons] at h h'
    rw [hf h.1 h'.1 hxy.symm, ih h.2 h'.2 ht.symm]

theorem length_pairs (l : List D) : (pairs l).length = (l.length + 1) / 2 := by
  induction l using pairs.induct with
  | case1 a b l ih =>
    rw [pairs, List.length_cons, ih, List.length_cons, List.length_cons]
    omega
  | case2 a => simp [pairs]
  | case3 => simp [pairs]

theorem mem_of_mem_pairs {l : List D} {q : D × D} (h : q ∈ pairs l) : q.1 ∈ l ∧ q.2 ∈ l := by
  induction l using pairs.induct with
  | case1 a b l ih =>
    rcases List.mem_cons.mp h with rfl | h
    · simp
    · obtain ⟨h₁, h₂⟩ := ih h
      simp [h₁, h₂]
  | case2 a =>
    rw [List.mem_singleton.mp h]
    simp
  | case3 => exact absurd h (List.not_mem_nil)

theorem nodup_pairs {l : List D} (h : l.Nodup) : (pairs l).Nodup := by
  induction l using pairs.induct with
  | case1 a b l ih =>
    obtain ⟨ha, h⟩ := List.nodup_cons.mp h
    refine List.nodup_cons.mpr ⟨fun hmem ↦ ha ?_, ih (List.nodup_cons.mp h).2⟩
    exact List.mem_cons_of_mem b (mem_of_mem_pairs hmem).1
  | case2 a => exact List.nodup_singleton _
  | case3 => exact List.nodup_nil

private theorem pairs_cons_ne {a b c : D} {l : List D} (h : (a :: b :: l).Nodup) :
    pairs (a :: b :: l) ≠ pairs [c] := by
  intro heq
  obtain ⟨rfl, rfl⟩ := Prod.mk.inj (List.cons.inj heq).1
  exact (List.nodup_cons.mp h).1 List.mem_cons_self

theorem pairs_inj {l l' : List D} (h : l.Nodup) (h' : l'.Nodup) (heq : pairs l = pairs l') :
    l = l' := by
  induction l using pairs.induct generalizing l' with
  | case1 a b l ih =>
    match l' with
    | [] => exact absurd heq (List.cons_ne_nil _ _)
    | [c] => exact absurd heq (pairs_cons_ne h)
    | c :: d :: l' =>
      obtain ⟨hab, htail⟩ := List.cons.inj heq
      cases hab
      rw [ih (h.sublist (by simp)) (h'.sublist (by simp)) htail]
  | case2 a =>
    match l' with
    | [] => exact absurd heq (List.cons_ne_nil _ _)
    | [c] => rw [(Prod.mk.inj (List.cons.inj heq).1).1]
    | c :: d :: l' => exact absurd heq.symm (pairs_cons_ne h')
  | case3 =>
    match l' with
    | [] => rfl
    | [_] => exact absurd heq.symm (List.cons_ne_nil _ _)
    | _ :: _ :: _ => exact absurd heq.symm (List.cons_ne_nil _ _)

/-! ## Heights -/

/-- What is asked of the hash and the leaves: on the pairs `S` the hash is injective, and it does
not meet the leaves `L`. -/
structure Separated (node : D × D → D) (L : Set D) (S : Set (D × D)) : Prop where
  injOn : Set.InjOn node S
  not_leaf : ∀ q ∈ S, node q ∉ L

/-- The nodes at height `n` above the leaves `L`, with pairs from `S`. -/
inductive AtHeight (node : D × D → D) (L : Set D) (S : Set (D × D)) : ℕ → D → Prop
  | leaf {d : D} : d ∈ L → AtHeight node L S 0 d
  | node {n : ℕ} {q : D × D} : q ∈ S → AtHeight node L S n q.1 → AtHeight node L S n q.2 →
      AtHeight node L S (n + 1) (node q)

variable {node : D × D → D} {L : Set D} {S : Set (D × D)}

theorem AtHeight.unique (hsep : Separated node L S) {n m : ℕ} {d : D}
    (h : AtHeight node L S n d) (h' : AtHeight node L S m d) : n = m := by
  induction h generalizing m with
  | leaf hd =>
    cases h' with
    | leaf _ => rfl
    | node hq _ _ => exact absurd hd (hsep.not_leaf _ hq)
  | @node n q hq h₁ _ ih _ =>
    generalize hd : node q = d at h'
    cases h' with
    | leaf hleaf => exact absurd (hd ▸ hleaf) (hsep.not_leaf _ hq)
    | node hq' h₁' _ =>
      obtain rfl := hsep.injOn hq hq' hd
      rw [ih h₁']

/-! ## Levels -/

/-- A level at height `i` of a tree over the leaves `L`, with at most `n` levels to come. -/
structure Level (node : D × D → D) (L : Set D) (S : Set (D × D)) (i n : ℕ) (l : List D) :
    Prop where
  ne_nil : l ≠ []
  length_le : l.length ≤ n
  nodup : l.Nodup
  atHeight : ∀ d ∈ l, AtHeight node L S i d
  hashed_subset : ∀ q ∈ hashed node n l, q ∈ S

theorem nodup_level (hsep : Separated node L S) {l : List D} (h : l.Nodup)
    (hS : ∀ q ∈ pairs l, q ∈ S) : (level node l).Nodup :=
  (nodup_pairs h).map_on fun _ hq _ hq' heq ↦ hsep.injOn (hS _ hq) (hS _ hq') heq

variable {i n : ℕ} {a b : D} {l : List D}

theorem Level.pairs_subset (h : Level node L S i (n + 1) (a :: b :: l)) :
    ∀ q ∈ pairs (a :: b :: l), q ∈ S :=
  fun q hq ↦ h.hashed_subset q (List.mem_append_left _ hq)

theorem Level.up (hsep : Separated node L S) (h : Level node L S i (n + 1) (a :: b :: l)) :
    Level node L S (i + 1) n (level node (a :: b :: l)) where
  ne_nil := List.cons_ne_nil _ _
  length_le := by
    have hlen := h.length_le
    rw [level, List.length_map, length_pairs]
    simp only [List.length_cons] at hlen ⊢
    omega
  nodup := nodup_level hsep h.nodup h.pairs_subset
  atHeight := by
    intro d hd
    obtain ⟨q, hq, rfl⟩ := List.mem_map.mp hd
    obtain ⟨h₁, h₂⟩ := mem_of_mem_pairs hq
    exact .node (h.pairs_subset q hq) (h.atHeight _ h₁) (h.atHeight _ h₂)
  hashed_subset := fun q hq ↦ h.hashed_subset q (List.mem_append_right _ hq)

theorem Level.atHeight_root (hsep : Separated node L S) {z : D} :
    ∀ {n i : ℕ} {l : List D}, Level node L S i n l →
      ∃ k, i ≤ k ∧ AtHeight node L S k (root node z n l)
  | _, _, [], h => absurd rfl h.ne_nil
  | _, i, [a], h => ⟨i, le_rfl, by simpa using h.atHeight⟩
  | 0, _, _ :: _ :: _, h => absurd h.length_le (by simp)
  | n + 1, i, a :: b :: l, h => by
    obtain ⟨k, hk, hroot⟩ := (h.up hsep).atHeight_root hsep (z := z)
    exact ⟨k, (Nat.le_succ i).trans hk, hroot⟩

theorem Level.root_ne (hsep : Separated node L S) {z c : D}
    (h : Level node L S i (n + 1) (a :: b :: l)) (hc : AtHeight node L S i c) :
    root node z (n + 1) (a :: b :: l) ≠ c := by
  intro heq
  obtain ⟨k, hk, hroot⟩ := (h.up hsep).atHeight_root hsep (z := z)
  rw [← root_cons_cons, heq] at hroot
  exact absurd (hroot.unique hsep hc) (Nat.ne_of_gt hk)

/-- **The root determines the level.** -/
theorem Level.root_inj (hsep : Separated node L S) {z : D} :
    ∀ {n n' i : ℕ} {l l' : List D}, Level node L S i n l → Level node L S i n' l' →
      root node z n l = root node z n' l' → l = l'
  | _, _, _, [], _, h, _, _ => absurd rfl h.ne_nil
  | _, _, _, _, [], _, h', _ => absurd rfl h'.ne_nil
  | 0, _, _, _ :: _, _, h, _, _ => absurd h.length_le (by simp)
  | _, 0, _, _, _ :: _, _, h', _ => absurd h'.length_le (by simp)
  | _ + 1, _ + 1, _, [a], [c], _, _, heq => by
    rw [root_singleton, root_singleton] at heq
    rw [heq]
  | _ + 1, _ + 1, _, [a], _ :: _ :: _, h, h', heq =>
    absurd heq.symm (h'.root_ne hsep (h.atHeight a List.mem_cons_self))
  | _ + 1, _ + 1, _, _ :: _ :: _, [c], h, h', heq =>
    absurd heq (h.root_ne hsep (h'.atHeight c List.mem_cons_self))
  | n + 1, n' + 1, i, a :: b :: l, c :: d :: l', h, h', heq => by
    rw [root_cons_cons, root_cons_cons] at heq
    have hlevel := root_inj hsep (h.up hsep) (h'.up hsep) heq
    exact pairs_inj h.nodup h'.nodup
      (eq_of_map_eq_map hsep.injOn h.pairs_subset h'.pairs_subset hlevel)

end MerkleTree
