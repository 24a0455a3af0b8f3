import Mathlib.Data.List.Sort
import Mathlib.Tactic

/-!
# Multimaps that are emptied from a queue

An ordered multimap is a list of keys and values in the order of the keys; entries of one key are in
the order in which they came. What has a given key is one stretch of the list, and it is found by
going on from the first entry that is not below the key (`equalRange`).

A forest is such a multimap: the key of a node is its parent. To go through a forest from some
entries on, take the first entry of a queue out of the multimap, and put what has this entry as its
parent at the end of the queue (`drain`). If no entry is the parent of an entry of the queue, each
entry is met once and after its parent, and what is met is closed under children (`drain_drained`).
In particular the order of the multimap does not matter for what is met.

At the end there is the insertion into a set that is ordered by a comparison.
-/

open Std

structure Multimap (κ α : Type) [LE κ] where
  elems : List (κ × α)
  sorted : elems.Pairwise fun e e' ↦ e.1 ≤ e'.1

namespace Multimap

variable {κ α : Type} [LT κ] [DecidableLT κ]

/-- A place for a new entry, after the ones of its key. -/
def insertList (e : κ × α) : List (κ × α) → List (κ × α)
  | [] => [e]
  | e' :: l => if e.1 < e'.1 then e :: e' :: l else e' :: insertList e l

theorem insertList_perm (e : κ × α) (l : List (κ × α)) : (insertList e l).Perm (e :: l) := by
  induction l with
  | nil => rfl
  | cons e' l ih =>
    rw [insertList]
    split_ifs
    · rfl
    · exact (ih.cons e').trans (.swap e e' l)

variable [LE κ] [IsLinearOrder κ] [LawfulOrderLT κ]

theorem pairwise_insertList {e : κ × α} {l : List (κ × α)} (hl : l.Pairwise fun e e' ↦ e.1 ≤ e'.1) :
    (insertList e l).Pairwise fun e e' ↦ e.1 ≤ e'.1 := by
  induction l with
  | nil => exact List.pairwise_singleton _ _
  | cons e' l ih =>
    obtain ⟨hle, hl'⟩ := List.pairwise_cons.mp hl
    rw [insertList]
    split_ifs with hlt
    · refine List.pairwise_cons.mpr ⟨fun x hx ↦ ?_, hl⟩
      rcases List.mem_cons.mp hx with rfl | hx
      · exact Std.le_of_lt hlt
      · exact Std.le_trans (Std.le_of_lt hlt) (hle x hx)
    · refine List.pairwise_cons.mpr ⟨fun x hx ↦ ?_, ih hl'⟩
      rcases List.mem_cons.mp ((insertList_perm e l).mem_iff.mp hx) with rfl | hx
      · exact Std.not_lt.mp hlt
      · exact hle x hx

def insert (m : Multimap κ α) (e : κ × α) : Multimap κ α :=
  ⟨insertList e m.elems, pairwise_insertList m.sorted⟩

/-- What is left if entries are erased while going through the multimap. -/
def filter (m : Multimap κ α) (p : κ × α → Bool) : Multimap κ α :=
  ⟨m.elems.filter p, m.sorted.filter p⟩

theorem insert_perm (m : Multimap κ α) (e : κ × α) : (m.insert e).elems.Perm (e :: m.elems) :=
  insertList_perm e m.elems

variable [DecidableEq κ]

/-- From `lower_bound` on, as long as the key is the same. -/
def equalRange (m : Multimap κ α) (k : κ) : List (κ × α) :=
  (m.elems.dropWhile fun e ↦ e.1 < k).takeWhile fun e ↦ e.1 = k

theorem equalRange_eq_filter (m : Multimap κ α) (k : κ) :
    m.equalRange k = m.elems.filter fun e ↦ e.1 = k := by
  obtain ⟨l, hl⟩ := m
  rw [equalRange]
  induction l with
  | nil => rfl
  | cons e l ih =>
    obtain ⟨hle, hl'⟩ := List.pairwise_cons.mp hl
    rcases Std.lt_trichotomy e.1 k with hlt | heq | hgt
    · rw [List.dropWhile_cons_of_pos (by simpa using hlt),
        List.filter_cons_of_neg (by simp [Std.ne_of_lt hlt])]
      exact ih hl'
    · -- the rest begins with this key or a greater one, so nothing of it is dropped
      rw [List.dropWhile_cons_of_neg (by simp [heq, Std.lt_irrefl]),
        List.takeWhile_cons_of_pos (by simpa using heq),
        List.filter_cons_of_pos (by simpa using heq), ← ih hl']
      have hdrop : l.dropWhile (fun e ↦ e.1 < k) = l := by
        rcases l with _ | ⟨e', l⟩
        · rfl
        · have := hle e' List.mem_cons_self
          exact List.dropWhile_cons_of_neg (by simpa [← heq, Std.not_lt] using this)
      exact congrArg (List.cons e ∘ List.takeWhile _) hdrop.symm
    · have hnone : ∀ x ∈ e :: l, ¬ decide (x.1 = k) = true := by
        intro x hx
        rcases List.mem_cons.mp hx with rfl | hx
        · simpa using (Std.ne_of_lt hgt).symm
        · simpa using (Std.ne_of_lt (Std.lt_of_lt_of_le hgt (hle x hx))).symm
      rw [List.dropWhile_cons_of_neg (by simpa [Std.not_lt] using Std.le_of_lt hgt),
        List.takeWhile_cons_of_neg (by simpa using (Std.ne_of_lt hgt).symm),
        List.filter_eq_nil_iff.mpr hnone]

theorem mem_equalRange {m : Multimap κ α} {e' : κ × α} {k : κ} :
    e' ∈ m.equalRange k ↔ e' ∈ m.elems ∧ e'.1 = k := by
  rw [equalRange_eq_filter, List.mem_filter, decide_eq_true_iff]

/-! ## Draining -/

variable [DecidableEq α]

/-- `std::multimap::erase` of an iterator. -/
def erase (m : Multimap κ α) (e : κ × α) : Multimap κ α :=
  ⟨m.elems.erase e, m.sorted.sublist List.erase_sublist⟩

/-- The entries that are met, in their order, in at most `n` rounds. The key under which the
children of an entry are is `expand` of it, if they are to be met at all. -/
def drain (expand : κ × α → Option κ) : ℕ → Multimap κ α → List (κ × α) → List (κ × α)
  | 0, _, _ => []
  | _ + 1, _, [] => []
  | n + 1, m, e :: todo =>
    let m := m.erase e
    e :: drain expand n m (todo ++ (expand e).elim [] m.equalRange)

/-- What can be in a queue: entries of the multimap, none of them twice, and none of them the child
of an entry that is still there. -/
structure Ready (expand : κ × α → Option κ) (m : Multimap κ α) (todo : List (κ × α)) : Prop where
  nodup : m.elems.Nodup
  todo_nodup : todo.Nodup
  todo_subset : todo ⊆ m.elems
  injective : ∀ e ∈ m.elems, ∀ e' ∈ m.elems, ∀ k, expand e = some k → expand e' = some k → e = e'
  fresh : ∀ e ∈ m.elems, ∀ e' ∈ todo, expand e ≠ some e'.1

/-- The entries that are met: each one once, after its parent unless it was in the queue, and with
all its children. -/
structure Drained (expand : κ × α → Option κ) (m : Multimap κ α) (todo l : List (κ × α)) :
    Prop where
  nodup : l.Nodup
  subset : l ⊆ m.elems
  todo_subset : todo ⊆ l
  closed : ∀ e ∈ l, ∀ k, expand e = some k → ∀ e' ∈ m.elems, e'.1 = k → e' ∈ l
  parent : ∀ pre e post, l = pre ++ e :: post → e ∈ todo ∨ ∃ e' ∈ pre, expand e' = some e.1

theorem Ready.step {m : Multimap κ α} {e : κ × α} {expand : κ × α → Option κ} {todo : List (κ × α)}
    (h : Ready expand m (e :: todo)) :
    Ready expand (m.erase e) (todo ++ (expand e).elim [] (m.erase e).equalRange) := by
  have hsub : (m.erase e).elems ⊆ m.elems := List.erase_subset
  have htodo := List.nodup_cons.mp h.todo_nodup
  have hchildren : ∀ x, x ∈ (expand e).elim [] (m.erase e).equalRange ↔
      expand e = some x.1 ∧ x ∈ (m.erase e).elems := by
    intro x
    rcases hexpand : expand e with _ | k
    · simp
    · rw [Option.elim_some, mem_equalRange, Option.some_inj, and_comm, eq_comm]
  have hmem : ∀ x ∈ todo, x ∈ (m.erase e).elems := by
    intro x hx
    have hne : x ≠ e := fun heq ↦ htodo.1 (heq ▸ hx)
    exact (List.mem_erase_of_ne hne).mpr (h.todo_subset (List.mem_cons_of_mem e hx))
  have he : e ∈ m.elems := h.todo_subset List.mem_cons_self
  refine ⟨h.nodup.erase e, ?_, ?_, fun x hx y hy ↦ h.injective x (hsub hx) y (hsub hy), ?_⟩
  · have hnodup : ((expand e).elim [] (m.erase e).equalRange).Nodup := by
      rcases expand e with _ | k
      · exact List.nodup_nil
      · rw [Option.elim_some, equalRange_eq_filter]
        exact (h.nodup.erase e).filter _
    refine List.nodup_append.mpr ⟨htodo.2, hnodup, fun x hx y hy heq ↦ ?_⟩
    -- a child of `e` was not in the queue
    subst heq
    exact h.fresh e he x (List.mem_cons_of_mem e hx) ((hchildren x).mp hy).1
  · intro x hx
    rcases List.mem_append.mp hx with hx | hx
    · exact hmem x hx
    · exact ((hchildren x).mp hx).2
  · intro x hx y hy
    rcases List.mem_append.mp hy with hy | hy
    · exact h.fresh x (hsub hx) y (List.mem_cons_of_mem e hy)
    · intro hxy
      -- `x` would have the same children as `e`, which is not there any more
      have heq := h.injective x (hsub hx) e he y.1 hxy ((hchildren y).mp hy).1
      subst heq
      exact (h.nodup.mem_erase_iff.mp hx).1 rfl

/-- **Draining.** If there are rounds enough for all entries, what is met is met once, after its
parent, and with all its children. -/
theorem drain_drained {expand : κ × α → Option κ} {n : ℕ} : ∀ {m : Multimap κ α}
    {todo : List (κ × α)}, Ready expand m todo → m.elems.length ≤ n →
    Drained expand m todo (drain expand n m todo) := by
  induction n with
  | zero =>
    intro m todo h hn
    have hnil : m.elems = [] := List.eq_nil_of_length_eq_zero (Nat.le_zero.mp hn)
    have htodo : todo = [] := List.subset_nil.mp (hnil ▸ h.todo_subset)
    subst htodo
    exact ⟨List.nodup_nil, List.nil_subset _, List.nil_subset _, by simp [drain], by simp [drain]⟩
  | succ n ih =>
    intro m todo h hn
    rcases todo with _ | ⟨e, todo⟩
    · exact ⟨List.nodup_nil, List.nil_subset _, List.nil_subset _, by simp [drain], by simp [drain]⟩
    · have he : e ∈ m.elems := h.todo_subset List.mem_cons_self
      have hsub : (m.erase e).elems ⊆ m.elems := List.erase_subset
      have hlength : (m.erase e).elems.length ≤ n := by
        have herase : (m.erase e).elems.length = m.elems.length - 1 := List.length_erase_of_mem he
        omega
      have hrest := ih h.step hlength
      rw [drain]
      set l := drain expand n (m.erase e) (todo ++ (expand e).elim [] (m.erase e).equalRange)
      refine ⟨?_, ?_, ?_, ?_, ?_⟩
      · exact List.nodup_cons.mpr
          ⟨fun hmem ↦ (h.nodup.mem_erase_iff.mp (hrest.subset hmem)).1 rfl, hrest.nodup⟩
      · exact List.cons_subset.mpr ⟨he, fun x hx ↦ hsub (hrest.subset hx)⟩
      · refine List.cons_subset.mpr ⟨List.mem_cons_self, fun x hx ↦ ?_⟩
        exact List.mem_cons_of_mem e (hrest.todo_subset (List.mem_append_left _ hx))
      · intro x hx k hk y hy hyk
        by_cases hye : y = e
        · rw [hye]
          exact List.mem_cons_self
        · have hy' : y ∈ (m.erase e).elems := (List.mem_erase_of_ne hye).mpr hy
          refine List.mem_cons_of_mem e ?_
          rcases List.mem_cons.mp hx with rfl | hx
          · refine hrest.todo_subset (List.mem_append_right _ ?_)
            rw [hk, Option.elim_some]
            exact mem_equalRange.mpr ⟨hy', hyk⟩
          · exact hrest.closed x hx k hk y hy' hyk
      · intro pre x post hl
        rcases pre with _ | ⟨e', pre⟩
        · obtain ⟨rfl, -⟩ := List.cons_eq_cons.mp hl
          exact .inl List.mem_cons_self
        · obtain ⟨rfl, htail⟩ := List.cons_eq_cons.mp hl
          rcases hrest.parent pre x post htail with hx | ⟨y, hy, hyx⟩
          · rcases List.mem_append.mp hx with hx | hx
            · exact .inl (List.mem_cons_of_mem e hx)
            · refine .inr ⟨e, List.mem_cons_self, ?_⟩
              rcases hk : expand e with _ | k
              · rw [hk] at hx
                exact absurd hx List.not_mem_nil
              · rw [hk, Option.elim_some] at hx
                rw [(mem_equalRange.mp hx).2]
          · exact .inr ⟨y, List.mem_cons_of_mem e hy, hyx⟩

/-! ## Sets -/

/-- `std::set::insert`: an element that is neither smaller nor greater than one that is there is not
put in. -/
def insertBy {α : Type} (less : α → α → Bool) (x : α) : List α → List α
  | [] => [x]
  | y :: l =>
    if less x y then x :: y :: l else if less y x then y :: insertBy less x l else y :: l

theorem mem_insertBy {α : Type} {less : α → α → Bool} {x z : α} {l : List α}
    (hless : ∀ y ∈ l, less x y = true ∨ less y x = true) :
    z ∈ insertBy less x l ↔ z = x ∨ z ∈ l := by
  induction l with
  | nil => rw [insertBy, List.mem_singleton, or_iff_left List.not_mem_nil]
  | cons y l ih =>
    rw [List.forall_mem_cons] at hless
    rw [insertBy]
    split_ifs with hxy hyx
    · exact List.mem_cons
    · rw [List.mem_cons, ih hless.2, List.mem_cons, or_left_comm]
    · exact absurd hless.1 (by simp [hxy, hyx])

end Multimap
