import Mathlib.Data.List.Sort
import Mathlib.Tactic

/-!
# Lines of ancestors

A forest given by a partial parent function. The *line* of a node is the list of its ancestors, the
node first and the root last; not every node need have one, since nothing says that following
parents ends. A line determines its tails, has no repetitions, and two lines with the same root
part from each other at one point (`Line.meet`): they are `a ++ c` and `b ++ c` where neither `a`
nor `b` meets the other line. To walk from one node to the other is to walk up `a` and down `b`. If
heights grow by one from parent to child, a line is sorted by height.

Who looks for a height from above need not try each one: strides that at most double find a place
at most twice as far down as the one looked for (`Strides.exists_find`).
-/

namespace Ancestry

variable {ι : Type}

/-- The line of a node: the node, its parent, and so on up to a root. -/
inductive Line (parent : ι → Option ι) : ι → List ι → Prop
  | root {p : ι} (h : parent p = none) : Line parent p [p]
  | step {p q : ι} {l : List ι} (h : parent p = some q) (hq : Line parent q l) :
      Line parent p (p :: l)

section Line

variable {parent : ι → Option ι} {p q x : ι} {l l' a b : List ι}

theorem Line.exists_cons (h : Line parent p l) : ∃ t, l = p :: t := by
  rcases h with _ | _
  · exact ⟨[], rfl⟩
  · exact ⟨_, rfl⟩

theorem Line.exists_parent (h : Line parent p (x :: l)) (hl : l ≠ []) :
    x = p ∧ ∃ q, parent p = some q ∧ Line parent q l := by
  rcases h with _ | ⟨hsome, hq⟩
  · exact absurd rfl hl
  · exact ⟨rfl, _, hsome, hq⟩

theorem Line.unique (h : Line parent p l) (h' : Line parent p l') : l = l' := by
  induction h generalizing l' with
  | root hnone =>
    rcases h' with _ | ⟨hsome, _⟩
    · rfl
    · exact absurd (hnone.symm.trans hsome) (by simp)
  | step hsome _ ih =>
    rcases h' with hnone | ⟨hsome', hq'⟩
    · exact absurd (hnone.symm.trans hsome) (by simp)
    · obtain rfl := Option.some_inj.mp (hsome.symm.trans hsome')
      rw [ih hq']

theorem Line.congr {parent' : ι → Option ι} (h : Line parent p l)
    (hparent : ∀ x ∈ l, parent' x = parent x) : Line parent' p l := by
  induction h with
  | root hnone => exact .root ((hparent _ List.mem_cons_self).trans hnone)
  | step hsome _ ih =>
    rw [List.forall_mem_cons] at hparent
    exact .step (hparent.1.trans hsome) (ih hparent.2)

theorem Line.of_mem (h : Line parent p l) (hx : x ∈ l) :
    ∃ pre t, l = pre ++ t ∧ Line parent x t := by
  induction h with
  | root hnone =>
    obtain rfl := List.mem_singleton.mp hx
    exact ⟨[], _, rfl, .root hnone⟩
  | step hsome hq ih =>
    rcases List.mem_cons.mp hx with rfl | hx
    · exact ⟨[], _, rfl, .step hsome hq⟩
    · obtain ⟨pre, t, rfl, ht⟩ := ih hx
      exact ⟨_ :: pre, t, rfl, ht⟩

theorem Line.nodup (h : Line parent p l) : l.Nodup := by
  induction h with
  | root _ => exact List.nodup_singleton _
  | step hsome hq ih =>
    refine List.nodup_cons.mpr ⟨fun hmem ↦ ?_, ih⟩
    -- the node would come again further up, with a line shorter than its own
    obtain ⟨pre, t, hl, ht⟩ := hq.of_mem hmem
    have heq := congrArg List.length (ht.unique (.step hsome hq))
    rw [hl, List.length_cons, List.length_append] at heq
    omega

/-- **Where two lines meet.** Two lines with a node in common are `a ++ c` and `b ++ c` for the line
`c` of a node, and neither `a` nor `b` meets the other line. -/
theorem Line.meet [DecidableEq ι] (hp : Line parent p l) (hq : Line parent q l')
    (hx : x ∈ l) (hx' : x ∈ l') :
    ∃ y a b c, Line parent y c ∧ l = a ++ c ∧ l' = b ++ c ∧ (∀ z ∈ a, z ∉ l') ∧ ∀ z ∈ b, z ∉ l := by
  induction hp with
  | root hnone =>
    obtain rfl := List.mem_singleton.mp hx
    obtain ⟨pre, t, rfl, ht⟩ := hq.of_mem hx'
    obtain rfl := ht.unique (.root hnone)
    refine ⟨x, [], pre, [x], ht, rfl, rfl, by simp, fun z hz hzx ↦ ?_⟩
    exact (List.nodup_append.mp hq.nodup).2.2 z hz z hzx rfl
  | @step p₁ q₁ l₁ hsome hq₁ ih =>
    by_cases hmem : p₁ ∈ l'
    · -- the lines meet at the very first node
      obtain ⟨pre, t, rfl, ht⟩ := hq.of_mem hmem
      obtain rfl := ht.unique (.step hsome hq₁)
      refine ⟨p₁, [], pre, _, ht, rfl, rfl, by simp, fun z hz hzx ↦ ?_⟩
      exact (List.nodup_append.mp hq.nodup).2.2 z hz z hzx rfl
    · rcases List.mem_cons.mp hx with rfl | hx
      · exact absurd hx' hmem
      · obtain ⟨y, a, b, c, hc, rfl, rfl, ha, hb⟩ := ih hx
        refine ⟨y, p₁ :: a, b, c, hc, rfl, rfl, ?_, fun z hz hzl ↦ ?_⟩
        · exact List.forall_mem_cons.mpr ⟨hmem, ha⟩
        · rcases List.mem_cons.mp hzl with rfl | hzl
          · exact hmem (List.mem_append_left c hz)
          · exact hb z hz hzl

variable {height : ι → ℕ}

theorem Line.height_le (h : Line parent p l)
    (hheight : ∀ x ∈ l, ∀ y, parent x = some y → height x = height y + 1) :
    ∀ x ∈ l, height x ≤ height p := by
  induction h with
  | root _ => exact fun x hx ↦ (List.mem_singleton.mp hx ▸ le_rfl)
  | step hsome _ ih =>
    rw [List.forall_mem_cons] at hheight ⊢
    refine ⟨le_rfl, fun x hx ↦ (ih hheight.2 x hx).trans ?_⟩
    rw [hheight.1 _ hsome]
    exact Nat.le_succ _

theorem Line.pairwise (h : Line parent p l)
    (hheight : ∀ x ∈ l, ∀ y, parent x = some y → height x = height y + 1) :
    l.Pairwise (fun x y ↦ height y < height x) := by
  induction h with
  | root _ => exact List.pairwise_singleton _ _
  | step hsome hq ih =>
    rw [List.forall_mem_cons] at hheight
    refine List.pairwise_cons.mpr ⟨fun x hx ↦ ?_, ih hheight.2⟩
    rw [hheight.1 _ hsome]
    exact Nat.lt_succ_of_le (hq.height_le hheight.2 x hx)

theorem Line.length_le (h : Line parent p l)
    (hheight : ∀ x ∈ l, ∀ y, parent x = some y → height x = height y + 1) :
    l.length ≤ height p + 1 := by
  induction h with
  | root _ => exact Nat.le_add_left 1 _
  | step hsome _ ih =>
    rw [List.forall_mem_cons] at hheight
    rw [List.length_cons, hheight.1 _ hsome]
    exact Nat.succ_le_succ (ih hheight.2)

/-! ## Walks -/

/-- The nodes passed on the way up from a node to an ancestor, without the ancestor. -/
inductive Up (parent : ι → Option ι) : ι → List ι → ι → Prop
  | refl (x : ι) : Up parent x [] x
  | step {p q x : ι} {l : List ι} (h : parent p = some q) (hq : Up parent q l x) :
      Up parent p (p :: l) x

/-- The nodes passed on the way down from an ancestor to a node, without the ancestor. -/
inductive Down (parent : ι → Option ι) : ι → List ι → ι → Prop
  | refl (x : ι) : Down parent x [] x
  | step {x p y : ι} {l : List ι} (h : parent p = some x) (hp : Down parent p l y) :
      Down parent x (p :: l) y

theorem Line.up {a c : List ι} : ∀ {p}, Line parent p (a ++ c) → Line parent x c →
    Up parent p a x := by
  induction a with
  | nil =>
    intro p hp hx
    obtain ⟨t, ht⟩ := hp.exists_cons
    obtain ⟨t', ht'⟩ := hx.exists_cons
    rw [List.nil_append] at ht
    obtain ⟨rfl, -⟩ := List.cons_eq_cons.mp (ht.symm.trans ht')
    exact .refl p
  | cons y a ih =>
    intro p hp hx
    obtain ⟨t, ht⟩ := hx.exists_cons
    obtain ⟨rfl, q, hsome, hq⟩ := hp.exists_parent (by simp [ht])
    exact .step hsome (ih hq hx)

theorem Down.snoc (h : Down parent x l q) (hp : parent p = some q) :
    Down parent x (l ++ [p]) p := by
  induction h with
  | refl x => exact .step hp (.refl p)
  | step hsome _ ih => exact .step hsome (ih hp)

theorem Up.down (h : Up parent p l x) : Down parent x l.reverse p := by
  induction h with
  | refl x => exact .refl x
  | step hsome _ ih =>
    rw [List.reverse_cons]
    exact ih.snoc hsome

end Line

/-! ## Strides -/

/-- The places of a walk down to zero that begins with a stride of `n`. No stride is more than
double the one before it, and the last one is cut off at zero. -/
inductive Strides : ℕ → List ℕ → Prop
  | zero (n : ℕ) : Strides n [0]
  | stride {n m h : ℕ} {l : List ℕ} (hn : 0 < n) (hh : 0 < h) (hm : m ≤ 2 * n)
      (hl : Strides m ((h - n) :: l)) : Strides n (h :: (h - n) :: l)

section Strides

variable {n h top a : ℕ} {l : List ℕ}

theorem Strides.getLast?_eq (hl : Strides n l) : l.getLast? = some 0 := by
  induction hl with
  | zero n => rfl
  | stride _ _ _ _ ih => rw [List.getLast?_cons_cons, ih]

theorem Strides.pairwise (hl : Strides n l) : l.Pairwise (fun x y ↦ y < x) := by
  induction hl with
  | zero n => exact List.pairwise_singleton _ _
  | stride hn hh _ _ ih =>
    refine List.pairwise_cons.mpr ⟨fun y hy ↦ ?_, ih⟩
    rcases List.mem_cons.mp hy with rfl | hy
    · omega
    · have := (List.pairwise_cons.mp ih).1 y hy
      omega

/-- **Strides.** If the next stride is at most one more than what lies behind, the first place at or
below `a` is at most twice as far from the top as `a` is. -/
theorem Strides.exists_find (hl : Strides n (h :: l)) (hh : h ≤ top) (hn : n ≤ top - h + 1)
    (ha : a ≤ h) :
    ∃ f, (h :: l).find? (fun x ↦ decide (x ≤ a)) = some f ∧ top - f ≤ 2 * (top - a) := by
  generalize hplaces : h :: l = places at hl
  induction hl generalizing h l with
  | zero n =>
    obtain ⟨rfl, rfl⟩ := List.cons_eq_cons.mp hplaces
    exact ⟨0, by simp, by omega⟩
  | @stride n m h' l' hn' hh' hm hl ih =>
    obtain ⟨rfl, rfl⟩ := List.cons_eq_cons.mp hplaces
    by_cases heq : h = a
    · subst heq
      exact ⟨h, List.find?_cons_of_pos (by simp), by omega⟩
    · rw [List.find?_cons_of_neg (by simp; omega)]
      by_cases hnext : a < h - n
      · exact ih (by omega) (by omega) hnext.le rfl
      · -- the stride takes us to `a` or past it, and is no longer than the way to `a`
        exact ⟨h - n, List.find?_cons_of_pos (by simp; omega), by omega⟩

end Strides

end Ancestry
