import Cryptonite.Foundation.Ancestry
import Cryptonite.Trie.Node

/-!
# Chains of headers

A `CChain` is a vector of index entries, one for each height. `SetTip` writes the ancestors of the
new tip into it from the top down and stops at the first entry that is already there, so it relies
on the vector being a chain before. The chains are those that hold the ancestors of one entry, each
at its height (`HeaderTree.chainTo`); what `SetTip` leaves of one is another
(`HeaderTree.setTip_chainTo`).

The loops of the source that follow `pprev` are all of one kind: they stop at the first ancestor
with some property (`HeaderTree.climb`).
-/

namespace Cryptonite

open Ancestry

/-- The entries of the block index, as far as the choice of headers reads them and nothing changes
them. An entry is named by its address. -/
structure HeaderTree where
  pprev : ℕ → Option ℕ
  nHeight : ℕ → ℕ
  nChainWork : ℕ → UInt256
  nSequenceId : ℕ → UInt32
  /-- Heights grow by one. -/
  height_step : ∀ {p q}, pprev p = some q → nHeight p = nHeight q + 1
  /-- An entry without a parent has height zero. -/
  height_root : ∀ {p}, pprev p = none → nHeight p = 0

structure CChain where
  vChain : List (Option ℕ)
  deriving DecidableEq, Repr

namespace CChain

/-- `CChain::operator[]`. -/
def get (c : CChain) (nHeight : ℕ) : Option ℕ := (c.vChain[nHeight]?).join

def tip (c : CChain) : Option ℕ := c.get (c.vChain.length - 1)

end CChain

namespace HeaderTree

variable (tree : HeaderTree)

def contains (c : CChain) (pindex : ℕ) : Bool := c.get (tree.nHeight pindex) = some pindex

def next (c : CChain) (pindex : ℕ) : Option ℕ :=
  if tree.contains c pindex then c.get (tree.nHeight pindex + 1) else none

/-- `while (pindex && !stop(pindex)) pindex = pindex->pprev`, for at most `n` rounds. -/
def climbFrom (stop : ℕ → Bool) : ℕ → ℕ → Option ℕ
  | 0, p => if stop p then some p else none
  | n + 1, p => if stop p then some p else (tree.pprev p).bind (climbFrom stop n)

/-- The first ancestor with a property. -/
def climb (stop : ℕ → Bool) (pindex : Option ℕ) : Option ℕ :=
  pindex.bind fun p ↦ tree.climbFrom stop (tree.nHeight p) p

def findFork (c : CChain) (pindex : Option ℕ) : Option ℕ := tree.climb (tree.contains c) pindex

/-- The loop of `SetTip`, for at most `n` rounds: what is in the vector and where it stops. -/
def fill : ℕ → List (Option ℕ) → ℕ → List (Option ℕ) × Option ℕ
  | 0, v, p =>
    if (v[tree.nHeight p]?).join = some p then (v, some p)
    else (v.set (tree.nHeight p) (some p), none)
  | n + 1, v, p =>
    if (v[tree.nHeight p]?).join = some p then (v, some p)
    else
      let v := v.set (tree.nHeight p) (some p)
      match tree.pprev p with
      | none => (v, none)
      | some q => fill n v q

def setTip (c : CChain) : Option ℕ → CChain × Option ℕ
  | none => (⟨[]⟩, none)
  | some p =>
    let size := tree.nHeight p + 1
    -- `resize` cuts off, or fills up with null
    let v := c.vChain.take size ++ List.replicate (size - c.vChain.length) none
    let (v, fork) := tree.fill (tree.nHeight p) v p
    (⟨v⟩, fork)

/-! ## Ancestors -/

/-- An entry and its ancestors, at most `n` of them. -/
def ancestryFrom : ℕ → ℕ → List ℕ
  | 0, p => [p]
  | n + 1, p => p :: (tree.pprev p).elim [] (ancestryFrom n)

def ancestry (p : ℕ) : List ℕ := tree.ancestryFrom (tree.nHeight p) p

/-- The blocks of the chain with a given tip, the tip first. -/
def blocks (tip : Option ℕ) : List ℕ := tip.elim [] tree.ancestry

def chainTo (tip : Option ℕ) : CChain := ⟨(tree.blocks tip).reverse.map some⟩

variable {tree} {p q x : ℕ}

theorem ancestry_root (h : tree.pprev p = none) : tree.ancestry p = [p] := by
  rw [ancestry, tree.height_root h, ancestryFrom]

theorem ancestry_step (h : tree.pprev p = some q) : tree.ancestry p = p :: tree.ancestry q := by
  rw [ancestry, tree.height_step h, ancestryFrom, h, Option.elim_some, ← ancestry]

theorem line_ancestry (tree : HeaderTree) (p : ℕ) : Line tree.pprev p (tree.ancestry p) := by
  induction hn : tree.nHeight p generalizing p with
  | zero =>
    rcases hp : tree.pprev p with _ | q
    · rw [ancestry_root hp]
      exact .root hp
    · exact absurd (tree.height_step hp) (by omega)
  | succ n ih =>
    rcases hp : tree.pprev p with _ | q
    · exact absurd (tree.height_root hp) (by omega)
    · rw [ancestry_step hp]
      refine .step hp (ih q ?_)
      have := tree.height_step hp
      omega

theorem parent_induction (tree : HeaderTree) {motive : ℕ → Prop}
    (root : ∀ p, tree.pprev p = none → motive p)
    (step : ∀ p q, tree.pprev p = some q → motive q → motive p) (p : ℕ) : motive p := by
  have hline := line_ancestry tree p
  generalize tree.ancestry p = l at hline
  induction hline with
  | root h => exact root _ h
  | step h _ ih => exact step _ _ h ih

theorem self_mem_ancestry (tree : HeaderTree) (p : ℕ) : p ∈ tree.ancestry p := by
  obtain ⟨t, ht⟩ := (line_ancestry tree p).exists_cons
  rw [ht]
  exact List.mem_cons_self

theorem ancestry_subset (hx : x ∈ tree.ancestry p) : tree.ancestry x ⊆ tree.ancestry p := by
  obtain ⟨pre, t, ht, hline⟩ := (line_ancestry tree p).of_mem hx
  rw [ht, (line_ancestry tree x).unique hline]
  exact List.subset_append_right pre t

variable {y : ℕ}

theorem mem_ancestry_or (hx : x ∈ tree.ancestry p) (hy : y ∈ tree.ancestry p) :
    x ∈ tree.ancestry y ∨ y ∈ tree.ancestry x := by
  induction p using parent_induction tree with
  | root p hp =>
    rw [ancestry_root hp, List.mem_singleton] at hx hy
    subst hx hy
    exact .inl (self_mem_ancestry tree y)
  | step p q hp ih =>
    have hsub : tree.ancestry q ⊆ tree.ancestry p := by
      rw [ancestry_step hp]
      exact List.subset_cons_self p _
    rw [ancestry_step hp, List.mem_cons] at hx hy
    rcases hx with rfl | hx
    · rcases hy with rfl | hy
      · exact .inl (self_mem_ancestry tree y)
      · exact .inr (hsub hy)
    · rcases hy with rfl | hy
      · exact .inl (hsub hx)
      · exact ih hx hy

theorem exists_child_of_mem_ancestry (hx : x ∈ tree.ancestry p) (hne : x ≠ p) :
    ∃ q ∈ tree.ancestry p, tree.pprev q = some x := by
  induction p using parent_induction tree with
  | root p hp =>
    rw [ancestry_root hp, List.mem_singleton] at hx
    exact absurd hx hne
  | step p r hp ih =>
    rw [ancestry_step hp, List.mem_cons, or_iff_right hne] at hx
    by_cases hxr : x = r
    · exact ⟨p, self_mem_ancestry tree p, hxr ▸ hp⟩
    · obtain ⟨q, hq, hqx⟩ := ih hx hxr
      rw [ancestry_step hp]
      exact ⟨q, List.mem_cons_of_mem p hq, hqx⟩

theorem nHeight_le (hx : x ∈ tree.ancestry p) : tree.nHeight x ≤ tree.nHeight p :=
  (line_ancestry tree p).height_le (fun _ _ _ h ↦ tree.height_step h) x hx

theorem length_ancestry (tree : HeaderTree) (p : ℕ) :
    (tree.ancestry p).length = tree.nHeight p + 1 := by
  induction p using parent_induction tree with
  | root p h => rw [ancestry_root h, tree.height_root h]; rfl
  | step p q h ih => rw [ancestry_step h, List.length_cons, ih, tree.height_step h]

/-- The ancestors of an entry, from the root on, are in the order of their heights. -/
theorem getElem?_reverse_ancestry (tree : HeaderTree) (p h : ℕ) :
    (tree.ancestry p).reverse[h]? = some x ↔ x ∈ tree.ancestry p ∧ tree.nHeight x = h := by
  induction p using parent_induction tree with
  | root p hp =>
    rw [ancestry_root hp, List.reverse_singleton, List.getElem?_singleton, List.mem_singleton]
    have hheight := tree.height_root hp
    constructor
    · intro hx
      split_ifs at hx with hzero
      cases hx
      exact ⟨rfl, hheight.trans hzero.symm⟩
    · rintro ⟨rfl, rfl⟩
      rw [if_pos hheight]
  | step p q hp ih =>
    have hlength : (tree.ancestry q).reverse.length = tree.nHeight p := by
      rw [List.length_reverse, length_ancestry, tree.height_step hp]
    rw [ancestry_step hp, List.reverse_cons, List.mem_cons]
    rcases lt_trichotomy h (tree.nHeight p) with hlt | rfl | hlt
    · rw [List.getElem?_append_left (hlength ▸ hlt), ih, or_and_right, or_iff_right]
      rintro ⟨rfl, rfl⟩
      exact lt_irrefl _ hlt
    · rw [List.getElem?_append_right hlength.le, hlength, Nat.sub_self]
      constructor
      · intro hx
        cases hx
        exact ⟨.inl rfl, rfl⟩
      · rintro ⟨rfl | hx, hheight⟩
        · rfl
        · have := nHeight_le hx
          have := tree.height_step hp
          omega
    · have hnone : ((tree.ancestry q).reverse ++ [p])[h]? = none := by
        rw [List.getElem?_eq_none_iff, List.length_append, hlength]
        exact hlt
      rw [hnone]
      refine iff_of_false (by simp) ?_
      rintro ⟨rfl | hx, hheight⟩
      · exact hlt.ne hheight
      · have := nHeight_le hx
        have := tree.height_step hp
        omega

theorem eq_of_nHeight_eq (hx : x ∈ tree.ancestry p) (hy : y ∈ tree.ancestry p)
    (hheight : tree.nHeight x = tree.nHeight y) : x = y := by
  have hy' := (getElem?_reverse_ancestry tree p _).mpr ⟨hy, rfl⟩
  exact Option.some.inj (((getElem?_reverse_ancestry tree p _).mpr ⟨hx, hheight⟩).symm.trans hy')

theorem ancestry_antisymm (hx : x ∈ tree.ancestry p) (hp : p ∈ tree.ancestry x) : x = p :=
  eq_of_nHeight_eq hx (self_mem_ancestry tree p) (le_antisymm (nHeight_le hx) (nHeight_le hp))

/-! ## The loops -/

theorem climbFrom_nHeight (stop : ℕ → Bool) (p : ℕ) :
    tree.climbFrom stop (tree.nHeight p) p = (tree.ancestry p).find? stop := by
  induction p using parent_induction tree with
  | root p hp =>
    rw [ancestry_root hp, tree.height_root hp, climbFrom, List.find?_singleton]
  | step p q hp ih =>
    rw [ancestry_step hp, tree.height_step hp, climbFrom, hp, Option.bind_some, ih]
    rcases hstop : stop p with _ | _
    · rw [List.find?_cons_of_neg (by simp [hstop])]
      rfl
    · rw [List.find?_cons_of_pos hstop]
      rfl

theorem climb_some (stop : ℕ → Bool) (p : ℕ) :
    tree.climb stop (some p) = (tree.ancestry p).find? stop :=
  climbFrom_nHeight stop p

theorem mem_ancestry_of_find {stop : ℕ → Bool} {t : ℕ}
    (hfind : (tree.ancestry p).find? stop = some t) (hx : x ∈ tree.ancestry p)
    (hstop : stop x = true) : x ∈ tree.ancestry t := by
  induction p using parent_induction tree with
  | root p hp =>
    rw [ancestry_root hp] at hfind hx
    obtain rfl := List.mem_singleton.mp (List.mem_of_find?_eq_some hfind)
    obtain rfl := List.mem_singleton.mp hx
    exact self_mem_ancestry tree x
  | step p q hp ih =>
    by_cases hp' : stop p = true
    · have hpt := hfind
      rw [ancestry_step hp, List.find?_cons_of_pos hp'] at hpt
      cases hpt
      exact hx
    · rw [ancestry_step hp, List.find?_cons_of_neg hp'] at hfind
      rw [ancestry_step hp, List.mem_cons, or_iff_right (by rintro rfl; exact hp' hstop)] at hx
      exact ih hfind hx

/-! ## Chains -/

section Chains

variable {o : Option ℕ} {h : ℕ}

theorem getElem?_chainTo : (tree.chainTo o).vChain[h]? = some (some x) ↔
    x ∈ tree.blocks o ∧ tree.nHeight x = h := by
  rcases o with _ | p
  · simp [chainTo, blocks]
  · rw [chainTo, List.getElem?_map, Option.map_eq_some_iff]
    simp only [Option.some_inj, exists_eq_right]
    exact getElem?_reverse_ancestry tree p h

theorem get_chainTo : (tree.chainTo o).get h = some x ↔
    x ∈ tree.blocks o ∧ tree.nHeight x = h := by
  rw [CChain.get, Option.join_eq_some_iff, getElem?_chainTo]

theorem contains_chainTo : tree.contains (tree.chainTo o) x = true ↔ x ∈ tree.blocks o := by
  rw [contains, decide_eq_true_iff, get_chainTo, and_iff_left rfl]

theorem mem_vChain_chainTo : some x ∈ (tree.chainTo o).vChain ↔ x ∈ tree.blocks o := by
  simp [chainTo]

theorem length_chainTo (p : ℕ) : (tree.chainTo (some p)).vChain.length = tree.nHeight p + 1 := by
  rw [chainTo, List.length_map, List.length_reverse]
  exact length_ancestry tree p

theorem exists_get_chainTo {p : ℕ} (hh : h ≤ tree.nHeight p) :
    ∃ x, (tree.chainTo (some p)).get h = some x := by
  have hlt : h < (tree.ancestry p).reverse.length := by
    rw [List.length_reverse, length_ancestry]
    omega
  obtain ⟨hmem, hheight⟩ := (getElem?_reverse_ancestry tree p h).mp (List.getElem?_eq_getElem hlt)
  exact ⟨_, get_chainTo.mpr ⟨hmem, hheight⟩⟩

theorem tip_chainTo (o : Option ℕ) : (tree.chainTo o).tip = o := by
  rcases o with _ | p
  · rfl
  · rw [CChain.tip, length_chainTo, Nat.add_sub_cancel, get_chainTo]
    exact ⟨self_mem_ancestry tree p, rfl⟩

theorem blocks_subset (hx : x ∈ tree.blocks o) : tree.ancestry x ⊆ tree.blocks o := by
  rcases o with _ | p
  · exact absurd hx List.not_mem_nil
  · exact ancestry_subset hx

theorem next_chainTo : tree.next (tree.chainTo o) p = some q ↔
    q ∈ tree.blocks o ∧ tree.pprev q = some p := by
  rw [next]
  constructor
  · intro hnext
    split_ifs at hnext with hp
    rw [contains_chainTo] at hp
    obtain ⟨hq, hheight⟩ := get_chainTo.mp hnext
    refine ⟨hq, ?_⟩
    rcases hr : tree.pprev q with _ | r
    · have := tree.height_root hr
      omega
    · -- the parent is in the chain as well, and there is one block of each height
      have hrq : r ∈ tree.ancestry q := by
        rw [ancestry_step hr]
        exact List.mem_cons_of_mem q (self_mem_ancestry tree r)
      have hheight' : tree.nHeight r = tree.nHeight p := by
        have := tree.height_step hr
        omega
      have hr' := get_chainTo.mpr ⟨blocks_subset hq hrq, hheight'⟩
      exact hr'.symm.trans (get_chainTo.mpr ⟨hp, rfl⟩)
  · rintro ⟨hq, hp⟩
    have hpq : p ∈ tree.ancestry q := by
      rw [ancestry_step hp]
      exact List.mem_cons_of_mem q (self_mem_ancestry tree p)
    rw [if_pos (contains_chainTo.mpr (blocks_subset hq hpq)), get_chainTo]
    exact ⟨hq, tree.height_step hp⟩

/-- The entries of a vector up to height `n` stand at their heights, below each of them its
ancestors. -/
def FilledTo (tree : HeaderTree) (n : ℕ) (v : List (Option ℕ)) : Prop :=
  ∀ x, tree.nHeight x ≤ n → v[tree.nHeight x]? = some (some x) →
    ∀ y ∈ tree.ancestry x, v[tree.nHeight y]? = some (some y)

/-- What the loop of `SetTip` leaves: the ancestors in their places, and the rest as it was. -/
structure Filled (tree : HeaderTree) (p : ℕ) (v v' : List (Option ℕ)) : Prop where
  length_eq : v'.length = v.length
  ancestors : ∀ x ∈ tree.ancestry p, v'[tree.nHeight x]? = some (some x)
  above : ∀ h, tree.nHeight p < h → v'[h]? = v[h]?

variable {v v' : List (Option ℕ)}

theorem FilledTo.filled (hv : tree.FilledTo (tree.nHeight p) v)
    (hp : v[tree.nHeight p]? = some (some p)) : tree.Filled p v v :=
  ⟨rfl, hv p le_rfl hp, fun _ _ ↦ rfl⟩

theorem Filled.set_root (hlt : tree.nHeight p < v.length)
    (hp : tree.pprev p = none) : tree.Filled p v (v.set (tree.nHeight p) (some p)) := by
  refine ⟨List.length_set, fun x hx ↦ ?_, fun h hh ↦ List.getElem?_set_ne hh.ne⟩
  rw [ancestry_root hp, List.mem_singleton] at hx
  rw [hx, List.getElem?_set_self hlt]

theorem FilledTo.set (hv : tree.FilledTo (tree.nHeight p) v)
    (hq : tree.nHeight q < tree.nHeight p) (o : Option ℕ) :
    tree.FilledTo (tree.nHeight q) (v.set (tree.nHeight p) o) := by
  intro x hx hxv y hy
  have hyx := nHeight_le hy
  rw [List.getElem?_set_ne (by omega)] at hxv ⊢
  exact hv x (hx.trans hq.le) hxv y hy

theorem Filled.of_step (hlt : tree.nHeight p < v.length)
    (hp : tree.pprev p = some q) (h : tree.Filled q (v.set (tree.nHeight p) (some p)) v') :
    tree.Filled p v v' := by
  have hstep := tree.height_step hp
  refine ⟨h.length_eq.trans List.length_set, fun x hx ↦ ?_, fun k hk ↦ ?_⟩
  · rw [ancestry_step hp, List.mem_cons] at hx
    rcases hx with rfl | hx
    · rw [h.above _ (by omega), List.getElem?_set_self hlt]
    · exact h.ancestors x hx
  · rw [h.above k (by omega), List.getElem?_set_ne hk.ne]

theorem fill_filled (p : ℕ) : ∀ {v : List (Option ℕ)}, tree.nHeight p < v.length →
    tree.FilledTo (tree.nHeight p) v →
    tree.Filled p v (tree.fill (tree.nHeight p) v p).1 := by
  induction p using parent_induction tree with
  | root p hp =>
    intro v hlt hv
    have hset := Filled.set_root hlt hp
    rw [tree.height_root hp, fill, tree.height_root hp]
    rw [tree.height_root hp] at hset
    split_ifs with hthere
    · rw [Option.join_eq_some_iff, ← tree.height_root hp] at hthere
      exact hv.filled hthere
    · exact hset
  | step p q hp ih =>
    intro v hlt hv
    have hq := tree.height_step hp
    rw [hq, fill, hp]
    split_ifs with hthere
    · rw [Option.join_eq_some_iff] at hthere
      exact hv.filled hthere
    · exact .of_step hlt hp (ih (by rw [List.length_set]; omega) (hv.set (by omega) _))

theorem Filled.eq_chainTo (h : tree.Filled p v v')
    (hlength : v.length = tree.nHeight p + 1) : v' = (tree.chainTo (some p)).vChain := by
  apply List.ext_getElem?
  intro k
  rcases hk : (tree.chainTo (some p)).vChain[k]? with _ | o
  · rw [List.getElem?_eq_none_iff, length_chainTo] at hk
    rw [List.getElem?_eq_none_iff, h.length_eq, hlength]
    exact hk
  · obtain ⟨x, rfl⟩ : ∃ x, o = some x := by
      have hmem := List.mem_of_getElem? hk
      rw [chainTo, List.mem_map] at hmem
      obtain ⟨x, -, rfl⟩ := hmem
      exact ⟨x, rfl⟩
    obtain ⟨hx, rfl⟩ := getElem?_chainTo.mp hk
    exact h.ancestors x hx

/-- `resize` keeps the part of a chain that it does not cut off. -/
theorem filledTo_resize (o : Option ℕ) (n k : ℕ) :
    tree.FilledTo n ((tree.chainTo o).vChain.take (n + 1) ++ List.replicate k none) := by
  have hiff : ∀ x, tree.nHeight x ≤ n →
      (((tree.chainTo o).vChain.take (n + 1) ++ List.replicate k none)[tree.nHeight x]?
        = some (some x) ↔ x ∈ tree.blocks o) := by
    intro x hx
    rw [List.getElem?_append, List.getElem?_take_of_lt (Nat.lt_succ_of_le hx)]
    split_ifs with hlt
    · rw [getElem?_chainTo, and_iff_left rfl]
    · have hnone : (tree.chainTo o).vChain[tree.nHeight x]? = none := by
        rw [List.length_take] at hlt
        rw [List.getElem?_eq_none_iff]
        omega
      refine iff_of_false (fun hmem ↦ ?_) fun hx' ↦ ?_
      · exact absurd (List.eq_of_mem_replicate (List.mem_of_getElem? hmem)) (by simp)
      · exact absurd (hnone.symm.trans (getElem?_chainTo.mpr ⟨hx', rfl⟩)) (by simp)
  intro x hx hxv y hy
  exact (hiff y ((nHeight_le hy).trans hx)).mpr (blocks_subset ((hiff x hx).mp hxv) hy)

/-- **`SetTip`.** It makes a chain of a chain. -/
theorem setTip_chainTo (o o' : Option ℕ) :
    (tree.setTip (tree.chainTo o) o').1 = tree.chainTo o' := by
  rcases o' with _ | p
  · rfl
  · have hlength : ((tree.chainTo o).vChain.take (tree.nHeight p + 1) ++ List.replicate
        (tree.nHeight p + 1 - (tree.chainTo o).vChain.length) none).length
        = tree.nHeight p + 1 := by
      rw [List.length_append, List.length_take, List.length_replicate]
      omega
    have hfilled := fill_filled p ((Nat.lt_succ_self _).trans_eq hlength.symm)
      (filledTo_resize o _ _)
    exact congrArg CChain.mk (hfilled.eq_chainTo hlength)

end Chains

end HeaderTree

end Cryptonite
