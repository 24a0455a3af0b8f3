import Cryptonite.Chain.Headers
import Cryptonite.Foundation.Median

/-!
# The median of the last block times

A header is accepted only if it is later than the median of the times of the eleven blocks before
it. The times themselves may go back, but the median does not: the window loses one time and gains
one that is above it.
-/

namespace Cryptonite

open Median

def nMedianTimeSpan : ℕ := 11

namespace HeaderTree

/-- The times that `GetMedianTimePast` sorts. -/
def pmedian (tree : HeaderTree) (nTime : ℕ → ℤ) (p : ℕ) : List ℤ :=
  (tree.ancestryFrom (nMedianTimeSpan - 1) p).map nTime

def getMedianTimePast (tree : HeaderTree) (nTime : ℕ → ℤ) (p : ℕ) : ℤ :=
  median 0 (tree.pmedian nTime p)

variable {tree : HeaderTree} {nTime : ℕ → ℤ} {p q : ℕ}

theorem pmedian_ne_nil : tree.pmedian nTime p ≠ [] := by
  simp [pmedian, nMedianTimeSpan, ancestryFrom]

theorem ancestryFrom_succ (n p : ℕ) : tree.ancestryFrom n p <+: tree.ancestryFrom (n + 1) p ∧
    (tree.ancestryFrom (n + 1) p).length ≤ (tree.ancestryFrom n p).length + 1 := by
  induction n generalizing p with
  | zero => rcases h : tree.pprev p <;> simp [ancestryFrom, h]
  | succ n ih =>
    rcases h : tree.pprev p with _ | q
    · simp [ancestryFrom, h]
    · have hstep k : tree.ancestryFrom (k + 1) p = p :: tree.ancestryFrom k q := by
        rw [ancestryFrom, h, Option.elim_some]
      rw [hstep, hstep]
      simpa using ih q

theorem getMedianTimePast_le (hq : tree.pprev p = some q)
    (hp : tree.getMedianTimePast nTime q < nTime p) :
    tree.getMedianTimePast nTime q ≤ tree.getMedianTimePast nTime p := by
  obtain ⟨⟨r, hr⟩, hlength⟩ := tree.ancestryFrom_succ 9 q
  have hcount := (le_median_iff pmedian_ne_nil).mp (le_refl (tree.getMedianTimePast nTime q))
  have hwindow : tree.pmedian nTime p = nTime p :: (tree.ancestryFrom 9 q).map nTime := by
    rw [pmedian, nMedianTimeSpan, ancestryFrom, hq]
    rfl
  refine (le_median_iff pmedian_ne_nil).mpr ?_
  rw [pmedian, nMedianTimeSpan, List.length_map, ← hr, List.map_append, List.countP_append]
    at hcount
  rw [hwindow, List.countP_cons_of_neg (by simpa using hp.le), List.length_cons, List.length_map]
  rw [← hr] at hlength
  omega

/-- **The median does not go back.** Let every entry of a chain have passed the time test of
`AcceptBlockHeader`. Then the median at a block is at least what it is at any block before it, so
that a block is later than the medians at all the blocks before it. -/
theorem medians_pairwise
    (haccepted : ∀ x ∈ tree.ancestry p, ∀ y, tree.pprev x = some y →
      tree.getMedianTimePast nTime y < nTime x) :
    (tree.ancestry p).Pairwise fun x y ↦
      tree.getMedianTimePast nTime y ≤ tree.getMedianTimePast nTime x ∧
        tree.getMedianTimePast nTime y < nTime x := by
  induction p using tree.parent_induction with
  | root p hroot =>
    rw [ancestry_root hroot]
    exact List.pairwise_singleton _ _
  | step p q hq ih =>
    rw [ancestry_step hq, List.forall_mem_cons] at haccepted
    have hp := haccepted.1 q hq
    have ih := ih haccepted.2
    obtain ⟨l, hl⟩ := (tree.line_ancestry q).exists_cons
    rw [hl, List.pairwise_cons] at ih
    have hle : ∀ y ∈ q :: l, tree.getMedianTimePast nTime y ≤ tree.getMedianTimePast nTime q :=
      List.forall_mem_cons.mpr ⟨le_rfl, fun y hy ↦ (ih.1 y hy).1⟩
    rw [ancestry_step hq, hl, List.pairwise_cons, List.pairwise_cons]
    exact ⟨fun y hy ↦ ⟨(hle y hy).trans (getMedianTimePast_le hq hp), (hle y hy).trans_lt hp⟩, ih⟩

/-- A chain without forks. -/
def unforked : HeaderTree where
  pprev
    | 0 => none
    | p + 1 => some p
  nHeight := id
  nChainWork _ := 0
  nSequenceId _ := 0
  height_step {p q} h := by
    rcases p with _ | p
    · cases h
    · exact congrArg Nat.succ (Option.some.inj h)
  height_root {p} h := by
    rcases p with _ | p
    · rfl
    · cases h

/-- Times that go back. -/
def zigzag (p : ℕ) : ℤ := [0, 1, 5, 3, 4].getD p 0

theorem medians_pairwise_zigzag : zigzag 3 < zigzag 2 ∧
    (unforked.ancestry 4).Pairwise fun x y ↦
      unforked.getMedianTimePast zigzag y ≤ unforked.getMedianTimePast zigzag x ∧
        unforked.getMedianTimePast zigzag y < zigzag x :=
  ⟨by decide, medians_pairwise (by decide)⟩

end HeaderTree

end Cryptonite
