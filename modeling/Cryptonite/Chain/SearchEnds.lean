import Cryptonite.Chain.BestHeader

/-!
# The search for the best header ends

The walk from a candidate stops where it meets the header chain, and the block there is not marked
any further. If that block has failed, the loop of `ActivateBestHeader` comes to the same candidate
again, and runs forever. This is the only way in which it does not end
(`activateBestHeader_isSome_iff`), and it takes a failed block in the chain below a tip that has not
failed.
-/

namespace Cryptonite

open HeaderTree

namespace HeaderState

variable {tree : HeaderTree} {s s' : HeaderState tree} {p t : ℕ} {o : Option ℕ} {tip : ℕ}

/-! ## The loop over the candidates -/

/-- A round after which the loop goes on leaves fewer candidates, unless it is stuck. -/
theorem Outcome.card_lt (h : s.Outcome (.again s')) :
    s'.setBlockIndexValid.elems.toFinset.card < s.setBlockIndexValid.elems.toFinset.card ∨
      ∃ p, s.setBlockIndexValid.elems.getLast? = some p ∧ s.Passes p ∧ ¬s.Leaves p := by
  have hless {p : ℕ} (hlast : s.setBlockIndexValid.elems.getLast? = some p)
      (hp : p ∉ s'.setBlockIndexValid.elems)
      (hsub : ∀ x ∈ s'.setBlockIndexValid.elems, x ∈ s.setBlockIndexValid.elems) :
      s'.setBlockIndexValid.elems.toFinset.card < s.setBlockIndexValid.elems.toFinset.card := by
    refine Finset.card_lt_card ⟨fun x hx ↦ ?_, fun hsup ↦ ?_⟩
    · exact List.mem_toFinset.mpr (hsub x (List.mem_toFinset.mp hx))
    · exact hp (List.mem_toFinset.mp (hsup (List.mem_toFinset.mpr (List.mem_of_getLast? hlast))))
  cases h with
  | @dropped p hlast _ =>
    exact .inl (hless hlast (fun hp ↦ (WorkSet.mem_erase.mp hp).2 rfl)
      fun x hx ↦ (WorkSet.mem_erase.mp hx).1)
  | @tainted p t _ hlast hp _ ht _ hfailed hmarks =>
    refine .inl (hless hlast (fun hmem ↦ ?_) fun x hx ↦ ((hmarks.mem_iff x).mp hx).1)
    -- the candidate has not failed, so the failed ancestor is a proper one
    have hpt : p ∈ tree.ancestry t := by
      by_contra hpt
      exact ((hmarks.mem_iff p).mp hmem).2 ⟨self_mem_ancestry tree p, hpt⟩
    rw [ancestry_antisymm ht hpt, hp] at hfailed
    exact Bool.false_ne_true hfailed
  | @stuck p hlast hpasses hstays => exact .inr ⟨p, hlast, hpasses, hstays⟩

/-- The greatest candidate that passes, if there is one, does not stop the search. -/
def Searchable (s : HeaderState tree) : Prop :=
  ∀ p, s.withoutFailedTips.Chosen p → s.withoutFailedTips.Leaves p

theorem select_isSome (hchain : s.chainHeaders = tree.chainTo o)
    (hleaves : ∀ p, s.Chosen p → s.Leaves p) : ∀ {fuel : ℕ} {s' : HeaderState tree},
    s.Narrowed s' → s'.setBlockIndexValid.elems.toFinset.card < fuel →
    (s'.select fuel).isSome := by
  intro fuel
  induction fuel with
  | zero => exact fun _ h ↦ absurd h (Nat.not_lt_zero _)
  | succ fuel ih =>
    intro s' h hlt
    rw [select]
    have houtcome := round_outcome (h.chainHeaders.trans hchain)
    rcases hround : s'.round with _ | p | s₁ <;> rw [hround] at houtcome
    · rfl
    · rfl
    · obtain hless | ⟨p, hlast, hpasses, hstays⟩ := houtcome.card_lt
      · exact ih (h.round hchain hround) (by omega)
      · exact absurd ((h.leaves_iff hchain).mpr (hleaves p (h.chosen hlast hpasses))) hstays

/-- **The search ends** if and only if the candidate it comes to does not stop it, and then it takes
no more rounds than there are candidates, and one. -/
theorem activateBestHeader_isSome_iff (hchain : s.chainHeaders = tree.chainTo o)
    (disconnects : ℕ → Bool) :
    (s.activateBestHeader disconnects (s.setBlockIndexValid.elems.length + 1)).isSome = true ↔
      s.Searchable := by
  obtain ⟨hsame, o', ho', -⟩ := withoutFailedTips_spec hchain
  rw [activateBestHeader, Option.isSome_map, ← withoutFailedTips]
  refine ⟨fun hends p hp ↦ ?_, fun hleaves ↦ ?_⟩
  · obtain ⟨⟨best, s'⟩, hselect⟩ := Option.isSome_iff_exists.mp hends
    obtain ⟨-, ⟨-, hnone⟩ | ⟨q, -, hq, hleaves⟩⟩ := chosen_of_select ho' (.refl _) hselect
    · exact absurd hp.passes (hnone p)
    · exact hp.unique hq ▸ hleaves
  · refine select_isSome ho' hleaves (.refl _) (Nat.lt_succ_of_le ?_)
    rw [hsame.setBlockIndexValid]
    exact List.toFinset_card_le _

/-! ## Marks in order -/

/-- The loop of `InvalidBlockFound` marks the blocks that follow in the header chain. -/
theorem marks_failNext {tip : ℕ} {n : ℕ} : ∀ {s : HeaderState tree} {p : ℕ},
    s.chainHeaders = tree.chainTo (some tip) → tree.nHeight tip ≤ tree.nHeight p + n →
    s.Marks (s.failNext n p).1
      fun x ↦ x ∈ tree.blocks (some tip) ∧ p ∈ tree.ancestry x ∧ x ≠ p := by
  induction n with
  | zero =>
    intro s p _ hle
    refine .none rfl rfl rfl rfl ?_
    rintro x ⟨hx, hpx, hne⟩
    -- a child of the block would be above the tip
    obtain ⟨q, hq, hqp⟩ := exists_child_of_mem_ancestry hpx hne.symm
    have hstep := tree.height_step hqp
    have hqtip := nHeight_le (blocks_subset hx hq)
    omega
  | succ n ih =>
    intro s p hchain hle
    rw [failNext, hchain]
    rcases hnext : tree.next (tree.chainTo (some tip)) p with _ | q
    · refine .none rfl rfl rfl rfl ?_
      rintro x ⟨hx, hpx, hne⟩
      obtain ⟨q, hq, hqp⟩ := exists_child_of_mem_ancestry hpx hne.symm
      have := next_chainTo.mpr ⟨blocks_subset hx hq, hqp⟩
      exact absurd (hnext.symm.trans this) (by simp)
    · obtain ⟨hq, hqp⟩ := next_chainTo.mp hnext
      have hstep := tree.height_step hqp
      have hpq : p ∈ tree.ancestry q := by
        rw [ancestry_step hqp]
        exact List.mem_cons_of_mem _ (self_mem_ancestry tree p)
      refine ((marks_failChild s q).trans (ih hchain (by omega))).congr fun x ↦ ?_
      constructor
      · rintro (rfl | ⟨hx, hqx, -⟩)
        · exact ⟨hq, hpq, by rintro rfl; omega⟩
        · refine ⟨hx, ancestry_subset hqx hpq, ?_⟩
          rintro rfl
          have := nHeight_le hqx
          omega
      · rintro ⟨hx, hpx, hne⟩
        by_cases hxq : x = q
        · exact .inl hxq
        · refine .inr ⟨hx, (mem_ancestry_or hx hq).resolve_left fun hxq' ↦ hne ?_, hxq⟩
          rw [ancestry_step hqp, List.mem_cons, or_iff_right hxq] at hxq'
          exact ancestry_antisymm hxq' hpx

/-- What `InvalidBlockFound` marks: the block, and those that follow it in the header chain. -/
theorem marks_failValid (hchain : s.chainHeaders = tree.chainTo (some tip)) (p : ℕ) :
    s.Marks (s.failValid p) fun x ↦ (x = p ∨
      x ∈ tree.blocks (some tip) ∧ p ∈ tree.ancestry x ∧ x ≠ p) ∨ False := by
  have hmark := marks_mark (show BLOCK_FAILED_VALID &&& BLOCK_FAILED_MASK ≠ 0 by decide)
    (show BLOCK_FAILED_VALID &&& BLOCK_VALID_MASK = 0 by decide) s p
  have hnext := @marks_failNext tree tip s.chainHeaders.vChain.length (s.mark BLOCK_FAILED_VALID p)
    p hchain (by rw [hchain, length_chainTo]; omega)
  exact (hmark.trans hnext).trans (marks_noteInvalid _
    ((s.mark BLOCK_FAILED_VALID p).failNext s.chainHeaders.vChain.length p).2)

end HeaderState

end Cryptonite
