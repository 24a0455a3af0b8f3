import Mathlib.Data.FinEnum
import Cryptonite.Patricia.Trie

/-!
# Adding up a finite map

The total of a measure over the entries of a map with finitely many keys. Changing one entry changes
the total by the difference of the two entries, and nothing else is needed to follow a total through
a run of updates (`tally_update`). On the tree that represents the map the total is computed leaf by
leaf (`Canon.sumBy_eq_tally`).
-/

namespace Patricia

section Tally

variable {K V : Type} [Fintype K]

/-- The total of `f` over the entries of a map. -/
def tally (f : V → ℕ) (m : K → Option V) : ℕ := ∑ k, (m k).elim 0 f

theorem le_tally (f : V → ℕ) (m : K → Option V) (k : K) : (m k).elim 0 f ≤ tally f m :=
  Finset.single_le_sum (f := fun k ↦ (m k).elim 0 f) (fun _ _ ↦ Nat.zero_le _) (Finset.mem_univ k)

theorem tally_empty (f : V → ℕ) : tally f (fun _ : K ↦ none) = 0 :=
  Finset.sum_eq_zero fun _ _ ↦ rfl

theorem tally_update [DecidableEq K] (f : V → ℕ) (m : K → Option V) (k : K) (v : Option V) :
    tally f (Function.update m k v) + (m k).elim 0 f = tally f m + v.elim 0 f := by
  have hrest : ∑ x ∈ Finset.univ.erase k, (Function.update m k v x).elim 0 f
      = ∑ x ∈ Finset.univ.erase k, (m x).elim 0 f :=
    Finset.sum_congr rfl fun x hx ↦ by rw [Function.update_of_ne (Finset.ne_of_mem_erase hx)]
  rw [tally, tally, ← Finset.add_sum_erase _ _ (Finset.mem_univ k),
    ← Finset.add_sum_erase _ (fun x ↦ (m x).elim 0 f) (Finset.mem_univ k), hrest,
    Function.update_self]
  ring

theorem tally_or (f : V → ℕ) {m m' : K → Option V} (h : ∀ k, m k = none ∨ m' k = none) :
    tally f (fun k ↦ (m k).or (m' k)) = tally f m + tally f m' := by
  rw [tally, tally, tally, ← Finset.sum_add_distrib]
  refine Finset.sum_congr rfl fun k _ ↦ ?_
  rcases h k with hk | hk <;> rw [hk]
  · rw [Option.none_or, Option.elim_none, Nat.zero_add]
  · rw [Option.or_none, Option.elim_none, Nat.add_zero]

end Tally

theorem exists_key_notMem {w : ℕ} {keys : List (BitVec w)} (h : keys.length < 2 ^ w) :
    ∃ k, k ∉ keys := by
  have hcard : Fintype.card (BitVec w) = 2 ^ w :=
    FinEnum.card_eq_fintypeCard.symm.trans (FinEnum.card_bitVec w)
  have hlt : keys.toFinset.card < Fintype.card (BitVec w) :=
    hcard ▸ (List.toFinset_card_le keys).trans_lt h
  obtain ⟨k, -, hk⟩ := Finset.exists_mem_notMem_of_card_lt_card hlt
  exact ⟨k, fun hmem ↦ hk (List.mem_toFinset.mpr hmem)⟩

namespace Trie

variable {w : ℕ} {μ α η : Type}

/-- The total of `f` over the leaves of a tree. -/
def sumBy (f : α → ℕ) : Trie w μ α η → ℕ
  | .leaf _ _ v => f v
  | .node _ _ _ l r => l.sumBy f + r.sumBy f
  | .stub _ => 0

/-- The leaves of a canonical tree are the entries of its map, each once. -/
theorem Canon.sumBy_eq_tally (f : α → ℕ) : ∀ {t : Trie w μ α η} {d : ℕ} {p : BitVec w},
    SupportedIn 0 d p → t.Canon d p → t.sumBy f = tally f t.toMap := by
  intro t
  induction t with
  | leaf m k v =>
    intro d p _ _
    have hmap : (Trie.leaf m k v : Trie w μ α η).toMap
        = Function.update (fun _ ↦ none) k (some v) := by
      funext x
      rw [toMap, Function.update_apply]
    have htotal := tally_update f (fun _ : BitVec w ↦ none) k (some v)
    rw [hmap, sumBy]
    simpa [tally_empty] using htotal.symm
  | node m key bits l r ihl ihr =>
    intro d p hp hC
    obtain ⟨hb, hk, hl, hr⟩ := hC
    have hdisjoint : ∀ x, l.toMap x = none ∨ r.toMap x = none := by
      intro x
      by_contra hboth
      rw [not_or] at hboth
      obtain ⟨v, hv⟩ := Option.ne_none_iff_exists'.mp hboth.1
      obtain ⟨u, hu⟩ := Option.ne_none_iff_exists'.mp hboth.2
      have hleft := ((under_descend hp hb hk false).mp
        (hl.under (supportedIn_descend hp hb hk false) hv)).2.2
      have hright := ((under_descend hp hb hk true).mp
        (hr.under (supportedIn_descend hp hb hk true) hu)).2.2
      rw [hleft] at hright
      cases hright
    rw [sumBy, ihl (supportedIn_descend hp hb hk false) hl,
      ihr (supportedIn_descend hp hb hk true) hr, ← tally_or f hdisjoint]
    rfl
  | stub h => intro d p _ hC; exact hC.elim

end Trie

end Patricia
