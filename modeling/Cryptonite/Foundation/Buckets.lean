import Mathlib.Algebra.BigOperators.Fin
import Mathlib.Tactic

/-!
# Buckets and positions

Two ways to keep the elements of a table. A family of sets has an element in some number of its
members, its `degree`; a family of lists has it in some number of `places`. Both change by one, for
one element, when it is put into a bucket or taken out.

A list and a table of positions *agree* if each says where the other has an element. The elements
are then those of the table, each once. Elements are added at the end, swapped, and removed at the
end, and each of the three has its counterpart in the table of positions.
-/

namespace Buckets

open Function

section Degree

variable {ι α : Type} [Fintype ι] [DecidableEq α] {S : ι → Finset α} {i : ι} {x y : α}

/-- The number of sets that have an element. -/
def degree (S : ι → Finset α) (x : α) : ℕ := (Finset.univ.filter fun i ↦ x ∈ S i).card

theorem degree_eq_zero_iff : degree S x = 0 ↔ ∀ i, x ∉ S i := by
  simp [degree, Finset.filter_eq_empty_iff]

theorem degree_pos (h : x ∈ S i) : 0 < degree S x :=
  Nat.pos_of_ne_zero fun hzero ↦ degree_eq_zero_iff.mp hzero i h

theorem degree_lt_of_subset {T : ι → Finset α} (hsub : ∀ i, S i ⊆ T i) (hmem : x ∈ T i)
    (hnot : x ∉ S i) : degree S x < degree T x := by
  refine Finset.card_lt_card ⟨?_, fun hle ↦ ?_⟩
  · intro j hj
    simp only [Finset.mem_filter, Finset.mem_univ, true_and] at hj ⊢
    exact hsub j hj
  · exact hnot (Finset.mem_filter.mp (hle (Finset.mem_filter.mpr ⟨Finset.mem_univ i, hmem⟩))).2

theorem degree_image {β : Type} [DecidableEq β] {f : α → β}
    (hinj : ∀ i, ∀ z ∈ S i, f z = f x → z = x) :
    degree (fun i ↦ (S i).image f) (f x) = degree S x := by
  refine congrArg Finset.card (Finset.filter_congr fun i _ ↦ ?_)
  rw [Finset.mem_image]
  constructor
  · rintro ⟨z, hz, heq⟩
    exact hinj i z hz heq ▸ hz
  · exact fun hx ↦ ⟨x, hx, rfl⟩

variable [DecidableEq ι]

theorem degree_insert (h : x ∉ S i) (y : α) :
    degree (update S i (insert x (S i))) y = degree S y + if y = x then 1 else 0 := by
  by_cases hy : y = x
  · subst hy
    have hset : (Finset.univ.filter fun j ↦ y ∈ update S i (insert y (S i)) j) =
        insert i (Finset.univ.filter fun j ↦ y ∈ S j) := by
      ext j
      by_cases hj : j = i
      · subst hj
        simp
      · simp [hj]
    rw [degree, hset, Finset.card_insert_of_notMem (by simpa using h), if_pos rfl, degree]
  · have hset : ∀ j, y ∈ update S i (insert x (S i)) j ↔ y ∈ S j := by
      intro j
      by_cases hj : j = i
      · subst hj
        simp [hy]
      · simp [hj]
    simp only [degree, hset, if_neg hy, Nat.add_zero]

theorem degree_erase (h : x ∈ S i) (y : α) :
    degree S y = degree (update S i ((S i).erase x)) y + if y = x then 1 else 0 := by
  have hself : update (update S i ((S i).erase x)) i
      (insert x (update S i ((S i).erase x) i)) = S := by
    rw [update_self, Finset.insert_erase h, update_idem, update_eq_self]
  have hinsert := @degree_insert _ _ _ _ (update S i ((S i).erase x)) i x _ (by simp) y
  rwa [hself] at hinsert

omit [DecidableEq ι] in
theorem degree_erase_all (S : ι → Finset α) (x y : α) :
    degree (fun i ↦ (S i).erase x) y = if y = x then 0 else degree S y := by
  split
  · next hy =>
    subst hy
    exact degree_eq_zero_iff.mpr fun i ↦ Finset.notMem_erase y _
  · next hy => simp [degree, hy]

end Degree

section Places

variable {ι α : Type} [Fintype ι] [DecidableEq α] {L : ι → List α} {x : α}

/-- The number of places that have an element. -/
def places (L : ι → List α) (x : α) : ℕ := ∑ i, (L i).count x

theorem places_eq_zero_iff : places L x = 0 ↔ ∀ i, x ∉ L i := by
  simp [places, List.count_eq_zero]

theorem places_update [DecidableEq ι] (L : ι → List α) (i : ι) (l : List α) (x : α) :
    places (update L i l) x + (L i).count x = places L x + l.count x := by
  have hsum : ∀ l' : List α, places (update L i l') x =
      l'.count x + ∑ j ∈ Finset.univ \ {i}, (L j).count x := by
    intro l'
    have hcomp : (fun j ↦ (update L i l' j).count x) =
        update (fun j ↦ (L j).count x) i (l'.count x) := by
      funext j
      by_cases hj : j = i
      · subst hj
        simp
      · simp [hj]
    rw [places, hcomp, Finset.sum_update_of_mem (Finset.mem_univ i)]
  have hself := hsum (L i)
  rw [update_eq_self] at hself
  rw [hsum, hself]
  omega

end Places

/-! ## Positions -/

section Positions

variable {α : Type} {l : List α} {pos : α → Option ℕ} {a b : α} {i j : ℕ}

/-- The table says where the list has its elements. -/
def Agree (l : List α) (pos : α → Option ℕ) : Prop := ∀ n a, l[n]? = some a ↔ pos a = some n

theorem Agree.nodup (h : Agree l pos) : l.Nodup := by
  rw [List.nodup_iff_getElem?_ne_getElem?]
  intro i j hij hj heq
  obtain ⟨a, ha⟩ : ∃ a, l[j]? = some a := ⟨_, List.getElem?_eq_getElem hj⟩
  have hi := (h i a).mp (heq.trans ha)
  rw [(h j a).mp ha] at hi
  exact hij.ne' (Option.some.inj hi)

variable [DecidableEq α]

theorem Agree.push (h : Agree l pos) (ha : pos a = none) :
    Agree (l ++ [a]) (update pos a (some l.length)) := by
  intro n b
  by_cases hb : b = a
  · subst hb
    rw [update_self, Option.some_inj, List.getElem?_append]
    constructor
    · intro hget
      split at hget
      · rw [h, ha] at hget
        cases hget
      · rw [List.getElem?_eq_some_iff] at hget
        obtain ⟨hlt, -⟩ := hget
        rw [List.length_singleton] at hlt
        omega
    · rintro rfl
      simp
  · rw [update_of_ne hb, ← h, List.getElem?_append]
    split
    · rfl
    · next hn =>
      rw [List.getElem?_eq_none (Nat.le_of_not_lt hn)]
      rw [List.getElem?_singleton]
      constructor
      · intro hget
        split at hget
        · exact absurd (Option.some.inj hget).symm hb
        · cases hget
      · exact fun hget ↦ absurd hget (by simp)

theorem Agree.swap (h : Agree l pos) (hi : l[i]? = some a) (hj : l[j]? = some b) (hij : i ≠ j) :
    Agree ((l.set i b).set j a) (update (update pos a (some j)) b (some i)) := by
  have hne : a ≠ b := by
    rintro rfl
    exact hij (Option.some.inj (((h i a).mp hi).symm.trans ((h j a).mp hj)))
  obtain ⟨hli, -⟩ := List.getElem?_eq_some_iff.mp hi
  obtain ⟨hlj, -⟩ := List.getElem?_eq_some_iff.mp hj
  intro n c
  rw [List.getElem?_set, List.getElem?_set, List.length_set, update_apply, update_apply]
  by_cases hnj : j = n
  · subst hnj
    rw [if_pos rfl, if_pos hlj, Option.some_inj]
    split
    · next hc => simp [hc, hne, hij]
    · next hcb =>
      split
      · next hca => simp [hca]
      · next hca =>
        rw [← h, hj, Option.some_inj]
        exact ⟨fun hac ↦ absurd hac.symm hca, fun hbc ↦ absurd hbc.symm hcb⟩
  · rw [if_neg hnj]
    by_cases hni : i = n
    · subst hni
      rw [if_pos rfl, if_pos hli, Option.some_inj]
      split
      · next hc => simp [hc]
      · next hcb =>
        split
        · next hca => simp [hca, hne.symm, hnj]
        · next hca =>
          rw [← h, hi, Option.some_inj]
          exact ⟨fun hbc ↦ absurd hbc.symm hcb, fun hac ↦ absurd hac.symm hca⟩
    · rw [if_neg hni, h]
      split
      · next hc =>
        rw [hc, (h j b).mp hj]
        simp [hni, hnj]
      · split
        · next hca =>
          rw [hca, (h i a).mp hi]
          simp [hni, hnj]
        · exact Iff.rfl

theorem Agree.pop (h : Agree l pos) (ha : l[l.length - 1]? = some a) :
    Agree l.dropLast (update pos a none) := by
  intro n c
  rw [List.getElem?_dropLast, update_apply]
  by_cases hc : c = a
  · subst hc
    rw [if_pos rfl]
    constructor
    · intro hget
      split at hget
      · next hn =>
        have hpos := ((h n c).mp hget).symm.trans ((h _ c).mp ha)
        exact absurd (Option.some.inj hpos) hn.ne
      · cases hget
    · exact fun hget ↦ absurd hget (by simp)
  · rw [if_neg hc, ← h]
    split
    · exact Iff.rfl
    · next hn =>
      refine ⟨fun hget ↦ absurd hget (by simp), fun hget ↦ ?_⟩
      obtain ⟨hlt, -⟩ := List.getElem?_eq_some_iff.mp hget
      obtain rfl : n = l.length - 1 := by omega
      exact absurd (Option.some.inj (hget.symm.trans ha)) hc

end Positions

end Buckets
