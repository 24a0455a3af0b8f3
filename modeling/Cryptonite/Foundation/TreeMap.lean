import Mathlib.Data.BitVec
import Mathlib.Tactic

/-!
# Sums over an ordered map

An ordered map is read by going through its entries in the order of the keys. A sum over the values
does not depend on that order: all it takes to follow one is which entries there are. `total` is
such a sum. A new entry adds its value to it (`total_insert`), one that is erased takes its value
away (`total_erase`), a filter that drops zeros does not change it (`total_filter`), and if no value
occurs twice it is a sum over the set of values (`total_eq_sum`).
-/

namespace TreeMap

open Std

variable {α β : Type} {cmp : α → α → Ordering} [TransCmp cmp] [LawfulEqCmp cmp]
  {m : ExtTreeMap α β cmp} {k : α}

theorem nodup_toList (m : ExtTreeMap α β cmp) : m.toList.Nodup := by
  refine m.distinct_keys_toList.imp fun {a b} hne heq ↦ hne ?_
  rw [heq]
  exact ReflCmp.compare_self

theorem toList_insert_perm (hk : m[k]? = none) (v : β) :
    (m.insert k v).toList.Perm ((k, v) :: m.toList) := by
  have hnew : (k, v) ∉ m.toList := by
    rw [ExtTreeMap.mem_toList_iff_getElem?_eq_some, hk]
    exact (Option.some_ne_none v).symm
  refine (List.perm_ext_iff_of_nodup (nodup_toList _)
    (List.nodup_cons.mpr ⟨hnew, nodup_toList m⟩)).mpr ?_
  rintro ⟨k', v'⟩
  rw [List.mem_cons, ExtTreeMap.mem_toList_iff_getElem?_eq_some,
    ExtTreeMap.mem_toList_iff_getElem?_eq_some, ExtTreeMap.getElem?_insert]
  by_cases heq : k = k'
  · subst heq
    rw [if_pos ReflCmp.compare_self]
    simp [hk, eq_comm]
  · rw [if_neg (mt LawfulEqCmp.eq_of_compare heq)]
    simp [Ne.symm heq]

/-- The sum of a number over the values. -/
def total (f : β → ℕ) (m : ExtTreeMap α β cmp) : ℕ := (m.toList.map fun entry ↦ f entry.2).sum

omit [LawfulEqCmp cmp] in
theorem total_empty (f : β → ℕ) : total f (∅ : ExtTreeMap α β cmp) = 0 := by
  rw [total, ExtTreeMap.toList_eq_nil_iff.mpr rfl]
  rfl

theorem total_insert (f : β → ℕ) (hk : m[k]? = none) (v : β) :
    total f (m.insert k v) = f v + total f m := by
  rw [total, ((toList_insert_perm hk v).map _).sum_eq, List.map_cons, List.sum_cons, total]

theorem insert_erase_self (m : ExtTreeMap α β cmp) (k : α) (v : β) :
    (m.erase k).insert k v = m.insert k v := by
  refine ExtTreeMap.ext_getElem? fun k' ↦ ?_
  rw [ExtTreeMap.getElem?_insert, ExtTreeMap.getElem?_insert, ExtTreeMap.getElem?_erase]
  split_ifs <;> rfl

theorem total_insert_erase (f : β → ℕ) (m : ExtTreeMap α β cmp) (k : α) (v : β) :
    total f (m.insert k v) = f v + total f (m.erase k) := by
  rw [← insert_erase_self, total_insert f ExtTreeMap.getElem?_erase_self]

theorem total_erase (f : β → ℕ) (m : ExtTreeMap α β cmp) (k : α) :
    total f m = (m[k]?).elim 0 f + total f (m.erase k) := by
  rcases hk : m[k]? with _ | v
  · have hsame : m.erase k = m := by
      refine ExtTreeMap.ext_getElem? fun k' ↦ ?_
      rw [ExtTreeMap.getElem?_erase]
      split_ifs with heq
      · rw [← LawfulEqCmp.eq_of_compare heq, hk]
      · rfl
    rw [hsame, Option.elim_none, Nat.zero_add]
  · have hsame : m.insert k v = m := by
      refine ExtTreeMap.ext_getElem? fun k' ↦ ?_
      rw [ExtTreeMap.getElem?_insert]
      split_ifs with heq
      · rw [← LawfulEqCmp.eq_of_compare heq, hk]
      · rfl
    rw [Option.elim_some, ← total_insert_erase, hsame]

omit [LawfulEqCmp cmp] in
theorem total_ite (p : β → Prop) [DecidablePred p] (m : ExtTreeMap α β cmp) :
    total (fun v ↦ if p v then 1 else 0) m = (m.toList.filter fun entry ↦ p entry.2).length := by
  rw [total]
  induction m.toList with
  | nil => rfl
  | cons entry entries ih =>
    rw [List.map_cons, List.sum_cons, ih, List.filter_cons]
    by_cases hp : p entry.2
    · rw [if_pos hp, if_pos (decide_eq_true hp), List.length_cons, Nat.add_comm]
    · rw [if_neg hp, if_neg (by simpa using hp), Nat.zero_add]

omit [LawfulEqCmp cmp] in
theorem total_filter {f : β → ℕ} {p : β → Bool} (hzero : ∀ v, p v = false → f v = 0) :
    total f (m.filter fun _ v ↦ p v) = total f m := by
  rw [total, total, ExtTreeMap.toList_filter]
  induction m.toList with
  | nil => rfl
  | cons entry entries ih =>
    rcases hp : p entry.2 with _ | _
    · rw [List.filter_cons_of_neg (by simp [hp]), ih, List.map_cons, List.sum_cons, hzero _ hp,
        Nat.zero_add]
    · rw [List.filter_cons_of_pos (by simp [hp]), List.map_cons, List.sum_cons, ih, List.map_cons,
        List.sum_cons]

/-- If no value occurs twice, the sum is one over the set of values. -/
theorem total_eq_sum [DecidableEq β] (f : β → ℕ)
    (hinj : ∀ e₁ ∈ m.toList, ∀ e₂ ∈ m.toList, e₁.2 = e₂.2 → e₁ = e₂) :
    total f m = ∑ v ∈ (m.toList.map Prod.snd).toFinset, f v := by
  have hnodup : (m.toList.map Prod.snd).Nodup :=
    (nodup_toList m).map_on fun e₁ h₁ e₂ h₂ ↦ hinj e₁ h₁ e₂ h₂
  rw [List.sum_toFinset f hnodup, List.map_map, total]
  rfl

end TreeMap
