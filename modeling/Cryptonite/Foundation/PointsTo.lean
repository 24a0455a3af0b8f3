import Mathlib.Data.Multiset.UnionInter

/-!
# What a memory is known to hold

A proof about a program with pointers speaks of the part of the memory it knows: a collection of
addresses, no two of them equal, each with what is stored there (`Owns`). A program that only
touches one part leaves the others as they were, so a statement about a part holds next to every
other part: the rest of the collection is a variable in the rules, and `+` puts collections next to
each other in any order. An address with nothing stored at it can be owned as well, so allocating
and freeing are writes.

Programs that may fail are values of `Except`; `Returns` is their total correctness, and its rules
follow the text of a program from one command to the next.
-/

namespace PointsTo

/-! ## Programs that return -/

section Returns

variable {ε α β : Type} {x : Except ε α} {f : α → Except ε β} {a : α} {Q R : α → Prop}
  {T : β → Prop}

theorem ok_bind (hx : x = .ok a) : (x >>= f) = f a := by
  rw [hx]
  rfl

theorem error_bind {e : ε} (hx : x = .error e) : (x >>= f) = .error e := by
  rw [hx]
  rfl

/-- The program does not fail, and its result satisfies `Q`. -/
def Returns (x : Except ε α) (Q : α → Prop) : Prop := ∃ a, x = .ok a ∧ Q a

namespace Returns

theorem pure (h : Q a) : Returns (Pure.pure a : Except ε α) Q := ⟨a, rfl, h⟩

theorem bind (hx : Returns x Q) (hf : ∀ a, Q a → Returns (f a) T) : Returns (x >>= f) T := by
  obtain ⟨a, rfl, ha⟩ := hx
  exact hf a ha

theorem known (hx : x = .ok a) (hf : Returns (f a) T) : Returns (x >>= f) T := by
  rwa [ok_bind hx]

theorem ite_pos {p : Prop} [Decidable p] {y : Except ε α} (hp : p) (hx : Returns x Q) :
    Returns (if p then x else y) Q := by rwa [if_pos hp]

theorem ite_neg {p : Prop} [Decidable p] {y : Except ε α} (hp : ¬p) (hx : Returns x Q) :
    Returns (if p then y else x) Q := by rwa [if_neg hp]

theorem mono (hx : Returns x Q) (h : ∀ a, Q a → R a) : Returns x R := by
  obtain ⟨a, rfl, ha⟩ := hx
  exact ⟨a, rfl, h a ha⟩

theorem of_eq (hx : Returns x Q) (h : x = .ok a) : Q a := by
  obtain ⟨b, rfl, hb⟩ := hx
  cases h
  exact hb

end Returns

end Returns

/-! ## Owned addresses -/

variable {P C : Type*} {m : P → C} {p : P} {c : C} {S T : Multiset (P × C)}

/-- The memory holds what `S` says at the addresses of `S`, which are all different. -/
structure Owns (m : P → C) (S : Multiset (P × C)) : Prop where
  nodup : (S.map Prod.fst).Nodup
  holds : ∀ x ∈ S, m x.1 = x.2

namespace Owns

theorem read (h : Owns m ({(p, c)} + S)) : m p = c := h.holds (p, c) (by simp)

theorem right (h : Owns m (S + T)) : Owns m T where
  nodup := by
    have hnodup := h.nodup
    rw [Multiset.map_add] at hnodup
    exact (Multiset.nodup_add.mp hnodup).2.1
  holds := fun x hx ↦ h.holds x (Multiset.mem_add.mpr (.inr hx))

theorem ne (h : Owns m ({(p, c)} + S)) : ∀ x ∈ S, x.1 ≠ p := by
  rintro x hx rfl
  have hnodup := h.nodup
  rw [Multiset.map_add, Multiset.map_singleton, Multiset.singleton_add,
    Multiset.nodup_cons] at hnodup
  exact hnodup.1 (Multiset.mem_map.mpr ⟨x, hx, rfl⟩)

theorem cons (h : Owns m S) (hp : ∀ x ∈ S, x.1 ≠ p) : Owns m ({(p, m p)} + S) where
  nodup := by
    rw [Multiset.map_add, Multiset.map_singleton, Multiset.singleton_add, Multiset.nodup_cons]
    refine ⟨fun hmem ↦ ?_, h.nodup⟩
    obtain ⟨x, hx, heq⟩ := Multiset.mem_map.mp hmem
    exact hp x hx heq
  holds := by
    intro x hx
    rcases Multiset.mem_add.mp hx with hx | hx
    · rw [Multiset.mem_singleton.mp hx]
    · exact h.holds x hx

theorem write [DecidableEq P] (h : Owns m ({(p, c)} + S)) (c' : C) :
    Owns (Function.update m p c') ({(p, c')} + S) where
  nodup := by
    have hnodup := h.nodup
    rw [Multiset.map_add, Multiset.map_singleton] at hnodup ⊢
    exact hnodup
  holds := by
    intro x hx
    rcases Multiset.mem_add.mp hx with hx | hx
    · obtain rfl := Multiset.mem_singleton.mp hx
      exact Function.update_self _ _ _
    · rw [Function.update_of_ne (h.ne x hx)]
      exact h.right.holds x hx

end Owns

end PointsTo
