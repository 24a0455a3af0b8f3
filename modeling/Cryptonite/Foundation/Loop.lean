import Mathlib.Data.Set.Lattice
import Mathlib.Tactic

/-!
# Loops that end without progress

A loop of the form `while (progress)` takes steps until one finds nothing to do. Here a step is a
partial function, and `whileSome` takes at most a given number of them. With an invariant and a
variant that a step makes smaller, the loop ends in a state that has no step (`whileSome_spec`), and
a larger number makes no difference (`whileSome_stable`).

A loop that tries again until it succeeds has no variant. It works off a list of tasks, and stays
with one for as long as it fails (`retry`); it ends if and only if each task succeeds at some time
after the one before it (`retry_isSome_iff`).

The last part is a loop on lists. It looks for two related elements, puts their join in the place of
the first and drops the second, and starts again from the front. What is left has no two related
elements, and covers what the list covered if a join covers what its parts do (`coalesce_spec`).
-/

namespace Loop

section While

variable {σ : Type*} {step : σ → Option σ}

/-- Take steps as long as there are any, but at most `n`. -/
def whileSome (step : σ → Option σ) : ℕ → σ → σ
  | 0, s => s
  | n + 1, s =>
    match step s with
    | none => s
    | some s' => whileSome step n s'

theorem whileSome_of_none {s : σ} (h : step s = none) (n : ℕ) : whileSome step n s = s := by
  cases n with
  | zero => rfl
  | succ n => rw [whileSome, h]

/-- **Invariant and variant.** A loop whose steps keep an invariant and make a variant smaller ends
with the invariant, in a state without a step. -/
theorem whileSome_spec {P : σ → Prop} {variant : σ → ℕ}
    (hstep : ∀ s s', P s → step s = some s' → P s' ∧ variant s' < variant s) :
    ∀ {n : ℕ} {s : σ}, P s → variant s ≤ n →
      P (whileSome step n s) ∧ step (whileSome step n s) = none := by
  intro n
  induction n with
  | zero =>
    intro s hP hvariant
    refine ⟨hP, Option.eq_none_iff_forall_ne_some.mpr fun s' hs' ↦ ?_⟩
    have hless := (hstep s s' hP hs').2
    omega
  | succ n ih =>
    intro s hP hvariant
    rcases hs : step s with _ | s'
    · rw [whileSome_of_none hs]
      exact ⟨hP, hs⟩
    · obtain ⟨hP', hless⟩ := hstep s s' hP hs
      rw [whileSome, hs]
      exact ih hP' (by omega)

theorem whileSome_stable : ∀ {n m : ℕ} {s : σ}, step (whileSome step n s) = none → n ≤ m →
    whileSome step m s = whileSome step n s := by
  intro n
  induction n with
  | zero =>
    intro m s h _
    exact whileSome_of_none h m
  | succ n ih =>
    intro m s h hnm
    obtain ⟨m, rfl⟩ := Nat.exists_eq_add_of_le' hnm
    rcases hs : step s with _ | s'
    · rw [whileSome_of_none hs, whileSome_of_none hs]
    · rw [whileSome, hs] at h
      rw [← Nat.add_assoc, whileSome, hs, whileSome, hs]
      exact ih h (Nat.le_add_left n m)

end While

/-! ## Trying again -/

section Retry

variable {α : Type*} {succeeds : ℕ → α → Bool} {t : ℕ}

/-- Work off a list of tasks, one attempt at each time from `t` on, but at most `n` attempts: the
time when all are done. -/
def retry (succeeds : ℕ → α → Bool) : ℕ → ℕ → List α → Option ℕ
  | _, t, [] => some t
  | 0, _, _ :: _ => none
  | n + 1, t, a :: as =>
    if succeeds t a then retry succeeds n (t + 1) as else retry succeeds n (t + 1) (a :: as)

@[simp] theorem retry_nil (succeeds : ℕ → α → Bool) (n t : ℕ) : retry succeeds n t [] = some t := by
  rw [retry]

/-- The tasks succeed one after the other, from the time `t` on. -/
def InTurn (succeeds : ℕ → α → Bool) : ℕ → List α → Prop
  | _, [] => True
  | t, a :: as => ∃ t', t ≤ t' ∧ succeeds t' a = true ∧ InTurn succeeds (t' + 1) as

theorem InTurn.mono {t' : ℕ} (htt' : t ≤ t') : ∀ {as : List α}, InTurn succeeds t' as →
    InTurn succeeds t as
  | [], _ => trivial
  | _ :: _, ⟨u, hu, hsucceeds, hrest⟩ => ⟨u, htt'.trans hu, hsucceeds, hrest⟩

theorem inTurn_const {p : α → Bool} {as : List α} :
    InTurn (fun _ ↦ p) t as ↔ ∀ a ∈ as, p a = true := by
  induction as generalizing t with
  | nil => simp [InTurn]
  | cons a as ih =>
    rw [List.forall_mem_cons, InTurn]
    constructor
    · rintro ⟨t', -, ha, has⟩
      exact ⟨ha, ih.mp has⟩
    · rintro ⟨ha, has⟩
      exact ⟨t, le_rfl, ha, ih.mpr has⟩

/-- A task that never succeeds gets no turn. -/
theorem not_inTurn {a : α} (ha : ∀ t, succeeds t a = false) : ∀ {as : List α} {t : ℕ}, a ∈ as →
    ¬InTurn succeeds t as
  | b :: as, _, hmem, ⟨t', _, hb, hrest⟩ => by
    rcases List.mem_cons.mp hmem with rfl | hmem
    · simp [ha t'] at hb
    · exact not_inTurn ha hmem hrest

theorem inTurn_of_retry {n : ℕ} : ∀ {t : ℕ} {as : List α}, (retry succeeds n t as).isSome →
    InTurn succeeds t as := by
  induction n with
  | zero =>
    intro t as h
    rcases as with _ | ⟨a, as⟩
    · trivial
    · simp [retry] at h
  | succ n ih =>
    intro t as h
    rcases as with _ | ⟨a, as⟩
    · trivial
    · rw [retry] at h
      split at h
      · next hsucceeds => exact ⟨t, le_rfl, hsucceeds, ih h⟩
      · exact (ih h).mono (Nat.le_succ t)

theorem exists_retry : ∀ {as : List α} {t : ℕ}, InTurn succeeds t as →
    ∃ n, (retry succeeds n t as).isSome
  | [], _, _ => ⟨0, rfl⟩
  | a :: as, t, ⟨t', htt', hsucceeds, hrest⟩ => by
    -- the attempts before that one may fail or succeed
    obtain ⟨d, rfl⟩ := Nat.exists_eq_add_of_le htt'
    induction d generalizing t with
    | zero =>
      rw [Nat.add_zero] at hsucceeds hrest
      obtain ⟨n, hn⟩ := exists_retry hrest
      exact ⟨n + 1, by rwa [retry, if_pos hsucceeds]⟩
    | succ d ih =>
      rcases hnow : succeeds t a with _ | _
      · have hlater : t + (d + 1) = t + 1 + d := by omega
        rw [hlater] at hsucceeds hrest
        obtain ⟨n, hn⟩ := ih (t + 1) (Nat.le_add_right _ _) hsucceeds hrest
        exact ⟨n + 1, by rwa [retry, if_neg (by simp [hnow])]⟩
      · obtain ⟨n, hn⟩ := exists_retry (hrest.mono (by omega : t + 1 ≤ t + (d + 1) + 1))
        exact ⟨n + 1, by rwa [retry, if_pos hnow]⟩

/-- **Trying again.** The loop ends if and only if the tasks succeed in turn. -/
theorem retry_isSome_iff {as : List α} :
    (∃ n, (retry succeeds n t as).isSome) ↔ InTurn succeeds t as :=
  ⟨fun ⟨_, h⟩ ↦ inTurn_of_retry h, exists_retry⟩

end Retry

/-! ## Joining related elements -/

section Coalesce

variable {α : Type*} (rel : α → α → Bool) (join : α → α → α)

/-- Join an element with the first of a list that it is related to. -/
def absorb (x : α) : List α → Option (α × List α)
  | [] => none
  | y :: l => if rel x y then some (join x y, l) else (absorb x l).map fun r ↦ (r.1, y :: r.2)

/-- Join the first element that is related to a later one. -/
def mergeOnce : List α → Option (List α)
  | [] => none
  | x :: l =>
    match absorb rel join x l with
    | some r => some (r.1 :: r.2)
    | none => (mergeOnce l).map (x :: ·)

/-- Join related elements until there are none. -/
def coalesce (l : List α) : List α := whileSome (mergeOnce rel join) l.length l

variable {rel join}

theorem exists_of_absorb {x : α} : ∀ {l : List α} {r : α × List α},
    absorb rel join x l = some r →
      ∃ a y b, l = a ++ y :: b ∧ rel x y = true ∧ r = (join x y, a ++ b) := by
  intro l
  induction l with
  | nil => exact fun h ↦ absurd h (by simp [absorb])
  | cons y l ih =>
    intro r h
    rw [absorb] at h
    split at h
    · next hrel => exact ⟨[], y, l, rfl, hrel, (Option.some.inj h).symm⟩
    · obtain ⟨r', hr', rfl⟩ := Option.map_eq_some_iff.mp h
      obtain ⟨a, z, b, rfl, hrel, rfl⟩ := ih hr'
      exact ⟨y :: a, z, b, rfl, hrel, rfl⟩

theorem absorb_eq_none_iff {x : α} {l : List α} :
    absorb rel join x l = none ↔ ∀ y ∈ l, rel x y = false := by
  induction l with
  | nil => simp [absorb]
  | cons y l ih =>
    rw [absorb]
    cases hrel : rel x y with
    | true => simp [hrel]
    | false => simp [hrel, ih]

theorem exists_of_mergeOnce : ∀ {l l' : List α}, mergeOnce rel join l = some l' →
    ∃ a x b y c, l = a ++ x :: (b ++ y :: c) ∧ rel x y = true ∧
      l' = a ++ join x y :: (b ++ c) := by
  intro l
  induction l with
  | nil => exact fun h ↦ absurd h (by simp [mergeOnce])
  | cons x l ih =>
    intro l' h
    rw [mergeOnce] at h
    split at h
    · next r hr =>
      obtain ⟨b, y, c, rfl, hrel, rfl⟩ := exists_of_absorb hr
      exact ⟨[], x, b, y, c, rfl, hrel, (Option.some.inj h).symm⟩
    · obtain ⟨l₁, hl₁, rfl⟩ := Option.map_eq_some_iff.mp h
      obtain ⟨a, x', b, y, c, rfl, hrel, rfl⟩ := ih hl₁
      exact ⟨x :: a, x', b, y, c, rfl, hrel, rfl⟩

theorem mergeOnce_eq_none_iff {l : List α} :
    mergeOnce rel join l = none ↔ l.Pairwise fun x y ↦ rel x y = false := by
  induction l with
  | nil => simp [mergeOnce]
  | cons x l ih =>
    rw [mergeOnce, List.pairwise_cons, ← ih, ← absorb_eq_none_iff]
    rcases absorb rel join x l with _ | r
    · simp
    · simp

/-- **Coalescing.** If the join of related elements covers what they cover, the loop ends, no two of
the elements it leaves are related, and together they cover what the list did. -/
theorem coalesce_spec {κ : Type*} {keys : α → Set κ} {P : α → Prop}
    (hjoin : ∀ x y, P x → P y → rel x y = true →
      P (join x y) ∧ keys (join x y) = keys x ∪ keys y) {l : List α} (hl : ∀ x ∈ l, P x) :
    ((∀ x ∈ coalesce rel join l, P x) ∧ ∀ k, (∃ x ∈ coalesce rel join l, k ∈ keys x) ↔
      ∃ x ∈ l, k ∈ keys x) ∧ mergeOnce rel join (coalesce rel join l) = none := by
  refine @whileSome_spec _ _
    (fun l' ↦ (∀ x ∈ l', P x) ∧ ∀ k, (∃ x ∈ l', k ∈ keys x) ↔ ∃ x ∈ l, k ∈ keys x) List.length
    (fun l₁ l₂ hinv h ↦ ?_) l.length l ⟨hl, fun _ ↦ Iff.rfl⟩ le_rfl
  obtain ⟨a, x, b, y, c, rfl, hrel, rfl⟩ := exists_of_mergeOnce h
  obtain ⟨hP, hkeys⟩ := hinv
  obtain ⟨hPjoin, hunion⟩ := hjoin x y (hP x (by simp)) (hP y (by simp)) hrel
  refine ⟨⟨fun z hz ↦ ?_, fun k ↦ ?_⟩, by simp⟩
  · simp only [List.mem_append, List.mem_cons] at hz
    rcases hz with hz | rfl | hz | hz
    · exact hP z (by simp [hz])
    · exact hPjoin
    · exact hP z (by simp [hz])
    · exact hP z (by simp [hz])
  · rw [← hkeys k]
    simp only [List.mem_append, List.mem_cons, or_and_right, exists_or, exists_eq_left, hunion,
      Set.mem_union, or_assoc, or_left_comm]

end Coalesce

end Loop
