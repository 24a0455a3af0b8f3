import Cryptonite.Sync.RollForward

/-!
# Rounds of winding

`Build` winds the map forward from one slice to the next, in as many rounds as there are blocks in
between, but it reads the same block in every round. For one account that does no harm if the blocks
all do the same with it, and nothing but its age depends on the height (`Act.iterate_wind`).

A payment makes an entry also for an account that no slice has shown yet. Such a stray stands for
the account: it has no more coins, and it goes when the account goes (`Astray.wind`).
-/

namespace Cryptonite

open AccountData

/-! ## The same acts again and again -/

/-- No limit is waiting to come into force. -/
def Calm (o : Option AccountData) : Prop := ∀ a, o = some a → a.limit = a.futureLimit

/-- The acts do the same at every height, but for the age: there are payments only, or no limit is
waiting or set. -/
def Steady (o : Option AccountData) (acts : List Act) : Prop :=
  Act.limits acts = [] ∨ (∀ x ∈ Act.limits acts, x = none) ∧ Calm o

/-- The same but for the age, and calm. -/
inductive Alike : Option AccountData → Option AccountData → Prop
  | none : Alike none none
  | some {a : AccountData} (age : UInt64) : a.limit = a.futureLimit →
      Alike (some a) (some { a with age })

theorem Calm.alike {o : Option AccountData} (h : Calm o) : Alike o o := by
  rcases o with _ | a
  · exact .none
  · exact .some a.age (h a rfl)

namespace Act

variable {acts : List Act} {o c : Option AccountData} {m : ℕ} {height : ℕ → UInt64}
  {state : ℕ → Option AccountData}

theorem mem_limits {x : Option UInt64} {nValue : UInt64} : ∀ {acts : List Act},
    .take x nValue ∈ acts → x ∈ limits acts := by
  intro acts h
  induction acts with
  | nil => cases h
  | cons act acts ih =>
    rcases List.mem_cons.mp h with rfl | hrest
    · exact List.mem_cons_self
    · rcases act with _ | _
      · exact ih hrest
      · exact List.mem_cons_of_mem _ (ih hrest)

/-- Entries that are alike stay so, at any heights, if no limit is set. -/
theorem wind_alike (h : Alike o c) (hnone : ∀ x ∈ limits acts, x = none)
    (nHeight nHeight' : UInt64) : Alike (wind nHeight acts o) (wind nHeight' acts c) := by
  refine List.foldl_rel (List.foldl_rel h fun act _ o c h ↦ ?_) fun act hact o c h ↦ ?_
  · rcases act with nValue | ⟨x, nValue⟩
    · rcases h with _ | ⟨age, hcalm⟩
      · exact Calm.alike fun a ha ↦ Option.some.inj ha ▸ rfl
      · exact .some age hcalm
    · exact h
  · rcases act with nValue | ⟨x, nValue⟩
    · exact h
    · obtain rfl := hnone x (mem_limits hact)
      rcases h with _ | @⟨a, age, hcalm⟩
      · exact .none
      have hlimit (b : AccountData) (hb : b.limit = b.futureLimit) (nHeight : UInt64) :
          b.debited nHeight none nValue
            = { b with age := nHeight, balance := b.balance - nValue } := by
        rw [debited, Option.getD_none, hb, Std.min_self, ite_self]
      rw [debit, debit, Option.bind_some, Option.bind_some, hlimit a hcalm,
        hlimit { a with age } hcalm]
      split
      · exact .none
      · exact .some nHeight' hcalm

theorem age_wind {a : AccountData} {nHeight : UInt64} (hne : limits acts ≠ [])
    (h : wind nHeight acts o = some a) : a.age = nHeight := by
  obtain ⟨x, xs, hlimits⟩ := List.exists_cons_of_ne_nil hne
  rw [wind] at h
  generalize acts.foldl credit o = entry at h
  rcases entry with _ | ad
  · simp at h
  by_cases hlt : taken acts < ad.balance.toNat
  · obtain ⟨b, -, hfold⟩ := @foldl_debit_of_lt nHeight ad x xs acts hlimits hlt
    rw [hfold] at h
    exact Option.some.inj h ▸ rfl
  · rw [foldl_debit_of_le hne (not_lt.mp hlt)] at h
    cases h

/-- **Rounds.** Steady acts that lead from state to state at their heights lead to the same state if
all are made at the height of the last. -/
theorem iterate_wind (hstep : ∀ t < m, wind (height t) acts (state t) = state (t + 1))
    (hm : m = 1 ∨ Steady (state 0) acts) :
    (wind (height (m - 1)) acts)^[m] (state 0) = state m := by
  rcases hm with rfl | hsteady
  · exact hstep 0 Nat.one_pos
  by_cases hne : limits acts = []
  · -- without a withdrawal the height is not looked at
    have hsame (nHeight : UInt64) : wind nHeight acts = acts.foldl credit :=
      funext fun o ↦ foldl_debit_of_limits_nil hne _
    rw [hsame]
    have hrounds : ∀ t ≤ m, (acts.foldl credit)^[t] (state 0) = state t := by
      intro t ht
      induction t with
      | zero => rfl
      | succ t ih =>
        rw [Function.iterate_succ_apply', ih (Nat.le_of_succ_le ht), ← hstep t ht, hsame]
    exact hrounds m le_rfl
  obtain ⟨hnone, hcalm⟩ := hsteady.resolve_left hne
  have hrounds : ∀ t ≤ m, Alike ((wind (height (m - 1)) acts)^[t] (state 0)) (state t) := by
    intro t ht
    induction t with
    | zero => exact hcalm.alike
    | succ t ih =>
      rw [Function.iterate_succ_apply', ← hstep t ht]
      exact wind_alike (ih (Nat.le_of_succ_le ht)) hnone _ _
  -- the last round is made at the right height
  rcases m with _ | m
  · rfl
  have hlast := hrounds (m + 1) le_rfl
  rw [Nat.add_sub_cancel] at hlast ⊢
  generalize hc : (wind (height m) acts)^[m + 1] (state 0) = c at hlast
  generalize ho : state (m + 1) = o at hlast
  rw [Function.iterate_succ_apply'] at hc
  rw [← hstep m m.lt_succ_self] at ho
  rcases hlast with _ | @⟨a, age, -⟩
  · rfl
  · rw [show age = a.age from (age_wind hne ho).trans (age_wind hne hc).symm]

end Act

/-! ## Strays -/

/-- An entry that stands for an account which has not been shown yet. -/
def Astray (o c : Option AccountData) : Prop :=
  ∀ ad, c = some ad → ∃ a, o = some a ∧ ad.balance ≤ a.balance

/-- An entry that stands for an account which is `o` before the acts, and has been given all they
pay. -/
def Stands (o : Option AccountData) (acts : List Act) (c : Option AccountData) : Prop :=
  ∀ ad, c = some ad → ad.balance.toNat ≤ (balanceOf o).toNat + Act.paid acts ∧
    (o = none → ∃ nValue, .pay nValue ∈ acts)

section Stray

variable {nHeight : UInt64} {acts : List Act} {o o' c : Option AccountData} {ad : AccountData}

theorem Act.exists_pay : ∀ {acts : List Act}, 0 < paid acts → ∃ nValue, .pay nValue ∈ acts := by
  intro acts
  induction acts with
  | nil => exact fun h ↦ absurd h (Nat.lt_irrefl 0)
  | cons act acts ih =>
    intro h
    rcases act with nValue | ⟨x, nValue⟩
    · exact ⟨nValue, List.mem_cons_self⟩
    · obtain ⟨nValue, hmem⟩ := ih h
      exact ⟨nValue, List.mem_cons_of_mem _ hmem⟩

theorem Act.balance_foldl_credit : ∀ {acts : List Act} {c : Option AccountData},
    acts.foldl credit c = some ad → ad.balance.toNat ≤ (balanceOf c).toNat + paid acts ∧
      (c = none → ∃ nValue, .pay nValue ∈ acts) := by
  intro acts
  induction acts with
  | nil =>
    rintro _ rfl
    exact ⟨Nat.le_add_right _ _, fun h ↦ absurd h (by simp)⟩
  | cons act acts ih =>
    intro c h
    obtain ⟨hle, hpays⟩ := ih h
    rcases act with nValue | ⟨x, nValue⟩
    · have hone : balanceOf (credit c (.pay nValue)) = balanceOf c + nValue := by
        rcases c with _ | a <;> rfl
      rw [hone, UInt64.toNat_add] at hle
      have hmod := Nat.mod_le ((balanceOf c).toNat + nValue.toNat) (2 ^ 64)
      rw [paid]
      exact ⟨by omega, fun _ ↦ ⟨nValue, List.mem_cons_self⟩⟩
    · refine ⟨hle, fun hc ↦ ?_⟩
      obtain ⟨nValue, hmem⟩ := hpays hc
      exact ⟨nValue, List.mem_cons_of_mem _ hmem⟩

theorem Astray.stands (h : Astray o c) : Stands o acts (acts.foldl Act.credit c) := by
  intro ad had
  obtain ⟨hle, hpays⟩ := Act.balance_foldl_credit had
  rcases c with _ | ad'
  · exact ⟨hle.trans (Nat.add_le_add_right (Nat.zero_le _) _), fun _ ↦ hpays rfl⟩
  · obtain ⟨a, rfl, hbalance⟩ := h ad' rfl
    exact ⟨hle.trans (Nat.add_le_add_right (UInt64.le_iff_toNat_le.mp hbalance) _),
      fun h ↦ absurd h (by simp)⟩

/-- Along the second loop an entry stands for its account. -/
theorem Course.stands (h : Course nHeight o acts o') :
    ∀ {c : Option AccountData}, (balanceOf o).toNat + Act.paid acts < 2 ^ 64 → Stands o acts c →
      Stands o' [] (acts.foldl (Act.debit nHeight) c) := by
  induction h with
  | nil => exact fun _ hc ↦ hc
  | @pay o o' nValue acts _ ih =>
    intro c hfits hc
    rw [Act.paid] at hfits
    have hbalance : (balanceOf (some (afterDeposit nHeight nValue o))).toNat
        = (balanceOf o).toNat + nValue.toNat := by
      rw [balanceOf_afterDeposit, UInt64.toNat_add, Nat.mod_eq_of_lt (by omega)]
    refine ih (by omega) fun ad had ↦ ⟨?_, fun h ↦ absurd h (by simp)⟩
    have hle := (hc ad had).1
    rw [Act.paid] at hle
    omega
  | @take a o' newLimit nValue acts hle _ ih =>
    intro c hfits hc
    have hbalance : (balanceOf (a.withdrawn nHeight newLimit nValue).keep).toNat
        = a.balance.toNat - nValue.toNat := by
      rw [balanceOf_keep]
      exact UInt64.toNat_sub_of_le _ _ hle
    rw [Act.paid, balanceOf] at hfits
    refine ih (by omega) fun ad' had' ↦ ?_
    obtain ⟨ad, rfl, hdebit⟩ := Option.bind_eq_some_iff.mp had'
    split at hdebit
    · cases hdebit
    · next hlt =>
      -- the entry is not emptied, so something is left of the account or still to be paid to it
      obtain rfl := Option.some.inj hdebit
      have hbound := (hc ad rfl).1
      rw [Act.paid, balanceOf] at hbound
      rw [ge_iff_le, UInt64.not_le] at hlt
      have hrest : (ad.debited nHeight newLimit nValue).balance.toNat
          = ad.balance.toNat - nValue.toNat :=
        UInt64.toNat_sub_of_le _ _ (UInt64.le_of_lt hlt)
      rw [UInt64.lt_iff_toNat_lt] at hlt
      rw [UInt64.le_iff_toNat_le] at hle
      refine ⟨by omega, fun hnone ↦ Act.exists_pay ?_⟩
      rw [hnone, balanceOf, UInt64.toNat_zero] at hbalance
      omega

/-- **A stray goes with its account.** -/
theorem Astray.wind (h : Astray o c) (hcourse : Course nHeight o acts o')
    (hfits : (balanceOf o).toNat + Act.paid acts < 2 ^ 64) :
    Astray o' (Act.wind nHeight acts c) := by
  intro ad had
  obtain ⟨hle, hpays⟩ := hcourse.stands hfits h.stands ad had
  rcases o' with _ | a
  · obtain ⟨nValue, hmem⟩ := hpays rfl
    exact absurd hmem List.not_mem_nil
  · exact ⟨a, rfl, UInt64.le_iff_toNat_le.mpr hle⟩

end Stray

end Cryptonite
