import Mathlib.Data.List.Chain
import Mathlib.Tactic

/-!
# Undo logs

A store maps keys to cells, each empty or holding a value. A *change* writes one cell; for each
change the log keeps a record of what the cell held before, and records come in three kinds,
according to whether the change filled an empty cell, emptied a full one, or overwrote a value.
Applying a record is not total: a record that restores a value expects the cell to be empty, one
that resets a value expects it to be full.

* `replay_reverse`: replaying the log backwards always takes a run of changes back.
* `replay_forward_iff`: replaying it *forwards* takes the run back exactly when every cell's history
  of values is `Restorable`. After its `i`-th record a cell holds what it held before the `i`-th
  change, so forward replay leaves what the cell held before the *last* change, and a record only
  fits if the cell was full two changes apart. A history of at most one change is always
  restorable; one of two or more rarely is.
-/

variable {ε α β : Type}

theorem Except.bind_eq_ok_iff {x : Except ε α} {f : α → Except ε β} {b : β} :
    (x >>= f) = .ok b ↔ ∃ a, x = .ok a ∧ f a = .ok b := by
  rcases x with e | a
  · constructor
    · rintro ⟨⟩
    · rintro ⟨a, ⟨⟩, -⟩
  · constructor
    · exact fun h ↦ ⟨a, rfl, h⟩
    · rintro ⟨_, ⟨⟩, h⟩
      exact h

/-- A computation that fails does so in one of its steps. -/
theorem Except.bind_eq_error_iff {x : Except ε α} {f : α → Except ε β} {e : ε} :
    (x >>= f) = .error e ↔ x = .error e ∨ ∃ a, x = .ok a ∧ f a = .error e := by
  rcases x with e' | a
  · simp [bind, Except.bind]
  · simp [bind, Except.bind]

theorem Except.bind_of_eq_ok {x : Except ε α} {a : α} (h : x = .ok a)
    (f : α → Except ε β) : (x >>= f) = f a := by
  rw [h]
  rfl

theorem Except.mapM_eq_ok_iff {f : α → Except ε β} {as : List α} {bs : List β} :
    as.mapM f = .ok bs ↔ as.map f = bs.map .ok := by
  induction as generalizing bs with
  | nil =>
    constructor
    · rintro ⟨⟩
      rfl
    · intro h
      rw [List.map_eq_nil_iff.mp h.symm]
      rfl
  | cons a as ih =>
    rw [List.mapM_cons, Except.bind_eq_ok_iff]
    simp only [Except.bind_eq_ok_iff, ih]
    constructor
    · rintro ⟨b, hb, bs', hbs', ⟨⟩⟩
      rw [List.map_cons, List.map_cons, hb, hbs']
    · intro h
      obtain ⟨b, bs', rfl, hb, hbs'⟩ := List.map_eq_cons_iff.mp h.symm
      exact ⟨b, hb.symm, bs', hbs'.symm, rfl⟩

theorem Except.exists_of_mapM {f : α → Except ε β} {as : List α} {bs : List β}
    (h : as.mapM f = .ok bs) {a : α} (ha : a ∈ as) : ∃ b ∈ bs, f a = .ok b := by
  have hmem := List.mem_map_of_mem (f := f) ha
  rw [Except.mapM_eq_ok_iff.mp h] at hmem
  obtain ⟨b, hb, heq⟩ := List.mem_map.mp hmem
  exact ⟨b, hb, heq.symm⟩

theorem Except.eq_map_of_mapM {f : α → Except ε β} {as : List α} {bs : List β}
    (h : as.mapM f = .ok bs) {g : α → β} (hg : ∀ a ∈ as, ∀ b, f a = .ok b → b = g a) :
    bs = as.map g := by
  have hf : ∀ a ∈ as, f a = .ok (g a) := by
    intro a ha
    obtain ⟨b, -, hb⟩ := Except.exists_of_mapM h ha
    rw [hb, hg a ha b hb]
  have hmap := Except.mapM_eq_ok_iff.mp h
  rw [List.map_congr_left hf, ← Function.comp_def, ← List.map_map] at hmap
  exact (List.map_injective_iff.mpr fun _ _ ↦ Except.ok.inj) hmap.symm

namespace UndoLog

open Function

variable {K V : Type} [DecidableEq K]

inductive Clash where
  /-- A value is restored into a full cell. -/
  | occupied
  /-- A value is reset in an empty cell. -/
  | missing
  deriving DecidableEq, Repr

/-- How to take back one change of a cell. -/
inductive Record (V : Type) where
  /-- The cell was filled: empty it, if it is not empty already. -/
  | erase
  /-- The cell was emptied: put the value back. -/
  | restore (old : V)
  /-- The value was overwritten: write the old one. -/
  | reset (old : V)
  deriving DecidableEq, Repr

def record : Option V → Option V → Record V
  | none, _ => .erase
  | some v, none => .restore v
  | some v, some _ => .reset v

def Record.apply : Record V → Option V → Except Clash (Option V)
  | .erase, _ => .ok none
  | .restore v, none => .ok (some v)
  | .restore _, some _ => .error .occupied
  | .reset v, some _ => .ok (some v)
  | .reset _, none => .error .missing

/-- The record of the change from `a` to `b` can be applied to a cell holding `cur`. -/
def Fits (a b cur : Option V) : Prop := a = none ∨ cur.isSome = b.isSome

theorem apply_record_eq_ok_iff {a b cur c : Option V} :
    (record a b).apply cur = .ok c ↔ c = a ∧ Fits a b cur := by
  rcases a with _ | v <;> rcases b with _ | v' <;> rcases cur with _ | u <;>
    simp [record, Record.apply, Fits, eq_comm]

/-! ## Runs and logs -/

def run (m : K → Option V) (cs : List (K × Option V)) : K → Option V :=
  cs.foldl (fun m c ↦ Function.update m c.1 c.2) m

/-- The records of a list of changes, in the order of the changes. -/
def log : (K → Option V) → List (K × Option V) → List (K × Record V)
  | _, [] => []
  | m, (k, v) :: cs => (k, record (m k) v) :: log (Function.update m k v) cs

def applyAt (m : K → Option V) (r : K × Record V) : Except Clash (K → Option V) :=
  (r.2.apply (m r.1)).map (Function.update m r.1)

def replay (m : K → Option V) (rs : List (K × Record V)) : Except Clash (K → Option V) :=
  rs.foldlM applyAt m

@[simp] theorem run_cons (m : K → Option V) (k : K) (v : Option V) (cs : List (K × Option V)) :
    run m ((k, v) :: cs) = run (update m k v) cs := rfl

@[simp] theorem run_concat (m : K → Option V) (cs : List (K × Option V)) (k : K) (v : Option V) :
    run m (cs ++ [(k, v)]) = update (run m cs) k v := by
  rw [run, List.foldl_append]
  rfl

theorem log_concat (k : K) (v : Option V) : ∀ (cs : List (K × Option V)) (m : K → Option V),
    log m (cs ++ [(k, v)]) = log m cs ++ [(k, record (run m cs k) v)] := by
  intro cs
  induction cs with
  | nil => intro m; rfl
  | cons c cs ih =>
    intro m
    rw [List.cons_append, log, log, ih]
    rfl

theorem replay_cons (m : K → Option V) (r : K × Record V) (rs : List (K × Record V)) :
    replay m (r :: rs) = applyAt m r >>= fun m' ↦ replay m' rs := List.foldlM_cons ..

theorem replay_append (m : K → Option V) (rs rs' : List (K × Record V)) :
    replay m (rs ++ rs') = replay m rs >>= fun m' ↦ replay m' rs' := List.foldlM_append ..

/-- **Backward replay.** The reversed log takes any run back. -/
theorem replay_reverse : ∀ (cs : List (K × Option V)) (m : K → Option V),
    replay (run m cs) (log m cs).reverse = .ok m := by
  intro cs
  induction cs with
  | nil => intro m; rfl
  | cons c cs ih =>
    intro m
    obtain ⟨k, v⟩ := c
    have hback : (record (m k) v).apply (update m k v k) = .ok (m k) := by
      rw [apply_record_eq_ok_iff, update_self]
      exact ⟨rfl, Or.inr rfl⟩
    rw [run_cons, log, List.reverse_cons, replay_append, ih]
    change replay (update m k v) [(k, record (m k) v)] = .ok m
    rw [replay_cons, applyAt, hback]
    change Except.ok (update (update m k v) k (m k)) = _
    rw [update_idem, update_eq_self]

/-! ## Forward replay of one cell -/

section Cell

omit [DecidableEq K]

/-- The records of a cell that held the given values one after the other. -/
def cellLog : List (Option V) → List (Record V)
  | a :: b :: t => record a b :: cellLog (b :: t)
  | _ => []

def replayCell (cur : Option V) (rs : List (Record V)) : Except Clash (Option V) :=
  rs.foldlM (fun cur r ↦ r.apply cur) cur

/-- Each record after the first is applied to what the cell held two changes before. -/
def FitsThrough : List (Option V) → Prop
  | x :: y :: z :: t => Fits y z x ∧ FitsThrough (y :: z :: t)
  | _ => True

theorem replayCell_cellLog_iff : ∀ (t : List (Option V)) (a b cur c : Option V),
    replayCell cur (cellLog (a :: b :: t)) = .ok c ↔
      Fits a b cur ∧ FitsThrough (a :: b :: t) ∧ (a :: b :: t).dropLast.getLast? = some c := by
  intro t
  induction t with
  | nil =>
    intro a b cur c
    rw [replayCell]
    simp only [cellLog, List.foldlM_cons, Except.bind_eq_ok_iff, apply_record_eq_ok_iff,
      FitsThrough, List.dropLast, List.getLast?_singleton, Option.some_inj, true_and]
    constructor
    · rintro ⟨_, ⟨rfl, hfits⟩, ⟨⟩⟩
      exact ⟨hfits, rfl⟩
    · rintro ⟨hfits, rfl⟩
      exact ⟨a, ⟨rfl, hfits⟩, rfl⟩
  | cons d t ih =>
    intro a b cur c
    rw [cellLog, replayCell, List.foldlM_cons, Except.bind_eq_ok_iff]
    have hstep : (∃ x, (record a b).apply cur = .ok x ∧
        replayCell x (cellLog (b :: d :: t)) = .ok c) ↔
        Fits a b cur ∧ replayCell a (cellLog (b :: d :: t)) = .ok c := by
      simp only [apply_record_eq_ok_iff]
      constructor
      · rintro ⟨_, ⟨rfl, hfits⟩, hrest⟩
        exact ⟨hfits, hrest⟩
      · rintro ⟨hfits, hrest⟩
        exact ⟨a, ⟨rfl, hfits⟩, hrest⟩
    refine hstep.trans ?_
    have hlast : (a :: b :: d :: t).dropLast.getLast? = (b :: d :: t).dropLast.getLast? := by
      simp only [List.dropLast_cons_cons, List.getLast?_cons_cons]
    rw [ih b d a c, FitsThrough, hlast]
    tauto

/-- A history of values in which no change leaves an empty cell empty. -/
def Proper (t : List (Option V)) : Prop := t.IsChain fun a b ↦ a ≠ none ∨ b ≠ none

/-- A history forward replay takes back: apart from the last change the cell ends where it started,
and it is full throughout or full at every other time. -/
def Restorable (t : List (Option V)) : Prop :=
  t.dropLast.getLast? = t.dropLast.head? ∧
    ((∀ x ∈ t, x.isSome) ∨ t.IsChain fun a b ↦ a.isSome ≠ b.isSome)

theorem fitsThrough_iff : ∀ (t : List (Option V)) (a b : Option V), Proper (a :: b :: t) →
    (FitsThrough (a :: b :: t) ↔ (∀ x ∈ a :: b :: t, x.isSome) ∨
      (a :: b :: t).IsChain fun a b ↦ a.isSome ≠ b.isSome) := by
  intro t
  induction t with
  | nil =>
    intro a b hproper
    rcases a with _ | a <;> rcases b with _ | b <;> simp_all [FitsThrough, Proper]
  | cons c t ih =>
    intro a b hproper
    rw [Proper, List.isChain_cons_cons] at hproper
    have hih := ih b c hproper.2
    have hab := hproper.1
    have hbc := (List.isChain_cons_cons.mp hproper.2).1
    rw [FitsThrough, hih]
    rcases a with _ | a <;> rcases b with _ | b <;> rcases c with _ | c <;>
      simp_all [Fits, List.isChain_cons_cons]

/-- A chain relates its last two elements. -/
private theorem rel_getLast {R : Option V → Option V → Prop} {c : Option V} :
    ∀ (t : List (Option V)) (a b : Option V), (a :: b :: t).IsChain R →
      (a :: b :: t).dropLast.getLast? = some c →
      R c ((a :: b :: t).getLast (List.cons_ne_nil a (b :: t))) := by
  intro t
  induction t with
  | nil =>
    intro a b hchain hlast
    obtain rfl : a = c := by simpa using hlast
    exact (List.isChain_cons_cons.mp hchain).1
  | cons d t ih =>
    intro a b hchain hlast
    rw [List.getLast_cons_cons]
    refine ih b d (List.isChain_cons_cons.mp hchain).2 ?_
    simpa only [List.dropLast_cons_cons, List.getLast?_cons_cons] using hlast

/-- **Forward replay of one cell.** -/
theorem replayCell_forward_iff {t : List (Option V)} {a : Option V} (hproper : Proper (a :: t)) :
    replayCell ((a :: t).getLast (List.cons_ne_nil a t)) (cellLog (a :: t)) = .ok a ↔
      Restorable (a :: t) := by
  rcases t with _ | ⟨b, t⟩
  · exact iff_of_true rfl ⟨rfl, Or.inr (List.isChain_singleton a)⟩
  · rw [replayCell_cellLog_iff, fitsThrough_iff t a b hproper, Restorable,
      List.dropLast_cons_cons, List.head?_cons]
    constructor
    · rintro ⟨-, hall, hlast⟩
      exact ⟨hlast, hall⟩
    · rintro ⟨hlast, hall⟩
      refine ⟨?_, hall, hlast⟩
      rcases hall with hfull | halt
      · refine Or.inr ?_
        rw [hfull _ (List.getLast_mem _), hfull b (by simp)]
      · -- the cell alternates, and is as full before the last change as at the start
        have hend := rel_getLast t a b halt hlast
        have hstart := (List.isChain_cons_cons.mp halt).1
        refine Or.inr ?_
        rw [Bool.eq_not_of_ne hend.symm, Bool.eq_not_of_ne hstart.symm]

end Cell

/-! ## Forward replay of a store -/

/-- The values a cell holds one after the other in a run. -/
def trail : (K → Option V) → List (K × Option V) → K → List (Option V)
  | m, [], k => [m k]
  | m, (k', v) :: cs, k =>
    if k' = k then m k :: trail (Function.update m k' v) cs k
    else trail (Function.update m k' v) cs k

/-- No change of the run leaves an empty cell empty. -/
def ProperRun : (K → Option V) → List (K × Option V) → Prop
  | _, [] => True
  | m, (k, v) :: cs => (m k ≠ none ∨ v ≠ none) ∧ ProperRun (Function.update m k v) cs

theorem properRun_concat (k : K) (v : Option V) :
    ∀ (cs : List (K × Option V)) (m : K → Option V),
      ProperRun m (cs ++ [(k, v)]) ↔ ProperRun m cs ∧ (run m cs k ≠ none ∨ v ≠ none) := by
  intro cs
  induction cs with
  | nil => intro m; simp [ProperRun, run]
  | cons c cs ih =>
    intro m
    rw [List.cons_append, ProperRun, ProperRun, ih, and_assoc]
    rfl

theorem ProperRun.exists_restore_mem_log : ∀ {cs : List (K × Option V)}
    {m : K → Option V}, ProperRun m cs → (k, none) ∈ cs → ∃ v, (k, .restore v) ∈ log m cs := by
  intro cs
  induction cs with
  | nil => exact fun _ hmem ↦ absurd hmem List.not_mem_nil
  | cons c cs ih =>
    rintro m ⟨hc, hcs⟩ hmem
    rcases List.mem_cons.mp hmem with rfl | hmem
    · obtain ⟨v, hv⟩ := Option.ne_none_iff_exists'.mp (hc.resolve_right (not_not.mpr rfl))
      refine ⟨v, List.mem_cons.mpr (.inl ?_)⟩
      rw [hv]
      rfl
    · obtain ⟨v, hv⟩ := ih hcs hmem
      exact ⟨v, List.mem_cons_of_mem _ hv⟩

/-- The records of a log that concern one cell. -/
def recordsAt (k : K) (rs : List (K × Record V)) : List (Record V) :=
  (rs.filter fun r ↦ r.1 = k).map Prod.snd

theorem exists_trail_eq_cons : ∀ (cs : List (K × Option V)) (m : K → Option V) (k : K),
    ∃ t, trail m cs k = m k :: t := by
  intro cs
  induction cs with
  | nil => intro m k; exact ⟨[], rfl⟩
  | cons c cs ih =>
    intro m k
    rw [trail]
    split
    · exact ⟨_, rfl⟩
    · rename_i hne
      obtain ⟨t, ht⟩ := ih (update m c.1 c.2) k
      rw [update_of_ne (Ne.symm hne)] at ht
      exact ⟨t, ht⟩

theorem trail_of_notMem : ∀ (cs : List (K × Option V)) (m : K → Option V),
    k ∉ cs.map Prod.fst → trail m cs k = [m k] := by
  intro cs
  induction cs with
  | nil => exact fun m _ ↦ rfl
  | cons c cs ih =>
    intro m hk
    rw [List.map_cons, List.mem_cons, not_or] at hk
    rw [trail, if_neg (Ne.symm hk.1), ih _ hk.2, update_of_ne hk.1]

theorem trail_ne_nil (m : K → Option V) (cs : List (K × Option V)) (k : K) : trail m cs k ≠ [] := by
  obtain ⟨t, ht⟩ := exists_trail_eq_cons cs m k
  rw [ht]
  exact List.cons_ne_nil _ _

theorem run_eq_getLast_trail : ∀ (cs : List (K × Option V)) (m : K → Option V) (k : K),
    run m cs k = (trail m cs k).getLast (trail_ne_nil m cs k) := by
  intro cs
  induction cs with
  | nil => intro m k; rfl
  | cons c cs ih =>
    intro m k
    have hrun : run m (c :: cs) k = run (update m c.1 c.2) cs k := rfl
    rw [hrun, ih]
    simp only [trail]
    split
    · rw [List.getLast_cons]
    · rfl

theorem recordsAt_log : ∀ (cs : List (K × Option V)) (m : K → Option V) (k : K),
    recordsAt k (log m cs) = cellLog (trail m cs k) := by
  intro cs
  induction cs with
  | nil => intro m k; rfl
  | cons c cs ih =>
    intro m k
    obtain ⟨k', v⟩ := c
    rw [log, trail]
    by_cases hk : k' = k
    · subst hk
      obtain ⟨t, ht⟩ := exists_trail_eq_cons cs (update m k' v) k'
      have hih := ih (update m k' v) k'
      rw [ht, update_self] at hih
      rw [if_pos rfl, ht, update_self, cellLog, ← hih, recordsAt, recordsAt]
      simp
    · rw [if_neg hk, ← ih]
      simp [recordsAt, hk]

/-- A replay succeeds exactly when it succeeds on every cell. -/
theorem replay_eq_ok_iff : ∀ (rs : List (K × Record V)) (m m' : K → Option V),
    replay m rs = .ok m' ↔ ∀ k, replayCell (m k) (recordsAt k rs) = .ok (m' k) := by
  intro rs
  induction rs with
  | nil =>
    intro m m'
    constructor
    · rintro ⟨⟩ k
      rfl
    · intro h
      have hm : m = m' := funext fun k ↦ Except.ok.inj (h k)
      rw [hm]
      rfl
  | cons r rs ih =>
    intro m m'
    obtain ⟨k₀, r⟩ := r
    have hat : ∀ k, recordsAt k ((k₀, r) :: rs)
        = if k₀ = k then r :: recordsAt k rs else recordsAt k rs := by
      intro k
      by_cases hk : k₀ = k <;> simp [recordsAt, hk]
    have happly : ∀ m₁, applyAt m (k₀, r) = .ok m₁ ↔
        ∃ v, r.apply (m k₀) = .ok v ∧ m₁ = update m k₀ v := by
      intro m₁
      rw [applyAt]
      rcases r.apply (m k₀) with e | v <;> simp [Except.map, eq_comm]
    have hcons : ∀ cur c, replayCell cur (r :: recordsAt k₀ rs) = .ok c ↔
        ∃ v, r.apply cur = .ok v ∧ replayCell v (recordsAt k₀ rs) = .ok c := by
      intro cur c
      rw [replayCell, List.foldlM_cons, Except.bind_eq_ok_iff]
      rfl
    rw [replay_cons, Except.bind_eq_ok_iff]
    simp only [happly, ih]
    constructor
    · rintro ⟨m₁, ⟨v, hv, rfl⟩, hrest⟩ k
      rw [hat]
      have hk := hrest k
      split
      · rename_i heq
        subst heq
        rw [update_self] at hk
        exact (hcons _ _).mpr ⟨v, hv, hk⟩
      · rename_i hne
        rwa [update_of_ne (Ne.symm hne)] at hk
    · intro h
      have h₀ := h k₀
      rw [hat, if_pos rfl] at h₀
      obtain ⟨v, hv, hrest⟩ := (hcons _ _).mp h₀
      refine ⟨_, ⟨v, hv, rfl⟩, fun k ↦ ?_⟩
      by_cases hk : k₀ = k
      · subst hk
        rwa [update_self]
      · have hk' := h k
        rw [hat, if_neg hk] at hk'
        rwa [update_of_ne (Ne.symm hk)]

theorem ProperRun.proper_trail : ∀ {cs : List (K × Option V)} {m : K → Option V},
    ProperRun m cs → ∀ k, Proper (trail m cs k) := by
  intro cs
  induction cs with
  | nil => intro m _ k; exact List.isChain_singleton _
  | cons c cs ih =>
    rintro m ⟨hc, hcs⟩ k
    obtain ⟨k', v⟩ := c
    rw [trail]
    split
    · rename_i heq
      subst heq
      have htail := ih hcs k'
      obtain ⟨t, ht⟩ := exists_trail_eq_cons cs (update m k' v) k'
      rw [ht, update_self] at htail ⊢
      exact List.isChain_cons_cons.mpr ⟨hc, htail⟩
    · exact ih hcs k

/-- **Forward replay.** Replaying the log in the order of the changes takes a run back exactly when
the history of every cell is restorable. -/
theorem replay_forward_iff {m : K → Option V} {cs : List (K × Option V)} (h : ProperRun m cs) :
    replay (run m cs) (log m cs) = .ok m ↔ ∀ k, Restorable (trail m cs k) := by
  rw [replay_eq_ok_iff]
  refine forall_congr' fun k ↦ ?_
  have hproper := h.proper_trail k
  obtain ⟨t, ht⟩ := exists_trail_eq_cons cs m k
  rw [recordsAt_log, run_eq_getLast_trail]
  simp only [ht] at hproper ⊢
  exact replayCell_forward_iff hproper

theorem ProperRun.restorable_of_nodup : ∀ {cs : List (K × Option V)} {m : K → Option V},
    ProperRun m cs → (cs.map Prod.fst).Nodup → ∀ k, Restorable (trail m cs k) := by
  intro cs
  induction cs with
  | nil => intro m _ _ k; exact ⟨rfl, Or.inr (List.isChain_singleton (m k))⟩
  | cons c cs ih =>
    rintro m ⟨hc, hcs⟩ hnodup k
    rw [List.map_cons, List.nodup_cons] at hnodup
    rw [trail]
    split
    · rename_i heq
      subst heq
      rw [trail_of_notMem cs _ hnodup.1, update_self]
      refine ⟨rfl, ?_⟩
      revert hc
      rcases m c.1 with _ | a <;> rcases c.2 with _ | b <;> simp
    · exact ih hcs hnodup.2 k

end UndoLog
