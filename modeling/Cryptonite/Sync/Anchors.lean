import Cryptonite.Sync.Rounds
import Cryptonite.View.Limit

/-!
# Slices of several anchors

When the slices have been taken at several blocks of a chain, `Build` has to take them oldest first
and wind the map forward from each anchor to the next. Three things can go wrong.

* The word it sorts by is never set, so the slices come in any order. When an older slice comes
  after a newer one, its accounts overwrite newer ones, and if it comes last its anchor is what is
  reported.
* The loop over the heights between two anchors reads the block of the newer anchor in every round.
  When the anchors are two blocks apart, the second block is applied twice and the first not at all.
* `ApplyTransactions` does not make of every block what `TempApply` makes of it.

All three can be made good by a later slice. `build_anchors` says when `Build` is right: a slice of
the newest anchor comes last, and every account is shown by a slice after which nothing goes wrong
with it any more (`Restored`). `build_anchors_wrong` has chains of coinbases for the first two.
-/

namespace Cryptonite

open Patricia AccountTable

/-- Honest slices taken at blocks of one chain, the `i`-th entry being that of the `i`-th state of
the run. -/
structure Anchored {H : List UInt8 → UInt256} {n : ℕ} (run : BlockRun H n)
    (index : ℕ → BlockIndex) (readBlock : ℕ → Bool) (entry : ℕ → ℕ) (slices : List (ℕ × Slice)) :
    Prop where
  /-- The entries are those of the blocks of the run. -/
  block_eq : ∀ i < n, (index (entry (i + 1))).block = run.block i
  nHeight_eq : ∀ i ≤ n, (index (entry i)).nHeight + 1 = run.height + i
  /-- Every block after the first anchor can be read. -/
  readable : ∀ i < n, readBlock (entry (i + 1)) = true
  /-- Every slice is what `SubTrie` wrote at one of the entries. -/
  honest : ∀ e ∈ slices, ∃ i ≤ n, e.1 = entry i ∧ e.2.Honest H (accounts (run.root i))
  /-- Some slice was taken at the last of them. -/
  newest : ∃ e ∈ slices, e.1 = entry n
  covered : covered slices = Set.univ

/-! ## What becomes of one account -/

section Account

variable {H : List UInt8 → UInt256} {n : ℕ} (run : BlockRun H n) (index : ℕ → BlockIndex)

/-- Among the leaves of a slice is one with the key. -/
def Slice.Shows (slice : Slice) (k : UInt160) : Prop :=
  ∃ t, deserialize slice.data = some t ∧ ∃ v, (k, v) ∈ t.leaves

/-- The state a slice was taken at. -/
def BlockRun.place (e : ℕ × Slice) : ℕ := (index e.1).nHeight + 1 - run.height

/-- An entry of the account `k` that is right after a slice of the `i`-th state is right when the
next slice comes, which is of the `j`-th: that is not newer, and the account is the same there; or
all blocks in between do the same with it, roll forward, and are steady if they are several. -/
def BlockRun.Carries (k : UInt160) (i j : ℕ) : Prop :=
  j ≤ i ∧ accounts (run.root i) k = accounts (run.root j) k ∨
  i < j ∧ (∀ t, i ≤ t → t < j → (run.block t).acts k = (run.block (j - 1)).acts k ∧
      RollsForward (run.block t).nHeight (accounts (run.root t) k) ((run.block t).acts k)) ∧
    (j = i + 1 ∨ Steady (accounts (run.root i) k) ((run.block (j - 1)).acts k))

/-- The same of an entry that is astray: the next slice is not newer, and the account is the same
there; or it is of the next block, and nothing overflows; or no block in between is about the
account. -/
def BlockRun.Spares (k : UInt160) (i j : ℕ) : Prop :=
  j ≤ i ∧ accounts (run.root i) k = accounts (run.root j) k ∨
  j = i + 1 ∧ (balanceOf (accounts (run.root i) k)).toNat + Act.paid ((run.block i).acts k)
    < 2 ^ 64 ∨
  i < j ∧ ∀ t, i ≤ t → t < j → (run.block t).acts k = []

/-- No entry is made: the block that is read, if any, pays nothing to the account. -/
def BlockRun.Unpaid (k : UInt160) (i j : ℕ) : Prop :=
  i < j → ∀ nValue, .pay nValue ∉ (run.block (j - 1)).acts k

/-- The entry of the account `k` is right after the slice `e`: the slice shows the account; or the
account is not there, and no entry is left over from the slices before, since it has gone with the
account or there has never been one. -/
def BlockRun.Settles (k : UInt160) (before : List (ℕ × Slice)) (e : ℕ × Slice) : Prop :=
  e.2.Shows k ∨ accounts (run.root (run.place index e)) k = none ∧
    (((before ++ [e]).map (run.place index)).IsChain (run.Spares k) ∨
      (∀ e' ∈ before, ¬e'.2.Shows k) ∧
        ((before ++ [e]).map (run.place index)).IsChain (run.Unpaid k))

/-- After some slice the entry of the account `k` is right, and it stays so up to the end. -/
def BlockRun.Restored (k : UInt160) (slices : List (ℕ × Slice)) : Prop :=
  ∃ before e after, slices = before ++ e :: after ∧ run.Settles index k before e ∧
    ((e :: after).map (run.place index)).IsChain (run.Carries k)

/-- What the rounds between slices of the `i`-th and the `j`-th state make of an entry. -/
def BlockRun.wound (k : UInt160) (i j : ℕ) (c : Option AccountData) : Option AccountData :=
  (Act.wind (run.block (j - 1)).nHeight ((run.block (j - 1)).acts k))^[j - i] c

variable {run index} {k : UInt160} {i j : ℕ}

theorem BlockRun.course (hi : i < n) (k : UInt160) :
    Course (run.block i).nHeight (accounts (run.root i) k) ((run.block i).acts k)
      (accounts (run.root (i + 1)) k) :=
  course_of_tempApply (BlockRun.valid_root hi.le) (run.accepted i hi) k

theorem BlockRun.Carries.wound (h : run.Carries k i j) (hj : j ≤ n) :
    run.wound k i j (accounts (run.root i) k) = accounts (run.root j) k := by
  rw [BlockRun.wound]
  rcases h with ⟨hle, hsame⟩ | ⟨hlt, hblocks, hsteady⟩
  · rwa [Nat.sub_eq_zero_of_le hle]
  have hrounds := @Act.iterate_wind ((run.block (j - 1)).acts k) (j - i)
    (fun t ↦ (run.block (i + t)).nHeight) (fun t ↦ accounts (run.root (i + t)) k) ?_ ?_
  · rwa [show i + (j - i - 1) = j - 1 by omega, Nat.add_sub_cancel' hlt.le] at hrounds
  · intro t ht
    obtain ⟨hacts, hrolls⟩ := hblocks (i + t) (by omega) (by omega)
    rw [← hacts]
    exact (Act.wind_eq_iff (BlockRun.course (by omega) k)).mpr hrolls
  · exact hsteady.imp_left fun h ↦ by omega

theorem BlockRun.Spares.wound (h : run.Spares k i j) (hj : j ≤ n) {c : Option AccountData}
    (hc : Astray (accounts (run.root i) k) c) :
    Astray (accounts (run.root j) k) (run.wound k i j c) := by
  rw [BlockRun.wound]
  rcases h with ⟨hle, hsame⟩ | ⟨rfl, hfits⟩ | ⟨hlt, hblocks⟩
  · rwa [Nat.sub_eq_zero_of_le hle, Function.iterate_zero_apply, ← hsame]
  · rw [Nat.add_sub_cancel_left, Nat.add_sub_cancel, Function.iterate_one]
    exact hc.wind (BlockRun.course hj k) hfits
  · have hsame : ∀ t, i + t ≤ j → accounts (run.root (i + t)) k = accounts (run.root i) k := by
      intro t ht
      induction t with
      | zero => rfl
      | succ t ih =>
        have hcourse := @BlockRun.course H n run (i + t) (by omega) k
        rw [hblocks (i + t) (by omega) (by omega)] at hcourse
        exact hcourse.eq_of_nil.trans (ih (by omega))
    have hend := hsame (j - i) (by omega)
    rw [Nat.add_sub_cancel' hlt.le] at hend
    rw [hblocks (j - 1) (by omega) (by omega), hend, Function.iterate_fixed rfl]
    exact hc

theorem BlockRun.Unpaid.wound (h : run.Unpaid k i j) : run.wound k i j none = none := by
  rw [BlockRun.wound]
  rcases Nat.lt_or_ge i j with hlt | hle
  · refine Function.iterate_fixed ?_ _
    rw [Act.wind]
    rcases hentry : ((run.block (j - 1)).acts k).foldl Act.credit none with _ | ad
    · exact Act.foldl_debit_none _ _
    · obtain ⟨nValue, hmem⟩ := (Act.balance_foldl_credit hentry).2 rfl
      exact absurd hmem (h hlt nValue)
  · rw [Nat.sub_eq_zero_of_le hle]
    rfl

end Account

/-! ## Reading the slices -/

section Entries

variable {H : List UInt8 → UInt256} {accts : AccountMap} {index : ℕ → BlockIndex}
  {readBlock : ℕ → Bool}

theorem Slice.Honest.shows_or {slice : Slice} (h : slice.Honest H accts) {k : UInt160}
    (hk : k ∈ slice.range) : slice.Shows k ∨ accts k = none := by
  obtain ⟨t, ht, -, hshown⟩ := h.leaves
  rcases ha : accts k with _ | a
  · exact .inr rfl
  · exact .inl ⟨t, ht, a, hshown k hk a ha⟩

theorem windForward_eq {p : ℕ} : ∀ {m : ℕ} {data : AccountTable},
    (m ≠ 0 → readBlock p = true) → ∃ data', windForward index readBlock p m data = some data' ∧
      ∀ k, toMap data' k
        = (Act.wind (index p).block.nHeight ((index p).block.acts k))^[m]
          (toMap data k) := by
  intro m
  induction m with
  | zero => exact fun {data} _ ↦ ⟨data, rfl, fun _ ↦ rfl⟩
  | succ m ih =>
    intro data hread
    have hread' := hread (Nat.succ_ne_zero m)
    obtain ⟨data', hwound, hdata⟩ := @ih (applyTransactions data (index p).block) fun _ ↦ hread'
    refine ⟨data', ?_, fun k ↦ ?_⟩
    · rw [windForward, if_pos hread', hwound]
    · rw [hdata, toMap_applyTransactions, Function.iterate_succ_apply]

/-- One more slice: an entry is that of the account, if the slice shows it, and what winding has
made of it otherwise. -/
theorem addSlice_entries {s : Building} {e : ℕ × Slice} {m : ℕ} (hhonest : e.2.Honest H accts)
    (hm : (if s.lastHeight ≠ 0 then (index e.1).nHeight + 1 - s.lastHeight else 0) = m)
    (hread : m ≠ 0 → readBlock e.1 = true) : ∃ data, addSlice index readBlock s e
        = .ok ⟨(index e.1).nHeight + 1, data, (index e.1).hash⟩ ∧
      ∀ k, (e.2.Shows k → toMap data k = accts k) ∧
        (¬e.2.Shows k → toMap data k = (Act.wind (index e.1).block.nHeight
          ((index e.1).block.acts k))^[m] (toMap s.data k)) := by
  obtain ⟨wound, hwound, hdata⟩ := @windForward_eq index readBlock e.1 m s.data hread
  obtain ⟨t, ht, hleaves, -⟩ := hhonest.leaves
  have hrounds : (if s.lastHeight ≠ 0 then windForward index readBlock e.1
      ((index e.1).nHeight + 1 - s.lastHeight) s.data else some s.data) = some wound := by
    rw [← hwound, ← hm]
    split <;> rfl
  refine ⟨_, by rw [addSlice, hrounds, ht], fun k ↦ ?_⟩
  rcases toMap_foldl_insert k t.leaves wound with ⟨v, hmem, hv⟩ | ⟨hnone, hsame⟩
  · exact ⟨fun _ ↦ hv.trans (hleaves _ hmem).symm, fun h ↦ absurd ⟨t, ht, v, hmem⟩ h⟩
  · refine ⟨?_, fun _ ↦ hsame.trans (hdata k)⟩
    rintro ⟨t', ht', v, hmem⟩
    obtain rfl := Option.some.inj (ht.symm.trans ht')
    exact absurd hmem (hnone v)

end Entries

/-! ## From anchor to anchor -/

section Anchors

variable {H : List UInt8 → UInt256} {n : ℕ} {run : BlockRun H n} {index : ℕ → BlockIndex}
  {readBlock : ℕ → Bool} {entry : ℕ → ℕ} {slices : List (ℕ × Slice)}

/-- The local variables of `Build` after a slice of the `i`-th state. -/
structure BuiltTo (run : BlockRun H n) (index : ℕ → BlockIndex) (entry : ℕ → ℕ) (i : ℕ)
    (s : Building) : Prop where
  lastHeight : s.lastHeight = run.height + i
  block : s.block = (index (entry i)).hash

theorem Anchored.place_of_mem (h : Anchored run index readBlock entry slices) {e : ℕ × Slice}
    (he : e ∈ slices) : run.place index e ≤ n ∧ e.1 = entry (run.place index e) ∧
      e.2.Honest H (accounts (run.root (run.place index e))) := by
  obtain ⟨i, hi, hentry, hhonest⟩ := h.honest e he
  have hplace : run.place index e = i := by
    have hheight := h.nHeight_eq i hi
    rw [BlockRun.place, hentry]
    omega
  rw [hplace]
  exact ⟨hi, hentry, hhonest⟩

theorem BuiltTo.addSlice {s : Building} {i : ℕ} {e : ℕ × Slice} (hs : BuiltTo run index entry i s)
    (h : Anchored run index readBlock entry slices) (he : e ∈ slices) :
    ∃ s', Cryptonite.addSlice index readBlock s e = .ok s' ∧
      BuiltTo run index entry (run.place index e) s' ∧ ∀ k,
      (e.2.Shows k →
        toMap s'.data k = accounts (run.root (run.place index e)) k) ∧
      (¬e.2.Shows k → toMap s'.data k
        = run.wound k i (run.place index e) (toMap s.data k)) := by
  obtain ⟨hj, hentry, hhonest⟩ := h.place_of_mem he
  set j := run.place index e with hplace
  have hheight := h.nHeight_eq j hj
  have hstart := h.nHeight_eq 0 (Nat.zero_le n)
  have hm : (if s.lastHeight ≠ 0 then (index e.1).nHeight + 1 - s.lastHeight else 0) = j - i := by
    rw [hs.lastHeight, if_pos (by omega), hentry]
    omega
  have hblock (hne : j - i ≠ 0) : (index e.1).block = run.block (j - 1) ∧
      readBlock e.1 = true := by
    have hsucc : j - 1 + 1 = j := by omega
    have hread := h.readable (j - 1) (by omega)
    have hblock := h.block_eq (j - 1) (by omega)
    rw [hsucc, ← hentry] at hread hblock
    exact ⟨hblock, hread⟩
  obtain ⟨data, hadd, hdata⟩ := addSlice_entries hhonest hm fun hne ↦ (hblock hne).2
  refine ⟨_, hadd, ⟨?_, congrArg (fun p ↦ (index p).hash) hentry⟩, fun k ↦ ⟨(hdata k).1, ?_⟩⟩
  · rw [hentry]
    exact hheight
  · intro hshows
    refine ((hdata k).2 hshows).trans ?_
    rw [BlockRun.wound]
    by_cases hne : j - i = 0
    · rw [hne]
      rfl
    · rw [(hblock hne).1]

/-- **The loop over the slices.** What holds of an entry at some anchor holds of it at the end, if
the rounds between the slices keep it and the slices show it. -/
theorem BuiltTo.foldlM (h : Anchored run index readBlock entry slices) {es : List (ℕ × Slice)}
    {i : ℕ} {s : Building} (hs : BuiltTo run index entry i s) (hes : ∀ e ∈ es, e ∈ slices) :
    ∃ s', es.foldlM (Cryptonite.addSlice index readBlock) s = .ok s' ∧
      BuiltTo run index entry ((es.map (run.place index)).getLastD i) s' ∧
      ∀ (k : UInt160) (P : ℕ → Option AccountData → Prop),
        (∀ e ∈ es, e.2.Shows k →
          P (run.place index e) (accounts (run.root (run.place index e)) k)) →
        (i :: es.map (run.place index)).IsChain
          (fun i j ↦ j ≤ n → ∀ c, P i c → P j (run.wound k i j c)) →
        P i (toMap s.data k) →
        P ((es.map (run.place index)).getLastD i) (toMap s'.data k) := by
  induction es generalizing i s with
  | nil => exact ⟨s, rfl, hs, fun _ _ _ _ h ↦ h⟩
  | cons e es ih =>
    rw [List.forall_mem_cons] at hes
    obtain ⟨s₁, hadd, hs₁, hentries⟩ := hs.addSlice h hes.1
    obtain ⟨s', hrest, hs', hlater⟩ := ih hs₁ hes.2
    rw [List.map_cons, List.getLastD_cons]
    refine ⟨s', ?_, hs', fun k P hshown hchain hstart ↦ ?_⟩
    · rw [List.foldlM_cons, hadd]
      exact hrest
    · rw [List.forall_mem_cons] at hshown
      obtain ⟨hfirst, hchain⟩ := List.isChain_cons_cons.mp hchain
      refine hlater k P hshown.2 hchain ?_
      by_cases hshows : e.2.Shows k
      · rw [(hentries k).1 hshows]
        exact hshown.1 hshows
      · rw [(hentries k).2 hshows]
        exact hfirst (h.place_of_mem hes.1).1 _ hstart

theorem Anchored.addSlice_first (h : Anchored run index readBlock entry slices) {e : ℕ × Slice}
    (he : e ∈ slices) (block : UInt256) : ∃ s, addSlice index readBlock ⟨0, ∅, block⟩ e = .ok s ∧
      BuiltTo run index entry (run.place index e) s ∧ ∀ k,
      (e.2.Shows k →
        toMap s.data k = accounts (run.root (run.place index e)) k) ∧
      (¬e.2.Shows k → toMap s.data k = none) := by
  obtain ⟨hj, hentry, hhonest⟩ := h.place_of_mem he
  obtain ⟨data, hadd, hdata⟩ := @addSlice_entries H _ index readBlock ⟨0, ∅, block⟩ e 0 hhonest
    rfl fun hne ↦ absurd rfl hne
  refine ⟨_, hadd, ⟨?_, congrArg (fun p ↦ (index p).hash) hentry⟩, hdata⟩
  rw [hentry]
  exact h.nHeight_eq _ hj

theorem Anchored.foldlM_of_settles (h : Anchored run index readBlock entry slices) {k : UInt160}
    {e : ℕ × Slice} {before : List (ℕ × Slice)} (hes : ∀ e' ∈ before ++ [e], e' ∈ slices)
    (hsettles : run.Settles index k before e) (block : UInt256) :
    ∃ s, (before ++ [e]).foldlM (addSlice index readBlock) ⟨0, ∅, block⟩ = .ok s ∧
      BuiltTo run index entry (run.place index e) s ∧
      toMap s.data k = accounts (run.root (run.place index e)) k := by
  rcases before with _ | ⟨e₀, before⟩
  · obtain ⟨s, hadd, hs, hentries⟩ := h.addSlice_first (hes e List.mem_cons_self) block
    refine ⟨s, ?_, hs, ?_⟩
    · rw [List.nil_append, List.foldlM_cons, hadd]
      rfl
    · by_cases hshows : e.2.Shows k
      · exact (hentries k).1 hshows
      · exact ((hentries k).2 hshows).trans (hsettles.resolve_left hshows).1.symm
  rw [List.cons_append, List.forall_mem_cons, List.forall_mem_append] at hes
  obtain ⟨s₁, hfirst, hs₁, hentries₁⟩ := h.addSlice_first hes.1 block
  obtain ⟨s₂, hbefore, hs₂, hkept⟩ := hs₁.foldlM h hes.2.1
  have he := hes.2.2 e List.mem_cons_self
  obtain ⟨s, hadd, hs, hentries⟩ := hs₂.addSlice h he
  refine ⟨s, ?_, hs, ?_⟩
  · rw [List.cons_append, List.foldlM_cons, hfirst]
    change (before ++ [e]).foldlM (addSlice index readBlock) s₁ = _
    rw [List.foldlM_append, hbefore]
    change [e].foldlM (addSlice index readBlock) s₂ = _
    rw [List.foldlM_cons, hadd]
    rfl
  by_cases hshows : e.2.Shows k
  · exact (hentries k).1 hshows
  obtain ⟨hnone, hleft⟩ := hsettles.resolve_left hshows
  rw [(hentries k).2 hshows, hnone]
  have hlast : ((e₀ :: before).map (run.place index)).getLast?
      = some ((before.map (run.place index)).getLastD (run.place index e₀)) := by
    rw [List.map_cons, List.getLast?_cons, List.getLastD_eq_getLast?]
  rcases hleft with hspares | ⟨hnever, hunpaid⟩
  · rw [List.map_append, List.isChain_append] at hspares
    obtain ⟨hchain, -, hstep⟩ := hspares
    have hastray := hkept k (fun i c ↦ Astray (accounts (run.root i) k) c)
      (fun e' _ _ ad had ↦ ⟨ad, had, UInt64.le_refl _⟩)
      (hchain.imp fun i j hij hj c ↦ hij.wound hj) (fun ad had ↦ ?_)
    · have hgone := (hstep _ hlast _ rfl).wound (h.place_of_mem he).1 hastray
      rw [hnone] at hgone
      exact Option.eq_none_iff_forall_ne_some.mpr fun ad had ↦ by simpa using hgone ad had
    · by_cases hshows₀ : e₀.2.Shows k
      · exact ⟨ad, ((hentries₁ k).1 hshows₀).symm.trans had, UInt64.le_refl _⟩
      · exact absurd (((hentries₁ k).2 hshows₀).symm.trans had) (by simp)
  · rw [List.map_append, List.isChain_append] at hunpaid
    obtain ⟨hchain, -, hstep⟩ := hunpaid
    rw [List.forall_mem_cons] at hnever
    have habsent := hkept k (fun _ c ↦ c = none)
      (fun e' he' hshows' ↦ absurd hshows' (hnever.2 e' he'))
      (hchain.imp fun i j hij _ c hc ↦ by rw [hc]; exact hij.wound) ((hentries₁ k).2 hnever.1)
    rw [habsent]
    exact (hstep _ hlast _ rfl).wound

/-- All slices: the entries of the accounts that are restored are right. -/
theorem Anchored.foldlM (h : Anchored run index readBlock entry slices) {e : ℕ × Slice}
    {es : List (ℕ × Slice)} (hes : ∀ e' ∈ e :: es, e' ∈ slices) (block : UInt256) :
    ∃ s, (e :: es).foldlM (addSlice index readBlock) ⟨0, ∅, block⟩ = .ok s ∧
      BuiltTo run index entry (((e :: es).map (run.place index)).getLastD 0) s ∧
      ∀ k, run.Restored index k (e :: es) → toMap s.data k
        = accounts (run.root (((e :: es).map (run.place index)).getLastD 0)) k := by
  obtain ⟨s₁, hfirst, hs₁, -⟩ := h.addSlice_first (hes e List.mem_cons_self) block
  obtain ⟨s, hloop, hs, -⟩ := hs₁.foldlM h fun e' he' ↦ hes e' (List.mem_cons_of_mem e he')
  have hall : (e :: es).foldlM (addSlice index readBlock) ⟨0, ∅, block⟩ = .ok s := by
    rw [List.foldlM_cons, hfirst]
    exact hloop
  rw [← List.getLastD_cons (a := 0), ← List.map_cons] at hs
  refine ⟨s, hall, hs, ?_⟩
  rintro k ⟨before, e', after, hsplit, hsettles, hcarries⟩
  rw [List.append_cons] at hsplit
  rw [hsplit, List.forall_mem_append] at hes
  obtain ⟨s₂, hbefore, hs₂, hright⟩ := h.foldlM_of_settles hes.1 hsettles block
  obtain ⟨s₃, hafter, -, hkept⟩ := hs₂.foldlM h hes.2
  have hsame : s₃ = s := by
    rw [hsplit, List.foldlM_append, hbefore] at hall
    exact Except.ok.inj (hafter.symm.trans hall)
  have hend := hkept k (fun i c ↦ c = accounts (run.root i) k) (fun _ _ _ ↦ rfl)
    (hcarries.imp fun i j hij hj c hc ↦ hc ▸ hij.wound hj) hright
  have hplaces : ((e :: es).map (run.place index)).getLastD 0
      = (after.map (run.place index)).getLastD (run.place index e') := by
    rw [hsplit, List.append_assoc, List.singleton_append, List.map_append, List.map_cons,
      List.getLastD_eq_getLast?, List.getLast?_append_cons, ← List.getLastD_eq_getLast?,
      List.getLastD_cons]
  rw [hplaces, ← hsame]
  exact hend

/-- **Synchronisation across anchors.** When honest slices taken at blocks of one chain cover all
keys, a slice of the newest anchor comes last in the order of the words `sort` finds, and every
account is restored in that order, then `Build` returns the accounts at the newest anchor and
reports it. -/
theorem build_anchors {sync : TrieSync} (h : Anchored run index readBlock entry sync.slices)
    {nHeight : ℕ → UInt64}
    (hlast : (sortSlices nHeight sync.slices).getLast?.map Prod.fst = some (entry n))
    (hkeys : ∀ k, run.Restored index k (sortSlices nHeight sync.slices)) (block : UInt256) :
    ∃ root, sync.build index readBlock nHeight block = .ok (root, (index (entry n)).hash) ∧
      SameTrie H root (run.root n) := by
  rcases hes : sortSlices nHeight sync.slices with _ | ⟨e, es⟩
  · simp [hes] at hlast
  have hmem : ∀ e' ∈ e :: es, e' ∈ sync.slices := fun e' he' ↦ mem_sortSlices.mp (hes ▸ he')
  rw [hes] at hlast hkeys
  obtain ⟨s, hloop, hs, hright⟩ := h.foldlM hmem block
  have hplace : ((e :: es).map (run.place index)).getLastD 0 = n := by
    obtain ⟨e', he', hentry⟩ := Option.map_eq_some_iff.mp hlast
    have hheight := h.nHeight_eq n le_rfl
    rw [List.getLastD_eq_getLast?, List.getLast?_map, he', Option.map_some, Option.getD_some,
      BlockRun.place, hentry]
    omega
  rw [hplace] at hs hright
  have hdata : Tracks (accounts (run.root n)) Set.univ (toMap s.data) :=
    ⟨fun k _ ↦ hright k (hkeys k),
      fun k ad had ↦ ⟨ad, (hright k (hkeys k)).symm.trans had, UInt64.le_refl _⟩⟩
  rw [← hes] at hloop
  obtain ⟨root, hbuild, hvalid, hroot⟩ := build_of_tracks (H := H) hloop hdata
  rw [hs.block] at hbuild
  exact ⟨root, hbuild, hvalid.ext (BlockRun.valid_root le_rfl) hroot⟩

end Anchors

/-! ### Coinbases -/

/-- The bytes `SubTrie` writes for a range of keys. -/
def cutBytes (left right : UInt160) (root : Option TrieNode) : Option (List UInt8) :=
  root.bind fun t ↦
    match subTrie Sha256.sha256d left right 1000 t 0 0 false ⟨[], 0⟩ with
    | .ok (true, buf, _) => some buf.out
    | _ => none

theorem honest_of_cutBytes {left right : UInt160} {root : Option TrieNode} {bytes : List UInt8}
    {block : UInt256} (hvalid : ValidRoot Sha256.sha256d root)
    (h : cutBytes left right root = some bytes) :
    Slice.Honest Sha256.sha256d (accounts root) ⟨block, left, right, bytes⟩ := by
  obtain ⟨t, rfl, hcut⟩ := Option.bind_eq_some_iff.mp h
  have ht := validRoot_some.mp hvalid
  split at hcut
  · next buf trie' hsub =>
    cases hcut
    exact ⟨t, trie', 1000, 0, buf, ht.canon, ht.coherent, rfl, hsub, rfl⟩
  · cases hcut

/-- Coins to mint, and ten coins in the account with the upper half of the keys. -/
def poolAndUpper : AccountTable :=
  ((∅ : AccountTable).insert 0 { AccountData.init with balance := 0x4000000000000000 }).insert
    (bitAt 0) { AccountData.init with balance := 10 }

/-- The block at height `i + 2`, which pays `i + 1` coins to the upper account. -/
def upperBlock (i : ℕ) : Block := mintBlock (.ofNat (i + 2)) (.ofNat (i + 1)) (bitAt 0)

/-- The trie at height `i + 1`. -/
def upperRoot : ℕ → Option TrieNode
  | 0 => (AccountTrie.ofTable Sha256.sha256d poolAndUpper).root
  | i + 1 => (applied (upperRoot i) (upperBlock i)).1

def upperRun (n : ℕ) (h : ∀ i < n, (tempApply (fun _ ↦ 0) (upperRoot i) (upperBlock i)).map Prod.fst
    = .ok true ∧ (upperBlock i).nHeight.toNat = 2 + i) : BlockRun Sha256.sha256d n where
  root := upperRoot
  block := upperBlock
  junk := fun _ _ ↦ 0
  undos := fun i ↦ (applied (upperRoot i) (upperBlock i)).2
  height := 2
  valid := (AccountTrie.ofTable Sha256.sha256d poolAndUpper).valid
  accepted := fun i hi ↦ tempApply_eq_applied (h i hi).1
  height_eq := fun i hi ↦ (h i hi).2

theorem accepted_upperBlock : ∀ i < 2,
    (tempApply (fun _ ↦ 0) (upperRoot i) (upperBlock i)).map Prod.fst = .ok true ∧
      (upperBlock i).nHeight.toNat = 2 + i := by
  decide +kernel

def upperIndex (i : ℕ) : BlockIndex :=
  { hash := .ofNat 256 (100 + i), pprev := if i = 0 then none else some (i - 1), nHeight := i + 1
    headerHash := .ofNat 256 (100 + i), block := upperBlock (i - 1) }

/-- The lower half of the keys at the first entry, the upper half at the entry `i`. -/
def upperSlices (i : ℕ) : List (ℕ × Slice) :=
  [(0, ⟨100, 0, bitAt 0 - 1, (cutBytes 0 (bitAt 0 - 1) (upperRoot 0)).getD []⟩),
    (i, ⟨.ofNat 256 (100 + i), bitAt 0, BitVec.allOnes 160,
      (cutBytes (bitAt 0) (BitVec.allOnes 160) (upperRoot i)).getD []⟩)]

theorem covered_upperSlices (i : ℕ) : covered (upperSlices i) = Set.univ := by
  have hcover := covered_twoHalves
  rw [twoHalves, covered_cons, covered_cons] at hcover
  rw [upperSlices, covered_cons, covered_cons]
  exact hcover

theorem cutBytes_upperRoot : (cutBytes 0 (bitAt 0 - 1) (upperRoot 0)).isSome = true ∧
    ∀ i < 3, (cutBytes (bitAt 0) (BitVec.allOnes 160) (upperRoot i)).isSome = true := by
  decide +kernel

theorem anchored_upperSlices {n : ℕ} (hn : n < 3) (h : ∀ i < n,
    (tempApply (fun _ ↦ 0) (upperRoot i) (upperBlock i)).map Prod.fst = .ok true ∧
      (upperBlock i).nHeight.toNat = 2 + i) :
    Anchored (upperRun n h) upperIndex (fun _ ↦ true) id (upperSlices n) where
  block_eq := fun _ _ ↦ rfl
  nHeight_eq := fun i _ ↦ by simp only [upperIndex, upperRun, id]; omega
  readable := fun _ _ ↦ rfl
  honest := by
    intro e he
    have hroot {i : ℕ} (hi : i ≤ n) : ValidRoot Sha256.sha256d (upperRoot i) :=
      (upperRun n h).valid_root hi
    rcases List.mem_pair.mp he with rfl | rfl
    · obtain ⟨bytes, hbytes⟩ := Option.isSome_iff_exists.mp cutBytes_upperRoot.1
      refine ⟨0, Nat.zero_le n, rfl, ?_⟩
      rw [hbytes, Option.getD_some]
      exact honest_of_cutBytes (hroot (Nat.zero_le n)) hbytes
    · obtain ⟨bytes, hbytes⟩ := Option.isSome_iff_exists.mp (cutBytes_upperRoot.2 n hn)
      refine ⟨n, le_rfl, rfl, ?_⟩
      rw [hbytes, Option.getD_some]
      exact honest_of_cutBytes (hroot le_rfl) hbytes
  newest := ⟨_, List.mem_pair.mpr (.inr rfl), rfl⟩
  covered := covered_upperSlices n

theorem sortSlices_pair (nHeight : ℕ → UInt64) (e e' : ℕ × Slice) :
    sortSlices nHeight [e, e'] = if nHeight 0 ≤ nHeight 1 then [e, e'] else [e', e] := by
  rw [sortSlices, List.zipIdx_cons, List.zipIdx_cons, List.zipIdx_nil, List.mergeSort]
  simp [List.MergeSort.Internal.splitInTwo, List.merge]
  split <;> rfl

theorem sortSlices_upperSlices (n : ℕ) :
    sortSlices (fun i ↦ .ofNat i) (upperSlices n) = upperSlices n := by
  rw [upperSlices, sortSlices_pair, if_pos (by decide)]

/-- Anchors one block apart, in the right order. -/
theorem build_anchors_upper : ∃ root,
    TrieSync.build upperIndex (fun _ ↦ true) (fun i ↦ .ofNat i) ⟨0, [], upperSlices 1⟩ 0
      = .ok (root, 101) ∧ SameTrie Sha256.sha256d root (upperRoot 1) := by
  have haccepted : ∀ i < 1, (tempApply (fun _ ↦ 0) (upperRoot i) (upperBlock i)).map Prod.fst
      = .ok true ∧ (upperBlock i).nHeight.toNat = 2 + i :=
    fun i hi ↦ accepted_upperBlock i (hi.trans Nat.one_lt_two)
  have haccts : accounts (upperRoot 0) = toMap poolAndUpper := accounts_ofTable _ _
  refine @build_anchors _ _ (upperRun 1 haccepted) _ _ _ ⟨0, [], upperSlices 1⟩
    (anchored_upperSlices (by decide) haccepted) _ ?_ (fun k ↦ ?_) 0
  · rw [sortSlices_upperSlices]
    rfl
  rw [sortSlices_upperSlices]
  have hrolls : RollsForward (upperBlock 0).nHeight (accounts (upperRoot 0) k)
      ((upperBlock 0).acts k) := by
    rw [haccts]
    exact @rollsForward_mintBlock _ _ _ _ { AccountData.init with balance := 0x4000000000000000 }
      (by decide) (by decide) (by decide) (by decide) (by decide) k
  have hfits : (balanceOf (accounts (upperRoot 0) k)).toNat + Act.paid ((upperBlock 0).acts k)
      < 2 ^ 64 := by
    have hpaid : Act.paid ((upperBlock 0).acts k) ≤ 1 := by
      rw [upperBlock, acts_mintBlock]
      split_ifs <;> decide
    have hbalance : (balanceOf (toMap poolAndUpper k)).toNat ≤ 0x4000000000000000 := by
      rcases ha : toMap poolAndUpper k with _ | a
      · exact Nat.zero_le _
      · rcases eq_of_toMap_pair ha with ⟨-, rfl⟩ | ⟨-, rfl⟩ <;> decide
    rw [haccts]
    omega
  have hanchored := anchored_upperSlices (by decide) haccepted
  obtain ⟨e, he, hk⟩ : k ∈ covered (upperSlices 1) := covered_upperSlices 1 ▸ Set.mem_univ k
  have hshown := (hanchored.place_of_mem he).2.2.shows_or hk
  rcases List.mem_pair.mp he with rfl | rfl
  · -- shown by the first slice, and carried to the second
    refine ⟨[], _, [_], rfl, hshown.imp_right fun hnone ↦
      ⟨hnone, .inl (List.isChain_singleton _)⟩, ?_⟩
    refine List.isChain_pair.mpr (.inr ⟨Nat.one_pos, fun t _ ht ↦ ?_, .inl rfl⟩)
    obtain rfl := Nat.lt_one_iff.mp ht
    exact ⟨rfl, hrolls⟩
  · -- shown by the second slice
    refine ⟨[_], _, [], rfl, hshown.imp_right fun hnone ↦ ⟨hnone, .inl ?_⟩,
      List.isChain_singleton _⟩
    exact List.isChain_pair.mpr (.inr (.inl ⟨rfl, hfits⟩))

/-- The coins left to mint in what `Build` makes of slices, and the block it reports. -/
def buildPool (nHeight : ℕ → UInt64) (slices : List (ℕ × Slice)) :
    Exec (Option UInt64 × UInt256) :=
  (TrieSync.build upperIndex (fun _ ↦ true) nHeight ⟨0, [], slices⟩ 0).map fun r ↦
    ((accounts r.1 0).map AccountData.balance, r.2)

/-- Two ways to go wrong. With anchors two blocks apart, which mint one coin and two, four coins are
taken from the pool, also if the slices come in order. With anchors one block apart the state and
the block reported are those of the older one, if its slice comes last. -/
theorem build_anchors_wrong :
    (∀ i < 2, checkBlock ⟨Sha256.sha256d, fun _ ↦ true, 0, upperRoot i⟩ true true (upperBlock i)
      = .ok ()) ∧
    ((∃ h, Anchored (upperRun 2 h) upperIndex (fun _ ↦ true) id (upperSlices 2)) ∧
      sortSlices (fun i ↦ .ofNat i) (upperSlices 2) = upperSlices 2 ∧
      (accounts (upperRoot 2) 0).map AccountData.balance = some (0x4000000000000000 - 3) ∧
      buildPool (fun i ↦ .ofNat i) (upperSlices 2) = .ok (some (0x4000000000000000 - 4), 102)) ∧
    (∃ h, Anchored (upperRun 1 h) upperIndex (fun _ ↦ true) id (upperSlices 1)) ∧
      (accounts (upperRoot 1) 0).map AccountData.balance = some (0x4000000000000000 - 1) ∧
      buildPool (fun i ↦ .ofNat (1 - i)) (upperSlices 1)
        = .ok (some 0x4000000000000000, 100) := by
  refine ⟨by decide +kernel, ⟨⟨accepted_upperBlock, ?_⟩, sortSlices_upperSlices 2,
    by decide +kernel, ?_⟩, ⟨fun i hi ↦ accepted_upperBlock i (hi.trans Nat.one_lt_two), ?_⟩,
    by decide +kernel, ?_⟩
  · exact anchored_upperSlices (by decide) _
  · rw [buildPool, TrieSync.build, sortSlices_upperSlices]
    decide +kernel
  · exact anchored_upperSlices (by decide) _
  · rw [buildPool, TrieSync.build, upperSlices, sortSlices_pair, if_neg (by decide)]
    decide +kernel

end Cryptonite
