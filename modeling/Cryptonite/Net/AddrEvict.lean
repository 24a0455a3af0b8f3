import Cryptonite.Net.AddrMan

/-!
# Which entry of a full bucket is evicted

`SelectTried` brings up to four random entries of a bucket to the front, one in each round, and
remembers the least recently successful of them. What it returns is where that entry was *drawn
from*, although the round has moved it to the front: only the entry that was there before, or one
that a later round has put into its place, is found at that position.

A `Candidate` says all that the rounds know of the entry they remember. The positions before a
round are left alone by it, so a candidate stays one until a better one is drawn. Which entry a
round inspects depends on the draws only (`origin`), and so whether the right one is evicted can be
told from the bucket, the draws and the times of the last success (`evicts_oldest_iff`).
-/

namespace Cryptonite.AddrMan

open Buckets Function

variable {am : AddrMan} {rnd : ℕ → ℕ} {k : Fin ADDRMAN_TRIED_BUCKET_COUNT} {id nId nTemp front : ℤ}
  {info : AddrInfo} {vTried : List ℤ} {oldest : ℤ × ℕ} {s w nPos : ℕ}

/-! ## One round -/

/-- `nLastSuccess` of the entry of an id. -/
def lastSuccess (am : AddrMan) (id : ℤ) : ℤ :=
  ((am.mapInfo[id]?).map fun info ↦ info.nLastSuccess.toInt).getD 0

/-- The position that round `i` draws, in a bucket of `n` entries. -/
def drawnAt (n : ℕ) (rnd : ℕ → ℕ) (i : ℕ) : ℕ := getRandInt (n - i) (rnd i) + i

theorem lastSuccess_of (h : am.mapInfo[id]? = some info) :
    am.lastSuccess id = info.nLastSuccess.toInt := by
  rw [lastSuccess, h, Option.map_some, Option.getD_some]

theorem le_drawnAt (n : ℕ) (rnd : ℕ → ℕ) (i : ℕ) : i ≤ drawnAt n rnd i := Nat.le_add_left _ _

theorem drawnAt_lt {n i : ℕ} (h : i < n) (rnd : ℕ → ℕ) : drawnAt n rnd i < n := by
  have := getRandInt_lt (Nat.sub_pos_of_lt h) (rnd i)
  rw [drawnAt]
  omega

/-- The position in the bucket, before all rounds, of the entry that round `i` finds at `p`. -/
def origin (n : ℕ) (rnd : ℕ → ℕ) : ℕ → ℕ → ℕ
  | 0, p => p
  | i + 1, p => if drawnAt n rnd i = p then origin n rnd i i else origin n rnd i p

/-- The entries after `s` rounds, in terms of the bucket and the draws. -/
structure Placed (bucket : List ℤ) (rnd : ℕ → ℕ) (vTried : List ℤ) (s : ℕ) : Prop where
  length_eq : vTried.length = bucket.length
  front : ∀ j < s, vTried[j]? =
    bucket[origin bucket.length rnd j (drawnAt bucket.length rnd j)]?
  rest : ∀ p, s ≤ p → vTried[p]? = bucket[origin bucket.length rnd s p]?

theorem placed_zero (bucket : List ℤ) (rnd : ℕ → ℕ) : Placed bucket rnd bucket 0 :=
  ⟨rfl, fun _ hj ↦ absurd hj (Nat.not_lt_zero _), fun _ _ ↦ rfl⟩

/-- What is remembered after `s` rounds: the first of the least recently successful entries at the
front, which was brought there in round `w`, and the position it was drawn from. -/
structure Candidate (am : AddrMan) (rnd : ℕ → ℕ) (vTried : List ℤ) (s : ℕ) (oldest : ℤ × ℕ)
    (w : ℕ) : Prop where
  round_lt : w < s
  here : vTried[w]? = some oldest.1
  position : oldest.2 = drawnAt vTried.length rnd w
  least : ∀ j < s, ∀ id, vTried[j]? = some id → am.lastSuccess oldest.1 ≤ am.lastSuccess id
  first : ∀ j < w, ∀ id, vTried[j]? = some id → am.lastSuccess oldest.1 < am.lastSuccess id

/-- Before the first round nothing is remembered. -/
def Remembers (am : AddrMan) (rnd : ℕ → ℕ) (vTried : List ℤ) (s : ℕ) : Option (ℤ × ℕ) → Prop
  | none => s = 0
  | some oldest => ∃ w, Candidate am rnd vTried s oldest w

section Round

variable (hs : s < vTried.length) (hdrawn : vTried[drawnAt vTried.length rnd s]? = some nTemp)
  (hfront : vTried[s]? = some front)

theorem getElem?_swap_of_lt {j : ℕ} (hj : j < s) :
    ((vTried.set (drawnAt vTried.length rnd s) front).set s nTemp)[j]? = vTried[j]? := by
  have hle := le_drawnAt vTried.length rnd s
  rw [List.getElem?_set_ne (by omega), List.getElem?_set_ne (by omega)]

include hs in
theorem getElem?_swap_self :
    ((vTried.set (drawnAt vTried.length rnd s) front).set s nTemp)[s]? = some nTemp := by
  rw [List.getElem?_set_self (by rwa [List.length_set])]

include hs hdrawn hfront in
theorem swap_perm : ((vTried.set (drawnAt vTried.length rnd s) front).set s nTemp).Perm vTried := by
  obtain ⟨hpos, rfl⟩ := List.getElem?_eq_some_iff.mp hdrawn
  obtain ⟨_, rfl⟩ := List.getElem?_eq_some_iff.mp hfront
  exact List.set_set_perm hpos hs

include hs hdrawn hfront in
theorem Placed.swap {bucket : List ℤ} (h : Placed bucket rnd vTried s) :
    Placed bucket rnd ((vTried.set (drawnAt vTried.length rnd s) front).set s nTemp) (s + 1) := by
  have hle := le_drawnAt vTried.length rnd s
  have hpos := drawnAt_lt hs rnd
  refine ⟨by rw [List.length_set, List.length_set, h.length_eq], fun j hj ↦ ?_, fun p hp ↦ ?_⟩
  · rcases Nat.lt_succ_iff_lt_or_eq.mp hj with hj | rfl
    · rw [getElem?_swap_of_lt hj, h.front j hj]
    · rw [getElem?_swap_self hs, ← hdrawn, h.rest _ hle, h.length_eq]
  · rw [List.getElem?_set_ne (by omega), origin, ← h.length_eq]
    split
    · next heq => rw [← heq, List.getElem?_set_self hpos, ← hfront, h.rest s le_rfl, h.length_eq]
    · next hne => rw [List.getElem?_set_ne hne, h.rest p (by omega), h.length_eq]

include hs in
theorem candidate_found (hless : ∀ j < s, ∀ id, vTried[j]? = some id →
      am.lastSuccess nTemp < am.lastSuccess id) :
    Candidate am rnd ((vTried.set (drawnAt vTried.length rnd s) front).set s nTemp) (s + 1)
      (nTemp, drawnAt vTried.length rnd s) s := by
  have hfirst : ∀ j < s, ∀ id,
      ((vTried.set (drawnAt vTried.length rnd s) front).set s nTemp)[j]? = some id →
      am.lastSuccess nTemp < am.lastSuccess id := by
    intro j hj id hid
    rw [getElem?_swap_of_lt hj] at hid
    exact hless j hj id hid
  refine ⟨Nat.lt_succ_self s, getElem?_swap_self hs, by simp only [List.length_set], ?_, hfirst⟩
  intro j hj id hid
  rcases Nat.lt_succ_iff_lt_or_eq.mp hj with hj | rfl
  · exact (hfirst j hj id hid).le
  · rw [getElem?_swap_self hs, Option.some.injEq] at hid
    exact (congrArg am.lastSuccess hid).le

include hs in
theorem Candidate.kept (h : Candidate am rnd vTried s oldest w)
    (hle : am.lastSuccess oldest.1 ≤ am.lastSuccess nTemp) :
    Candidate am rnd ((vTried.set (drawnAt vTried.length rnd s) front).set s nTemp) (s + 1)
      oldest w := by
  have hsame := fun j (hj : j < s) ↦
    @getElem?_swap_of_lt rnd nTemp front vTried s j hj
  refine ⟨h.round_lt.trans (Nat.lt_succ_self s), (hsame w h.round_lt).trans h.here,
    by simpa only [List.length_set] using h.position, ?_, ?_⟩
  · intro j hj id hid
    rcases Nat.lt_succ_iff_lt_or_eq.mp hj with hj | rfl
    · exact h.least j hj id (hsame j hj ▸ hid)
    · rw [getElem?_swap_self hs, Option.some.injEq] at hid
      exact hid ▸ hle
  · intro j hj id hid
    exact h.first j hj id (hsame j (hj.trans h.round_lt) ▸ hid)

end Round

/-! ## All rounds -/

/-- The rounds put the bucket into another order, and remember the candidate among the entries they
have brought to the front. -/
theorem inspect_spec {n : ℕ} {oldest : Option (ℤ × ℕ)} {bucket : List ℤ}
    (hplaced : Placed bucket rnd vTried s)
    (hknown : ∀ id ∈ vTried, ∃ info, am.mapInfo[id]? = some info)
    (hlength : s + n ≤ vTried.length) (holdest : Remembers am rnd vTried s oldest) :
    ∃ vTried' oldest', am.inspect rnd (List.range' s n) vTried oldest = .ok (vTried', oldest') ∧
      vTried'.Perm vTried ∧ Placed bucket rnd vTried' (s + n) ∧
      Remembers am rnd vTried' (s + n) oldest' := by
  induction n generalizing s vTried oldest with
  | zero => exact ⟨vTried, oldest, rfl, .refl _, hplaced, holdest⟩
  | succ n ih =>
    have hs : s < vTried.length := by omega
    have hpos := drawnAt_lt hs rnd
    obtain ⟨front, hfront⟩ : ∃ front, vTried[s]? = some front :=
      ⟨_, List.getElem?_eq_getElem hs⟩
    obtain ⟨nTemp, hdrawn⟩ : ∃ nTemp, vTried[drawnAt vTried.length rnd s]? = some nTemp :=
      ⟨_, List.getElem?_eq_getElem hpos⟩
    have hperm := swap_perm hs hdrawn hfront
    obtain ⟨info, hget⟩ := hknown _ (List.mem_of_getElem? hdrawn)
    -- the other rounds, from what this one remembers
    have hrest : ∀ oldest', Remembers am rnd
        ((vTried.set (drawnAt vTried.length rnd s) front).set s nTemp) (s + 1) oldest' →
        ∃ vTried' oldest'', am.inspect rnd (List.range' (s + 1) n)
            ((vTried.set (drawnAt vTried.length rnd s) front).set s nTemp) oldest' =
              .ok (vTried', oldest'') ∧
          vTried'.Perm vTried ∧ Placed bucket rnd vTried' (s + (n + 1)) ∧
          Remembers am rnd vTried' (s + (n + 1)) oldest'' := by
      intro oldest' hremembers
      obtain ⟨vTried', oldest'', hrun, hperm', hplaced', hfound⟩ :=
        ih (hplaced.swap hs hdrawn hfront) (fun id hid ↦ hknown id (hperm.mem_iff.mp hid))
          (by rw [hperm.length_eq]; omega) hremembers
      rw [Nat.add_right_comm, Nat.add_assoc] at hplaced' hfound
      exact ⟨vTried', oldest'', hrun, hperm'.trans hperm, hplaced', hfound⟩
    have hdraw : getRandInt (vTried.length - s) (rnd s) + s = drawnAt vTried.length rnd s := rfl
    simp only [List.range'_succ, inspect, hdraw, hdrawn, hfront, infoAt_of hget, bind, Except.bind]
    rcases oldest with _ | oldest
    · have hzero : s = 0 := holdest
      exact hrest _ ⟨s, candidate_found hs fun j hj ↦ absurd hj (by omega)⟩
    · obtain ⟨w, hcand⟩ := holdest
      obtain ⟨infoOldest, hgetOldest⟩ := hknown _ (List.mem_of_getElem? hcand.here)
      have hiff : info.nLastSuccess < infoOldest.nLastSuccess ↔
          am.lastSuccess nTemp < am.lastSuccess oldest.1 := by
        rw [Int64.lt_iff_toInt_lt, lastSuccess_of hget, lastSuccess_of hgetOldest]
      simp only [infoAt_of hgetOldest]
      split
      · next hless =>
        exact hrest _ ⟨s, candidate_found hs fun j hj id hid ↦
          (hiff.mp hless).trans_le (hcand.least j hj id hid)⟩
      · next hless => exact hrest _ ⟨w, hcand.kept hs (not_lt.mp (mt hiff.mpr hless))⟩

/-- How many entries of a bucket are inspected. -/
def inspections (n : ℕ) : ℕ := min ADDRMAN_TRIED_ENTRIES_INSPECT_ON_EVICT n

theorem inspections_le (n : ℕ) : inspections n ≤ n := min_le_right _ _

/-- A bucket that has entries is put into another order, and the position that is returned is the
one the candidate was drawn from. -/
theorem selectTried_spec (hknown : ∀ id ∈ am.vvTried k, ∃ info, am.mapInfo[id]? = some info)
    (hne : am.vvTried k ≠ []) : ∃ nPos nOldest w vTried, am.selectTried k rnd =
        .ok (some nPos, { am with vvTried := update am.vvTried k vTried }) ∧
      vTried.Perm (am.vvTried k) ∧
      Placed (am.vvTried k) rnd vTried (inspections (am.vvTried k).length) ∧
      Candidate am rnd vTried (inspections (am.vvTried k).length) (nOldest, nPos) w := by
  obtain ⟨vTried, oldest, hrun, hperm, hplaced, hfound⟩ := @inspect_spec am rnd _ 0
    (inspections (am.vvTried k).length) none _ (placed_zero _ _) hknown
    (by rw [Nat.zero_add]; exact inspections_le _) rfl
  rw [Nat.zero_add] at hplaced hfound
  have hrounds : 0 < inspections (am.vvTried k).length :=
    lt_min (by decide) (List.length_pos_iff.mpr hne)
  rcases oldest with _ | ⟨nOldest, nPos⟩
  · exact absurd hfound hrounds.ne'
  · obtain ⟨w, hcand⟩ := hfound
    refine ⟨nPos, nOldest, w, vTried, ?_, hperm, hplaced, hcand⟩
    rw [selectTried, List.range_eq_range']
    change (am.inspect rnd (List.range' 0 (inspections (am.vvTried k).length)) _ none).bind _ = _
    rw [hrun]
    rfl

theorem Candidate.position_lt (h : Candidate am rnd vTried s (id, nPos) w)
    (hs : s ≤ vTried.length) : nPos < vTried.length := by
  have hposition : nPos = drawnAt vTried.length rnd w := h.position
  rw [hposition]
  exact drawnAt_lt (h.round_lt.trans_le hs) rnd

/-- The position holds the entry with the smallest `nLastSuccess` among those at the front. -/
def HoldsOldest (am : AddrMan) (vTried : List ℤ) (s nPos : ℕ) : Prop :=
  ∃ id ∈ vTried.take s, vTried[nPos]? = some id ∧
    ∀ id' ∈ vTried.take s, am.lastSuccess id ≤ am.lastSuccess id'

theorem mem_front_iff : id ∈ vTried.take s ↔ ∃ j < s, vTried[j]? = some id := by
  simp only [List.mem_iff_getElem?, List.getElem?_take]
  refine exists_congr fun j ↦ ?_
  split <;> simp [*]

/-- `nLastSuccess` of the entry that round `i` inspects. -/
def inspected (am : AddrMan) (bucket : List ℤ) (rnd : ℕ → ℕ) (i : ℕ) : ℤ :=
  am.lastSuccess
    (bucket.getD (origin bucket.length rnd i (drawnAt bucket.length rnd i)) 0)

/-- Round `w` is the first one to inspect a least recently successful entry. -/
structure FindsOldest (am : AddrMan) (bucket : List ℤ) (rnd : ℕ → ℕ) (w : ℕ) : Prop where
  round_lt : w < inspections bucket.length
  least : ∀ j < inspections bucket.length, am.inspected bucket rnd w ≤ am.inspected bucket rnd j
  first : ∀ j < w, am.inspected bucket rnd w < am.inspected bucket rnd j

/-- The oldest of the inspected entries was drawn in its place, or from the place of another one
that is just as old. -/
def DrawnRight (am : AddrMan) (bucket : List ℤ) (rnd : ℕ → ℕ) : Prop :=
  ∃ w, FindsOldest am bucket rnd w ∧ drawnAt bucket.length rnd w < inspections bucket.length ∧
    am.inspected bucket rnd (drawnAt bucket.length rnd w) = am.inspected bucket rnd w

section Front

variable {bucket : List ℤ}

theorem Placed.inspected_eq (h : Placed bucket rnd vTried (inspections bucket.length)) {j : ℕ}
    (hj : j < inspections bucket.length) (hid : vTried[j]? = some id) :
    am.inspected bucket rnd j = am.lastSuccess id := by
  rw [inspected, List.getD_eq_getElem?_getD, ← h.front j hj, hid, Option.getD_some]

theorem FindsOldest.unique {w w' : ℕ} (h : FindsOldest am bucket rnd w)
    (h' : FindsOldest am bucket rnd w') : w = w' := by
  refine le_antisymm (not_lt.mp fun hlt ↦ ?_) (not_lt.mp fun hlt ↦ ?_)
  · exact absurd (h.first w' hlt) (not_lt.mpr (h'.least w h.round_lt))
  · exact absurd (h'.first w hlt) (not_lt.mpr (h.least w' h'.round_lt))

variable (hplaced : Placed bucket rnd vTried (inspections bucket.length))
  (h : Candidate am rnd vTried (inspections bucket.length) (id, nPos) w)

include hplaced h

theorem Candidate.findsOldest : FindsOldest am bucket rnd w := by
  have hget : ∀ j < inspections bucket.length, ∃ id', vTried[j]? = some id' := fun j hj ↦
    ⟨_, List.getElem?_eq_getElem (hj.trans_le (hplaced.length_eq ▸ inspections_le _))⟩
  refine ⟨h.round_lt, fun j hj ↦ ?_, fun j hj ↦ ?_⟩
  · obtain ⟨id', hid'⟩ := hget j hj
    rw [hplaced.inspected_eq h.round_lt h.here, hplaced.inspected_eq hj hid']
    exact h.least j hj id' hid'
  · obtain ⟨id', hid'⟩ := hget j (hj.trans h.round_lt)
    rw [hplaced.inspected_eq h.round_lt h.here,
      hplaced.inspected_eq (hj.trans h.round_lt) hid']
    exact h.first j hj id' hid'

/-- The position the candidate was drawn from holds the oldest of the inspected entries precisely
if it is among theirs, and what has come there is just as old. -/
theorem Candidate.holdsOldest_iff (hnodup : vTried.Nodup) :
    HoldsOldest am vTried (inspections bucket.length) nPos ↔ DrawnRight am bucket rnd := by
  have hs : inspections bucket.length ≤ vTried.length := hplaced.length_eq ▸ inspections_le _
  have hposition : nPos = drawnAt bucket.length rnd w := hplaced.length_eq ▸ h.position
  have hleast : ∀ id' ∈ vTried.take (inspections bucket.length),
      am.lastSuccess id ≤ am.lastSuccess id' := by
    intro id' hid'
    obtain ⟨j, hj, hget⟩ := mem_front_iff.mp hid'
    exact h.least j hj id' hget
  have hfound := h.findsOldest hplaced
  constructor
  · rintro ⟨id', hmem, hid', hle⟩
    -- it is at one position only, and that is at the front
    obtain ⟨j, hj, hget⟩ := mem_front_iff.mp hmem
    obtain rfl : nPos = j :=
      (List.getElem?_inj (h.position_lt hs) hnodup).mp (hid'.trans hget.symm)
    refine ⟨w, hfound, hposition ▸ hj, ?_⟩
    rw [← hposition, hplaced.inspected_eq hj hid', hplaced.inspected_eq h.round_lt h.here]
    exact le_antisymm (hle id (mem_front_iff.mpr ⟨w, h.round_lt, h.here⟩)) (hleast id' hmem)
  · rintro ⟨w', hw', hlt, hsame⟩
    obtain rfl := hw'.unique hfound
    rw [← hposition] at hlt hsame
    obtain ⟨id', hid'⟩ : ∃ id', vTried[nPos]? = some id' :=
      ⟨_, List.getElem?_eq_getElem (h.position_lt hs)⟩
    rw [hplaced.inspected_eq hlt hid', hplaced.inspected_eq h.round_lt h.here] at hsame
    exact ⟨id', mem_front_iff.mpr ⟨nPos, hlt, hid'⟩, hid',
      fun id'' hid'' ↦ hsame ▸ hleast id'' hid''⟩

end Front

/-! ## The eviction -/

/-- The rounds look at the entries of the bucket only. -/
theorem inspect_congr {am₁ am₂ : AddrMan} {is : List ℕ} {oldest : Option (ℤ × ℕ)}
    (hsame : ∀ id ∈ vTried, am₁.infoAt id = am₂.infoAt id)
    (holdest : ∀ nOldest nPos, oldest = some (nOldest, nPos) → nOldest ∈ vTried) :
    am₁.inspect rnd is vTried oldest = am₂.inspect rnd is vTried oldest := by
  induction is generalizing vTried oldest with
  | nil => rfl
  | cons i is ih =>
    simp only [inspect]
    split
    · next nTemp front hdrawn hfront =>
      have hmem : nTemp ∈ vTried := List.mem_of_getElem? hdrawn
      obtain ⟨hpos, hposEq⟩ := List.getElem?_eq_some_iff.mp hdrawn
      obtain ⟨hi, hiEq⟩ := List.getElem?_eq_some_iff.mp hfront
      have hperm := List.set_set_perm hpos hi
      rw [hposEq, hiEq] at hperm
      have hnext : ∀ nOldest nPos, nOldest ∈ vTried →
          am₁.inspect rnd is ((vTried.set (getRandInt (vTried.length - i) (rnd i) + i) front).set i
            nTemp) (some (nOldest, nPos)) =
          am₂.inspect rnd is ((vTried.set (getRandInt (vTried.length - i) (rnd i) + i) front).set i
            nTemp) (some (nOldest, nPos)) := by
        intro nOldest nPos hold
        refine ih (fun id hid ↦ hsame id (hperm.mem_iff.mp hid)) ?_
        intro nOldest' nPos' heq
        cases heq
        exact hperm.mem_iff.mpr hold
      rw [hsame nTemp hmem]
      rcases oldest with _ | ⟨nOldest, nPos⟩
      · simp only [hnext _ _ hmem]
      · have hold := holdest nOldest nPos rfl
        simp only [hsame nOldest hold, hnext _ _ hmem, hnext _ _ hold]
    · rfl

theorem selectTried_congr {am₁ : AddrMan} (hselect : am.selectTried k rnd =
      .ok (some nPos, { am with vvTried := update am.vvTried k vTried }))
    (hbucket : am₁.vvTried k = am.vvTried k)
    (hsame : ∀ id ∈ am.vvTried k, am₁.infoAt id = am.infoAt id) : am₁.selectTried k rnd =
      .ok (some nPos, { am₁ with vvTried := update am₁.vvTried k vTried }) := by
  rw [selectTried] at hselect ⊢
  rw [hbucket, inspect_congr hsame fun _ _ h ↦ absurd h (by simp)]
  generalize am.inspect rnd _ (am.vvTried k) none = run at hselect ⊢
  rcases run with fault | ⟨vTried', oldest⟩
  · simp [bind, Except.bind] at hselect
  · obtain ⟨hpos, ham⟩ := Prod.mk.inj (Except.ok.inj hselect)
    have hv : vTried' = vTried := by
      have := congrArg (fun am : AddrMan ↦ am.vvTried k) ham
      simpa only [update_self] using this
    rw [← hpos, ← hv]
    rfl

/-- In a full bucket the entry at the selected position is replaced. -/
theorem makeTried_full (base : NetBase) {nOrigin : Fin ADDRMAN_NEW_BUCKET_COUNT}
    (hknown : ∀ id ∈ am.vvTried k, ∃ info, am.mapInfo[id]? = some info)
    (hselect : am.selectTried k rnd =
      .ok (some nPos, { am with vvTried := update am.vvTried k vTried }))
    (hperm : vTried.Perm (am.vvTried k)) (hpos : nPos < vTried.length)
    (hnew : nId ∈ am.vvNew nOrigin) (hget : am.mapInfo[nId]? = some info)
    (hrefs : info.nRefCount = degree am.vvNew nId) (hbucket : info.getTriedBucket base am.nKey = k)
    (hnot : nId ∉ am.vvTried k) (hfull : ADDRMAN_TRIED_BUCKET_SIZE ≤ (am.vvTried k).length) :
    ∃ am', am.makeTried base nId nOrigin rnd = .ok am' ∧
      am'.vvTried k = vTried.set nPos nId := by
  obtain ⟨nOld, hold⟩ : ∃ nOld, vTried[nPos]? = some nOld := ⟨_, List.getElem?_eq_getElem hpos⟩
  have hmem : nOld ∈ am.vvTried k := hperm.mem_iff.mp (List.mem_of_getElem? hold)
  have hne : ∀ id ∈ am.vvTried k, id ≠ nId := fun id hid heq ↦ hnot (heq ▸ hid)
  obtain ⟨infoOld, hgetOld⟩ := hknown nOld hmem
  -- the entry has left the new buckets when the selection is made
  set info₁ : AddrInfo :=
    { info with nRefCount := info.nRefCount - degree am.vvNew nId } with hinfo₁
  set am₁ : AddrMan := { am.setInfo nId info₁ with
    vvNew := fun nUBucket ↦ (am.vvNew nUBucket).erase nId
    nNew := am.nNew - 1 } with ham₁
  have hget₁ : am₁.mapInfo[nId]? = some info₁ := getElem?_setInfo_self am nId info₁
  have hother : ∀ id ∈ am.vvTried k, am₁.mapInfo[id]? = am.mapInfo[id]? := by
    intro id hid
    exact (getElem?_insert_eq _ _ _ _).trans (if_neg (hne id hid))
  have hselect₁ : am₁.selectTried k rnd =
      .ok (some nPos, { am₁ with vvTried := update am₁.vvTried k vTried }) :=
    selectTried_congr hselect rfl fun id hid ↦ by simp only [infoAt, hother id hid]
  have hzero : info₁.nRefCount = 0 := sub_eq_zero.mpr hrefs
  have hevict : am.makeTried base nId nOrigin rnd = am₁.evict base nId nOrigin k rnd := by
    simp only [makeTried, infoAt_of hget, bind, Except.bind, ← hinfo₁, ← ham₁]
    rw [if_neg (not_not.mpr hnew), if_neg (not_not.mpr hzero)]
    have hk : info₁.getTriedBucket base am₁.nKey = k := hbucket
    rw [hk]
    exact if_neg (not_lt.mpr hfull)
  rw [hevict, evict, hselect₁]
  have hback : (am₁.mapInfo.insert nOld { infoOld with fInTried := false, nRefCount := 1 })[nId]? =
      some info₁ := by
    rw [getElem?_insert_eq, if_neg (hne nOld hmem).symm, hget₁]
  simp only [bind, Except.bind, update_self, hold, Option.bind_some, Option.map_some]
  simp only [infoAt, setInfo, hother nOld hmem, hgetOld, hback]
  exact ⟨_, rfl, by simp only [update_self]⟩

theorem replaced_iff (hnodup : vTried.Nodup) (hnot : nId ∉ vTried) (hpos : nPos < vTried.length) :
    id ∈ vTried ∧ id ∉ vTried.set nPos nId ↔ vTried[nPos]? = some id := by
  constructor
  · rintro ⟨hmem, hgone⟩
    obtain ⟨j, hj⟩ := List.mem_iff_getElem?.mp hmem
    by_cases heq : nPos = j
    · rw [heq, hj]
    · exact absurd (List.mem_of_getElem? ((List.getElem?_set_ne heq).trans hj)) hgone
  · intro hid
    have hmem : id ∈ vTried := List.mem_of_getElem? hid
    refine ⟨hmem, fun hstill ↦ ?_⟩
    obtain ⟨j, hj⟩ := List.mem_iff_getElem?.mp hstill
    by_cases heq : nPos = j
    · rw [← heq, List.getElem?_set_self hpos, Option.some.injEq] at hj
      exact hnot (hj ▸ hmem)
    · rw [List.getElem?_set_ne heq] at hj
      exact heq ((List.getElem?_inj hpos hnodup).mp (hid.trans hj.symm))

/-- **Tried-bucket eviction.** After the shuffling of `SelectTried` the position that it returns
holds the least recently successful of the entries it inspects if and only if the first such entry
was drawn from a position of the inspected ones, and the entry inspected there is just as old. The
entry at this position is the one, and the only one, that `MakeTried` evicts from a full bucket. -/
theorem evicts_oldest_iff (hknown : ∀ id ∈ am.vvTried k, ∃ info, am.mapInfo[id]? = some info)
    (hnodup : (am.vvTried k).Nodup) (hne : am.vvTried k ≠ []) (rnd : ℕ → ℕ) :
    ∃ nPos vTried, am.selectTried k rnd =
        .ok (some nPos, { am with vvTried := update am.vvTried k vTried }) ∧
      vTried.Perm (am.vvTried k) ∧
      (HoldsOldest am vTried (inspections (am.vvTried k).length) nPos ↔
        DrawnRight am (am.vvTried k) rnd) ∧
      ∀ base nId nOrigin info, nId ∈ am.vvNew nOrigin → am.mapInfo[nId]? = some info →
        info.nRefCount = degree am.vvNew nId → info.getTriedBucket base am.nKey = k →
        nId ∉ am.vvTried k → ADDRMAN_TRIED_BUCKET_SIZE ≤ (am.vvTried k).length →
        ∃ am', am.makeTried base nId nOrigin rnd = .ok am' ∧
          ∀ id, id ∈ am.vvTried k ∧ id ∉ am'.vvTried k ↔ vTried[nPos]? = some id := by
  obtain ⟨nPos, nOldest, w, vTried, hselect, hperm, hplaced, hcand⟩ :=
    @selectTried_spec am rnd k hknown hne
  have hpos := hcand.position_lt (hperm.length_eq ▸ inspections_le _)
  have hnodup' := hperm.nodup_iff.mpr hnodup
  refine ⟨nPos, vTried, hselect, hperm, hcand.holdsOldest_iff hplaced hnodup', ?_⟩
  intro base nId nOrigin info hnew hget hrefs hbucket hnot hfull
  obtain ⟨am', hmake, hset⟩ := makeTried_full base hknown hselect hperm hpos hnew hget hrefs hbucket
    hnot hfull
  refine ⟨am', hmake, fun id ↦ ?_⟩
  rw [hset, ← hperm.mem_iff]
  exact replaced_iff hnodup' (mt hperm.mem_iff.mp hnot) hpos

def oneBucket : NetBase where
  H _ := 0
  getGroup _ := []
  isRoutable _ := true

/-- A full bucket, and an entry that is to come into it. Entry 1 is the least recently successful
one. -/
def fullBucket : AddrMan where
  nKey := []
  nIdCount := 65
  mapInfo := Std.ExtTreeMap.ofList <| (List.range 65).map fun id : ℕ ↦ ((id : ℤ), ({
    ip := BitVec.ofNat _ id
    port := 0
    source := 0
    nLastSuccess := if id = 1 then 5 else 10
    nRefCount := if id = 64 then 1 else 0
    fInTried := id ≠ 64
    nRandomPos := id } : AddrInfo))
  mapAddr ip := if ip.toNat < 65 then some ip.toNat else none
  vRandom := (List.range 65).map Int.ofNat
  nTried := 64
  vvTried := update (fun _ ↦ []) ⟨0, by decide⟩ ((List.range 64).map Int.ofNat)
  nNew := 1
  vvNew := update (fun _ ↦ ∅) ⟨0, by decide⟩ {64}

theorem fullBucket_known :
    ∀ id ∈ fullBucket.vvTried 0, ∃ info, fullBucket.mapInfo[id]? = some info := by
  have h : ∀ id ∈ fullBucket.vvTried 0, (fullBucket.mapInfo[id]?).isSome := by decide +kernel
  exact fun id hid ↦ Option.isSome_iff_exists.mp (h id hid)

/-- If nothing is moved, the oldest of the first four entries is selected. -/
theorem evicts_oldest_unmoved : ∃ nPos vTried, fullBucket.selectTried 0 (fun _ ↦ 0) =
      .ok (some nPos, { fullBucket with vvTried := update fullBucket.vvTried 0 vTried }) ∧
    HoldsOldest fullBucket vTried (inspections (fullBucket.vvTried 0).length) nPos := by
  obtain ⟨nPos, vTried, hselect, -, hiff, -⟩ := evicts_oldest_iff
    fullBucket_known (by decide +kernel) (by decide +kernel) fun _ ↦ 0
  refine ⟨nPos, vTried, hselect, hiff.mpr ⟨1, ⟨?_, ?_, ?_⟩, ?_, ?_⟩⟩ <;> decide +kernel

/-- The first round draws entry 1, the oldest of the four, and entry 0 takes its position: it is
entry 0 that goes. -/
theorem newer_evicted :
    (∃ vTried, fullBucket.selectTried 0 (fun i ↦ if i = 0 then 1 else 0) =
        .ok (some 1, { fullBucket with vvTried := update fullBucket.vvTried 0 vTried }) ∧
      ¬ HoldsOldest fullBucket vTried (inspections (fullBucket.vvTried 0).length) 1) ∧
    ∃ am', fullBucket.makeTried oneBucket 64 0 (fun i ↦ if i = 0 then 1 else 0) = .ok am' ∧
      fullBucket.lastSuccess 1 < fullBucket.lastSuccess 0 ∧
      1 ∈ am'.vvTried 0 ∧ 0 ∉ am'.vvTried 0 := by
  refine ⟨⟨1 :: 0 :: (List.range' 2 62).map Int.ofNat, by rfl, ?_⟩, _, by rfl, ?_⟩
  · unfold HoldsOldest
    decide +kernel
  · decide +kernel

end Cryptonite.AddrMan
