import Cryptonite.Chain.Headers
import Cryptonite.Sync.Intervals

/-!
# Asking for a slice

`TrieSync::GetSlice` of `triesync.cpp` picks the range to ask a peer for. It puts the intervals that
are held or asked for in order, takes the gap below the first of them, or behind it if it begins at
key zero, and halves the range until it is no longer than `log2size` allows.

The right end of a gap between the first interval and the second is read off `intervals.begin()++`,
which is still the first interval. Its left end is zero, and one less is the largest key. The range
is then not the gap but everything behind the first interval, and it is left to the halving whether
what remains is within the gap. `getSlice_in_gap_iff` makes this precise.
-/

namespace Cryptonite

open Loop

/-! ## The model -/

/-- The header chain, as far as `TrieSync` reads it. -/
structure SyncView where
  tree : HeaderTree
  chainHeaders : CChain
  /-- `GetBlockHash`. -/
  hash : ℕ → UInt256
  MIN_HISTORY : UInt64

def SyncView.height (view : SyncView) : ℤ := (view.chainHeaders.vChain.length : ℤ) - 1

/-- `TrieSync`, with the peers that are not asked. -/
structure SliceSync extends TrieSync where
  bans : List ℕ

def SliceSync.taken (sync : SliceSync) : List (ℕ × Slice) := sync.slices ++ sync.slicesRequested

def SliceSync.allSlices (sync : SliceSync) : List (ℕ × Slice) :=
  sync.taken.foldl (fun all e ↦ multimapInsert e all) []

def SliceSync.request (sync : SliceSync) (pindex : ℕ) (slice : Slice) : SliceSync :=
  { sync with slicesRequested := multimapInsert (pindex, slice) sync.slicesRequested }

def Slice.new (block : UInt256) : Slice := ⟨block, 0, 0, []⟩

/-- `intervals.sort(compareIntervals)`. -/
def sortIntervals (intervals : List Interval) : List Interval :=
  intervals.insertionSort fun it it2 ↦ it.left ≤ it2.left

/-- `lowest` and `right`, before the range is made smaller. -/
def openRange : List Interval → UInt160 × UInt160
  | [] => (0, maxKey)
  | it :: rest =>
    if it.left ≠ 0 then (0, it.left - 1)
    -- `intervals.begin()++` is `intervals.begin()`
    else (it.right + 1, if 1 < (it :: rest).length then it.left - 1 else maxKey)

/-- A round of the loop that halves the range. -/
def halve (lowest bound right : UInt160) : Option UInt160 :=
  if right - lowest > bound then some (lowest + (right - lowest) >>> 1) else none

/-- `right`, when the slice is not too large. -/
def narrow (log2size : ℕ) (lowest right : UInt160) : UInt160 :=
  whileSome (halve lowest ((1 : UInt160) <<< sub32 159 log2size)) 160 right

/-- `TrieSync::GetSlice`. An empty list has no first interval; `atEnd` is what becomes of the read
of one. -/
def SyncView.getSlice (view : SyncView) (atEnd : Exec Interval) (sync : SliceSync) (id : ℕ) :
    Exec (Slice × SliceSync) :=
  if id ∈ sync.bans then .ok (Slice.new 0, sync)
  else do
    let intervals := sortIntervals (getIntervals sync.allSlices)
    let first ← intervals.head?.elim atEnd .ok
    if first.right = maxKey ∧ first.left = 0 then pure (Slice.new 0, sync)
    else
      let lowest := (openRange intervals).1
      let right := narrow sync.log2size lowest (openRange intervals).2
      if right ≤ lowest then pure (Slice.new 0, sync)
      else if view.height < 0 ∨ view.height < view.MIN_HISTORY.toNat then
        pure (Slice.new 0, sync)
      else
        match view.chainHeaders.get (view.height - view.MIN_HISTORY.toNat).toNat with
        | none => .error .nullDeref
        | some pSyncAnchor =>
          let ret : Slice := { Slice.new (view.hash pSyncAnchor) with left := lowest, right }
          pure (ret, sync.request pSyncAnchor ret)

/-! ## Halving -/

theorem toNat_sub_of_le {a b : UInt160} (h : a.toNat ≤ b.toNat) :
    (b - a).toNat = b.toNat - a.toNat := by
  have ha := a.isLt
  have hb := b.isLt
  rw [BitVec.toNat_sub]
  omega

theorem one_le_bound {log2size : ℕ} (hlog : log2size ≤ 158) :
    1 ≤ ((1 : UInt160) <<< sub32 159 log2size).toNat := by
  have hone : (1 : UInt160).toNat = 1 := rfl
  rw [sub32_of_le (by omega) (by omega), BitVec.toNat_shiftLeft, hone, Nat.one_shiftLeft,
    Nat.mod_eq_of_lt (Nat.pow_lt_pow_right (by omega) (by omega))]
  exact Nat.one_le_two_pow

theorem halve_eq_some {lowest bound right right' : UInt160} (hbound : 1 ≤ bound.toNat)
    (hlt : lowest.toNat < right.toNat) (h : halve lowest bound right = some right') :
    lowest.toNat < right'.toNat ∧ right'.toNat ≤ right.toNat ∧
      Nat.log 2 (right' - lowest).toNat < Nat.log 2 (right - lowest).toNat := by
  rw [halve, Option.ite_none_right_eq_some] at h
  obtain ⟨hlong, h⟩ := h
  have hright := right.isLt
  have hdiff := toNat_sub_of_le hlt.le
  rw [gt_iff_lt, BitVec.lt_def, hdiff] at hlong
  have hnew : right'.toNat = lowest.toNat + (right.toNat - lowest.toNat) / 2 := by
    rw [← Option.some.inj h, BitVec.toNat_add, BitVec.toNat_ushiftRight, hdiff,
      Nat.shiftRight_eq_div_pow, pow_one, Nat.mod_eq_of_lt (by omega)]
  refine ⟨by omega, by omega, ?_⟩
  rw [toNat_sub_of_le (by omega), hdiff, hnew, Nat.add_sub_cancel_left, Nat.log_div_base]
  have hpos := Nat.log_pos one_lt_two (show 2 ≤ right.toNat - lowest.toNat by omega)
  omega

/-- The loop ends, and a range of at least two keys stays one. -/
theorem narrow_spec {log2size : ℕ} (hlog : log2size ≤ 158) {lowest right : UInt160}
    (hlt : lowest < right) :
    (lowest < narrow log2size lowest right ∧ narrow log2size lowest right ≤ right) ∧
      halve lowest ((1 : UInt160) <<< sub32 159 log2size) (narrow log2size lowest right) =
        none := by
  simp only [BitVec.lt_def, BitVec.le_def] at hlt ⊢
  refine @whileSome_spec _ _
    (fun r : UInt160 ↦ lowest.toNat < r.toNat ∧ r.toNat ≤ right.toNat)
    (fun r ↦ Nat.log 2 (r - lowest).toNat) (fun r r' hr h ↦ ?_) 160 right ⟨hlt, le_rfl⟩ ?_
  · obtain ⟨hlow, hle, hless⟩ := halve_eq_some (one_le_bound hlog) hr.1 h
    exact ⟨⟨hlow, hle.trans hr.2⟩, hless⟩
  · exact (Nat.log_lt_of_lt_pow' (by decide) (right - lowest).isLt).le

/-! ## The lowest gap -/

/-- The keys from `lo` to `hi` are the lowest that are free. -/
structure LowestGap (K : Set UInt160) (lo hi : UInt160) : Prop where
  below : ∀ k < lo, k ∈ K
  free : ∀ k, lo ≤ k → k ≤ hi → k ∉ K
  above : hi ≠ maxKey → hi + 1 ∈ K

theorem multimapInsert_perm (e : ℕ × Slice) (entries : List (ℕ × Slice)) :
    (multimapInsert e entries).Perm (e :: entries) := by
  rw [multimapInsert]
  refine List.perm_middle.trans ?_
  rw [List.takeWhile_append_dropWhile]

theorem mem_multimapInsert {e e' : ℕ × Slice} {entries : List (ℕ × Slice)} :
    e' ∈ multimapInsert e entries ↔ e' = e ∨ e' ∈ entries := by
  rw [(multimapInsert_perm e entries).mem_iff, List.mem_cons]

theorem mem_foldl_multimapInsert {e : ℕ × Slice} : ∀ (entries all : List (ℕ × Slice)),
    e ∈ entries.foldl (fun all e ↦ multimapInsert e all) all ↔ e ∈ entries ∨ e ∈ all := by
  intro entries
  induction entries with
  | nil => simp
  | cons e' entries ih =>
    intro all
    rw [List.foldl_cons, ih, mem_multimapInsert, List.mem_cons]
    tauto

theorem SliceSync.mem_allSlices {sync : SliceSync} {e : ℕ × Slice} :
    e ∈ sync.allSlices ↔ e ∈ sync.taken := by
  rw [allSlices, mem_foldl_multimapInsert]
  simp

theorem SliceSync.covered_allSlices (sync : SliceSync) :
    covered sync.allSlices = covered sync.taken := by
  simp only [covered, SliceSync.mem_allSlices]

/-- In order, each interval lies below the next. -/
theorem Spread.sort {intervals : List Interval} {K : Set UInt160} (h : Spread intervals K) :
    Spread (sortIntervals intervals) K ∧ (sortIntervals intervals).Pairwise Interval.Below := by
  have hperm : (sortIntervals intervals).Perm intervals := List.perm_insertionSort _ _
  have hnonempty : ∀ it ∈ sortIntervals intervals, it.left ≤ it.right :=
    fun it hit ↦ h.nonempty it (hperm.subset hit)
  have hapart : (sortIntervals intervals).Pairwise fun it it2 ↦ it.Below it2 ∨ it2.Below it :=
    hperm.symm.pairwise h.apart fun hor ↦ hor.symm
  have htotal : Std.Total fun it it2 : Interval ↦ it.left ≤ it2.left :=
    ⟨fun it it2 ↦ Nat.le_total it.left.toNat it2.left.toNat⟩
  have htrans : IsTrans Interval fun it it2 ↦ it.left ≤ it2.left :=
    ⟨fun it it2 it3 ↦ @Nat.le_trans it.left.toNat it2.left.toNat it3.left.toNat⟩
  have hsorted : (sortIntervals intervals).Pairwise fun it it2 ↦ it.left ≤ it2.left :=
    List.pairwise_insertionSort _ _
  refine ⟨⟨hnonempty, fun k ↦ ?_, hapart⟩, ?_⟩
  · rw [h.mem_iff]
    simp only [hperm.mem_iff]
  · refine (hapart.and hsorted).imp_of_mem fun {it it2} hit hit2 hboth ↦ ?_
    have hle := hnonempty it hit
    have hle2 := hnonempty it2 hit2
    simp only [Interval.Below, BitVec.le_def] at hboth hle hle2 ⊢
    omega

section Gap

variable {K : Set UInt160} {it : Interval} {rest : List Interval} {lo hi : UInt160}

theorem Spread.left_le (h : Spread (it :: rest) K) (hbelow : (it :: rest).Pairwise Interval.Below)
    {k : UInt160} (hk : k ∈ K) : it.left.toNat ≤ k.toNat := by
  obtain ⟨it2, hit2, hrange⟩ := (h.mem_iff k).mp hk
  rw [mem_range_iff] at hrange
  rcases List.mem_cons.mp hit2 with rfl | hit2
  · exact hrange.1
  · have hle := h.nonempty it List.mem_cons_self
    have hlow := List.rel_of_pairwise_cons hbelow hit2
    simp only [Interval.Below, BitVec.le_def] at hle hlow
    omega

theorem Spread.mem_of_range (h : Spread (it :: rest) K) {k : UInt160}
    (hleft : it.left.toNat ≤ k.toNat) (hright : k.toNat ≤ it.right.toNat) : k ∈ K :=
  (h.mem_iff k).mpr ⟨it, List.mem_cons_self, hleft, hright⟩

theorem Spread.gap_before (h : Spread (it :: rest) K)
    (hbelow : (it :: rest).Pairwise Interval.Below) (hgap : LowestGap K lo hi)
    (hne : it.left ≠ 0) : lo = 0 ∧ hi = it.left - 1 := by
  have hpos : 1 ≤ it.left.toNat :=
    Nat.one_le_iff_ne_zero.mpr fun hzero ↦ hne (BitVec.eq_of_toNat_eq hzero)
  have hle := h.nonempty it List.mem_cons_self
  have hleft : it.left ∈ K := h.mem_of_range le_rfl hle
  have hlow : lo = 0 := by
    by_contra hlo
    have hzero : (0 : UInt160) ∈ K := hgap.below 0 (BitVec.lt_def.mpr
      (Nat.pos_of_ne_zero fun h0 ↦ hlo (BitVec.eq_of_toNat_eq h0)))
    exact absurd (h.left_le hbelow hzero) (by simp; omega)
  have hhi : hi.toNat < it.left.toNat := by
    by_contra hge
    refine hgap.free it.left ?_ (BitVec.le_def.mpr (by omega)) hleft
    rw [hlow]
    exact Nat.zero_le _
  have hbound := it.left.isLt
  have habove : hi + 1 ∈ K := hgap.above fun hmax ↦ by
    rw [hmax, toNat_maxKey] at hhi
    omega
  have hge := h.left_le hbelow habove
  rw [toNat_add_one (by omega)] at hge
  refine ⟨hlow, BitVec.eq_of_toNat_eq ?_⟩
  rw [toNat_sub_of_le (by exact hpos)]
  show hi.toNat = it.left.toNat - 1
  omega

theorem Spread.gap_behind (h : Spread (it :: rest) K)
    (hbelow : (it :: rest).Pairwise Interval.Below) (hgap : LowestGap K lo hi) (hlt : lo < hi)
    (hzero : it.left = 0) : it.right ≠ maxKey ∧ lo = it.right + 1 := by
  have hfrom : ∀ k : UInt160, it.left.toNat ≤ k.toNat := fun k ↦ by rw [hzero]; exact Nat.zero_le _
  have hlofree : lo ∉ K := hgap.free lo (Nat.le_refl _) (BitVec.le_of_lt hlt)
  have hlow : it.right.toNat < lo.toNat := by
    by_contra hge
    exact hlofree (h.mem_of_range (hfrom lo) (by omega))
  have hbound := lo.isLt
  have hsucc : (it.right + 1).toNat = it.right.toNat + 1 := toNat_add_one (by omega)
  have hnext : it.right + 1 ∉ K := by
    intro hmem
    obtain ⟨it2, hit2, hrange⟩ := (h.mem_iff _).mp hmem
    rw [mem_range_iff, hsucc] at hrange
    rcases List.mem_cons.mp hit2 with rfl | hit2
    · omega
    · have hapart := List.rel_of_pairwise_cons hbelow hit2
      rw [Interval.Below] at hapart
      omega
  refine ⟨fun hmax ↦ ?_, BitVec.eq_of_toNat_eq ?_⟩
  · rw [hmax, toNat_maxKey] at hlow
    omega
  · by_contra hne
    exact hnext (hgap.below _ (BitVec.lt_def.mpr (by omega)))

/-- The range that `GetSlice` starts from: the lowest gap if it is at key zero, and everything from
the gap on if not. -/
theorem Spread.openRange_eq {intervals : List Interval} (h : Spread intervals K)
    (hbelow : intervals.Pairwise Interval.Below) (hgap : LowestGap K lo hi) (hlt : lo < hi) :
    (openRange intervals).1 = lo ∧ (0 ∈ K → (openRange intervals).2 = maxKey) ∧
      (0 ∉ K → (openRange intervals).2 = hi) := by
  rcases intervals with _ | ⟨it, rest⟩
  · have hempty : ∀ k, k ∉ K := fun k hk ↦ by simpa using (h.mem_iff k).mp hk
    refine ⟨?_, fun hzero ↦ absurd hzero (hempty 0), fun _ ↦ ?_⟩
    · by_contra hlo
      exact hempty 0 (hgap.below 0 (BitVec.lt_def.mpr
        (Nat.pos_of_ne_zero fun h0 ↦ hlo (BitVec.eq_of_toNat_eq h0.symm))))
    · by_contra hhi
      exact hempty _ (hgap.above fun hmax ↦ hhi hmax.symm)
  · by_cases hzero : it.left = 0
    · obtain ⟨-, hlo⟩ := h.gap_behind hbelow hgap hlt hzero
      have hmem : (0 : UInt160) ∈ K := h.mem_of_range (by rw [hzero]) (Nat.zero_le _)
      refine ⟨?_, fun _ ↦ ?_, fun hnot ↦ absurd hmem hnot⟩
      · simp [openRange, hzero, hlo]
      · rw [openRange, if_neg (not_not.mpr hzero), hzero]
        split <;> rfl
    · obtain ⟨rfl, rfl⟩ := h.gap_before hbelow hgap hzero
      refine ⟨?_, fun hmem ↦ ?_, fun _ ↦ ?_⟩
      · rw [openRange, if_pos hzero]
      · exact absurd (h.left_le hbelow hmem) (Nat.not_le.mpr
          (Nat.pos_of_ne_zero fun h0 ↦ hzero (BitVec.eq_of_toNat_eq h0)))
      · rw [openRange, if_pos hzero]

end Gap

/-! ## The slice -/

section GetSlice

variable {view : SyncView} {sync : SliceSync} {tip : ℕ}

/-- A range of at least two keys is asked for, at the anchor. -/
theorem exists_getSlice (hchain : view.chainHeaders = view.tree.chainTo (some tip))
    (hlong : view.MIN_HISTORY.toNat ≤ view.tree.nHeight tip) {id : ℕ} (hbans : id ∉ sync.bans)
    (hlog : sync.log2size ≤ 158) {atEnd : Exec Interval} {first : Interval}
    (hfirst : (sortIntervals (getIntervals sync.allSlices)).head?.elim atEnd .ok = .ok first)
    (hopen : ¬(first.right = maxKey ∧ first.left = 0)) {lowest right : UInt160}
    (hrange : openRange (sortIntervals (getIntervals sync.allSlices)) = (lowest, right))
    (hlt : lowest < right) :
    ∃ slice p, view.getSlice atEnd sync id = .ok (slice, sync.request p slice) ∧
      slice.left = lowest ∧ slice.right = narrow sync.log2size lowest right := by
  have hheight : view.height = view.tree.nHeight tip := by
    rw [SyncView.height, hchain, HeaderTree.length_chainTo]
    omega
  obtain ⟨p, hp⟩ : ∃ p, view.chainHeaders.get (view.height - view.MIN_HISTORY.toNat).toNat
      = some p := by
    rw [hchain]
    exact HeaderTree.exists_get_chainTo (by rw [hheight]; omega)
  have hnarrow := (narrow_spec hlog hlt).1.1
  have hhigh : ¬(view.height < 0 ∨ view.height < view.MIN_HISTORY.toNat) := by
    rw [hheight]
    omega
  let ret : Slice := ⟨view.hash p, lowest, narrow sync.log2size lowest right, []⟩
  refine ⟨ret, p, ?_, rfl, rfl⟩
  rw [SyncView.getSlice, if_neg hbans]
  simp only [hfirst, hrange, bind, Except.bind, if_neg hopen, if_neg hhigh,
    if_neg (BitVec.not_le.mpr hnarrow), hp]
  rfl

/-- Where something is asked for, the anchor is `MIN_HISTORY` below the tip. -/
theorem anchor_of_getSlice {atEnd : Exec Interval} {id p : ℕ} {slice : Slice}
    (h : view.getSlice atEnd sync id = .ok (slice, sync.request p slice)) :
    view.MIN_HISTORY.toNat ≤ view.height ∧
      view.chainHeaders.get (view.height - view.MIN_HISTORY.toNat).toNat = some p := by
  have hperm := multimapInsert_perm (p, slice) sync.slicesRequested
  have hidle : ∀ ret : Slice, (ret, sync) ≠ (slice, sync.request p slice) := by
    intro ret heq
    have hlength := congrArg (fun r : Slice × SliceSync ↦ r.2.slicesRequested.length) heq
    simp only [SliceSync.request, hperm.length_eq, List.length_cons] at hlength
    omega
  rw [SyncView.getSlice] at h
  split at h
  · exact absurd (Except.ok.inj h) (hidle _)
  · obtain ⟨first, -, h⟩ := Except.bind_eq_ok_iff.mp h
    split at h
    · exact absurd (Except.ok.inj h) (hidle _)
    · dsimp only at h
      split at h
      · exact absurd (Except.ok.inj h) (hidle _)
      · split at h
        · exact absurd (Except.ok.inj h) (hidle _)
        · next hhigh =>
          rw [not_or, not_lt, not_lt] at hhigh
          refine ⟨hhigh.2, ?_⟩
          split at h
          · cases h
          · next p' hp' =>
            obtain ⟨rfl, hrequest⟩ := Prod.mk.inj (Except.ok.inj h)
            -- the same list with one entry more, so it is the same entry
            have hsame := (multimapInsert_perm _ _).symm.trans
              ((List.Perm.of_eq (congrArg (fun s : SliceSync ↦ s.slicesRequested) hrequest)).trans
                hperm)
            rw [← Multiset.coe_eq_coe, ← Multiset.cons_coe, ← Multiset.cons_coe,
              Multiset.cons_inj_left, Prod.mk.injEq] at hsame
            rw [hp', hsame.1]

theorem SliceSync.spread_taken (hslices : ∀ e ∈ sync.taken, e.2.left ≤ e.2.right) :
    Spread (sortIntervals (getIntervals sync.allSlices)) (covered sync.taken) ∧
      (sortIntervals (getIntervals sync.allSlices)).Pairwise Interval.Below := by
  obtain ⟨hspread, -⟩ := spread_getIntervals fun e he ↦ hslices e (SliceSync.mem_allSlices.mp he)
  rw [SliceSync.covered_allSlices] at hspread
  exact hspread.sort

theorem SliceSync.sortIntervals_eq_nil_iff (hslices : ∀ e ∈ sync.taken, e.2.left ≤ e.2.right) :
    sortIntervals (getIntervals sync.allSlices) = [] ↔ sync.taken = [] := by
  constructor
  · intro hnil
    by_contra hne
    obtain ⟨e, he⟩ := List.exists_mem_of_ne_nil _ hne
    have hmem : e.2.left ∈ covered sync.taken := ⟨e, he, Nat.le_refl _, hslices e he⟩
    have hspread := (SliceSync.spread_taken hslices).1
    rw [hnil] at hspread
    simpa using (hspread.mem_iff _).mp hmem
  · intro hempty
    rw [SliceSync.allSlices, hempty]
    rfl

/-- There is a first interval, and it does not have all keys: if nothing is taken, that is up to
what is read in its place. -/
theorem exists_first_iff (hslices : ∀ e ∈ sync.taken, e.2.left ≤ e.2.right) {lo hi : UInt160}
    (hgap : LowestGap (covered sync.taken) lo hi) (hlt : lo < hi) (atEnd : Exec Interval) :
    (∃ first, (sortIntervals (getIntervals sync.allSlices)).head?.elim atEnd .ok = .ok first ∧
      ¬(first.right = maxKey ∧ first.left = 0)) ↔
    (sync.taken = [] → ∃ it, atEnd = .ok it ∧ ¬(it.right = maxKey ∧ it.left = 0)) := by
  obtain ⟨hspread, hbelow⟩ := SliceSync.spread_taken hslices
  rw [← SliceSync.sortIntervals_eq_nil_iff hslices]
  generalize sortIntervals (getIntervals sync.allSlices) = intervals at hspread hbelow ⊢
  rcases intervals with _ | ⟨it, rest⟩
  · exact ⟨fun h _ ↦ h, fun h ↦ h rfl⟩
  · refine ⟨fun _ hnil ↦ absurd hnil (List.cons_ne_nil _ _), fun _ ↦ ⟨it, rfl, fun hfull ↦ ?_⟩⟩
    exact (hspread.gap_behind hbelow hgap hlt hfull.2).1 hfull.1

theorem first_of_getSlice {id : ℕ} (hbans : id ∉ sync.bans) {atEnd : Exec Interval} {slice : Slice}
    {sync' : SliceSync} (h : view.getSlice atEnd sync id = .ok (slice, sync'))
    (hlt : slice.left < slice.right) :
    ∃ first, (sortIntervals (getIntervals sync.allSlices)).head?.elim atEnd .ok = .ok first ∧
      ¬(first.right = maxKey ∧ first.left = 0) := by
  rw [SyncView.getSlice, if_neg hbans] at h
  obtain ⟨first, hfirst, h⟩ := Except.bind_eq_ok_iff.mp h
  refine ⟨first, hfirst, fun hfull ↦ ?_⟩
  rw [if_pos hfull] at h
  cases h
  exact absurd hlt (Nat.lt_irrefl 0)

/-- The range that is asked for begins where the lowest gap does, and goes on to the end of the gap
or, if there is an interval at key zero, of all keys. The halving decides what remains of it. -/
theorem exists_getSlice_of_gap (hchain : view.chainHeaders = view.tree.chainTo (some tip))
    (hlong : view.MIN_HISTORY.toNat ≤ view.tree.nHeight tip) {id : ℕ} (hbans : id ∉ sync.bans)
    (hlog : sync.log2size ≤ 158) (hslices : ∀ e ∈ sync.taken, e.2.left ≤ e.2.right)
    {lo hi : UInt160} (hgap : LowestGap (covered sync.taken) lo hi) (hlt : lo < hi)
    {atEnd : Exec Interval} {first : Interval}
    (hfirst : (sortIntervals (getIntervals sync.allSlices)).head?.elim atEnd .ok = .ok first)
    (hopen : ¬(first.right = maxKey ∧ first.left = 0)) :
    ∃ slice sync' right, view.getSlice atEnd sync id = .ok (slice, sync') ∧ slice.left = lo ∧
      slice.right = narrow sync.log2size lo right ∧ lo < right ∧
      (0 ∈ covered sync.taken → right = maxKey) ∧ (0 ∉ covered sync.taken → right = hi) := by
  obtain ⟨hspread, hbelow⟩ := SliceSync.spread_taken hslices
  obtain ⟨hlowest, hzero, hnonzero⟩ := hspread.openRange_eq hbelow hgap hlt
  have hright : lo < (openRange (sortIntervals (getIntervals sync.allSlices))).2 := by
    by_cases h0 : 0 ∈ covered sync.taken
    · rw [hzero h0]
      exact Nat.lt_of_lt_of_le hlt (le_maxKey hi)
    · rw [hnonzero h0]
      exact hlt
  obtain ⟨slice, p, hslice, hleft, hend⟩ :=
    exists_getSlice hchain hlong hbans hlog hfirst hopen (Prod.ext hlowest rfl) hright
  exact ⟨slice, _, _, hslice, hleft, hend, hright, hzero, hnonzero⟩

/-- **Gap selection.** For a peer that is not banned, `GetSlice` returns a range inside the lowest
gap, if the gap has two keys, but for two cases. If nothing is held or asked for, it has read an
interval that is not there. If the gap is not the one at key zero and there is an interval behind
it, the range must end up inside by the halving alone. -/
theorem getSlice_in_gap_iff (hchain : view.chainHeaders = view.tree.chainTo (some tip))
    (hlong : view.MIN_HISTORY.toNat ≤ view.tree.nHeight tip) {id : ℕ} (hbans : id ∉ sync.bans)
    (hlog : sync.log2size ≤ 158) (hslices : ∀ e ∈ sync.taken, e.2.left ≤ e.2.right)
    {lo hi : UInt160} (hgap : LowestGap (covered sync.taken) lo hi) (hlt : lo < hi)
    (atEnd : Exec Interval) :
    (∃ slice sync', view.getSlice atEnd sync id = .ok (slice, sync') ∧
      lo ≤ slice.left ∧ slice.left < slice.right ∧ slice.right ≤ hi) ↔
    ((sync.taken = [] → ∃ it, atEnd = .ok it ∧ ¬(it.right = maxKey ∧ it.left = 0)) ∧
      (0 ∈ covered sync.taken → hi ≠ maxKey → narrow sync.log2size lo maxKey ≤ hi)) := by
  rw [← exists_first_iff hslices hgap hlt atEnd]
  constructor
  · rintro ⟨slice, sync', hslice, -, hless, hle⟩
    obtain ⟨first, hfirst, hopen⟩ := first_of_getSlice hbans hslice hless
    refine ⟨⟨first, hfirst, hopen⟩, fun h0 _ ↦ ?_⟩
    obtain ⟨slice', _, right, hslice', -, hend, -, hzero, -⟩ :=
      exists_getSlice_of_gap hchain hlong hbans hlog hslices hgap hlt hfirst hopen
    obtain ⟨rfl, -⟩ := Prod.mk.inj (Except.ok.inj (hslice'.symm.trans hslice))
    rwa [hend, hzero h0] at hle
  · rintro ⟨⟨first, hfirst, hopen⟩, hinside⟩
    obtain ⟨slice, sync', right, hslice, hleft, hend, hright, hzero, hnonzero⟩ :=
      exists_getSlice_of_gap hchain hlong hbans hlog hslices hgap hlt hfirst hopen
    obtain ⟨⟨hlow, hhigh⟩, -⟩ := narrow_spec hlog hright
    refine ⟨slice, sync', hslice, hleft ▸ Nat.le_refl _, ?_, ?_⟩
    · rw [hleft, hend]
      exact hlow
    · rw [hend]
      by_cases h0 : 0 ∈ covered sync.taken
      · by_cases hmax : hi = maxKey
        · rw [hmax]
          exact le_maxKey _
        · rw [hzero h0]
          exact hinside h0 hmax
      · rwa [hnonzero h0] at hhigh ⊢

/-- A header chain of two blocks, of which one is history. -/
def twoHeaders : SyncView where
  tree := { pprev := fun p ↦ if p = 0 then none else some (p - 1), nHeight := id
            nChainWork := fun _ ↦ 0, nSequenceId := fun _ ↦ 0
            height_step := fun {p q} h ↦ by
              rw [Option.ite_none_left_eq_some] at h
              have hq := Option.some.inj h.2
              simp only [id]
              omega
            height_root := fun {p} h ↦ by
              by_contra hne
              exact absurd ((if_neg hne).symm.trans h) (by simp) }
  chainHeaders := ⟨[some 0, some 1]⟩
  hash := fun p ↦ BitVec.ofNat 256 p
  MIN_HISTORY := 1

def holding (ranges : List (UInt160 × UInt160)) : SliceSync :=
  { log2size := 0, slicesRequested := [], slices := slicesOf ranges, bans := [] }

theorem mem_covered_holding {ranges : List (UInt160 × UInt160)} {k : UInt160} :
    k ∈ covered (holding ranges).taken ↔ ∃ r ∈ ranges, r.1 ≤ k ∧ k ≤ r.2 := by
  rw [SliceSync.taken, holding, List.append_nil, mem_covered_slicesOf]

/-- The gap at key zero is asked for. -/
theorem getSlice_in_gap_lower : ∃ slice sync',
    twoHeaders.getSlice (.error .nullDeref) (holding [(20, 30)]) 7 = .ok (slice, sync') ∧
      0 ≤ slice.left ∧ slice.left < slice.right ∧ slice.right ≤ 19 := by
  have hgap : LowestGap (covered (holding [(20, 30)]).taken) 0 19 := by
    refine ⟨fun k hk ↦ absurd hk (Nat.not_lt_zero _), fun k _ hk ↦ ?_, fun _ ↦ ?_⟩
    · rw [mem_covered_holding]
      rintro ⟨r, hr, hleft, -⟩
      obtain rfl := List.mem_singleton.mp hr
      exact absurd (Nat.le_trans hleft hk) (by decide)
    · rw [mem_covered_holding]
      decide
  refine (@getSlice_in_gap_iff twoHeaders _ 1 rfl (by decide) _ (by decide) (by decide)
    (by decide) _ _ hgap (by decide) _).mpr ⟨fun h ↦ absurd h (by decide), fun h0 ↦ ?_⟩
  rw [mem_covered_holding] at h0
  exact absurd h0 (by decide)

/-- Behind an interval at key zero it is not: the range goes over the next interval. -/
theorem getSlice_over_interval :
    LowestGap (covered (holding [(0, 9), (20, 30)]).taken) 10 19 ∧
      (twoHeaders.getSlice (.error .nullDeref) (holding [(0, 9), (20, 30)]) 7).map
        (fun r ↦ (r.1.left, r.1.right)) = .ok (10, (1 : UInt160) <<< 159 + 4) ∧
      20 ∈ covered (holding [(0, 9), (20, 30)]).taken := by
  refine ⟨⟨fun k hk ↦ ?_, fun k hlow hk ↦ ?_, fun _ ↦ ?_⟩, by decide +kernel, ?_⟩
  · rw [mem_covered_holding]
    exact ⟨(0, 9), by simp, Nat.zero_le _, Nat.le_of_lt_succ hk⟩
  · rw [mem_covered_holding]
    rintro ⟨r, hr, hleft, hright⟩
    rcases List.mem_pair.mp hr with rfl | rfl
    · exact absurd (Nat.le_trans hlow hright) (by decide)
    · exact absurd (Nat.le_trans hleft hk) (by decide)
  · rw [mem_covered_holding]
    decide
  · rw [mem_covered_holding]
    decide

end GetSlice

end Cryptonite
