import Cryptonite.Net.AddrFile

/-!
# Writing the address manager and reading it again

A manager that is written and read again has new ids, but the same entries in the same new buckets:
`mapUnkIds` numbers the new entries, so that a bucket in the file is the image of the bucket in
memory, and an entry is in as many of them as before. While the file is read, the index, the buckets
and the counters are kept up as by the other calls (`Loading`).
-/

namespace Cryptonite

open Buckets Function TreeMap

/-! ## What is written -/

def newEntries (entries : List (ℤ × AddrInfo)) : List (ℤ × AddrInfo) :=
  entries.filter fun entry ↦ entry.2.nRefCount ≠ 0

/-- The new entries are written, and each is numbered by its place among them. -/
theorem indexNew_spec {nNew nIds : ℤ} {mapUnkIds : ℤ → ℤ} {entries : List (ℤ × AddrInfo)}
    (hkeys : (entries.map Prod.fst).Nodup) (hcount : nNew = nIds + (newEntries entries).length) :
    (indexNew nNew entries nIds mapUnkIds).1 = (newEntries entries).map Prod.snd ∧
      (∀ (n : ℕ) nId info, (newEntries entries)[n]? = some (nId, info) →
        (indexNew nNew entries nIds mapUnkIds).2 nId = nIds + n) ∧
      ∀ nId, nId ∉ entries.map Prod.fst →
        (indexNew nNew entries nIds mapUnkIds).2 nId = mapUnkIds nId := by
  induction entries generalizing nIds mapUnkIds with
  | nil => exact ⟨rfl, fun n nId info h ↦ absurd h (by simp [newEntries]), fun _ _ ↦ rfl⟩
  | cons entry entries ih =>
    obtain ⟨nId, info⟩ := entry
    rw [List.map_cons, List.nodup_cons] at hkeys
    rw [indexNew]
    split
    · next hdone =>
      -- all have been written
      have hnil : newEntries ((nId, info) :: entries) = [] :=
        List.eq_nil_of_length_eq_zero (by omega)
      rw [hnil]
      exact ⟨rfl, fun n nId info h ↦ absurd h (by simp), fun _ _ ↦ rfl⟩
    · by_cases hrefs : info.nRefCount = 0
      · have hskip : newEntries ((nId, info) :: entries) = newEntries entries :=
          List.filter_cons_of_neg (by simp [hrefs])
        rw [hskip] at hcount ⊢
        simp only [ne_eq, hrefs, not_true_eq_false, if_false]
        obtain ⟨hinfos, hids, hother⟩ := @ih _ (update mapUnkIds nId nIds) hkeys.2 hcount
        refine ⟨hinfos, hids, fun y hy ↦ ?_⟩
        rw [List.map_cons, List.mem_cons, not_or] at hy
        rw [hother y hy.2, update_of_ne hy.1]
      · have htake : newEntries ((nId, info) :: entries) = (nId, info) :: newEntries entries :=
          List.filter_cons_of_pos (by simp [hrefs])
        rw [htake] at hcount ⊢
        rw [List.length_cons] at hcount
        simp only [ne_eq, hrefs, not_false_eq_true, if_true]
        obtain ⟨hinfos, hids, hother⟩ := @ih (nIds + 1) (update mapUnkIds nId nIds) hkeys.2
          (by push_cast at hcount; omega)
        refine ⟨by rw [hinfos]; rfl, fun n y info' hn ↦ ?_, fun y hy ↦ ?_⟩
        · rcases n with _ | n
          · cases hn
            rw [hother nId hkeys.1, update_self, Nat.cast_zero, add_zero]
          · rw [hids n y info' hn]
            push_cast
            ring
        · rw [List.map_cons, List.mem_cons, not_or] at hy
          rw [hother y hy.2, update_of_ne hy.1]

def triedEntries (entries : List (ℤ × AddrInfo)) : List (ℤ × AddrInfo) :=
  entries.filter fun entry ↦ entry.2.fInTried

theorem listTried_eq {nTried nIds : ℤ} {entries : List (ℤ × AddrInfo)}
    (hcount : nTried = nIds + (triedEntries entries).length) :
    listTried nTried entries nIds = (triedEntries entries).map Prod.snd := by
  induction entries generalizing nIds with
  | nil => rfl
  | cons entry entries ih =>
    obtain ⟨nId, info⟩ := entry
    rw [listTried]
    split
    · next hdone =>
      have hnil : triedEntries ((nId, info) :: entries) = [] :=
        List.eq_nil_of_length_eq_zero (by omega)
      rw [hnil]
      rfl
    · by_cases htried : info.fInTried = true
      · have htake : triedEntries ((nId, info) :: entries) = (nId, info) :: triedEntries entries :=
          List.filter_cons_of_pos (by simp [htried])
        rw [htake, List.length_cons] at hcount
        rw [if_pos htried, htake, List.map_cons, ih (by push_cast at hcount; omega)]
      · have hskip : triedEntries ((nId, info) :: entries) = triedEntries entries :=
          List.filter_cons_of_neg (by simp [htried])
        rw [hskip] at hcount
        rw [if_neg htried, hskip, ih hcount]

/-! ## What is read -/

namespace AddrMan

/-- A manager in the course of being read: the first `nNew` entries are new, and the other ones are
those that were tried. -/
structure Loading (am : AddrMan) (nIdCount nNew nTried : ℤ) : Prop where
  indexed : Indexed (slots am.mapInfo) am.mapAddr am.vRandom nIdCount
  filed : Filed (files am.mapInfo) am.vvTried am.vvNew Set.univ none
  new_iff : ∀ id, (∃ n, files am.mapInfo id = some (false, n)) ↔ 0 ≤ id ∧ id < nNew
  new_eq : countOf false am.mapInfo = nNew
  tried_eq : countOf true am.mapInfo = nTried

variable {base : NetBase} {am : AddrMan} {nIdCount nNew nTried n : ℤ} {info : AddrInfo}
  {b : Fin ADDRMAN_NEW_BUCKET_COUNT}

/-- The key and the counters are those that were read at first. -/
structure Frame (am am' : AddrMan) : Prop where
  nKey : am'.nKey = am.nKey
  nNew : am'.nNew = am.nNew
  nTried : am'.nTried = am.nTried

theorem Frame.trans {am am' am'' : AddrMan} (h : Frame am am') (h' : Frame am' am'') :
    Frame am am'' :=
  ⟨h'.nKey.trans h.nKey, h'.nNew.trans h.nNew, h'.nTried.trans h.nTried⟩

theorem readNew_eq (base : NetBase) (am : AddrMan) (n : ℤ) (info : AddrInfo) :
    am.readNew base ADDRMAN_NEW_BUCKET_COUNT n info = AddrMan.setInfo { am with
      mapAddr := update am.mapAddr info.ip (some n)
      vRandom := am.vRandom ++ [n] } n { info with nRandomPos := some am.vRandom.length } := by
  rw [readNew, if_neg (not_not.mpr rfl)]

theorem Loading.readNew (base : NetBase) (h : am.Loading n n nTried)
    (hip : am.mapAddr info.ip = none) (htried : info.fInTried = false)
    (hrefs : info.nRefCount = 0) :
    (am.readNew base ADDRMAN_NEW_BUCKET_COUNT n info).Loading (n + 1) (n + 1) nTried := by
  have hnone : am.mapInfo[n]? = none := Option.map_eq_none_iff.mp h.indexed.fresh
  have hfile : files am.mapInfo n = none := by rw [files, hnone, Option.map_none]
  rw [readNew_eq]
  refine ⟨?_, ?_, fun id ↦ ?_, ?_, ?_⟩
  · simp only [setInfo, slots_insert]
    exact h.indexed.push hip
  · simp only [setInfo, files_insert, htried, hrefs]
    exact (h.filed.insert_loose hfile).tighten fun _ _ _ _ ↦ Set.mem_univ _
  · simp only [setInfo, files_insert, htried]
    by_cases hid : id = n
    · subst hid
      rw [update_self]
      exact ⟨fun _ ↦ ⟨h.indexed.nonneg, Int.lt_succ id⟩, fun _ ↦ ⟨info.nRefCount, rfl⟩⟩
    · rw [update_of_ne hid, h.new_iff]
      omega
  · simp only [setInfo, countOf_insert, hfile, htried, h.new_eq]
    simp [weight]
  · simp only [setInfo, countOf_insert, hfile, htried, h.tried_eq]
    simp [weight]

theorem Loading.loadNew (base : NetBase) {infos : List AddrInfo} (h : am.Loading n n nTried)
    (hips : (infos.map fun info ↦ info.ip).Nodup)
    (hfree : ∀ info ∈ infos, am.mapAddr info.ip = none)
    (hblank : ∀ info ∈ infos, info.fInTried = false ∧ info.nRefCount = 0) :
    ∃ am', loadNew base ADDRMAN_NEW_BUCKET_COUNT n infos am = am' ∧
      am'.Loading (n + infos.length) (n + infos.length) nTried ∧ Frame am am' ∧
      am'.vvNew = am.vvNew ∧
      ∀ ip, ip ∉ infos.map (fun info ↦ info.ip) → am'.mapAddr ip = am.mapAddr ip := by
  induction infos generalizing am n with
  | nil =>
    refine ⟨am, rfl, ?_, ⟨rfl, rfl, rfl⟩, rfl, fun _ _ ↦ rfl⟩
    rwa [List.length_nil, Nat.cast_zero, add_zero]
  | cons info infos ih =>
    rw [List.map_cons, List.nodup_cons] at hips
    rw [List.forall_mem_cons] at hfree hblank
    have haddr : (am.readNew base ADDRMAN_NEW_BUCKET_COUNT n info).mapAddr =
        update am.mapAddr info.ip (some n) := by rw [readNew_eq]; rfl
    have hfree' : ∀ info' ∈ infos,
        (am.readNew base ADDRMAN_NEW_BUCKET_COUNT n info).mapAddr info'.ip = none := by
      intro info' hinfo'
      have hne : info'.ip ≠ info.ip := fun heq ↦ hips.1 (heq ▸ List.mem_map_of_mem hinfo')
      rw [haddr, update_of_ne hne, hfree.2 info' hinfo']
    obtain ⟨am', hrun, h', hframe, hnew, hother⟩ := ih
      (h.readNew base hfree.1 hblank.1.1 hblank.1.2) hips.2 hfree' hblank.2
    refine ⟨am', hrun, ?_, ?_, ?_, fun ip hip ↦ ?_⟩
    · rwa [List.length_cons, Nat.cast_succ, add_comm (infos.length : ℤ), ← add_assoc]
    · exact Frame.trans (by rw [readNew_eq]; exact ⟨rfl, rfl, rfl⟩) hframe
    · rw [hnew, readNew_eq]
      rfl
    · rw [List.map_cons, List.mem_cons, not_or] at hip
      rw [hother ip hip.2, haddr, update_of_ne hip.1]

theorem Loading.pushTried (h : am.Loading am.nIdCount nNew nTried)
    (hip : am.mapAddr info.ip = none) (hrefs : info.nRefCount = 0)
    {k : Fin ADDRMAN_TRIED_BUCKET_COUNT} (hle : nNew ≤ am.nIdCount)
    (hsize : (am.vvTried k).length < ADDRMAN_TRIED_BUCKET_SIZE) : Loading { am with
      vRandom := am.vRandom ++ [am.nIdCount]
      mapInfo := am.mapInfo.insert am.nIdCount
        { info with nRandomPos := some am.vRandom.length, fInTried := true }
      mapAddr := update am.mapAddr info.ip (some am.nIdCount)
      vvTried := update am.vvTried k (am.vvTried k ++ [am.nIdCount])
      nIdCount := am.nIdCount + 1 } (am.nIdCount + 1) nNew (nTried + 1) := by
  have hnone : am.mapInfo[am.nIdCount]? = none := Option.map_eq_none_iff.mp h.indexed.fresh
  have hfile : files am.mapInfo am.nIdCount = none := by rw [files, hnone, Option.map_none]
  refine ⟨?_, ?_, fun id ↦ ?_, ?_, ?_⟩
  · simp only [slots_insert]
    exact h.indexed.push hip
  · -- it is loose at first, and then put into the bucket
    have hpush := (h.filed.insert_loose hfile).pushTried (update_self _ _ _) hsize
    rw [update_idem] at hpush
    simp only [files_insert, hrefs]
    exact hpush.tighten fun _ _ _ _ ↦ Set.mem_univ _
  · simp only [files_insert]
    by_cases hid : id = am.nIdCount
    · subst hid
      rw [update_self]
      constructor
      · rintro ⟨n, hn⟩
        cases hn
      · exact fun hlt ↦ absurd hle (not_le.mpr hlt.2)
    · rw [update_of_ne hid, h.new_iff]
  · simp only [countOf_insert, hfile, h.new_eq]
    simp [weight]
  · simp only [countOf_insert, hfile, h.tried_eq]
    simp [weight]

/-- The tried entries are read; some of them may be lost. -/
theorem Loading.loadTried (base : NetBase) {infos : List AddrInfo}
    (h : am.Loading am.nIdCount nNew nTried) (hips : (infos.map fun info ↦ info.ip).Nodup)
    (hfree : ∀ info ∈ infos, am.mapAddr info.ip = none)
    (hblank : ∀ info ∈ infos, info.nRefCount = 0) (hle : nNew ≤ am.nIdCount)
    (hlt : am.nIdCount + infos.length < 2 ^ 31) (nLost : ℤ) :
    ∃ am' placed, loadTried base infos am nLost = .ok (am', nLost + infos.length - placed) ∧
      am'.Loading am'.nIdCount nNew (nTried + placed) ∧ Frame am am' ∧ am'.vvNew = am.vvNew ∧
      am'.nIdCount = am.nIdCount + placed ∧ placed ≤ infos.length := by
  induction infos generalizing am nTried nLost with
  | nil =>
    refine ⟨am, 0, ?_, by rwa [add_zero], ⟨rfl, rfl, rfl⟩, rfl, (add_zero _).symm, le_rfl⟩
    rw [AddrMan.loadTried, List.length_nil, Nat.cast_zero, add_zero, sub_zero]
  | cons info infos ih =>
    rw [List.map_cons, List.nodup_cons] at hips
    rw [List.forall_mem_cons] at hfree hblank
    rw [List.length_cons, Nat.cast_succ] at hlt
    rw [AddrMan.loadTried]
    split
    · next hsize =>
      have hstep := h.pushTried hfree.1 hblank.1 hle hsize
      have hfree' : ∀ info' ∈ infos,
          update am.mapAddr info.ip (some am.nIdCount) info'.ip = none := by
        intro info' hinfo'
        have hne : info'.ip ≠ info.ip := fun heq ↦ hips.1 (heq ▸ List.mem_map_of_mem hinfo')
        rw [update_of_ne hne, hfree.2 info' hinfo']
      obtain ⟨am', placed, hrun, h', hframe, hnew, hcount, hplaced⟩ := ih hstep hips.2 hfree'
        hblank.2 (hle.trans (Int.lt_succ _).le) (by change am.nIdCount + 1 + _ < _; omega) nLost
      refine ⟨am', placed + 1, ?_, ?_, ⟨hframe.nKey, hframe.nNew, hframe.nTried⟩, hnew, ?_, ?_⟩
      · have hinc : incInt am.nIdCount = .ok (am.nIdCount + 1) := if_neg (by omega)
        simp only [hinc, bind, Except.bind]
        refine hrun.trans ?_
        rw [List.length_cons, Nat.cast_succ]
        congr 2
        ring
      · rwa [add_comm placed, ← add_assoc]
      · rw [hcount]
        ring
      · rw [List.length_cons, Nat.cast_succ]
        omega
    · obtain ⟨am', placed, hrun, h', hframe, hnew, hcount, hplaced⟩ := ih h hips.2 hfree.2 hblank.2
        hle (by omega) (nLost + 1)
      refine ⟨am', placed, ?_, h', hframe, hnew, hcount, ?_⟩
      · rw [hrun, List.length_cons, Nat.cast_succ]
        congr 2
        ring
      · rw [List.length_cons, Nat.cast_succ]
        omega

theorem Loading.readIndex (h : am.Loading nIdCount nNew nTried) (hn : 0 ≤ n ∧ n < nNew)
    (hmem : n ∉ am.vvNew b) (hsize : (am.vvNew b).card < ADDRMAN_NEW_BUCKET_SIZE)
    (hdegree : degree am.vvNew n < ADDRMAN_NEW_BUCKETS_PER_ADDRESS) :
    (am.readIndex ADDRMAN_NEW_BUCKET_COUNT b n).Loading nIdCount nNew nTried ∧
      Frame am (am.readIndex ADDRMAN_NEW_BUCKET_COUNT b n) ∧
      (am.readIndex ADDRMAN_NEW_BUCKET_COUNT b n).nIdCount = am.nIdCount ∧
      (am.readIndex ADDRMAN_NEW_BUCKET_COUNT b n).vvNew =
        update am.vvNew b (insert n (am.vvNew b)) := by
  obtain ⟨nRefCount, hfile⟩ := (h.new_iff n).mpr hn
  obtain ⟨info, hget, htried, rfl⟩ := exists_get_of_files hfile
  have hlt : info.nRefCount < ADDRMAN_NEW_BUCKETS_PER_ADDRESS :=
    (h.filed.refs_eq hfile).trans_lt hdegree
  have hplace := (h.filed.hold hfile hlt).place (update_self _ _ _) hmem hsize
  have hread : am.readIndex ADDRMAN_NEW_BUCKET_COUNT b n =
      { am.setInfo n { info with nRefCount := info.nRefCount + 1 } with
        vvNew := update am.vvNew b (insert n (am.vvNew b)) } := by
    simp only [AddrMan.readIndex, hget, Option.getD_some, if_pos (And.intro trivial hlt)]
  rw [hread]
  refine ⟨⟨?_, ?_, fun id ↦ ?_, ?_, ?_⟩, ⟨rfl, rfl, rfl⟩, rfl, rfl⟩
  · exact slots_insert_of_same hget { info with nRefCount := info.nRefCount + 1 } rfl rfl ▸
      h.indexed
  · simp only [setInfo, files_insert, htried]
    exact hplace.tighten fun _ _ _ _ ↦ Set.mem_univ _
  · simp only [setInfo, files_insert, htried]
    by_cases hid : id = n
    · subst hid
      rw [update_self]
      exact ⟨fun _ ↦ hn, fun _ ↦ ⟨_, rfl⟩⟩
    · rw [update_of_ne hid, h.new_iff]
  · refine Eq.trans ?_ h.new_eq
    exact countOf_insert_of_same hget { info with nRefCount := info.nRefCount + 1 } rfl false
  · refine Eq.trans ?_ h.tried_eq
    exact countOf_insert_of_same hget { info with nRefCount := info.nRefCount + 1 } rfl true

/-- Buckets that the new entries of a file can be in. -/
structure Fits (buckets : Fin ADDRMAN_NEW_BUCKET_COUNT → Finset ℤ) (nNew : ℤ) : Prop where
  bounds : ∀ b, ∀ n ∈ buckets b, 0 ≤ n ∧ n < nNew
  size : ∀ b, (buckets b).card ≤ ADDRMAN_NEW_BUCKET_SIZE
  degree_le : ∀ n, (degree buckets n : ℤ) ≤ ADDRMAN_NEW_BUCKETS_PER_ADDRESS

variable {buckets : Fin ADDRMAN_NEW_BUCKET_COUNT → Finset ℤ}

theorem Loading.readBucket (hfits : Fits buckets nNew) (h : am.Loading nIdCount nNew nTried)
    (hsub : ∀ c, am.vvNew c ⊆ buckets c) {indices : List ℤ} (hnodup : indices.Nodup)
    (hin : ∀ n ∈ indices, n ∈ buckets b ∧ n ∉ am.vvNew b) :
    ∃ am', indices.foldl (AddrMan.readIndex ADDRMAN_NEW_BUCKET_COUNT b) am = am' ∧
      am'.Loading nIdCount nNew nTried ∧ Frame am am' ∧ am'.nIdCount = am.nIdCount ∧
      am'.vvNew = update am.vvNew b (am.vvNew b ∪ indices.toFinset) := by
  induction indices generalizing am with
  | nil =>
    refine ⟨am, rfl, h, ⟨rfl, rfl, rfl⟩, rfl, ?_⟩
    rw [List.toFinset_nil, Finset.union_empty, update_eq_self]
  | cons n indices ih =>
    rw [List.nodup_cons] at hnodup
    rw [List.forall_mem_cons] at hin
    -- the bucket is smaller than it will be, and so is the number of buckets of the entry
    have hsize : (am.vvNew b).card < ADDRMAN_NEW_BUCKET_SIZE :=
      (Finset.card_lt_card ⟨hsub b, fun hle ↦ hin.1.2 (hle hin.1.1)⟩).trans_le (hfits.size b)
    have hdegree : (degree am.vvNew n : ℤ) < ADDRMAN_NEW_BUCKETS_PER_ADDRESS :=
      (Int.ofNat_lt.mpr (degree_lt_of_subset hsub hin.1.1 hin.1.2)).trans_le (hfits.degree_le n)
    obtain ⟨h₁, hframe₁, hcount₁, hnew₁⟩ := h.readIndex (hfits.bounds b n hin.1.1) hin.1.2 hsize
      hdegree
    have hnew₁b : (am.readIndex ADDRMAN_NEW_BUCKET_COUNT b n).vvNew b = insert n (am.vvNew b) := by
      rw [hnew₁, update_self]
    obtain ⟨am', hrun, h', hframe, hcount, hnew⟩ := ih h₁
      (by
        intro c
        by_cases hc : c = b
        · subst hc
          rw [hnew₁b]
          exact Finset.insert_subset hin.1.1 (hsub c)
        · rw [hnew₁, update_of_ne hc]
          exact hsub c) hnodup.2
      (by
        intro m hm
        obtain ⟨hin, hnot⟩ := hin.2 m hm
        rw [hnew₁b, Finset.mem_insert, not_or]
        exact ⟨hin, fun heq ↦ hnodup.1 (heq ▸ hm), hnot⟩)
    refine ⟨am', hrun, h', hframe₁.trans hframe, hcount.trans hcount₁, ?_⟩
    rw [hnew, hnew₁b, hnew₁, update_idem, List.toFinset_cons, Finset.insert_union,
      Finset.union_insert]

theorem Loading.loadBuckets (hfits : Fits buckets nNew) {lists : List (List ℤ)} {c : ℕ}
    (h : am.Loading nIdCount nNew nTried)
    (hdone : ∀ b : Fin ADDRMAN_NEW_BUCKET_COUNT, am.vvNew b = if b < c then buckets b else ∅)
    (hlength : c + lists.length = ADDRMAN_NEW_BUCKET_COUNT)
    (hlists : ∀ (i : ℕ) (hi : c + i < ADDRMAN_NEW_BUCKET_COUNT) indices, lists[i]? = some indices →
      indices.Nodup ∧ indices.toFinset = buckets ⟨c + i, hi⟩) :
    ∃ am', loadBuckets ADDRMAN_NEW_BUCKET_COUNT c lists am = .ok am' ∧
      am'.Loading nIdCount nNew nTried ∧ Frame am am' ∧ am'.nIdCount = am.nIdCount ∧
      am'.vvNew = buckets := by
  induction lists generalizing am c with
  | nil =>
    refine ⟨am, rfl, h, ⟨rfl, rfl, rfl⟩, rfl, funext fun b ↦ ?_⟩
    rw [hdone b, if_pos]
    rw [List.length_nil, add_zero] at hlength
    exact hlength ▸ b.isLt
  | cons indices lists ih =>
    rw [List.length_cons] at hlength
    have hc : c < ADDRMAN_NEW_BUCKET_COUNT := by omega
    obtain ⟨hnodup, hset⟩ := hlists 0 hc indices rfl
    have hempty : am.vvNew ⟨c, hc⟩ = ∅ := by
      rw [hdone, if_neg (lt_irrefl c)]
    obtain ⟨am₁, hrun₁, h₁, hframe₁, hcount₁, hnew₁⟩ := h.readBucket hfits (b := ⟨c, hc⟩)
      (by
        intro b
        rw [hdone b]
        split
        · exact Finset.Subset.rfl
        · exact Finset.empty_subset _) hnodup
      (by
        intro n hn
        rw [hempty]
        exact ⟨hset ▸ List.mem_toFinset.mpr hn, Finset.notMem_empty n⟩)
    obtain ⟨am', hrun, h', hframe, hcount, hnew⟩ := ih h₁
      (by
        intro b
        by_cases hb : b = ⟨c, hc⟩
        · subst hb
          rw [hnew₁, update_self, hempty, Finset.empty_union, hset, if_pos (Nat.lt_succ_self c)]
          rfl
        · rw [hnew₁, update_of_ne hb, hdone b]
          have hne : (b : ℕ) ≠ c := fun heq ↦ hb (Fin.ext heq)
          exact if_congr (by omega) rfl rfl)
      (by omega)
      (by
        intro i hi indices' hi'
        have hnext := hlists (i + 1) (by omega) indices' hi'
        simpa only [Nat.add_comm i 1, ← Nat.add_assoc] using hnext)
    refine ⟨am', ?_, h', hframe₁.trans hframe, hcount.trans hcount₁, hnew⟩
    rw [AddrMan.loadBuckets, dif_pos hc, hrun₁, hrun]

/-- A file that describes a manager with certain buckets. -/
structure Proper (file : AddrFile) (buckets : Fin ADDRMAN_NEW_BUCKET_COUNT → Finset ℤ) :
    Prop where
  length_key : file.nKey.length = 32
  nNew : file.nNew.toInt = file.newInfos.length
  nTried : file.nTried.toInt = file.triedInfos.length
  nUBuckets : file.nUBuckets.toInt = ADDRMAN_NEW_BUCKET_COUNT
  ips : ((file.triedInfos ++ file.newInfos).map fun info ↦ info.ip).Nodup
  blank : ∀ info ∈ file.triedInfos ++ file.newInfos,
    info.fInTried = false ∧ info.nRefCount = 0
  length_lt : (file.triedInfos.length + file.newInfos.length : ℤ) < 2 ^ 31
  fits : Fits buckets file.newInfos.length
  covers : ∀ n : ℤ, 0 ≤ n → n < file.newInfos.length → degree buckets n ≠ 0
  length_buckets : file.buckets.length = ADDRMAN_NEW_BUCKET_COUNT
  indices : ∀ (i : ℕ) (hi : i < ADDRMAN_NEW_BUCKET_COUNT) indices,
    (file.buckets.map (List.map Int32.toInt))[i]? = some indices →
      indices.Nodup ∧ indices.toFinset = buckets ⟨i, hi⟩

theorem loading_empty {am : AddrMan} (hinfo : am.mapInfo = ∅) (haddr : am.mapAddr = fun _ ↦ none)
    (hrandom : am.vRandom = []) (htried : am.vvTried = fun _ ↦ [])
    (hnew : am.vvNew = fun _ ↦ ∅) : am.Loading 0 0 0 := by
  refine ⟨?_, ?_, fun id ↦ ?_, hinfo ▸ countOf_empty false, hinfo ▸ countOf_empty true⟩
  · rw [hinfo, haddr, hrandom, slots_empty]
    exact Indexed.empty
  · rw [hinfo, htried, hnew, files_empty]
    exact Filed.empty Set.univ
  · simp only [hinfo, files_empty, reduceCtorEq, exists_false, false_iff]
    omega

theorem Loading.invariant {am : AddrMan} (h : am.Loading am.nIdCount am.nNew am.nTried)
    (hcovers : ∀ n : ℤ, 0 ≤ n → n < am.nNew → degree am.vvNew n ≠ 0)
    (hkey : am.nKey.length = 32) (hcount : am.nIdCount < 2 ^ 31) : am.Invariant ∅ none where
  indexed := h.indexed
  filed := by
    refine h.filed.tighten fun y n hy hzero ↦ absurd hzero ?_
    obtain ⟨hle, hlt⟩ := (h.new_iff y).mp ⟨n, hy⟩
    have hrefs := h.filed.refs_eq hy
    have hdegree := hcovers y hle hlt
    omega
  new_eq := h.new_eq.symm
  tried_eq := h.tried_eq.symm
  length_key := hkey
  count_lt := hcount

theorem load_spec (base : NetBase) {file : AddrFile} (h : Proper file buckets) :
    ∃ am', load base file = .ok am' ∧ am'.Invariant ∅ none ∧
      am'.nIdCount ≤ file.triedInfos.length + file.newInfos.length := by
  obtain ⟨am₀, ham₀⟩ : ∃ am₀ : AddrMan, am₀ = {
      nKey := file.nKey, nIdCount := 0, mapInfo := ∅, mapAddr := fun _ ↦ none, vRandom := []
      nTried := file.nTried.toInt, vvTried := fun _ ↦ [], nNew := file.nNew.toInt
      vvNew := fun _ ↦ ∅ } := ⟨_, rfl⟩
  have h₀ : am₀.Loading 0 0 0 := by
    subst ham₀
    exact loading_empty rfl rfl rfl rfl rfl
  have hips := h.ips
  rw [List.map_append, List.nodup_append] at hips
  obtain ⟨htriedIps, hnewIps, hdisjoint⟩ := hips
  -- the new entries
  obtain ⟨am₁, hrun₁, h₁, hframe₁, hnew₁, haddr₁⟩ := h₀.loadNew base hnewIps
    (fun info _ ↦ by rw [ham₀])
    (fun info hinfo ↦ h.blank info (List.mem_append_right _ hinfo))
  rw [zero_add] at h₁
  have hcount₁ : am₁.nNew = file.newInfos.length := by rw [hframe₁.nNew, ham₀, ← h.nNew]
  -- those that were tried
  obtain ⟨am₂, placed, hrun₂, h₂, hframe₂, hnew₂, hcount₂, hplaced⟩ :=
    @Loading.loadTried { am₁ with nIdCount := am₁.nNew } _ _ base file.triedInfos
      (by rw [hcount₁]; exact ⟨h₁.indexed, h₁.filed, h₁.new_iff, h₁.new_eq, h₁.tried_eq⟩)
      htriedIps
      (by
        intro info hinfo
        have hnot : info.ip ∉ file.newInfos.map fun info ↦ info.ip := fun hin ↦
          hdisjoint _ (List.mem_map_of_mem hinfo) _ hin rfl
        exact (haddr₁ info.ip hnot).trans (by rw [ham₀]))
      (fun info hinfo ↦ (h.blank info (List.mem_append_left _ hinfo)).2)
      hcount₁.ge
      (by rw [hcount₁, add_comm]; exact h.length_lt) 0
  rw [zero_add] at h₂ hrun₂
  -- the new buckets
  obtain ⟨am₃, hrun₃, h₃, hframe₃, hcount₃, hnew₃⟩ := @Loading.loadBuckets
    { am₂ with nTried := am₂.nTried - (file.triedInfos.length - placed) } _ _ _ buckets h.fits
    (file.buckets.map (List.map Int32.toInt)) 0
    ⟨h₂.indexed, h₂.filed, h₂.new_iff, h₂.new_eq, h₂.tried_eq⟩
    (by
      intro b
      rw [if_neg (Nat.not_lt_zero _)]
      exact (congrFun (hnew₂.trans hnew₁) b).trans (by rw [ham₀]))
    (by rw [List.length_map, zero_add, h.length_buckets])
    (by
      intro i hi indices hindices
      have hset := h.indices i (by omega) indices hindices
      simpa only [zero_add] using hset)
  have htotal : am₃.nIdCount = file.newInfos.length + placed :=
    hcount₃.trans (hcount₂.trans (congrArg (· + placed) hcount₁))
  have hnNew : am₃.nNew = file.newInfos.length := hframe₃.nNew.trans (hframe₂.nNew.trans hcount₁)
  have hnTried : am₃.nTried = placed := by
    rw [hframe₃.nTried]
    change am₂.nTried - _ = _
    rw [hframe₂.nTried]
    change am₁.nTried - _ = _
    rw [hframe₁.nTried, ham₀]
    change file.nTried.toInt - _ = _
    rw [h.nTried]
    ring
  have hnKey : am₃.nKey = file.nKey :=
    hframe₃.nKey.trans ((hframe₂.nKey.trans hframe₁.nKey).trans (by rw [ham₀]))
  have hlt := h.length_lt
  refine ⟨am₃, ?_, Loading.invariant ?_ ?_ (hnKey ▸ h.length_key) (by omega), by omega⟩
  · simp only [load, h.nUBuckets, ← ham₀, bind, Except.bind]
    rw [hrun₁, hrun₂]
    exact hrun₃
  · rw [hnNew, hnTried, hcount₃]
    exact h₃
  · rw [hnNew, hnew₃]
    exact h.covers

/-! ## Writing and reading again -/

theorem nodup_keys (m : Std.ExtTreeMap ℤ AddrInfo) : (m.toList.map Prod.fst).Nodup := by
  refine List.pairwise_map.mpr (m.distinct_keys_toList.imp fun {a b} hne heq ↦ hne ?_)
  rw [heq]
  exact Std.ReflCmp.compare_self

theorem mem_toList_iff {m : Std.ExtTreeMap ℤ AddrInfo} {id : ℤ} :
    (id, info) ∈ m.toList ↔ m[id]? = some info :=
  Std.ExtTreeMap.mem_toList_iff_getElem?_eq_some

theorem Invariant.perm_keys {loose : Set ℤ} {held : Option ℤ} (h : am.Invariant loose held) :
    am.vRandom.Perm (am.mapInfo.toList.map Prod.fst) := by
  refine (List.perm_ext_iff_of_nodup h.indexed.agree.nodup (nodup_keys _)).mpr fun id ↦ ?_
  rw [List.mem_map, List.mem_iff_getElem?]
  constructor
  · rintro ⟨n, hn⟩
    obtain ⟨ip, hslot⟩ := h.indexed.slot_of_getElem? hn
    obtain ⟨info, hget, -⟩ := Option.map_eq_some_iff.mp hslot
    exact ⟨(id, info), mem_toList_iff.mpr hget, rfl⟩
  · rintro ⟨⟨id', info⟩, hmem, rfl⟩
    obtain ⟨n, -, hn⟩ := h.indexed.exists_position (slots_of_get (mem_toList_iff.mp hmem))
    exact ⟨n, hn⟩

def news (am : AddrMan) : List (ℤ × AddrInfo) := newEntries am.mapInfo.toList

def trieds (am : AddrMan) : List (ℤ × AddrInfo) := triedEntries am.mapInfo.toList

/-- The numbers of the new entries in the file. -/
def numbers (am : AddrMan) : ℤ → ℤ := (indexNew am.nNew am.mapInfo.toList 0 fun _ ↦ 0).2

section Written

variable {id : ℤ} (h : am.Invariant ∅ none)

include h

theorem Invariant.refs_iff (hget : am.mapInfo[id]? = some info) :
    info.nRefCount ≠ 0 ↔ info.fInTried = false := by
  have hfile := files_of_get hget
  rcases htried : info.fInTried with _ | _
  · rw [htried] at hfile
    exact ⟨fun _ ↦ rfl, fun _ hzero ↦ (h.filed.new hfile).2.2.2 hzero⟩
  · rw [htried] at hfile
    simp [(h.filed.tried hfile).1]

theorem Invariant.news_eq :
    am.news = am.mapInfo.toList.filter fun entry ↦ entry.2.fInTried = false := by
  refine List.filter_congr fun entry hentry ↦ ?_
  obtain ⟨id, info⟩ := entry
  exact decide_eq_decide.mpr (h.refs_iff (mem_toList_iff.mp hentry))

theorem Invariant.length_news : am.nNew = am.news.length := by
  rw [h.new_eq, countOf, total_ite, h.news_eq]

theorem Invariant.length_trieds : am.nTried = am.trieds.length := by
  rw [h.tried_eq, countOf, total_ite, trieds, triedEntries]
  simp only [Bool.decide_eq_true]

theorem Invariant.perm_entries : (am.trieds ++ am.news).Perm am.mapInfo.toList := by
  have hnot : am.news = am.mapInfo.toList.filter fun entry ↦ !entry.2.fInTried := by
    rw [h.news_eq]
    exact List.filter_congr fun entry _ ↦ by cases entry.2.fInTried <;> rfl
  rw [hnot]
  exact List.filter_append_perm _ _

theorem Invariant.length_entries : (am.trieds.length + am.news.length : ℤ) ≤ am.nIdCount := by
  have hlength := h.perm_entries.length_eq
  have hkeys := h.perm_keys.length_eq
  rw [List.length_append] at hlength
  rw [List.length_map] at hkeys
  have hle := h.indexed.length_le
  omega

theorem Invariant.nodup_ips : ((am.trieds ++ am.news).map fun entry ↦ entry.2.ip).Nodup := by
  rw [(h.perm_entries.map _).nodup_iff, List.Nodup, List.pairwise_map]
  refine am.mapInfo.distinct_keys_toList.imp_of_mem fun {a b} ha hb hne heq ↦ hne ?_
  have hslota := slots_of_get (mem_toList_iff.mp ha)
  have hslotb := slots_of_get (mem_toList_iff.mp hb)
  rw [heq] at hslota
  rw [h.indexed.eq_of_ip hslota hslotb]
  exact Std.ReflCmp.compare_self

theorem Invariant.indexNew_eq : (indexNew am.nNew am.mapInfo.toList 0 fun _ ↦ 0).1 =
    am.news.map Prod.snd :=
  (indexNew_spec (nodup_keys _) (by rw [zero_add]; exact h.length_news)).1

theorem Invariant.numbers_eq {n : ℕ} (hn : am.news[n]? = some (id, info)) : am.numbers id = n := by
  have hspec := (@indexNew_spec am.nNew 0 (fun _ ↦ 0) _ (nodup_keys am.mapInfo)
    (by rw [zero_add]; exact h.length_news)).2.1 n id info hn
  rwa [zero_add] at hspec

theorem Invariant.exists_number (hmem : id ∈ am.vvNew b) :
    ∃ (n : ℕ) (info : AddrInfo), am.news[n]? = some (id, info) := by
  obtain ⟨info, hget, htried⟩ := h.exists_get_of_mem hmem
  have hin : (id, info) ∈ am.news := by
    rw [h.news_eq, List.mem_filter]
    exact ⟨mem_toList_iff.mpr hget, by simpa using htried⟩
  obtain ⟨n, hn⟩ := List.mem_iff_getElem?.mp hin
  exact ⟨n, info, hn⟩

theorem Invariant.numbers_inj {id' : ℤ} {c : Fin ADDRMAN_NEW_BUCKET_COUNT}
    (hmem : id ∈ am.vvNew b) (hmem' : id' ∈ am.vvNew c) (heq : am.numbers id = am.numbers id') :
    id = id' := by
  obtain ⟨n, info, hn⟩ := h.exists_number hmem
  obtain ⟨m, info', hm⟩ := h.exists_number hmem'
  rw [h.numbers_eq hn, h.numbers_eq hm, Nat.cast_inj] at heq
  subst heq
  exact (Prod.mk.inj (Option.some.inj (hn.symm.trans hm))).1

theorem Invariant.numbers_bounds (hmem : id ∈ am.vvNew b) :
    0 ≤ am.numbers id ∧ am.numbers id < am.nNew := by
  obtain ⟨n, info, hn⟩ := h.exists_number hmem
  obtain ⟨hlt, -⟩ := List.getElem?_eq_some_iff.mp hn
  rw [h.numbers_eq hn, h.length_news]
  omega

theorem Invariant.fits : Fits (fun b ↦ (am.vvNew b).image am.numbers) am.nNew where
  bounds := by
    intro b n hn
    obtain ⟨id, hid, rfl⟩ := Finset.mem_image.mp hn
    exact h.numbers_bounds hid
  size b := Finset.card_image_le.trans (h.filed.new_size b)
  degree_le := by
    intro n
    by_cases hzero : degree (fun b ↦ (am.vvNew b).image am.numbers) n = 0
    · rw [hzero]
      decide
    · -- the entry with this number is in as many buckets
      obtain ⟨b, hb⟩ := not_forall_not.mp (mt degree_eq_zero_iff.mpr hzero)
      obtain ⟨id, hid, rfl⟩ := Finset.mem_image.mp hb
      rw [degree_image fun c z hz heq ↦ h.numbers_inj hz hid heq]
      obtain ⟨nRefCount, hfile⟩ := h.filed.new_of_mem hid
      exact h.filed.refs_eq hfile ▸ (h.filed.new hfile).2.2.1

theorem Invariant.save_eq : am.save = {
    nVersion := 0
    nKey := am.nKey
    nNew := Int32.ofInt am.nNew
    nTried := Int32.ofInt am.nTried
    nUBuckets := Int32.ofNat ADDRMAN_NEW_BUCKET_COUNT
    newInfos := am.news.map Prod.snd
    triedInfos := am.trieds.map Prod.snd
    buckets := (List.finRange ADDRMAN_NEW_BUCKET_COUNT).map fun nUBucket ↦
      (sortedIds (am.vvNew nUBucket)).map fun nId ↦ Int32.ofInt (am.numbers nId) } := by
  have htried : listTried am.nTried am.mapInfo.toList 0 = am.trieds.map Prod.snd :=
    listTried_eq (by rw [zero_add]; exact h.length_trieds)
  rw [← h.indexNew_eq, ← htried]
  rfl

theorem Invariant.toInt_nNew : (Int32.ofInt am.nNew).toInt = am.nNew := by
  have hlength := h.length_entries
  have hnew := h.length_news
  have hlt := h.count_lt
  exact Int32.toInt_ofInt_of_le (by omega) (by omega)

theorem Invariant.toInt_nTried : (Int32.ofInt am.nTried).toInt = am.nTried := by
  have hlength := h.length_entries
  have htried := h.length_trieds
  have hlt := h.count_lt
  exact Int32.toInt_ofInt_of_le (by omega) (by omega)

theorem Invariant.sized : am.save.Sized := by
  rw [h.save_eq]
  refine ⟨?_, ?_, ?_, ?_, ?_⟩
  · simp only [h.length_key]
    decide
  · simp only [List.length_map, h.toInt_nNew]
    rw [h.length_news, Int.toNat_natCast]
  · simp only [List.length_map, h.toInt_nTried]
    rw [h.length_trieds, Int.toNat_natCast]
  · simp only [List.length_map, List.length_finRange]
    rfl
  · intro bucket hbucket
    obtain ⟨b, -, rfl⟩ := List.mem_map.mp hbucket
    rw [List.length_map, length_sortedIds]
    exact (h.filed.new_size b).trans_lt (by decide)

theorem Invariant.indices_eq :
    am.save.buckets.map (List.map Int32.toInt) = (List.finRange ADDRMAN_NEW_BUCKET_COUNT).map
      fun nUBucket ↦ (sortedIds (am.vvNew nUBucket)).map am.numbers := by
  rw [h.save_eq, List.map_map]
  refine List.map_congr_left fun b _ ↦ ?_
  rw [comp_apply, List.map_map]
  refine List.map_congr_left fun id hid ↦ ?_
  obtain ⟨hle, hlt⟩ := h.numbers_bounds (mem_sortedIds.mp hid)
  have hlength := h.length_entries
  have hnew := h.length_news
  have hcount := h.count_lt
  exact Int32.toInt_ofInt_of_le (by omega) (by omega)

/-- The file that is read describes the manager that was written. -/
theorem Invariant.proper : Proper { am.save with
    newInfos := am.save.newInfos.map AddrInfo.stored
    triedInfos := am.save.triedInfos.map AddrInfo.stored }
      fun b ↦ (am.vvNew b).image am.numbers := by
  have hlength := h.length_entries
  have hlt := h.count_lt
  have hindices := h.indices_eq
  rw [h.save_eq] at hindices ⊢
  refine ⟨h.length_key, ?_, ?_, rfl, ?_, ?_, ?_, ?_, ?_, ?_, ?_⟩
  · simp only [List.length_map, h.toInt_nNew]
    exact h.length_news
  · simp only [List.length_map, h.toInt_nTried]
    exact h.length_trieds
  · simp only [← List.map_append, List.map_map]
    exact h.nodup_ips
  · simp only [← List.map_append]
    intro info hinfo
    obtain ⟨info', -, rfl⟩ := List.mem_map.mp hinfo
    exact ⟨rfl, rfl⟩
  · simp only [List.length_map]
    omega
  · simp only [List.length_map, ← h.length_news]
    exact h.fits
  · -- every number is that of an entry, which is in some bucket
    intro n hle hbound
    simp only [List.length_map] at hbound
    lift n to ℕ using hle
    obtain ⟨⟨id, info⟩, hn⟩ : ∃ entry, am.news[n]? = some entry :=
      ⟨_, List.getElem?_eq_getElem (Nat.cast_lt.mp hbound)⟩
    have hentry := List.mem_filter.mp (h.news_eq ▸ List.mem_of_getElem? hn)
    have htried : info.fInTried = false := by simpa using hentry.2
    have hfile : files am.mapInfo id = some (false, info.nRefCount) :=
      htried ▸ files_of_get (mem_toList_iff.mp hentry.1)
    have hrefs := (h.refs_iff (mem_toList_iff.mp hentry.1)).mpr htried
    obtain ⟨b, hb⟩ := not_forall_not.mp (mt degree_eq_zero_iff.mpr fun hzero ↦
      hrefs (by rw [h.filed.refs_eq hfile, hzero, Nat.cast_zero]))
    refine (degree_pos (i := b) (Finset.mem_image.mpr ⟨id, hb, ?_⟩)).ne'
    exact h.numbers_eq hn
  · simp only [List.length_map, List.length_finRange]
  · intro i hi indices hi'
    simp only at hi' hindices
    rw [hindices, List.getElem?_map, List.getElem?_eq_getElem (by simpa using hi),
      List.getElem_finRange, Option.map_some, Option.some_inj] at hi'
    subst hi'
    constructor
    · refine List.Nodup.map_on ?_ (nodup_sortedIds _)
      intro x hx y hy heq
      exact h.numbers_inj (mem_sortedIds.mp hx) (mem_sortedIds.mp hy) heq
    · ext n
      simp

/-- **Reading what was written.** The manager that is read has no more ids than the one that was
written. -/
theorem reload_spec (base : NetBase) (nVersion : UInt32) :
    ∃ am', am.reload base nVersion = .ok am' ∧ am'.Invariant ∅ none ∧
      am'.nIdCount ≤ am.nIdCount := by
  have hread := AddrFile.unserialize_serialize h.sized nVersion []
  rw [List.append_nil] at hread
  obtain ⟨am', hload, h', hcount⟩ := load_spec base h.proper
  refine ⟨am', ?_, h', ?_⟩
  · simp only [reload, hread, hload]
  · rw [h.save_eq] at hcount
    simp only [List.length_map] at hcount
    exact hcount.trans h.length_entries

end Written

end AddrMan

end Cryptonite
