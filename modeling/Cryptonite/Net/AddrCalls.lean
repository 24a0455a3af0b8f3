import Cryptonite.Net.AddrTable
import Cryptonite.Net.AddrEvict

/-!
# What a call of the address manager preserves

Every call is followed step by step: what it looks up is there, so that no assertion fails, and what
it writes is one of the elementary changes of the index, the buckets and the counters. Only `Create`
can fail, if there is no id left.
-/

namespace Cryptonite

open Buckets Function TreeMap

/-! ## The views of a table of entries -/

def slots (mapInfo : Std.ExtTreeMap ℤ AddrInfo) (id : ℤ) : Option (NetAddr × Option ℕ) :=
  (mapInfo[id]?).map fun info ↦ (info.ip, info.nRandomPos)

def files (mapInfo : Std.ExtTreeMap ℤ AddrInfo) (id : ℤ) : Option (Bool × ℤ) :=
  (mapInfo[id]?).map fun info ↦ (info.fInTried, info.nRefCount)

/-- The number of entries that were tried, or of those that were not. -/
def countOf (flag : Bool) (mapInfo : Std.ExtTreeMap ℤ AddrInfo) : ℤ :=
  total (fun info ↦ if info.fInTried = flag then 1 else 0) mapInfo

/-- What one entry adds to that number. -/
def weight (flag : Bool) : Option (Bool × ℤ) → ℤ
  | none => 0
  | some (fInTried, _) => if fInTried = flag then 1 else 0

section Views

variable {m : Std.ExtTreeMap ℤ AddrInfo} {id k : ℤ} {info : AddrInfo}

theorem slots_empty : slots ∅ = fun _ ↦ none := by
  funext id
  rw [slots, Std.ExtTreeMap.getElem?_empty, Option.map_none]

theorem files_empty : files ∅ = fun _ ↦ none := by
  funext id
  rw [files, Std.ExtTreeMap.getElem?_empty, Option.map_none]

theorem countOf_empty (flag : Bool) : countOf flag ∅ = 0 := by
  rw [countOf, total_empty, Nat.cast_zero]

theorem slots_of_get (h : m[id]? = some info) : slots m id = some (info.ip, info.nRandomPos) := by
  rw [slots, h, Option.map_some]

theorem files_of_get (h : m[id]? = some info) :
    files m id = some (info.fInTried, info.nRefCount) := by
  rw [files, h, Option.map_some]

theorem exists_get_of_files {fInTried : Bool} {nRefCount : ℤ}
    (h : files m id = some (fInTried, nRefCount)) :
    ∃ info, m[id]? = some info ∧ info.fInTried = fInTried ∧ info.nRefCount = nRefCount := by
  obtain ⟨info, hget, heq⟩ := Option.map_eq_some_iff.mp h
  cases heq
  exact ⟨info, hget, rfl, rfl⟩

theorem slots_insert (m : Std.ExtTreeMap ℤ AddrInfo) (id : ℤ) (info : AddrInfo) :
    slots (m.insert id info) = update (slots m) id (some (info.ip, info.nRandomPos)) := by
  funext k
  rw [slots, getElem?_insert_eq, update_apply]
  split <;> rfl

theorem files_insert (m : Std.ExtTreeMap ℤ AddrInfo) (id : ℤ) (info : AddrInfo) :
    files (m.insert id info) = update (files m) id (some (info.fInTried, info.nRefCount)) := by
  funext k
  rw [files, getElem?_insert_eq, update_apply]
  split <;> rfl

theorem slots_erase (m : Std.ExtTreeMap ℤ AddrInfo) (id : ℤ) :
    slots (m.erase id) = update (slots m) id none := by
  funext k
  rw [slots, getElem?_erase_eq, update_apply]
  split <;> rfl

theorem files_erase (m : Std.ExtTreeMap ℤ AddrInfo) (id : ℤ) :
    files (m.erase id) = update (files m) id none := by
  funext k
  rw [files, getElem?_erase_eq, update_apply]
  split <;> rfl

theorem slots_insert_of_same (h : m[id]? = some info) (info' : AddrInfo) (hip : info'.ip = info.ip)
    (hpos : info'.nRandomPos = info.nRandomPos) : slots (m.insert id info') = slots m := by
  rw [slots_insert, hip, hpos, ← slots_of_get h, update_eq_self]

theorem countOf_erase (flag : Bool) (m : Std.ExtTreeMap ℤ AddrInfo) (id : ℤ) :
    countOf flag (m.erase id) = countOf flag m - weight flag (files m id) := by
  rw [countOf, countOf, total_erase _ m id, files]
  rcases m[id]? with _ | info
  · simp [weight]
  · rw [Option.map_some, weight, Option.elim_some]
    push_cast
    ring

theorem countOf_insert (flag : Bool) (m : Std.ExtTreeMap ℤ AddrInfo) (id : ℤ) (info : AddrInfo) :
    countOf flag (m.insert id info) =
      countOf flag m + weight flag (some (info.fInTried, info.nRefCount)) -
        weight flag (files m id) := by
  have herase := countOf_erase flag m id
  rw [countOf, total_insert_erase, Nat.cast_add]
  rw [countOf] at herase
  rw [herase, weight]
  push_cast
  ring

theorem countOf_insert_of_same (h : m[id]? = some info) (info' : AddrInfo)
    (htried : info'.fInTried = info.fInTried) (flag : Bool) :
    countOf flag (m.insert id info') = countOf flag m := by
  rw [countOf_insert, files_of_get h, weight, weight, htried, add_sub_cancel_right]

end Views

namespace AddrMan

/-- The five views agree, but for the entries that are loose and a reference that is held. -/
structure Invariant (am : AddrMan) (loose : Set ℤ) (held : Option ℤ) : Prop where
  indexed : Indexed (slots am.mapInfo) am.mapAddr am.vRandom am.nIdCount
  filed : Filed (files am.mapInfo) am.vvTried am.vvNew loose held
  new_eq : am.nNew = countOf false am.mapInfo
  tried_eq : am.nTried = countOf true am.mapInfo
  length_key : am.nKey.length = 32
  count_lt : am.nIdCount < 2 ^ 31

variable {base : NetBase} {am : AddrMan} {loose : Set ℤ} {held : Option ℤ} {id : ℤ}
  {info : AddrInfo} {b : Fin ADDRMAN_NEW_BUCKET_COUNT} {k : Fin ADDRMAN_TRIED_BUCKET_COUNT}
  {draws : Draws} {rnd : ℕ → ℕ}

theorem Invariant.refile (h : am.Invariant loose held) (hget : am.mapInfo[id]? = some info)
    (info' : AddrInfo) (hip : info'.ip = info.ip) (hpos : info'.nRandomPos = info.nRandomPos)
    (htried : info'.fInTried = info.fInTried) {loose' : Set ℤ} {held' : Option ℤ}
    (hfiled : Filed (update (files am.mapInfo) id (some (info'.fInTried, info'.nRefCount)))
      am.vvTried am.vvNew loose' held') : (am.setInfo id info').Invariant loose' held' where
  indexed := slots_insert_of_same hget info' hip hpos ▸ h.indexed
  filed := by
    rw [setInfo, files_insert]
    exact hfiled
  new_eq := h.new_eq.trans (countOf_insert_of_same hget info' htried false).symm
  tried_eq := h.tried_eq.trans (countOf_insert_of_same hget info' htried true).symm
  length_key := h.length_key
  count_lt := h.count_lt

theorem Invariant.touch (h : am.Invariant loose held) (hget : am.mapInfo[id]? = some info)
    (info' : AddrInfo) (hip : info'.ip = info.ip) (hpos : info'.nRandomPos = info.nRandomPos)
    (htried : info'.fInTried = info.fInTried) (hrefs : info'.nRefCount = info.nRefCount) :
    (am.setInfo id info').Invariant loose held := by
  refine h.refile hget info' hip hpos htried ?_
  rw [htried, hrefs, ← files_of_get hget, update_eq_self]
  exact h.filed

/-! ## The random order -/

theorem swapRandom_spec (h : Indexed (slots am.mapInfo) am.mapAddr am.vRandom am.nIdCount)
    {i j : ℕ} (hi : i < am.vRandom.length) (hj : j < am.vRandom.length) :
    ∃ mapInfo vRandom, am.swapRandom i j = .ok { am with mapInfo, vRandom } ∧
      Indexed (slots mapInfo) am.mapAddr vRandom am.nIdCount ∧ files mapInfo = files am.mapInfo ∧
      (∀ flag, countOf flag mapInfo = countOf flag am.mapInfo) ∧
      vRandom[j]? = am.vRandom[i]? ∧ vRandom.length = am.vRandom.length ∧
      ∀ id, (slots mapInfo id).map Prod.fst = (slots am.mapInfo id).map Prod.fst := by
  rw [swapRandom]
  by_cases hij : i = j
  · subst hij
    exact ⟨am.mapInfo, am.vRandom, if_pos rfl, h, rfl, fun _ ↦ rfl, rfl, rfl, fun _ ↦ rfl⟩
  · obtain ⟨a, ha⟩ : ∃ a, am.vRandom[i]? = some a := ⟨_, List.getElem?_eq_getElem hi⟩
    obtain ⟨c, hc⟩ : ∃ c, am.vRandom[j]? = some c := ⟨_, List.getElem?_eq_getElem hj⟩
    obtain ⟨ipa, hslota⟩ := h.slot_of_getElem? ha
    obtain ⟨ipc, hslotc⟩ := h.slot_of_getElem? hc
    obtain ⟨info1, hget1, heq1⟩ := Option.map_eq_some_iff.mp hslota
    obtain ⟨info2, hget2, heq2⟩ := Option.map_eq_some_iff.mp hslotc
    obtain ⟨rfl, hpos1⟩ := Prod.mk.inj heq1
    obtain ⟨rfl, hpos2⟩ := Prod.mk.inj heq2
    have hne : c ≠ a := by
      rintro rfl
      rw [hget1, Option.some_inj] at hget2
      rw [hget2] at hpos1
      exact hij (Option.some.inj (hpos1.symm.trans hpos2))
    have hget2' : (am.setInfo a { info1 with nRandomPos := some j }).mapInfo[c]? = some info2 := by
      rw [setInfo, getElem?_insert_eq, if_neg hne, hget2]
    rw [if_neg hij, ha, hc]
    refine ⟨(am.mapInfo.insert a { info1 with nRandomPos := some j }).insert c
      { info2 with nRandomPos := some i }, (am.vRandom.set i c).set j a, ?_, ?_, ?_, ?_, ?_, ?_, ?_⟩
    · simp only [infoAt_of hget1, infoAt_of hget2', bind, Except.bind]
      rfl
    · rw [slots_insert, slots_insert]
      exact h.swap ha hc hij hslota hslotc
    · rw [files_insert, files_insert, ← files_of_get hget1, update_eq_self, ← files_of_get hget2,
        update_eq_self]
    · intro flag
      exact (countOf_insert_of_same hget2' _ (by rfl) flag).trans
        (countOf_insert_of_same hget1 _ (by rfl) flag)
    · rw [List.getElem?_set_self (by rwa [List.length_set])]
    · rw [List.length_set, List.length_set]
    · intro y
      rw [slots_insert, slots_insert]
      by_cases hyc : y = c
      · subst hyc
        rw [update_self, hslotc]
        rfl
      · rw [update_of_ne hyc]
        by_cases hya : y = a
        · subst hya
          rw [update_self, hslota]
          rfl
        · rw [update_of_ne hya]

theorem swapLast_spec (h : Indexed (slots am.mapInfo) am.mapAddr am.vRandom am.nIdCount)
    (hget : am.mapInfo[id]? = some info) :
    ∃ mapInfo vRandom, am.swapRandom (info.nRandomPos.getD (2 ^ 32 - 1)) (am.vRandom.length - 1) =
        .ok { am with mapInfo, vRandom } ∧
      Indexed (slots (mapInfo.erase id)) (update am.mapAddr info.ip none) vRandom.dropLast
        am.nIdCount ∧
      files mapInfo = files am.mapInfo ∧
      ∀ flag, countOf flag mapInfo = countOf flag am.mapInfo := by
  obtain ⟨n, hn, hat⟩ := h.exists_position (slots_of_get hget)
  obtain ⟨hlt, -⟩ := List.getElem?_eq_some_iff.mp hat
  have hpos : info.nRandomPos.getD (2 ^ 32 - 1) = n := by rw [hn, Option.getD_some]
  obtain ⟨mapInfo, vRandom, hswap, hindexed, hfiles, hcount, hlast, hlength, hips⟩ :=
    swapRandom_spec h hlt (Nat.sub_lt (Nat.zero_lt_of_lt hlt) Nat.one_pos)
  have hlast : vRandom[vRandom.length - 1]? = some id := by
    rw [hlength]
    exact hlast.trans hat
  obtain ⟨ip, hslot⟩ := hindexed.slot_of_getElem? hlast
  have hip : ip = info.ip := by
    have hips := hips id
    rw [hslot, slots_of_get hget] at hips
    exact Option.some.inj hips
  refine ⟨mapInfo, vRandom, hpos ▸ hswap, ?_, hfiles, hcount⟩
  rw [slots_erase]
  exact hindexed.pop hlast (hip ▸ hslot)

theorem Invariant.swapRandom (h : am.Invariant loose held) {i j : ℕ}
    (hi : i < am.vRandom.length) (hj : j < am.vRandom.length) :
    ∃ am', am.swapRandom i j = .ok am' ∧ am'.Invariant loose held ∧
      am'.vRandom.length = am.vRandom.length ∧ am'.nIdCount = am.nIdCount := by
  obtain ⟨mapInfo, vRandom, hswap, hindexed, hfiles, hcount, -, hlength, -⟩ :=
    swapRandom_spec h.indexed hi hj
  refine ⟨_, hswap, ⟨hindexed, ?_, ?_, ?_, h.length_key, h.count_lt⟩, hlength, rfl⟩
  · rw [hfiles]
    exact h.filed
  · rw [hcount]
    exact h.new_eq
  · rw [hcount]
    exact h.tried_eq

theorem takeRandom_spec (h : am.Invariant loose held) {ns : List ℕ}
    (hns : ∀ n ∈ ns, n < am.vRandom.length) :
    ∃ vAddr am', am.takeRandom rnd ns = .ok (vAddr, am') ∧ am'.Invariant loose held ∧
      am'.nIdCount = am.nIdCount := by
  induction ns generalizing am with
  | nil => exact ⟨[], am, rfl, h, rfl⟩
  | cons n ns ih =>
    rw [List.forall_mem_cons] at hns
    have hpos : getRandInt (am.vRandom.length - n) (rnd n) + n < am.vRandom.length := by
      have := getRandInt_lt (Nat.sub_pos_of_lt hns.1) (rnd n)
      omega
    obtain ⟨am₁, hswap, h₁, hlength, hcount⟩ := h.swapRandom hns.1 hpos
    obtain ⟨nId, hnId⟩ : ∃ nId, am₁.vRandom[n]? = some nId :=
      ⟨_, List.getElem?_eq_getElem (hlength ▸ hns.1)⟩
    obtain ⟨ip, hslot⟩ := h₁.indexed.slot_of_getElem? hnId
    obtain ⟨info, hget, -⟩ := Option.map_eq_some_iff.mp hslot
    obtain ⟨vAddr, am₂, hrest, h₂, hcount₂⟩ := ih h₁ (by rw [hlength]; exact hns.2)
    refine ⟨info.toAddress :: vAddr, am₂, ?_, h₂, hcount₂.trans hcount⟩
    simp only [takeRandom, hswap, hnId, infoAt_of hget, hrest, bind, Except.bind]

theorem getAddr_spec (h : am.Invariant loose held) (rnd : ℕ → ℕ) :
    ∃ vAddr am', am.getAddr rnd = .ok (vAddr, am') ∧ am'.Invariant loose held ∧
      am'.nIdCount = am.nIdCount := by
  refine takeRandom_spec h fun n hn ↦ ?_
  have hlt := List.mem_range.mp hn
  have hle : ADDRMAN_GETADDR_MAX_PCT * am.vRandom.length / 100 ≤ am.vRandom.length := by
    rw [show ADDRMAN_GETADDR_MAX_PCT = 23 from rfl]
    omega
  exact (hlt.trans_le (min_le_right _ _)).trans_le hle

/-! ## Making place among the new entries -/

theorem Invariant.exists_get_of_mem (h : am.Invariant loose held) (hmem : id ∈ am.vvNew b) :
    ∃ info, am.mapInfo[id]? = some info ∧ info.fInTried = false := by
  obtain ⟨nRefCount, hfile⟩ := h.filed.new_of_mem hmem
  obtain ⟨info, hget, htried, -⟩ := exists_get_of_files hfile
  exact ⟨info, hget, htried⟩

theorem release_spec (h : am.Invariant loose held) (hmem : id ∈ am.vvNew b)
    (hheld : held ≠ some id) :
    ∃ am', am.release b id = .ok am' ∧ am'.Invariant loose held ∧
      am'.vvNew = update am.vvNew b ((am.vvNew b).erase id) ∧
      (∀ y, y ≠ id → files am'.mapInfo y = files am.mapInfo y) ∧ am'.nIdCount = am.nIdCount := by
  obtain ⟨info, hget, htried⟩ := h.exists_get_of_mem hmem
  have hfile : files am.mapInfo id = some (false, info.nRefCount) := htried ▸ files_of_get hget
  have hdrop := h.filed.drop hfile hmem hheld
  have hcount : ∀ flag, countOf flag
      (am.setInfo id { info with nRefCount := info.nRefCount - 1 }).mapInfo =
      countOf flag am.mapInfo := countOf_insert_of_same hget _ rfl
  have hslots : slots (am.setInfo id { info with nRefCount := info.nRefCount - 1 }).mapInfo =
      slots am.mapInfo := slots_insert_of_same hget _ rfl rfl
  rw [release, infoAt_of hget]
  by_cases hzero : info.nRefCount - 1 = 0
  · -- the entry goes to the last position, and is deleted
    rw [if_pos hzero] at hdrop
    obtain ⟨mapInfo, vRandom, hswap, hindexed, hfiles, hcount'⟩ := @swapLast_spec
      (am.setInfo id { info with nRefCount := info.nRefCount - 1 }) id _ (hslots.symm ▸ h.indexed)
      (getElem?_setInfo_self _ _ _)
    have hfiles : files mapInfo =
        update (files am.mapInfo) id (some (false, info.nRefCount - 1)) := by
      rw [hfiles, setInfo, files_insert, htried]
    have hweight : ∀ flag, weight flag (files mapInfo id) = if false = flag then 1 else 0 := by
      intro flag
      rw [hfiles, update_self, weight]
    refine ⟨{ am with
      mapInfo := mapInfo.erase id
      vRandom := vRandom.dropLast
      mapAddr := update am.mapAddr info.ip none
      nNew := am.nNew - 1
      vvNew := update am.vvNew b ((am.vvNew b).erase id) }, ?_, ⟨?_, ?_, ?_, ?_, h.length_key,
        h.count_lt⟩, rfl, ?_, rfl⟩
    · simp only [bind, Except.bind, if_pos hzero]
      rw [hswap]
      rfl
    · exact hindexed
    · rw [files_erase, hfiles, update_idem]
      exact hdrop
    · rw [countOf_erase, hweight, if_pos rfl, hcount', hcount, ← h.new_eq]
    · rw [countOf_erase, hweight, if_neg (by simp), hcount', hcount, ← h.tried_eq, sub_zero]
    · intro y hy
      rw [files_erase, update_of_ne hy, hfiles, update_of_ne hy]
  · rw [if_neg hzero] at hdrop
    refine ⟨{ am with
      mapInfo := am.mapInfo.insert id { info with nRefCount := info.nRefCount - 1 }
      vvNew := update am.vvNew b ((am.vvNew b).erase id) }, ?_, ⟨?_, ?_, ?_, ?_, h.length_key,
        h.count_lt⟩, rfl, ?_, rfl⟩
    · simp only [bind, Except.bind, if_neg hzero]
      rfl
    · exact hslots ▸ h.indexed
    · rw [files_insert, htried]
      exact hdrop
    · exact h.new_eq.trans (hcount false).symm
    · exact h.tried_eq.trans (hcount true).symm
    · intro y hy
      rw [files_insert, update_of_ne hy]

theorem firstTerrible_spec (clock : ℕ → Int64) (n : ℕ) {vNew : List ℤ}
    (hknown : ∀ id ∈ vNew, ∃ info, am.mapInfo[id]? = some info) :
    ∃ found, am.firstTerrible clock n vNew = .ok found ∧ ∀ id, found = some id → id ∈ vNew := by
  induction vNew generalizing n with
  | nil => exact ⟨none, rfl, fun id hid ↦ absurd hid (by simp)⟩
  | cons nId vNew ih =>
    rw [List.forall_mem_cons] at hknown
    obtain ⟨⟨info, hget⟩, hrest⟩ := hknown
    simp only [firstTerrible, infoAt_of hget, bind, Except.bind]
    split
    · exact ⟨some nId, rfl, fun id hid ↦ List.mem_cons.mpr (.inl (Option.some.inj hid).symm)⟩
    · obtain ⟨found, hfound, hmem⟩ := ih (n + 1) hrest
      exact ⟨found, hfound, fun id hid ↦ List.mem_cons_of_mem nId (hmem id hid)⟩

theorem oldestAt_spec (n : List ℕ) (nI : ℕ) {vNew : List ℤ} {oldest : Option ℤ}
    (hknown : ∀ id ∈ vNew, ∃ info, am.mapInfo[id]? = some info)
    (holdest : ∀ id, oldest = some id → ∃ info, am.mapInfo[id]? = some info) :
    ∃ found, am.oldestAt n nI vNew oldest = .ok found ∧
      (∀ id, found = some id → id ∈ vNew ∨ oldest = some id) ∧
      (found = none → oldest = none ∧ ∀ m ∈ n, nI ≤ m → nI + vNew.length ≤ m) := by
  induction vNew generalizing nI oldest with
  | nil =>
    exact ⟨oldest, rfl, fun id hid ↦ .inr hid, fun hnone ↦ ⟨hnone, fun m _ hle ↦ hle⟩⟩
  | cons nId vNew ih =>
    rw [List.forall_mem_cons] at hknown
    obtain ⟨⟨info, hget⟩, hrest⟩ := hknown
    -- the rest of the list, from an entry that is known
    have hstep : ∀ id, (∃ info, am.mapInfo[id]? = some info) → (id = nId ∨ oldest = some id) →
        ∃ found, am.oldestAt n (nI + 1) vNew (some id) = .ok found ∧
          (∀ y, found = some y → y ∈ nId :: vNew ∨ oldest = some y) ∧
          (found = none → oldest = none ∧ ∀ m ∈ n, nI ≤ m → nI + (nId :: vNew).length ≤ m) := by
      intro id hid hfrom
      obtain ⟨found, hfound, hmem, hnone⟩ := @ih (nI + 1) (some id) hrest
        (fun y hy ↦ Option.some.inj hy ▸ hid)
      refine ⟨found, hfound, fun y hy ↦ ?_, fun h ↦ absurd (hnone h).1 (by simp)⟩
      rcases hmem y hy with hin | hy
      · exact .inl (List.mem_cons_of_mem nId hin)
      · cases hy
        exact hfrom.imp_left fun heq ↦ List.mem_cons.mpr (.inl heq)
    have hskip : nI ∉ n → ∃ found, am.oldestAt n (nI + 1) vNew oldest = .ok found ∧
        (∀ y, found = some y → y ∈ nId :: vNew ∨ oldest = some y) ∧
        (found = none → oldest = none ∧ ∀ m ∈ n, nI ≤ m → nI + (nId :: vNew).length ≤ m) := by
      intro hnot
      obtain ⟨found, hfound, hmem, hnone⟩ := ih (nI + 1) hrest holdest
      refine ⟨found, hfound, fun y hy ↦ ?_, fun h ↦ ⟨(hnone h).1, fun m hm hle ↦ ?_⟩⟩
      · exact (hmem y hy).imp_left (List.mem_cons_of_mem nId)
      · have hne : nI ≠ m := fun heq ↦ hnot (heq ▸ hm)
        have hbound := (hnone h).2 m hm (by omega)
        rw [List.length_cons]
        omega
    rcases oldest with _ | nOldest
    · rw [oldestAt]
      split
      · exact hstep nId ⟨info, hget⟩ (.inl rfl)
      · next hnot => exact hskip hnot
    · obtain ⟨infoOldest, hgetOldest⟩ := holdest nOldest rfl
      rw [oldestAt]
      split
      · simp only [infoAt_of hget, infoAt_of hgetOldest, bind, Except.bind]
        split
        · exact hstep nId ⟨info, hget⟩ (.inl rfl)
        · exact hstep nOldest ⟨infoOldest, hgetOldest⟩ (.inr rfl)
      · next hnot => exact hskip hnot

theorem shrinkNew_spec (h : am.Invariant loose held) (hne : (am.vvNew b).Nonempty)
    (hheld : ∀ id ∈ am.vvNew b, held ≠ some id) (draws : Draws) :
    ∃ n am' id, am.shrinkNew b draws = .ok (n, am') ∧ am'.Invariant loose held ∧
      id ∈ am.vvNew b ∧ am'.vvNew = update am.vvNew b ((am.vvNew b).erase id) ∧
      (∀ y, y ≠ id → files am'.mapInfo y = files am.mapInfo y) ∧ am'.nIdCount = am.nIdCount := by
  have hknown : ∀ id ∈ sortedIds (am.vvNew b), ∃ info, am.mapInfo[id]? = some info := by
    intro id hid
    obtain ⟨info, hget, -⟩ := h.exists_get_of_mem (mem_sortedIds.mp hid)
    exact ⟨info, hget⟩
  rw [shrinkNew]
  obtain ⟨found, hfound, hin⟩ := firstTerrible_spec draws.clock 0 hknown
  rcases found with _ | nId
  · have hlength : 0 < (sortedIds (am.vvNew b)).length := by
      rw [length_sortedIds]
      exact hne.card_pos
    obtain ⟨oldest, holdest, hin, hnone⟩ := @oldestAt_spec am
      ((List.range 4).map fun i ↦ getRandInt (sortedIds (am.vvNew b)).length (draws.rnd i)) 0
      _ none hknown (fun id hid ↦ absurd hid (by simp))
    rcases oldest with _ | nOldest
    · -- the first of the four positions is in the bucket
      have hbound := (hnone rfl).2 _ (List.mem_map_of_mem (List.mem_range.mpr (by decide : 0 < 4)))
        (Nat.zero_le _)
      have hlt := getRandInt_lt hlength (draws.rnd 0)
      omega
    · have hold : nOldest ∈ am.vvNew b :=
        mem_sortedIds.mp ((hin nOldest rfl).resolve_right (by simp))
      obtain ⟨am', hrelease, h', hnew, hfiles, hcount⟩ := release_spec h hold (hheld nOldest hold)
      refine ⟨1, am', nOldest, ?_, h', hold, hnew, hfiles, hcount⟩
      simp only [hfound, holdest, hrelease, bind, Except.bind]
  · have hold : nId ∈ am.vvNew b := mem_sortedIds.mp (hin nId rfl)
    obtain ⟨am', hrelease, h', hnew, hfiles, hcount⟩ := release_spec h hold (hheld nId hold)
    refine ⟨0, am', nId, ?_, h', hold, hnew, hfiles, hcount⟩
    simp only [hfound, hrelease, bind, Except.bind]

/-! ## Adding an address -/

theorem Invariant.place (h : am.Invariant loose (some id)) {nRefCount : ℤ}
    (hfile : files am.mapInfo id = some (false, nRefCount)) (hmem : id ∉ am.vvNew b)
    (hsize : (am.vvNew b).card < ADDRMAN_NEW_BUCKET_SIZE) :
    Invariant { am with vvNew := update am.vvNew b (insert id (am.vvNew b)) } loose none :=
  ⟨h.indexed, h.filed.place hfile hmem hsize, h.new_eq, h.tried_eq, h.length_key, h.count_lt⟩

theorem Invariant.addToNew (base : NetBase) (h : am.Invariant loose none) (hloose : loose ⊆ {id})
    (hget : am.mapInfo[id]? = some info) (htried : info.fInTried = false)
    (hlt : info.nRefCount < ADDRMAN_NEW_BUCKETS_PER_ADDRESS) (source : NetAddr) (draws : Draws) :
    ∃ am', am.addToNew base id source draws = .ok am' ∧ am'.Invariant ∅ none ∧
      am'.nIdCount = am.nIdCount := by
  have hfile : files am.mapInfo id = some (false, info.nRefCount) := htried ▸ files_of_get hget
  simp only [AddrMan.addToNew, infoAt_of hget, bind, Except.bind]
  generalize info.getNewBucket base am.nKey source = b
  split
  · next hmem =>
    -- an entry in a bucket is not loose
    refine ⟨am, rfl, { h with filed := h.filed.tighten ?_ }, rfl⟩
    intro y nRefCount hy hzero
    obtain rfl := hloose ((h.filed.new hy).2.2.2 hzero)
    have hcount := h.filed.refs_eq hy
    have hpos := degree_pos hmem
    omega
  · next hmem =>
    have hhold := h.filed.hold hfile hlt
    rw [Set.sdiff_eq_empty.mpr hloose, ← htried] at hhold
    have h₁ := h.refile hget { info with nRefCount := info.nRefCount + 1 } rfl rfl rfl hhold
    have hfile₁ : files (am.setInfo id { info with nRefCount := info.nRefCount + 1 }).mapInfo id =
        some (false, info.nRefCount + 1) := by
      rw [setInfo, files_insert, update_self, htried]
    split
    · next hfull =>
      obtain ⟨n, am₂, y, hshrink, h₂, hy, hnew, hfiles, hcount⟩ := shrinkNew_spec h₁
        (Finset.card_pos.mp (by rw [hfull]; decide))
        (fun y hy heq ↦ hmem (Option.some.inj heq ▸ hy)) draws
      have hne : id ≠ y := fun heq ↦ hmem (heq ▸ hy)
      have hnew' : am₂.vvNew b = (am.vvNew b).erase y := by
        rw [hnew, update_self]
        rfl
      refine ⟨_, by rw [hshrink]; rfl, h₂.place ((hfiles id hne).trans hfile₁) ?_ ?_, hcount⟩
      · rw [hnew']
        exact fun hin ↦ hmem (Finset.mem_of_mem_erase hin)
      · rw [hnew']
        exact (Finset.card_erase_lt_of_mem hy).trans_eq hfull
    · next hfull =>
      exact ⟨_, rfl, h₁.place hfile₁ hmem ((h₁.filed.new_size b).lt_of_ne hfull), rfl⟩

theorem mapInfo_of_find {addr : NetAddr} (h : am.find addr = some (id, info)) :
    am.mapInfo[id]? = some info := by
  simp only [find, Option.bind_eq_bind, Option.bind_eq_some_iff, Option.some.injEq,
    Prod.mk.injEq] at h
  obtain ⟨nId, -, info', hget, rfl, rfl⟩ := h
  exact hget

theorem Invariant.mapAddr_of_find (h : am.Invariant loose held) {addr : NetAddr}
    (hfind : am.find addr = none) : am.mapAddr addr = none := by
  by_contra hne
  obtain ⟨nId, hnId⟩ := Option.ne_none_iff_exists'.mp hne
  obtain ⟨n, hslot⟩ := (h.indexed.addr_iff addr nId).mp hnId
  obtain ⟨info, hget, -⟩ := Option.map_eq_some_iff.mp hslot
  simp [find, hnId, hget] at hfind

theorem create_spec (h : am.Invariant ∅ none) {addr : Address}
    (hfind : am.find addr.ip = none) (source : NetAddr) :
    (am.create addr source = .error .overflow ∧ am.nIdCount = 2 ^ 31 - 1) ∨
      ∃ am' info, am.create addr source = .ok (am.nIdCount, am') ∧
        Invariant { am' with nNew := am'.nNew + 1 } {am.nIdCount} none ∧
        am'.mapInfo[am.nIdCount]? = some info ∧ info.fInTried = false ∧ info.nRefCount = 0 ∧
        am'.nIdCount = am.nIdCount + 1 := by
  rw [create, incInt]
  by_cases hmax : am.nIdCount = 2 ^ 31 - 1
  · exact .inl ⟨by rw [if_pos hmax]; rfl, hmax⟩
  · have hslot := h.indexed.fresh
    have hnone : am.mapInfo[am.nIdCount]? = none := Option.map_eq_none_iff.mp hslot
    have hfile : files am.mapInfo am.nIdCount = none := by rw [files, hnone]; rfl
    refine .inr ⟨{ am with
      nIdCount := am.nIdCount + 1
      mapInfo := am.mapInfo.insert am.nIdCount
        { AddrInfo.ofAddress addr source with nRandomPos := some am.vRandom.length }
      mapAddr := update am.mapAddr addr.ip (some am.nIdCount)
      vRandom := am.vRandom ++ [am.nIdCount] },
      { AddrInfo.ofAddress addr source with nRandomPos := some am.vRandom.length },
      by rw [if_neg hmax]; rfl, ⟨?_, ?_, ?_, ?_, h.length_key, ?_⟩, ?_, rfl, rfl, rfl⟩
    · rw [slots_insert]
      exact h.indexed.push (h.mapAddr_of_find hfind)
    · rw [files_insert, ← insert_empty_eq]
      exact h.filed.insert_loose hfile
    · rw [countOf_insert, hfile, h.new_eq]
      rfl
    · rw [countOf_insert, hfile, h.tried_eq]
      simp [weight, AddrInfo.ofAddress]
    · have hlt := h.count_lt
      change am.nIdCount + 1 < 2 ^ 31
      omega
    · rw [getElem?_insert_eq, if_pos rfl]

theorem add_spec (base : NetBase) (h : am.Invariant ∅ none) (addr : Address) (source : NetAddr)
    (nTimePenalty : Int64) (draws : Draws) :
    (am.add base addr source nTimePenalty draws = .error .overflow ∧
      am.nIdCount = 2 ^ 31 - 1) ∨
      ∃ fNew am', am.add base addr source nTimePenalty draws = .ok (fNew, am') ∧
        am'.Invariant ∅ none ∧ am'.nIdCount ≤ am.nIdCount + 1 := by
  rw [add]
  split
  · exact .inr ⟨false, am, rfl, h, (Int.lt_succ _).le⟩
  · rcases hfind : am.find addr.ip with _ | ⟨nId, info⟩
    · rcases create_spec h hfind source with ⟨hcreate, hmax⟩ |
        ⟨am₁, info, hcreate, h₁, hget, htried, hrefs, hcount⟩
      · exact .inl ⟨by simp only [hcreate]; rfl, hmax⟩
      · have h₂ := h₁.touch hget { info with
          nTime := narrowTime (max 0 (wideTime info.nTime - nTimePenalty)) } rfl rfl rfl rfl
        obtain ⟨am₂, hadd, h₃, hcount₂⟩ := h₂.addToNew base subset_rfl (getElem?_setInfo_self _ _ _)
          htried (by rw [hrefs]; decide) source (draws.skip 1 1)
        refine .inr ⟨true, am₂, ?_, h₃, (hcount₂.trans hcount).le⟩
        simp only [hcreate, infoAt_of hget, bind, Except.bind]
        exact hadd ▸ rfl
    · have hget := mapInfo_of_find hfind
      have h₁ := h.touch hget (refresh info addr nTimePenalty (draws.clock 0)) rfl rfl rfl rfl
      have hunchanged : am.nIdCount ≤ am.nIdCount + 1 := (Int.lt_succ _).le
      simp only
      split
      · exact .inr ⟨false, _, rfl, h₁, hunchanged⟩
      · split
        · exact .inr ⟨false, _, rfl, h₁, hunchanged⟩
        · next htried =>
          split
          · exact .inr ⟨false, _, rfl, h₁, hunchanged⟩
          · next hrefs =>
            split
            · exact .inr ⟨false, _, rfl, h₁, hunchanged⟩
            · have htried : info.fInTried = false := Bool.not_eq_true _ ▸ htried
              have hle := (h.filed.new (htried ▸ files_of_get hget)).2.2.1
              obtain ⟨am₂, hadd, h₂, hcount⟩ := h₁.addToNew base (Set.empty_subset _)
                (getElem?_setInfo_self _ _ _) htried (lt_of_le_of_ne hle hrefs) source
                (draws.skip 1 1)
              refine .inr ⟨false, am₂, by rw [hadd]; rfl, h₂, hcount.le.trans hunchanged⟩

/-! ## Marking an entry as good -/

theorem evict_spec (h : Invariant { am with nNew := am.nNew + 1 } {id} none)
    (hget : am.mapInfo[id]? = some info) (htried : info.fInTried = false)
    (hrefs : info.nRefCount = 0) (hne : am.vvTried k ≠ [])
    (hplace : (am.vvNew b).card < ADDRMAN_NEW_BUCKET_SIZE) :
    ∃ am', am.evict base id b k rnd = .ok am' ∧ am'.Invariant ∅ none ∧
      am'.nIdCount = am.nIdCount := by
  have hfile : files am.mapInfo id = some (false, 0) := by
    rw [files_of_get hget, htried, hrefs]
  obtain ⟨nPos, nOldest, w, vTried, hselect, hperm, -, hcand⟩ := @selectTried_spec am rnd k (by
    intro y hy
    obtain ⟨infoOld, hgetOld, -⟩ := exists_get_of_files (h.filed.tried_of_mem hy)
    exact ⟨infoOld, hgetOld⟩) hne
  obtain ⟨nOld, hold⟩ : ∃ nOld, vTried[nPos]? = some nOld :=
    ⟨_, List.getElem?_eq_getElem (hcand.position_lt (hperm.length_eq ▸ inspections_le _))⟩
  have hfiled := h.filed.permTried hperm
  have hold' : (update am.vvTried k vTried k)[nPos]? = some nOld := by rwa [update_self]
  have hfileOld := hfiled.tried_of_mem (List.mem_of_getElem? hold')
  obtain ⟨infoOld, hgetOld, htriedOld, -⟩ := exists_get_of_files hfileOld
  have hdiff : id ≠ nOld := by
    rintro rfl
    exact absurd (hfile.symm.trans hfileOld) (by simp)
  have hget' : (am.mapInfo.insert nOld { infoOld with fInTried := false, nRefCount := 1 })[id]? =
      some info := by rw [getElem?_insert_eq, if_neg hdiff, hget]
  -- it goes to a bucket that has place for it
  generalize hback : (if (am.vvNew (infoOld.getNewBucket base am.nKey infoOld.source)).card <
    ADDRMAN_NEW_BUCKET_SIZE then infoOld.getNewBucket base am.nKey infoOld.source else b) = nBack
  have hsize : (am.vvNew nBack).card < ADDRMAN_NEW_BUCKET_SIZE := by
    rw [← hback]
    split
    · next hroom => exact hroom
    · exact hplace
  have hexchange := hfiled.exchange hfile hold' hsize
  have hslots : slots ((am.mapInfo.insert nOld
      { infoOld with fInTried := false, nRefCount := 1 }).insert id
        { info with fInTried := true }) = slots am.mapInfo :=
    (slots_insert_of_same hget' _ (by rfl) (by rfl)).trans
      (slots_insert_of_same hgetOld _ (by rfl) (by rfl))
  have hcount : ∀ flag, countOf flag ((am.mapInfo.insert nOld
      { infoOld with fInTried := false, nRefCount := 1 }).insert id
        { info with fInTried := true }) = countOf flag am.mapInfo := by
    intro flag
    rw [countOf_insert, countOf_insert, files_of_get hget', hfileOld]
    simp only [weight, htried]
    ring
  refine ⟨{ am with
    mapInfo := (am.mapInfo.insert nOld { infoOld with fInTried := false, nRefCount := 1 }).insert id
      { info with fInTried := true }
    vvNew := update am.vvNew nBack (insert nOld (am.vvNew nBack))
    nNew := am.nNew + 1
    vvTried := update (update am.vvTried k vTried) k ((update am.vvTried k vTried k).set nPos id) },
    ?_, ⟨?_, ?_, ?_, ?_, h.length_key, h.count_lt⟩, rfl⟩
  · simp only [evict, hselect, hold', Option.bind_some, Option.map_some, bind, Except.bind]
    simp only [infoAt, hgetOld, setInfo, hget']
    subst hback
    rfl
  · exact hslots ▸ h.indexed
  · rw [files_insert, files_insert, hrefs]
    rw [Set.sdiff_self] at hexchange
    exact hexchange
  · exact h.new_eq.trans (hcount false).symm
  · exact h.tried_eq.trans (hcount true).symm

theorem Invariant.pushTried (h : Invariant { am with nNew := am.nNew + 1 } {id} none)
    (hget : am.mapInfo[id]? = some info) (htried : info.fInTried = false)
    (hrefs : info.nRefCount = 0) (hsize : (am.vvTried k).length < ADDRMAN_TRIED_BUCKET_SIZE) :
    Invariant { am.setInfo id { info with fInTried := true } with
      vvTried := update am.vvTried k (am.vvTried k ++ [id])
      nTried := am.nTried + 1 } ∅ none := by
  have hfile : files am.mapInfo id = some (false, 0) := by
    rw [files_of_get hget, htried, hrefs]
  have hpush := h.filed.pushTried hfile hsize
  rw [Set.sdiff_self, ← hrefs] at hpush
  have hnew : am.nNew + 1 = countOf false am.mapInfo := h.new_eq
  have htried' : am.nTried = countOf true am.mapInfo := h.tried_eq
  have hcount : ∀ flag, countOf flag (am.mapInfo.insert id { info with fInTried := true }) =
      countOf flag am.mapInfo + (if true = flag then 1 else 0) - if false = flag then 1 else 0 := by
    intro flag
    rw [countOf_insert, hfile]
    rfl
  refine ⟨?_, ?_, ?_, ?_, h.length_key, h.count_lt⟩
  · exact slots_insert_of_same hget { info with fInTried := true } rfl rfl ▸ h.indexed
  · exact files_insert am.mapInfo id { info with fInTried := true } ▸ hpush
  · refine Eq.trans ?_ (hcount false).symm
    rw [← hnew]
    exact (add_sub_cancel_right am.nNew 1).symm.trans (congrArg (· - 1) (add_zero _).symm)
  · refine Eq.trans ?_ (hcount true).symm
    rw [← htried']
    exact (sub_zero _).symm

theorem Invariant.takeOut (h : am.Invariant ∅ none) (hget : am.mapInfo[id]? = some info)
    (htried : info.fInTried = false) : Invariant { am.setInfo id { info with nRefCount := 0 } with
      vvNew := fun nUBucket ↦ (am.vvNew nUBucket).erase id
      nNew := am.nNew - 1 + 1 } {id} none := by
  have hfile : files am.mapInfo id = some (false, info.nRefCount) := htried ▸ files_of_get hget
  have htakeOut := h.filed.takeOut hfile
  rw [insert_empty_eq, ← htried] at htakeOut
  refine ⟨?_, ?_, ?_, ?_, h.length_key, h.count_lt⟩
  · exact slots_insert_of_same hget { info with nRefCount := 0 } rfl rfl ▸ h.indexed
  · exact files_insert am.mapInfo id { info with nRefCount := 0 } ▸ htakeOut
  · refine (sub_add_cancel am.nNew 1).trans (h.new_eq.trans ?_)
    exact (countOf_insert_of_same hget { info with nRefCount := 0 } rfl false).symm
  · exact h.tried_eq.trans (countOf_insert_of_same hget { info with nRefCount := 0 } rfl true).symm

theorem makeTried_spec (base : NetBase) (h : am.Invariant ∅ none) (hmem : id ∈ am.vvNew b)
    (rnd : ℕ → ℕ) :
    ∃ am', am.makeTried base id b rnd = .ok am' ∧ am'.Invariant ∅ none ∧
      am'.nIdCount = am.nIdCount := by
  obtain ⟨info, hget, htried⟩ := h.exists_get_of_mem hmem
  have hfile : files am.mapInfo id = some (false, info.nRefCount) := htried ▸ files_of_get hget
  -- the references are those that are counted down
  have hzero : info.nRefCount - degree am.vvNew id = 0 := sub_eq_zero.mpr (h.filed.refs_eq hfile)
  -- without them, the entry is loose
  obtain ⟨am₁, ham₁⟩ : ∃ am₁ : AddrMan, am₁ = { am.setInfo id { info with nRefCount := 0 } with
      vvNew := fun nUBucket ↦ (am.vvNew nUBucket).erase id
      nNew := am.nNew - 1 } := ⟨_, rfl⟩
  have h₁ : Invariant { am₁ with nNew := am₁.nNew + 1 } {id} none := ham₁ ▸ h.takeOut hget htried
  have hget₁ : am₁.mapInfo[id]? = some { info with nRefCount := 0 } :=
    ham₁ ▸ getElem?_setInfo_self am id { info with nRefCount := 0 }
  have hcount : am₁.nIdCount = am.nIdCount := ham₁ ▸ rfl
  have hplace : (am₁.vvNew b).card < ADDRMAN_NEW_BUCKET_SIZE := by
    rw [ham₁]
    exact (Finset.card_erase_lt_of_mem hmem).trans_le (h.filed.new_size b)
  have hstep : ∀ k, ∃ am', (if (am₁.vvTried k).length < ADDRMAN_TRIED_BUCKET_SIZE then
      .ok { am₁.setInfo id { info with nRefCount := 0, fInTried := true } with
        vvTried := update am₁.vvTried k (am₁.vvTried k ++ [id])
        nTried := am₁.nTried + 1 }
      else am₁.evict base id b k rnd) = .ok am' ∧ am'.Invariant ∅ none ∧
        am'.nIdCount = am.nIdCount := by
    intro k
    split
    · next hsize => exact ⟨_, rfl, h₁.pushTried hget₁ htried rfl hsize, hcount⟩
    · next hfull =>
      have hne : am₁.vvTried k ≠ [] := by
        rintro hnil
        exact hfull (by rw [hnil]; decide)
      obtain ⟨am₂, hevict, h₂, hcount₂⟩ := evict_spec h₁ hget₁ htried rfl hne hplace
      exact ⟨am₂, hevict, h₂, hcount₂.trans hcount⟩
  simp only [makeTried, if_neg (not_not.mpr hmem), infoAt_of hget, bind, Except.bind, hzero,
    ne_eq, not_true_eq_false, if_false]
  subst ham₁
  exact hstep _

theorem mem_of_bucketOf {nRnd : ℕ} (h : am.bucketOf id nRnd = some b) : id ∈ am.vvNew b := by
  simpa using List.find?_some h

theorem good_spec (base : NetBase) (h : am.Invariant ∅ none) (addr : Service) (nTime : Int64)
    (draws : Draws) :
    ∃ am', am.good base addr nTime draws = .ok am' ∧ am'.Invariant ∅ none ∧
      am'.nIdCount = am.nIdCount := by
  rw [good]
  rcases hfind : am.find addr.ip with _ | ⟨nId, info⟩
  · exact ⟨am, rfl, h, rfl⟩
  · have h₁ := h.touch (mapInfo_of_find hfind) { info with
      nLastSuccess := nTime, nLastTry := nTime, nTime := narrowTime nTime, nAttempts := 0 }
      rfl rfl rfl rfl
    simp only
    split
    · exact ⟨am, rfl, h, rfl⟩
    · split
      · exact ⟨_, rfl, h₁, rfl⟩
      · split
        · exact ⟨_, rfl, h₁, rfl⟩
        · next nUBucket hbucket => exact makeTried_spec base h₁ (mem_of_bucketOf hbucket) _

/-! ## The other calls -/

theorem Invariant.attempt (h : am.Invariant loose held) (addr : Service) (nTime : Int64) :
    (am.attempt addr nTime).Invariant loose held ∧
      (am.attempt addr nTime).nIdCount = am.nIdCount := by
  rw [AddrMan.attempt]
  rcases hfind : am.find addr.ip with _ | ⟨nId, info⟩
  · exact ⟨h, rfl⟩
  · simp only
    split
    · exact ⟨h, rfl⟩
    · exact ⟨h.touch (mapInfo_of_find hfind) _ rfl rfl rfl rfl, rfl⟩

theorem Invariant.connected (h : am.Invariant loose held) (addr : Service) (nTime : Int64) :
    (am.connected addr nTime).Invariant loose held ∧
      (am.connected addr nTime).nIdCount = am.nIdCount := by
  rw [AddrMan.connected]
  rcases hfind : am.find addr.ip with _ | ⟨nId, info⟩
  · exact ⟨h, rfl⟩
  · simp only
    split
    · exact ⟨h, rfl⟩
    · split
      · exact ⟨h.touch (mapInfo_of_find hfind) _ rfl rfl rfl rfl, rfl⟩
      · exact ⟨h, rfl⟩

theorem selectFrom_spec {k : ℕ} [NeZero k] {buckets : Fin k → List ℤ}
    (hknown : ∀ n, ∀ id ∈ buckets n, ∃ info, am.mapInfo[id]? = some info) (rounds : ℕ)
    (draws : Draws) (fChanceFactor : Float) :
    ∃ addr, am.selectFrom buckets rounds draws fChanceFactor = .ok addr := by
  induction rounds generalizing draws fChanceFactor with
  | zero => exact ⟨none, rfl⟩
  | succ rounds ih =>
    rw [selectFrom]
    split
    · exact ih _ _
    · next hne =>
      have hlt := getRandInt_lt (Nat.pos_of_ne_zero hne) (draws.rnd 1)
      obtain ⟨info, hget⟩ := hknown _ _ (List.getElem_mem hlt)
      simp only [List.getElem?_eq_getElem hlt, infoAt_of hget, bind, Except.bind]
      split
      · exact ⟨some info.toAddress, rfl⟩
      · exact ih _ _

theorem select_spec (h : am.Invariant loose held) (nUnkBias : ℤ) (rounds : ℕ) (draws : Draws) :
    ∃ addr, am.select nUnkBias rounds draws = .ok addr := by
  rw [select]
  split
  · exact ⟨_, rfl⟩
  · simp only
    split
    · refine selectFrom_spec (fun n id hid ↦ ?_) rounds _ _
      obtain ⟨info, hget, -⟩ := exists_get_of_files (h.filed.tried_of_mem hid)
      exact ⟨info, hget⟩
    · refine selectFrom_spec (fun n id hid ↦ ?_) rounds _ _
      obtain ⟨info, hget, -⟩ := h.exists_get_of_mem (mem_sortedIds.mp hid)
      exact ⟨info, hget⟩

end AddrMan

end Cryptonite
