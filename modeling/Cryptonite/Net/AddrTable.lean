import Cryptonite.Net.AddrMan

/-!
# The five views of the address manager

What the five views have to say about an entry comes in three independent parts. The index, that is
`mapAddr` and `vRandom`, knows its address and its position (`Indexed`). The buckets are about
whether it was tried and how often it is referred to (`Filed`). And two counters say how many
entries of either kind there are.

Each part is stated for the few fields of the entries it is about, as a function of the id, and has
a lemma for each elementary change. In the midst of a call an entry may be *loose*, known but in no
bucket, and one reference may be *held*: counted already for a bucket that the entry is not in yet.
-/

namespace Cryptonite

open Buckets Function

/-! ## The index -/

/-- `mapAddr` and `vRandom` have the entries with their addresses and positions, and no others. -/
structure Indexed (slots : ℤ → Option (NetAddr × Option ℕ)) (mapAddr : NetAddr → Option ℤ)
    (vRandom : List ℤ) (nIdCount : ℤ) : Prop where
  agree : Agree vRandom fun id ↦ (slots id).bind Prod.snd
  placed : ∀ id ip, slots id ≠ some (ip, none)
  addr_iff : ∀ ip id, mapAddr ip = some id ↔ ∃ n, slots id = some (ip, some n)
  bounds : ∀ id, slots id ≠ none → 0 ≤ id ∧ id < nIdCount
  nonneg : 0 ≤ nIdCount

namespace Indexed

variable {slots : ℤ → Option (NetAddr × Option ℕ)} {mapAddr : NetAddr → Option ℤ}
  {vRandom : List ℤ} {nIdCount a b : ℤ} {ip ipa ipb : NetAddr} {p q : Option ℕ} {i j : ℕ}

theorem position_update (slots : ℤ → Option (NetAddr × Option ℕ)) (a : ℤ)
    (entry : Option (NetAddr × Option ℕ)) : (fun id ↦ (update slots a entry id).bind Prod.snd) =
      update (fun id ↦ (slots id).bind Prod.snd) a (entry.bind Prod.snd) := by
  funext id
  by_cases hid : id = a
  · subst hid
    simp
  · simp [hid]

theorem exists_position (h : Indexed slots mapAddr vRandom nIdCount)
    (ha : slots a = some (ip, p)) : ∃ n, p = some n ∧ vRandom[n]? = some a := by
  rcases p with _ | n
  · exact absurd ha (h.placed a ip)
  · exact ⟨n, rfl, (h.agree n a).mpr (by simp [ha])⟩

theorem slot_of_getElem? (h : Indexed slots mapAddr vRandom nIdCount) (hi : vRandom[i]? = some a) :
    ∃ ip, slots a = some (ip, some i) := by
  have hpos := (h.agree i a).mp hi
  obtain ⟨⟨ip, p⟩, hslot, rfl⟩ := Option.bind_eq_some_iff.mp hpos
  exact ⟨ip, hslot⟩

theorem fresh (h : Indexed slots mapAddr vRandom nIdCount) : slots nIdCount = none := by
  by_contra hne
  exact (h.bounds _ hne).2.false

theorem empty : Indexed (fun _ ↦ none) (fun _ ↦ none) [] 0 where
  agree := by
    intro n a
    simp
  placed := by simp
  addr_iff := by simp
  bounds := by simp
  nonneg := le_rfl

theorem eq_of_ip (h : Indexed slots mapAddr vRandom nIdCount) (ha : slots a = some (ip, p))
    (hb : slots b = some (ip, q)) : a = b := by
  obtain ⟨n, rfl, -⟩ := h.exists_position ha
  obtain ⟨m, rfl, -⟩ := h.exists_position hb
  exact Option.some.inj (((h.addr_iff ip a).mpr ⟨n, ha⟩).symm.trans ((h.addr_iff ip b).mpr ⟨m, hb⟩))

theorem push (h : Indexed slots mapAddr vRandom nIdCount) (hip : mapAddr ip = none) :
    Indexed (update slots nIdCount (some (ip, some vRandom.length)))
      (update mapAddr ip (some nIdCount)) (vRandom ++ [nIdCount]) (nIdCount + 1) where
  agree := by
    rw [position_update]
    exact h.agree.push (by rw [h.fresh]; rfl)
  placed := by
    intro id ip'
    by_cases hid : id = nIdCount
    · subst hid
      simp
    · rw [update_of_ne hid]
      exact h.placed id ip'
  addr_iff := by
    intro ip' id
    by_cases hid : id = nIdCount
    · subst hid
      by_cases hip' : ip' = ip
      · subst hip'
        simp
      · -- nothing points at an id that was not given yet
        have hnone : mapAddr ip' ≠ some id := by
          intro hsome
          obtain ⟨n, hslot⟩ := (h.addr_iff ip' id).mp hsome
          rw [h.fresh] at hslot
          cases hslot
        simp [hip', Ne.symm hip', hnone]
    · rw [update_of_ne hid]
      by_cases hip' : ip' = ip
      · subst hip'
        rw [update_self, ← h.addr_iff, hip]
        simp [Ne.symm hid]
      · rw [update_of_ne hip', h.addr_iff]
  bounds := by
    intro id hne
    by_cases hid : id = nIdCount
    · subst hid
      exact ⟨h.nonneg, Int.lt_succ id⟩
    · rw [update_of_ne hid] at hne
      obtain ⟨hle, hlt⟩ := h.bounds id hne
      exact ⟨hle, hlt.trans (Int.lt_succ _)⟩
  nonneg := h.nonneg.trans (Int.lt_succ _).le

theorem swap (h : Indexed slots mapAddr vRandom nIdCount) (hi : vRandom[i]? = some a)
    (hj : vRandom[j]? = some b) (hij : i ≠ j) (ha : slots a = some (ipa, p))
    (hb : slots b = some (ipb, q)) :
    Indexed (update (update slots a (some (ipa, some j))) b (some (ipb, some i))) mapAddr
      ((vRandom.set i b).set j a) nIdCount := by
  have hne : a ≠ b := by
    rintro rfl
    exact hij (Option.some.inj (((h.agree i a).mp hi).symm.trans ((h.agree j a).mp hj)))
  -- nothing but the position changes
  have hsame : ∀ id ip, (∃ n, update (update slots a (some (ipa, some j))) b
      (some (ipb, some i)) id = some (ip, some n)) ↔ ∃ n, slots id = some (ip, some n) := by
    intro id ip
    obtain ⟨n, rfl, -⟩ := h.exists_position ha
    obtain ⟨m, rfl, -⟩ := h.exists_position hb
    by_cases hidb : id = b
    · subst hidb
      rw [update_self, hb]
      simp
    · rw [update_of_ne hidb]
      by_cases hida : id = a
      · subst hida
        rw [update_self, ha]
        simp
      · rw [update_of_ne hida]
  refine ⟨?_, ?_, ?_, ?_, h.nonneg⟩
  · rw [position_update, position_update]
    exact h.agree.swap hi hj hij
  · intro id ip
    by_cases hidb : id = b
    · subst hidb
      simp
    · rw [update_of_ne hidb]
      by_cases hida : id = a
      · subst hida
        simp
      · rw [update_of_ne hida]
        exact h.placed id ip
  · exact fun ip id ↦ (h.addr_iff ip id).trans (hsame id ip).symm
  · intro id hne'
    refine h.bounds id fun hnone ↦ hne' ?_
    have hidb : id ≠ b := by
      rintro rfl
      exact absurd (hnone.symm.trans hb) (by simp)
    have hida : id ≠ a := by
      rintro rfl
      exact absurd (hnone.symm.trans ha) (by simp)
    rw [update_of_ne hidb, update_of_ne hida, hnone]

theorem pop (h : Indexed slots mapAddr vRandom nIdCount)
    (hlast : vRandom[vRandom.length - 1]? = some a) (ha : slots a = some (ip, p)) :
    Indexed (update slots a none) (update mapAddr ip none) vRandom.dropLast nIdCount := by
  refine ⟨?_, ?_, ?_, ?_, h.nonneg⟩
  · rw [position_update]
    exact h.agree.pop hlast
  · intro id ip'
    by_cases hid : id = a
    · subst hid
      simp
    · rw [update_of_ne hid]
      exact h.placed id ip'
  · intro ip' id
    by_cases hid : id = a
    · subst hid
      rw [update_self]
      by_cases hip : ip' = ip
      · subst hip
        simp
      · rw [update_of_ne hip, h.addr_iff, ha]
        simp [Ne.symm hip]
    · rw [update_of_ne hid]
      by_cases hip : ip' = ip
      · subst hip
        rw [update_self]
        refine ⟨fun hnone ↦ absurd hnone (by simp), ?_⟩
        rintro ⟨n, hslot⟩
        exact absurd (h.eq_of_ip hslot ha) hid
      · rw [update_of_ne hip, h.addr_iff]
  · intro id hne
    refine h.bounds id fun hnone ↦ hne ?_
    by_cases hid : id = a
    · subst hid
      exact update_self _ _ _
    · rw [update_of_ne hid, hnone]

theorem length_le (h : Indexed slots mapAddr vRandom nIdCount) : vRandom.length ≤ nIdCount := by
  have hsub : vRandom.toFinset ⊆ Finset.Ico 0 nIdCount := by
    intro id hid
    obtain ⟨n, hn⟩ := List.mem_iff_getElem?.mp (List.mem_toFinset.mp hid)
    obtain ⟨ip, hslot⟩ := h.slot_of_getElem? hn
    exact Finset.mem_Ico.mpr (h.bounds id (by simp [hslot]))
  have hcard := Finset.card_le_card hsub
  rw [List.toFinset_card_of_nodup h.agree.nodup, Int.card_Ico, sub_zero] at hcard
  have hnonneg := h.nonneg
  omega

end Indexed

/-! ## The buckets -/

/-- Where one entry is, from whether it was tried and how often it is referred to. -/
def Settled : Option (Bool × ℤ) → ℕ → ℕ → Prop → ℕ → Prop
  | none, inTried, inNew, _, _ => inTried = 0 ∧ inNew = 0
  | some (true, nRefCount), inTried, inNew, _, _ => nRefCount = 0 ∧ inTried = 1 ∧ inNew = 0
  | some (false, nRefCount), inTried, inNew, loose, held =>
    inTried = 0 ∧ nRefCount = inNew + held ∧ nRefCount ≤ ADDRMAN_NEW_BUCKETS_PER_ADDRESS ∧
      (nRefCount = 0 → loose)

theorem Settled.mono {entry : Option (Bool × ℤ)} {inTried inNew held : ℕ} {loose loose' : Prop}
    (h : Settled entry inTried inNew loose held) (hloose : loose → loose') :
    Settled entry inTried inNew loose' held := by
  rcases entry with _ | ⟨_ | _, nRefCount⟩
  · exact h
  · exact ⟨h.1, h.2.1, h.2.2.1, fun hzero ↦ hloose (h.2.2.2 hzero)⟩
  · exact h

/-- The buckets have the entries that they should have, and are not too large. -/
structure Filed (files : ℤ → Option (Bool × ℤ)) (vvTried : Fin ADDRMAN_TRIED_BUCKET_COUNT → List ℤ)
    (vvNew : Fin ADDRMAN_NEW_BUCKET_COUNT → Finset ℤ) (loose : Set ℤ) (held : Option ℤ) :
    Prop where
  settled : ∀ id, Settled (files id) (places vvTried id) (degree vvNew id) (id ∈ loose)
    (if held = some id then 1 else 0)
  tried_size : ∀ b, (vvTried b).length ≤ ADDRMAN_TRIED_BUCKET_SIZE
  new_size : ∀ b, (vvNew b).card ≤ ADDRMAN_NEW_BUCKET_SIZE

namespace Filed

variable {files : ℤ → Option (Bool × ℤ)} {vvTried : Fin ADDRMAN_TRIED_BUCKET_COUNT → List ℤ}
  {vvNew : Fin ADDRMAN_NEW_BUCKET_COUNT → Finset ℤ} {loose : Set ℤ} {held : Option ℤ} {id : ℤ}
  {nRefCount : ℤ} {b : Fin ADDRMAN_NEW_BUCKET_COUNT} {k : Fin ADDRMAN_TRIED_BUCKET_COUNT}

theorem empty (loose : Set ℤ) : Filed (fun _ ↦ none) (fun _ ↦ []) (fun _ ↦ ∅) loose none where
  settled _ := ⟨places_eq_zero_iff.mpr fun _ ↦ List.not_mem_nil,
    degree_eq_zero_iff.mpr fun _ ↦ Finset.notMem_empty _⟩
  tried_size _ := Nat.zero_le _
  new_size _ := Nat.zero_le _

theorem unknown (h : Filed files vvTried vvNew loose held) (hid : files id = none) :
    places vvTried id = 0 ∧ degree vvNew id = 0 := by
  have hsettled := h.settled id
  rwa [hid] at hsettled

theorem tried (h : Filed files vvTried vvNew loose held) (hid : files id = some (true, nRefCount)) :
    nRefCount = 0 ∧ places vvTried id = 1 ∧ degree vvNew id = 0 := by
  have hsettled := h.settled id
  rwa [hid] at hsettled

theorem new (h : Filed files vvTried vvNew loose held) (hid : files id = some (false, nRefCount)) :
    places vvTried id = 0 ∧ nRefCount = degree vvNew id + (if held = some id then 1 else 0 : ℕ) ∧
      nRefCount ≤ ADDRMAN_NEW_BUCKETS_PER_ADDRESS ∧ (nRefCount = 0 → id ∈ loose) := by
  have hsettled := h.settled id
  rwa [hid] at hsettled

theorem refs_eq (h : Filed files vvTried vvNew loose none)
    (hid : files id = some (false, nRefCount)) : nRefCount = degree vvNew id := by
  have hcount := (h.new hid).2.1
  rwa [if_neg (Option.some_ne_none id).symm, Nat.cast_zero, add_zero] at hcount

theorem tried_size_update (h : Filed files vvTried vvNew loose held) {l : List ℤ}
    (hl : l.length ≤ ADDRMAN_TRIED_BUCKET_SIZE) (c : Fin ADDRMAN_TRIED_BUCKET_COUNT) :
    (update vvTried k l c).length ≤ ADDRMAN_TRIED_BUCKET_SIZE :=
  (forall_update_iff vvTried fun _ l ↦ l.length ≤ ADDRMAN_TRIED_BUCKET_SIZE).mpr
    ⟨hl, fun c _ ↦ h.tried_size c⟩ c

theorem new_size_update (h : Filed files vvTried vvNew loose held) {s : Finset ℤ}
    (hs : s.card ≤ ADDRMAN_NEW_BUCKET_SIZE) (c : Fin ADDRMAN_NEW_BUCKET_COUNT) :
    (update vvNew b s c).card ≤ ADDRMAN_NEW_BUCKET_SIZE :=
  (forall_update_iff vvNew fun _ s ↦ s.card ≤ ADDRMAN_NEW_BUCKET_SIZE).mpr
    ⟨hs, fun c _ ↦ h.new_size c⟩ c

theorem new_of_mem (h : Filed files vvTried vvNew loose held) (hmem : id ∈ vvNew b) :
    ∃ nRefCount, files id = some (false, nRefCount) := by
  have hpos := degree_pos hmem
  rcases hid : files id with _ | ⟨_ | _, nRefCount⟩
  · exact absurd (h.unknown hid).2 hpos.ne'
  · exact ⟨nRefCount, rfl⟩
  · exact absurd (h.tried hid).2.2 hpos.ne'

theorem tried_of_mem (h : Filed files vvTried vvNew loose held) (hmem : id ∈ vvTried k) :
    files id = some (true, 0) := by
  have hne : places vvTried id ≠ 0 := fun hzero ↦ places_eq_zero_iff.mp hzero k hmem
  rcases hid : files id with _ | ⟨_ | _, nRefCount⟩
  · exact absurd (h.unknown hid).1 hne
  · exact absurd (h.new hid).1 hne
  · rw [(h.tried hid).1]

theorem tighten (h : Filed files vvTried vvNew loose held) {loose' : Set ℤ}
    (hloose : ∀ y n, files y = some (false, n) → n = 0 → y ∈ loose') :
    Filed files vvTried vvNew loose' held := by
  refine ⟨fun y ↦ ?_, h.tried_size, h.new_size⟩
  have hsettled := h.settled y
  rcases hy : files y with _ | ⟨_ | _, n⟩
  · rwa [hy] at hsettled
  · obtain ⟨hplaces, hcount, hle, -⟩ := h.new hy
    exact ⟨hplaces, hcount, hle, hloose y n hy⟩
  · rwa [hy] at hsettled

theorem insert_loose (h : Filed files vvTried vvNew loose none) (hid : files id = none) :
    Filed (update files id (some (false, 0))) vvTried vvNew (insert id loose) none := by
  refine ⟨fun y ↦ ?_, h.tried_size, h.new_size⟩
  by_cases hy : y = id
  · subst hy
    obtain ⟨hplaces, hdegree⟩ := h.unknown hid
    rw [update_self, hplaces, hdegree]
    exact ⟨rfl, rfl, by decide, fun _ ↦ Set.mem_insert y loose⟩
  · rw [update_of_ne hy]
    exact (h.settled y).mono (Set.mem_insert_of_mem id)

theorem hold (h : Filed files vvTried vvNew loose none) (hid : files id = some (false, nRefCount))
    (hlt : nRefCount < ADDRMAN_NEW_BUCKETS_PER_ADDRESS) :
    Filed (update files id (some (false, nRefCount + 1))) vvTried vvNew (loose \ {id})
      (some id) := by
  refine ⟨fun y ↦ ?_, h.tried_size, h.new_size⟩
  by_cases hy : y = id
  · subst hy
    have hcount := h.refs_eq hid
    rw [update_self, if_pos rfl]
    exact ⟨(h.new hid).1, by omega, by omega, fun hzero ↦ by omega⟩
  · have hsettled := h.settled y
    rw [if_neg (by simp)] at hsettled
    rw [update_of_ne hy, if_neg (by simpa using Ne.symm hy)]
    exact hsettled.mono fun hmem ↦ ⟨hmem, hy⟩

theorem place (h : Filed files vvTried vvNew loose (some id))
    (hid : files id = some (false, nRefCount)) (hmem : id ∉ vvNew b)
    (hsize : (vvNew b).card < ADDRMAN_NEW_BUCKET_SIZE) :
    Filed files vvTried (update vvNew b (insert id (vvNew b))) loose none := by
  refine ⟨fun y ↦ ?_, h.tried_size, h.new_size_update ?_⟩
  · rw [degree_insert hmem, if_neg (Option.some_ne_none y).symm]
    by_cases hy : y = id
    · subst hy
      obtain ⟨hplaces, hcount, hle, hloose⟩ := h.new hid
      rw [if_pos rfl] at hcount
      rw [if_pos rfl, hid]
      exact ⟨hplaces, by omega, hle, hloose⟩
    · have hsettled := h.settled y
      rw [if_neg (by simpa using Ne.symm hy)] at hsettled
      rwa [if_neg hy]
  · rw [Finset.card_insert_of_notMem hmem]
    exact hsize

/-- An entry leaves a bucket; it is deleted if it was in no other. -/
theorem drop (h : Filed files vvTried vvNew loose held) (hid : files id = some (false, nRefCount))
    (hmem : id ∈ vvNew b) (hheld : held ≠ some id) :
    Filed (update files id (if nRefCount - 1 = 0 then none else some (false, nRefCount - 1)))
      vvTried (update vvNew b ((vvNew b).erase id)) loose held := by
  refine ⟨fun y ↦ ?_, h.tried_size,
    h.new_size_update ((Finset.card_le_card (Finset.erase_subset _ _)).trans (h.new_size b))⟩
  have hdegree := degree_erase hmem y
  by_cases hy : y = id
  · subst hy
    obtain ⟨hplaces, hcount, hle, -⟩ := h.new hid
    rw [if_pos rfl] at hdegree
    rw [if_neg hheld] at hcount ⊢
    rw [update_self]
    split
    · exact ⟨hplaces, by omega⟩
    · next hne => exact ⟨hplaces, by omega, by omega, fun hzero ↦ absurd hzero hne⟩
  · rw [if_neg hy, Nat.add_zero] at hdegree
    rw [update_of_ne hy, ← hdegree]
    exact h.settled y

theorem takeOut (h : Filed files vvTried vvNew loose none)
    (hid : files id = some (false, nRefCount)) :
    Filed (update files id (some (false, 0))) vvTried (fun b ↦ (vvNew b).erase id)
      (insert id loose) none := by
  refine ⟨fun y ↦ ?_, h.tried_size, fun b ↦ ?_⟩
  · rw [degree_erase_all]
    by_cases hy : y = id
    · subst hy
      rw [update_self, if_pos rfl]
      exact ⟨(h.new hid).1, rfl, by decide, fun _ ↦ Set.mem_insert y loose⟩
    · rw [update_of_ne hy, if_neg hy]
      exact (h.settled y).mono (Set.mem_insert_of_mem id)
  · exact (Finset.card_le_card (Finset.erase_subset _ _)).trans (h.new_size b)

theorem pushTried (h : Filed files vvTried vvNew loose none) (hid : files id = some (false, 0))
    (hsize : (vvTried k).length < ADDRMAN_TRIED_BUCKET_SIZE) :
    Filed (update files id (some (true, 0))) (update vvTried k (vvTried k ++ [id])) vvNew
      (loose \ {id}) none := by
  refine ⟨fun y ↦ ?_, h.tried_size_update ?_, h.new_size⟩
  · have hplaces := places_update vvTried k (vvTried k ++ [id]) y
    rw [List.count_append, List.count_singleton] at hplaces
    by_cases hy : y = id
    · subst hy
      have hzero := (h.new hid).1
      have hcount := h.refs_eq hid
      rw [if_pos (by simp)] at hplaces
      rw [update_self]
      exact ⟨rfl, by omega, by omega⟩
    · rw [if_neg (by simpa using Ne.symm hy)] at hplaces
      rw [update_of_ne hy, show places _ y = places vvTried y by omega]
      exact (h.settled y).mono fun hmem ↦ ⟨hmem, hy⟩
  · rw [List.length_append, List.length_singleton]
    exact hsize

theorem permTried (h : Filed files vvTried vvNew loose held) {l : List ℤ}
    (hperm : l.Perm (vvTried k)) : Filed files (update vvTried k l) vvNew loose held := by
  refine ⟨fun y ↦ ?_, h.tried_size_update (hperm.length_eq.trans_le (h.tried_size k)), h.new_size⟩
  have hplaces := places_update vvTried k l y
  rw [hperm.count_eq] at hplaces
  rw [show places (update vvTried k l) y = places vvTried y by omega]
  exact h.settled y

/-- A loose entry takes the place of one that was tried, which goes back to a new bucket. -/
theorem exchange (h : Filed files vvTried vvNew loose none) (hid : files id = some (false, 0))
    {n : ℕ} {old : ℤ} (hold : (vvTried k)[n]? = some old)
    (hsize : (vvNew b).card < ADDRMAN_NEW_BUCKET_SIZE) :
    Filed (update (update files old (some (false, 1))) id (some (true, 0)))
      (update vvTried k ((vvTried k).set n id)) (update vvNew b (insert old (vvNew b)))
      (loose \ {id}) none := by
  obtain ⟨hn, hget⟩ := List.getElem?_eq_some_iff.mp hold
  have hmem : old ∈ vvTried k := List.mem_of_getElem? hold
  have htried := h.tried_of_mem hmem
  obtain ⟨-, hone, hzero⟩ := h.tried htried
  have hne : old ≠ id := by
    rintro rfl
    exact absurd (htried.symm.trans hid) (by simp)
  have hnotMem : old ∉ vvNew b := degree_eq_zero_iff.mp hzero b
  refine ⟨fun y ↦ ?_, h.tried_size_update ?_, h.new_size_update ?_⟩
  · have hplaces := places_update vvTried k ((vvTried k).set n id) y
    rw [List.count_set hn, hget] at hplaces
    rw [degree_insert hnotMem]
    by_cases hy : y = id
    · subst hy
      have hplaces' := (h.new hid).1
      have hcount := h.refs_eq hid
      rw [if_neg (by simpa using hne), if_pos (by simp)] at hplaces
      rw [update_self, if_neg hne.symm]
      exact ⟨rfl, by omega, by omega⟩
    · rw [update_of_ne hy, if_neg (Option.some_ne_none y).symm]
      rw [if_neg (show ¬(id == y) = true by simpa using Ne.symm hy)] at hplaces
      by_cases hyold : y = old
      · subst hyold
        have hcount : 0 < (vvTried k).count y := List.count_pos_iff.mpr hmem
        rw [if_pos (by simp)] at hplaces
        rw [update_self, if_pos rfl]
        exact ⟨by omega, by omega, by decide, fun h ↦ absurd h (by decide)⟩
      · rw [if_neg (by simpa using Ne.symm hyold)] at hplaces
        rw [update_of_ne hyold, if_neg hyold, show places _ y = places vvTried y by omega]
        have hsettled := h.settled y
        rw [if_neg (by simp)] at hsettled
        exact hsettled.mono fun hmem ↦ ⟨hmem, hy⟩
  · rw [List.length_set]
    exact h.tried_size k
  · rw [Finset.card_insert_of_notMem hnotMem]
    exact hsize

end Filed

end Cryptonite
