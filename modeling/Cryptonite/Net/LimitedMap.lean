import Mathlib.Data.List.Nodup
import Cryptonite.Foundation.Multimap

/-!
# The map that forgets

`limitedmap` holds at most `nMaxSize` elements, here the inventory a node has asked its peers for
and when. Besides the `map` there is `rmap`, which has an iterator into `map` under the value of
each element; what has the smallest value is therefore the first of `rmap`.

An element that is new goes into `map` at once, but into `rmap` only after an overflow has been
dealt with. So the one that is dropped is the smallest of those that were there before, and the new
element stays even if its value is smaller than all of theirs.

An iterator into `map` is its key, since the elements of a `std::map` do not move. No operation
depends on their order.
-/

namespace Cryptonite

structure LimitedMap (K V : Type) [LE V] where
  map : List (K × V)
  rmap : Multimap V K
  nMaxSize : ℕ

/-- A call that changes the map; `update` is given the iterator that `find` has returned. -/
inductive LimitedCall (K V : Type)
  | insert (x : K × V)
  | erase (k : K)
  | update (k : K) (v : V)
  | maxSize (s : ℕ)

namespace LimitedMap

variable {K V : Type} [DecidableEq K] [LinearOrder V]

def new (nMaxSizeIn : ℕ) : Option (LimitedMap K V) :=
  if 0 < nMaxSizeIn then some ⟨[], ⟨[], .nil⟩, nMaxSizeIn⟩ else none

def find (m : LimitedMap K V) (k : K) : Option (K × V) :=
  m.map.find? fun e ↦ e.1 = k

/-- Both erasures for an entry of `rmap`. -/
def drop (m : LimitedMap K V) (e : V × K) : LimitedMap K V :=
  { m with map := m.map.filter fun x ↦ x.1 ≠ e.2, rmap := m.rmap.erase e }

/-- What is at `rmap.begin()` is dropped; there is nothing to look at if `rmap` is empty. -/
def dropFirst (m : LimitedMap K V) : Option (LimitedMap K V) :=
  m.rmap.elems.head?.map m.drop

def insert (m : LimitedMap K V) (x : K × V) : Option (LimitedMap K V) :=
  if (m.find x.1).isSome then some m else
    let m := { m with map := x :: m.map }
    (if m.map.length > m.nMaxSize then m.dropFirst else some m).map fun m ↦
      { m with rmap := m.rmap.insert (x.2, x.1) }

/-- The loop that looks for an iterator among those of its value; it ends with `assert(0)`. -/
def rmapEntry (m : LimitedMap K V) (itTarget : K × V) : Option (V × K) :=
  (m.rmap.equalRange itTarget.2).find? fun e ↦ e.2 = itTarget.1

def erase (m : LimitedMap K V) (k : K) : Option (LimitedMap K V) :=
  match m.find k with
  | none => some m
  | some itTarget => (m.rmapEntry itTarget).map m.drop

def update (m : LimitedMap K V) (k : K) (v : V) : Option (LimitedMap K V) :=
  match m.find k with
  | none => some m
  | some itTarget => (m.rmapEntry itTarget).map fun e ↦
    { m with
      map := m.map.map fun x ↦ if x.1 = itTarget.1 then (x.1, v) else x
      rmap := (m.rmap.erase e).insert (v, itTarget.1) }

/-- The loop of `max_size`, in at most `n` rounds. -/
def shrink (s : ℕ) : ℕ → LimitedMap K V → Option (LimitedMap K V)
  | 0, m => some m
  | n + 1, m => if m.map.length > s then m.dropFirst.bind (shrink s n) else some m

def maxSize (m : LimitedMap K V) (s : ℕ) : Option (LimitedMap K V) :=
  if 0 < s then (shrink s m.map.length m).map fun m ↦ { m with nMaxSize := s } else none

def call (m : LimitedMap K V) : LimitedCall K V → Option (LimitedMap K V)
  | .insert x => m.insert x
  | .erase k => m.erase k
  | .update k v => m.update k v
  | .maxSize s => m.maxSize s

def run (N : ℕ) (calls : List (LimitedCall K V)) : Option (LimitedMap K V) :=
  (new N).bind fun m ↦ calls.foldlM call m

/-! ## The correspondence -/

/-- `map` and `rmap` have the same elements, and no key has two. -/
structure Linked (m : LimitedMap K V) : Prop where
  keys : (m.map.map Prod.fst).Nodup
  perm : (m.rmap.elems.map Prod.swap).Perm m.map

/-- What holds between two calls. -/
structure Valid (m : LimitedMap K V) : Prop extends Linked m where
  nMaxSize_pos : 0 < m.nMaxSize
  length_le : m.map.length ≤ m.nMaxSize

variable {m : LimitedMap K V} {x t : K × V} {k : K} {v : V}

theorem find_eq_none_iff : m.find k = none ↔ k ∉ m.map.map Prod.fst := by
  simp only [find, List.find?_eq_none, decide_eq_true_eq, List.mem_map, not_exists, not_and]

theorem find_eq_some (h : m.find k = some t) : t ∈ m.map ∧ t.1 = k :=
  ⟨List.mem_of_find?_eq_some h, by simpa using List.find?_some h⟩

namespace Linked

omit [DecidableEq K] in
theorem mem_rmap (h : m.Linked) (ht : t ∈ m.map) : t.swap ∈ m.rmap.elems := by
  obtain ⟨e, he, rfl⟩ := List.mem_map.mp (h.perm.mem_iff.mpr ht)
  exact he

/-- The loop over the equal range finds the entry of its element and no other one. -/
theorem rmapEntry_eq (h : m.Linked) (ht : t ∈ m.map) : m.rmapEntry t = some t.swap := by
  rcases hfind : m.rmapEntry t with _ | e
  · have hmem := Multimap.mem_equalRange.mpr ⟨h.mem_rmap ht, rfl⟩
    exact absurd (decide_eq_true rfl) (List.find?_eq_none.mp hfind t.swap hmem)
  · have hvalue := (Multimap.mem_equalRange.mp (List.mem_of_find?_eq_some hfind)).2
    have hkey : e.2 = t.1 := by simpa using List.find?_some hfind
    exact congrArg some (Prod.ext hvalue hkey)

/-- The key of an element takes this element out and no other one. -/
theorem perm_cons_drop (h : m.Linked) (ht : t ∈ m.map) : m.map.Perm (t :: (m.drop t.swap).map) := by
  have hnodup : m.map.Nodup := h.keys.of_map
  refine (List.perm_ext_iff_of_nodup hnodup ?_).mpr fun y ↦ ?_
  · exact List.nodup_cons.mpr ⟨by simp [LimitedMap.drop], hnodup.filter _⟩
  · simp only [LimitedMap.drop, List.mem_cons, List.mem_filter, decide_eq_true_eq, Prod.snd_swap]
    constructor
    · intro hy
      by_cases hkey : y.1 = t.1
      · exact .inl (List.inj_on_of_nodup_map h.keys hy ht hkey)
      · exact .inr ⟨hy, hkey⟩
    · rintro (rfl | hy)
      · exact ht
      · exact hy.1

theorem drop (h : m.Linked) (ht : t ∈ m.map) : (m.drop t.swap).Linked := by
  refine ⟨h.keys.sublist (List.filter_sublist.map _), List.Perm.cons_inv (a := t) ?_⟩
  have hcons := (List.perm_cons_erase (h.mem_rmap ht)).map Prod.swap
  exact (hcons.symm.trans h.perm).trans (h.perm_cons_drop ht)

omit [DecidableEq K] in
theorem add (h : m.Linked) (hx : x.1 ∉ m.map.map Prod.fst) {l : List (K × V)}
    (hl : l.Perm (x :: m.map)) (n : ℕ) :
    (⟨l, m.rmap.insert x.swap, n⟩ : LimitedMap K V).Linked := by
  refine ⟨(hl.map _).nodup_iff.mpr (List.nodup_cons.mpr ⟨hx, h.keys⟩), ?_⟩
  have hinsert := (m.rmap.insert_perm x.swap).map Prod.swap
  exact (hinsert.trans (h.perm.cons x)).trans hl.symm

theorem length_drop (h : m.Linked) (ht : t ∈ m.map) :
    (m.drop t.swap).map.length + 1 = m.map.length :=
  (h.perm_cons_drop ht).length_eq.symm

theorem notMem_drop : t.1 ∉ (m.drop t.swap).map.map Prod.fst := by
  simp [LimitedMap.drop]

omit [DecidableEq K] in
/-- What is at the beginning of `rmap` is an element of the smallest value. -/
theorem head?_rmap (h : m.Linked) (hne : m.map ≠ []) :
    ∃ t ∈ m.map, (∀ y ∈ m.map, t.2 ≤ y.2) ∧ m.rmap.elems.head? = some t.swap := by
  rcases helems : m.rmap.elems with _ | ⟨e, rest⟩
  · have hperm := h.perm
    rw [helems] at hperm
    exact absurd hperm.nil_eq.symm hne
  · have hsorted := List.pairwise_cons.mp (helems ▸ m.rmap.sorted)
    have he : e ∈ m.rmap.elems := helems ▸ List.mem_cons_self
    refine ⟨e.swap, h.perm.mem_iff.mp (List.mem_map_of_mem he), fun y hy ↦ ?_, rfl⟩
    rcases List.mem_cons.mp (helems ▸ h.mem_rmap hy) with heq | hrest
    · exact le_of_eq (congrArg Prod.fst heq).symm
    · exact hsorted.1 _ hrest

end Linked

/-! ## Every call -/

theorem insert_of_room (hk : m.find x.1 = none) (hroom : m.map.length < m.nMaxSize) :
    m.insert x = some ⟨x :: m.map, m.rmap.insert x.swap, m.nMaxSize⟩ := by
  rw [insert, hk]
  simp only [Option.isSome_none, Bool.false_eq_true, if_false, List.length_cons]
  rw [if_neg (by omega)]
  rfl

/-- An overflow takes out an element that was there before, and the new one comes in. -/
theorem insert_of_full (hk : m.find x.1 = none) (ht : t ∈ m.map)
    (hfull : m.nMaxSize ≤ m.map.length) (hfirst : m.rmap.elems.head? = some t.swap) : m.insert x =
      some ⟨x :: (m.drop t.swap).map, (m.drop t.swap).rmap.insert x.swap, m.nMaxSize⟩ := by
  have hne : x.1 ≠ t.1 := fun heq ↦ find_eq_none_iff.mp hk (heq ▸ List.mem_map_of_mem ht)
  rw [insert, hk]
  simp only [Option.isSome_none, Bool.false_eq_true, if_false, List.length_cons]
  rw [if_pos (by omega), dropFirst, hfirst]
  simp [LimitedMap.drop, hne, Prod.swap]

namespace Valid

theorem insert (h : m.Valid) (x : K × V) : ∃ m', m.insert x = some m' ∧ m'.Valid := by
  rcases hk : m.find x.1 with _ | t
  · have hx := find_eq_none_iff.mp hk
    rcases Nat.lt_or_ge m.map.length m.nMaxSize with hroom | hfull
    · exact ⟨_, insert_of_room hk hroom, h.toLinked.add hx (.refl _) _, h.nMaxSize_pos, hroom⟩
    · have hne := List.ne_nil_of_length_pos (h.nMaxSize_pos.trans_le hfull)
      obtain ⟨t, ht, -, hfirst⟩ := h.head?_rmap hne
      have hx' : x.1 ∉ (m.drop t.swap).map.map Prod.fst :=
        fun hmem ↦ hx ((List.filter_sublist.map _).subset hmem)
      refine ⟨_, insert_of_full hk ht hfull hfirst, (h.drop ht).add hx' (.refl _) _,
        h.nMaxSize_pos, ?_⟩
      exact (h.length_drop ht).trans_le h.length_le
  · exact ⟨m, if_pos (by rw [hk]; rfl), h⟩

theorem drop (h : m.Valid) (ht : t ∈ m.map) : (m.drop t.swap).Valid :=
  ⟨h.toLinked.drop ht, h.nMaxSize_pos, (List.length_filter_le _ _).trans h.length_le⟩

theorem erase (h : m.Valid) (k : K) : ∃ m', m.erase k = some m' ∧ m'.Valid := by
  rw [LimitedMap.erase]
  rcases hk : m.find k with _ | t
  · exact ⟨m, rfl, h⟩
  · have ht := (find_eq_some hk).1
    exact ⟨_, congrArg (Option.map m.drop) (h.rmapEntry_eq ht), h.drop ht⟩

theorem update (h : m.Valid) (k : K) (v : V) : ∃ m', m.update k v = some m' ∧ m'.Valid := by
  rw [LimitedMap.update]
  rcases hk : m.find k with _ | t
  · exact ⟨m, rfl, h⟩
  · have ht := (find_eq_some hk).1
    have hperm : (m.map.map fun x ↦ if x.1 = t.1 then (x.1, v) else x).Perm
        ((t.1, v) :: (m.drop t.swap).map) := by
      refine ((h.perm_cons_drop ht).map _).trans (.of_eq ?_)
      rw [List.map_cons, if_pos rfl]
      refine congrArg _ ((List.map_congr_left fun y hy ↦ if_neg ?_).trans (List.map_id _))
      exact of_decide_eq_true (List.mem_filter.mp hy).2
    refine ⟨_, congrArg (Option.map _) (h.rmapEntry_eq ht), ?_, h.nMaxSize_pos, ?_⟩
    · exact (h.toLinked.drop ht).add (x := (t.1, v)) Linked.notMem_drop hperm _
    · rw [List.length_map]
      exact h.length_le

theorem shrink (h : m.Valid) {s n : ℕ} (hn : m.map.length ≤ s + n) :
    ∃ m', LimitedMap.shrink s n m = some m' ∧ m'.Valid ∧ m'.map.length ≤ s := by
  induction n generalizing m with
  | zero => exact ⟨m, rfl, h, hn⟩
  | succ n ih =>
    rw [LimitedMap.shrink]
    split_ifs with hgt
    · obtain ⟨t, ht, -, hfirst⟩ := h.head?_rmap (List.ne_nil_of_length_pos (by omega))
      have hlength := h.length_drop ht
      rw [dropFirst, hfirst]
      exact ih (h.drop ht) (by omega)
    · exact ⟨m, rfl, h, Nat.le_of_not_lt hgt⟩

/-- Every call but that for a capacity of zero is answered. -/
theorem call (h : m.Valid) {c : LimitedCall K V} (hc : c ≠ .maxSize 0) :
    ∃ m', m.call c = some m' ∧ m'.Valid := by
  cases c with
  | insert x => exact h.insert x
  | erase k => exact h.erase k
  | update k v => exact h.update k v
  | maxSize s =>
    have hs : 0 < s := Nat.pos_of_ne_zero fun heq ↦ hc (heq ▸ rfl)
    obtain ⟨m', hshrink, h', hle⟩ := h.shrink (Nat.le_add_left m.map.length s)
    refine ⟨{ m' with nMaxSize := s }, ?_, ⟨h'.keys, h'.perm⟩, hs, hle⟩
    rw [LimitedMap.call, maxSize, if_pos hs, hshrink]
    rfl

theorem run (h : m.Valid) (calls : List (LimitedCall K V)) :
    (calls.foldlM LimitedMap.call m = none ∧ .maxSize 0 ∈ calls) ∨
      ∃ m', calls.foldlM LimitedMap.call m = some m' ∧ m'.Valid ∧ .maxSize 0 ∉ calls := by
  induction calls generalizing m with
  | nil => exact .inr ⟨m, rfl, h, List.not_mem_nil⟩
  | cons c calls ih =>
    by_cases hc : c = .maxSize 0
    · exact .inl ⟨by rw [hc]; rfl, hc ▸ List.mem_cons_self⟩
    · obtain ⟨m₁, hcall, h₁⟩ := h.call hc
      rw [List.foldlM_cons, hcall]
      rcases ih h₁ with ⟨hnone, hmem⟩ | ⟨m', hsome, h', hmem⟩
      · exact .inl ⟨hnone, List.mem_cons_of_mem c hmem⟩
      · exact .inr ⟨m', hsome, h', List.not_mem_cons_of_ne_of_not_mem (Ne.symm hc) hmem⟩

end Valid

theorem run_spec (N : ℕ) (calls : List (LimitedCall K V)) :
    (run N calls = none ∧ (N = 0 ∨ .maxSize 0 ∈ calls)) ∨
      ∃ m, run N calls = some m ∧ m.Valid ∧ N ≠ 0 ∧ .maxSize 0 ∉ calls := by
  rcases Nat.eq_zero_or_pos N with rfl | hN
  · exact .inl ⟨rfl, .inl rfl⟩
  · have hnew : (⟨[], ⟨[], .nil⟩, N⟩ : LimitedMap K V).Valid :=
      ⟨⟨List.nodup_nil, .refl _⟩, hN, Nat.zero_le N⟩
    rw [run, new, if_pos hN, Option.bind_some]
    rcases hnew.run calls with ⟨hnone, hmem⟩ | ⟨m, hsome, h, hmem⟩
    · exact .inl ⟨hnone, .inr hmem⟩
    · exact .inr ⟨m, hsome, h, hN.ne', hmem⟩

/-- **What the bounded map keeps.** Calls on a map of capacity `N` fail only if a capacity is zero.
After any other calls the two maps correspond, and there are not more elements than the capacity.
When a new element overflows it, an element that was there before is dropped. This is one of the
smallest of all, the new one included, just when some element that was there is not greater than
the new one. -/
theorem insert_keeps_best_iff (N : ℕ) (calls : List (LimitedCall K V)) :
    (run N calls = none ↔ N = 0 ∨ .maxSize 0 ∈ calls) ∧
    ∀ m, run N calls = some m → m.Linked ∧ m.map.length ≤ m.nMaxSize ∧
      ∀ x, m.find x.1 = none → m.map.length = m.nMaxSize →
        ∃ t ∈ m.map, ∃ m', m.insert x = some m' ∧ (x :: m.map).Perm (t :: m'.map) ∧
          ((∀ y ∈ x :: m.map, t.2 ≤ y.2) ↔ ∃ y ∈ m.map, y.2 ≤ x.2) := by
  rcases run_spec N calls with ⟨hnone, hzero⟩ | ⟨m, hsome, h, hN, hcalls⟩
  · exact ⟨iff_of_true hnone hzero, fun m hm ↦ absurd (hnone.symm.trans hm) (by simp)⟩
  refine ⟨iff_of_false (by simp [hsome]) (by simp [hN, hcalls]), fun m' hm ↦ ?_⟩
  obtain rfl := Option.some.inj (hsome.symm.trans hm)
  refine ⟨h.toLinked, h.length_le, fun x hx hfull ↦ ?_⟩
  have hne := List.ne_nil_of_length_pos (h.nMaxSize_pos.trans_eq hfull.symm)
  obtain ⟨t, ht, hmin, hfirst⟩ := h.head?_rmap hne
  refine ⟨t, ht, _, insert_of_full hx ht hfull.ge hfirst, ?_, ?_⟩
  · exact ((h.perm_cons_drop ht).cons x).trans (.swap t x _)
  · constructor
    · exact fun hall ↦ ⟨t, ht, hall x List.mem_cons_self⟩
    · rintro ⟨y, hy, hyx⟩ z hz
      rcases List.mem_cons.mp hz with rfl | hz
      · exact (hmin y hy).trans hyx
      · exact hmin z hz

/-- A request that was made before all the others: the map of two forgets the oldest of the other
two and keeps the new one. -/
theorem keeps_the_smallest :
    (run 2 [.insert ("a", (5 : ℤ)), .insert ("b", 7), .insert ("c", 1)]).map LimitedMap.map =
      some [("c", 1), ("b", 7)] := by
  decide

end LimitedMap

end Cryptonite
