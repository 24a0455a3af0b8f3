import Cryptonite.Patricia.Trie

/-!
# Partial views of a trie

A trie can be shown in part: a subtree is replaced by a stub that carries its digest. This module
relates a canonical trie to such a view. `Placed` is what is left of the canonical form — the nodes
that are shown stand where they belong — and `hidden` lists the subtrees that are not. An entry is
either shown or hidden, never both (`Collapses.shown_or_hidden`), so that a view shows every entry
of a set of keys exactly when nothing of that set is hidden (`Collapses.shows_iff`).

The last section is about where a node splits its keys: `descend d p key bits true` is the least
key of the right child, and masking a key to the bits consumed so far compares with it as the key
itself does.
-/

namespace Patricia

variable {w : ℕ} {μ α η : Type}

namespace Trie

/-- The canonical form with stubs allowed anywhere: every node shown stands at its position below
the prefix `p` of length `d`. -/
def Placed : ℕ → BitVec w → Trie w μ α η → Prop
  | d, p, .leaf _ k _ => Under d p k
  | d, p, .node _ key bits l r =>
    d + bits < w ∧ SupportedIn d (d + bits) key ∧
      Placed (d + bits + 1) (descend d p key bits false) l ∧
      Placed (d + bits + 1) (descend d p key bits true) r
  | _, _, .stub _ => True

/-- The second trie is the first with some subtrees replaced by their digests. -/
inductive Collapses (dg : Trie w μ α η → η) : Trie w μ α η → Trie w μ α η → Prop
  | leaf (m m' : μ) (k : BitVec w) (v : α) : Collapses dg (.leaf m k v) (.leaf m' k v)
  | node (m m' : μ) (key : BitVec w) (bits : ℕ) {l r l' r' : Trie w μ α η}
      (hl : Collapses dg l l') (hr : Collapses dg r r') :
      Collapses dg (.node m key bits l r) (.node m' key bits l' r')
  | stub (t : Trie w μ α η) : Collapses dg t (.stub (dg t))

/-- The subtrees of the first trie that the second shows the digest of only. -/
def hidden : Trie w μ α η → Trie w μ α η → List (Trie w μ α η)
  | t, .stub _ => [t]
  | .node _ _ _ l r, .node _ _ _ l' r' => hidden l l' ++ hidden r r'
  | _, _ => []

/-- The entries of the leaves that are shown, from left to right. -/
def leaves : Trie w μ α η → List (BitVec w × α)
  | .leaf _ k v => [(k, v)]
  | .node _ _ _ l r => leaves l ++ leaves r
  | .stub _ => []

/-- A canonical trie has no key twice: its leaves are its entries. -/
theorem Canon.mem_leaves_iff : ∀ {t : Trie w μ α η} {d : ℕ} {p x : BitVec w} {v : α},
    SupportedIn 0 d p → t.Canon d p → ((x, v) ∈ t.leaves ↔ t.toMap x = some v) := by
  intro t
  induction t with
  | leaf m k u =>
    intro d p x v _ _
    rw [leaves, List.mem_singleton, Prod.mk.injEq, toMap]
    split
    · next hx => simp [hx, eq_comm]
    · next hx => simp [hx]
  | node m key bits l r ihl ihr =>
    intro d p x v hp hC
    have hpl := supportedIn_descend hp hC.1 hC.2.1 false
    have hpr := supportedIn_descend hp hC.1 hC.2.1 true
    rw [leaves, List.mem_append, ihl hpl hC.2.2.1, ihr hpr hC.2.2.2]
    have hmap : (Trie.node m key bits l r).toMap x = some v ↔
        l.toMap x = some v ∨ l.toMap x = none ∧ r.toMap x = some v := by
      rw [toMap, Option.or_eq_some_iff]
    rw [hmap]
    refine or_congr_right ⟨fun hr ↦ ⟨?_, hr⟩, And.right⟩
    -- an entry on the right is not on the left
    have hbit := ((under_descend hp hC.1 hC.2.1 true).mp (hC.2.2.2.under hpr hr)).2.2
    exact hC.2.2.1.toMap_eq_none hpl fun hx ↦ by
      simpa [hbit] using ((under_descend hp hC.1 hC.2.1 false).mp hx).2.2
  | stub h => intro d p x v _ hC; exact hC.elim

theorem mem_leaves_of_toMap {x : BitVec w} {v : α} : ∀ {t : Trie w μ α η}, t.toMap x = some v →
    (x, v) ∈ t.leaves := by
  intro t
  induction t with
  | leaf m k u =>
    intro h
    rw [toMap] at h
    split at h
    · next hx => rw [leaves, List.mem_singleton, hx, Option.some.inj h]
    · cases h
  | node m key bits l r ihl ihr =>
    intro h
    rw [toMap, Option.or_eq_some_iff] at h
    exact List.mem_append.mpr (h.imp ihl fun h ↦ ihr h.2)
  | stub h => exact fun h ↦ absurd h (by simp [toMap])

theorem mem_hidden_stub {t u : Trie w μ α η} {h : η} : u ∈ hidden t (.stub h) ↔ u = t := by
  rw [hidden, List.mem_singleton]

namespace Collapses

variable {dg : Trie w μ α η → η} {t s : Trie w μ α η}

theorem placed (h : Collapses dg t s) : ∀ {d : ℕ} {p : BitVec w}, t.Canon d p → s.Placed d p := by
  induction h with
  | leaf m m' k v => exact id
  | node m m' key bits hl hr ihl ihr =>
    rintro d p ⟨hb, hk, hcl, hcr⟩
    exact ⟨hb, hk, ihl hcl, ihr hcr⟩
  | stub t => exact fun _ ↦ trivial

theorem leaves_subset (h : Collapses dg t s) : s.leaves ⊆ t.leaves := by
  induction h with
  | leaf m m' k v => exact List.Subset.refl _
  | node m m' key bits hl hr ihl ihr =>
    exact List.append_subset.mpr ⟨List.Subset.trans ihl (List.subset_append_left _ _),
      List.Subset.trans ihr (List.subset_append_right _ _)⟩
  | stub t => exact List.nil_subset _

theorem toMap_eq_none (h : Collapses dg t s) {x : BitVec w} :
    t.toMap x = none → s.toMap x = none ∧ ∀ u ∈ hidden t s, u.toMap x = none := by
  induction h with
  | leaf m m' k v => exact fun hx ↦ ⟨hx, fun u hu ↦ absurd hu List.not_mem_nil⟩
  | node m m' key bits hl hr ihl ihr =>
    intro hx
    rw [toMap, Option.or_eq_none_iff] at hx
    obtain ⟨hsl, hul⟩ := ihl hx.1
    obtain ⟨hsr, hur⟩ := ihr hx.2
    refine ⟨by rw [toMap, hsl, hsr, Option.or_none], fun u hu ↦ ?_⟩
    rw [hidden, List.mem_append] at hu
    exact hu.elim (hul u) (hur u)
  | stub t => exact fun hx ↦ ⟨rfl, fun u hu ↦ by rw [mem_hidden_stub.mp hu, hx]⟩

/-- An entry of the trie is either shown or hidden, and not both. -/
theorem shown_or_hidden (h : Collapses dg t s) {x : BitVec w} {v : α} :
    ∀ {d : ℕ} {p : BitVec w}, SupportedIn 0 d p → t.Canon d p → t.toMap x = some v →
      (s.toMap x = some v ∧ ∀ u ∈ hidden t s, u.toMap x = none) ∨
        (s.toMap x = none ∧ ∃ u ∈ hidden t s, u.toMap x = some v) := by
  induction h with
  | leaf m m' k v' =>
    intro d p _ _ hx
    exact .inl ⟨hx, fun u hu ↦ absurd hu List.not_mem_nil⟩
  | @node m m' key bits l r l' r' hl hr ihl ihr =>
    intro d p hp hC hx
    obtain ⟨hb, hk, hcl, hcr⟩ := hC
    have hpl := supportedIn_descend hp hb hk false
    have hpr := supportedIn_descend hp hb hk true
    -- the entry lies on one side, and the other side neither shows nor hides it
    rw [toMap, Option.or_eq_some_iff] at hx
    rw [toMap, hidden]
    rcases hx with hxl | ⟨hxl, hxr⟩
    · have hbit := ((under_descend hp hb hk false).mp (hcl.under hpl hxl)).2.2
      have hxr : r.toMap x = none := hcr.toMap_eq_none hpr fun hx ↦ by
        simpa [hbit] using ((under_descend hp hb hk true).mp hx).2.2
      obtain ⟨hsr, hur⟩ := hr.toMap_eq_none hxr
      rw [hsr, Option.or_none]
      rcases ihl hpl hcl hxl with ⟨hs, hu⟩ | ⟨hs, u, hu, hv⟩
      · exact .inl ⟨hs, fun u hmem ↦ (List.mem_append.mp hmem).elim (hu u) (hur u)⟩
      · exact .inr ⟨hs, u, List.mem_append_left _ hu, hv⟩
    · obtain ⟨hsl, hul⟩ := hl.toMap_eq_none hxl
      rw [hsl, Option.none_or]
      rcases ihr hpr hcr hxr with ⟨hs, hu⟩ | ⟨hs, u, hu, hv⟩
      · exact .inl ⟨hs, fun u hmem ↦ (List.mem_append.mp hmem).elim (hul u) (hu u)⟩
      · exact .inr ⟨hs, u, List.mem_append_right _ hu, hv⟩
  | stub t =>
    intro d p _ _ hx
    exact .inr ⟨rfl, t, mem_hidden_stub.mpr rfl, hx⟩

/-- **What a view shows.** Every entry of a set of keys is shown exactly when none is hidden. -/
theorem shows_iff (h : Collapses dg t s) {d : ℕ} {p : BitVec w} (hp : SupportedIn 0 d p)
    (hC : t.Canon d p) (K : Set (BitVec w)) :
    (∀ x ∈ K, ∀ v, t.toMap x = some v → s.toMap x = some v) ↔
      ∀ u ∈ hidden t s, ∀ x ∈ K, u.toMap x = none := by
  constructor
  · intro hall u hu x hx
    rcases ht : t.toMap x with _ | v
    · exact (h.toMap_eq_none ht).2 u hu
    · rcases h.shown_or_hidden hp hC ht with ⟨-, hnone⟩ | ⟨hs, -⟩
      · exact hnone u hu
      · exact absurd (hall x hx v ht) (by simp [hs])
  · intro hall x hx v ht
    rcases h.shown_or_hidden hp hC ht with ⟨hs, -⟩ | ⟨-, u, hu, hv⟩
    · exact hs
    · exact absurd (hall u hu x hx) (by simp [hv])

end Collapses

end Trie

/-! ## Where a node splits its keys -/

theorem le_or (a b : BitVec w) : a ≤ a ||| b := by
  rw [BitVec.le_def, BitVec.toNat_or]
  exact Nat.left_le_or

theorem and_le (a b : BitVec w) : a &&& b ≤ a := by
  rw [BitVec.le_def, BitVec.toNat_and]
  exact Nat.and_le_left

theorem le_descend (d : ℕ) (p key : BitVec w) (bits : ℕ) (right : Bool) :
    p ≤ descend d p key bits right :=
  BitVec.le_trans (le_or p key) (le_or (p ||| key) _)

/-- The key cut down to its `n` leading bits. -/
def truncate (x : BitVec w) (n : ℕ) : BitVec w := x &&& ~~~(BitVec.allOnes w >>> n)

theorem getMsbD_truncate (x : BitVec w) (n i : ℕ) :
    (truncate x n).getMsbD i = (decide (i < n) && x.getMsbD i) := by
  by_cases hi : i < w
  · rw [truncate, BitVec.getMsbD_and, BitVec.getMsbD_not, BitVec.getMsbD_ushiftRight,
      BitVec.getMsbD_allOnes]
    by_cases hn : i < n
    · simp [hi, hn]
    · have h : i - n < w := by omega
      simp [hi, hn, h]
  · rw [BitVec.getMsbD_of_ge _ _ (not_lt.mp hi), BitVec.getMsbD_of_ge _ _ (not_lt.mp hi),
      Bool.and_false]

theorem exists_first_diff_of_lt {a b : BitVec w} (h : a < b) :
    ∃ n, Under n a b ∧ a.getMsbD n = false ∧ b.getMsbD n = true := by
  have hne : ∃ i, a.getMsbD i ≠ b.getMsbD i := by
    by_contra hall
    simp only [not_exists, not_not] at hall
    rw [BitVec.eq_of_getMsbD_eq fun i _ ↦ hall i] at h
    exact absurd h (BitVec.lt_irrefl b)
  obtain ⟨i, hi⟩ := hne
  obtain ⟨n, -, hsame, hdiff⟩ := exists_first_diff (Nat.zero_le i) hi
  simp only [Nat.zero_add] at hsame hdiff
  have hunder : Under n a b := fun j hj ↦ (hsame j hj).symm
  rcases ha : a.getMsbD n with _ | _
  · exact ⟨n, hunder, ha, by simpa [ha] using hdiff⟩
  · have hb : b.getMsbD n = false := by simpa [ha] using hdiff
    exact absurd (lt_of_first_diff hunder.symm hb ha) (BitVec.lt_asymm h)

theorem Under.le {d : ℕ} {p x : BitVec w} (hp : SupportedIn 0 d p) (h : Under d p x) : p ≤ x := by
  by_contra hlt
  obtain ⟨n, -, hx, hpn⟩ := exists_first_diff_of_lt (BitVec.not_le.mp hlt)
  rw [h n (hp n hpn).2, hpn] at hx
  cases hx

theorem Under.lt_of_lt_truncate {d : ℕ} {p x y : BitVec w} (h : Under d p x)
    (hlt : p < truncate y d) : x < y := by
  obtain ⟨n, hsame, hp, hy⟩ := exists_first_diff_of_lt hlt
  rw [getMsbD_truncate, Bool.and_eq_true, decide_eq_true_iff] at hy
  refine lt_of_first_diff (n := n) (fun i hi ↦ ?_) ((h n hy.1).trans hp) hy.2
  rw [h i (hi.trans hy.1), ← hsame i hi, getMsbD_truncate, decide_eq_true (hi.trans hy.1),
    Bool.true_and]

section Split

variable {d bits : ℕ} {p key x : BitVec w}

theorem getMsbD_descend_true (hb : d + bits < w) (i : ℕ) : (descend d p key bits true).getMsbD i
      = ((descend d p key bits false).getMsbD i || decide (i = d + bits)) := by
  rw [getMsbD_descend hb, getMsbD_descend hb, Bool.true_and, Bool.false_and, Bool.or_false]

/-- A key reaches the right child, or passes it, when it first leaves the path to the left child
upwards and no later than at the branch bit. -/
theorem descend_true_le_iff (hp : SupportedIn 0 d p) (hb : d + bits < w)
    (hk : SupportedIn d (d + bits) key) :
    descend d p key bits true ≤ x ↔ ∃ n ≤ d + bits, Under n (descend d p key bits false) x ∧
      (descend d p key bits false).getMsbD n = false ∧ x.getMsbD n = true := by
  have hbit := @getMsbD_descend_true w d bits p key hb
  have hlow : (descend d p key bits false).getMsbD (d + bits) = false := by
    rw [getMsbD_descend hb, hp.getMsbD_of_ge (by omega), hk.getMsbD_of_ge le_rfl]
    rfl
  constructor
  · intro hle
    by_cases hunder : Under (d + bits + 1) (descend d p key bits true) x
    · refine ⟨d + bits, le_rfl, fun i hi ↦ ?_, hlow, ?_⟩
      · rw [hunder i (by omega), hbit, decide_eq_false (by omega), Bool.or_false]
      · rw [hunder (d + bits) (by omega), hbit, decide_eq_true rfl, Bool.or_true]
    · -- the key is greater, and differs before the prefix ends
      have hne : descend d p key bits true ≠ x := by
        rintro rfl
        exact hunder (.refl _ _)
      obtain ⟨n, hsame, hhigh, hx⟩ := exists_first_diff_of_lt (BitVec.lt_of_le_ne hle hne)
      have hn : n < d + bits := by
        by_contra hge
        rcases (not_lt.mp hge).eq_or_lt with rfl | hgt
        · rw [hbit, decide_eq_true rfl, Bool.or_true] at hhigh
          cases hhigh
        · exact hunder (hsame.mono hgt)
      refine ⟨n, hn.le, fun i hi ↦ ?_, ?_, hx⟩
      · rw [hsame i hi, hbit, decide_eq_false (by omega), Bool.or_false]
      · rw [hbit, Bool.or_eq_false_iff] at hhigh
        exact hhigh.1
  · rintro ⟨n, hn, hsame, hlown, hx⟩
    rcases hn.eq_or_lt with rfl | hlt
    · refine Under.le (supportedIn_descend hp hb hk true) fun i hi ↦ ?_
      rcases Nat.lt_succ_iff_lt_or_eq.mp hi with hi | rfl
      · rw [hsame i hi, hbit, decide_eq_false hi.ne, Bool.or_false]
      · rw [hx, hbit, decide_eq_true rfl, Bool.or_true]
    · refine BitVec.le_of_lt (lt_of_first_diff (n := n) (fun i hi ↦ ?_) ?_ hx)
      · rw [hsame i hi, hbit, decide_eq_false (by omega), Bool.or_false]
      · rw [hbit, hlown, decide_eq_false hlt.ne, Bool.or_false]

theorem lt_descend_true (hp : SupportedIn 0 d p) (hb : d + bits < w)
    (hk : SupportedIn d (d + bits) key) (h : Under (d + bits + 1) (descend d p key bits false) x) :
    x < descend d p key bits true := by
  have hbit := @getMsbD_descend_true w d bits p key hb
  refine lt_of_first_diff (n := d + bits) (fun i hi ↦ ?_) ?_ ?_
  · rw [hbit, h i (by omega), decide_eq_false hi.ne, Bool.or_false]
  · exact ((under_descend hp hb hk false).mp h).2.2
  · rw [hbit, decide_eq_true rfl, Bool.or_true]

/-- **Masked comparison.** Cut down to the bits consumed at a node, a key exceeds the left child's
prefix exactly when the key itself has reached the right child's. -/
theorem lt_truncate_iff (hp : SupportedIn 0 d p) (hb : d + bits < w)
    (hk : SupportedIn d (d + bits) key) :
    descend d p key bits false < truncate x (d + bits + 1) ↔ descend d p key bits true ≤ x := by
  rw [descend_true_le_iff hp hb hk]
  constructor
  · intro hlt
    obtain ⟨n, hsame, hlow, hx⟩ := exists_first_diff_of_lt hlt
    rw [getMsbD_truncate, Bool.and_eq_true, decide_eq_true_iff] at hx
    refine ⟨n, by omega, fun i hi ↦ ?_, hlow, hx.2⟩
    rw [← hsame i hi, getMsbD_truncate, decide_eq_true (by omega), Bool.true_and]
  · rintro ⟨n, hn, hsame, hlow, hx⟩
    refine lt_of_first_diff (n := n) (fun i hi ↦ ?_) hlow ?_
    · rw [getMsbD_truncate, decide_eq_true (by omega), Bool.true_and, hsame i hi]
    · rw [getMsbD_truncate, decide_eq_true (by omega), Bool.true_and, hx]

end Split

end Patricia
