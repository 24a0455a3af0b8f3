import Cryptonite.Patricia.BitKey

/-!
# Compressed binary tries and their canonical form

A compressed trie stores at each inner node the run of bits its keys share below the parent, and
branches on the bit after that run. The trees here carry an annotation `m` on every leaf and node,
which no definition in this file reads, so that an implementation that keeps caches in its nodes is
an instance and not a second data type. A `stub` stands for a subtree that is known by a digest
only.

## The canonical form

`Canon d p t` says that `t` is a fully expanded trie hanging below the prefix `p` of length `d`.
The one theorem everything else rests on is `Canon.ext`: a canonical tree is determined, up to its
annotations, by the finite map it represents. The proof is by induction on one of the trees, and
the only step with content is that two nodes with the same entries branch at the same position:
each has an entry on either side of its own branch bit, and none on both sides of an earlier one.
-/

namespace Patricia

/-- A compressed binary trie with keys of `w` bits: annotations `μ`, values `α`, digests `η`. -/
inductive Trie (w : ℕ) (μ α η : Type) where
  | leaf (m : μ) (k : BitVec w) (v : α)
  | node (m : μ) (key : BitVec w) (bits : ℕ) (l r : Trie w μ α η)
  | stub (h : η)
  deriving DecidableEq, Repr

variable {w : ℕ} {μ α η : Type}

/-- The prefix of a child: the node's own prefix, its fragment, and the branch bit. -/
def descend (d : ℕ) (p key : BitVec w) (bits : ℕ) (right : Bool) : BitVec w :=
  p ||| key ||| sideBit (d + bits) right

section Descend

variable {d bits : ℕ} {p key : BitVec w}

theorem getMsbD_descend (hb : d + bits < w) (right : Bool) (i : ℕ) :
    (descend d p key bits right).getMsbD i
      = (p.getMsbD i || key.getMsbD i || (right && decide (i = d + bits))) := by
  rw [descend, BitVec.getMsbD_or, BitVec.getMsbD_or, getMsbD_sideBit right hb]

theorem supportedIn_descend (hp : SupportedIn 0 d p) (hb : d + bits < w)
    (hk : SupportedIn d (d + bits) key) (right : Bool) :
    SupportedIn 0 (d + bits + 1) (descend d p key bits right) :=
  ((hp.mono le_rfl (by omega)).or (hk.mono (by omega) (by omega))).or
    ((supportedIn_sideBit right hb).mono (by omega) le_rfl)

/-- A key lies below a child exactly when it lies below the node, matches the node's fragment and
takes the child's side. -/
theorem under_descend (hp : SupportedIn 0 d p) (hb : d + bits < w)
    (hk : SupportedIn d (d + bits) key) (right : Bool) {x : BitVec w} :
    Under (d + bits + 1) (descend d p key bits right) x ↔
      Under d p x ∧ (∀ i, d ≤ i → i < d + bits → x.getMsbD i = key.getMsbD i) ∧
        x.getMsbD (d + bits) = right := by
  constructor
  · intro h
    refine ⟨fun i hi ↦ ?_, fun i hlo hhi ↦ ?_, ?_⟩
    · have hne : i ≠ d + bits := by omega
      rw [h i (by omega), getMsbD_descend hb, hk.getMsbD_of_lt hi]
      simp [hne]
    · rw [h i (by omega), getMsbD_descend hb, hp.getMsbD_of_ge hlo]
      simp [hhi.ne]
    · rw [h (d + bits) (by omega), getMsbD_descend hb, hp.getMsbD_of_ge (by omega),
        hk.getMsbD_of_ge le_rfl]
      simp
  · rintro ⟨hpre, hfrag, hbit⟩ i hi
    rw [getMsbD_descend hb]
    rcases lt_trichotomy i (d + bits) with hlt | rfl | hgt
    · by_cases hd : i < d
      · rw [hpre i hd, hk.getMsbD_of_lt hd]
        simp [hlt.ne]
      · rw [hfrag i (by omega) hlt, hp.getMsbD_of_ge (by omega)]
        simp [hlt.ne]
    · rw [hbit, hp.getMsbD_of_ge (by omega), hk.getMsbD_of_ge le_rfl]
      simp
    · omega

end Descend

namespace Trie

/-- `t` is a full trie in canonical form below the prefix `p` of length `d`. -/
def Canon : ℕ → BitVec w → Trie w μ α η → Prop
  | d, p, .leaf _ k _ => Under d p k
  | d, p, .node _ key bits l r =>
    d + bits < w ∧ SupportedIn d (d + bits) key ∧
      Canon (d + bits + 1) (descend d p key bits false) l ∧
      Canon (d + bits + 1) (descend d p key bits true) r
  | _, _, .stub _ => False

/-- The finite map a tree represents: the entries of its leaves. -/
def toMap : Trie w μ α η → BitVec w → Option α
  | .leaf _ k v, x => if x = k then some v else none
  | .node _ _ _ l r, x => (toMap l x).or (toMap r x)
  | .stub _, _ => none

/-- Forget the annotations. -/
def erase : Trie w μ α η → Trie w Unit α η
  | .leaf _ k v => .leaf () k v
  | .node _ key bits l r => .node () key bits l.erase r.erase
  | .stub h => .stub h

/-! ## Entries of a canonical tree -/

theorem Canon.under : ∀ {t : Trie w μ α η} {d : ℕ} {p x : BitVec w} {v : α},
    SupportedIn 0 d p → t.Canon d p → t.toMap x = some v → Under d p x := by
  intro t
  induction t with
  | leaf m k u =>
    intro d p x v _ hC hx
    rw [toMap] at hx
    split at hx
    · rename_i heq
      exact heq ▸ hC
    · simp at hx
  | node m key bits l r ihl ihr =>
    intro d p x v hp hC hx
    obtain ⟨hb, hk, hl, hr⟩ := hC
    rw [toMap, Option.or_eq_some_iff] at hx
    rcases hx with hx | ⟨-, hx⟩
    · exact ((under_descend hp hb hk false).mp (ihl (supportedIn_descend hp hb hk false) hl hx)).1
    · exact ((under_descend hp hb hk true).mp (ihr (supportedIn_descend hp hb hk true) hr hx)).1
  | stub h => intro d p x v _ hC; exact hC.elim

variable {d bits : ℕ} {p k₁ k₂ key : BitVec w} {m₁ m₂ : μ} {l₁ r₁ l₂ r₂ : Trie w μ α η}

theorem Canon.toMap_eq_none {t : Trie w μ α η} {x : BitVec w} (hp : SupportedIn 0 d p)
    (hC : t.Canon d p) (hx : ¬Under d p x) : t.toMap x = none := by
  rcases h : t.toMap x with _ | v
  · rfl
  · exact absurd (hC.under hp h) hx

theorem Canon.exists_entry : ∀ {t : Trie w μ α η} {d : ℕ} {p : BitVec w},
    t.Canon d p → ∃ x v, t.toMap x = some v := by
  intro t
  induction t with
  | leaf m k u => intro d p _; exact ⟨k, u, by simp [toMap]⟩
  | node m key bits l r ihl _ =>
    intro d p hC
    obtain ⟨x, v, hx⟩ := ihl hC.2.2.1
    exact ⟨x, v, by rw [toMap, hx, Option.some_or]⟩
  | stub h => intro d p hC; exact hC.elim

section Node

variable {d bits : ℕ} {p key : BitVec w} {m : μ} {l r : Trie w μ α η}

theorem Canon.toMap_node (hp : SupportedIn 0 d p) (hC : (Trie.node m key bits l r).Canon d p)
    (x : BitVec w) : (Trie.node m key bits l r).toMap x
      = if x.getMsbD (d + bits) then r.toMap x else l.toMap x := by
  obtain ⟨hb, hk, hl, hr⟩ := hC
  have hleft : x.getMsbD (d + bits) = true → l.toMap x = none := fun hbit ↦
    hl.toMap_eq_none (supportedIn_descend hp hb hk false) fun hx ↦ by
      simpa [hbit] using ((under_descend hp hb hk false).mp hx).2.2
  have hright : x.getMsbD (d + bits) = false → r.toMap x = none := fun hbit ↦
    hr.toMap_eq_none (supportedIn_descend hp hb hk true) fun hx ↦ by
      simpa [hbit] using ((under_descend hp hb hk true).mp hx).2.2
  rw [toMap]
  cases hbit : x.getMsbD (d + bits) with
  | false => rw [hright hbit, Option.or_none, if_neg (by simp)]
  | true => rw [hleft hbit, Option.none_or, if_pos rfl]

theorem Canon.fragment (hp : SupportedIn 0 d p) (hC : (Trie.node m key bits l r).Canon d p)
    {x : BitVec w} {v : α} (hx : (Trie.node m key bits l r).toMap x = some v) :
    ∀ i, d ≤ i → i < d + bits → x.getMsbD i = key.getMsbD i := by
  obtain ⟨hb, hk, hl, hr⟩ := hC
  rw [toMap, Option.or_eq_some_iff] at hx
  rcases hx with hx | ⟨-, hx⟩
  · exact ((under_descend hp hb hk false).mp (hl.under (supportedIn_descend hp hb hk false) hx)).2.1
  · exact ((under_descend hp hb hk true).mp (hr.under (supportedIn_descend hp hb hk true) hx)).2.1

theorem Canon.exists_side (hp : SupportedIn 0 d p) (hC : (Trie.node m key bits l r).Canon d p)
    (right : Bool) :
    ∃ x v, (Trie.node m key bits l r).toMap x = some v ∧ x.getMsbD (d + bits) = right := by
  have hC' := hC
  obtain ⟨hb, hk, hl, hr⟩ := hC'
  cases right with
  | false =>
    obtain ⟨x, v, hx⟩ := hl.exists_entry
    refine ⟨x, v, by rw [toMap, hx, Option.some_or], ?_⟩
    exact ((under_descend hp hb hk false).mp (hl.under (supportedIn_descend hp hb hk false) hx)).2.2
  | true =>
    obtain ⟨x, v, hx⟩ := hr.exists_entry
    have hbit : x.getMsbD (d + bits) = true := ((under_descend hp hb hk true).mp
      (hr.under (supportedIn_descend hp hb hk true) hx)).2.2
    exact ⟨x, v, by rw [hC.toMap_node hp, hbit, if_pos rfl, hx], hbit⟩

end Node

/-! ## Uniqueness -/

theorem Canon.bits_le_of_toMap_eq {b₁ b₂ : ℕ} (hp : SupportedIn 0 d p)
    (h₁ : (Trie.node m₁ k₁ b₁ l₁ r₁).Canon d p) (h₂ : (Trie.node m₂ k₂ b₂ l₂ r₂).Canon d p)
    (heq : ∀ x, (Trie.node m₁ k₁ b₁ l₁ r₁).toMap x = (Trie.node m₂ k₂ b₂ l₂ r₂).toMap x) :
    b₂ ≤ b₁ := by
  by_contra hlt
  -- an earlier branch in the first tree would split entries the second keeps together
  obtain ⟨x, v, hx, hxbit⟩ := h₁.exists_side hp false
  obtain ⟨y, u, hy, hybit⟩ := h₁.exists_side hp true
  rw [heq] at hx hy
  have hxf := h₂.fragment hp hx (d + b₁) (by omega) (by omega)
  have hyf := h₂.fragment hp hy (d + b₁) (by omega) (by omega)
  rw [hxbit] at hxf
  rw [hybit, ← hxf] at hyf
  cases hyf

theorem Canon.exists_toMap_ne_leaf {m : μ} {l r : Trie w μ α η}
    (hp : SupportedIn 0 d p) (hC : (Trie.node m key bits l r).Canon d p) (m' : μ) (k : BitVec w)
    (v : α) :
    ∃ x, (Trie.node m key bits l r).toMap x ≠ (Trie.leaf m' k v : Trie w μ α η).toMap x := by
  by_contra! heq
  have honly : ∀ {x u}, (Trie.node m key bits l r).toMap x = some u → x = k := by
    intro x u hx
    by_contra hne
    rw [heq, toMap, if_neg hne] at hx
    cases hx
  obtain ⟨x, u, hx, hxbit⟩ := hC.exists_side hp false
  obtain ⟨y, u', hy, hybit⟩ := hC.exists_side hp true
  rw [honly hx] at hxbit
  rw [honly hy, hxbit] at hybit
  cases hybit

theorem Canon.key_eq_of_toMap_eq (hp : SupportedIn 0 d p)
    (h₁ : (Trie.node m₁ k₁ bits l₁ r₁).Canon d p) (h₂ : (Trie.node m₂ k₂ bits l₂ r₂).Canon d p)
    (heq : ∀ x, (Trie.node m₁ k₁ bits l₁ r₁).toMap x = (Trie.node m₂ k₂ bits l₂ r₂).toMap x) :
    k₁ = k₂ := by
  obtain ⟨x, v, hx, -⟩ := h₁.exists_side hp false
  refine h₁.2.1.ext h₂.2.1 fun i hlo hhi ↦ ?_
  rw [← h₁.fragment hp hx i hlo hhi, h₂.fragment hp (heq x ▸ hx) i hlo hhi]

/-- Canonical nodes with the same fragment and the same entries have children with the same
entries. -/
theorem Canon.toMap_children_eq (hp : SupportedIn 0 d p)
    (h₁ : (Trie.node m₁ key bits l₁ r₁).Canon d p) (h₂ : (Trie.node m₂ key bits l₂ r₂).Canon d p)
    (heq : ∀ x, (Trie.node m₁ key bits l₁ r₁).toMap x = (Trie.node m₂ key bits l₂ r₂).toMap x) :
    (∀ x, l₁.toMap x = l₂.toMap x) ∧ ∀ x, r₁.toMap x = r₂.toMap x := by
  have hsel : ∀ x, (if x.getMsbD (d + bits) then r₁.toMap x else l₁.toMap x)
      = if x.getMsbD (d + bits) then r₂.toMap x else l₂.toMap x := by
    intro x
    rw [← h₁.toMap_node hp, ← h₂.toMap_node hp, heq]
  obtain ⟨hb, hk, hl₁, hr₁⟩ := h₁
  obtain ⟨-, -, hl₂, hr₂⟩ := h₂
  -- a child has no entry on the other side of the branch bit
  have hside : ∀ {right : Bool} {u : Trie w μ α η},
      u.Canon (d + bits + 1) (descend d p key bits right) → ∀ x,
      x.getMsbD (d + bits) ≠ right → u.toMap x = none := by
    intro right u hu x hne
    exact hu.toMap_eq_none (supportedIn_descend hp hb hk right) fun hx ↦
      hne ((under_descend hp hb hk right).mp hx).2.2
  refine ⟨fun x ↦ ?_, fun x ↦ ?_⟩
  · cases hbit : x.getMsbD (d + bits) with
    | false => simpa [hbit] using hsel x
    | true => rw [hside hl₁ x (by simp [hbit]), hside hl₂ x (by simp [hbit])]
  · cases hbit : x.getMsbD (d + bits) with
    | true => simpa [hbit] using hsel x
    | false => rw [hside hr₁ x (by simp [hbit]), hside hr₂ x (by simp [hbit])]

/-- **Canonical trees are determined by their entries.** -/
theorem Canon.ext : ∀ {t t' : Trie w μ α η} {d : ℕ} {p : BitVec w}, SupportedIn 0 d p →
    t.Canon d p → t'.Canon d p → (∀ x, t.toMap x = t'.toMap x) → t.erase = t'.erase := by
  intro t
  induction t with
  | leaf m k v =>
    intro t' d p hp hC hC' heq
    cases t' with
    | leaf m' k' v' =>
      have h := heq k
      rw [toMap, if_pos rfl, toMap] at h
      split at h
      · rename_i hk
        rw [Option.some_inj] at h
        rw [erase, erase, hk, h]
      · simp at h
    | node m' key bits l r =>
      obtain ⟨x, hx⟩ := hC'.exists_toMap_ne_leaf hp m k v
      exact absurd (heq x).symm hx
    | stub h => exact hC'.elim
  | node m key bits l r ihl ihr =>
    intro t' d p hp hC hC' heq
    cases t' with
    | leaf m' k' v' =>
      obtain ⟨x, hx⟩ := hC.exists_toMap_ne_leaf hp m' k' v'
      exact absurd (heq x) hx
    | node m' key' bits' l' r' =>
      obtain rfl : bits = bits' := le_antisymm
        (Canon.bits_le_of_toMap_eq hp hC' hC fun x ↦ (heq x).symm)
        (Canon.bits_le_of_toMap_eq hp hC hC' heq)
      obtain rfl : key = key' := Canon.key_eq_of_toMap_eq hp hC hC' heq
      obtain ⟨hl, hr⟩ := Canon.toMap_children_eq hp hC hC' heq
      rw [erase, erase, ihl (supportedIn_descend hp hC.1 hC.2.1 false) hC.2.2.1 hC'.2.2.1 hl,
        ihr (supportedIn_descend hp hC.1 hC.2.1 true) hC.2.2.2 hC'.2.2.2 hr]
    | stub h => exact hC'.elim
  | stub h => intro t' d p _ hC; exact hC.elim

end Trie

end Patricia
