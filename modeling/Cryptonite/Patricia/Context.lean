import Cryptonite.Patricia.Trie

/-!
# One-hole contexts of compressed tries

An implementation that walks a trie by parent pointers holds, besides the subtree in front of it,
everything above it. That is a one-hole context: a list of frames, nearest ancestor first, each
with the ancestor's own data, the side the hole is on, and the other child. `plug` puts a subtree
into the hole.

The two numbers such an implementation recomputes by walking up — how many key bits are consumed
above the hole, and which bits they are — are `depth` and `pfx`, and `canon_plug` says that they
are exactly the position the hole has in the canonical form. Every local rewrite of a trie is then
three facts: the rewritten subtree is canonical at that position, `toMap_plug_of_under` inside the
hole's prefix, and `toMap_plug_of_not_under` outside it.
-/

namespace Patricia

open Function

variable {w : ℕ} {μ α η : Type}

/-- One ancestor of a focused subtree. -/
structure Frame (w : ℕ) (μ α η : Type) where
  /-- The ancestor's annotation. -/
  m : μ
  /-- The ancestor's fragment. -/
  key : BitVec w
  /-- The length of the fragment. -/
  bits : ℕ
  /-- Whether the hole is the right child. -/
  right : Bool
  /-- The child that is not the hole. -/
  sibling : Trie w μ α η

namespace Frame

/-- Put a subtree into the hole of one frame. -/
def plug (f : Frame w μ α η) (t : Trie w μ α η) : Trie w μ α η :=
  if f.right then .node f.m f.key f.bits f.sibling t else .node f.m f.key f.bits t f.sibling

def mapMeta (g : μ → μ) (f : Frame w μ α η) : Frame w μ α η := { f with m := g f.m }

end Frame

def plug : List (Frame w μ α η) → Trie w μ α η → Trie w μ α η
  | [], t => t
  | f :: fs, t => plug fs (f.plug t)

/-- The number of key bits consumed above the hole. -/
def depth : List (Frame w μ α η) → ℕ
  | [] => 0
  | f :: fs => depth fs + f.bits + 1

/-- The key bits consumed above the hole. -/
def pfx : List (Frame w μ α η) → BitVec w
  | [] => 0#w
  | f :: fs => descend (depth fs) (pfx fs) f.key f.bits f.right

/-- The context is canonical: plugging a canonical subtree into it gives a canonical tree. -/
def CanonCtx : List (Frame w μ α η) → Prop
  | [] => True
  | f :: fs => CanonCtx fs ∧ depth fs + f.bits < w ∧
      SupportedIn (depth fs) (depth fs + f.bits) f.key ∧
      f.sibling.Canon (depth fs + f.bits + 1)
        (descend (depth fs) (pfx fs) f.key f.bits (!f.right))

theorem supportedIn_pfx : ∀ {fs : List (Frame w μ α η)}, CanonCtx fs →
    SupportedIn 0 (depth fs) (pfx fs) := by
  intro fs
  induction fs with
  | nil => intro _; exact supportedIn_zero 0 0
  | cons f fs ih =>
    intro hC
    exact supportedIn_descend (ih hC.1) hC.2.1 hC.2.2.1 f.right

variable {f : Frame w μ α η} {t : Trie w μ α η} {d : ℕ} {p k : BitVec w}
  {fs : List (Frame w μ α η)} {v : α}

theorem Frame.canon_plug_iff :
    (f.plug t).Canon d p ↔ d + f.bits < w ∧ SupportedIn d (d + f.bits) f.key ∧
      f.sibling.Canon (d + f.bits + 1) (descend d p f.key f.bits (!f.right)) ∧
      t.Canon (d + f.bits + 1) (descend d p f.key f.bits f.right) := by
  rw [Frame.plug]
  cases f.right <;> simp only [Bool.not_true, Bool.not_false, if_true, Bool.false_eq_true,
    if_false, Trie.Canon]
  tauto

theorem canon_plug : ∀ {fs : List (Frame w μ α η)} {t : Trie w μ α η},
    (plug fs t).Canon 0 0#w ↔ CanonCtx fs ∧ t.Canon (depth fs) (pfx fs) := by
  intro fs
  induction fs with
  | nil => intro t; simp [plug, CanonCtx, depth, pfx]
  | cons f fs ih =>
    intro t
    rw [plug, ih, Frame.canon_plug_iff, CanonCtx, depth, pfx]
    tauto

/-! ## The map of a plugged context -/

theorem Frame.toMap_plug (hp : SupportedIn 0 d p) (hC : (f.plug t).Canon d p) (x : BitVec w) :
    (f.plug t).toMap x
      = if x.getMsbD (d + f.bits) = f.right then t.toMap x else f.sibling.toMap x := by
  rw [Frame.plug] at hC ⊢
  cases hr : f.right with
  | false =>
    rw [hr] at hC
    simp only [Bool.false_eq_true, if_false] at hC ⊢
    rw [hC.toMap_node hp]
    cases x.getMsbD (d + f.bits) <;> rfl
  | true =>
    rw [hr] at hC
    simp only [if_true] at hC ⊢
    rw [hC.toMap_node hp]

theorem toMap_plug_of_under : ∀ {fs : List (Frame w μ α η)} {t : Trie w μ α η} {x : BitVec w},
    (plug fs t).Canon 0 0#w → Under (depth fs) (pfx fs) x → (plug fs t).toMap x = t.toMap x := by
  intro fs
  induction fs with
  | nil => intro t x _ _; rfl
  | cons f fs ih =>
    intro t x hC hx
    rw [plug] at hC ⊢
    obtain ⟨hctx, hnode⟩ := canon_plug.mp hC
    have hp := supportedIn_pfx hctx
    obtain ⟨hb, hk, -, -⟩ := Frame.canon_plug_iff.mp hnode
    obtain ⟨hpre, -, hbit⟩ := (under_descend hp hb hk f.right).mp hx
    rw [ih hC hpre, Frame.toMap_plug hp hnode, if_pos hbit]

/-- **The frame rule.** Outside the hole's prefix the subtree does not matter. -/
theorem toMap_plug_of_not_under :
    ∀ {fs : List (Frame w μ α η)} {t t' : Trie w μ α η} {x : BitVec w},
      (plug fs t).Canon 0 0#w → (plug fs t').Canon 0 0#w → ¬Under (depth fs) (pfx fs) x →
      (plug fs t).toMap x = (plug fs t').toMap x := by
  intro fs
  induction fs with
  | nil => intro t t' x _ _ hx; exact absurd (fun i hi ↦ absurd hi (Nat.not_lt_zero i)) hx
  | cons f fs ih =>
    intro t t' x hC hC' hx
    rw [plug] at hC hC' ⊢
    rw [plug]
    by_cases hpre : Under (depth fs) (pfx fs) x
    · obtain ⟨hctx, hnode⟩ := canon_plug.mp hC
      obtain ⟨-, hnode'⟩ := canon_plug.mp hC'
      have hp := supportedIn_pfx hctx
      obtain ⟨hb, hk, -, ht⟩ := Frame.canon_plug_iff.mp hnode
      obtain ⟨-, -, -, ht'⟩ := Frame.canon_plug_iff.mp hnode'
      -- an entry of either subtree would lie below the hole's prefix
      have hnone : ∀ {u : Trie w μ α η},
          u.Canon (depth fs + f.bits + 1) (descend (depth fs) (pfx fs) f.key f.bits f.right) →
          u.toMap x = none := by
        intro u hu
        by_contra hsome
        obtain ⟨v, hv⟩ := Option.ne_none_iff_exists'.mp hsome
        exact hx (hu.under (supportedIn_descend hp hb hk f.right) hv)
      rw [toMap_plug_of_under hC hpre, toMap_plug_of_under hC' hpre, Frame.toMap_plug hp hnode,
        Frame.toMap_plug hp hnode', hnone ht, hnone ht']
    · exact ih hC hC' hpre

/-! ## Annotations do not matter -/

section Meta

variable (g : μ → μ)

@[simp] theorem depth_mapMeta (fs : List (Frame w μ α η)) :
    depth (fs.map (Frame.mapMeta g)) = depth fs := by
  induction fs with
  | nil => rfl
  | cons f fs ih => rw [List.map_cons, depth, depth, ih]; rfl

theorem Frame.erase_plug_mapMeta (f : Frame w μ α η) (t : Trie w μ α η) :
    ((f.mapMeta g).plug t).erase = (f.plug t).erase := by
  rw [Frame.plug, Frame.plug, Frame.mapMeta]
  cases f.right <;> rfl

theorem erase_plug_congr : ∀ {fs : List (Frame w μ α η)} {t t' : Trie w μ α η},
    t.erase = t'.erase → (plug fs t).erase = (plug fs t').erase := by
  intro fs
  induction fs with
  | nil => intro t t' h; exact h
  | cons f fs ih =>
    intro t t' h
    refine ih ?_
    rw [Frame.plug, Frame.plug]
    cases f.right <;> simp [Trie.erase, h]

@[simp] theorem erase_plug_mapMeta (fs : List (Frame w μ α η)) (t : Trie w μ α η) :
    (plug (fs.map (Frame.mapMeta g)) t).erase = (plug fs t).erase := by
  induction fs generalizing t with
  | nil => rfl
  | cons f fs ih =>
    rw [List.map_cons, plug, plug, ih]
    exact erase_plug_congr (Frame.erase_plug_mapMeta g f t)

end Meta

/-- The number of nodes on the longest way down. -/
def Trie.height : Trie w μ α η → ℕ
  | .leaf _ _ _ => 1
  | .node _ _ _ l r => max l.height r.height + 1
  | .stub _ => 1

section Relabel

variable {ν : Type} (g : μ → ν)

def Trie.relabel : Trie w μ α η → Trie w ν α η
  | .leaf m k v => .leaf (g m) k v
  | .node m key bits l r => .node (g m) key bits l.relabel r.relabel
  | .stub h => .stub h

/-- Replace the annotations of the ancestor and of its other child. -/
def Frame.relabel (f : Frame w μ α η) : Frame w ν α η :=
  ⟨g f.m, f.key, f.bits, f.right, f.sibling.relabel g⟩

theorem relabel_plug (fs : List (Frame w μ α η)) (t : Trie w μ α η) :
    (plug fs t).relabel g = plug (fs.map (Frame.relabel g)) (t.relabel g) := by
  induction fs generalizing t with
  | nil => rfl
  | cons f fs ih =>
    rw [plug, ih, List.map_cons, plug, Frame.plug, Frame.plug, Frame.relabel]
    cases f.right <;> rfl

theorem Trie.height_relabel (t : Trie w μ α η) : (t.relabel g).height = t.height := by
  induction t with
  | leaf m k v => rfl
  | node m key bits l r ihl ihr => rw [relabel, height, height, ihl, ihr]
  | stub h => rfl

end Relabel

/-! ## How deep a canonical tree is -/

theorem length_le_depth (fs : List (Frame w μ α η)) : fs.length ≤ depth fs := by
  induction fs with
  | nil => exact le_rfl
  | cons f fs ih =>
    rw [List.length_cons, depth]
    exact Nat.succ_le_succ (ih.trans (Nat.le_add_right _ _))

theorem CanonCtx.depth_le (hC : CanonCtx fs) : depth fs ≤ w := by
  cases fs with
  | nil => exact Nat.zero_le w
  | cons f fs => exact hC.2.1

theorem Trie.Canon.add_height_le (hC : t.Canon d p) (hd : d ≤ w) : d + t.height ≤ w + 1 := by
  induction t generalizing d p with
  | leaf m k v => exact Nat.succ_le_succ hd
  | node m key bits l r ihl ihr =>
    obtain ⟨hb, -, hl, hr⟩ := hC
    have hl := ihl hl hb
    have hr := ihr hr hb
    rw [height]
    omega
  | stub h => exact hC.elim

namespace Trie

theorem toMap_erase (t : Trie w μ α η) : t.erase.toMap = t.toMap := by
  induction t with
  | leaf m k v => rfl
  | node m key bits l r ihl ihr => funext x; rw [erase, toMap, toMap, ihl, ihr]
  | stub h => rfl

variable {d : ℕ} {p : BitVec w} {t t' : Trie w μ α η}

theorem canon_erase (t : Trie w μ α η) : t.erase.Canon d p ↔ t.Canon d p := by
  induction t generalizing d p with
  | leaf m k v => rfl
  | node m key bits l r ihl ihr => rw [erase, Canon, Canon, ihl, ihr]
  | stub h => rfl

theorem toMap_congr (h : t.erase = t'.erase) : t.toMap = t'.toMap := by
  rw [← toMap_erase t, ← toMap_erase t', h]

theorem canon_congr (h : t.erase = t'.erase) : t.Canon d p ↔ t'.Canon d p := by
  rw [← canon_erase t, ← canon_erase t', h]

end Trie

/-! ## Splitting and merging nodes -/

section Merge

variable {d b b' : ℕ} {p key key' : BitVec w}

theorem descend_descend (side s : Bool) : descend (d + b + 1) (descend d p key b side) key' b' s
      = descend d p (key' ||| key ||| sideBit (d + b) side) (b' + b + 1) s := by
  rw [descend, descend, descend, (by omega : d + b + 1 + b' = d + (b' + b + 1))]
  ac_rfl

theorem canon_merge_iff {m n : μ} {l r : Trie w μ α η} {side : Bool} (hb : d + b < w)
    (hk : SupportedIn d (d + b) key) (hk' : SupportedIn (d + b + 1) (d + b + 1 + b') key') :
    (Trie.node m key' b' l r).Canon (d + b + 1) (descend d p key b side) ↔
      (Trie.node n (key' ||| key ||| sideBit (d + b) side) (b' + b + 1) l r).Canon d p := by
  have hjoin : SupportedIn d (d + (b' + b + 1)) (key' ||| key ||| sideBit (d + b) side) :=
    ((hk'.mono (by omega) (by omega)).or (hk.mono le_rfl (by omega))).or
      ((supportedIn_sideBit side hb).mono (by omega) (by omega))
  simp only [Trie.Canon, descend_descend, hk', hjoin, true_and]
  rw [(by omega : d + b + 1 + b' = d + (b' + b + 1))]

/-- A fragment is its first `n` bits, the bit after them, and the rest. -/
theorem fragment_split {n : ℕ} (hn : n < b) (hb : d + b < w) (hk : SupportedIn d (d + b) key) :
    slice key (d + n + 1) (b - n - 1) ||| slice key d n ||| sideBit (d + n) (key.getMsbD (d + n))
      = key := by
  have h₁ : SupportedIn d (d + b) (slice key (d + n + 1) (b - n - 1)) :=
    (supportedIn_slice (by omega)).mono (by omega) (by omega)
  have h₂ : SupportedIn d (d + b) (slice key d n) :=
    (supportedIn_slice (by omega)).mono le_rfl (by omega)
  have h₃ : SupportedIn d (d + b) (sideBit (d + n) (key.getMsbD (d + n)) : BitVec w) :=
    (supportedIn_sideBit _ (by omega)).mono (by omega) (by omega)
  refine ((h₁.or h₂).or h₃).ext hk fun i hlo hhi ↦ ?_
  rw [BitVec.getMsbD_or, BitVec.getMsbD_or, getMsbD_slice (by omega), getMsbD_slice (by omega),
    getMsbD_sideBit _ (by omega)]
  rcases lt_trichotomy i (d + n) with hlt | rfl | hgt
  · have hge : ¬d + n + 1 ≤ i := by omega
    simp [hge, hlo, hlt, hlt.ne]
  · simp
  · have hin : i < d + n + 1 + (b - n - 1) := by omega
    simp [Nat.succ_le_of_lt hgt, hin, hgt.not_gt, hgt.ne']

end Merge

namespace Trie

variable {d : ℕ} {p : BitVec w}

/-- The key of a leaf, the fragment of a node. -/
def label : Trie w μ α η → BitVec w
  | .leaf _ k _ => k
  | .node _ key _ _ _ => key
  | .stub _ => 0#w

/-- Shorten a node's fragment by its first `n` bits and the bit after them; `f` acts on the
annotation. -/
def cut (f : μ → μ) (d n : ℕ) : Trie w μ α η → Trie w μ α η
  | .node m key bits l r => .node (f m) (slice key (d + n + 1) (bits - n - 1)) (bits - n - 1) l r
  | t => t

/-- Prepend to a node's fragment the fragment and the branch bit of the parent it replaces. -/
def absorb (f : μ → μ) (d : ℕ) (key : BitVec w) (bits : ℕ) (side : Bool) :
    Trie w μ α η → Trie w μ α η
  | .node m key' bits' l r =>
    .node (f m) (key' ||| key ||| sideBit (d + bits) side) (bits' + bits + 1) l r
  | t => t

@[simp] theorem toMap_cut (f : μ → μ) (d n : ℕ) (t : Trie w μ α η) :
    (t.cut f d n).toMap = t.toMap := by
  cases t <;> rfl

@[simp] theorem toMap_absorb (f : μ → μ) (d : ℕ) (key : BitVec w) (bits : ℕ) (side : Bool)
    (t : Trie w μ α η) : (t.absorb f d key bits side).toMap = t.toMap := by
  cases t <;> rfl

/-- The positions at which the label of a tree is the common key of all its entries. -/
def Labelled (d n : ℕ) : Trie w μ α η → Prop
  | .leaf _ _ _ => d + n < w
  | .node _ _ bits _ _ => n < bits
  | .stub _ => False

variable {f : μ → μ} {t : Trie w μ α η}

theorem Canon.cut {n : ℕ} (hp : SupportedIn 0 d p) (hC : t.Canon d p) (hn : t.Labelled d n) :
    (t.cut f d n).Canon (d + n + 1) (descend d p (slice t.label d n) n (t.label.getMsbD (d + n)))
    := by
  cases t with
  | leaf m k v =>
    have hw : d + n < w := hn
    have hfrag : SupportedIn d (d + n) (slice k d n) := supportedIn_slice hw.le
    refine (under_descend hp hw hfrag _).mpr ⟨hC, fun i hlo hhi ↦ ?_, rfl⟩
    simp [getMsbD_slice hw.le, hlo, hhi]
  | node m key bits l r =>
    have hn' : n < bits := hn
    obtain ⟨hb, hk, hl, hr⟩ := hC
    refine (canon_merge_iff (n := m) (by omega) (supportedIn_slice (by omega))
      (supportedIn_slice (by omega))).mpr ?_
    rw [label, fragment_split hn' hb hk, (by omega : bits - n - 1 + n + 1 = bits)]
    exact ⟨hb, hk, hl, hr⟩
  | stub h => exact hC.elim

theorem Canon.absorb {bits : ℕ} {key : BitVec w} {side : Bool}
    (hp : SupportedIn 0 d p) (hb : d + bits < w) (hk : SupportedIn d (d + bits) key)
    (hC : t.Canon (d + bits + 1) (descend d p key bits side)) :
    (t.absorb f d key bits side).Canon d p := by
  cases t with
  | leaf m k v => exact ((under_descend hp hb hk side).mp hC).1
  | node m key' bits' l r => exact (canon_merge_iff hb hk hC.2.1).mp hC
  | stub h => exact hC.elim

/-- **Branching off a new entry.** Where the key of a new leaf leaves the label of a tree for the
first time, a node over the two is canonical in the tree's place. -/
theorem Canon.branch {f : μ → μ} {m m' : μ} {n : ℕ} {t : Trie w μ α η} {k : BitVec w} {v : α}
    (hp : SupportedIn 0 d p) (hC : t.Canon d p) (hk : Under d p k) (hn : t.Labelled d n)
    (hw : d + n < w) (hsame : ∀ j < n, k.getMsbD (d + j) = t.label.getMsbD (d + j))
    (hne : k.getMsbD (d + n) ≠ t.label.getMsbD (d + n)) :
    ((⟨m, slice k d n, n, k.getMsbD (d + n), t.cut f d n⟩ : Frame w μ α η).plug
      (.leaf m' k v)).Canon d p := by
  have hfrag : SupportedIn d (d + n) (slice k d n) := supportedIn_slice hw.le
  have hslice : slice t.label d n = slice k d n := by
    refine (slice_eq_iff hw.le hfrag).mpr fun i hlo hhi ↦ ?_
    have h := hsame (i - d) (by omega)
    rw [Nat.add_sub_cancel' hlo] at h
    simp [getMsbD_slice hw.le, hlo, hhi, h]
  refine Frame.canon_plug_iff.mpr ⟨hw, hfrag, ?_, ?_⟩
  · have hcut := hC.cut (f := f) hp hn
    rwa [hslice, (Bool.eq_not_of_ne hne.symm : t.label.getMsbD (d + n) = !k.getMsbD (d + n))]
      at hcut
  · refine (under_descend hp hw hfrag _).mpr ⟨hk, fun i hlo hhi ↦ ?_, rfl⟩
    simp [getMsbD_slice hw.le, hlo, hhi]

end Trie

/-! ## Updates through the hole -/

theorem toMap_plug_update {t' : Trie w μ α η}
    {o : Option α} (hC : (plug fs t).Canon 0 0#w) (ht' : t'.Canon (depth fs) (pfx fs))
    (hk : Under (depth fs) (pfx fs) k) (hmap : t'.toMap = update t.toMap k o) :
    (plug fs t').toMap = update (plug fs t).toMap k o := by
  have hC' : (plug fs t').Canon 0 0#w := canon_plug.mpr ⟨(canon_plug.mp hC).1, ht'⟩
  funext x
  by_cases hx : Under (depth fs) (pfx fs) x
  · rw [toMap_plug_of_under hC' hx, hmap, update_apply, update_apply, toMap_plug_of_under hC hx]
  · have hne : x ≠ k := by
      rintro rfl
      exact hx hk
    rw [update_of_ne hne, toMap_plug_of_not_under hC' hC hx]

theorem Trie.toMap_leaf (m : μ) (k : BitVec w) (v : α) :
    (Trie.leaf m k v : Trie w μ α η).toMap = update (fun _ ↦ none) k (some v) := by
  funext x
  rw [update_apply, Trie.toMap]

theorem Frame.toMap_plug_leaf {m : μ} (h : f.sibling.toMap k = none) :
    (f.plug (.leaf m k v)).toMap = update f.sibling.toMap k (some v) := by
  funext x
  rw [Frame.plug, update_apply]
  by_cases hx : x = k
  · subst hx
    cases f.right <;> simp [Trie.toMap, h]
  · cases f.right <;> simp [Trie.toMap, hx]

theorem Frame.sibling_toMap_eq_none (hp : SupportedIn 0 d p) (hC : (f.plug t).Canon d p)
    (hk : t.toMap k = some v) : f.sibling.toMap k = none := by
  obtain ⟨hb, hkey, hs, ht⟩ := Frame.canon_plug_iff.mp hC
  by_contra hsome
  obtain ⟨u, hu⟩ := Option.ne_none_iff_exists'.mp hsome
  have hside := ((under_descend hp hb hkey _).mp
    (ht.under (supportedIn_descend hp hb hkey _) hk)).2.2
  have hother := ((under_descend hp hb hkey _).mp
    (hs.under (supportedIn_descend hp hb hkey _) hu)).2.2
  rw [hside] at hother
  simp at hother

end Patricia
