import Mathlib.Tactic.Abel
import Cryptonite.Foundation.PointsTo
import Cryptonite.Trie.Heap

/-!
# How a trie lies in memory

A trie whose nodes know their addresses determines the part of the memory it takes: one cell for
each node, which points to the cells of its children and back to its parent. Around a subtree there
are the cells of its ancestors and of what hangs off them. `LinkedNode.cells` and
`LinkedParents.cells` are the two, and `LinkedNode.cells_plug` puts them together again.

The methods of a node then have a specification each: which cells they are given and which cells
they leave, with any other cells next to them. The loops along `m_parent` change the annotations of
the frames above a node, which is what the functions of `Trie.Engine` do to them directly.
-/

namespace Cryptonite

open Patricia PointsTo

/-- Owned cells; an address with nothing at it is free. -/
abbrev Cells := Multiset (Ptr × Option Cell)

/-- A node that knows its address, with everything below it. -/
abbrev LinkedNode := Trie 160 (Ptr × NodeCache) AccountData UInt256

abbrev LinkedFrame := Frame 160 (Ptr × NodeCache) AccountData UInt256

/-- The ancestors of a node, nearest first. -/
abbrev LinkedParents := List LinkedFrame

namespace LinkedNode

def ptr : LinkedNode → Ptr
  | .leaf m _ _ => m.1
  | .node m _ _ _ _ => m.1
  | .stub _ => 0

def forget (t : LinkedNode) : TrieNode := t.relabel Prod.snd

/-- What is stored at the address of the node. -/
def cell (parent : Option Ptr) : LinkedNode → Cell
  | .leaf m k v =>
    { type := .leaf, cache := m.2, data := v, key := k, bits := 0, left := none, right := none
      parent }
  | .node m key bits l r =>
    { type := .branch, cache := m.2, data := .init, key, bits, left := some (ptr l)
      right := some (ptr r), parent }
  | .stub h =>
    { type := .hash, cache := { modified := false, hash := h, children := 0 }, data := .init
      key := 0, bits := 0, left := none, right := none, parent }

def below : LinkedNode → Cells
  | .node m _ _ l r =>
    ({(ptr l, some (cell (some m.1) l))} + below l) +
      ({(ptr r, some (cell (some m.1) r))} + below r)
  | _ => 0

/-- The cells of a subtree. -/
def cells (parent : Option Ptr) (t : LinkedNode) : Cells :=
  {(ptr t, some (cell parent t))} + below t

/-- What `Add` makes of the cell the node is added to. -/
def addTo (c : Cell) (t : LinkedNode) : Cell :=
  let c := { c with cache := c.cache.dirtify.add (forget t).children }
  if c.left.isNone then { c with left := some (ptr t) } else { c with right := some (ptr t) }

/-- What `Remove` makes of the cell the node is removed from. -/
def removeFrom (c : Cell) (t : LinkedNode) (right : Bool) : Cell :=
  let c := { c with cache := c.cache.dirtify.subtract (forget t).children }
  if right then { c with right := none } else { c with left := none }

theorem children_forget (parent : Option Ptr) (t : LinkedNode) :
    (cell parent t).cache.children = (forget t).children := by
  cases t <;> rfl

theorem key_cell (parent : Option Ptr) (t : LinkedNode) : (cell parent t).key = (forget t).key := by
  cases t <;> rfl

theorem parent_cell (parent : Option Ptr) (t : LinkedNode) : (cell parent t).parent = parent := by
  cases t <;> rfl

theorem mem_cells (parent : Option Ptr) (t : LinkedNode) :
    (ptr t, some (cell parent t)) ∈ cells parent t := by simp [cells]

theorem cells_leaf (parent : Option Ptr) (m : Ptr × NodeCache) (k : UInt160) (v : AccountData) :
    cells parent (.leaf m k v) = {(m.1, some (cell parent (.leaf m k v)))} := add_zero _

theorem cells_node (parent : Option Ptr) (m : Ptr × NodeCache) (key : UInt160) (bits : ℕ)
    (l r : LinkedNode) : cells parent (.node m key bits l r) =
      {(m.1, some (cell parent (.node m key bits l r)))} + (cells (some m.1) l +
        cells (some m.1) r) := rfl

theorem forget_node (m : Ptr × NodeCache) (key : UInt160) (bits : ℕ) (l r : LinkedNode) :
    forget (.node m key bits l r) = .node m.2 key bits (forget l) (forget r) := rfl

theorem cell_setParent (parent parent' : Option Ptr) (t : LinkedNode) :
    { cell parent t with parent := parent' } = cell parent' t := by
  cases t <;> rfl

end LinkedNode

namespace LinkedParents

/-- The `m_parent` of a node under these ancestors. -/
def parent : LinkedParents → Option Ptr
  | [] => none
  | f :: _ => some f.m.1

/-- The address of the root over a node. -/
def top (hole : Ptr) : LinkedParents → Ptr
  | [] => hole
  | f :: fs => top f.m.1 fs

/-- What is stored for an ancestor. -/
def frameCell (parent : Option Ptr) (hole : Ptr) (f : LinkedFrame) : Cell :=
  { type := .branch, cache := f.m.2, data := .init, key := f.key, bits := f.bits
    left := if f.right then some (LinkedNode.ptr f.sibling) else some hole
    right := if f.right then some hole else some (LinkedNode.ptr f.sibling), parent }

/-- The cells of the ancestors and of what hangs off them. -/
def cells (hole : Ptr) : LinkedParents → Cells
  | [] => 0
  | f :: fs =>
    {(f.m.1, some (frameCell (parent fs) hole f))} +
      (LinkedNode.cells (some f.m.1) f.sibling + cells f.m.1 fs)

/-- The variable that points to a node under these ancestors. -/
def slot : LinkedParents → Heap.Slot
  | [] => .root
  | f :: _ => if f.right then .right f.m.1 else .left f.m.1

def forget (fs : LinkedParents) : Parents := fs.map (Frame.relabel Prod.snd)

/-- Change the flag or the counter of every ancestor. -/
def relink (g : NodeCache → NodeCache) (fs : LinkedParents) : LinkedParents :=
  fs.map (Frame.mapMeta (Prod.map id g))

/-- `Dirtify` on the ancestors. -/
abbrev dirtify (fs : LinkedParents) : LinkedParents := relink NodeCache.dirtify fs

/-- `Add(uint64_t)` on the ancestors. -/
abbrev addCount (count : UInt64) (fs : LinkedParents) : LinkedParents :=
  relink (NodeCache.add count) fs

/-- `Subtract` on the ancestors. -/
abbrev subtract (count : UInt64) (fs : LinkedParents) : LinkedParents :=
  relink (NodeCache.subtract count) fs

variable (g : NodeCache → NodeCache) (fs : LinkedParents)

theorem relink_cons (f : LinkedFrame) :
    relink g (f :: fs) = f.mapMeta (Prod.map id g) :: relink g fs := rfl

@[simp] theorem parent_relink : parent (relink g fs) = parent fs := by
  cases fs <;> rfl

@[simp] theorem top_relink (hole : Ptr) : top hole (relink g fs) = top hole fs := by
  induction fs generalizing hole with
  | nil => rfl
  | cons f fs ih => exact ih f.m.1

@[simp] theorem slot_relink : slot (relink g fs) = slot fs := by
  cases fs <;> rfl

@[simp] theorem length_relink : (relink g fs).length = fs.length := List.length_map _

theorem forget_relink : forget (relink g fs) = (forget fs).map (Frame.mapMeta g) := by
  rw [forget, forget, relink, List.map_map, List.map_map]
  rfl

theorem forget_dirtify : forget (dirtify fs) = TrieNode.dirtify (forget fs) := forget_relink _ fs

theorem forget_addCount (count : UInt64) :
    forget (addCount count fs) = TrieNode.addCount count (forget fs) := forget_relink _ fs

theorem forget_subtract (count : UInt64) :
    forget (subtract count fs) = TrieNode.subtract count (forget fs) := forget_relink _ fs

@[simp] theorem dirtify_dirtify : dirtify (dirtify fs) = dirtify fs := by
  rw [dirtify, dirtify, relink, relink, List.map_map]
  rfl

theorem dirtify_addCount (count : UInt64) :
    dirtify (addCount count (dirtify fs)) = addCount count (dirtify fs) := by
  rw [addCount, dirtify, dirtify, relink, relink, relink, List.map_map, List.map_map, List.map_map]
  rfl

end LinkedParents

open LinkedParents (dirtify_addCount dirtify_dirtify forget_addCount forget_dirtify forget_subtract
  frameCell length_relink parent_relink relink relink_cons slot slot_relink top top_relink)

namespace LinkedNode

theorem forget_plug (fs : LinkedParents) (t : LinkedNode) :
    forget (plug fs t) = plug (LinkedParents.forget fs) (forget t) := relabel_plug Prod.snd fs t

theorem ptr_framePlug (f : LinkedFrame) (t : LinkedNode) : ptr (f.plug t) = f.m.1 := by
  rw [Frame.plug]
  split <;> rfl

theorem ptr_plug (fs : LinkedParents) (t : LinkedNode) : ptr (plug fs t) = top (ptr t) fs := by
  induction fs generalizing t with
  | nil => rfl
  | cons f fs ih => rw [plug, ih, ptr_framePlug, top]

theorem cells_framePlug (parent : Option Ptr) (f : LinkedFrame) (t : LinkedNode) :
    cells parent (f.plug t) = {(f.m.1, some (frameCell parent (ptr t) f))} +
      (cells (some f.m.1) f.sibling + cells (some f.m.1) t) := by
  rw [cells, ptr_framePlug, Frame.plug, frameCell]
  cases f.right with
  | false =>
    refine congrArg₂ (· + ·) rfl ?_
    exact add_comm (cells (some f.m.1) t) (cells (some f.m.1) f.sibling)
  | true => rfl

theorem cells_plug (fs : LinkedParents) (t : LinkedNode) : cells none (plug fs t) =
      cells (LinkedParents.parent fs) t + LinkedParents.cells (ptr t) fs := by
  induction fs generalizing t with
  | nil => exact (add_zero _).symm
  | cons f fs ih =>
    rw [plug, ih, cells_framePlug, ptr_framePlug, LinkedParents.cells, LinkedParents.parent]
    abel

end LinkedNode

/-! ## What a heap holds -/

open LinkedNode (addTo below cell_setParent cells_leaf cells_node cells_plug children_forget
  forget_plug key_cell mem_cells parent_cell ptr removeFrom)

/-- The heap has this root and holds these cells. -/
structure Heap.Has (h : Heap) (root : Option Ptr) (S : Cells) : Prop where
  root_eq : h.root = root
  owns : Owns h.cell S

namespace Heap

/-- The root variable points to a trie; besides, the heap holds some other cells. -/
def Holds (h : Heap) (t : LinkedNode) (S : Cells) : Prop :=
  h.Has (some (LinkedNode.ptr t)) (LinkedNode.cells none t + S)

theorem holds_plug {h : Heap} {fs : LinkedParents} {t : LinkedNode} {S : Cells} :
    h.Holds (plug fs t) S ↔ h.Has (some (top t.ptr fs)) (t.cells fs.parent +
        (fs.cells t.ptr + S)) := by
  rw [Holds, LinkedNode.ptr_plug, cells_plug, add_assoc]

variable {h : Heap} {r : Option Ptr} {p : Ptr} {c : Cell} {x : Option Cell} {S T : Cells}

namespace Has

theorem perm (H : h.Has r S) (e : S = T) : h.Has r T := e ▸ H

theorem right (H : h.Has r (S + T)) : h.Has r T := ⟨H.root_eq, H.owns.right⟩

theorem get_eq (H : h.Has r S) (hp : (p, some c) ∈ S) : h.get p = .ok c := by
  have hcell : h.cell p = some c := H.owns.holds _ hp
  rw [Heap.get, hcell]

theorem get (H : h.Has r ({(p, some c)} + S)) : h.get p = .ok c := H.get_eq (by simp)

theorem set (H : h.Has r ({(p, x)} + S)) (c : Cell) :
    (h.set p c).Has r ({(p, some c)} + S) := ⟨H.root_eq, H.owns.write (some c)⟩

theorem free (H : h.Has r ({(p, x)} + S)) : (h.free p).Has r ({(p, none)} + S) :=
  ⟨H.root_eq, H.owns.write none⟩

theorem setRoot (H : h.Has r S) (r' : Option Ptr) : (h.setRoot r').Has r' S := ⟨rfl, H.owns⟩

theorem modify (H : h.Has r ({(p, some c)} + S)) (f : Cell → Cell) :
    Returns (h.modify p f) fun h' ↦ h'.Has r ({(p, some (f c))} + S) :=
  .known H.get (.pure (H.set (f c)))

section Subtree

variable {t u : LinkedNode} {parent : Option Ptr}

theorem get_node (H : h.Has r (t.cells parent + S)) : h.get t.ptr = .ok (t.cell parent) :=
  H.get_eq (by simp [mem_cells])

theorem set_node (H : h.Has r (t.cells parent + S)) (hptr : ptr u = ptr t)
    (hbelow : below u = below t) : (h.set t.ptr (u.cell parent)).Has r
      (u.cells parent + S) := by
  rw [LinkedNode.cells, add_assoc] at H
  rw [LinkedNode.cells, hptr, hbelow, add_assoc]
  exact H.set _

theorem modify_node {set : Cell → Cell} (H : h.Has r (t.cells parent + S))
    (hset : set (t.cell parent) = u.cell parent) (hptr : ptr u = ptr t)
    (hbelow : below u = below t) : Returns (h.modify t.ptr set) fun h' ↦
      h'.Has r (u.cells parent + S) :=
  .known H.get_node (.pure (hset ▸ H.set_node hptr hbelow))

theorem setParent (H : h.Has r (t.cells parent + S)) (parent' : Option Ptr) :
    Returns (h.modify t.ptr fun c ↦ { c with parent := parent' }) fun h' ↦
      h'.Has r (t.cells parent' + S) := by
  rw [LinkedNode.cells, add_assoc] at H
  refine (H.modify _).mono fun h' H' ↦ ?_
  rw [cell_setParent, ← add_assoc] at H'
  exact H'

end Subtree

theorem delete {n : ℕ} (H : h.Has r ({(p, some c)} + S)) (hl : c.left = none)
    (hr : c.right = none) : Returns (delete (n + 1) h (some p)) fun h' ↦ h'.Has r S := by
  refine .known H.get ?_
  rw [hl, hr]
  refine .known (a := h) (by rw [Heap.delete]) (.known (a := h) (by rw [Heap.delete]) ?_)
  exact .pure H.free.right

/-! ## The loops along `m_parent` -/

variable {g : NodeCache → NodeCache} {f : LinkedFrame} {fs : LinkedParents} {hole : Ptr} {n : ℕ}

/-- The loops `while(parent)`. -/
theorem upward_parents (H : h.Has r (LinkedParents.cells hole fs + S)) (hn : fs.length ≤ n) :
    Returns (upward g n h (LinkedParents.parent fs)) fun h' ↦
      h'.Has r (LinkedParents.cells hole (relink g fs) + S) := by
  induction fs generalizing h hole n S with
  | nil =>
    rw [LinkedParents.parent, upward]
    exact ⟨h, rfl, H⟩
  | cons f fs ih =>
    obtain ⟨n, rfl⟩ : ∃ m, n = m + 1 := Nat.exists_eq_add_one.mpr (Nat.zero_lt_of_lt hn)
    rw [LinkedParents.cells, add_assoc, add_assoc] at H
    refine .known H.get ?_
    let f' : LinkedFrame := f.mapMeta (Prod.map id g)
    have H₁ : (h.set f.m.1 (frameCell (LinkedParents.parent fs) hole f')).Has r
        (LinkedParents.cells f.m.1 fs +
          ({(f.m.1, some (frameCell (LinkedParents.parent fs) hole f'))} +
            (LinkedNode.cells (some f.m.1) f.sibling + S))) := (H.set _).perm (by abel)
    refine (ih H₁ (Nat.le_of_succ_le_succ hn)).mono fun h' H' ↦ ?_
    refine H'.perm ?_
    rw [relink_cons, LinkedParents.cells, parent_relink]
    change _ = {(f.m.1, some (frameCell (LinkedParents.parent fs) hole f'))} +
      (LinkedNode.cells (some f.m.1) f.sibling +
        LinkedParents.cells f.m.1 (relink g fs)) + S
    abel

theorem upward_node (H : h.Has r ({(p, some c)} + (fs.cells hole + S)))
    (hc : c.parent = fs.parent) (hn : fs.length < n) :
    Returns (upward g n h (some p)) fun h' ↦ h'.Has r ({(p, some { c with cache := g c.cache })} +
      (LinkedParents.cells hole (relink g fs) + S)) := by
  obtain ⟨n, rfl⟩ : ∃ m, n = m + 1 := Nat.exists_eq_add_one.mpr (Nat.zero_lt_of_lt hn)
  have H₁ := (H.set { c with cache := g c.cache }).perm (add_left_comm _ _ _)
  have hparents := H₁.upward_parents (g := g) (Nat.le_of_lt_succ hn)
  rw [← hc] at hparents
  exact .known H.get (hparents.mono fun h' H' ↦ H'.perm (add_left_comm _ _ _))

/-- The setters of a node: a change of its own fields, and `Dirtify`. -/
theorem assign (H : h.Has r ({(p, some c)} + (fs.cells hole + S)))
    (hn : fs.length < maxDepth) {set : Cell → Cell} (hc : (set c).parent = fs.parent) :
    Returns (do let h ← h.modify p set; h.dirtify p) fun h' ↦
      h'.Has r ({(p, some { set c with cache := (set c).cache.dirtify })} +
        (LinkedParents.cells hole (LinkedParents.dirtify fs) + S)) :=
  (H.modify set).bind fun _ H₁ ↦ H₁.upward_node hc hn

theorem getTotalBits (H : h.Has r ({(p, some c)} + (LinkedParents.cells hole fs + S)))
    (hc : c.parent = LinkedParents.parent fs) (hn : fs.length < n) : Heap.getTotalBits n h p
      = .ok (c.bits + 1 + TrieNode.getTotalBits (LinkedParents.forget fs)) := by
  induction fs generalizing p c hole n S with
  | nil =>
    obtain ⟨n, rfl⟩ : ∃ m, n = m + 1 := Nat.exists_eq_add_one.mpr hn
    rw [Heap.getTotalBits, H.get]
    simp only [bind, Except.bind, hc, LinkedParents.parent]
    rfl
  | cons f fs ih =>
    obtain ⟨n, rfl⟩ : ∃ m, n = m + 1 := Nat.exists_eq_add_one.mpr (Nat.zero_lt_of_lt hn)
    have H₁ : h.Has r ({(f.m.1, some (frameCell (LinkedParents.parent fs) hole f))} +
        (LinkedParents.cells f.m.1 fs +
          ({(p, some c)} + (LinkedNode.cells (some f.m.1) f.sibling + S)))) :=
      H.perm (by rw [LinkedParents.cells]; abel)
    rw [Heap.getTotalBits, H.get]
    simp only [bind, Except.bind, hc, LinkedParents.parent]
    rw [ih H₁ rfl (Nat.lt_of_succ_lt_succ hn)]
    rfl

end Has

theorem Holds.assign {fs : LinkedParents} {t u : LinkedNode} {set : Cell → Cell}
    (H : h.Holds (plug fs t) S) (hn : fs.length < maxDepth)
    (hset : ∀ parent, { set (t.cell parent) with
      cache := (set (t.cell parent)).cache.dirtify } = u.cell parent) (hptr : ptr u = ptr t)
    (hbelow : below u = below t) : Returns (do let h ← h.modify t.ptr set; h.dirtify t.ptr) fun h' ↦
      h'.Holds (plug (LinkedParents.dirtify fs) u) S := by
  have hparent : (set (t.cell fs.parent)).parent = fs.parent := by
    have hp := congrArg Cell.parent (hset fs.parent)
    rwa [parent_cell] at hp
  have H₁ := holds_plug.mp H
  rw [LinkedNode.cells, add_assoc, add_left_comm (below t)] at H₁
  refine (H₁.assign hn hparent).mono fun h' H' ↦ holds_plug.mpr ?_
  rw [hset, ← hptr, ← hbelow] at H'
  rw [top_relink, parent_relink]
  exact H'.perm (by rw [LinkedNode.cells]; abel)

namespace Has

variable {g : NodeCache → NodeCache} {f : LinkedFrame} {fs : LinkedParents} {hole : Ptr} {n : ℕ}

/-! ## The variable that points to a node -/

theorem load (H : h.Has (some (top hole fs)) (LinkedParents.cells hole fs + S)) :
    h.load (slot fs) = .ok (some hole) := by
  cases fs with
  | nil => exact congrArg Except.ok H.root_eq
  | cons f fs =>
    rw [LinkedParents.cells, add_assoc] at H
    rw [slot]
    split <;> rename_i hright <;> rw [Heap.load, H.get] <;>
      simp only [bind, Except.bind, frameCell, hright] <;> rfl

theorem modify_hole {q : Ptr} {set : Cell → Cell}
    (H : h.Has r (LinkedParents.cells hole (f :: fs) + S))
    (hset : set (frameCell fs.parent hole f) =
      frameCell fs.parent q f) :
    Returns (h.modify f.m.1 set) fun h' ↦ h'.Has r (LinkedParents.cells q (f :: fs) + S) := by
  rw [LinkedParents.cells, add_assoc] at H
  refine (H.modify set).mono fun h' H' ↦ ?_
  rwa [LinkedParents.cells, add_assoc, ← hset]

theorem store (H : h.Has (some (top hole fs)) (LinkedParents.cells hole fs + S))
    (q : Ptr) : Returns (h.store (some q) (slot fs)) fun h' ↦
      h'.Has (some (top q fs)) (LinkedParents.cells q fs + S) := by
  cases fs with
  | nil => exact .pure (H.setRoot (some q))
  | cons f fs =>
    rw [slot]
    cases hright : f.right with
    | false => exact H.modify_hole (by simp [frameCell, hright])
    | true => exact H.modify_hole (by simp [frameCell, hright])

/-! ## Children -/

variable {t : LinkedNode} {parent : Option Ptr}

theorem add (H : h.Has r ({(p, some c)} + (fs.cells hole +
      (t.cells parent + S)))) (hc : c.parent = fs.parent)
    (hn : fs.length < maxDepth) (hfree : c.left = none ∨ c.right = none) :
    Returns (h.add p t.ptr) fun h' ↦
      h'.Has r ({(p, some (addTo c t))} +
        (LinkedParents.cells hole (LinkedParents.addCount t.forget.children
          (LinkedParents.dirtify fs)) + (t.cells (some p) + S))) := by
  have hassert : assert (c.left.isNone || c.right.isNone) = .ok () := by
    rcases hfree with hfree | hfree <;> simp [assert, hfree]
  have H₀ : h.Has r (t.cells parent + ({(p, some c)} + (fs.cells hole +
    S))) := H.perm (by abel)
  refine (H₀.setParent (some p)).bind fun h₁ H₁ ↦ ?_
  have H₂ : h₁.Has r ({(p, some c)} + (fs.cells hole +
    (t.cells (some p) + S))) := H₁.perm (by abel)
  refine .known H₂.get (.known hassert ?_)
  refine (H₂.upward_node hc hn).bind fun h₃ H₃ ↦ ?_
  have hnode : h₃.get t.ptr = .ok (t.cell (some p)) :=
    H₃.get_eq (by simp [mem_cells])
  refine .known hnode ?_
  rw [children_forget]
  refine (H₃.upward_node ?_ ?_).bind fun h₄ H₄ ↦ H₄.modify _
  · rw [parent_relink]
    exact hc
  · rwa [length_relink]

theorem removeChild (H : h.Has r ({(p, some c)} + (fs.cells hole +
      (t.cells parent + S)))) (hc : c.parent = fs.parent) (hn : fs.length < maxDepth) (right : Bool)
    (hside : (if right then c.right else c.left) = some t.ptr)
    (hleft : right = true → c.left ≠ some t.ptr) : Returns (h.removeChild p t.ptr) fun x ↦
      x.1 = (if right then c.left else c.right) ∧
      x.2.Has r ({(p, some (removeFrom c t right))} +
        (LinkedParents.cells hole (LinkedParents.subtract t.forget.children
          (LinkedParents.dirtify fs)) + (t.cells parent + S))) := by
  refine (H.upward_node hc hn).bind fun h₁ H₁ ↦ .known H₁.get ?_
  have hnode : h₁.get t.ptr = .ok (t.cell parent) :=
    H₁.get_eq (by simp [mem_cells])
  have hsub := H₁.upward_node (g := NodeCache.subtract t.forget.children)
    (by rw [parent_relink]; exact hc) (by rwa [length_relink])
  rw [← children_forget parent] at hsub
  cases right with
  | false =>
    refine .ite_pos hside (.known hnode ?_)
    refine hsub.bind fun h₂ H₂ ↦ (H₂.modify _).bind fun h₃ H₃ ↦ .pure ⟨rfl, ?_⟩
    rwa [children_forget] at H₃
  | true =>
    have hright : c.right = some t.ptr := hside
    have hassert : assert c.right.isSome = .ok () := by rw [hright]; rfl
    have hderef : deref c.right = .ok t.ptr := by rw [hright]; rfl
    refine .ite_neg (hleft rfl) (.known hassert (.known hderef (.known hnode ?_)))
    refine hsub.bind fun h₂ H₂ ↦ (H₂.modify _).bind fun h₃ H₃ ↦ .pure ⟨rfl, ?_⟩
    rwa [children_forget] at H₃

theorem replaceChild (H : h.Has r (LinkedParents.cells p (f :: fs) + ({(p, some c)} +
      (t.cells parent + S)))) : Returns (h.replaceChild f.m.1 p t.ptr) fun h' ↦
      h'.Has r (LinkedParents.cells t.ptr (f :: fs) + ({(p, some c)} +
        (t.cells (some f.m.1) + S))) := by
  have H₀ : h.Has r (t.cells parent + (LinkedParents.cells p (f :: fs) +
    ({(p, some c)} + S))) := H.perm (by abel)
  refine (H₀.setParent (some f.m.1)).bind fun h₁ H₁ ↦ ?_
  have H₂ : h₁.Has r (LinkedParents.cells p (f :: fs) + ({(p, some c)} +
    (t.cells (some f.m.1) + S))) := H₁.perm (by abel)
  have hget : h₁.get f.m.1 = .ok (frameCell fs.parent p f) :=
    H₂.get_eq (by simp [LinkedParents.cells])
  refine .known hget ?_
  cases hright : f.right with
  | false =>
    refine .ite_pos ?_ (H₂.modify_hole ?_) <;> simp [frameCell, hright]
  | true =>
    -- the other child is another node than the one that is replaced
    have hne : ptr f.sibling ≠ p := by
      have H₃ : h₁.Has r ({(p, some c)} + (LinkedParents.cells p (f :: fs) +
        (t.cells (some f.m.1) + S))) := H₂.perm (by abel)
      exact H₃.owns.ne (ptr f.sibling, some (LinkedNode.cell (some f.m.1) f.sibling))
        (by simp [LinkedParents.cells, mem_cells])
    refine .ite_neg ?_ (.known (a := ()) ?_ (H₂.modify_hole ?_))
    · simpa [frameCell, hright] using hne
    · simp [frameCell, hright, assert]
    · simp [frameCell, hright]

theorem replace (H : h.Has r (LinkedParents.cells p (f :: fs) + ({(p, some c)} +
      (t.cells parent + S)))) (hn : fs.length < maxDepth) :
    Returns (h.replace f.m.1 p t.ptr) fun h' ↦
      h'.Has r (LinkedParents.cells t.ptr (LinkedParents.dirtify
        (LinkedParents.addCount t.forget.children
          (LinkedParents.subtract c.cache.children (f :: fs)))) + ({(p, some c)} +
            (t.cells (some f.m.1) + S))) := by
  let f₁ : LinkedFrame := f.mapMeta (Prod.map id NodeCache.dirtify)
  have hfirst : Returns (h.modify f.m.1 fun c ↦ { c with cache := c.cache.dirtify }) fun h₁ ↦
      h₁.Has r (LinkedParents.cells p (f₁ :: fs) + ({(p, some c)} +
        (t.cells parent + S))) := by
    rw [LinkedParents.cells, add_assoc] at H
    refine (H.modify _).mono fun h₁ H₁ ↦ ?_
    rw [LinkedParents.cells, add_assoc]
    exact H₁
  refine hfirst.bind fun h₁ H₁ ↦ .known (a := c) (H₁.get_eq (by simp)) ?_
  refine (H₁.upward_parents hn).bind fun h₂ H₂ ↦ ?_
  refine .known (a := t.cell parent) (H₂.get_eq (by simp [mem_cells])) ?_
  rw [children_forget]
  refine (H₂.upward_parents (by simpa using hn)).bind fun h₃ H₃ ↦ ?_
  refine (H₃.upward_parents (by simpa using hn)).bind fun h₄ H₄ ↦ ?_
  -- the flag of the nearest ancestor is set once more than the others
  exact H₄.replaceChild

end Has

end Heap

end Cryptonite
