import Cryptonite.Trie.Linked

/-!
# The engine on pointers is the engine on tries

`Trie.Heap` follows the pointers of the source, `Trie.Engine` computes on tries with the ancestors
of a node in a list. If the memory holds a trie, each function of the first leaves the memory
holding the trie the function of the second computes, and returns what it returns; where `Insert`
runs into its assertion, so does the other.

Each helper of the engine has a counterpart on nodes with addresses, `LinkedNode.shorten` for
`TrieEngine.shorten` and so on, which forgets to it. The source marks nodes more often than the
functions on tries do; where a list of ancestors is marked already, marking it again does nothing,
and this is all there is to reconcile.
-/

namespace Cryptonite

open Patricia PointsTo TrieEngine
open LinkedNode (addTo below cell_setParent cells_leaf cells_node cells_plug children_forget
  forget_plug key_cell mem_cells parent_cell ptr removeFrom)
open LinkedParents (dirtify_addCount dirtify_dirtify forget_addCount forget_dirtify forget_subtract
  frameCell length_relink parent_relink relink relink_cons slot slot_relink top top_relink)

variable {fs : LinkedParents} {t : LinkedNode}

theorem LinkedParents.length_le (hC : (LinkedNode.forget (plug fs t)).Canon 0 0#160) :
    fs.length ≤ depth fs.forget ∧ depth fs.forget < maxDepth := by
  rw [forget_plug] at hC
  have hle := length_le_depth fs.forget
  rw [LinkedParents.forget, List.length_map] at hle
  exact ⟨hle, Nat.lt_succ_of_le (canon_plug.mp hC).1.depth_le⟩

theorem LinkedNode.height_le
    (hC : (LinkedNode.forget (plug fs t)).Canon 0 0#160) : t.height ≤ maxDepth := by
  rw [forget_plug] at hC
  obtain ⟨hctx, ht⟩ := canon_plug.mp hC
  have hle := ht.add_height_le hctx.depth_le
  rw [LinkedNode.forget, Trie.height_relabel] at hle
  exact (Nat.le_add_left _ _).trans hle

namespace Heap.Has

variable {h : Heap} {root : Option Ptr} {p q : Ptr} {c : Cell} {S : Cells} {t : LinkedNode}
  {parent : Option Ptr} {fs : LinkedParents} {n : ℕ}

/-! ## Hash -/

variable {K : List UInt8 → UInt256}

/-- `Hash` returns what it returns on the trie, and refreshes the same caches. -/
theorem hash (H : h.Has root (LinkedNode.cells parent t + S)) (hn : t.height ≤ n) :
    Returns (h.hash K n (ptr t)) fun x ↦
      x.1 = (TrieNode.hash K (LinkedNode.forget t)).1 ∧
      ∃ t' : LinkedNode, LinkedNode.forget t' = (TrieNode.hash K (LinkedNode.forget t)).2 ∧
        ptr t' = ptr t ∧ x.2.Has root (LinkedNode.cells parent t' + S) := by
  induction t generalizing h n parent S with
  | leaf m k v =>
    obtain ⟨n, rfl⟩ : ∃ m, n = m + 1 := Nat.exists_eq_add_one.mpr hn
    refine .known H.get_node ?_
    cases hm : m.2.modified with
    | false =>
      refine .ite_pos ?_ (.pure ⟨?_, .leaf m k v, ?_, rfl, H⟩) <;>
        simp [LinkedNode.cell, LinkedNode.forget, Trie.relabel, TrieNode.hash, hm]
    | true =>
      let c : NodeCache := { m.2 with modified := false, hash := K (leafPreimage k v) }
      have H₁ := H.set_node (u := .leaf (m.1, c) k v) rfl rfl
      refine .ite_neg ?_ (.pure ⟨?_, .leaf (m.1, c) k v, ?_, rfl, H₁⟩) <;>
        simp [LinkedNode.cell, LinkedNode.forget, Trie.relabel, TrieNode.hash, hm, c]
  | node m key bits l r ihl ihr =>
    obtain ⟨n, rfl⟩ : ∃ m, n = m + 1 := Nat.exists_eq_add_one.mpr (Nat.zero_lt_of_lt hn)
    have hn : max l.height r.height ≤ n := Nat.le_of_succ_le_succ hn
    refine .known H.get_node ?_
    cases hm : m.2.modified with
    | false =>
      refine .ite_pos ?_ (.pure ⟨?_, .node m key bits l r, ?_, rfl, H⟩) <;>
        simp [LinkedNode.cell, LinkedNode.forget, Trie.relabel, TrieNode.hash, hm]
    | true =>
      refine .ite_neg (by simp [LinkedNode.cell, hm]) ?_
      let c : NodeCache := { m.2 with modified := false }
      refine (H.modify_node (u := .node (m.1, c) key bits l r) rfl rfl rfl).bind fun h₁ H₁ ↦ ?_
      rw [cells_node] at H₁
      let b : Cell := LinkedNode.cell parent (.node (m.1, c) key bits l r)
      have H₂ : h₁.Has root (LinkedNode.cells (some m.1) l + ({(m.1, some b)} +
        (LinkedNode.cells (some m.1) r + S))) := H₁.perm (by abel)
      refine (ihl H₂ (le_of_max_le_left hn)).bind ?_
      rintro ⟨left, h₃⟩ ⟨rfl, l', hl, hlptr, H₃⟩
      have H₄ : h₃.Has root (LinkedNode.cells (some m.1) r + ({(m.1, some b)} +
        (LinkedNode.cells (some m.1) l' + S))) := H₃.perm (by abel)
      refine (ihr H₄ (le_of_max_le_right hn)).bind ?_
      rintro ⟨right, h₅⟩ ⟨rfl, r', hr, hrptr, H₅⟩
      have hb : b = LinkedNode.cell parent (.node (m.1, c) key bits l' r') := by
        simp only [b, LinkedNode.cell, hlptr, hrptr]
      have H₆ : h₅.Has root (LinkedNode.cells parent (.node (m.1, c) key bits l' r') + S) :=
        H₅.perm (by rw [cells_node, ← hb]; abel)
      let d : UInt256 := K (branchPreimage key bits
        (TrieNode.hash K (LinkedNode.forget l)).1 (TrieNode.hash K (LinkedNode.forget r)).1)
      let u : LinkedNode := .node (m.1, { c with hash := d }) key bits l' r'
      refine (H₆.modify_node (u := u) rfl rfl rfl).bind fun h₇ H₇ ↦ .pure ⟨?_, u, ?_, rfl, H₇⟩
      · simp [LinkedNode.forget, Trie.relabel, TrieNode.hash, hm, LinkedNode.cell]
      · rw [LinkedNode.forget, Trie.relabel, ← LinkedNode.forget, ← LinkedNode.forget, hl, hr]
        simp [LinkedNode.forget, Trie.relabel, TrieNode.hash, hm, c, d]
  | stub d =>
    obtain ⟨n, rfl⟩ : ∃ m, n = m + 1 := Nat.exists_eq_add_one.mpr hn
    exact .known H.get_node (.pure ⟨rfl, .stub d, rfl, rfl, H⟩)

end Heap.Has

namespace Heap

variable {h : Heap} {S : Cells} {fs : LinkedParents}

theorem Holds.hash {t : LinkedNode} {K : List UInt8 → UInt256} {n : ℕ}
    (H : h.Holds (plug fs t) S) (hn : t.height ≤ n) : Returns (h.hash K n t.ptr) fun x ↦
      x.1 = (TrieNode.hash K t.forget).1 ∧
      ∃ t' : LinkedNode, LinkedNode.forget t' = (TrieNode.hash K t.forget).2 ∧
        x.2.Holds (plug fs t') S := by
  refine ((holds_plug.mp H).hash hn).mono ?_
  rintro x ⟨hd, t', ht', hptr, H'⟩
  refine ⟨hd, t', ht', holds_plug.mpr ?_⟩
  rwa [hptr]

/-! ## The setters of a leaf -/

section Leaf

variable {m : Ptr × NodeCache} {k : UInt160} {v : AccountData}

theorem Holds.setData (H : h.Holds (plug fs (.leaf m k v)) S) (hn : fs.length < maxDepth)
    (f : AccountData → AccountData) : Returns (h.setData m.1 f) fun h' ↦
      h'.Holds (plug (LinkedParents.dirtify fs) (.leaf (m.1, m.2.dirtify) k (f v))) S :=
  H.assign hn (fun _ ↦ rfl) rfl rfl

theorem Holds.setKey_leaf (H : h.Holds (plug fs (.leaf m k v)) S) (hn : fs.length < maxDepth)
    (key : UInt160) : Returns (h.setKey m.1 key) fun h' ↦
      h'.Holds (plug (LinkedParents.dirtify fs) (.leaf (m.1, m.2.dirtify) key v)) S :=
  H.assign hn (fun _ ↦ rfl) rfl rfl

end Leaf

end Heap

/-! ## Insert -/

namespace LinkedNode

/-- `TrieEngine.shorten`, on nodes with addresses. -/
def shorten (bits newBits : ℕ) : LinkedNode → LinkedNode
  | .node m key b l r =>
    let b' := sub32 (sub32 b newBits) 1
    .node (m.1, m.2.dirtify) (TrieEngine.subKey key (bits + newBits + 1) b') b' l r
  | t => t

theorem forget_shorten (bits newBits : ℕ) (t : LinkedNode) :
    forget (shorten bits newBits t) = TrieEngine.shorten bits newBits (forget t) := by
  cases t <;> rfl

theorem children_shorten (bits newBits : ℕ) (t : LinkedNode) :
    (forget (shorten bits newBits t)).children = (forget t).children := by
  cases t <;> rfl

/-- `TrieEngine.addBoth`, on nodes with addresses. -/
def addBoth (q : Ptr) (fs : LinkedParents) (key : UInt160) (bits : ℕ) (a b : LinkedNode) :
    LinkedNode :=
  let fs := LinkedParents.addCount (forget a).children (LinkedParents.dirtify fs)
  let fs := LinkedParents.addCount (forget b).children (LinkedParents.dirtify fs)
  plug fs (.node (q, (NodeCache.newBranch.add (forget a).children).add (forget b).children) key bits
    a b)

theorem forget_addBoth (q : Ptr) (fs : LinkedParents) (key : UInt160) (bits : ℕ)
    (a b : LinkedNode) : forget (addBoth q fs key bits a b) =
      TrieEngine.addBoth (LinkedParents.forget fs) key bits (forget a) (forget b) := by
  rw [addBoth, ← dirtify_addCount, forget_plug, forget_dirtify,
    forget_addCount, forget_dirtify, forget_addCount,
    forget_dirtify]
  rfl

def ofLeaf (p : Ptr) (leaf : Leaf) : LinkedNode := .leaf (p, leaf.cache) leaf.key leaf.data

theorem cells_ofLeaf (p : Ptr) (leaf : Leaf) :
    cells none (ofLeaf p leaf) = {(p, some leaf.toCell)} := cells_leaf none _ _ _

/-- `TrieEngine.split`, on nodes with addresses. -/
def split (fs : LinkedParents) (node2 : LinkedNode) (node q : Ptr) (leaf : Leaf) (bits : ℕ) :
    LinkedNode :=
  let k1 := shl leaf.key bits
  let k2 := shl (forget node2).key bits
  let fs := LinkedParents.subtract (forget node2).children fs
  let newBits := leadingEqual 160 k1 k2
  let key := TrieEngine.subKey leaf.key bits newBits
  let node2 := shorten bits newBits node2
  if k1 < k2 then addBoth q fs key newBits (ofLeaf node leaf) node2
  else addBoth q fs key newBits node2 (ofLeaf node leaf)

theorem forget_split {fs : LinkedParents} {node2 : LinkedNode} {leaf : Leaf} {bits : ℕ}
    (node q : Ptr) (hk : shl leaf.key bits ≠ shl (forget node2).key bits) :
    TrieEngine.split (LinkedParents.forget fs) (forget node2) leaf bits =
      .ok (forget (split fs node2 node q leaf bits)) := by
  rw [TrieEngine.split, if_neg hk, split, apply_ite forget, forget_addBoth, forget_addBoth,
    forget_shorten, forget_subtract]
  rfl

end LinkedNode

namespace Heap

variable {h : Heap} {root : Option Ptr} {p q : Ptr} {c : Cell} {S : Cells} {t : LinkedNode}
  {parent : Option Ptr} {f : LinkedFrame} {fs : LinkedParents} {n bits newBits : ℕ}

section Branch

variable {m : Ptr × NodeCache} {key : UInt160} {b : ℕ} {l r : LinkedNode}

theorem Holds.setBits (H : h.Holds (plug fs (.node m key b l r)) S) (hn : fs.length < maxDepth)
    (bits : ℕ) : Returns (h.setBits m.1 bits) fun h' ↦
      h'.Holds (plug (LinkedParents.dirtify fs) (.node (m.1, m.2.dirtify) key bits l r)) S :=
  H.assign hn (fun _ ↦ rfl) rfl rfl

theorem Holds.setKey (H : h.Holds (plug fs (.node m key b l r)) S) (hn : fs.length < maxDepth)
    (key : UInt160) : Returns (h.setKey m.1 key) fun h' ↦
      h'.Holds (plug (LinkedParents.dirtify fs) (.node (m.1, m.2.dirtify) key b l r)) S :=
  H.assign hn (fun _ ↦ rfl) rfl rfl

theorem Holds.shorten (H : h.Holds (plug fs (.node m key b l r)) S) (hn : fs.length < maxDepth) :
    Returns (h.shorten m.1 bits newBits) fun h' ↦ h'.Holds (plug (LinkedParents.dirtify fs)
      (LinkedNode.shorten bits newBits (.node m key b l r))) S := by
  refine .known (holds_plug.mp H).get_node ?_
  refine (H.setBits hn (sub32 (sub32 b newBits) 1)).bind fun h₁ H₁ ↦ ?_
  refine .known (holds_plug.mp H₁).get_node ?_
  refine (H₁.setKey (by rwa [length_relink]) _).mono fun h₂ H₂ ↦ ?_
  rwa [dirtify_dirtify] at H₂

end Branch

theorem Holds.setBits_frame (H : h.Holds (plug (f :: fs) t) S) (hn : fs.length < maxDepth)
    (bits : ℕ) : Returns (h.setBits f.m.1 bits) fun h' ↦ h'.Holds
      (plug ({ f with m := (f.m.1, f.m.2.dirtify), bits } :: LinkedParents.dirtify fs) t) S := by
  obtain ⟨m, key, b, right, sibling⟩ := f
  cases right with
  | false => exact Holds.setBits H hn bits
  | true => exact Holds.setBits H hn bits

theorem Holds.setKey_frame (H : h.Holds (plug (f :: fs) t) S) (hn : fs.length < maxDepth)
    (key : UInt160) : Returns (h.setKey f.m.1 key) fun h' ↦ h'.Holds
      (plug ({ f with m := (f.m.1, f.m.2.dirtify), key } :: LinkedParents.dirtify fs) t) S := by
  obtain ⟨m, key, b, right, sibling⟩ := f
  cases right with
  | false => exact Holds.setKey H hn _
  | true => exact Holds.setKey H hn _

variable {m : Ptr × NodeCache} {k key : UInt160} {v : AccountData} {x y : Option Ptr}
  {leaf : Leaf} {node : Ptr}

/-- The end of `Insert`, for a new branch that is marked like all its ancestors. -/
theorem Holds.setFragments (H : h.Holds (plug (f :: fs) t) S) (hn : fs.length + 1 < maxDepth)
    (hf : f.m.2.dirtify = f.m.2) (hfs : LinkedParents.dirtify fs = fs)
    (hleaf : f.sibling = .leaf m k v) :
    Returns (h.setFragments f.m.1 m.1 (ptr t) bits newBits key) fun h' ↦
      h'.Holds (plug ({ f with key, bits := newBits } :: fs)
        (LinkedNode.shorten bits newBits t)) S := by
  refine (H.setBits_frame (Nat.lt_of_succ_lt hn) newBits).bind fun h₁ H₁ ↦ ?_
  rw [hf, hfs] at H₁
  refine (H₁.setKey_frame (Nat.lt_of_succ_lt hn) key).bind fun h₂ H₂ ↦ ?_
  simp only [hf, hfs] at H₂
  have H₃ := holds_plug.mp H₂
  have hnode : h₂.get m.1 = .ok (LinkedNode.cell (some f.m.1) (.leaf m k v)) := by
    refine H₃.get_eq ?_
    simp only [LinkedParents.cells, hleaf, Multiset.mem_add]
    exact .inr (.inl (.inr (.inl (mem_cells _ _))))
  have hall : LinkedParents.dirtify ({ f with key, bits := newBits } :: fs) =
      { f with key, bits := newBits } :: fs := by
    refine congrArg₂ List.cons ?_ hfs
    simp only [Frame.mapMeta, Prod.map, id, hf]
  refine .known hnode (.known H₃.get_node ?_)
  cases t with
  | leaf _ _ _ => exact .ite_neg (by simp [LinkedNode.cell]) (.pure H₂)
  | node _ _ _ _ _ =>
    refine .ite_pos (by simp [LinkedNode.cell]) ((H₂.shorten hn).mono fun h₄ H₄ ↦ ?_)
    rwa [hall] at H₄
  | stub _ => exact .ite_neg (by simp [LinkedNode.cell]) (.pure H₂)

theorem Has.subtractFrom (H : h.Has root (LinkedParents.cells p fs + S))
    (hn : fs.length ≤ maxDepth) (count : UInt64) :
    Returns (h.subtractFrom (LinkedParents.parent fs) count) fun h' ↦
      h'.Has root (LinkedParents.cells p (LinkedParents.subtract count fs) + S) := by
  cases fs with
  | nil => exact ⟨h, rfl, H⟩
  | cons f fs => exact H.upward_parents hn

theorem Has.addBoth {a b : LinkedNode} (H : h.Has (some (top q fs))
      ({(q, some { Cell.newBranch with parent := fs.parent })} +
        (fs.cells q + (LinkedNode.cells x a + (LinkedNode.cells y b + S)))))
    (hn : fs.length < maxDepth) : Returns (h.addBoth q (ptr a) (ptr b)) fun h' ↦
      h'.Holds (LinkedNode.addBoth q fs 0 0 a b) S := by
  refine (H.add rfl hn (.inl rfl)).bind fun h₁ H₁ ↦ ?_
  rw [add_left_comm (LinkedNode.cells (some q) a)] at H₁
  refine (H₁.add ?_ ?_ (.inr rfl)).mono fun h₂ H₂ ↦ holds_plug.mpr ?_
  · simp only [parent_relink]
    rfl
  · simpa only [length_relink] using hn
  · simp only [top_relink, parent_relink]
    have hcell : addTo (addTo { Cell.newBranch with
        parent := fs.parent } a) b = LinkedNode.cell fs.parent
          (.node (q, (NodeCache.newBranch.add (LinkedNode.forget a).children).add
            (LinkedNode.forget b).children) 0 0 a b) := rfl
    rw [hcell] at H₂
    exact H₂.perm (by rw [cells_node, ptr]; abel)

/-- From the new branch on: its children, and the fragments. -/
theorem Has.join (p : Prop) [Decidable p] (H : h.Has (some (top q fs))
      ({(q, some { Cell.newBranch with parent := fs.parent })} +
        (fs.cells q + (LinkedNode.cells x (.leaf m k v) +
          (t.cells y + S))))) (hn : fs.length + 1 < maxDepth) : Returns (do
      let h ← (if p then h.addBoth q m.1 t.ptr else h.addBoth q t.ptr m.1)
      h.setFragments q m.1 t.ptr bits newBits key) fun h' ↦
        h'.Holds (if p then
          LinkedNode.addBoth q fs key newBits (.leaf m k v) (LinkedNode.shorten bits newBits t)
        else LinkedNode.addBoth q fs key newBits (LinkedNode.shorten bits newBits t)
          (.leaf m k v)) S := by
  have hn' : ∀ a b : UInt64, (LinkedParents.addCount b (LinkedParents.dirtify
      (LinkedParents.addCount a (LinkedParents.dirtify fs)))).length + 1 < maxDepth := by
    simpa only [length_relink, forall_const] using hn
  by_cases hp : p
  · simp only [if_pos hp]
    refine Returns.bind (H.addBoth (Nat.lt_of_succ_lt hn)) fun h₁ H₁ ↦ ?_
    refine (Holds.setFragments (f := ⟨(q, _), 0, 0, true, .leaf m k v⟩) H₁ (hn' _ _) rfl
      (dirtify_addCount _ _) rfl).mono fun h₂ H₂ ↦ ?_
    rw [LinkedNode.addBoth, LinkedNode.children_shorten]
    exact H₂
  · simp only [if_neg hp]
    rw [add_left_comm (LinkedNode.cells x _)] at H
    refine Returns.bind (H.addBoth (Nat.lt_of_succ_lt hn)) fun h₁ H₁ ↦ ?_
    refine (Holds.setFragments (f := ⟨(q, _), 0, 0, false, .leaf m k v⟩) H₁ (hn' _ _) rfl
      (dirtify_addCount _ _) rfl).mono fun h₂ H₂ ↦ ?_
    rw [LinkedNode.addBoth, LinkedNode.children_shorten]
    exact H₂

/-- The call on pointers ends as the call on tries: in the failed assertion, or with the trie in
memory. -/
def Follows (S : Cells) (x : Except Crash Heap) (y : Exec TrieNode) : Prop :=
  (y = .error .assertion ∧ x = .error .assertion) ∨
    ∃ t, y = .ok (LinkedNode.forget t) ∧ Returns x fun h ↦ h.Holds t S

theorem Holds.split (H : h.Holds (plug fs t) ({(node, some leaf.toCell)} + ({(q, none)} + S)))
    (hn : fs.length ≤ bits) : Follows S (h.split (slot fs) t.ptr node q bits)
      (TrieEngine.split fs.forget t.forget leaf bits) := by
  have H₀ := holds_plug.mp H
  have hnode : h.get node = .ok leaf.toCell := H₀.get_eq (by simp)
  by_cases hk : shl leaf.key bits = shl t.forget.key bits
  · have hassert : assert (shl leaf.key bits ≠ shl (t.cell fs.parent).key
        bits) = .error .assertion := by
      rw [key_cell, assert, if_neg (by simpa only [decide_eq_true_eq, not_not] using hk)]
    rw [TrieEngine.split, if_pos hk]
    exact .inl ⟨rfl, (ok_bind hnode).trans ((ok_bind H₀.get_node).trans (error_bind hassert))⟩
  · right
    -- a shift by all the bits of a key leaves nothing to tell two keys apart
    have hbits : bits < 160 := by
      by_contra hge
      exact hk (by rw [shl, shl, if_neg hge, if_neg hge])
    have hlen : fs.length + 1 < maxDepth := Nat.succ_lt_succ (hn.trans_lt hbits)
    have hassert : assert (shl leaf.key bits ≠ shl t.forget.key bits) = .ok () := by
      rw [assert, if_pos (by simpa only [decide_eq_true_eq] using hk)]
    refine ⟨_, LinkedNode.forget_split node q hk, .known hnode (.known H₀.get_node ?_)⟩
    rw [key_cell, parent_cell, children_forget]
    refine .known hassert ?_
    let U : Cells := LinkedNode.cells none (LinkedNode.ofLeaf node leaf) +
      (t.cells fs.parent + S)
    have H₁ : h.Has (some (top t.ptr fs)) (fs.cells t.ptr + ({(q, none)} + U)) :=
      H₀.perm (by simp only [U, LinkedNode.cells_ofLeaf]; abel)
    refine (H₁.subtractFrom (by omega) _).bind fun h₂ H₂ ↦ ?_
    have H₃ := (H₂.perm (add_left_comm _ _ _)).set .newBranch
    rw [← top_relink] at H₃
    have hstore := (H₃.perm (add_left_comm _ _ _)).store q
    rw [slot_relink] at hstore
    refine hstore.bind fun h₄ H₄ ↦ ?_
    refine ((H₄.perm (add_left_comm _ _ _)).modify _).bind fun h₅ H₅ ↦ ?_
    rw [← parent_relink] at H₅
    exact H₅.join _ (by simpa using hlen)

theorem Holds.insert_eq (H : h.Holds (plug fs t) ({(node, some leaf.toCell)} + S)) :
    h.insert node q (n + 1) (slot fs) bits =
      let c := t.cell fs.parent
      if c.type = .branch ∧ subKey leaf.key bits c.bits = c.key then
        h.insert node q n (if highBit leaf.key (bits + c.bits)
          then .right t.ptr else .left t.ptr) (bits + c.bits + 1)
      else h.split (slot fs) t.ptr node q bits := by
  have H₀ := holds_plug.mp H
  have hload : h.load (slot fs) = .ok (some t.ptr) :=
    (H₀.perm (add_left_comm _ _ _)).load
  have hnode : h.get node = .ok leaf.toCell := H₀.get_eq (by simp)
  rw [Heap.insert, ok_bind hload]
  dsimp only
  rw [ok_bind H₀.get_node, ok_bind hnode, Leaf.toCell]

theorem Holds.insertAt (H : h.Holds (plug fs t) ({(node, some leaf.toCell)} + ({(q, none)} + S)))
    (hC : (LinkedNode.forget (plug fs t)).Canon 0 0#160)
    (hbits : bits = depth fs.forget) (hn : maxDepth ≤ n + bits) :
    Follows S (h.insert node q n (slot fs) bits)
      (insertAt leaf fs.forget (LinkedNode.forget t) bits) := by
  induction t generalizing fs bits n with
  | leaf m k v =>
    obtain ⟨hlen, hlt⟩ := LinkedParents.length_le hC
    rw [← hbits] at hlen hlt
    obtain ⟨n, rfl⟩ : ∃ m, n = m + 1 := Nat.exists_eq_add_one.mpr (by omega)
    rw [H.insert_eq, if_neg (by simp [LinkedNode.cell])]
    exact H.split hlen
  | node m key b l r ihl ihr =>
    obtain ⟨hlen, hlt⟩ := LinkedParents.length_le hC
    rw [← hbits] at hlen hlt
    obtain ⟨n, rfl⟩ : ∃ m, n = m + 1 := Nat.exists_eq_add_one.mpr (by omega)
    have hbits' : bits + b + 1 = depth fs.forget + b + 1 := by rw [hbits]
    rw [H.insert_eq, LinkedNode.forget_node, insertAt]
    by_cases hsub : subKey leaf.key bits b = key
    · rw [if_pos hsub, if_pos ⟨rfl, hsub⟩]
      change Follows S (h.insert node q n (if highBit leaf.key (bits + b) then .right m.1
        else .left m.1) (bits + b + 1)) _
      by_cases hhigh : highBit leaf.key (bits + b) = true
      · rw [if_pos hhigh, if_pos hhigh]
        exact @ihr (⟨m, key, b, true, l⟩ :: fs) _ _ H hC hbits' (by omega)
      · rw [if_neg hhigh, if_neg hhigh]
        exact @ihl (⟨m, key, b, false, r⟩ :: fs) _ _ H hC hbits' (by omega)
    · rw [if_neg hsub, if_neg (fun hand ↦ hsub hand.2)]
      exact H.split hlen
  | stub d =>
    obtain ⟨hlen, hlt⟩ := LinkedParents.length_le hC
    rw [← hbits] at hlen hlt
    obtain ⟨n, rfl⟩ : ∃ m, n = m + 1 := Nat.exists_eq_add_one.mpr (by omega)
    rw [H.insert_eq, if_neg (by simp [LinkedNode.cell])]
    exact H.split hlen

end Heap

/-! ## Remove -/

namespace LinkedNode

/-- `TrieEngine.lengthen`, on nodes with addresses. -/
def lengthen (parentKey : UInt160) (parentBits total : ℕ) (right : Bool) : LinkedNode → LinkedNode
  | .node m key b l r =>
    let key := key ||| parentKey
    let key := if right then key ||| shl 1 (sub32 160 total) else key
    .node (m.1, m.2.dirtify) key (b + parentBits + 1) l r
  | peer => peer

theorem forget_lengthen (parentKey : UInt160) (parentBits total : ℕ) (right : Bool)
    (t : LinkedNode) : forget (lengthen parentKey parentBits total right t) =
      TrieEngine.lengthen parentKey parentBits total right (forget t) := by
  cases t <;> rfl

theorem ptr_lengthen (parentKey : UInt160) (parentBits total : ℕ) (right : Bool)
    (t : LinkedNode) : ptr (lengthen parentKey parentBits total right t) = ptr t := by
  cases t <;> rfl

end LinkedNode

namespace Heap

variable {h : Heap} {root : Option Ptr} {p q : Ptr} {c : Cell} {S : Cells} {t u : LinkedNode}
  {parent : Option Ptr} {f : LinkedFrame} {fs : LinkedParents} {n bits newBits : ℕ}

/-- The sibling of a removed node takes the place of their parent. -/
theorem Has.putInPlace (H : h.Has (some (top p fs)) (LinkedParents.cells p fs +
      ({(p, some c)} + (t.cells parent + S)))) (hn : fs.length ≤ maxDepth) :
    Returns (h.putInPlace t.ptr p (LinkedParents.parent fs)) fun h' ↦
      h'.Holds (plug (LinkedParents.dirtify (LinkedParents.addCount t.forget.children
        (LinkedParents.subtract c.cache.children fs))) t) ({(p, some c)} + S) := by
  cases fs with
  | nil =>
    have H₁ : (h.setRoot (some t.ptr)).Has (some t.ptr) (t.cells parent + ({(p, some c)} + S)) :=
      (H.setRoot _).perm (by rw [LinkedParents.cells]; abel)
    exact H₁.setParent none
  | cons f fs =>
    refine (H.replace hn).mono fun h' H' ↦ holds_plug.mpr ?_
    rw [top_relink, top_relink, top_relink, parent_relink, parent_relink, parent_relink,
      LinkedParents.parent]
    exact H'.perm (by abel)

theorem Holds.getTotalBits (H : h.Holds (plug fs t) ({(p, some c)} + S))
    (hc : c.parent = fs.parent) (hn : fs.length < n) : Heap.getTotalBits n h p
      = .ok (c.bits + 1 + TrieNode.getTotalBits fs.forget) := by
  have H₁ : h.Has _ ({(p, some c)} + (fs.cells t.ptr +
    (t.cells fs.parent + S))) := (holds_plug.mp H).perm (by abel)
  exact H₁.getTotalBits hc hn

/-- The sibling takes over the fragment of the parent, under ancestors that are all marked. -/
theorem Holds.lengthen (H : h.Holds (plug fs t) ({(p, some c)} + S)) (hn : fs.length < maxDepth)
    (hc : c.parent = fs.parent) (hfs : LinkedParents.dirtify fs = fs) :
    Returns (h.lengthen (ptr t) p) fun h' ↦
      h'.Holds (plug fs (LinkedNode.lengthen c.key c.bits
        (c.bits + 1 + TrieNode.getTotalBits fs.forget)
        (c.right = some (ptr t)) t)) ({(p, some c)} + S) := by
  have hparent : ∀ {h : Heap} {t : LinkedNode}, h.Holds (plug fs t) ({(p, some c)} + S) →
      h.get p = .ok c := fun H ↦ (holds_plug.mp H).get_eq (by simp)
  refine .known (holds_plug.mp H).get_node ?_
  cases t with
  | leaf m k v => exact .ite_neg (by simp [LinkedNode.cell]) (.pure H)
  | node m key b l r =>
    refine .ite_pos rfl (.known (holds_plug.mp H).get_node (.known (hparent H) ?_))
    refine (H.setBits hn (b + c.bits + 1)).bind fun h₁ H₁ ↦ ?_
    rw [hfs] at H₁
    refine .known (H₁.getTotalBits hc hn) ?_
    refine .known (holds_plug.mp H₁).get_node (.known (hparent H₁) ?_)
    refine (H₁.setKey hn (key ||| c.key)).bind fun h₂ H₂ ↦ ?_
    rw [hfs] at H₂
    refine .known (hparent H₂) ?_
    by_cases hright : c.right = some m.1
    · refine .ite_pos hright (.known (holds_plug.mp H₂).get_node ?_)
      refine (H₂.setKey hn (key ||| c.key ||| shl 1 (sub32 160 _))).mono fun h₃ H₃ ↦ ?_
      rw [hfs] at H₃
      rw [LinkedNode.lengthen, ptr, decide_eq_true hright]
      exact H₃
    · refine .ite_neg hright (.pure ?_)
      rw [LinkedNode.lengthen, ptr, decide_eq_false hright]
      exact H₂
  | stub d => exact .ite_neg (by simp [LinkedNode.cell]) (.pure H)

/-- The root variable and the trie below it. -/
def Stores (h : Heap) (S : Cells) : Option TrieNode → Prop
  | none => h.Has none S
  | some t => ∃ u, LinkedNode.forget u = t ∧ h.Holds u S

/-- What `Remove` leaves of the parent of the removed node `t`. -/
def halfCell (parent : Option Ptr) (f : LinkedFrame) (t : LinkedNode) : Cell :=
  { type := .branch, cache := f.m.2.dirtify.subtract (LinkedNode.forget t).children, data := .init
    key := f.key, bits := f.bits
    left := if f.right then some (LinkedNode.ptr f.sibling) else none
    right := if f.right then none else some (LinkedNode.ptr f.sibling), parent }

theorem Has.removeChild_parent
    (H : h.Has root (t.cells (some f.m.1) +
      (LinkedParents.cells t.ptr (f :: fs) + S))) (hn : fs.length < maxDepth) :
    Returns (h.removeChild f.m.1 t.ptr) fun x ↦
      x.1 = some (ptr f.sibling) ∧
      x.2.Has root (t.cells (some f.m.1) +
        (LinkedParents.cells f.m.1 (LinkedParents.subtract t.forget.children
          (LinkedParents.dirtify fs)) +
          ({(f.m.1, some (halfCell fs.parent f t))} +
            (LinkedNode.cells (some f.m.1) f.sibling + S)))) := by
  let c := frameCell fs.parent t.ptr f
  have H₁ : h.Has root ({(f.m.1, some c)} + (fs.cells f.m.1 +
      (t.cells (some f.m.1) + (LinkedNode.cells (some f.m.1) f.sibling + S)))) :=
    H.perm (by rw [LinkedParents.cells]; abel)
  have hne : ptr f.sibling ≠ ptr t := by
    rw [LinkedNode.cells, add_assoc] at H
    exact H.owns.ne (ptr f.sibling, some (LinkedNode.cell (some f.m.1) f.sibling))
      (by simp [LinkedParents.cells, mem_cells])
  have hcell : removeFrom c t f.right = halfCell fs.parent f t := by
    cases hright : f.right <;>
      simp [c, removeFrom, frameCell, halfCell, hright]
  refine (H₁.removeChild rfl hn f.right ?_ ?_).mono ?_
  · cases hright : f.right <;> simp [c, frameCell, hright]
  · intro hright
    simpa [c, frameCell, hright] using hne
  · rintro ⟨o, h'⟩ ⟨rfl, H'⟩
    refine ⟨?_, ?_⟩
    · cases hright : f.right <;> simp [c, frameCell, hright]
    · rw [hcell] at H'
      exact H'.perm (by abel)

/-- The end of `Remove`: the parent is taken apart and deleted. -/
theorem Holds.discard (H : h.Holds (plug fs t) ({(f.m.1, some (halfCell parent f u))} + S))
    (hptr : ptr t = ptr f.sibling) : Returns (do
      let h ← h.modify f.m.1 fun c ↦ { c with parent := none }
      let (_, h) ← h.removeChild f.m.1 (ptr f.sibling)
      delete maxDepth h (some f.m.1)) fun h' ↦ h'.Holds (plug fs t) S := by
  rw [← hptr]
  have H₁ : h.Has _ ({(f.m.1, some (halfCell parent f u))} +
      (t.cells fs.parent +
        (fs.cells t.ptr + S))) := (holds_plug.mp H).perm (by abel)
  refine (H₁.modify _).bind fun h₂ H₂ ↦ ?_
  have H₃ : h₂.Has (some (top t.ptr fs))
      ({(f.m.1, some (halfCell none f u))} + (LinkedParents.cells 0 [] +
        (t.cells fs.parent +
          (fs.cells t.ptr + S)))) := by
    rw [LinkedParents.cells, zero_add]
    exact H₂
  refine (H₃.removeChild rfl (Nat.succ_pos _) (!f.right) ?_ ?_).bind ?_
  · cases hright : f.right <;> simp [halfCell, hright, hptr]
  · cases hright : f.right <;> simp [halfCell, hright]
  · rintro ⟨o, h₄⟩ ⟨-, H₄⟩
    refine (H₄.delete ?_ ?_).mono fun h₅ H₅ ↦ holds_plug.mpr H₅.right
    · cases hright : f.right <;> simp [halfCell, removeFrom, hright]
    · cases hright : f.right <;> simp [halfCell, removeFrom, hright]

theorem Holds.remove {m : Ptr × NodeCache} {k : UInt160} {v : AccountData}
    (H : h.Holds (plug fs (.leaf m k v)) S) (hn : fs.length < maxDepth) :
    Returns (h.remove m.1) fun h' ↦ h'.Stores S (TrieEngine.remove
      { cache := m.2, key := k, data := v, parents := LinkedParents.forget fs }) := by
  have H₀ := holds_plug.mp H
  refine .known H₀.get_node ?_
  cases fs with
  | nil =>
    have H₁ : (h.setRoot none).Has none ({(m.1, some (LinkedNode.cell none (.leaf m k v)))} + S) :=
      (H₀.setRoot none).perm (by
        rw [cells_leaf, LinkedParents.cells, LinkedParents.parent, zero_add])
    exact H₁.delete rfl rfl
  | cons f fs =>
    have hn' : fs.length < maxDepth := Nat.lt_of_succ_lt hn
    refine (H₀.removeChild_parent hn').bind ?_
    rintro ⟨o, h₁⟩ ⟨rfl, H₁⟩
    rw [cells_leaf] at H₁
    refine (H₁.delete rfl rfl).bind fun h₂ H₂ ↦ ?_
    refine .known (a := ptr f.sibling) rfl ?_
    let t : LinkedNode := .leaf m k v
    let fs₁ := LinkedParents.subtract t.forget.children (LinkedParents.dirtify fs)
    let c := halfCell (LinkedParents.parent fs₁) f t
    have hc : halfCell (LinkedParents.parent fs) f (.leaf m k v) = c := by
      simp only [c, fs₁, t, parent_relink]
    have htop : top t.ptr (f :: fs) = top f.m.1 fs₁ := by
      simp only [fs₁, top_relink, top]
    rw [hc, htop] at H₂
    refine .known (a := c) (H₂.get_eq (by simp)) ?_
    refine (H₂.putInPlace (by simpa [fs₁] using hn'.le)).bind fun h₃ H₃ ↦ ?_
    refine (H₃.lengthen ?_ ?_ (dirtify_dirtify _)).bind fun h₄ H₄ ↦ ?_
    · simpa [fs₁] using hn'
    · simp only [parent_relink]
      rfl
    refine (H₄.discard (LinkedNode.ptr_lengthen _ _ _ _ _)).mono fun h₅ H₅ ↦ ⟨_, ?_, H₅⟩
    have hright : decide (c.right = some (ptr f.sibling)) = !f.right := by
      cases hf : f.right <;> simp [c, halfCell, hf]
    rw [forget_plug, LinkedNode.forget_lengthen, hright, forget_dirtify,
      forget_addCount, forget_subtract, forget_subtract,
      forget_dirtify]
    rfl

end Heap

end Cryptonite
