import Cryptonite.Trie.Engine

/-!
# Account counters

Every node of the trie counts the accounts below it. The engine keeps the counters when it changes a
trie, by adding and subtracting along the way up, and nothing else depends on them: where a leaf is
found, the shape of the trie and its hashes are the same whatever the counters are. So the counters
have an invariant of their own, `Counted`, next to the one of `Trie.EngineCorrect`. A trie that has
been read from a file has the latter and in general not the former (`View.Counting`).
-/

namespace Cryptonite

open Patricia Trie

namespace TrieNode

/-- Every leaf counts as one account and every branch as the sum of its children. -/
def Counted : TrieNode → Prop
  | .leaf c _ _ => c.children = 1
  | .node c _ _ l r => c.children = children l + children r ∧ Counted l ∧ Counted r
  | .stub _ => True

/-- The counters along a chain of ancestors are right for a subtree that counts `n`. -/
def CountedAbove : UInt64 → Parents → Prop
  | _, [] => True
  | n, f :: ps =>
    f.m.children = children f.sibling + n ∧ Counted f.sibling ∧ CountedAbove f.m.children ps

theorem counted_plug : ∀ {ps : Parents} {t : TrieNode},
    Counted (plug ps t) ↔ CountedAbove (children t) ps ∧ Counted t := by
  intro ps
  induction ps with
  | nil => intro t; simp [plug, CountedAbove]
  | cons f ps ih =>
    intro t
    rw [plug, ih, Frame.plug, CountedAbove]
    cases f.right
    · simp only [Bool.false_eq_true, if_false, Counted, children, UInt64.add_comm]
      tauto
    · simp only [if_true, Counted, children]
      tauto

theorem CountedAbove.shift {g : NodeCache → NodeCache} {δ : UInt64}
    (hg : ∀ c, (g c).children = c.children + δ) :
    ∀ {ps : Parents} {n : UInt64}, CountedAbove n ps →
      CountedAbove (n + δ) (ps.map (Frame.mapMeta g)) := by
  intro ps
  induction ps with
  | nil => intro n _; trivial
  | cons f ps ih =>
    rintro n ⟨hf, hs, hps⟩
    refine ⟨?_, hs, ?_⟩
    · rw [Frame.mapMeta, hg, hf, UInt64.add_assoc]
    · have := ih hps
      rwa [← hg] at this

variable {ps : Parents} {n : UInt64}

theorem CountedAbove.dirtify (h : CountedAbove n ps) : CountedAbove n (dirtify ps) := by
  have := h.shift (g := NodeCache.dirtify) (δ := 0) (by simp [NodeCache.dirtify])
  rwa [UInt64.add_zero] at this

theorem CountedAbove.addCount (h : CountedAbove n ps)
    (count : UInt64) : CountedAbove (n + count) (addCount count ps) :=
  h.shift fun _ ↦ rfl

theorem CountedAbove.subtract (h : CountedAbove n ps)
    (count : UInt64) : CountedAbove (n - count) (subtract count ps) := by
  have := h.shift (g := NodeCache.subtract count) (δ := -count)
    (by simp [NodeCache.subtract, UInt64.sub_eq_add_neg])
  rwa [← UInt64.sub_eq_add_neg] at this

/-- A trie without its dirty flags and cached hashes: fragments, their lengths, children, accounts
and account counters. -/
def shape : TrieNode → Trie 160 UInt64 AccountData UInt256
  | .leaf c k v => .leaf c.children k v
  | .node c key bits l r => .node c.children key bits (shape l) (shape r)
  | .stub h => .stub h

/-- The counters of a counted trie are determined by the rest of it. -/
theorem Counted.shape_eq : ∀ {t t' : TrieNode}, Counted t → Counted t' → t.erase = t'.erase →
    shape t = shape t' ∧ children t = children t' := by
  intro t
  induction t with
  | leaf c k v =>
    intro t' hc hc' heq
    cases t' with
    | leaf c' k' v' =>
      obtain ⟨rfl, rfl⟩ : k = k' ∧ v = v' := by simpa [erase] using heq
      have hchildren : c.children = c'.children := Eq.trans hc (Eq.symm hc')
      exact ⟨by rw [shape, shape, hchildren], hchildren⟩
    | node => simp [erase] at heq
    | stub => simp [erase] at heq
  | node c key bits l r ihl ihr =>
    intro t' hc hc' heq
    cases t' with
    | leaf => simp [erase] at heq
    | node c' key' bits' l' r' =>
      obtain ⟨rfl, rfl, hl, hr⟩ : key = key' ∧ bits = bits' ∧ l.erase = l'.erase ∧
          r.erase = r'.erase := by simpa [erase] using heq
      obtain ⟨hl₁, hl₂⟩ := ihl hc.2.1 hc'.2.1 hl
      obtain ⟨hr₁, hr₂⟩ := ihr hc.2.2 hc'.2.2 hr
      have hchildren : c.children = c'.children := by rw [hc.1, hc'.1, hl₂, hr₂]
      exact ⟨by rw [shape, shape, hchildren, hl₁, hr₁], hchildren⟩
    | stub => simp [erase] at heq
  | stub h =>
    intro t' _ _ heq
    cases t' with
    | leaf => simp [erase] at heq
    | node => simp [erase] at heq
    | stub h' =>
      obtain rfl : h = h' := by simpa [erase] using heq
      exact ⟨rfl, rfl⟩

/-! ## The engine keeps the counters -/

theorem Counted.hash {H : List UInt8 → UInt256} : ∀ {t : TrieNode}, Counted t →
    Counted (hash H t).2 ∧ children (hash H t).2 = children t := by
  intro t
  induction t with
  | leaf c k v =>
    intro h
    rw [TrieNode.hash]
    split <;> exact ⟨h, rfl⟩
  | node c key bits l r ihl ihr =>
    rintro ⟨hc, hl, hr⟩
    obtain ⟨hl₁, hl₂⟩ := ihl hl
    obtain ⟨hr₁, hr₂⟩ := ihr hr
    rw [TrieNode.hash]
    split
    · exact ⟨⟨hc, hl, hr⟩, rfl⟩
    · exact ⟨⟨by rw [hl₂, hr₂]; exact hc, hl₁, hr₁⟩, rfl⟩
  | stub h => exact fun _ ↦ ⟨trivial, rfl⟩

theorem Counted.set {p : LeafPtr} (h : Counted p.root) (v : AccountData) :
    Counted (p.set v).root := by
  obtain ⟨habove, hleaf⟩ := counted_plug.mp h
  exact counted_plug.mpr ⟨habove.dirtify, hleaf⟩

end TrieNode

namespace TrieEngine

open TrieNode

variable {ps : Parents} {node2 t : TrieNode} {node : Leaf}

/-- The counters lose what `node2` counted and gain what the new branch counts. -/
theorem counted_addBoth {a b : TrieNode} {key : UInt160} {bits : ℕ} (h : Counted (plug ps node2))
    (ha : Counted a) (hb : Counted b) :
    Counted (addBoth (subtract (children node2) ps) key bits a b) := by
  have hcount := ((((counted_plug.mp h).1.subtract (children node2)).dirtify.addCount
    (children a)).dirtify.addCount (children b)).dirtify
  rw [UInt64.sub_self] at hcount
  exact counted_plug.mpr ⟨hcount, congrArg (· + _) (UInt64.zero_add _), ha, hb⟩

theorem counted_shorten {bits newBits : ℕ} (h : Counted t) : Counted (shorten bits newBits t) := by
  cases t <;> exact h

theorem counted_split {bits : ℕ} (h : Counted (plug ps node2)) (hnode : Counted node.toNode)
    (hsplit : split ps node2 node bits = .ok t) : Counted t := by
  have hnew := counted_plug.mp h
  rw [split] at hsplit
  split at hsplit
  · cases hsplit
  · obtain rfl := Except.ok.inj hsplit
    split
    · exact counted_addBoth h hnode (counted_shorten hnew.2)
    · exact counted_addBoth h (counted_shorten hnew.2) hnode

theorem counted_insertAt (hnode : Counted node.toNode) : ∀ {t t' : TrieNode} {ps : Parents}
    {bits : ℕ}, Counted (plug ps t) → insertAt node ps t bits = .ok t' → Counted t' := by
  intro t
  induction t with
  | leaf c k v => exact fun h hinsert ↦ counted_split h hnode hinsert
  | node c key newBits l r ihl ihr =>
    intro t' ps bits h hinsert
    rw [insertAt] at hinsert
    split at hinsert
    · split at hinsert
      · exact @ihr t' (⟨c, key, newBits, true, l⟩ :: ps) _ h hinsert
      · exact @ihl t' (⟨c, key, newBits, false, r⟩ :: ps) _ h hinsert
    · exact counted_split h hnode hinsert
  | stub h => exact fun h hinsert ↦ counted_split h hnode hinsert

theorem counted_insert {root : Option TrieNode} (h : ∀ t ∈ root, Counted t)
    (hnode : Counted node.toNode) (hinsert : insert root node = .ok t) : Counted t := by
  cases root with
  | none => exact Except.ok.inj hinsert ▸ hnode
  | some t₀ => exact @counted_insertAt node hnode t₀ t [] _ (h t₀ rfl) hinsert

theorem counted_lengthen {key : UInt160} {bits total : ℕ} {right : Bool} (h : Counted t) :
    Counted (lengthen key bits total right t) ∧
      children (lengthen key bits total right t) = children t := by
  cases t <;> exact ⟨h, rfl⟩

theorem counted_remove {p : LeafPtr} (h : Counted p.root) : ∀ t ∈ remove p, Counted t := by
  rcases p with ⟨⟨c, k, v⟩, _ | ⟨parent, ps⟩⟩
  · exact fun t ht ↦ by cases ht
  · obtain ⟨⟨hcount, hpeer, habove⟩, -⟩ := (@counted_plug (parent :: ps) (.leaf c k v)).mp h
    rintro t ⟨⟩
    -- the parent's count minus the leaf's is the peer's, so `Replace` changes nothing
    have hcounts := (((habove.dirtify.subtract c.children).subtract
      (parent.m.children - c.children)).addCount (children parent.sibling)).dirtify
    rw [UInt64.sub_self, UInt64.zero_add] at hcounts
    refine counted_plug.mpr ⟨?_, (counted_lengthen hpeer).1⟩
    rw [(counted_lengthen hpeer).2]
    exact hcounts

/-- A leaf that may be inserted: fresh, or with a hash of its own. -/
def Insertable (H : List UInt8 → UInt256) (node : Leaf) : Prop :=
  Coherent H node.toNode ∧ Counted node.toNode

theorem insertable_new {H : List UInt8 → UInt256} (k : UInt160) (v : AccountData) :
    Insertable H (Leaf.new k v) :=
  ⟨fun (hm : true = false) ↦ absurd hm (by simp), rfl⟩

end TrieEngine

end Cryptonite
