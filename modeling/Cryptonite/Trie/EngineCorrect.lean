import Mathlib.Logic.Function.Basic
import Cryptonite.Trie.Counters

/-!
# The trie engine implements a finite map

Every trie of a node, be it built by the engine or read from a file, is in the canonical form of
`Patricia.Trie` and caches no stale hash; `Valid` is the conjunction, and `AccountTrie` a trie that
carries it. On valid tries the three operations are the three operations of a finite map,
`accounts`:

* `find_map_data`, `find_root`: `Find` is the lookup, and points into the trie it was given;
* `insert_spec`, `insert_present`: `Insert` is the update at a key that is not present, and runs
  into its assertion at one that is;
* `remove_spec`: `Remove` is the erasure.

With the uniqueness of canonical trees this makes the shape of a trie and its root hash functions of
the accounts in it.
-/

namespace Cryptonite

open Patricia Trie Function

/-! ## Key fragments -/

namespace TrieEngine

theorem subKey_eq_slice {left size : ℕ} (key : UInt160) (h : left + size ≤ 160) :
    subKey key left size = slice key left size := by
  rw [subKey, slice, sub32_of_le (by omega) (by omega), sub32_of_le (by omega) (by omega), shl_eq,
    shr_eq, shl_eq]

theorem highBit_eq_getMsbD {shift : ℕ} (key : UInt160) (h : shift < 160) :
    highBit key shift = key.getMsbD shift := by
  have h₁ : sub32 160 shift = 160 - shift := sub32_of_le h.le (by omega)
  have h₂ : sub32 (160 - shift) 1 = 160 - 1 - shift := by
    rw [sub32_of_le (by omega) (by omega)]
    omega
  rw [highBit, h₁, h₂, shr_eq, BitVec.getLsbD_ushiftRight, BitVec.getMsbD_eq_getLsbD,
    decide_eq_true h, Bool.true_and]
  rfl

private theorem and_one_ne_zero_iff (x : UInt160) : (x &&& 1) ≠ 0 ↔ x.getLsbD 0 = true := by
  constructor
  · intro hne
    by_contra hb
    refine hne (BitVec.eq_of_getLsbD_eq fun i hi ↦ ?_)
    rcases Nat.eq_zero_or_pos i with rfl | hpos
    · simpa using hb
    · simp [BitVec.getLsbD_one, hpos.ne']
  · intro hb h0
    have hbit := congrArg (fun k ↦ k.getLsbD 0) h0
    simp only [BitVec.getLsbD_and, hb, Bool.true_and] at hbit
    exact absurd hbit (by decide)

theorem shr_and_one_ne_zero_iff {n : ℕ} (key : UInt160) (h : n < 160) :
    (shr key (sub32 159 n) &&& 1) ≠ 0 ↔ key.getMsbD n = true := by
  rw [and_one_ne_zero_iff, sub32_of_le (by omega) (by omega), shr_eq, BitVec.getLsbD_ushiftRight,
    BitVec.getMsbD_eq_getLsbD, decide_eq_true h, Bool.true_and]
  rfl

end TrieEngine

/-! ## Valid tries -/

/-- What every trie of a node satisfies. -/
structure Valid (H : List UInt8 → UInt256) (t : TrieNode) : Prop where
  /-- The trie is in canonical form. -/
  canon : t.Canon 0 0#160
  /-- No cached hash is stale. -/
  coherent : TrieNode.Coherent H t

/-- The accounts of a trie; the null root has none. -/
def accounts : Option TrieNode → UInt160 → Option AccountData
  | none => fun _ ↦ none
  | some t => t.toMap

/-- A root is null or a valid trie. -/
def ValidRoot (H : List UInt8 → UInt256) (root : Option TrieNode) : Prop :=
  ∀ t, root = some t → Valid H t

/-- The account trie of a node. -/
structure AccountTrie (H : List UInt8 → UInt256) where
  /-- `m_root`. -/
  root : Option TrieNode
  /-- The trie below it is valid. -/
  valid : ValidRoot H root

section Valid

variable {H : List UInt8 → UInt256}

theorem validRoot_none : ValidRoot H none := fun t h ↦ absurd h (by simp)

variable {t t' : TrieNode} {root : Option TrieNode} {p : LeafPtr} {node : Leaf}

theorem validRoot_some : ValidRoot H (some t) ↔ Valid H t :=
  ⟨fun h ↦ h t rfl, fun h _ ht ↦ Option.some_inj.mp ht ▸ h⟩

theorem hash_eq_of_toMap_eq (hcanon : t.Canon 0 0#160)
    (hcanon' : t'.Canon 0 0#160) (hcoherent : TrieNode.Coherent H t)
    (hcoherent' : TrieNode.Coherent H t') (h : t.toMap = t'.toMap) :
    (TrieNode.hash H t).1 = (TrieNode.hash H t').1 := by
  have herase : t.erase = t'.erase :=
    Trie.Canon.ext (supportedIn_zero 0 0) hcanon hcanon' fun x ↦ congrFun h x
  rw [(hcoherent.hash_spec).1, (hcoherent'.hash_spec).1, ← digest_erase, herase, digest_erase]

/-- **Uniqueness.** Two valid tries with the same accounts agree in everything but their counters
and caches. -/
theorem Valid.ext (ht : Valid H t) (ht' : Valid H t') (h : t.toMap = t'.toMap) :
    t.erase = t'.erase ∧ (TrieNode.hash H t).1 = (TrieNode.hash H t').1 :=
  ⟨Trie.Canon.ext (supportedIn_zero 0 0) ht.canon ht'.canon fun x ↦ congrFun h x,
    hash_eq_of_toMap_eq ht.canon ht'.canon ht.coherent ht'.coherent h⟩

theorem Valid.hash {t : TrieNode} (h : Valid H t) :
    Valid H (TrieNode.hash H t).2 ∧ (TrieNode.hash H t).2.toMap = t.toMap := by
  obtain ⟨-, herase, hcoherent⟩ := h.coherent.hash_spec
  exact ⟨⟨(canon_congr herase).mpr h.canon, hcoherent⟩, toMap_congr herase⟩

private theorem canon_root {p : LeafPtr} (h : p.root.Canon 0 0#160) :
    CanonCtx p.parents ∧ Under (depth p.parents) (pfx p.parents) p.key := canon_plug.mp h

/-! ### Find -/

namespace TrieEngine

theorem findAt_root {key : UInt160} : ∀ {t : TrieNode} {ps : Parents} {bits : ℕ} {p : LeafPtr},
    findAt key ps t bits = some p → p.root = plug ps t ∧ p.key = key := by
  intro t
  induction t with
  | leaf c k v =>
    intro ps bits p h
    rw [findAt] at h
    split at h
    · rename_i hk
      obtain rfl := Option.some_inj.mp h
      exact ⟨rfl, hk⟩
    · cases h
  | node c nkey nbits l r ihl ihr =>
    intro ps bits p h
    rw [findAt] at h
    split at h
    · cases h
    · split at h
      · exact ihr h
      · exact ihl h
  | stub h => intro ps bits p h; exact absurd h (by simp [findAt])

/-- In a canonical trie the descent finds exactly the accounts. -/
theorem findAt_map_data {key : UInt160} : ∀ {t : TrieNode} {ps : Parents},
    (plug ps t).Canon 0 0#160 →
      (findAt key ps t (depth ps)).map (fun p ↦ p.data) = t.toMap key := by
  intro t
  induction t with
  | leaf c k v =>
    intro ps _
    rw [findAt, Trie.toMap]
    by_cases hk : k = key
    · rw [if_pos hk, if_pos hk.symm]
      rfl
    · rw [if_neg hk, if_neg (Ne.symm hk)]
      rfl
  | node c nkey nbits l r ihl ihr =>
    intro ps hC
    obtain ⟨hctx, hnode⟩ := canon_plug.mp hC
    have hp := supportedIn_pfx hctx
    have hb : depth ps + nbits < 160 := hnode.1
    rw [findAt, subKey_eq_slice key hb.le, subKey_eq_slice nkey hb.le,
      slice_eq_self hb.le hnode.2.1]
    by_cases hslice : slice key (depth ps) nbits = nkey
    · rw [if_neg (not_not.mpr hslice), hnode.toMap_node hp]
      cases hbit : key.getMsbD (depth ps + nbits) with
      | true =>
        rw [if_pos ((shr_and_one_ne_zero_iff key hb).mpr hbit), if_pos rfl]
        exact @ihr (⟨c, nkey, nbits, true, l⟩ :: ps) hC
      | false =>
        rw [if_neg (by rw [shr_and_one_ne_zero_iff key hb, hbit]; simp), if_neg (by simp)]
        exact @ihl (⟨c, nkey, nbits, false, r⟩ :: ps) hC
    · rw [if_pos hslice, Option.map_none]
      by_contra hsome
      obtain ⟨v, hv⟩ := Option.ne_none_iff_exists'.mp (Ne.symm hsome)
      exact hslice ((slice_eq_iff hb.le hnode.2.1).mpr (hnode.fragment hp hv))
  | stub h => intro ps hC; exact ((canon_plug.mp hC).2).elim

end TrieEngine

theorem find_root {key : UInt160}
    (h : TrieEngine.find key root = some p) : root = some p.root ∧ p.key = key := by
  cases root with
  | none => exact absurd h (by simp [TrieEngine.find])
  | some t =>
    obtain ⟨hroot, hkey⟩ := TrieEngine.findAt_root h
    exact ⟨congrArg some hroot.symm, hkey⟩

theorem find_map_data (h : ValidRoot H root) (key : UInt160) :
    (TrieEngine.find key root).map (fun p ↦ p.data) = accounts root key := by
  cases root with
  | none => rfl
  | some t => exact @TrieEngine.findAt_map_data key t [] (validRoot_some.mp h).canon

/-! ### Setters -/

private theorem forall_sibling_mapMeta {P : TrieNode → Prop} {g : NodeCache → NodeCache}
    {ps : Parents} (h : ∀ f ∈ ps, P f.sibling) :
    ∀ f ∈ ps.map (Frame.mapMeta g), P f.sibling := by
  intro f hf
  obtain ⟨f', hf', rfl⟩ := List.mem_map.mp hf
  exact h f' hf'

@[simp] theorem set_set (p : LeafPtr) (v v' : AccountData) : (p.set v).set v' = p.set v' := by
  simp only [LeafPtr.set, TrieNode.dirtify, List.map_map]
  rfl

theorem set_spec (h : Valid H p.root) (v : AccountData) :
    Valid H (p.set v).root ∧
      (p.set v).root.toMap = update p.root.toMap p.key (some v) := by
  obtain ⟨hctx, hunder⟩ := canon_root h.canon
  obtain ⟨hsib, -⟩ := h.coherent.of_plug
  -- up to annotations the setter plugs another leaf into the same hole
  have herase : (p.set v).root.erase
      = (plug p.parents (leaf p.cache.dirtify p.key v : TrieNode)).erase :=
    erase_plug_mapMeta _ _ _
  have hcanon : (plug p.parents (leaf p.cache.dirtify p.key v : TrieNode)).Canon 0 0#160 :=
    canon_plug.mpr ⟨hctx, hunder⟩
  refine ⟨⟨(canon_congr herase).mpr hcanon, ?_⟩, ?_⟩
  · exact TrieNode.coherent_plug_dirtify hsib fun (hm : true = false) ↦ absurd hm (by simp)
  · rw [toMap_congr herase]
    refine toMap_plug_update h.canon hunder hunder ?_
    rw [toMap_leaf, Leaf.toNode, toMap_leaf, update_idem]

/-! ### Insert -/

namespace TrieEngine

variable {ps : Parents} {n : ℕ} {node2 : TrieNode}

theorem shorten_eq_cut (hC : node2.Canon (depth ps) (pfx ps)) (hn : node2.Labelled (depth ps) n) :
    shorten (depth ps) n node2 = node2.cut NodeCache.dirtify (depth ps) n := by
  cases node2 with
  | leaf c k v => rfl
  | node c key bits l r =>
    have hb : depth ps + bits < 160 := hC.1
    have hlt : n < bits := hn
    have h₁ : sub32 bits n = bits - n := sub32_of_le hlt.le (by omega)
    have h₂ : sub32 (bits - n) 1 = bits - n - 1 := sub32_of_le (by omega) (by omega)
    rw [shorten, cut, h₁, h₂, subKey_eq_slice key (by omega)]
  | stub h => rfl

/-- A new branch in the place of `node2` makes a valid trie, if it is canonical there and its
children are coherent. -/
theorem addBoth_valid {a b : TrieNode} {key : UInt160} {bits : ℕ} (h : Valid H (plug ps node2))
    (hC : ∀ c, (Trie.node c key bits a b : TrieNode).Canon (depth ps) (pfx ps))
    (ha : TrieNode.Coherent H a) (hb : TrieNode.Coherent H b) :
    Valid H (addBoth (TrieNode.subtract (TrieNode.children node2) ps) key bits a b) ∧
      (addBoth (TrieNode.subtract (TrieNode.children node2) ps) key bits a b).toMap
        = (plug ps (Trie.node NodeCache.newBranch key bits a b)).toMap := by
  obtain ⟨hctx, -⟩ := canon_plug.mp h.canon
  obtain ⟨hsib, -⟩ := h.coherent.of_plug
  have herase : (addBoth (TrieNode.subtract (TrieNode.children node2) ps) key bits a b).erase
      = (plug ps (Trie.node NodeCache.newBranch key bits a b)).erase := by
    simp only [addBoth, TrieNode.dirtify, TrieNode.addCount, TrieNode.subtract, erase_plug_mapMeta]
    exact erase_plug_congr rfl
  refine ⟨⟨(canon_congr herase).mpr (canon_plug.mpr ⟨hctx, hC _⟩), ?_⟩, toMap_congr herase⟩
  refine TrieNode.coherent_plug_dirtify ?_ ⟨fun (hm : true = false) ↦ absurd hm (by simp), ha, hb⟩
  iterate 5 refine forall_sibling_mapMeta ?_
  exact hsib

private theorem coherent_cut {node2 : TrieNode} {d n : ℕ} (h : TrieNode.Coherent H node2) :
    TrieNode.Coherent H (node2.cut NodeCache.dirtify d n) := by
  cases node2 with
  | leaf c k v => exact h
  | node c key bits l r => exact ⟨fun (hm : true = false) ↦ absurd hm (by simp), h.2⟩
  | stub h' => exact h

/-- **A split.** Where the key of the new leaf leaves the node in its way, at the `n`-th bit below
the ancestors, the new branch adds the leaf. -/
theorem split_spec {node : Leaf} (h : Valid H (plug ps node2)) (hnode : Insertable H node)
    (hk : Under (depth ps) (pfx ps) node.key) (hn : node2.Labelled (depth ps) n)
    (hsame : ∀ j < n, node.key.getMsbD (depth ps + j) = node2.label.getMsbD (depth ps + j))
    (hne : node.key.getMsbD (depth ps + n) ≠ node2.label.getMsbD (depth ps + n))
    (hnone : node2.toMap node.key = none) :
    ∃ t, split ps node2 node (depth ps) = .ok t ∧ Valid H t ∧
      t.toMap = update (plug ps node2).toMap node.key (some node.data) := by
  have hw : depth ps + n < 160 := lt_width_of_getMsbD_ne hne
  obtain ⟨hctx, hC⟩ := canon_plug.mp h.canon
  have hnew := coherent_cut (d := depth ps) (n := n) h.coherent.of_plug.2
  have hcanon : ∀ c, ((⟨c, slice node.key (depth ps) n, n, node.key.getMsbD (depth ps + n),
      node2.cut NodeCache.dirtify (depth ps) n⟩ : Frame 160 NodeCache AccountData UInt256).plug
      node.toNode).Canon (depth ps) (pfx ps) := fun c ↦
    hC.branch (supportedIn_pfx hctx) hk hn hw hsame hne
  have hmap := Frame.toMap_plug_leaf (m := node.cache) (v := node.data)
    (f := ⟨NodeCache.newBranch, slice node.key (depth ps) n, n, node.key.getMsbD (depth ps + n),
      node2.cut NodeCache.dirtify (depth ps) n⟩) (k := node.key) (by rwa [toMap_cut])
  rw [toMap_cut] at hmap
  have hupdate := toMap_plug_update h.canon (hcanon _) hk hmap
  rw [split, shl_eq, shl_eq, TrieNode.key, if_neg (shiftLeft_ne hne),
    leadingEqual_shiftLeft 160 (depth ps) n (by omega) hsame hne]
  dsimp only
  rw [subKey_eq_slice _ hw.le, shorten_eq_cut hC hn]
  -- the side of the new leaf is the bit at which its key leaves
  cases hbit : node.key.getMsbD (depth ps + n) with
  | false =>
    simp only [hbit, Frame.plug, Bool.false_eq_true, if_false] at hcanon hupdate
    rw [if_pos ((shiftLeft_lt_iff hsame hne).mpr hbit)]
    obtain ⟨hvalid, htoMap⟩ := addBoth_valid h hcanon hnode.1 hnew
    exact ⟨_, rfl, hvalid, htoMap.trans hupdate⟩
  | true =>
    simp only [hbit, Frame.plug, if_true] at hcanon hupdate
    rw [if_neg (by rw [shiftLeft_lt_iff hsame hne, hbit]; simp)]
    obtain ⟨hvalid, htoMap⟩ := addBoth_valid h hcanon hnew hnode.1
    exact ⟨_, rfl, hvalid, htoMap.trans hupdate⟩

/-- Two keys below one prefix differ, if at all, below it. -/
private theorem exists_diff_of_under {d : ℕ} {p k k' : UInt160} (hk : Under d p k)
    (hk' : Under d p k') (hne : k ≠ k') : ∃ i, d ≤ i ∧ k.getMsbD i ≠ k'.getMsbD i := by
  by_contra hall
  push Not at hall
  refine hne (BitVec.eq_of_getMsbD_eq fun i _ ↦ ?_)
  by_cases hi : i < d
  · rw [hk i hi, hk' i hi]
  · exact hall i (not_lt.mp hi)

/-- `Insert` below a chain of ancestors adds a leaf whose key is not present. -/
theorem insertAt_spec {node : Leaf} (hnode : Insertable H node) : ∀ {t : TrieNode} {ps : Parents},
    Valid H (plug ps t) → Under (depth ps) (pfx ps) node.key → t.toMap node.key = none →
    ∃ t', insertAt node ps t (depth ps) = .ok t' ∧ Valid H t' ∧
      t'.toMap = update (plug ps t).toMap node.key (some node.data) := by
  intro t
  induction t with
  | leaf c k v =>
    intro ps h hk hnone
    have hne : node.key ≠ k := fun heq ↦ by simp [Trie.toMap, heq] at hnone
    obtain ⟨i, hi, hdiff⟩ := exists_diff_of_under hk (canon_plug.mp h.canon).2 hne
    obtain ⟨n, -, hsame, hdiff⟩ := exists_first_diff hi hdiff
    exact split_spec h hnode hk (lt_width_of_getMsbD_ne hdiff) hsame hdiff hnone
  | node c key bits l r ihl ihr =>
    intro ps h hk hnone
    obtain ⟨hctx, hC⟩ := canon_plug.mp h.canon
    have hp := supportedIn_pfx hctx
    have hb : depth ps + bits < 160 := hC.1
    rw [insertAt, subKey_eq_slice _ hb.le]
    by_cases hslice : slice node.key (depth ps) bits = key
    · have hfrag := (slice_eq_iff hb.le hC.2.1).mp hslice
      rw [hC.toMap_node hp] at hnone
      rw [if_pos hslice, highBit_eq_getMsbD _ hb]
      cases hbit : node.key.getMsbD (depth ps + bits) with
      | true =>
        rw [if_pos hbit] at hnone
        exact @ihr (⟨c, key, bits, true, l⟩ :: ps) h
          ((under_descend hp hb hC.2.1 true).mpr ⟨hk, hfrag, hbit⟩) hnone
      | false =>
        rw [if_neg (by simp [hbit])] at hnone
        exact @ihl (⟨c, key, bits, false, r⟩ :: ps) h
          ((under_descend hp hb hC.2.1 false).mpr ⟨hk, hfrag, hbit⟩) hnone
    · rw [if_neg hslice]
      rw [slice_eq_iff hb.le hC.2.1] at hslice
      push Not at hslice
      obtain ⟨i, hlo, hhi, hdiff⟩ := hslice
      obtain ⟨n, hni, hsame, hdiff⟩ := exists_first_diff hlo hdiff
      exact split_spec h hnode hk (by omega : n < bits) hsame hdiff hnone
  | stub h' => intro ps h; exact ((canon_plug.mp h.canon).2).elim

/-- `Insert` at a key that is present runs into its assertion. -/
theorem insertAt_present {node : Leaf} : ∀ {t : TrieNode} {ps : Parents} {v : AccountData},
    (plug ps t).Canon 0 0#160 → t.toMap node.key = some v →
    insertAt node ps t (depth ps) = .error .assertion := by
  intro t
  induction t with
  | leaf c k v =>
    intro ps u _ hsome
    have heq : node.key = k := by
      by_contra hne
      simp [Trie.toMap, hne] at hsome
    rw [insertAt, split, if_pos (by rw [heq]; rfl)]
  | node c key bits l r ihl ihr =>
    intro ps u hC' hsome
    obtain ⟨hctx, hC⟩ := canon_plug.mp hC'
    have hp := supportedIn_pfx hctx
    have hb : depth ps + bits < 160 := hC.1
    have hslice := (slice_eq_iff hb.le hC.2.1).mpr (hC.fragment hp hsome)
    rw [insertAt, subKey_eq_slice _ hb.le, if_pos hslice, highBit_eq_getMsbD _ hb]
    rw [hC.toMap_node hp] at hsome
    cases hbit : node.key.getMsbD (depth ps + bits) with
    | true =>
      rw [if_pos hbit] at hsome
      exact @ihr (⟨c, key, bits, true, l⟩ :: ps) u hC' hsome
    | false =>
      rw [if_neg (by simp [hbit])] at hsome
      exact @ihl (⟨c, key, bits, false, r⟩ :: ps) u hC' hsome
  | stub h' => intro ps u hC'; exact ((canon_plug.mp hC').2).elim

end TrieEngine

theorem valid_leaf (hnode : TrieEngine.Insertable H node) : Valid H node.toNode :=
  ⟨fun i hi ↦ absurd hi (Nat.not_lt_zero i), hnode.1⟩

def AccountTrie.singleton (k : UInt160) (v : AccountData) : AccountTrie H :=
  ⟨some (Leaf.new k v).toNode, validRoot_some.mpr (valid_leaf (TrieEngine.insertable_new k v))⟩

/-- `Insert` at a key that is not present is the update of the map. -/
theorem insert_spec (h : ValidRoot H root)
    (hnode : TrieEngine.Insertable H node) (hnone : accounts root node.key = none) :
    ∃ t, TrieEngine.insert root node = .ok t ∧ Valid H t ∧
      t.toMap = update (accounts root) node.key (some node.data) := by
  cases root with
  | none =>
    refine ⟨node.toNode, rfl, valid_leaf hnode, ?_⟩
    rw [Leaf.toNode, toMap_leaf]
    rfl
  | some t =>
    exact @TrieEngine.insertAt_spec H node hnode t [] (validRoot_some.mp h)
      (fun i hi ↦ absurd hi (Nat.not_lt_zero i)) hnone

theorem insert_present {root : Option TrieNode} {node : Leaf} {v : AccountData}
    (h : ValidRoot H root) (hsome : accounts root node.key = some v) :
    TrieEngine.insert root node = .error .assertion := by
  cases root with
  | none => exact absurd hsome (by simp [accounts])
  | some t => exact @TrieEngine.insertAt_present node t [] v (validRoot_some.mp h).canon hsome

theorem Valid.of_insert (h : ValidRoot H root) (hnode : TrieEngine.Insertable H node)
    (hinsert : TrieEngine.insert root node = .ok t) : Valid H t := by
  cases hacc : accounts root node.key with
  | none =>
    obtain ⟨t', ht', hvalid, -⟩ := insert_spec h hnode hacc
    rw [hinsert] at ht'
    exact Except.ok.inj ht' ▸ hvalid
  | some v =>
    rw [insert_present h hacc] at hinsert
    cases hinsert

/-! ### Remove -/

namespace TrieEngine

theorem lengthen_eq_absorb {parent : Frame 160 NodeCache AccountData UInt256} {ps qs : Parents}
    (hb : depth ps + parent.bits < 160) (hdepth : depth qs = depth ps) :
    lengthen parent.key parent.bits (TrieNode.getTotalBits (parent :: qs)) (!parent.right)
        parent.sibling
      = parent.sibling.absorb NodeCache.dirtify (depth ps) parent.key parent.bits
          (!parent.right) := by
  have htotal : TrieNode.getTotalBits (parent :: qs) = depth ps + parent.bits + 1 := by
    rw [TrieNode.getTotalBits_eq_depth, depth, hdepth]
  have hbit : shl 1 (sub32 160 (depth ps + parent.bits + 1))
      = (bitAt (depth ps + parent.bits) : UInt160) := by
    rw [shl_eq, sub32_of_le (by omega) (by omega), bitAt, Nat.sub_sub, Nat.add_comm 1]
    rfl
  rw [htotal]
  cases parent.sibling with
  | leaf c k v => rfl
  | node c key bits l r =>
    rw [lengthen, absorb, hbit]
    cases parent.right <;> simp [sideBit]
  | stub h => rfl

private theorem coherent_absorb {peer : TrieNode} (d b : ℕ) (key : UInt160) (side : Bool)
    (h : TrieNode.Coherent H peer) :
    TrieNode.Coherent H (peer.absorb NodeCache.dirtify d key b side) := by
  cases peer with
  | leaf c k v => exact h
  | node c key bits l r => exact ⟨fun (hm : true = false) ↦ absurd hm (by simp), h.2⟩
  | stub h' => exact h

end TrieEngine

theorem remove_spec (h : Valid H p.root) :
    ValidRoot H (TrieEngine.remove p) ∧
      accounts (TrieEngine.remove p) = update p.root.toMap p.key none := by
  rcases p with ⟨⟨c, k, v⟩, ps⟩
  cases ps with
  | nil =>
    refine ⟨validRoot_none, ?_⟩
    rw [LeafPtr.root, plug, Leaf.toNode, toMap_leaf, update_idem]
    exact (update_eq_self k _).symm
  | cons parent ps =>
    have hroot : LeafPtr.root ⟨⟨c, k, v⟩, parent :: ps⟩ = plug ps (parent.plug (.leaf c k v)) := rfl
    rw [hroot] at h ⊢
    obtain ⟨hctx, hC⟩ := canon_plug.mp h.canon
    obtain ⟨hb, hkey, hpeer, hleaf⟩ := Frame.canon_plug_iff.mp hC
    have hp := supportedIn_pfx hctx
    have hunder : Under (depth ps) (pfx ps) k := ((under_descend hp hb hkey _).mp hleaf).1
    have hpeerNone : parent.sibling.toMap k = none :=
      Frame.sibling_toMap_eq_none (v := v) hp hC (by simp [Trie.toMap])
    obtain ⟨hsib, -⟩ := @TrieNode.Coherent.of_plug H (parent :: ps) (.leaf c k v) h.coherent
    have hcoh := TrieEngine.coherent_absorb (depth ps) parent.bits parent.key (!parent.right)
      (hsib parent List.mem_cons_self)
    have hcanon := hpeer.absorb (f := NodeCache.dirtify) hp hb hkey
    have herase : ∀ (t : TrieNode) (a b d : UInt64), (plug (TrieNode.dirtify (TrieNode.addCount a
        (TrieNode.subtract b (TrieNode.subtract d (TrieNode.dirtify ps))))) t).erase
        = (plug ps t).erase := by
      intro t a b d
      simp only [TrieNode.dirtify, TrieNode.addCount, TrieNode.subtract, erase_plug_mapMeta]
    rw [TrieEngine.remove]
    dsimp only
    rw [TrieEngine.lengthen_eq_absorb hb (by simp only [TrieNode.dirtify,
      TrieNode.addCount, TrieNode.subtract, depth_mapMeta]), validRoot_some, accounts]
    refine ⟨⟨?_, ?_⟩, ?_⟩
    · exact (canon_congr (herase _ _ _ _)).mpr (canon_plug.mpr ⟨hctx, hcanon⟩)
    · refine TrieNode.coherent_plug_dirtify ?_ hcoh
      iterate 4 refine forall_sibling_mapMeta ?_
      exact fun f hf ↦ hsib f (List.mem_cons_of_mem parent hf)
    · rw [toMap_congr (herase _ _ _ _)]
      refine toMap_plug_update h.canon hcanon hunder ?_
      rw [toMap_absorb, Frame.toMap_plug_leaf hpeerNone, update_idem, ← hpeerNone, update_eq_self]

end Valid

end Cryptonite
