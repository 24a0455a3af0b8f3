import Cryptonite.Foundation.Sha256
import Cryptonite.Trie.EngineCorrect
import Cryptonite.Trie.LinkedEngine

/-!
# No stale hash

A node of the trie caches its hash and is marked when something below it changes. Whoever changes
something has to mark everything above it, by hand, through pointers that the same call may be
re-linking. `hash_cache_coherent` says that nobody forgets: whatever calls of `Insert`, `Remove`,
the setters of a leaf and `Hash` have been made, on whatever nodes and in whatever order, `Hash` on
any node of the trie returns what `rehash`, which looks at no cache, recomputes from the nodes
below.

The invariant of a run is that the memory holds a valid trie. Every call keeps it because it does in
memory what the engine does to the trie (`Trie.LinkedEngine`), which keeps tries valid
(`Trie.EngineCorrect`). It also follows that no call of a run dereferences a null or a deleted
pointer; the one way a call can end badly is the assertion in `Insert`, at a key that is present.
-/

namespace Cryptonite

open Patricia PointsTo LinkedNode

/-! ## Refreshing the caches somewhere inside a trie -/

section Refresh

variable {K : List UInt8 → UInt256}

variable {ps : Parents} {t : TrieNode}

theorem TrieNode.Coherent.plug_congr {u : TrieNode} (h : Coherent K (plug ps t))
    (hu : Coherent K u) (hd : digest K u = digest K t) : Coherent K (plug ps u) := by
  induction ps generalizing t u with
  | nil => exact hu
  | cons f ps ih =>
    have hf : Coherent K (f.plug t) := (@Coherent.of_plug K ps (f.plug t) h).2
    have hnode : Coherent K (f.plug u) ∧ digest K (f.plug u) = digest K (f.plug t) := by
      rw [Frame.plug] at hf ⊢
      rw [Frame.plug]
      split at hf
      · rw [if_pos ‹_›, if_pos ‹_›, digest, digest, hd]
        exact ⟨⟨by rw [hd]; exact hf.1, hf.2.1, hu⟩, rfl⟩
      · rw [if_neg ‹_›, if_neg ‹_›, digest, digest, hd]
        exact ⟨⟨by rw [hd]; exact hf.1, hu, hf.2.2⟩, rfl⟩
    exact ih h hnode.1 hnode.2

theorem Valid.hash_at (h : Valid K (plug ps t)) :
    (TrieNode.hash K t).1 = digest K t ∧ Valid K (plug ps (TrieNode.hash K t).2) := by
  obtain ⟨hdigest, herase, hcoherent⟩ := h.coherent.of_plug.2.hash_spec
  refine ⟨hdigest, (Trie.canon_congr (erase_plug_congr herase)).mpr h.canon, ?_⟩
  refine h.coherent.plug_congr hcoherent ?_
  rw [← digest_erase, herase, digest_erase]

end Refresh

/-! ## The hash from scratch -/

/-- The hash of a node recomputed from the nodes below it; no cache is read. -/
def Heap.rehash (K : List UInt8 → UInt256) : ℕ → Heap → Ptr → Except Crash UInt256
  | 0, _, _ => .error .tooDeep
  | n + 1, h, p => do
    let c ← h.get p
    match c.type with
    | .hash => pure c.cache.hash
    | .leaf => pure (K (leafPreimage c.key c.data))
    | .branch =>
      let left ← rehash K n h (← deref c.left)
      let right ← rehash K n h (← deref c.right)
      pure (K (branchPreimage c.key c.bits left right))

/-! ## Runs -/

/-- The nodes that can be reached from the root. -/
inductive Heap.InTrie (h : Heap) : Ptr → Prop
  | root {p : Ptr} (hroot : h.root = some p) : InTrie h p
  | left {p q : Ptr} {c : Cell} (hp : InTrie h p) (hc : h.cell p = some c)
      (hq : c.left = some q) : InTrie h q
  | right {p q : Ptr} {c : Cell} (hp : InTrie h p) (hc : h.cell p = some c)
      (hq : c.right = some q) : InTrie h q

/-- A leaf of the trie. -/
def Heap.LeafAt (h : Heap) (p : Ptr) (key : UInt160) : Prop :=
  h.InTrie p ∧ ∃ c, h.cell p = some c ∧ c.type = .leaf ∧ c.key = key

inductive TrieCall where
  /-- `Insert` a leaf that `new` returned at `p`; the next `new` returns `q`. -/
  | insert (leaf : Leaf) (p q : Ptr)
  /-- `Remove` the leaf at `p`. -/
  | remove (p : Ptr)
  /-- `SetAge`. -/
  | setAge (p : Ptr) (age : UInt64)
  /-- `SetBalance`. -/
  | setBalance (p : Ptr) (balance : UInt64)
  /-- `SetLimit`. -/
  | setLimit (p : Ptr) (limit : UInt64)
  /-- `SetFutureLimit`. -/
  | setFutureLimit (p : Ptr) (limit : UInt64)
  /-- `SetKey`. -/
  | setKey (p : Ptr) (key : UInt160)
  /-- `Hash` on the node at `p`. -/
  | hash (p : Ptr)

namespace TrieCall

variable (K : List UInt8 → UInt256)

def run (h : Heap) : TrieCall → Except Crash Heap
  | .insert leaf p q => Heap.insert p q maxDepth (h.set p leaf.toCell) .root 0
  | .remove p => h.remove p
  | .setAge p age => h.setAge p age
  | .setBalance p balance => h.setBalance p balance
  | .setLimit p limit => h.setLimit p limit
  | .setFutureLimit p limit => h.setFutureLimit p limit
  | .setKey p key => h.setKey p key
  | .hash p => (h.hash K maxDepth p).map Prod.snd

/-- The call may be made: `new` returns free memory, a leaf that is inserted is new or has its own
hash, what is removed or set is a leaf of the trie, and `SetKey` sets the key the leaf has. -/
def Legal (h : Heap) : TrieCall → Prop
  | .insert leaf p q =>
    TrieEngine.Insertable K leaf ∧ h.cell p = none ∧ h.cell q = none ∧ p ≠ q
  | .remove p => ∃ key, h.LeafAt p key
  | .setAge p _ => ∃ key, h.LeafAt p key
  | .setBalance p _ => ∃ key, h.LeafAt p key
  | .setLimit p _ => ∃ key, h.LeafAt p key
  | .setFutureLimit p _ => ∃ key, h.LeafAt p key
  | .setKey p key => h.LeafAt p key
  | .hash p => h.InTrie p

def runAll (h : Heap) (calls : List TrieCall) : Except Crash Heap := calls.foldlM (run K) h

/-- Every call may be made when it is made. -/
def LegalAll : Heap → List TrieCall → Prop
  | _, [] => True
  | h, call :: calls => call.Legal K h ∧ ∀ h', call.run K h = .ok h' → LegalAll h' calls

end TrieCall

/-! ## Nodes in memory and nodes of the trie -/

theorem LinkedNode.cells_ne_none {t : LinkedNode} : ∀ {parent : Option Ptr},
    ∀ x ∈ cells parent t, x.2 ≠ none := by
  induction t with
  | leaf m k v =>
    intro parent x hx
    rw [cells_leaf, Multiset.mem_singleton] at hx
    rw [hx]
    exact Option.some_ne_none _
  | node m key bits l r ihl ihr =>
    intro parent x hx
    rw [cells_node, Multiset.mem_add, Multiset.mem_singleton, Multiset.mem_add] at hx
    rcases hx with rfl | hx | hx
    · exact Option.some_ne_none _
    · exact ihl x hx
    · exact ihr x hx
  | stub d =>
    intro parent x hx
    have hx : x ∈ ({(0, some (cell parent (.stub d)))} : Cells) := hx
    rw [Multiset.mem_singleton.mp hx]
    exact Option.some_ne_none _

namespace Heap

variable {h : Heap} {p q : Ptr} {S : Cells} {t : LinkedNode}

variable {r : Option Ptr} {fs : LinkedParents} {key : UInt160}

theorem Has.alloc (H : h.Has r S) (hp : h.cell p = none)
    (hS : ∀ x ∈ S, x.2 = none → x.1 ≠ p) : h.Has r ({(p, none)} + S) := by
  refine ⟨H.root_eq, hp ▸ H.owns.cons ?_⟩
  rintro x hx rfl
  exact hS x hx ((H.owns.holds x hx).symm.trans hp) rfl

theorem Holds.drop (H : h.Holds t S) : h.Holds t 0 :=
  Has.right (H.perm (by rw [add_zero, add_comm] : _ = S + (LinkedNode.cells none t + 0)))

theorem Holds.store_leaf (H : h.Holds t 0) (leaf : Leaf) (hp : h.cell p = none)
    (hq : h.cell q = none) (hpq : p ≠ q) : (h.set p leaf.toCell).Holds (plug [] t)
      ({(p, some leaf.toCell)} + ({(q, none)} + 0)) := by
  have H₁ : h.Has _ ({(q, none)} + (LinkedNode.cells none t + 0)) := Has.alloc H hq (by
    rw [add_zero]
    exact fun x hx hnone ↦ absurd hnone (cells_ne_none x hx))
  have H₂ : h.Has _ ({(p, none)} + ({(q, none)} + (LinkedNode.cells none t + 0))) := H₁.alloc hp (by
    rw [add_zero]
    intro x hx hnone
    rcases Multiset.mem_add.mp hx with hx | hx
    · rw [Multiset.mem_singleton.mp hx]
      exact hpq.symm
    · exact absurd hnone (cells_ne_none x hx))
  exact (H₂.set leaf.toCell).perm (by rw [plug]; abel)

theorem Holds.cell_eq (H : h.Holds (plug fs t) S) :
    h.cell (LinkedNode.ptr t) = some (LinkedNode.cell (LinkedParents.parent fs) t) :=
  (holds_plug.mp H).owns.holds _ (Multiset.mem_add.mpr (.inl (LinkedNode.mem_cells _ t)))

theorem Holds.exists_plug (H : h.Holds t S) (hp : h.InTrie p) :
    ∃ fs u, t = plug fs u ∧ LinkedNode.ptr u = p := by
  induction hp with
  | root hroot => exact ⟨[], t, rfl, Option.some_inj.mp (H.root_eq.symm.trans hroot)⟩
  | left hp hc hq ih =>
    obtain ⟨fs, u, rfl, rfl⟩ := ih
    obtain rfl := Option.some_inj.mp (H.cell_eq.symm.trans hc)
    cases u with
    | leaf m k v => exact absurd hq (by simp [LinkedNode.cell])
    | node m key b l r => exact ⟨⟨m, key, b, false, r⟩ :: fs, l, rfl, Option.some_inj.mp hq⟩
    | stub d => exact absurd hq (by simp [LinkedNode.cell])
  | right hp hc hq ih =>
    obtain ⟨fs, u, rfl, rfl⟩ := ih
    obtain rfl := Option.some_inj.mp (H.cell_eq.symm.trans hc)
    cases u with
    | leaf m k v => exact absurd hq (by simp [LinkedNode.cell])
    | node m key b l r => exact ⟨⟨m, key, b, true, l⟩ :: fs, r, rfl, Option.some_inj.mp hq⟩
    | stub d => exact absurd hq (by simp [LinkedNode.cell])

theorem Has.rehash {K : List UInt8 → UInt256} {parent : Option Ptr} {n : ℕ}
    (H : h.Has r (LinkedNode.cells parent t + S)) (hn : t.height ≤ n) :
    h.rehash K n (LinkedNode.ptr t) = .ok (digest K (forget t)) := by
  induction t generalizing n parent S with
  | leaf m k v =>
    obtain ⟨n, rfl⟩ : ∃ m, n = m + 1 := Nat.exists_eq_add_one.mpr hn
    exact ok_bind H.get_node
  | node m key bits l r ihl ihr =>
    obtain ⟨n, rfl⟩ : ∃ m, n = m + 1 := Nat.exists_eq_add_one.mpr (Nat.zero_lt_of_lt hn)
    have hn : max l.height r.height ≤ n := Nat.le_of_succ_le_succ hn
    let c := LinkedNode.cell parent (.node m key bits l r)
    have Hl : h.Has _ (LinkedNode.cells (some m.1) l + (LinkedNode.cells (some m.1) r +
      ({(m.1, some c)} + S))) := H.perm (by rw [LinkedNode.cells_node]; abel)
    have Hr : h.Has _ (LinkedNode.cells (some m.1) r + (LinkedNode.cells (some m.1) l +
      ({(m.1, some c)} + S))) := H.perm (by rw [LinkedNode.cells_node]; abel)
    have hl := ihl Hl (le_of_max_le_left hn)
    have hr := ihr Hr (le_of_max_le_right hn)
    exact (ok_bind H.get_node).trans ((ok_bind hl).trans (ok_bind hr))
  | stub d =>
    obtain ⟨n, rfl⟩ : ∃ m, n = m + 1 := Nat.exists_eq_add_one.mpr hn
    exact ok_bind H.get_node

/-! ## The invariant -/

variable {K : List UInt8 → UInt256}

/-- The memory holds a valid trie, or the root is null. -/
def Sound (K : List UInt8 → UInt256) (h : Heap) : Prop :=
  ∃ root, ValidRoot K root ∧ h.Stores 0 root

theorem Sound.of_holds (H : h.Holds t S) (hvalid : Valid K (forget t)) : h.Sound K :=
  ⟨_, validRoot_some.mpr hvalid, t, rfl, H.drop⟩

theorem InTrie.root_ne_none (hp : h.InTrie p) : h.root ≠ none := by
  induction hp with
  | root hroot => rw [hroot]; exact Option.some_ne_none _
  | left _ _ _ ih => exact ih
  | right _ _ _ ih => exact ih

theorem Sound.exists_node (hs : h.Sound K) (hp : h.InTrie p) :
    ∃ fs u, LinkedNode.ptr u = p ∧ h.Holds (plug fs u) 0 ∧
      Valid K (forget (plug fs u)) := by
  obtain ⟨root, hvalid, hstores⟩ := hs
  cases root with
  | none => exact absurd hstores.root_eq hp.root_ne_none
  | some t =>
    obtain ⟨t, rfl, H⟩ := hstores
    obtain ⟨fs, u, rfl, hu⟩ := H.exists_plug hp
    exact ⟨fs, u, hu, H, validRoot_some.mp hvalid⟩

theorem Sound.exists_leaf (hs : h.Sound K) (hp : h.LeafAt p key) :
    ∃ (fs : LinkedParents) (m : Ptr × NodeCache) (v : AccountData), m.1 = p ∧
      fs.length < maxDepth ∧ h.Holds (plug fs (.leaf m key v)) 0 ∧
      Valid K (LeafPtr.root ⟨⟨m.2, key, v⟩, LinkedParents.forget fs⟩) := by
  obtain ⟨hp, c, hc, htype, rfl⟩ := hp
  obtain ⟨fs, u, rfl, H, hvalid⟩ := hs.exists_node hp
  obtain ⟨hlen, hlt⟩ := LinkedParents.length_le hvalid.canon
  obtain rfl := Option.some_inj.mp (H.cell_eq.symm.trans hc)
  cases u with
  | leaf m k v =>
    rw [forget_plug] at hvalid
    exact ⟨fs, m, v, rfl, hlen.trans_lt hlt, H, hvalid⟩
  | node m key b l r => exact absurd htype (by simp [LinkedNode.cell])
  | stub d => exact absurd htype (by simp [LinkedNode.cell])

theorem Sound.of_set {m : Ptr × NodeCache}
    {v v' : AccountData} (hvalid : Valid K (LeafPtr.root ⟨⟨m.2, key, v⟩, LinkedParents.forget fs⟩))
    (H : h.Holds (plug (LinkedParents.dirtify fs) (.leaf (m.1, m.2.dirtify) key v')) S) :
    h.Sound K := by
  refine .of_holds H ?_
  rw [forget_plug, LinkedParents.forget_dirtify]
  exact (set_spec hvalid v').1

theorem Sound.setData (hs : h.Sound K) (hp : h.LeafAt p key)
    (f : AccountData → AccountData) : Returns (h.setData p f) (Sound K) := by
  obtain ⟨fs, m, v, rfl, hlen, H, hvalid⟩ := hs.exists_leaf hp
  exact (H.setData hlen f).mono fun h' H' ↦ .of_set hvalid H'

theorem Sound.setKey (hs : h.Sound K) (hp : h.LeafAt p key) :
    Returns (h.setKey p key) (Sound K) := by
  obtain ⟨fs, m, v, rfl, hlen, H, hvalid⟩ := hs.exists_leaf hp
  exact (H.setKey_leaf hlen key).mono fun h' H' ↦ .of_set hvalid H'

theorem Sound.remove (hs : h.Sound K) (hp : h.LeafAt p key) : Returns (h.remove p) (Sound K) := by
  obtain ⟨fs, m, v, rfl, hlen, H, hvalid⟩ := hs.exists_leaf hp
  exact (H.remove hlen).mono fun h' H' ↦ ⟨_, (remove_spec hvalid).1, H'⟩

theorem Sound.hash (hs : h.Sound K) (hp : h.InTrie p) : Returns (h.hash K maxDepth p) fun x ↦
      h.rehash K maxDepth p = .ok x.1 ∧ x.2.Sound K := by
  obtain ⟨fs, u, rfl, H, hvalid⟩ := hs.exists_node hp
  have hheight : u.height ≤ maxDepth := height_le hvalid.canon
  rw [forget_plug] at hvalid
  obtain ⟨hdigest, hvalid'⟩ := hvalid.hash_at
  refine (H.hash hheight).mono ?_
  rintro ⟨d, h'⟩ ⟨rfl, u', hu', H'⟩
  refine ⟨?_, .of_holds H' ?_⟩
  · rw [(holds_plug.mp H).rehash hheight, hdigest]
  · rw [forget_plug, hu']
    exact hvalid'

theorem Sound.insert {leaf : Leaf} (hs : h.Sound K) (hleaf : TrieEngine.Insertable K leaf)
    (hp : h.cell p = none) (hq : h.cell q = none) (hpq : p ≠ q) :
    let x := Heap.insert p q maxDepth (h.set p leaf.toCell) .root 0
    Returns x (Sound K) ∨ x = .error .assertion := by
  obtain ⟨root, hvalid, hstores⟩ := hs
  cases root with
  | none =>
    have H₁ : h.Has none ({(p, none)} + 0) := Has.alloc hstores hp (by simp)
    have H₂ := H₁.set leaf.toCell
    left
    refine .known (a := none) (congrArg Except.ok H₂.root_eq) ?_
    refine ((H₂.setRoot (some p)).modify _).mono fun h' H' ↦ ?_
    exact .of_holds (t := ofLeaf p leaf) H' (valid_leaf hleaf)
  | some t =>
    obtain ⟨t, rfl, H⟩ := hstores
    have H₁ := H.store_leaf leaf hp hq hpq
    rcases H₁.insertAt (validRoot_some.mp hvalid).canon rfl le_rfl with ⟨-, herror⟩ | ⟨u, hu, hret⟩
    · exact .inr herror
    · exact .inl (hret.mono fun h' H' ↦ .of_holds H' (.of_insert hvalid hleaf hu))

end Heap

/-! ## Runs keep the invariant -/

section Run

variable {K : List UInt8 → UInt256} {h : Heap}

/-- A legal call returns, or it is an `Insert` that runs into its assertion. -/
theorem TrieCall.run_sound {call : TrieCall} (hs : h.Sound K) (hlegal : call.Legal K h) :
    Returns (call.run K h) (Heap.Sound K) ∨ call.run K h = .error .assertion := by
  cases call with
  | insert leaf p q => exact hs.insert hlegal.1 hlegal.2.1 hlegal.2.2.1 hlegal.2.2.2
  | remove p => exact .inl (hs.remove hlegal.choose_spec)
  | setAge p age =>
    exact .inl (hs.setData hlegal.choose_spec fun data ↦ { data with age })
  | setBalance p balance =>
    exact .inl (hs.setData hlegal.choose_spec fun data ↦ { data with balance })
  | setLimit p limit =>
    exact .inl (hs.setData hlegal.choose_spec fun data ↦ { data with limit })
  | setFutureLimit p limit =>
    exact .inl (hs.setData hlegal.choose_spec fun data ↦ { data with futureLimit := limit })
  | setKey p key => exact .inl (hs.setKey hlegal)
  | hash p =>
    obtain ⟨x, hx, -, hsound⟩ := hs.hash hlegal
    exact .inl ⟨x.2, by rw [run, hx]; rfl, hsound⟩

/-- A legal run ends with a valid trie in memory, or in the assertion; no bad pointer is
followed. -/
theorem TrieCall.runAll_sound {calls : List TrieCall} (hs : h.Sound K)
    (hlegal : LegalAll K h calls) :
    Returns (runAll K h calls) (Heap.Sound K) ∨ runAll K h calls = .error .assertion := by
  induction calls generalizing h with
  | nil => exact .inl ⟨h, rfl, hs⟩
  | cons call calls ih =>
    obtain ⟨hcall, hcalls⟩ := hlegal
    rw [runAll, List.foldlM_cons]
    rcases run_sound hs hcall with ⟨h', hrun, hs'⟩ | herror
    · rw [ok_bind hrun]
      exact ih hs' (hcalls h' hrun)
    · exact .inr (error_bind herror)

/-- **No stale hash.** Start from the empty trie and make any legal calls. If they all return, then
`Hash` on any node of the trie returns the hash recomputed from scratch. -/
theorem hash_cache_coherent {h₀ : Heap} {calls : List TrieCall} {p : Ptr} (hroot : h₀.root = none)
    (hlegal : TrieCall.LegalAll K h₀ calls) (hrun : TrieCall.runAll K h₀ calls = .ok h)
    (hp : h.InTrie p) :
    ∃ d h', h.hash K maxDepth p = .ok (d, h') ∧ h.rehash K maxDepth p = .ok d := by
  have hempty : h₀.Sound K :=
    ⟨none, validRoot_none, hroot, by simp, by simp⟩
  have hs : h.Sound K := by
    rcases TrieCall.runAll_sound hempty hlegal with hret | herror
    · exact hret.of_eq hrun
    · rw [herror] at hrun
      cases hrun
  obtain ⟨⟨d, h'⟩, hhash, hrehash, -⟩ := hs.hash hp
  exact ⟨d, h', hhash, hrehash⟩

end Run

/-- Two accounts are inserted, the hash is asked for, and a balance changes. -/
def setAfterHash : List TrieCall :=
  [.insert (.new 5 .init) 1 2, .insert (.new 6 .init) 3 4, .hash 4, .setBalance 3 7]

theorem legalAll_setAfterHash (K : List UInt8 → UInt256) :
    TrieCall.LegalAll K ⟨none, fun _ ↦ none⟩ setAfterHash := by
  refine ⟨⟨TrieEngine.insertable_new _ _, rfl, rfl, by decide⟩, fun h₁ hrun₁ ↦ ?_⟩
  cases hrun₁
  refine ⟨⟨TrieEngine.insertable_new _ _, rfl, rfl, by decide⟩, fun h₂ hrun₂ ↦ ?_⟩
  cases hrun₂
  refine ⟨.root rfl, fun h₃ hrun₃ ↦ ?_⟩
  cases hrun₃
  exact ⟨⟨6, .right (.root rfl) rfl rfl, _, rfl, rfl, rfl⟩, fun _ _ ↦ trivial⟩

theorem runAll_setAfterHash (K : List UInt8 → UInt256) :
    ∃ h, TrieCall.runAll K ⟨none, fun _ ↦ none⟩ setAfterHash = .ok h ∧ h.root = some 4 :=
  ⟨_, rfl, rfl⟩

/-- The hash of the root is cached before the balance changes, and is not returned after it. -/
theorem hash_cache_coherent_two :
    ∃ h d h', TrieCall.runAll Sha256.sha256d ⟨none, fun _ ↦ none⟩ setAfterHash = .ok h ∧
      h.root = some 4 ∧ h.hash Sha256.sha256d maxDepth 4 = .ok (d, h') ∧
      h.rehash Sha256.sha256d maxDepth 4 = .ok d := by
  obtain ⟨h, hrun, hroot⟩ := runAll_setAfterHash Sha256.sha256d
  obtain ⟨d, h', hhash, hrehash⟩ :=
    hash_cache_coherent rfl (legalAll_setAfterHash _) hrun (.root hroot)
  exact ⟨h, d, h', hrun, hroot, hhash, hrehash⟩

end Cryptonite
