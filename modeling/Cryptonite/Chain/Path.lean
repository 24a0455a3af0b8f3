import Cryptonite.Chain.Activate
import Cryptonite.Foundation.Ancestry

/-!
# The way from one block to another

A `BlockTree` is a block index as `mapBlockIndex` holds it: every entry has its hash and header
right, its parent in the map and one block lower, and there is one entry without a parent, the
genesis block. In such a tree the sets, differences and sorts of `Activate` find the way between
two blocks: up from the old one to the last common ancestor, and down from there to the new one
(`BlockTree.paths_eq`). The array of `getSet2` is never overrun, and how much of the common part it
cuts off does not matter.
-/

namespace Cryptonite

open Ancestry

/-- A block index. -/
structure BlockTree where
  /-- What the entries say. -/
  index : ℕ → BlockIndex
  /-- `mapBlockIndex`. -/
  mapBlockIndex : UInt256 → Option ℕ
  /-- The entry without a parent. -/
  genesis : ℕ
  /-- `phashBlock` points to the key of the entry. -/
  hash_eq : ∀ {h p}, mapBlockIndex h = some p → (index p).hash = h
  /-- The header fields of an entry are those of the block it was made for. -/
  headerHash_eq : ∀ {h p}, mapBlockIndex h = some p → (index p).headerHash = h
  /-- The parent of an entry is in the map. -/
  parent_mem : ∀ {h p q}, mapBlockIndex h = some p → (index p).pprev = some q →
    mapBlockIndex (index q).hash = some q
  /-- Heights grow by one. -/
  height_eq : ∀ {h p q}, mapBlockIndex h = some p → (index p).pprev = some q →
    (index p).nHeight = (index q).nHeight + 1
  /-- Only the genesis block has no parent. -/
  eq_genesis : ∀ {h p}, mapBlockIndex h = some p → (index p).pprev = none → p = genesis

/-! ## Cutting off a common end -/

theorem exists_reduct_eq {a b : List ℕ} (hne : ∀ x ∈ a, x ∉ b) : ∀ c : List ℕ,
    ∃ c₁ c₂, c = c₁ ++ c₂ ∧ reduct (c ++ a) (c ++ b) = (c₂ ++ a, c₂ ++ b) := by
  intro c
  induction c with
  | nil =>
    refine ⟨[], [], rfl, ?_⟩
    rcases a with _ | ⟨x, a⟩
    · rfl
    · rcases b with _ | ⟨y, b⟩
      · rfl
      · refine if_neg fun ⟨_, _, hxy⟩ ↦ hne x List.mem_cons_self ?_
        rw [hxy]
        exact List.mem_cons_self
  | cons x c ih =>
    obtain ⟨c₁, c₂, rfl, hred⟩ := ih
    rw [List.cons_append, List.cons_append, reduct]
    split_ifs
    · exact ⟨x :: c₁, c₂, rfl, hred⟩
    · exact ⟨[], x :: (c₁ ++ c₂), rfl, rfl⟩

theorem filter_notMem_append {a b c : List ℕ} (hac : ∀ x ∈ a, x ∉ c) (hab : ∀ x ∈ a, x ∉ b) :
    (c ++ a).filter (· ∉ c ++ b) = a := by
  have hc : c.filter (· ∉ c ++ b) = [] := by
    rw [List.filter_eq_nil_iff]
    intro x hx
    simp [hx]
  have ha : a.filter (· ∉ c ++ b) = a := by
    rw [List.filter_eq_self]
    intro x hx
    simp [hac x hx, hab x hx]
  rw [List.filter_append, hc, ha, List.nil_append]

theorem sortSet_eq {index : ℕ → BlockIndex} {a : List ℕ}
    (h : a.Pairwise fun x y ↦ (index x).nHeight < (index y).nHeight) : sortSet index a = a :=
  List.Pairwise.insertionSort_eq (h.imp fun hlt ↦ Or.inl hlt)

/-! ## The way -/

namespace BlockTree

variable (tree : BlockTree)

def Mem (p : ℕ) : Prop := tree.mapBlockIndex (tree.index p).hash = some p

def parent (p : ℕ) : Option ℕ := (tree.index p).pprev

variable {tree} {p q : ℕ} {l : List ℕ}

theorem mem_of_eq {h : UInt256} (hp : tree.mapBlockIndex h = some p) : tree.Mem p := by
  rw [Mem, tree.hash_eq hp, hp]

theorem Mem.parent (hp : tree.Mem p) (hq : tree.parent p = some q) : tree.Mem q :=
  tree.parent_mem hp hq

theorem Mem.line (hl : Line tree.parent p l) (hp : tree.Mem p) :
    (∀ x ∈ l, tree.Mem x) ∧ tree.genesis ∈ l := by
  induction hl with
  | root hnone =>
    rw [List.mem_singleton, tree.eq_genesis hp hnone]
    exact ⟨fun x hx ↦ List.mem_singleton.mp hx ▸ tree.eq_genesis hp hnone ▸ hp, rfl⟩
  | step hsome _ ih =>
    obtain ⟨hmem, hgen⟩ := ih (hp.parent hsome)
    exact ⟨List.forall_mem_cons.mpr ⟨hp, hmem⟩, List.mem_cons_of_mem _ hgen⟩

theorem Mem.exists_line (hp : tree.Mem p) : ∃ l, Line tree.parent p l := by
  generalize hn : (tree.index p).nHeight = n
  induction n generalizing p with
  | zero =>
    rcases hq : tree.parent p with _ | q
    · exact ⟨[p], .root hq⟩
    · exact absurd (tree.height_eq hp hq) (by omega)
  | succ n ih =>
    rcases hq : tree.parent p with _ | q
    · exact ⟨[p], .root hq⟩
    · have hheight := tree.height_eq hp hq
      obtain ⟨l, hl⟩ := ih (hp.parent hq) (by omega)
      exact ⟨p :: l, .step hq hl⟩

private theorem collect_none (room : ℕ) : collect tree.index room none = .ok [] := by
  rcases room with _ | _ <;> rfl

theorem collect_eq (hl : Line tree.parent p l) : ∀ room, l.length ≤ room →
    collect tree.index room (some p) = .ok l := by
  induction hl with
  | @root p hnone =>
    intro room hroom
    obtain ⟨room, rfl⟩ := Nat.exists_eq_add_of_le' hroom
    rw [List.length_singleton, collect]
    have hpprev : (tree.index p).pprev = none := hnone
    rw [hpprev, collect_none]
    rfl
  | @step p q l hsome _ ih =>
    intro room hroom
    obtain ⟨room, rfl⟩ := Nat.exists_eq_add_of_le' hroom
    have hpprev : (tree.index p).pprev = some q := hsome
    rw [List.length_cons, ← Nat.add_assoc, collect, hpprev, ih _ (Nat.le_add_left _ _)]
    rfl

/-- **The way between two blocks.** `Activate` unwinds the ancestors of the old block `q` up to the
last one it shares with the new block `p`, and connects those of `p` from there on. -/
theorem paths_eq (hp : tree.Mem p) (hq : tree.Mem q) :
    ∃ x up down, paths tree.index p q = .ok (up, down) ∧ Up tree.parent q up x ∧
      Down tree.parent x down p ∧ (∀ r ∈ up, tree.Mem r) ∧ ∀ r ∈ down, tree.Mem r := by
  obtain ⟨l, hl⟩ := hp.exists_line
  obtain ⟨l', hl'⟩ := hq.exists_line
  obtain ⟨hmem, hgen⟩ := hp.line hl
  obtain ⟨hmem', hgen'⟩ := hq.line hl'
  obtain ⟨x, a, b, c, hc, rfl, rfl, ha, hb⟩ := hl.meet hl' hgen hgen'
  refine ⟨x, b, a.reverse, ?_, hl'.up hc, (hl.up hc).down,
    fun r hr ↦ hmem' r (List.mem_append_left c hr),
    fun r hr ↦ hmem r (List.mem_append_left c (List.mem_reverse.mp hr))⟩
  have hheight : ∀ z ∈ a ++ c, ∀ y, tree.parent z = some y →
      (tree.index z).nHeight = (tree.index y).nHeight + 1 :=
    fun z hz y hy ↦ tree.height_eq (hmem z hz) hy
  have hheight' : ∀ z ∈ b ++ c, ∀ y, tree.parent z = some y →
      (tree.index z).nHeight = (tree.index y).nHeight + 1 :=
    fun z hz y hy ↦ tree.height_eq (hmem' z hz) hy
  -- the array has room for both lines
  have hroom : 1 ≤ MORE_ALLOC := by decide
  have hlen : (a ++ c).length ≤ max (tree.index p).nHeight (tree.index q).nHeight + MORE_ALLOC :=
    (hl.length_le hheight).trans (Nat.add_le_add (le_max_left _ _) hroom)
  have hlen' : (b ++ c).length ≤ max (tree.index p).nHeight (tree.index q).nHeight + MORE_ALLOC :=
    (hl'.length_le hheight').trans (Nat.add_le_add (le_max_right _ _) hroom)
  -- whatever the loop cuts off, the differences are `a` and `b`
  have hab : ∀ z ∈ a.reverse, z ∉ b.reverse := by
    intro z hz hzb
    rw [List.mem_reverse] at hz hzb
    exact ha z hz (List.mem_append_left c hzb)
  obtain ⟨c₁, c₂, hc₂, hred⟩ := exists_reduct_eq hab c.reverse
  have hcut : ∀ {d : List ℕ}, (d ++ c).Nodup →
      (c₂ ++ d.reverse).Nodup ∧ ∀ z ∈ d.reverse, z ∉ c₂ := by
    intro d hd
    have hrev : (c₁ ++ (c₂ ++ d.reverse)).Nodup := by
      rw [← List.append_assoc, ← hc₂, ← List.reverse_append]
      exact List.nodup_reverse.mpr hd
    have hrest := hrev.of_append_right
    exact ⟨hrest, fun z hz hzc ↦ (List.nodup_append.mp hrest).2.2 z hzc z hz rfl⟩
  obtain ⟨hnodup, hac⟩ := hcut hl.nodup
  obtain ⟨hnodup', hbc⟩ := hcut hl'.nodup
  have hold := filter_notMem_append hbc fun z hzb hza ↦ hab z hza hzb
  have hnew := filter_notMem_append hac hab
  have hsort := sortSet_eq (List.pairwise_append.mp (hl.pairwise hheight)).1.reverse
  have hsort' := sortSet_eq (List.pairwise_append.mp (hl'.pairwise hheight')).1.reverse
  have hsets : getSet2 tree.index p q = .ok (c₂ ++ a.reverse, c₂ ++ b.reverse) := by
    rw [getSet2]
    dsimp only
    rw [collect_eq hl _ hlen, collect_eq hl' _ hlen']
    change Except.ok ((reduct (a ++ c).reverse (b ++ c).reverse).1.dedup,
      (reduct (a ++ c).reverse (b ++ c).reverse).2.dedup) = _
    rw [List.reverse_append, List.reverse_append, hred, hnodup.dedup, hnodup'.dedup]
  rw [paths, hsets]
  change Except.ok ((sortSet tree.index ((c₂ ++ b.reverse).filter (· ∉ c₂ ++ a.reverse))).reverse,
    sortSet tree.index ((c₂ ++ a.reverse).filter (· ∉ c₂ ++ b.reverse))) = _
  rw [hold, hnew, hsort, hsort', List.reverse_reverse]

end BlockTree

end Cryptonite
