import Cryptonite.Trie.Decode

/-!
# What `Prove` accepts

`Prove` collects the hash nodes of a slice and strikes out those that one of its two traversals
excuses. The left traversal is meant to excuse what lies below the range and the right one what
lies above it, but each excuses a branch as a whole as soon as one of its children is outside. The
exact verdict is `prove_eq_true_iff`: a slice is refused in two cases only, when it is nothing but
a hash node, and when the root splits above `left` and the right-most path of the slice ends in a
hash node that begins no later than `right`.
-/

namespace Cryptonite

open Patricia Codec

variable {left right : UInt160}

/-! ## Keys and addresses -/

theorem highMask_eq (x : UInt160) (bits : ℕ) : x &&& highMask bits = truncate x (bits + 1) := by
  rw [highMask, shr_eq, truncate]

theorem getTotalKey_eq : ∀ {ps : Parents} {key : UInt160}, depth ps ≤ 160 →
    getTotalKey ps key = pfx ps ||| key := by
  intro ps
  induction ps with
  | nil => intro key _; rw [getTotalKey, pfx, BitVec.zero_or]
  | cons f ps ih =>
    intro key hdepth
    have hbit : shl (if f.right then 1 else 0) (sub32 160 (TrieNode.getTotalBits (f :: ps)))
        = sideBit (depth ps + f.bits) f.right := by
      rw [depth] at hdepth
      rw [TrieNode.getTotalBits_eq_depth, depth, sub32_of_le hdepth (by norm_num), shl_eq, sideBit,
        bitAt]
      cases f.right
      · exact BitVec.zero_shiftLeft _
      · congr 1
        omega
    rw [getTotalKey, hbit, ih (by rw [depth] at hdepth; omega), pfx, descend]
    ac_rfl

variable {c : NodeCache} {key : UInt160} {bits : ℕ} {l r s : TrieNode}

theorem getTotalKey_child {ps : Parents} {nbits : ℕ} {side : Bool}
    {u : TrieNode} (hb : depth ps + nbits < 160) : getTotalKey (⟨c, key, nbits, side, u⟩ :: ps) 0
      = descend (depth ps) (pfx ps) key nbits side :=
  (@getTotalKey_eq (⟨c, key, nbits, side, u⟩ :: ps) 0 (Nat.succ_le_of_lt hb)).trans BitVec.or_zero

theorem suffix_of_mem_findHashes : ∀ {t : TrieNode} {path q : NodePath},
    q ∈ findHashes path t → path <:+ q := by
  intro t
  induction t with
  | leaf c k v => intro path q hq; exact absurd hq List.not_mem_nil
  | node c key bits l r ihl ihr =>
    intro path q hq
    rcases List.mem_append.mp hq with hq | hq
    · exact (List.suffix_cons false path).trans (ihl hq)
    · exact (List.suffix_cons true path).trans (ihr hq)
  | stub h => intro path q hq; rw [List.mem_singleton.mp hq]

theorem suffix_of_mem_traverseLeft : ∀ {t : TrieNode} {ps : Parents} {bits : ℕ} {q : NodePath},
    q ∈ traverseLeft left ps t bits → pathOf ps <:+ q := by
  intro t
  induction t with
  | leaf c k v => intro ps bits q hq; exact absurd hq List.not_mem_nil
  | node c key nbits l r ihl ihr =>
    intro ps bits q hq
    rcases List.mem_append.mp hq with hq | hq
    · split at hq
      · exact suffix_of_mem_findHashes hq
      · exact (List.suffix_cons false _).trans (ihl hq)
    · split at hq
      · exact (List.suffix_cons true _).trans (suffix_of_mem_findHashes hq)
      · exact (List.suffix_cons true _).trans (ihr hq)
  | stub h => intro ps bits q hq; exact absurd hq List.not_mem_nil

theorem not_suffix_both {path q : NodePath} (hfalse : (false :: path) <:+ q)
    (htrue : (true :: path) <:+ q) : False := by
  have h := List.suffix_of_suffix_length_le hfalse htrue (by simp)
  exact absurd (List.IsSuffix.eq_of_length h (by simp)) (by simp)

/-! ## The right spine -/

/-- The right-most path of `t` ends in a hash node, and that hash node begins no later than
`right`: every branch on the way splits at or below `right`. -/
def EndsHidden (right : UInt160) : ℕ → UInt160 → TrieNode → Prop
  | d, p, .node _ key bits _ r => descend d p key bits true ≤ right ∧
      EndsHidden right (d + bits + 1) (descend d p key bits true) r
  | _, _, .leaf _ _ _ => False
  | _, _, .stub _ => True

/-- Above `left` the left traversal finds nothing, however short its mask. -/
theorem traverseLeft_eq_nil : ∀ {t : TrieNode} {ps : Parents} {bits : ℕ},
    t.Placed (depth ps) (pfx ps) → left < pfx ps → traverseLeft left ps t bits = [] := by
  intro t
  induction t with
  | leaf c k v => intro ps bits _ _; rfl
  | node c key nbits l r ihl ihr =>
    intro ps bits hplaced hlt
    obtain ⟨hb, -, hl, hr⟩ := hplaced
    have hup : ∀ side : Bool, left < descend (depth ps) (pfx ps) key nbits side := fun side ↦
      Std.lt_of_lt_of_le hlt (le_descend _ _ _ _ side)
    have hmask : ∀ (side : Bool) (m : UInt160),
        ¬descend (depth ps) (pfx ps) key nbits side < left &&& m := fun side m h ↦
      BitVec.lt_asymm h (Std.lt_of_le_of_lt (and_le left m) (hup side))
    rw [traverseLeft, getTotalKey_child hb, getTotalKey_child hb, if_neg (hmask false _),
      if_neg (hmask true _), @ihl (⟨c, key, nbits, false, r⟩ :: ps) _ hl (hup false),
      @ihr (⟨c, key, nbits, true, l⟩ :: ps) _ hr (hup true), List.append_nil]
  | stub h => intro ps bits _ _; rfl

/-- Above `left` the right traversal excuses every hash node, unless the right-most path ends in
one too early. -/
theorem findHashes_subset_traverseRight_iff : ∀ {t : TrieNode} {ps : Parents},
    t.Placed (depth ps) (pfx ps) → left < pfx ps →
      (findHashes (pathOf ps) t ⊆ traverseRight left right ps t ↔
        ¬EndsHidden right (depth ps) (pfx ps) t) := by
  intro t
  induction t with
  | leaf c k v => intro ps _ _; simp [findHashes, EndsHidden]
  | node c key nbits l r ihl ihr =>
    intro ps hplaced hlt
    obtain ⟨hb, -, hl, hr⟩ := hplaced
    have hup : left < descend (depth ps) (pfx ps) key nbits true :=
      Std.lt_of_lt_of_le hlt (le_descend _ _ _ _ true)
    have ih := @ihr (⟨c, key, nbits, true, l⟩ :: ps) hr hup
    rw [traverseRight, getTotalKey_child hb, if_pos hup, EndsHidden]
    by_cases hright : descend (depth ps) (pfx ps) key nbits true ≤ right
    · rw [if_neg (BitVec.not_lt.mpr hright)]
      -- the left child is excused; what matters is the right one
      refine Iff.trans ⟨fun h q hq ↦ ?_, fun h ↦ ?_⟩ (ih.trans (by simp [hright, depth, pfx]))
      · rcases List.mem_append.mp (h (List.mem_append_right _ hq)) with hq' | hq'
        · exact hq'
        · exact (not_suffix_both (suffix_of_mem_findHashes hq') (suffix_of_mem_findHashes hq)).elim
      · exact List.append_subset.mpr ⟨List.subset_append_right _ _,
          List.Subset.trans h (List.subset_append_left _ _)⟩
    · rw [if_pos (BitVec.not_le.mp hright)]
      exact iff_of_true (List.subset_append_left _ _) fun h ↦ hright h.1
  | stub h => intro ps _ _; simp [findHashes, EndsHidden, traverseRight]

/-! ## The verdict -/

/-- The slices that `Prove` refuses. -/
inductive Refused (left right : UInt160) : TrieNode → Prop
  /-- The slice is a hash node and nothing else. -/
  | bare (h : UInt256) : Refused left right (.stub h)
  /-- The root splits above `left`, and the right-most path ends in a hash node at or below
  `right`. -/
  | spine (c : NodeCache) (key : UInt160) (bits : ℕ) (l r : TrieNode)
      (hroot : left < descend 0 0 key bits true)
      (hends : EndsHidden right 0 0 (.node c key bits l r)) :
      Refused left right (.node c key bits l r)

theorem refused_node_iff :
    Refused left right (.node c key bits l r) ↔
      left < descend 0 0 key bits true ∧ EndsHidden right 0 0 (.node c key bits l r) := by
  constructor
  · rintro ⟨⟩
    exact ⟨‹_›, ‹_›⟩
  · exact fun h ↦ .spine c key bits l r h.1 h.2

theorem prove_eq_true_iff_subset : prove (some s) left right = true ↔
    ∀ q ∈ findHashes [] s, q ∈ traverseLeft left [] s 0 ∨ q ∈ traverseRight left right [] s := by
  simp [prove]

/-- **The verdict of `Prove`** on a slice whose branches stand where they belong. -/
theorem prove_eq_true_iff (hplaced : s.Placed 0 0) :
    prove (some s) left right = true ↔ ¬Refused left right s := by
  rw [prove_eq_true_iff_subset]
  rcases s with ⟨c, k, v⟩ | ⟨c, key, bits, l, r⟩ | h
  · exact iff_of_true (fun q hq ↦ absurd hq List.not_mem_nil) nofun
  · obtain ⟨hb, hkey, hl, hr⟩ := hplaced
    rw [refused_node_iff]
    have hchild : ∀ (side : Bool) (u : TrieNode),
        getTotalKey [⟨c, key, bits, side, u⟩] 0 = descend 0 0 key bits side := fun side u ↦
      getTotalKey_child hb
    have hmask : descend 0 0 key bits false < left &&& highMask (0 + bits) ↔
        descend 0 0 key bits true ≤ left := by
      rw [highMask_eq]
      exact lt_truncate_iff (supportedIn_zero 0 0) hb hkey
    rw [traverseLeft, traverseRight, hchild, hchild]
    by_cases hleft : descend 0 0 key bits true ≤ left
    · -- the left traversal excuses the whole slice
      refine iff_of_true (fun q hq ↦ .inl (List.mem_append_left _ ?_)) fun h ↦
        BitVec.not_lt.mpr hleft h.1
      rw [if_pos (hmask.mpr hleft)]
      exact hq
    have hup := BitVec.not_le.mp hleft
    rw [if_neg (hleft ∘ hmask.mp), if_neg fun h ↦ BitVec.lt_asymm h
      (Std.lt_of_le_of_lt (and_le left _) hup), if_pos hup,
      @traverseLeft_eq_nil left r [⟨c, key, bits, true, l⟩] _ hr hup, List.append_nil]
    by_cases hright : descend 0 0 key bits true ≤ right
    · -- the right traversal excuses the left child, and the left one stays inside it
      rw [if_neg (BitVec.not_lt.mpr hright)]
      have hspine := @findHashes_subset_traverseRight_iff left right r
        [⟨c, key, bits, true, l⟩] hr hup
      refine Iff.trans ⟨fun h q hq ↦ ?_, fun h q hq ↦ ?_⟩
        (hspine.trans (not_congr ⟨fun h ↦ ⟨hup, hright, h⟩, fun h ↦ h.2.2⟩))
      · rcases h q (List.mem_append_right _ hq) with hq' | hq'
        · exact (not_suffix_both (suffix_of_mem_traverseLeft hq')
            (suffix_of_mem_findHashes hq)).elim
        · rcases List.mem_append.mp hq' with hq' | hq'
          · exact hq'
          · exact (not_suffix_both (suffix_of_mem_findHashes hq')
              (suffix_of_mem_findHashes hq)).elim
      · rcases List.mem_append.mp hq with hq | hq
        · exact .inr (List.mem_append_right _ hq)
        · exact .inr (List.mem_append_left _ (h hq))
    · -- the right traversal excuses the whole slice
      refine iff_of_true (fun q hq ↦ .inr (List.mem_append_left _ ?_)) fun h ↦ hright h.2.1
      rw [if_pos (BitVec.not_le.mp hright)]
      exact hq
  · exact iff_of_false (fun hall ↦ by simpa [findHashes, traverseLeft, traverseRight] using hall [])
      (not_not.mpr (.bare h))

theorem not_endsHidden_of_canon {t : TrieNode} : ∀ {d : ℕ} {p : UInt160}, t.Canon d p →
    ¬EndsHidden right d p t := by
  induction t with
  | leaf c k v => exact fun _ h ↦ h
  | node c key bits l r _ ihr => exact fun hcanon h ↦ ihr hcanon.2.2.2 h.2
  | stub h => exact fun hcanon ↦ hcanon.elim

/-- The left half of a trie can be hidden from any range: a slice whose right half is complete is
accepted, whatever its left half is. -/
theorem prove_of_canon_right (hplaced : (Trie.node c key bits l r : TrieNode).Placed 0 0)
    (hr : r.Canon (0 + bits + 1) (descend 0 0 key bits true)) :
    prove (some (.node c key bits l r)) left right = true := by
  rw [prove_eq_true_iff hplaced, refused_node_iff]
  exact fun h ↦ not_endsHidden_of_canon hr h.2.2

end Cryptonite
