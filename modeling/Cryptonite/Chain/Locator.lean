import Cryptonite.Chain.Headers

/-!
# Locators

A node tells another one what it has by a *locator*: the hashes of some ancestors of an entry,
dense at first and then further and further apart, down to the genesis block. The other node looks
for the first of them that is in its own chain and goes on from there. The entries are found by
`pprev` as long as the walk is off the chain, and by their heights once it is on it; both give the
ancestor at the height wanted (`HeaderTree.stepBack_chainTo`).

What the other node finds is a common ancestor at most twice as far back as the last one
(`HeaderTree.locator_of_setTips`). For this it only matters that the step is one at first and at
most doubles; that it does so after ten entries bounds the length of the message.
-/

namespace Cryptonite

open Ancestry

/-- How the entries of the block index are named: the hash of an entry, and the entry that
`mapBlockIndex` has for a hash. -/
structure BlockNames where
  getBlockHash : ℕ → UInt256
  mapBlockIndex : UInt256 → Option ℕ

def CChain.genesis (c : CChain) : Option ℕ := c.get 0

namespace HeaderTree

variable (tree : HeaderTree)

/-- The chain after some calls of `SetTip`. -/
def setTips (tips : List (Option ℕ)) : CChain :=
  tips.foldl (fun c pindex ↦ (tree.setTip c pindex).1) ⟨[]⟩

/-- One step back in `GetLocator`. -/
def stepBack (c : CChain) (nStep pindex : ℕ) : Option ℕ := do
  let nHeight := tree.nHeight pindex - nStep
  -- off the chain by `pprev`, and then by the height
  let pindex ← tree.climb (fun x ↦ tree.nHeight x ≤ nHeight || tree.contains c x) (some pindex)
  if nHeight < tree.nHeight pindex then c.get nHeight else some pindex

/-- The loop of `GetLocator`, for at most `n` rounds; `none` if it has not ended by then. -/
def collect (names : BlockNames) (c : CChain) :
    ℕ → ℕ → List UInt256 → Option ℕ → Option (List UInt256)
  | _, _, vHave, none => some vHave
  | 0, _, _, some _ => none
  | n + 1, nStep, vHave, some pindex =>
    let vHave := vHave ++ [names.getBlockHash pindex]
    if tree.nHeight pindex = 0 then some vHave
    else
      let next := tree.stepBack c nStep pindex
      let nStep := if 10 < vHave.length then nStep * 2 else nStep
      collect names c n nStep vHave next

def getLocator (names : BlockNames) (c : CChain) (pindex : Option ℕ) : Option (List UInt256) :=
  let pindex := pindex <|> c.tip
  tree.collect names c (pindex.elim 0 tree.nHeight + 1) 1 [] pindex

/-- `CChain::FindFork` of a locator. -/
def findForkOf (names : BlockNames) (c : CChain) (vHave : List UInt256) : Option ℕ :=
  vHave.findSome? (fun hash ↦ (names.mapBlockIndex hash).filter (tree.contains c)) <|> c.genesis

variable {tree} {names : BlockNames} {o : Option ℕ} {p t x : ℕ}

/-! ## The chain -/

theorem setTips_eq (tips : List (Option ℕ)) :
    tree.setTips tips = tree.chainTo tips.getLast?.join := by
  induction tips using List.reverseRecOn with
  | nil => rfl
  | append_singleton tips pindex ih =>
    rw [setTips, List.foldl_append, ← setTips, ih, List.getLast?_concat]
    exact setTip_chainTo _ pindex

/-- A chain is a view of the ancestors of its tip: it has one entry for each height up to the tip,
and this is the ancestor of that height. -/
structure ViewOf (tree : HeaderTree) (c : CChain) (tip : Option ℕ) : Prop where
  tip_eq : c.tip = tip
  length_eq : c.vChain.length = tip.elim 0 (fun t ↦ tree.nHeight t + 1)
  ancestor : ∀ t ∈ tip, ∀ h ≤ tree.nHeight t,
    ∃ x ∈ tree.ancestry t, tree.nHeight x = h ∧ c.vChain[h]? = some (some x)

theorem viewOf_chainTo (tree : HeaderTree) (o : Option ℕ) : tree.ViewOf (tree.chainTo o) o where
  tip_eq := tip_chainTo o
  length_eq := by
    rcases o with _ | t
    · rfl
    · exact length_chainTo t
  ancestor := by
    rintro t rfl h hh
    obtain ⟨x, hx⟩ := exists_get_chainTo hh
    obtain ⟨hmem, hheight⟩ := get_chainTo.mp hx
    exact ⟨x, hmem, hheight, getElem?_chainTo.mpr ⟨hmem, hheight⟩⟩

/-! ## The locator -/

theorem stepBack_chainTo (nStep x : ℕ) :
    ∃ y ∈ tree.ancestry x, tree.stepBack (tree.chainTo o) nStep x = some y ∧
      tree.nHeight y = tree.nHeight x - nStep := by
  set h := tree.nHeight x - nStep with hh
  set stop : ℕ → Bool := fun x ↦ tree.nHeight x ≤ h || tree.contains (tree.chainTo o) x with hstop
  obtain ⟨w, hw⟩ := exists_get_chainTo (Nat.sub_le (tree.nHeight x) nStep)
  obtain ⟨hwx, hwh⟩ : w ∈ tree.ancestry x ∧ tree.nHeight w = h := get_chainTo.mp hw
  have hwstop : stop w = true := by simp [hstop, hwh]
  obtain ⟨z, hz⟩ := Option.isSome_iff_exists.mp (List.find?_isSome.mpr ⟨w, hwx, hwstop⟩)
  have hzx : z ∈ tree.ancestry x := List.mem_of_find?_eq_some hz
  have hback : tree.stepBack (tree.chainTo o) nStep x
      = if h < tree.nHeight z then (tree.chainTo o).get h else some z := by
    rw [stepBack, climb_some, hz]
    rfl
  rw [hback]
  split_ifs with hlt
  · -- the walk has come to the chain
    have hzo : z ∈ tree.blocks o := by
      have hzstop := List.find?_some hz
      simpa [hstop, hlt.not_ge, contains_chainTo] using hzstop
    obtain ⟨y, hy⟩ := exists_get_chainTo hlt.le
    obtain ⟨hyz, hyh⟩ := get_chainTo.mp hy
    exact ⟨y, ancestry_subset hzx hyz, get_chainTo.mpr ⟨blocks_subset hzo hyz, hyh⟩, hyh⟩
  · have hle := nHeight_le (mem_ancestry_of_find hz hwx hwstop)
    exact ⟨z, hzx, rfl, by omega⟩

/-- The loop ends; it appends the hashes of ancestors that are found by strides. -/
theorem collect_chainTo {n nStep : ℕ} {vHave : List UInt256} (hstep : 0 < nStep)
    (hn : tree.nHeight x < n) : ∃ l, tree.collect names (tree.chainTo o) n nStep vHave (some x)
        = some (vHave ++ (x :: l).map names.getBlockHash) ∧
      (∀ y ∈ x :: l, y ∈ tree.ancestry x) ∧
      Strides nStep ((x :: l).map tree.nHeight) := by
  induction n generalizing nStep vHave x with
  | zero => exact absurd hn (Nat.not_lt_zero _)
  | succ n ih =>
    by_cases hzero : tree.nHeight x = 0
    · refine ⟨[], ?_, ?_, ?_⟩
      · rw [collect, if_pos hzero]
        rfl
      · simpa using self_mem_ancestry tree x
      · rw [List.map_singleton, hzero]
        exact .zero nStep
    · obtain ⟨y, hyx, hback, hyh⟩ := @stepBack_chainTo tree o nStep x
      set vHave' := vHave ++ [names.getBlockHash x] with hvHave
      set nStep' := if 10 < vHave'.length then nStep * 2 else nStep with hnStep
      have hnext : 0 < nStep' ∧ nStep' ≤ 2 * nStep := by
        rw [hnStep]
        split_ifs <;> omega
      have hlt : tree.nHeight y < n := by omega
      obtain ⟨l, hl, hmem, hstrides⟩ := @ih y nStep' vHave' hnext.1 hlt
      refine ⟨y :: l, ?_, ?_, ?_⟩
      · rw [collect, if_neg hzero, hback]
        refine hl.trans ?_
        rw [hvHave, List.append_assoc]
        rfl
      · exact List.forall_mem_cons.mpr
          ⟨self_mem_ancestry tree x, fun z hz ↦ ancestry_subset hyx (hmem z hz)⟩
      · rw [List.map_cons, hyh] at hstrides
        rw [List.map_cons, List.map_cons, hyh]
        exact .stride hstep (Nat.pos_of_ne_zero hzero) hnext.2 hstrides

/-- The locator of an entry: ancestors, found by strides that begin with one. -/
theorem exists_locator (names : BlockNames) (o : Option ℕ) (p : ℕ) :
    ∃ l, tree.getLocator names (tree.chainTo o) (some p)
        = some ((p :: l).map names.getBlockHash) ∧
      (∀ x ∈ p :: l, x ∈ tree.ancestry p) ∧ Strides 1 ((p :: l).map tree.nHeight) :=
  collect_chainTo Nat.one_pos (Nat.lt_succ_self _)

theorem pprev_eq_none (h : tree.nHeight p = 0) : tree.pprev p = none := by
  rcases hp : tree.pprev p with _ | q
  · rfl
  · have := tree.height_step hp
    omega

/-! ## The fork -/

theorem exists_last_common (hsame : ∃ g ∈ tree.ancestry p, g ∈ tree.ancestry t) :
    ∃ m ∈ tree.ancestry p, m ∈ tree.ancestry t ∧
      ∀ x ∈ tree.ancestry p, x ∈ tree.ancestry t ↔ tree.nHeight x ≤ tree.nHeight m := by
  obtain ⟨m, hm⟩ : ∃ m, (tree.ancestry p).find? (fun x ↦ x ∈ tree.ancestry t) = some m := by
    rw [← Option.isSome_iff_exists, List.find?_isSome]
    simpa using hsame
  have hmp := List.mem_of_find?_eq_some hm
  have hmt : m ∈ tree.ancestry t := by simpa using List.find?_some hm
  refine ⟨m, hmp, hmt, fun x hx ↦ ⟨fun hxt ↦ ?_, fun hle ↦ ?_⟩⟩
  · exact nHeight_le (mem_ancestry_of_find hm hx (by simpa using hxt))
  · rcases mem_ancestry_or hx hmp with hxm | hmx
    · exact ancestry_subset hmt hxm
    · rwa [eq_of_nHeight_eq hx hmp (le_antisymm hle (nHeight_le hmx))]

theorem findForkOf_map {c : CChain} {l : List ℕ}
    (hnames : ∀ x ∈ l, names.mapBlockIndex (names.getBlockHash x) = some x) :
    tree.findForkOf names c (l.map names.getBlockHash)
      = (l.find? (tree.contains c) <|> c.genesis) := by
  rw [findForkOf, List.findSome?_map]
  congr 1
  induction l with
  | nil => rfl
  | cons x l ih =>
    rw [List.forall_mem_cons] at hnames
    rw [List.findSome?_cons, Function.comp_apply, hnames.1, List.find?_cons, ih hnames.2]
    rcases hx : tree.contains c x with _ | _
    · rw [Option.filter_some_neg (by simp [hx])]
    · rw [Option.filter_some_pos hx]

/-- The first entry of a locator that is in another chain is at most twice as far back as the last
common ancestor. -/
theorem exists_fork {l : List ℕ} (hsame : ∃ g ∈ tree.ancestry p, g ∈ tree.ancestry t)
    (hl : ∀ x ∈ p :: l, x ∈ tree.ancestry p) (hstrides : Strides 1 ((p :: l).map tree.nHeight)) :
    ∃ f, (p :: l).find? (tree.contains (tree.chainTo (some t))) = some f ∧
      ∀ a ∈ tree.ancestry p, a ∈ tree.ancestry t →
        tree.nHeight p - tree.nHeight f ≤ 2 * (tree.nHeight p - tree.nHeight a) := by
  obtain ⟨m, hmp, hmt, hcommon⟩ := exists_last_common hsame
  have hfind : (p :: l).find? (tree.contains (tree.chainTo (some t)))
      = (p :: l).find? ((fun h ↦ decide (h ≤ tree.nHeight m)) ∘ tree.nHeight) := by
    refine List.find?_congr fun x hx ↦ ?_
    rw [Bool.eq_iff_iff, contains_chainTo, Function.comp_apply, decide_eq_true_iff]
    exact hcommon x (hl x hx)
  obtain ⟨h, hh, hbound⟩ := hstrides.exists_find le_rfl (by omega) (nHeight_le hmp)
  rw [← List.map_cons, List.find?_map, Option.map_eq_some_iff] at hh
  obtain ⟨f, hf, rfl⟩ := hh
  refine ⟨f, hfind.trans hf, fun a ha hat ↦ ?_⟩
  have := (hcommon a ha).mp hat
  omega

/-- **Chains and locators.** After any calls of `SetTip` the chain is a view of the ancestors of its
tip. The locator of an entry is a list of lower and lower ancestors of it that ends with the genesis
block, whatever chain it was asked from. Another chain of the same tree finds in it a common
ancestor that is at most twice as far back as any common ancestor, so as the last one. -/
theorem locator_of_setTips (tree : HeaderTree) (names : BlockNames) (tips : List (Option ℕ)) :
    tree.ViewOf (tree.setTips tips) tips.getLast?.join ∧
    ∀ p, ∃ l : List ℕ,
      tree.getLocator names (tree.setTips tips) (some p) = some (l.map names.getBlockHash) ∧
      l.head? = some p ∧ (∀ x ∈ l, x ∈ tree.ancestry p) ∧
      l.Pairwise (fun x y ↦ tree.nHeight y < tree.nHeight x) ∧
      (∃ g, l.getLast? = some g ∧ tree.pprev g = none) ∧
      ∀ tips' t, (tree.setTips tips').tip = some t →
        (∃ g ∈ tree.ancestry p, g ∈ tree.ancestry t) →
        (∀ x ∈ tree.ancestry p, names.mapBlockIndex (names.getBlockHash x) = some x) →
        ∃ f, tree.findForkOf names (tree.setTips tips') (l.map names.getBlockHash) = some f ∧
          f ∈ tree.ancestry p ∧ f ∈ tree.ancestry t ∧
          ∀ a ∈ tree.ancestry p, a ∈ tree.ancestry t →
            tree.nHeight p - tree.nHeight f ≤ 2 * (tree.nHeight p - tree.nHeight a) := by
  rw [setTips_eq tips]
  refine ⟨viewOf_chainTo tree _, fun p ↦ ?_⟩
  obtain ⟨l, hlocator, hl, hstrides⟩ := exists_locator names tips.getLast?.join p
  refine ⟨p :: l, hlocator, rfl, hl, List.pairwise_map.mp hstrides.pairwise, ?_, ?_⟩
  · have hlast := hstrides.getLast?_eq
    rw [List.getLast?_map, Option.map_eq_some_iff] at hlast
    obtain ⟨g, hg, hzero⟩ := hlast
    exact ⟨g, hg, pprev_eq_none hzero⟩
  · intro tips' t htip hsame hnames
    have hchain : tree.setTips tips' = tree.chainTo (some t) := by
      rw [setTips_eq, tip_chainTo] at htip
      rw [setTips_eq, htip]
    obtain ⟨f, hf, hbound⟩ := exists_fork hsame hl hstrides
    have hft : f ∈ tree.ancestry t := contains_chainTo.mp (List.find?_some hf)
    refine ⟨f, ?_, hl f (List.mem_of_find?_eq_some hf), hft, hbound⟩
    rw [hchain, findForkOf_map fun x hx ↦ hnames x (hl x hx), hf]
    rfl

/-- The entries below 100 are in one line. Those from 100 on are another one, which leaves the first
at 2. -/
def forked : HeaderTree where
  pprev n := if n = 0 then none else some (if n = 100 then 2 else n - 1)
  nHeight n := if n < 100 then n else n - 97
  nChainWork _ := 0
  nSequenceId _ := 0
  height_step := by
    intro p q h
    split_ifs at h with hzero hleaves
    · cases h
      simp [hleaves]
    · obtain rfl := Option.some.inj h
      split_ifs <;> omega
  height_root := by
    intro p h
    split_ifs at h with hzero
    rw [hzero]
    rfl

def numbered : BlockNames := ⟨fun n ↦ n, fun hash ↦ some hash.toNat⟩

/-- The last common ancestor is 2, but 2 is not in the locator. -/
theorem locator_forked : ∃ l f,
    forked.getLocator numbered (forked.setTips [some 20]) (some 20) = some l ∧
    forked.findForkOf numbered (forked.setTips [some 5, some 103]) l = some f ∧
    f ∈ forked.ancestry 20 ∧ f ∈ forked.ancestry 103 := by
  obtain ⟨-, hlocator⟩ := locator_of_setTips forked numbered [some 20]
  obtain ⟨l, hl, -, -, -, -, hfork⟩ := hlocator 20
  obtain ⟨f, hf, hf₂₀, hf₁₀₃, -⟩ := hfork [some 5, some 103] 103 (by decide)
    ⟨0, by decide, by decide⟩ (by decide)
  exact ⟨_, f, hl, hf, hf₂₀, hf₁₀₃⟩

example : forked.getLocator numbered (forked.setTips [some 103]) (some 20)
    = some [20, 19, 18, 17, 16, 15, 14, 13, 12, 11, 10, 9, 7, 3, 0] := by
  decide +kernel

end HeaderTree

end Cryptonite
