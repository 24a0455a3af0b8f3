import Cryptonite.Sync.Accept
import Cryptonite.Trie.History
import Cryptonite.Trie.RoundTrip
import Cryptonite.View.Apply

/-!
# Building the trie from slices

`TrieSync::Build` of `triesync.cpp` makes an account trie of the slices that have arrived. It sorts
them, reads the accounts of one after the other into a map, winds the map forward by the
transactions of the blocks in between (`ApplyTransactions`), and inserts what the map holds in the
end into an empty trie.

The slices are sorted by `CSlice::nHeight`, a member that nothing ever sets, so the word the sort
compares is an argument here and the order of the slices is any order. With a single anchor that
does no harm: whatever the order, and however the ranges overlap, the map ends up with the accounts
of the trie the slices were cut from (`build_one_anchor`).
-/

namespace Cryptonite

open Patricia Function

abbrev AccountTable := Std.TreeMap UInt160 AccountData

namespace AccountTable

def toMap (data : AccountTable) : AccountMap := fun k ↦ data[k]?

theorem toMap_insert (data : AccountTable) (k : UInt160) (v : AccountData) :
    toMap (data.insert k v) = update (toMap data) k (some v) := by
  funext x
  rw [toMap, Std.TreeMap.getElem?_insert, update_apply]
  simp only [Std.LawfulEqCmp.compare_eq_iff_eq, @eq_comm _ k x, toMap]

theorem toMap_erase (data : AccountTable) (k : UInt160) :
    toMap (data.erase k) = update (toMap data) k none := by
  funext x
  rw [toMap, Std.TreeMap.getElem?_erase, update_apply]
  simp only [Std.LawfulEqCmp.compare_eq_iff_eq, @eq_comm _ k x, toMap]

theorem toMap_empty : toMap (∅ : AccountTable) = fun _ ↦ none := rfl

end AccountTable

/-! ## Winding forward -/

/-- One output in `ApplyTransactions`. A new account has the fields of the default constructor. -/
def creditOutput (data : AccountTable) (txout : TxOut) : AccountTable :=
  let ad := data[txout.pubKey]?.getD AccountData.init
  data.insert txout.pubKey { ad with balance := ad.balance + txout.nValue }

/-- What `ApplyTransactions` makes of an account that an input does not empty. -/
def AccountData.afterDebit (ad : AccountData) (nHeight : UInt64) (tx : Transaction)
    (nValue : UInt64) : AccountData :=
  let ad := if tx.fSetLimit then { ad with futureLimit := tx.nLimitValue } else ad
  let ad := if ad.futureLimit < ad.limit then { ad with limit := ad.futureLimit } else ad
  let ad := if nHeight - ad.age > MIN_LIMIT_TIME then { ad with limit := ad.futureLimit } else ad
  let ad := { ad with age := nHeight }
  { ad with balance := ad.balance - nValue }

/-- One input in `ApplyTransactions`. -/
def debitInput (nHeight : UInt64) (tx : Transaction) (data : AccountTable) (txin : TxIn) :
    AccountTable :=
  match data[txin.pubKey]? with
  | none => data
  | some ad =>
    if txin.nValue ≥ ad.balance then data.erase txin.pubKey
    else data.insert txin.pubKey (ad.afterDebit nHeight tx txin.nValue)

/-- `TrieSync::ApplyTransactions`: all outputs of the block, then all inputs. -/
def applyTransactions (data : AccountTable) (block : Block) : AccountTable :=
  let data := block.vtx.foldl (fun data tx ↦ tx.vout.foldl creditOutput data) data
  block.vtx.foldl (fun data tx ↦ tx.vin.foldl (debitInput block.nHeight tx) data) data

/-! ## Build -/

section Build

variable (index : ℕ → BlockIndex) (readBlock : ℕ → Bool)

/-- The loop over the heights since the last slice, which reads the block of the entry `p` in every
round: `n` rounds, and nothing if a read fails. -/
def windForward (p : ℕ) : ℕ → AccountTable → Option AccountTable
  | 0, data => some data
  | n + 1, data =>
    if readBlock p then windForward p n (applyTransactions data (index p).block) else none

structure Building where
  /-- `last_height`. -/
  lastHeight : ℕ
  /-- `data`. -/
  data : AccountTable
  /-- The reference argument `block`. -/
  block : UInt256

/-- One slice; on a failure what is left in `block`. -/
def addSlice (s : Building) (entry : ℕ × Slice) : Except UInt256 Building :=
  let nHeight := (index entry.1).nHeight
  let wound := if s.lastHeight ≠ 0 then
    windForward index readBlock entry.1 (nHeight + 1 - s.lastHeight) s.data else some s.data
  match wound, deserialize entry.2.data with
  | none, _ => .error s.block
  | some _, none => .error s.block
  | some data, some trie =>
    -- `FindAll(NODE_LEAF, ..)`; a later entry overwrites an earlier one
    .ok { lastHeight := nHeight + 1
          data := trie.leaves.foldl (fun data leaf ↦ data.insert leaf.1 leaf.2) data
          block := (index entry.1).hash }

/-- The order `sort` puts the slices in, `nHeight i` being the word found in the `i`-th of them.
Slices with the same word can come in any order, and any order is that of some words. -/
def sortSlices (nHeight : ℕ → UInt64) (slices : List (ℕ × Slice)) : List (ℕ × Slice) :=
  (slices.zipIdx.mergeSort fun a b ↦ decide (nHeight a.2 ≤ nHeight b.2)).map Prod.fst

def rebuild (data : AccountTable) : Exec (Option TrieNode) :=
  data.toList.foldlM (fun root entry ↦
    (TrieEngine.insert root (Leaf.new entry.1 entry.2)).map some) none

/-- `TrieSync::Build`: the trie, null if a step fails, and the argument `block`. -/
def TrieSync.build (nHeight : ℕ → UInt64) (sync : TrieSync) (block : UInt256) :
    Exec (Option TrieNode × UInt256) :=
  match (sortSlices nHeight sync.slices).foldlM (addSlice index readBlock) ⟨0, ∅, block⟩ with
  | .error block => .ok (none, block)
  | .ok s => do
    let root ← rebuild s.data
    pure (root, s.block)

end Build

/-! ## The last loop -/

section Rebuild

variable {H : List UInt8 → UInt256}

theorem legalHistory_insert : ∀ {entries : List (UInt160 × AccountData)} {accts : AccountMap},
    entries.Pairwise (fun a b ↦ a.1 ≠ b.1) → (∀ e ∈ entries, accts e.1 = none) →
    LegalHistory H accts (entries.map fun e ↦ .insert (.new e.1 e.2)) := by
  intro entries
  induction entries with
  | nil => exact fun _ _ ↦ trivial
  | cons e entries ih =>
    intro accts hkeys habsent
    obtain ⟨hne, hkeys⟩ := List.pairwise_cons.mp hkeys
    refine ⟨⟨TrieEngine.insertable_new _ _, habsent e List.mem_cons_self⟩, ih hkeys fun e' he' ↦ ?_⟩
    exact (update_of_ne (hne e' he').symm _ _).trans (habsent e' (List.mem_cons_of_mem e he'))

theorem meaning_insert_eq_some_iff : ∀ {entries : List (UInt160 × AccountData)}
    {accts : AccountMap} {k : UInt160} {v : AccountData},
    entries.Pairwise (fun a b ↦ a.1 ≠ b.1) → (∀ e ∈ entries, accts e.1 = none) →
    ((entries.map fun e ↦ Call.insert (.new e.1 e.2)).foldl Call.meaning accts k = some v ↔
      accts k = some v ∨ (k, v) ∈ entries) := by
  intro entries
  induction entries with
  | nil => simp
  | cons e entries ih =>
    intro accts k v hkeys habsent
    obtain ⟨hne, hkeys⟩ := List.pairwise_cons.mp hkeys
    have habsent' : ∀ e' ∈ entries, Call.meaning accts (.insert (.new e.1 e.2)) e'.1 = none :=
      fun e' he' ↦ (update_of_ne (hne e' he').symm _ _).trans
        (habsent e' (List.mem_cons_of_mem e he'))
    have hhead : Call.meaning accts (.insert (.new e.1 e.2)) k = some v ↔
        accts k = some v ∨ (k, v) = e := by
      have hnone := habsent e List.mem_cons_self
      rw [Call.meaning, update_apply]
      by_cases hk : k = e.1
      · subst hk
        simp [Leaf.new, hnone, Prod.ext_iff, eq_comm]
      · simp [Leaf.new, hk, Prod.ext_iff]
    rw [List.map_cons, List.foldl_cons, ih hkeys habsent', hhead, List.mem_cons, or_assoc]

/-- The last loop makes a valid trie of the accounts in the table. -/
theorem rebuild_spec (H : List UInt8 → UInt256) (data : AccountTable) :
    ∃ root, rebuild data = .ok root ∧ ValidRoot H root ∧
      accounts root = AccountTable.toMap data := by
  have hkeys : data.toList.Pairwise fun a b ↦ a.1 ≠ b.1 :=
    data.distinct_keys_toList.imp fun h ↦ by
      rwa [Std.LawfulEqCmp.compare_eq_iff_eq] at h
  have habsent : ∀ e ∈ data.toList, accounts none e.1 = none := fun _ _ ↦ rfl
  obtain ⟨root, hrun, hvalid, haccts⟩ := runCalls_spec (H := H) validRoot_none
    (legalHistory_insert hkeys habsent)
  refine ⟨root, ?_, hvalid, ?_⟩
  · rwa [runCalls, List.foldlM_map] at hrun
  · funext k
    refine Option.ext fun v ↦ ?_
    rw [haccts, meaning_insert_eq_some_iff hkeys habsent,
      Std.TreeMap.mem_toList_iff_getElem?_eq_some]
    simp [accounts, AccountTable.toMap]

/-- The trie of the accounts in a table. -/
def AccountTrie.ofTable (H : List UInt8 → UInt256) (data : AccountTable) : AccountTrie H where
  root := (rebuild data).toOption.join
  valid := by
    obtain ⟨root, hroot, hvalid, -⟩ := rebuild_spec H data
    rw [hroot]
    exact hvalid

theorem accounts_ofTable (H : List UInt8 → UInt256) (data : AccountTable) :
    accounts (AccountTrie.ofTable H data).root = AccountTable.toMap data := by
  obtain ⟨root, hroot, -, haccts⟩ := rebuild_spec H data
  change accounts (rebuild data).toOption.join = _
  rw [hroot]
  exact haccts

end Rebuild

/-! ## Honest slices -/

def Slice.range (slice : Slice) : Set UInt160 := {k | slice.left ≤ k ∧ k ≤ slice.right}

def covered (entries : List (ℕ × Slice)) : Set UInt160 := {k | ∃ e ∈ entries, k ∈ e.2.range}

/-- The slice carries what `SubTrie` wrote for its range, on a trie with these accounts. -/
def Slice.Honest (H : List UInt8 → UInt256) (accts : AccountMap) (slice : Slice) : Prop :=
  ∃ (trie trie' : TrieNode) (max : ℕ) (nodes : UInt32) (buf : SliceBuf),
    trie.Canon 0 0 ∧ TrieNode.Coherent H trie ∧ trie.toMap = accts ∧
      subTrie H slice.left slice.right max trie 0 0 false ⟨[], nodes⟩ = .ok (true, buf, trie') ∧
      slice.data = buf.out

theorem covered_nil : covered [] = ∅ := by simp [covered]

theorem covered_cons (e : ℕ × Slice) (entries : List (ℕ × Slice)) :
    covered (e :: entries) = e.2.range ∪ covered entries := by
  ext k
  simp [covered]

section Honest

variable {H : List UInt8 → UInt256} {accts : AccountMap} {slice : Slice}

/-- An honest slice is read back; its leaves are accounts of the trie, and all those of the range
are among them. -/
theorem Slice.Honest.leaves (h : slice.Honest H accts) : ∃ t, deserialize slice.data = some t ∧
    (∀ e ∈ t.leaves, accts e.1 = some e.2) ∧
    ∀ k ∈ slice.range, ∀ v, accts k = some v → (k, v) ∈ t.leaves := by
  obtain ⟨trie, trie', max, nodes, buf, hcanon, hcoherent, rfl, hsub, hdata⟩ := h
  have hview := @collapses_cut H slice.left slice.right trie 0 0 false hcanon
  refine ⟨_, hdata ▸ (deserialize_of_subTrie hcanon hcoherent hsub).2, fun e he ↦ ?_,
    fun k hk v hv ↦ ?_⟩
  · rw [leaves_findChildren] at he
    exact (hcanon.mem_leaves_iff (supportedIn_zero 0 0)).mp (hview.leaves_subset he)
  · rw [leaves_findChildren]
    exact Trie.mem_leaves_of_toMap (toMap_cut hcanon hk.1 hk.2 hv)

end Honest

/-! ## Reading a slice -/

/-- What the table holds of the accounts `accts` once the keys in `K` have been read. Elsewhere it
may hold strays, made by deposits to accounts that no slice has shown yet. -/
structure Tracks (accts : AccountMap) (K : Set UInt160) (data : AccountMap) : Prop where
  /-- The keys that have been read. -/
  shown : ∀ k ∈ K, data k = accts k
  /-- A stray has no more coins than the account it stands for. -/
  stray : ∀ k ad, data k = some ad → ∃ a, accts k = some a ∧ ad.balance ≤ a.balance

/-- Reading leaves into a table: a key has the entry of one of its leaves, or no leaf and the entry
it had. -/
theorem toMap_foldl_insert (k : UInt160) : ∀ (leaves : List (UInt160 × AccountData))
    (data : AccountTable),
    (∃ v, (k, v) ∈ leaves ∧ AccountTable.toMap
      (leaves.foldl (fun data leaf ↦ data.insert leaf.1 leaf.2) data) k = some v) ∨
    (∀ v, (k, v) ∉ leaves) ∧ AccountTable.toMap
      (leaves.foldl (fun data leaf ↦ data.insert leaf.1 leaf.2) data) k
        = AccountTable.toMap data k := by
  intro leaves
  induction leaves with
  | nil => exact fun data ↦ .inr ⟨fun _ ↦ List.not_mem_nil, rfl⟩
  | cons leaf leaves ih =>
    intro data
    rw [List.foldl_cons]
    rcases ih (data.insert leaf.1 leaf.2) with ⟨v, hmem, hv⟩ | ⟨hnone, hsame⟩
    · exact .inl ⟨v, List.mem_cons_of_mem leaf hmem, hv⟩
    · rw [AccountTable.toMap_insert] at hsame
      by_cases hk : k = leaf.1
      · subst hk
        exact .inl ⟨leaf.2, List.mem_cons_self, hsame.trans (update_self ..)⟩
      · refine .inr ⟨fun v hmem ↦ ?_, hsame.trans (update_of_ne hk _ _)⟩
        rcases List.mem_cons.mp hmem with heq | hmem
        · exact hk (congrArg Prod.fst heq)
        · exact hnone v hmem

section Read

variable {H : List UInt8 → UInt256} {accts : AccountMap} {K R : Set UInt160}
  {index : ℕ → BlockIndex} {readBlock : ℕ → Bool}

theorem tracks_empty (accts : AccountMap) : Tracks accts ∅ (AccountTable.toMap ∅) :=
  ⟨fun _ hk ↦ absurd hk (Set.notMem_empty _), fun _ _ h ↦ absurd h (by simp [AccountTable.toMap])⟩

theorem Tracks.eq_of_univ {data : AccountMap} (h : Tracks accts Set.univ data) : data = accts :=
  funext fun k ↦ h.shown k (Set.mem_univ k)

theorem Tracks.read {data : AccountTable} {leaves : List (UInt160 × AccountData)}
    (h : Tracks accts K (AccountTable.toMap data)) (hleaves : ∀ e ∈ leaves, accts e.1 = some e.2)
    (hshown : ∀ k ∈ R, ∀ v, accts k = some v → (k, v) ∈ leaves) :
    Tracks accts (K ∪ R) (AccountTable.toMap
      (leaves.foldl (fun data leaf ↦ data.insert leaf.1 leaf.2) data)) := by
  refine ⟨fun k hk ↦ ?_, fun k ad had ↦ ?_⟩
  · rcases toMap_foldl_insert k leaves data with ⟨v, hmem, hv⟩ | ⟨hnone, hsame⟩
    · exact hv.trans (hleaves _ hmem).symm
    · rw [hsame]
      rcases hk with hk | hk
      · exact h.shown k hk
      · -- no leaf has the key, so there is no such account, and no stray for it
        have habsent : accts k = none :=
          Option.eq_none_iff_forall_ne_some.mpr fun v hv ↦ hnone v (hshown k hk v hv)
        rw [habsent]
        refine Option.eq_none_iff_forall_ne_some.mpr fun ad had ↦ ?_
        obtain ⟨a, ha, -⟩ := h.stray k ad had
        exact absurd (habsent.symm.trans ha) (by simp)
  · rcases toMap_foldl_insert k leaves data with ⟨v, hmem, hv⟩ | ⟨-, hsame⟩
    · obtain rfl := Option.some.inj (hv.symm.trans had)
      exact ⟨v, hleaves _ hmem, UInt64.le_refl _⟩
    · exact h.stray k ad (hsame.symm.trans had)

/-- Adding an honest slice to a table that has been wound forward to its anchor. -/
theorem addSlice_spec {s : Building} {entry : ℕ × Slice} {data : AccountTable}
    (hhonest : entry.2.Honest H accts) (hdata : Tracks accts K (AccountTable.toMap data))
    (hwound : (if s.lastHeight ≠ 0 then windForward index readBlock entry.1
      ((index entry.1).nHeight + 1 - s.lastHeight) s.data else some s.data) = some data) :
    ∃ data', addSlice index readBlock s entry
        = .ok ⟨(index entry.1).nHeight + 1, data', (index entry.1).hash⟩ ∧
      Tracks accts (K ∪ entry.2.range) (AccountTable.toMap data') := by
  obtain ⟨t, ht, hleaves, hshown⟩ := hhonest.leaves
  refine ⟨_, ?_, hdata.read hleaves hshown⟩
  rw [addSlice, hwound, ht]

end Read

/-! ## One anchor -/

section OneAnchor

variable {H : List UInt8 → UInt256} {accts : AccountMap} {index : ℕ → BlockIndex}
  {readBlock : ℕ → Bool} {p : ℕ}

theorem foldlM_addSlice_one_anchor : ∀ {entries : List (ℕ × Slice)} {K : Set UInt160}
    {s : Building}, (∀ e ∈ entries, e.1 = p ∧ e.2.Honest H accts) →
    Tracks accts K (AccountTable.toMap s.data) →
    s.lastHeight = 0 ∨ s.lastHeight = (index p).nHeight + 1 ∧ s.block = (index p).hash →
    ∃ s', entries.foldlM (addSlice index readBlock) s = .ok s' ∧
      Tracks accts (K ∪ covered entries) (AccountTable.toMap s'.data) ∧
      (entries ≠ [] ∨ s.lastHeight ≠ 0 → s'.block = (index p).hash) := by
  intro entries
  induction entries with
  | nil =>
    intro K s _ hdata hs
    refine ⟨s, rfl, ?_, fun h ↦ (hs.resolve_left (h.resolve_left (by simp))).2⟩
    rwa [covered_nil, Set.union_empty]
  | cons e entries ih =>
    intro K s hentries hdata hs
    obtain ⟨hp, hhonest⟩ := hentries e List.mem_cons_self
    have hwound : (if s.lastHeight ≠ 0 then windForward index readBlock e.1
        ((index e.1).nHeight + 1 - s.lastHeight) s.data else some s.data) = some s.data := by
      rcases hs with hs | ⟨hs, -⟩
      · rw [if_neg (not_not.mpr hs)]
      · rw [hs, hp, Nat.sub_self]
        split <;> rfl
    obtain ⟨data', hadd, hdata'⟩ := addSlice_spec hhonest hdata hwound
    obtain ⟨s', hrest, htracks, hblock⟩ := @ih (K ∪ e.2.range)
      ⟨(index e.1).nHeight + 1, data', (index e.1).hash⟩
      (fun e' he' ↦ hentries e' (List.mem_cons_of_mem e he')) hdata' (.inr (by rw [hp]; simp))
    refine ⟨s', ?_, ?_, fun _ ↦ hblock (.inr (Nat.succ_ne_zero _))⟩
    · rw [List.foldlM_cons, hadd]
      exact hrest
    · rwa [covered_cons, ← Set.union_assoc]

theorem mem_sortSlices {nHeight : ℕ → UInt64} {slices : List (ℕ × Slice)} {e : ℕ × Slice} :
    e ∈ sortSlices nHeight slices ↔ e ∈ slices := by
  rw [sortSlices, List.mem_map]
  simp only [List.mem_mergeSort]
  constructor
  · rintro ⟨⟨e', i⟩, hmem, rfl⟩
    exact List.fst_mem_of_mem_zipIdx hmem
  · intro hmem
    obtain ⟨i, hi, rfl⟩ := List.getElem_of_mem hmem
    exact ⟨(slices[i], i), by simp [List.mk_mem_zipIdx_iff_getElem?], rfl⟩

theorem covered_sortSlices (nHeight : ℕ → UInt64) (slices : List (ℕ × Slice)) :
    covered (sortSlices nHeight slices) = covered slices := by
  ext k
  simp only [covered, mem_sortSlices]

theorem build_of_tracks {sync : TrieSync} {nHeight : ℕ → UInt64} {block : UInt256} {s : Building}
    (hloop : (sortSlices nHeight sync.slices).foldlM (addSlice index readBlock) ⟨0, ∅, block⟩
      = .ok s) (hdata : Tracks accts Set.univ (AccountTable.toMap s.data)) :
    ∃ root, sync.build index readBlock nHeight block = .ok (root, s.block) ∧
      ValidRoot H root ∧ accounts root = accts := by
  obtain ⟨root, hroot, hvalid, haccts⟩ := rebuild_spec H s.data
  refine ⟨root, ?_, hvalid, haccts.trans hdata.eq_of_univ⟩
  rw [TrieSync.build, hloop]
  dsimp only
  rw [hroot]
  rfl

/-- The same with the accounts of a trie, which is not empty then. -/
theorem build_eq_of_tracks {T : TrieNode} {sync : TrieSync} {nHeight : ℕ → UInt64}
    {block : UInt256} {s : Building} (hcanon : T.Canon 0 0) (hcoherent : TrieNode.Coherent H T)
    (hloop : (sortSlices nHeight sync.slices).foldlM (addSlice index readBlock) ⟨0, ∅, block⟩
      = .ok s) (hdata : Tracks T.toMap Set.univ (AccountTable.toMap s.data)) :
    ∃ t, sync.build index readBlock nHeight block = .ok (some t, s.block) ∧
      t.toMap = T.toMap ∧ (TrieNode.hash H t).1 = (TrieNode.hash H T).1 := by
  obtain ⟨root, hbuild, hvalid, haccts⟩ := @build_of_tracks H T.toMap index readBlock sync nHeight
    block s hloop hdata
  rcases root with _ | t
  · -- the trie has an account, so something was inserted
    obtain ⟨x, v, hx⟩ := hcanon.exists_entry
    exact absurd ((congrFun haccts x).trans hx) (by simp [accounts])
  · have ht := validRoot_some.mp hvalid
    exact ⟨t, hbuild, haccts, hash_eq_of_toMap_eq ht.canon hcanon ht.coherent hcoherent haccts⟩

/-- **Synchronisation from one anchor.** When all slices are anchored at one block, carry what
`SubTrie` wrote on a trie with the accounts of `T`, and cover all keys, `Build` returns a trie with
the accounts of `T`, and so with its hash, and reports that block; whatever order the sort finds. -/
theorem build_one_anchor {T : TrieNode} {sync : TrieSync} (hcanon : T.Canon 0 0)
    (hcoherent : TrieNode.Coherent H T)
    (hslices : ∀ e ∈ sync.slices, e.1 = p ∧ e.2.Honest H T.toMap)
    (hcover : covered sync.slices = Set.univ) (nHeight : ℕ → UInt64) (block : UInt256) :
    ∃ t, sync.build index readBlock nHeight block = .ok (some t, (index p).hash) ∧
      t.toMap = T.toMap ∧ (TrieNode.hash H t).1 = (TrieNode.hash H T).1 := by
  obtain ⟨s, hloop, hdata, hblock⟩ := @foldlM_addSlice_one_anchor H T.toMap index
    readBlock p (sortSlices nHeight sync.slices) ∅ ⟨0, ∅, block⟩
    (fun e he ↦ hslices e (mem_sortSlices.mp he)) (tracks_empty T.toMap) (.inl rfl)
  rw [covered_sortSlices, hcover, Set.union_univ] at hdata
  have hne : sortSlices nHeight sync.slices ≠ [] := by
    intro hnil
    have hcover' := (covered_sortSlices nHeight sync.slices).trans hcover
    rw [hnil, covered_nil] at hcover'
    exact absurd hcover'.symm Set.univ_nonempty.ne_empty
  rw [← hblock (.inl hne)]
  exact build_eq_of_tracks hcanon hcoherent hloop hdata

end OneAnchor

/-- The bytes of a slice of the two accounts that shows the lower one only. -/
def lowerBytes : List UInt8 :=
  NodeType.branch.toByte :: 0 :: (Codec.leBytes 20 0 ++ (NodeType.leaf.toByte ::
    leafPreimage 0 .init ++ NodeType.hash.toByte ::
      Codec.leBytes 32 (Sha256.sha256d (leafPreimage (bitAt 0) .init)).toNat))

/-- The lower and the upper half of the keys, asked for at the entry `1`. -/
def twoHalves : List (ℕ × Slice) :=
  [(1, ⟨7, 0, bitAt 0 - 1, lowerBytes⟩), (1, ⟨7, bitAt 0, BitVec.allOnes 160, upperBytes⟩)]

set_option maxRecDepth 10000 in
theorem honest_twoHalves : ∀ e ∈ twoHalves,
    e.1 = 1 ∧ e.2.Honest Sha256.sha256d twoAccounts.toMap := by
  obtain ⟨upper, trie, hupper, hout⟩ := subTrie_upper
  have hlower : subTrie Sha256.sha256d 0 (bitAt 0 - 1) 1000 twoAccounts 0 0 false ⟨[], 0⟩
      = .ok (true, ⟨lowerBytes, 1⟩, .node { NodeCache.newBranch with children := 2 } 0 0
        (.leaf NodeCache.newLeaf 0 .init)
        (TrieNode.hash Sha256.sha256d (.leaf NodeCache.newLeaf (bitAt 0) .init)).2) := by
    decide +kernel
  intro e he
  rcases List.mem_pair.mp he with rfl | rfl
  · exact ⟨rfl, twoAccounts, _, 1000, 0, _, valid_twoAccounts.canon, valid_twoAccounts.coherent,
      rfl, hlower, rfl⟩
  · exact ⟨rfl, twoAccounts, _, 1000, 0, _, valid_twoAccounts.canon, valid_twoAccounts.coherent,
      rfl, hupper, hout.symm⟩

theorem covered_twoHalves : covered twoHalves = Set.univ := by
  have hmid : (bitAt 0 : UInt160).toNat = 2 ^ 159 := by decide
  have hlow : (bitAt 0 - 1 : UInt160).toNat = 2 ^ 159 - 1 := by decide
  refine Set.eq_univ_of_forall fun k ↦ ?_
  have hk := k.isLt
  by_cases hle : bitAt 0 ≤ k
  · refine ⟨_, List.mem_pair.mpr (.inr rfl), hle, BitVec.le_def.mpr ?_⟩
    rw [BitVec.toNat_allOnes]
    omega
  · rw [BitVec.le_def, hmid] at hle
    refine ⟨_, List.mem_pair.mpr (.inl rfl), BitVec.le_def.mpr (Nat.zero_le _),
      BitVec.le_def.mpr ?_⟩
    rw [hlow]
    omega

/-- Two halves make the two accounts, whichever is read first. -/
theorem build_one_anchor_twoHalves : ∃ t,
    TrieSync.build (fun _ ↦ ⟨7, none, 3, 7, ⟨⟨0, 0, 0, 0, 3, 0, 1⟩, []⟩⟩) (fun _ ↦ false)
      (fun i ↦ if i = 0 then 9 else 4) ⟨0, [], twoHalves⟩ 0 = .ok (some t, 7) ∧
    t.toMap = twoAccounts.toMap ∧ (TrieNode.hash Sha256.sha256d t).1
      = (TrieNode.hash Sha256.sha256d twoAccounts).1 :=
  build_one_anchor valid_twoAccounts.canon valid_twoAccounts.coherent honest_twoHalves
    covered_twoHalves _ 0

end Cryptonite
