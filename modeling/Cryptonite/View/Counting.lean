import Cryptonite.Trie.History
import Cryptonite.View.Snapshot

/-!
# Counting accounts

`TrieView::Accounts` returns the counter at the root of the trie, which `Flush` also takes for the
size of its buffer. `Insert` and `Remove` keep the counters along the way up; a trie that has been
read gets its counters from `FindChildren`.

`FindChildren` sets the counter of a branch to the sum of what it returns for the two children, and
returns one more than that for the branch, so it counts the branches below as well: a trie of `n`
accounts that has been read says `2 * n - 2`. That is right for two accounts, and a single account
has no branch, so the counters of a node are right as long as no trie of three accounts or more has
been read (`counts_iff`).
-/

namespace Cryptonite

open Patricia TrieNode TrieView

def TrieView.accounts (view : TrieView) : UInt64 :=
  match view.root with
  | none => 0
  | some root => TrieNode.children root

/-- The counter of every branch is the number of leaves below it, and that of a leaf is one. -/
def TrieNode.CountsLeaves : TrieNode → Prop
  | .leaf c _ _ => c.children = 1
  | .node c _ _ l r =>
    c.children = UInt64.ofNat (l.leaves.length + r.leaves.length) ∧ CountsLeaves l ∧ CountsLeaves r
  | .stub _ => True

/-! ## Counters that add up -/

variable {t : TrieNode} {d : ℕ} {p : UInt160}

theorem one_le_length_leaves (h : t.Canon d p) : 1 ≤ t.leaves.length := by
  obtain ⟨k, v, hv⟩ := h.exists_entry
  exact List.length_pos_of_mem (Trie.mem_leaves_of_toMap hv)

theorem TrieNode.countsLeaves_iff : ∀ {d : ℕ} {p : UInt160}, t.Canon d p →
    (CountsLeaves t ↔ Counted t) := by
  induction t with
  | leaf c k v => exact fun _ ↦ Iff.rfl
  | node c key bits l r ihl ihr =>
    rintro d p ⟨-, -, hl, hr⟩
    rw [CountsLeaves, Counted, ihl hl, ihr hr]
    refine and_congr_left fun hcounted ↦ ?_
    rw [children_eq hl hcounted.1, children_eq hr hcounted.2, UInt64.ofNat_add]
  | stub h => exact fun hcanon ↦ hcanon.elim

/-! ## Counters of a trie that has been read -/

theorem findChildren_fst : ∀ {d : ℕ} {p : UInt160}, t.Canon d p →
    (findChildren t).1 = UInt64.ofNat (2 * t.leaves.length - 1) := by
  induction t with
  | leaf c k v => exact fun _ ↦ rfl
  | node c key bits l r ihl ihr =>
    rintro d p ⟨-, -, hl, hr⟩
    have hposL := one_le_length_leaves hl
    have hposR := one_le_length_leaves hr
    have hsum : 2 * (l.leaves.length + r.leaves.length) - 1
        = 2 * l.leaves.length - 1 + (2 * r.leaves.length - 1) + 1 := by omega
    rw [findChildren, ihl hl, ihr hr, Trie.leaves, List.length_append, hsum, UInt64.ofNat_add,
      UInt64.ofNat_add]
    rfl
  | stub h => exact fun hcanon ↦ hcanon.elim

theorem canon_blank (h : t.Canon d p) : (blank t).Canon d p :=
  (Trie.canon_congr (erase_blank t)).mpr h

theorem leaves_blank (t : TrieNode) : (blank t).leaves = t.leaves := by
  induction t with
  | leaf c k v => rfl
  | node c key bits l r ihl ihr => rw [blank, Trie.leaves, Trie.leaves, ihl, ihr]
  | stub h => rfl

/-- The counters `FindChildren` sets are right for up to two accounts. -/
theorem countsLeaves_findChildren_iff : ∀ {d : ℕ} {p : UInt160}, t.Canon d p →
    (CountsLeaves (findChildren (blank t)).2 ↔ t.leaves.length ≤ 2) := by
  induction t with
  | leaf c k v => exact fun _ ↦ iff_of_true rfl (by simp [Trie.leaves])
  | node c key bits l r ihl ihr =>
    rintro d p ⟨-, -, hl, hr⟩
    have hposL := one_le_length_leaves hl
    have hposR := one_le_length_leaves hr
    rw [blank, findChildren, CountsLeaves, ihl hl, ihr hr, leaves_findChildren,
      leaves_findChildren, leaves_blank, leaves_blank, findChildren_fst (canon_blank hl),
      findChildren_fst (canon_blank hr), leaves_blank, leaves_blank, Trie.leaves,
      List.length_append, ← UInt64.ofNat_add]
    constructor
    · -- with at most two leaves on either side nothing can wrap
      rintro ⟨hcount, hleL, hleR⟩
      have hnat := congrArg UInt64.toNat hcount
      have hsize : UInt64.size = 2 ^ 64 := rfl
      rw [UInt64.toNat_ofNat_of_lt' (by omega), UInt64.toNat_ofNat_of_lt' (by omega)] at hnat
      omega
    · intro hle
      obtain ⟨honeL, honeR⟩ : l.leaves.length = 1 ∧ r.leaves.length = 1 := by omega
      rw [honeL, honeR]
      exact ⟨rfl, one_le_two, one_le_two⟩
  | stub h => exact fun hcanon ↦ hcanon.elim

/-! ## Histories -/

/-- One change of the trie in a running node. -/
inductive Edits (H : List UInt8 → UInt256) : Option TrieNode → Option TrieNode → Prop
  /-- `Insert` of a new leaf. -/
  | insert {root : Option TrieNode} {t : TrieNode} {key : UInt160} {data : AccountData}
      (h : TrieEngine.insert root (Leaf.new key data) = .ok t) : Edits H root (some t)
  /-- `Remove` of a leaf that `Find` has found. -/
  | remove {root : Option TrieNode} {key : UInt160} {p : LeafPtr}
      (h : TrieEngine.find key root = some p) : Edits H root (TrieEngine.remove p)
  /-- A setter of a leaf that `Find` has found. -/
  | set {root : Option TrieNode} {key : UInt160} {p : LeafPtr} (data : AccountData)
      (h : TrieEngine.find key root = some p) : Edits H root (some (p.set data).root)
  /-- `Hash`, which refreshes the caches. -/
  | hash {t : TrieNode} : Edits H (some t) (some (TrieNode.hash H t).2)

/-- A trie is written and read back. -/
inductive Loads (H : List UInt8 → UInt256) (crc : List UInt8 → UInt32) :
    TrieNode → TrieNode → Prop
  /-- `SubTrie` for the range of all keys, then `Deserialize`. -/
  | slice {t t' loaded : TrieNode} {max : UInt32} {nodes : UInt32} {buf : SliceBuf}
      (hsub : subTrie H 0 (BitVec.allOnes 160) max.toNat t 0 0 false ⟨[], nodes⟩
        = .ok (true, buf, t')) (hread : deserialize buf.out = some loaded) : Loads H crc t loaded
  /-- `Flush`, then the constructor of the next run. -/
  | restart {t loaded : TrieNode} {bestBlock : UInt256} {view : TrieView} {dir dir' : DataDir}
      {flushDisk : FlushDisk} {loadDisk : LoadDisk}
      (hflush : flush H crc flushDisk ⟨some t, bestBlock⟩ dir = .ok (true, view, dir'))
      (hload : (TrieView.new crc loadDisk dir').1.root = some loaded) : Loads H crc t loaded

/-- A history of changes, and of tries written and read back. -/
structure TrieHistory (H : List UInt8 → UInt256) (crc : List UInt8 → UInt32) (n : ℕ) where
  /-- `m_root` after `i` steps. -/
  root : ℕ → Option TrieNode
  valid : ValidRoot H (root 0)
  counted : ∀ t ∈ root 0, Counted t
  step : ∀ i < n, Edits H (root i) (root (i + 1)) ∨
    ∃ t t', root i = some t ∧ root (i + 1) = some t' ∧ Loads H crc t t'

section History

variable {H : List UInt8 → UInt256} {crc : List UInt8 → UInt32}

variable {root : Option TrieNode} {loaded t : TrieNode}

theorem Edits.valid {root' : Option TrieNode} (h : Edits H root root')
    (hvalid : ValidRoot H root) : ValidRoot H root' := by
  rcases h with @⟨root, t, key, data, hinsert⟩ | @⟨root, key, p, hfind⟩ |
    @⟨root, key, p, data, hfind⟩ | @t
  · rcases hv : accounts root key with _ | v
    · obtain ⟨t', hinsert', hvalid', -⟩ := insert_spec hvalid
        (TrieEngine.insertable_new key data) hv
      obtain rfl := Except.ok.inj (hinsert.symm.trans hinsert')
      exact validRoot_some.mpr hvalid'
    · exact absurd (hinsert.symm.trans (@insert_present H root (Leaf.new key data) v hvalid hv))
        (by simp)
  · obtain ⟨rfl, -⟩ := find_root hfind
    exact (remove_spec (validRoot_some.mp hvalid)).1
  · obtain ⟨rfl, -⟩ := find_root hfind
    exact validRoot_some.mpr (set_spec (validRoot_some.mp hvalid) data).1
  · exact validRoot_some.mpr (validRoot_some.mp hvalid).hash.1

theorem Edits.counted {root' : Option TrieNode} (h : Edits H root root')
    (hcounted : ∀ t ∈ root, Counted t) : ∀ t ∈ root', Counted t := by
  rcases h with @⟨root, t, key, data, hinsert⟩ | @⟨root, key, p, hfind⟩ |
    @⟨root, key, p, data, hfind⟩ | @t
  · rintro _ ⟨⟩
    exact TrieEngine.counted_insert hcounted (TrieEngine.insertable_new (H := H) key data).2 hinsert
  · exact TrieEngine.counted_remove (hcounted p.root (find_root hfind).1)
  · rintro _ ⟨⟩
    exact (hcounted p.root (find_root hfind).1).set data
  · rintro _ ⟨⟩
    exact (hcounted t rfl).hash.1

theorem readTrieFile_false (file : List UInt8) (view : TrieView) :
    readTrieFile crc false file ≠ .ok view := by
  rw [readTrieFile]
  dsimp only
  split_ifs <;> simp_all

theorem deserialize_of_new {dir : DataDir} {loadDisk : LoadDisk} {bestBlock : UInt256}
    {payload : List UInt8} (hpos : 0 < payload.length)
    (hlt : payload.length < 2 ^ 32) (hfile : dir.trie = some (trieFile crc bestBlock payload))
    (hload : (new crc loadDisk dir).1.root = some loaded) : deserialize payload = some loaded := by
  rcases hopen : loadDisk.fopen with _ | _
  · rw [new] at hload
    simp only [hopen] at hload
    simp [unbuilt] at hload
  rw [new_eq hfile hopen] at hload
  rcases hmalloc : loadDisk.malloc with _ | _ <;> rw [hmalloc] at hload
  · rcases hread : readTrieFile crc false (trieFile crc bestBlock payload) with e | view
    · rw [hread] at hload
      simp [unbuilt] at hload
    · exact absurd hread (readTrieFile_false _ view)
  · rw [readTrieFile_trieFile hpos hlt] at hload
    by_cases hbound : 64 * 1024 * 1024 < payload.length
    · rw [if_pos hbound] at hload
      simp [unbuilt] at hload
    · rw [if_neg hbound] at hload
      rcases hread : deserialize payload with _ | root <;> rw [hread] at hload
      · simp [unbuilt] at hload
      · exact hload

theorem Loads.deserialize_encode (h : Loads H crc t loaded)
    (hcanon : t.Canon 0 0) : deserialize (encode t) = some loaded := by
  cases h with
  | @slice t' _ max nodes buf hsub hread =>
    obtain ⟨⟨ok, buf'⟩, hsub', hwrites⟩ := @subTrie_all H _ max.toNat_lt t 0 0 0 0 ⟨[], nodes⟩
      hcanon (Nat.zero_le _)
    obtain ⟨rfl, rfl, -⟩ : ok = true ∧ buf' = buf ∧ _ := by simpa using hsub'.symm.trans hsub
    rw [hwrites.out_eq rfl] at hread
    exact hread
  | restart hflush hload =>
    obtain ⟨hlt, htrie⟩ := trie_of_flush rfl hcanon hflush
    exact deserialize_of_new ((Nat.succ_pos 32).trans_le (length_encode_ge t)) hlt htrie hload

theorem Loads.eq_findChildren (h : Loads H crc t loaded)
    (hcanon : t.Canon 0 0) : loaded = (findChildren (blank t)).2 := by
  have hread := Cryptonite.deserialize_encode (blank_blank hcanon)
  rw [encode_blank, h.deserialize_encode hcanon] at hread
  exact Option.some.inj hread

theorem Loads.spec (h : Loads H crc t loaded) (hvalid : Valid H t) :
    loaded.Canon 0 0 ∧ Coherent H loaded ∧
      (CountsLeaves loaded ↔ t.leaves.length ≤ 2) := by
  have hread := h.deserialize_encode hvalid.canon
  obtain rfl := h.eq_findChildren hvalid.canon
  refine ⟨?_, (received_of_deserialize hread).coherent, countsLeaves_findChildren_iff hvalid.canon⟩
  rw [Trie.canon_congr (erase_findChildren _)]
  exact canon_blank hvalid.canon

/-- The counters of a root are right, and so is what `Accounts` returns. -/
def CountsRight (root : Option TrieNode) : Prop :=
  (∀ t, root = some t → TrieNode.CountsLeaves t) ∧
    ∀ bestBlock, TrieView.accounts ⟨root, bestBlock⟩
      = UInt64.ofNat (tally (fun _ ↦ 1) (accounts root))

theorem ValidRoot.countsRight (h : ValidRoot H root) (hcounted : ∀ t ∈ root, Counted t) :
    CountsRight root := by
  refine ⟨fun t ht ↦ (countsLeaves_iff (h t ht).canon).mpr (hcounted t ht), fun bestBlock ↦ ?_⟩
  rcases root with _ | t
  · exact (congrArg UInt64.ofNat (tally_empty _)).symm
  · have ht := validRoot_some.mp h
    change children t = UInt64.ofNat (tally _ t.toMap)
    rw [children_eq ht.canon (hcounted t rfl), length_leaves,
      ht.canon.sumBy_eq_tally _ (supportedIn_zero 0 0)]

theorem TrieHistory.valid_root {n : ℕ} (history : TrieHistory H crc n) :
    ∀ i ≤ n, ValidRoot H (history.root i) := by
  intro i
  induction i with
  | zero => exact fun _ ↦ history.valid
  | succ i ih =>
    intro hi
    have hbefore := ih (Nat.le_of_succ_le hi)
    rcases history.step i hi with hedit | ⟨t, t', ht, ht', hload⟩
    · exact hedit.valid hbefore
    · obtain ⟨hcanon, hcoherent, -⟩ := hload.spec (hbefore t ht)
      rw [ht']
      exact validRoot_some.mpr ⟨hcanon, hcoherent⟩

theorem TrieHistory.counted_root {n : ℕ} (history : TrieHistory H crc n)
    (hloads : ∀ i < n, ∀ t t', history.root i = some t → history.root (i + 1) = some t' →
      Loads H crc t t' → t.leaves.length ≤ 2) :
    ∀ i ≤ n, ∀ t ∈ history.root i, Counted t := by
  intro i
  induction i with
  | zero => exact fun _ ↦ history.counted
  | succ i ih =>
    intro hi
    rcases history.step i hi with hedit | ⟨t, t', ht, ht', hload⟩
    · exact hedit.counted (ih (Nat.le_of_succ_le hi))
    · obtain ⟨hcanon, -, hcounts⟩ := hload.spec (history.valid_root i (Nat.le_of_succ_le hi) t ht)
      rw [ht']
      rintro _ ⟨⟩
      exact (countsLeaves_iff hcanon).mp (hcounts.mpr (hloads i hi t t' ht ht' hload))

/-- **Account counting.** Along a history of changes and of tries written and read back, started
with a trie whose counters are right, all counters are right and `Accounts` returns the number of
accounts, after every step, if and only if no trie of more than two accounts is read. -/
theorem counts_iff {n : ℕ} (history : TrieHistory H crc n) :
    (∀ i ≤ n, CountsRight (history.root i)) ↔
      ∀ i < n, ∀ t t', history.root i = some t → history.root (i + 1) = some t' →
        Loads H crc t t' → t.leaves.length ≤ 2 := by
  constructor
  · intro hall i hi t t' ht ht' hload
    have hvalid := history.valid_root i hi.le t ht
    exact (hload.spec hvalid).2.2.mp ((hall (i + 1) hi).1 t' ht')
  · intro hloads i hi
    exact (history.valid_root i hi).countsRight (history.counted_root hloads i hi)

end History

/-! ### Two accounts and three -/

section Restart

variable {H : List UInt8 → UInt256} {crc : List UInt8 → UInt32} {t t' : TrieNode}

theorem exists_restart (crc : List UInt8 → UInt32) (hvalid : Valid H t)
    (hcounted : Counted t) (hle : t.leaves.length ≤ 894785) : ∃ t', Loads H crc t t' := by
  have hlength := length_encode hvalid.canon
  have hchildren : (children t).toNat = t.leaves.length := by
    rw [children_eq hvalid.canon hcounted]
    exact UInt64.toNat_ofNat_of_lt' (hle.trans_lt (by decide))
  have hread := deserialize_encode (blank_blank hvalid.canon)
  rw [encode_blank] at hread
  have hfits : (encode t).length ≤ (children t).toNat * 200 % 2 ^ 64 % 2 ^ 32 := by
    have hlt : t.leaves.length * 200 < 2 ^ 32 := by omega
    rw [hchildren, Nat.mod_eq_of_lt (hlt.trans (by decide)), Nat.mod_eq_of_lt hlt]
    omega
  have hflush := @flush_good H crc ⟨some t, 0⟩ ⟨none, none, []⟩ t rfl hvalid.canon hfits
  have hpos : 0 < (encode t).length := (Nat.succ_pos 32).trans_le (length_encode_ge t)
  have hfile := @readTrieFile_trieFile crc 0 (encode t) hpos (by omega)
  rw [if_neg (by omega), hread] at hfile
  refine ⟨(findChildren (blank t)).2, @Loads.restart H crc t _ 0 _ _ _ .good .good hflush ?_⟩
  rw [new_eq rfl rfl, show LoadDisk.good.malloc = true from rfl, hfile]

theorem Loads.children (h : Loads H crc t t') (hvalid : Valid H t) (hle : 2 ≤ t.leaves.length) :
    children t' = UInt64.ofNat (2 * t.leaves.length - 2) := by
  have hcanon := hvalid.canon
  obtain rfl := h.eq_findChildren hcanon
  clear h hvalid
  cases t with
  | leaf c k v => exact absurd hle (by simp [Trie.leaves])
  | node c key bits l r =>
    obtain ⟨-, -, hl, hr⟩ := hcanon
    have hposL := one_le_length_leaves hl
    have hposR := one_le_length_leaves hr
    have hsum : 2 * (l.leaves.length + r.leaves.length) - 2
        = 2 * l.leaves.length - 1 + (2 * r.leaves.length - 1) := by omega
    rw [blank, findChildren, findChildren_fst (canon_blank hl), findChildren_fst (canon_blank hr),
      leaves_blank, leaves_blank, Trie.leaves, List.length_append, hsum, UInt64.ofNat_add]
    rfl
  | stub h => exact hcanon.elim

end Restart

/-- Two accounts are counted after a restart. -/
theorem counts_iff_two : ∃ history : TrieHistory Sha256.sha256d Crc32c.crc32c 1,
    history.root 0 = some twoAccounts ∧
      (∃ t, history.root 1 = some t ∧ Loads Sha256.sha256d Crc32c.crc32c twoAccounts t) ∧
      CountsRight (history.root 1) := by
  obtain ⟨t, ht⟩ := exists_restart Crc32c.crc32c valid_twoAccounts counted_twoAccounts (by decide)
  refine ⟨⟨fun i ↦ if i = 0 then some twoAccounts else some t,
    validRoot_some.mpr valid_twoAccounts, ?_, fun i hi ↦ .inr ?_⟩, rfl, ⟨t, rfl, ht⟩,
    (counts_iff _).mpr (fun i hi s s' hs _ _ ↦ ?_) 1 le_rfl⟩
  · rintro _ ⟨⟩
    exact counted_twoAccounts
  · obtain rfl := Nat.lt_one_iff.mp hi
    exact ⟨twoAccounts, t, rfl, rfl, ht⟩
  · obtain rfl := Nat.lt_one_iff.mp hi
    cases hs
    decide

/-- The calls that insert the accounts `5`, `6` and `9`. -/
def insertThree : List Call :=
  [.insert (.new 5 .init), .insert (.new 6 .init), .insert (.new 9 .init)]

/-- Three accounts are four after a restart. -/
theorem three_counted_four : ∃ t t', runCalls none insertThree = .ok (some t) ∧
    Loads Sha256.sha256d Crc32c.crc32c t t' ∧
    TrieView.accounts ⟨some t, 0⟩ = 3 ∧ TrieView.accounts ⟨some t', 0⟩ = 4 := by
  have hlegal : LegalHistory Sha256.sha256d (accounts none) insertThree :=
    ⟨⟨TrieEngine.insertable_new 5 _, rfl⟩, ⟨TrieEngine.insertable_new 6 _, rfl⟩,
      ⟨TrieEngine.insertable_new 9 _, rfl⟩, trivial⟩
  have hrun : (runCalls none insertThree).toOption.bind (Option.map fun t ↦
      (t.leaves.length, children t)) = some (3, 3) := by decide +kernel
  obtain ⟨root, hroot, hvalid, -⟩ := runCalls_spec validRoot_none hlegal
  rw [hroot] at hrun
  obtain ⟨t, rfl, ht⟩ := Option.map_eq_some_iff.mp hrun
  obtain ⟨hlength, hchildren⟩ := Prod.ext_iff.mp ht
  have hvalid := validRoot_some.mp hvalid
  have hcounted := runCalls_counted (by simp) hlegal hroot t rfl
  obtain ⟨t', ht'⟩ := exists_restart Crc32c.crc32c hvalid hcounted (hlength.trans_le (by decide))
  refine ⟨t, t', hroot, ht', hchildren, (ht'.children hvalid ?_).trans ?_⟩
  · exact (by decide : 2 ≤ 3).trans_eq hlength.symm
  · rw [show t.leaves.length = 3 from hlength]
    rfl

end Cryptonite
