import Cryptonite.Foundation.Sha256
import Cryptonite.Foundation.UndoLog
import Cryptonite.Trie.EngineCorrect

/-!
# Histories of engine calls

A history is a list of `Insert` and `Remove` calls started from the empty trie. Its meaning is the
finite map `Call.meaning` folds up, and it is *legal* when every `Insert` is at a key that is absent
and every `Remove` at one that is present at that moment. `history_determines_trie` says that a
legal history runs to completion and that everything observable of the trie it leaves — what `Find`
returns, every fragment, counter and child, the root hash — is a function of that map.
-/

namespace Cryptonite

open Patricia

abbrev AccountMap := UInt160 → Option AccountData

inductive Call where
  /-- `Insert(&root, node)`. -/
  | insert (node : Leaf)
  /-- `Remove(&root, node)` on the leaf that holds the key. -/
  | remove (key : UInt160)

namespace Call

/-- Run one call; `Remove` takes a pointer, which `Find` supplies. -/
def run (root : Option TrieNode) : Call → Exec (Option TrieNode)
  | .insert node => (TrieEngine.insert root node).map some
  | .remove key =>
    match TrieEngine.find key root with
    | none => .error .nullDeref
    | some node => .ok (TrieEngine.remove node)

/-- What a call does to the map of accounts. -/
def meaning (accts : AccountMap) : Call → AccountMap
  | .insert node => Function.update accts node.key (some node.data)
  | .remove key => Function.update accts key none

/-- A call may be made on a trie with these accounts. -/
def Legal (H : List UInt8 → UInt256) (accts : AccountMap) : Call → Prop
  | .insert node => TrieEngine.Insertable H node ∧ accts node.key = none
  | .remove key => ∃ v, accts key = some v

end Call

def runCalls (root : Option TrieNode) (calls : List Call) : Exec (Option TrieNode) :=
  calls.foldlM Call.run root

/-- Every call of the history is legal when it is made. -/
def LegalHistory (H : List UInt8 → UInt256) : AccountMap → List Call → Prop
  | _, [] => True
  | accts, call :: calls => call.Legal H accts ∧ LegalHistory H (call.meaning accts) calls

section History

variable {H : List UInt8 → UInt256}

/-- A legal call keeps the invariants and does to the trie what it means. -/
theorem Call.run_spec {root : Option TrieNode} {call : Call} (h : ValidRoot H root)
    (hlegal : call.Legal H (accounts root)) :
    ∃ root', call.run root = .ok root' ∧ ValidRoot H root' ∧
      accounts root' = call.meaning (accounts root) := by
  cases call with
  | insert node =>
    obtain ⟨t, ht, hvalid, hmap⟩ := insert_spec h hlegal.1 hlegal.2
    exact ⟨some t, by rw [Call.run, ht]; rfl, validRoot_some.mpr hvalid, hmap⟩
  | remove key =>
    obtain ⟨v, hv⟩ := hlegal
    rw [← find_map_data h] at hv
    obtain ⟨p, hp, -⟩ := Option.map_eq_some_iff.mp hv
    obtain ⟨rfl, rfl⟩ := find_root hp
    obtain ⟨hvalid, hmap⟩ := remove_spec (validRoot_some.mp h)
    exact ⟨TrieEngine.remove p, by rw [Call.run, hp], hvalid, hmap⟩

/-- A legal history runs to completion and leaves the accounts it means. -/
theorem runCalls_spec : ∀ {calls : List Call} {root : Option TrieNode}, ValidRoot H root →
    LegalHistory H (accounts root) calls →
    ∃ root', runCalls root calls = .ok root' ∧ ValidRoot H root' ∧
      accounts root' = calls.foldl Call.meaning (accounts root) := by
  intro calls
  induction calls with
  | nil => intro root h _; exact ⟨root, rfl, h, rfl⟩
  | cons call calls ih =>
    rintro root h ⟨hcall, hcalls⟩
    obtain ⟨root₁, hrun, hvalid, hmap⟩ := call.run_spec h hcall
    rw [← hmap] at hcalls
    obtain ⟨root', hrun', hvalid', hmap'⟩ := ih hvalid hcalls
    refine ⟨root', ?_, hvalid', by rw [hmap', hmap, List.foldl_cons]⟩
    rw [runCalls, List.foldlM_cons, hrun]
    exact hrun'

theorem Call.run_counted {root root' : Option TrieNode} {accts : AccountMap} {call : Call}
    (h : ∀ t ∈ root, TrieNode.Counted t) (hlegal : call.Legal H accts)
    (hrun : call.run root = .ok root') : ∀ t ∈ root', TrieNode.Counted t := by
  cases call with
  | insert node =>
    obtain ⟨t, ht, rfl⟩ : ∃ t, TrieEngine.insert root node = .ok t ∧ some t = root' := by
      cases hinsert : TrieEngine.insert root node with
      | error e => simp [Call.run, hinsert, Except.map] at hrun
      | ok t => simpa [Call.run, hinsert, Except.map] using hrun
    rintro _ ⟨⟩
    exact TrieEngine.counted_insert h hlegal.1.2 ht
  | remove key =>
    rw [Call.run] at hrun
    split at hrun
    · cases hrun
    · rename_i p hp
      obtain rfl := Except.ok.inj hrun
      exact TrieEngine.counted_remove (h p.root (find_root hp).1)

theorem runCalls_counted : ∀ {calls : List Call} {root root' : Option TrieNode}
    {accts : AccountMap}, (∀ t ∈ root, TrieNode.Counted t) → LegalHistory H accts calls →
    runCalls root calls = .ok root' → ∀ t ∈ root', TrieNode.Counted t := by
  intro calls
  induction calls with
  | nil => intro root root' accts h _ hrun; exact Except.ok.inj hrun ▸ h
  | cons call calls ih =>
    rintro root root' accts h ⟨hcall, hcalls⟩ hrun
    rw [runCalls, List.foldlM_cons] at hrun
    obtain ⟨root₁, hrun₁, hrun⟩ := Except.bind_eq_ok_iff.mp hrun
    exact ih (call.run_counted h hcall hrun₁) hcalls hrun

/-- Two roots agree in everything but the counters and the hash caches: they hold the same accounts,
and have the same shape and the same hash. -/
structure SameTrie (H : List UInt8 → UInt256) (root root' : Option TrieNode) : Prop where
  /-- The same accounts. -/
  accts : accounts root = accounts root'
  /-- The same fragments and children. -/
  shape : root.map Trie.erase = root'.map Trie.erase
  /-- The same hash. -/
  hash : root.map (fun t ↦ (TrieNode.hash H t).1) = root'.map (fun t ↦ (TrieNode.hash H t).1)

theorem ValidRoot.ext {root root' : Option TrieNode} (h : ValidRoot H root)
    (h' : ValidRoot H root') (hmap : accounts root = accounts root') : SameTrie H root root' := by
  -- a trie that is not null has an account
  have hne : ∀ {t : TrieNode}, Valid H t → t.toMap ≠ fun _ ↦ none := by
    intro t ht hnone
    obtain ⟨x, v, hx⟩ := ht.canon.exists_entry
    rw [hnone] at hx
    cases hx
  rcases root with _ | t <;> rcases root' with _ | t'
  · exact ⟨rfl, rfl, rfl⟩
  · exact absurd hmap.symm (hne (validRoot_some.mp h'))
  · exact absurd hmap (hne (validRoot_some.mp h))
  · obtain ⟨hshape, hhash⟩ := (validRoot_some.mp h).ext (validRoot_some.mp h') hmap
    exact ⟨hmap, congrArg some hshape, congrArg some hhash⟩

/-- **A trie is determined by its accounts.** A legal history started from the empty trie runs to
completion; afterwards `Find` returns the leaf holding `k` exactly when `k` is present; and any
other legal history with the same final accounts leaves a trie of the same shape, with the same
counters, and the same root hash. -/
theorem history_determines_trie {calls : List Call}
    (hcalls : LegalHistory H (fun _ ↦ none) calls) :
    ∃ root, runCalls none calls = .ok root ∧
      (∀ k v, calls.foldl Call.meaning (fun _ ↦ none) k = some v →
        ∃ p, TrieEngine.find k root = some p ∧ root = some p.root ∧ p.key = k ∧ p.data = v) ∧
      (∀ k, calls.foldl Call.meaning (fun _ ↦ none) k = none → TrieEngine.find k root = none) ∧
      ∀ calls', LegalHistory H (fun _ ↦ none) calls' →
        calls'.foldl Call.meaning (fun _ ↦ none) = calls.foldl Call.meaning (fun _ ↦ none) →
        ∃ root', runCalls none calls' = .ok root' ∧
          root'.map TrieNode.shape = root.map TrieNode.shape ∧
          root'.map (fun t ↦ (TrieNode.hash H t).1) = root.map (fun t ↦ (TrieNode.hash H t).1) := by
  obtain ⟨root, hrun, hvalid, hmap⟩ := runCalls_spec validRoot_none hcalls
  refine ⟨root, hrun, fun k v hk ↦ ?_, fun k hk ↦ ?_, fun calls' hcalls' heq ↦ ?_⟩
  · have hfind := find_map_data hvalid k
    rw [hmap] at hfind
    obtain ⟨p, hp, hdata⟩ := Option.map_eq_some_iff.mp (hfind.trans hk)
    obtain ⟨hroot, hkey⟩ := find_root hp
    exact ⟨p, hp, hroot, hkey, hdata⟩
  · have hfind := find_map_data hvalid k
    rw [hmap] at hfind
    exact Option.map_eq_none_iff.mp (hfind.trans hk)
  · obtain ⟨root', hrun', hvalid', hmap'⟩ := runCalls_spec validRoot_none hcalls'
    have hsame := hvalid'.ext hvalid (by rw [hmap', hmap]; exact heq)
    have hcounted := runCalls_counted (by simp) hcalls hrun
    have hcounted' := runCalls_counted (by simp) hcalls' hrun'
    refine ⟨root', hrun', ?_, hsame.hash⟩
    rcases root with _ | t <;> rcases root' with _ | t'
    · rfl
    · cases hsame.shape
    · cases hsame.shape
    · have herase : t'.erase = t.erase := Option.some.inj hsame.shape
      exact congrArg some ((hcounted' t' rfl).shape_eq (hcounted t rfl) herase).1

end History

/-- Inserting the accounts `5` and `6` and removing `5` leaves the trie that inserting `6` alone
leaves. -/
theorem history_determines_trie_five_six :
    ∃ root root',
      runCalls none [.insert (.new 5 .init), .insert (.new 6 .init), .remove 5] = .ok root ∧
      runCalls none [.insert (.new 6 .init)] = .ok root' ∧
      root'.map TrieNode.shape = root.map TrieNode.shape ∧
      root'.map (fun t ↦ (TrieNode.hash Sha256.sha256d t).1)
        = root.map (fun t ↦ (TrieNode.hash Sha256.sha256d t).1) := by
  have hlegal : LegalHistory Sha256.sha256d (fun _ ↦ none)
      [.insert (.new 5 .init), .insert (.new 6 .init), .remove 5] :=
    ⟨⟨TrieEngine.insertable_new 5 _, rfl⟩, ⟨TrieEngine.insertable_new 6 _, rfl⟩,
      ⟨AccountData.init, rfl⟩, trivial⟩
  obtain ⟨root, hrun, -, -, hsame⟩ := history_determines_trie hlegal
  obtain ⟨root', hrun', hshape⟩ := hsame [.insert (.new 6 .init)]
    ⟨⟨TrieEngine.insertable_new 6 _, rfl⟩, trivial⟩ (by
      funext x
      by_cases hx : x = 5#160
      · subst hx
        rfl
      · simp [Call.meaning, Leaf.new, Function.update_apply, hx])
  exact ⟨root, root', hrun, hrun', hshape⟩

end Cryptonite
