import Cryptonite.Foundation.UndoLog
import Cryptonite.Trie.EngineCorrect
import Cryptonite.Trie.Slice

/-!
# Reading and writing slices

What writing a slice does to the trie it is cut from — refresh some hash caches, and nothing else —
and what the nodes of a slice read from the network look like.
-/

namespace Cryptonite

open Patricia Codec TrieNode

variable {H : List UInt8 → UInt256}

/-! ## Writing -/

/-- `t'` is `t` with some hash caches refreshed. -/
structure Refreshed (H : List UInt8 → UInt256) (t t' : TrieNode) : Prop where
  erase : t'.erase = t.erase
  coherent : TrieNode.Coherent H t'

theorem Refreshed.refl {t : TrieNode} (hcoherent : Coherent H t) : Refreshed H t t :=
  ⟨rfl, hcoherent⟩

theorem Refreshed.digest_eq {t t' : TrieNode} (h : Refreshed H t t') :
    digest H t' = digest H t := by rw [← digest_erase, h.erase, digest_erase]

theorem Refreshed.node {c : NodeCache} {key : UInt160} {bits : ℕ} {l r l' r' : TrieNode}
    (hl : Refreshed H l l') (hr : Refreshed H r r')
    (hcoherent : Coherent H (.node c key bits l r)) :
    Refreshed H (.node c key bits l r) (.node c key bits l' r') := by
  refine ⟨?_, ?_, hl.coherent, hr.coherent⟩
  · rw [Trie.erase, Trie.erase, hl.erase, hr.erase]
  · rw [hl.digest_eq, hr.digest_eq]
    exact hcoherent.1

theorem hashNode_refreshed {max : ℕ} {buf : SliceBuf} {t : TrieNode} (hcoherent : Coherent H t) :
    Refreshed H t (hashNode H max buf t).2.2 := by
  rw [hashNode]
  split
  · exact .refl hcoherent
  · obtain ⟨-, herase, hcoherent'⟩ := hcoherent.hash_spec
    exact ⟨herase, hcoherent'⟩

private theorem subTrie_hashOnly_refreshed {left right ckey : UInt160} {max bits : ℕ}
    {t t' : TrieNode} {b : Bool} {buf buf' : SliceBuf}
    (h : subTrie H left right max t ckey bits true buf = .ok (b, buf', t'))
    (hcoherent : Coherent H t) : Refreshed H t t' := by
  have heq : hashNode H max buf t = (b, buf', t') := by
    rcases t with _ | _ | _ <;> exact Except.ok.inj h
  have href := @hashNode_refreshed H max buf t hcoherent
  rwa [heq] at href

theorem subTrie_refreshed {left right : UInt160} {max : ℕ} : ∀ {t t' : TrieNode} {ckey : UInt160}
    {bits : ℕ} {hashOnly b : Bool} {buf buf' : SliceBuf},
    subTrie H left right max t ckey bits hashOnly buf = .ok (b, buf', t') →
    Coherent H t → Refreshed H t t' := by
  intro t
  induction t with
  | leaf c k v =>
    intro t' ckey bits hashOnly b buf buf' h hcoherent
    rcases hashOnly with _ | _
    · obtain ⟨-, -, rfl⟩ : _ ∧ _ ∧ _ = t' := by simpa [subTrie, pure, Except.pure] using h
      exact .refl hcoherent
    · exact subTrie_hashOnly_refreshed h hcoherent
  | node c key nbits l r ihl ihr =>
    intro t' ckey bits hashOnly b buf buf' h hcoherent
    rcases hashOnly with _ | _
    · rw [subTrie] at h
      dsimp only at h
      split at h
      · obtain ⟨-, -, rfl⟩ : _ ∧ _ ∧ _ = t' := by simpa [pure, Except.pure] using h
        exact .refl hcoherent
      · obtain ⟨⟨_ | _, buf₁, l'⟩, hl, h⟩ := Except.bind_eq_ok_iff.mp h
        · obtain ⟨-, -, rfl⟩ : _ ∧ _ ∧ _ = t' := by simpa [pure, Except.pure] using h
          exact .node (ihl hl hcoherent.2.1) (.refl hcoherent.2.2) hcoherent
        · obtain ⟨⟨ok, buf₂, r'⟩, hr, h⟩ := Except.bind_eq_ok_iff.mp h
          obtain ⟨-, -, rfl⟩ : _ ∧ _ ∧ _ = t' := by simpa [pure, Except.pure] using h
          exact .node (ihl hl hcoherent.2.1) (ihr hr hcoherent.2.2) hcoherent
    · exact subTrie_hashOnly_refreshed h hcoherent
  | stub hash =>
    intro t' ckey bits hashOnly b buf buf' h hcoherent
    rcases hashOnly with _ | _
    · rw [subTrie] at h
      split at h
      · obtain ⟨-, -, rfl⟩ : _ ∧ _ ∧ _ = t' := by simpa [pure, Except.pure] using h
        exact .refl hcoherent
      · split at h
        · obtain ⟨-, -, rfl⟩ : _ ∧ _ ∧ _ = t' := by simpa [pure, Except.pure] using h
          exact .refl hcoherent
        · cases h
    · exact subTrie_hashOnly_refreshed h hcoherent

theorem Valid.subTrie {left right : UInt160} {max : ℕ} {t t' : TrieNode} {b : Bool}
    {buf buf' : SliceBuf} (hvalid : Valid H t)
    (h : subTrie H left right max t 0 0 false buf = .ok (b, buf', t')) :
    Valid H t' ∧ t'.toMap = t.toMap := by
  have href := subTrie_refreshed h hvalid.coherent
  exact ⟨⟨(Trie.canon_congr href.erase).mpr hvalid.canon, href.coherent⟩,
    Trie.toMap_congr href.erase⟩

end Cryptonite
