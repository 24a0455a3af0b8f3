import Cryptonite.Foundation.Sha256
import Cryptonite.Patricia.Collapse
import Cryptonite.Trie.EngineCorrect
import Cryptonite.Trie.Slice

/-!
# Slices read from the network

`Deserialize` works through bytes a peer has chosen. `Reads` is the encoding it recognises, stated
without the recursion bound the decoder carries here (`deserializeI_eq_some_iff`), and the facts
about the decoder — a node ends where it ends, whatever follows; nothing in it is cached — are
proved by induction on it.

What ties the bytes to an account trie is the hash. Leaves and branches hash byte strings of
different lengths, each of which can be taken apart again, so that a tree with the hash of a trie
is that trie with some subtrees collapsed, unless two different byte strings have collided
(`collapses_of_digest_eq`). Only the byte strings of the two trees matter, and only they are
assumed free of collisions.
-/

namespace Cryptonite

open Patricia Codec

variable {H : List UInt8 → UInt256}

/-! ## The encoding -/

/-- The encoding of a node, without the recursion bound of the decoder: `src` starts with the node
`t` of the given type, which takes `n` bytes after the type byte. -/
inductive Reads : NodeType → List UInt8 → TrieNode → ℕ → Prop
  | leaf {src : List UInt8} {t : TrieNode} {n : ℕ} (h : deserializeLeaf src = some (t, n)) :
      Reads .leaf src t n
  | hash {src : List UInt8} (hlen : 32 ≤ src.length) :
      Reads .hash src (.stub (BitVec.ofNat 256 (leNat (src.take 32)))) 32
  | branch {src rest : List UInt8} {typeL typeR : NodeType} {l r : TrieNode} {nl nr : ℕ}
      (hlen : 23 ≤ src.length) (hlenL : 21 ≤ (src.drop 21).length)
      (htypeL : NodeType.ofByte ((src.drop 21).headD 0) = some typeL)
      (hl : Reads typeL (src.drop 21).tail l nl) (hrest : rest = (src.drop 21).tail.drop nl)
      (hlenR : 21 ≤ rest.length) (htypeR : NodeType.ofByte (rest.headD 0) = some typeR)
      (hr : Reads typeR rest.tail r nr) :
      Reads .branch src (.node NodeCache.newBranch
        (BitVec.ofNat 160 (leNat ((src.drop 1).take 20))) (src.headD 0).toNat l r) (23 + nl + nr)

variable {fuel n bits : ℕ} {type : NodeType} {src : List UInt8} {t s : TrieNode} {k key : UInt160}
  {v : AccountData} {l r : UInt256}

/-- What the decoder accepts is an encoding. -/
theorem reads_of_deserializeI : ∀ {type : NodeType} {src : List UInt8} {t : TrieNode}
    {n : ℕ}, deserializeI fuel type src = some (t, n) → Reads type src t n := by
  have hleaf : ∀ {m : ℕ} {src : List UInt8} {t : TrieNode} {n : ℕ},
      deserializeI m .leaf src = some (t, n) → Reads .leaf src t n := by
    intro m src t n h
    rw [deserializeI] at h
    exact .leaf h
  have hhash : ∀ {m : ℕ} {src : List UInt8} {t : TrieNode} {n : ℕ},
      deserializeI m .hash src = some (t, n) → Reads .hash src t n := by
    intro m src t n h
    rw [deserializeI] at h
    split at h
    · cases h
    · next hlen =>
      rw [Option.some.injEq, Prod.mk.injEq] at h
      obtain ⟨rfl, rfl⟩ := h
      exact .hash (not_lt.mp hlen)
  induction fuel with
  | zero =>
    intro type src t n h
    rcases type with _ | _ | _
    · exact hleaf h
    · simp [deserializeI] at h
    · exact hhash h
  | succ fuel ih =>
    intro type src t n h
    rcases type with _ | _ | _
    · exact hleaf h
    · rw [deserializeI] at h
      split at h
      · cases h
      dsimp only at h
      split at h
      · cases h
      obtain ⟨typeL, htypeL, h⟩ := Option.bind_eq_some_iff.mp h
      obtain ⟨⟨l, nl⟩, hl, h⟩ := Option.bind_eq_some_iff.mp h
      split at h
      · cases h
      obtain ⟨typeR, htypeR, h⟩ := Option.bind_eq_some_iff.mp h
      obtain ⟨⟨r, nr⟩, hr, h⟩ := Option.bind_eq_some_iff.mp h
      rw [Option.some.injEq, Prod.mk.injEq] at h
      obtain ⟨rfl, rfl⟩ := h
      exact .branch (by omega) (by omega) htypeL (ih hl) rfl (by omega) htypeR (ih hr)
    · exact hhash h

/-- An encoding is accepted, whenever the recursion bound is at least the length of the input. -/
theorem Reads.deserializeI_eq (h : Reads type src t n) : ∀ {fuel : ℕ}, src.length ≤ fuel →
      deserializeI fuel type src = some (t, n) := by
  induction h with
  | leaf h =>
    intro fuel _
    rw [deserializeI, h]
  | hash hlen =>
    intro fuel _
    rw [deserializeI, if_neg (not_lt.mpr hlen)]
  | @branch src rest typeL typeR l r nl nr hlen hlenL htypeL _ hrest hlenR htypeR _ ihl ihr =>
    intro fuel hfuel
    obtain ⟨fuel, rfl⟩ : ∃ fuel', fuel = fuel' + 1 := ⟨fuel - 1, by omega⟩
    have hl : (src.drop 21).tail.length ≤ fuel := by
      rw [List.length_tail, List.length_drop]
      omega
    have hr : rest.tail.length ≤ fuel := by
      rw [hrest, List.length_tail, List.length_drop]
      omega
    rw [deserializeI, if_neg (by omega)]
    dsimp only
    rw [if_neg (by omega), htypeL]
    refine Option.bind_eq_some_iff.mpr ⟨typeL, rfl, ?_⟩
    refine Option.bind_eq_some_iff.mpr ⟨(l, nl), ihl hl, ?_⟩
    rw [← hrest, if_neg (by omega), htypeR]
    refine Option.bind_eq_some_iff.mpr ⟨typeR, rfl, ?_⟩
    exact Option.bind_eq_some_iff.mpr ⟨(r, nr), ihr hr, rfl⟩

/-- The decoder recognises the encoding; its recursion bound is no restriction. -/
theorem deserializeI_eq_some_iff (hfuel : src.length ≤ fuel) :
    deserializeI fuel type src = some (t, n) ↔ Reads type src t n :=
  ⟨reads_of_deserializeI, fun h ↦ h.deserializeI_eq hfuel⟩

theorem deserialize_eq_some_iff : deserialize src = some s ↔ 33 ≤ src.length ∧ ∃ type t n,
      NodeType.ofByte (src.headD 0) = some type ∧ Reads type src.tail t n ∧
        (findChildren t).2 = s := by
  rw [deserialize]
  split
  · next hlen => exact ⟨fun h ↦ absurd h (by simp), fun h ↦ absurd h.1 (by omega)⟩
  · next hlen =>
    constructor
    · intro h
      obtain ⟨type, htype, h⟩ := Option.bind_eq_some_iff.mp h
      obtain ⟨⟨t, n⟩, hread, h⟩ := Option.bind_eq_some_iff.mp h
      exact ⟨not_lt.mp hlen, type, t, n, htype, reads_of_deserializeI hread, Option.some.inj h⟩
    · rintro ⟨-, type, t, n, htype, hread, rfl⟩
      exact Option.bind_eq_some_iff.mpr ⟨type, htype,
        Option.bind_eq_some_iff.mpr ⟨(t, n), hread.deserializeI_eq le_rfl, rfl⟩⟩

theorem deserializeLeaf_append (h : deserializeLeaf src = some (t, n)) (more : List UInt8) :
    n ≤ src.length ∧ deserializeLeaf (src ++ more) = some (t, n) := by
  rw [deserializeLeaf] at h
  split at h
  · cases h
  · next hlen =>
    have hword : ∀ i m, i + m ≤ 52 → ((src ++ more).drop i).take m = (src.drop i).take m := by
      intro i m him
      rw [List.drop_append_of_le_length (by omega),
        List.take_append_of_le_length (by rw [List.length_drop]; omega)]
    have hn : 52 = n := congrArg Prod.snd (Option.some.inj h)
    refine ⟨by omega, ?_⟩
    rw [deserializeLeaf, if_neg (by rw [List.length_append]; omega), ← h]
    dsimp only
    rw [hword 0 8 (by omega), hword 8 8 (by omega), hword 16 8 (by omega), hword 24 8 (by omega),
      hword 32 20 (by omega)]

/-- An encoding is not longer than the input, and what follows it does not matter. -/
theorem Reads.append (h : Reads type src t n) (more : List UInt8) :
    n ≤ src.length ∧ Reads type (src ++ more) t n := by
  induction h with
  | leaf h =>
    obtain ⟨hn, hread⟩ := deserializeLeaf_append h more
    exact ⟨hn, .leaf hread⟩
  | @hash src hlen =>
    have h : Reads .hash (src ++ more) _ 32 := .hash (by rw [List.length_append]; omega)
    rw [List.take_append_of_le_length hlen] at h
    exact ⟨hlen, h⟩
  | @branch src rest typeL typeR l r nl nr hlen hlenL htypeL _ hrest hlenR htypeR _ ihl ihr =>
    have hdrop : (src ++ more).drop 21 = src.drop 21 ++ more :=
      List.drop_append_of_le_length (by omega)
    have hcons : ∀ {bs : List UInt8}, 21 ≤ bs.length →
        (bs ++ more).headD 0 = bs.headD 0 ∧ (bs ++ more).tail = bs.tail ++ more := by
      intro bs hbs
      rcases bs with _ | ⟨b, bs⟩
      · cases hbs
      · exact ⟨rfl, rfl⟩
    have hnl := ihl.1
    have hnr := ihr.1
    have hlenR' := hlenR
    simp only [hrest, List.length_tail, List.length_drop] at hnl hnr hlenR'
    refine ⟨by omega, ?_⟩
    have hread := @Reads.branch (src ++ more) (rest ++ more) typeL typeR l r nl nr
      (by rw [List.length_append]; omega) (by rw [hdrop, List.length_append]; omega)
      (by rw [hdrop, (hcons hlenL).1, htypeL]) (by rw [hdrop, (hcons hlenL).2]; exact ihl.2)
      (by rw [hdrop, (hcons hlenL).2, List.drop_append_of_le_length ihl.1, hrest])
      (by rw [List.length_append]; omega) (by rw [(hcons hlenR).1, htypeR])
      (by rw [(hcons hlenR).2]; exact ihr.2)
    rwa [List.drop_append_of_le_length (by omega),
      List.take_append_of_le_length (by rw [List.length_drop]; omega),
      (hcons (by omega)).1] at hread

theorem deserialize_append (h : deserialize src = some s)
    (more : List UInt8) : deserialize (src ++ more) = some s := by
  obtain ⟨hlen, type, t, n, htype, hread, rfl⟩ := deserialize_eq_some_iff.mp h
  rcases src with _ | ⟨b, src⟩
  · cases hlen
  · exact deserialize_eq_some_iff.mpr ⟨by rw [List.length_append]; omega, type, t, n, htype,
      (hread.append more).2, rfl⟩

/-! ## The nodes of a slice -/

/-- A node as it comes out of the decoder: nothing is cached yet, and the length of a fragment is
the byte it was read from. -/
def Received : TrieNode → Prop
  | .leaf c _ _ => c.modified = true
  | .node c _ bits l r => c.modified = true ∧ bits < 256 ∧ Received l ∧ Received r
  | .stub _ => True

theorem Reads.received (h : Reads type src t n) : Received t := by
  induction h with
  | @leaf src t n h =>
    rw [deserializeLeaf] at h
    split at h
    · cases h
    · rw [Option.some.injEq, Prod.mk.injEq] at h
      rw [← h.1]
      rfl
  | hash hlen => trivial
  | @branch src rest typeL typeR l r nl nr hlen hlenL htypeL _ hrest hlenR htypeR _ ihl ihr =>
    exact ⟨rfl, (src.headD 0).toNat_lt, ihl, ihr⟩

theorem Received.of_findChildren : ∀ {t : TrieNode}, Received t → Received (findChildren t).2 := by
  intro t
  induction t with
  | leaf c k v => exact id
  | node c key bits l r ihl ihr => exact fun ⟨hc, hbits, hl, hr⟩ ↦ ⟨hc, hbits, ihl hl, ihr hr⟩
  | stub h => exact id

theorem received_of_deserialize (h : deserialize src = some s) : Received s := by
  obtain ⟨-, type, t, n, -, hread, rfl⟩ := deserialize_eq_some_iff.mp h
  exact hread.received.of_findChildren

theorem Received.coherent : ∀ {t : TrieNode}, Received t → TrieNode.Coherent H t := by
  intro t
  induction t with
  | leaf c k v => exact fun hc hc' ↦ absurd (hc.symm.trans hc') (by simp)
  | node c key bits l r ihl ihr =>
    rintro ⟨hc, -, hl, hr⟩
    exact ⟨fun hc' ↦ absurd (hc.symm.trans hc') (by simp), ihl hl, ihr hr⟩
  | stub h => exact fun _ ↦ trivial

/-- The bytes that are hashed to compute the hash of a trie. -/
def preimages (H : List UInt8 → UInt256) : TrieNode → List (List UInt8)
  | .leaf _ k v => [leafPreimage k v]
  | .node _ key bits l r =>
    branchPreimage key bits (digest H l) (digest H r) :: (preimages H l ++ preimages H r)
  | .stub _ => []

theorem length_leafPreimage (k : UInt160) (v : AccountData) : (leafPreimage k v).length = 52 := by
  simp [leafPreimage]

theorem length_branchPreimage (key : UInt160) (bits : ℕ) (left right : UInt256) :
    (branchPreimage key bits left right).length = 88 := by simp [branchPreimage]

/-- Cut two equal concatenations after a field of fixed width. -/
private theorem leBytes_append_inj {n x y : ℕ} {as bs : List UInt8} (hx : x < 256 ^ n)
    (hy : y < 256 ^ n) (h : leBytes n x ++ as = leBytes n y ++ bs) : x = y ∧ as = bs := by
  obtain ⟨hhead, htail⟩ := List.append_inj h (by simp)
  exact ⟨leBytes_injOn hx hy hhead, htail⟩

theorem leafPreimage_inj {k' : UInt160} {v' : AccountData}
    (h : leafPreimage k v = leafPreimage k' v') : k = k' ∧ v = v' := by
  have hword : ∀ x : UInt64, x.toNat < 256 ^ 8 := fun x ↦ x.toNat_lt
  have hkey : ∀ x : UInt160, x.toNat < 256 ^ 20 := fun x ↦ x.isLt
  obtain ⟨hage, h⟩ := leBytes_append_inj (hword _) (hword _) h
  obtain ⟨hbalance, h⟩ := leBytes_append_inj (hword _) (hword _) h
  obtain ⟨hlimit, h⟩ := leBytes_append_inj (hword _) (hword _) h
  obtain ⟨hfuture, h⟩ := leBytes_append_inj (hword _) (hword _) h
  refine ⟨BitVec.eq_of_toNat_eq (leBytes_injOn (hkey _) (hkey _) h), ?_⟩
  rcases v with ⟨age, balance, limit, futureLimit⟩
  rcases v' with ⟨age', balance', limit', futureLimit'⟩
  rw [AccountData.mk.injEq]
  exact ⟨UInt64.toNat_inj.mp hage, UInt64.toNat_inj.mp hbalance, UInt64.toNat_inj.mp hlimit,
    UInt64.toNat_inj.mp hfuture⟩

theorem branchPreimage_inj {key' : UInt160} {bits' : ℕ} {l' r' : UInt256}
    (hbits : bits < 256) (hbits' : bits' < 256)
    (h : branchPreimage key bits l r = branchPreimage key' bits' l' r') :
    key = key' ∧ bits = bits' ∧ l = l' ∧ r = r' := by
  have hhash : ∀ x : UInt256, x.toNat < 256 ^ 32 := fun x ↦ x.isLt
  obtain ⟨hkey, h⟩ := leBytes_append_inj (n := 20) key.isLt key'.isLt h
  obtain ⟨hbits, h⟩ := leBytes_append_inj (n := 4) (by omega) (by omega) h
  obtain ⟨hl, h⟩ := leBytes_append_inj (hhash l) (hhash l') h
  exact ⟨BitVec.eq_of_toNat_eq hkey, hbits, BitVec.eq_of_toNat_eq hl,
    BitVec.eq_of_toNat_eq (leBytes_injOn (hhash r) (hhash r') h)⟩

theorem leafPreimage_ne_branchPreimage : leafPreimage k v ≠ branchPreimage key bits l r := by
  intro h
  have hlen := congrArg List.length h
  rw [length_leafPreimage, length_branchPreimage] at hlen
  exact absurd hlen (by norm_num)

/-- **Authenticity.** When no two of the byte strings involved collide, a slice with the hash of a
trie is that trie with some subtrees collapsed. -/
theorem collapses_of_digest_eq : ∀ {s t : TrieNode} {d : ℕ} {p : UInt160}, Received s →
    t.Canon d p → Set.InjOn H {m | m ∈ preimages H t ++ preimages H s} →
    digest H s = digest H t → Trie.Collapses (digest H) t s := by
  intro s
  induction s with
  | stub h =>
    intro t d p _ _ _ hdigest
    rw [digest] at hdigest
    rw [hdigest]
    exact .stub t
  | leaf c k v =>
    intro t d p _ hcanon hinj hdigest
    rcases t with ⟨c', k', v'⟩ | ⟨c', key', bits', l', r'⟩ | h'
    · obtain ⟨rfl, rfl⟩ := leafPreimage_inj
        (hinj (by simp [preimages]) (by simp [preimages]) hdigest)
      exact .leaf c' c k v
    · exact absurd (hinj (by simp [preimages]) (by simp [preimages]) hdigest)
        leafPreimage_ne_branchPreimage
    · exact hcanon.elim
  | node c key bits l r ihl ihr =>
    intro t d p hrec hcanon hinj hdigest
    obtain ⟨-, hbits, hl, hr⟩ := hrec
    rcases t with ⟨c', k', v'⟩ | ⟨c', key', bits', l', r'⟩ | h'
    · exact absurd (hinj (by simp [preimages]) (by simp [preimages]) hdigest).symm
        leafPreimage_ne_branchPreimage
    · obtain ⟨hb, -, hcl, hcr⟩ := hcanon
      obtain ⟨rfl, rfl, hdl, hdr⟩ := branchPreimage_inj hbits (by omega)
        (hinj (by simp [preimages]) (by simp [preimages]) hdigest)
      -- the children's byte strings are among those of the two tries
      refine .node c' c key bits (ihl hl hcl (hinj.mono ?_) hdl) (ihr hr hcr (hinj.mono ?_) hdr)
      · intro m hm
        simp only [preimages, Set.mem_ofPred_eq, List.mem_append, List.mem_cons] at hm ⊢
        tauto
      · intro m hm
        simp only [preimages, Set.mem_ofPred_eq, List.mem_append, List.mem_cons] at hm ⊢
        tauto
    · exact hcanon.elim

theorem collapses_hash (h : Trie.Collapses (digest H) t s) :
    TrieNode.Coherent H t → Trie.Collapses (fun u ↦ (TrieNode.hash H u).1) t s := by
  induction h with
  | leaf c c' k v => exact fun _ ↦ .leaf c c' k v
  | node c c' key bits _ _ ihl ihr =>
    exact fun hcoherent ↦ .node c c' key bits (ihl hcoherent.2.1) (ihr hcoherent.2.2)
  | stub t =>
    intro hcoherent
    rw [← (hcoherent.hash_spec).1]
    exact .stub t

/-- **Slices are authentic.** Bytes that decode to a tree with the hash of an account trie decode
to that trie with some subtrees replaced by their hashes, and every leaf that is shown is an
account of the trie. The hash is assumed free of collisions among the byte strings hashed in the
two trees. -/
theorem slice_authentic {trie slice : TrieNode} {src : List UInt8} (htrie : Valid H trie)
    (hslice : deserialize src = some slice)
    (hinj : Set.InjOn H {m | m ∈ preimages H trie ++ preimages H slice})
    (hhash : (TrieNode.hash H slice).1 = (TrieNode.hash H trie).1) :
    Trie.Collapses (fun u ↦ (TrieNode.hash H u).1) trie slice ∧
      ∀ account ∈ slice.leaves, trie.toMap account.1 = some account.2 := by
  have hrec := received_of_deserialize hslice
  rw [(hrec.coherent.hash_spec).1, (htrie.coherent.hash_spec).1] at hhash
  have hview := collapses_of_digest_eq hrec htrie.canon hinj hhash
  refine ⟨collapses_hash hview htrie.coherent, fun account haccount ↦ ?_⟩
  exact (htrie.canon.mem_leaves_iff (supportedIn_zero 0 0)).mp (hview.leaves_subset haccount)

/-- The trie of two accounts, with the lowest key and the lowest key of the upper half. -/
def twoAccounts : TrieNode :=
  .node { NodeCache.newBranch with children := 2 } 0 0 (.leaf NodeCache.newLeaf 0 .init)
    (.leaf NodeCache.newLeaf (bitAt 0) .init)

theorem valid_twoAccounts : Valid Sha256.sha256d twoAccounts := by
  refine ⟨⟨by decide, supportedIn_zero 0 0, fun i hi ↦ ?_, fun i hi ↦ ?_⟩, nofun, nofun, nofun⟩
  · obtain rfl : i = 0 := by omega
    decide
  · obtain rfl : i = 0 := by omega
    decide

theorem counted_twoAccounts : TrieNode.Counted twoAccounts := ⟨rfl, rfl, rfl⟩

def upperSlice : TrieNode :=
  .node { NodeCache.newBranch with children := 2 } 0 0
    (.stub (Sha256.sha256d (leafPreimage 0 .init))) (.leaf NodeCache.newLeaf (bitAt 0) .init)

/-- The bytes of `upperSlice`. -/
def upperBytes : List UInt8 :=
  NodeType.branch.toByte :: 0 :: (leBytes 20 0 ++ NodeType.hash.toByte ::
    (leBytes 32 (Sha256.sha256d (leafPreimage 0 .init)).toNat ++ NodeType.leaf.toByte ::
      leafPreimage (bitAt 0) .init))

set_option maxRecDepth 10000 in
theorem deserialize_upperBytes : deserialize upperBytes = some upperSlice := by decide +kernel

set_option maxRecDepth 10000 in
theorem injOn_twoAccounts : Set.InjOn Sha256.sha256d
    {m | m ∈ preimages Sha256.sha256d twoAccounts ++ preimages Sha256.sha256d upperSlice} := by
  have hnodup : ((preimages Sha256.sha256d twoAccounts).map Sha256.sha256d).Nodup := by
    decide +kernel
  have hsub : ∀ m ∈ preimages Sha256.sha256d twoAccounts ++ preimages Sha256.sha256d upperSlice,
      m ∈ preimages Sha256.sha256d twoAccounts := by
    simp [preimages, twoAccounts, upperSlice, digest]
  exact fun m hm m' hm' ↦ List.inj_on_of_nodup_map hnodup (hsub m hm) (hsub m' hm')

/-- The account the slice shows is the upper one. -/
theorem slice_authentic_upper : (bitAt 0, .init) ∈ upperSlice.leaves ∧
    twoAccounts.toMap (bitAt 0) = some .init :=
  ⟨by decide, (slice_authentic valid_twoAccounts deserialize_upperBytes injOn_twoAccounts
    rfl).2 (bitAt 0, .init) (by decide)⟩

end Cryptonite
