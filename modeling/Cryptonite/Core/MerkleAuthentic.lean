import Cryptonite.Core.PartialMerkle

/-!
# Authenticity of partial Merkle trees

The number of transactions comes with a `CPartialMerkleTree` and is not checked against anything.
`authentic_iff` says what this means: the transactions that are shown are in the block precisely if
the number leads to the height of the block's tree.
-/

namespace Cryptonite

open Codec Loop MerkleTree PrunedTree

namespace PartialMerkleTree

variable {tree : PartialMerkleTree} {H : List UInt8 → UInt256} {root : UInt256}

/-- Zero is also what is returned for an error; anything else is the value of a pruned tree. -/
theorem exists_of_extractMatches (h : (tree.extractMatches H).1 ≠ 0) :
    ∃ t : PrunedTree UInt256, t.Fits tree.Wide (treeHeight tree.nTransactions) 0 ∧
      (tree.extractMatches H).1 = t.value (H ∘ merklePair) ∧
      (tree.extractMatches H).2 = t.matched ∧
      tree.messages H = (t.pairs (H ∘ merklePair)).map merklePair := by
  have hcount : tree.nTransactions ≠ 0 := fun hc ↦ h (by simp [extractMatches, hc])
  have hhash : tree.vHash.length ≤ tree.nTransactions.toNat :=
    Nat.le_of_not_lt fun hc ↦ h (by simp [extractMatches, hcount, hc])
  have hbits : tree.vHash.length ≤ tree.vBits.length :=
    Nat.le_of_not_lt fun hc ↦ h (by simp [extractMatches, hcount, Nat.not_lt.mpr hhash, hc])
  have hrun : (tree.traversal H).2.fBad = false ∧
      ((tree.traversal H).2.nBitsUsed + 7) / 8 = (tree.vBits.length + 7) / 8 ∧
      (tree.traversal H).2.nHashUsed = tree.vHash.length := by
    by_contra hc
    refine h ?_
    simp only [extractMatches, if_neg hcount, gt_iff_lt, Nat.not_lt.mpr hhash,
      Nat.not_lt.mpr hbits, if_false]
    split
    · rfl
    · split
      · rfl
      · split
        · rfl
        · simp_all
  obtain ⟨hbad, hbitsUsed, hhashUsed⟩ := hrun
  rw [extractMatches_of_traversal hcount hhash hbits rfl hbad hbitsUsed hhashUsed]
  obtain ⟨-, t, hfits, hvalue, hmatched, hpairs⟩ := exists_of_traverseAndExtract hbad
  exact ⟨t, hfits, hvalue, hmatched, by rw [messages, hpairs]⟩

theorem mem_merkleLeaves_iff {vtx : List Transaction}
    (h : buildMerkleTree H vtx = .ok root) {hash : UInt256} :
    hash ∈ merkleLeaves H vtx ↔ ∃ tx ∈ vtx, tx.getHash H = .ok hash := by
  obtain ⟨leaves, hleaves, -⟩ := Except.bind_eq_ok_iff.mp h
  rw [merkleLeaves, List.mem_map]
  refine exists_congr fun tx ↦ and_congr_right fun htx ↦ ?_
  obtain ⟨hash', -, hhash⟩ := Except.exists_of_mapM hleaves htx
  rw [hhash, ← Transaction.getHash_eq hhash, Except.ok.injEq]

section Authentic

variable {H : List UInt8 → UInt256} {vtx : List Transaction} {M : Set (List UInt8)}

variable {k : ℕ} {q : UInt256 × UInt256}

theorem merklePair_mem_of_level (hM : ∀ m ∈ merkleMessages H vtx, m ∈ M)
    (hk : k < Nat.clog 2 vtx.length) (hq : q ∈ pairs
      ((level (H ∘ merklePair))^[k] (merkleLeaves H vtx))) : merklePair q ∈ M := by
  have hlength : (merkleLeaves H vtx).length = vtx.length := List.length_map _
  rw [← hlength] at hk
  have hleaves : merkleLeaves H vtx ≠ [] := by
    intro hnil
    rw [hnil, List.length_nil, Nat.clog_zero_right] at hk
    exact absurd hk (Nat.not_lt_zero k)
  have hhashed := mem_hashed hleaves hk hq
  rw [hlength] at hhashed
  exact hM _ (List.mem_append_right _ (List.mem_map_of_mem hhashed))

theorem pair_notMem_merkleLeaves (hinj : Set.InjOn H M) (hM : ∀ m ∈ merkleMessages H vtx, m ∈ M)
    (hlong : ∀ tx ∈ vtx, 72 ≤ tx.wireBytes.length)
    (hq : merklePair q ∈ M) : (H ∘ merklePair) q ∉ merkleLeaves H vtx := by
  intro hleaf
  obtain ⟨tx, htx, heq⟩ := List.mem_map.mp hleaf
  have hmem : tx.wireBytes ∈ M := hM _ (List.mem_append_left _ (List.mem_map_of_mem htx))
  exact (separated hinj).not_leaf q hq ⟨_, ⟨hmem, hlong tx htx⟩, heq⟩

theorem notMem_merkleLeaves_of_iterate (hinj : Set.InjOn H M)
    (hM : ∀ m ∈ merkleMessages H vtx, m ∈ M) (hlong : ∀ tx ∈ vtx, 72 ≤ tx.wireBytes.length)
    (hpos : 0 < k) (hk : k ≤ Nat.clog 2 vtx.length) {d : UInt256}
    (hd : d ∈ (level (H ∘ merklePair))^[k] (merkleLeaves H vtx)) : d ∉ merkleLeaves H vtx := by
  obtain ⟨k, rfl⟩ : ∃ j, k = j + 1 := ⟨k - 1, by omega⟩
  rw [Function.iterate_succ_apply'] at hd
  obtain ⟨q, hq, rfl⟩ := List.mem_map.mp hd
  exact pair_notMem_merkleLeaves hinj hM hlong (merklePair_mem_of_level hM hk hq)

section Root

variable (hinj : Set.InjOn H M) (hM : ∀ m ∈ merkleMessages H vtx, m ∈ M) (hne : vtx ≠ [])
  {wide : ℕ → ℕ → Prop} {h pos : ℕ} {t : PrunedTree UInt256} (hfits : t.Fits wide h pos)
  (hpairs : ∀ q ∈ t.pairs (H ∘ merklePair), merklePair q ∈ M)
  (hroot : t.value (H ∘ merklePair) =
    MerkleTree.root (H ∘ merklePair) 0 vtx.length (merkleLeaves H vtx))
include hinj hM hne hfits hpairs hroot

theorem matched_of_root : (h ≤ Nat.clog 2 vtx.length → ∀ hash ∈ t.matched,
      hash ∈ (level (H ∘ merklePair))^[Nat.clog 2 vtx.length - h]
        (merkleLeaves H vtx)) ∧
    ((∀ q, merklePair q ∈ M → (H ∘ merklePair) q ∉ merkleLeaves H vtx) →
      Nat.clog 2 vtx.length < h → t.matched = []) := by
  have hlength : (merkleLeaves H vtx).length = vtx.length := List.length_map _
  have hleaves : merkleLeaves H vtx ≠ [] := fun hnil ↦ hne (List.map_eq_nil_iff.mp hnil)
  have hlevels : ∀ k < Nat.clog 2 vtx.length,
      ∀ q ∈ pairs ((level (H ∘ merklePair))^[k] (merkleLeaves H vtx)),
        q ∈ {q | merklePair q ∈ M} :=
    fun k hk q hq ↦ merklePair_mem_of_level hM hk hq
  have hvalue : t.value (H ∘ merklePair) ∈
      (level (H ∘ merklePair))^[Nat.clog 2 vtx.length] (merkleLeaves H vtx) := by
    rw [hroot, ← hlength, iterate_clog hleaves 0]
    exact List.mem_singleton_self _
  exact ⟨fun hh ↦ hfits.matched_mem (separated hinj).injOn hlevels le_rfl hh hpairs hvalue,
    fun hsep hh ↦ hfits.matched_eq_nil (separated hinj).injOn hlevels hsep le_rfl hh hpairs hvalue⟩

theorem matched_subset_of_height (heq : h = Nat.clog 2 vtx.length) :
    ∀ hash ∈ t.matched, hash ∈ merkleLeaves H vtx := by
  intro hash hhash
  have hmem := (matched_of_root hinj hM hne hfits hpairs hroot).1 heq.le hash hhash
  rwa [heq, Nat.sub_self] at hmem

theorem matched_subset_iff (hlong : ∀ tx ∈ vtx, 72 ≤ tx.wireBytes.length) :
    (∀ hash ∈ t.matched, hash ∈ merkleLeaves H vtx) ↔
      t.matched = [] ∨ h = Nat.clog 2 vtx.length := by
  constructor
  · intro hall
    obtain ⟨hbelow, hnil⟩ := matched_of_root hinj hM hne hfits hpairs hroot
    rcases lt_trichotomy h (Nat.clog 2 vtx.length) with hlt | heq | hgt
    · refine .inl (List.eq_nil_iff_forall_not_mem.mpr fun hash hhash ↦ ?_)
      exact notMem_merkleLeaves_of_iterate hinj hM hlong (Nat.sub_pos_of_lt hlt) (Nat.sub_le _ _)
        (hbelow hlt.le hash hhash) (hall hash hhash)
    · exact .inr heq
    · exact .inl (hnil (fun _ ↦ pair_notMem_merkleLeaves hinj hM hlong) hgt)
  · rintro (hempty | heq)
    · rw [hempty]
      exact fun _ h ↦ absurd h List.not_mem_nil
    · exact matched_subset_of_height hinj hM hne hfits hpairs hroot heq

end Root

/-- **Authenticity.** A partial Merkle tree whose root is that of an accepted block shows
transactions of the block if the number of transactions that it names leads to the height of the
block's tree. Otherwise it shows nothing, or something that is not a transaction. -/
theorem authentic_iff (tree : PartialMerkleTree) {env : Surroundings} (hH : env.H = H)
    {fCheckPOW : Bool} {block : Block} (haccept : checkBlock env fCheckPOW true block = .ok ())
    (hroot : (tree.extractMatches H).1 = block.hashMerkleRoot) (hzero : block.hashMerkleRoot ≠ 0)
    (hinj : Set.InjOn H {m | m ∈ merkleMessages H block.vtx ++ tree.messages H}) :
    (treeHeight tree.nTransactions = Nat.clog 2 block.vtx.length →
      ∀ hash ∈ (tree.extractMatches H).2, ∃ tx ∈ block.vtx, tx.getHash H = .ok hash) ∧
    (block.nHeight ≠ 0 →
      ((∀ hash ∈ (tree.extractMatches H).2, ∃ tx ∈ block.vtx, tx.getHash H = .ok hash) ↔
        (tree.extractMatches H).2 = [] ∨
          treeHeight tree.nTransactions = Nat.clog 2 block.vtx.length)) := by
  obtain ⟨-, first, rest, hwell⟩ := checkBlock_eq_ok_iff.mp haccept
  obtain ⟨root, hbuild, hheader⟩ := hwell.merkle
  rw [hH] at hbuild
  have hne : block.vtx ≠ [] := by
    rw [hwell.vtx_eq]
    exact List.cons_ne_nil _ _
  obtain ⟨t, hfits, hvalue, hmatched, hmessages⟩ := exists_of_extractMatches (hroot ▸ hzero)
  rw [hroot, hheader rfl, buildMerkleTree_eq hbuild] at hvalue
  have hM : ∀ m ∈ merkleMessages H block.vtx,
      m ∈ {m | m ∈ merkleMessages H block.vtx ++ tree.messages H} :=
    fun m hm ↦ List.mem_append_left _ hm
  have hpairs : ∀ q ∈ t.pairs (H ∘ merklePair),
      merklePair q ∈ {m | m ∈ merkleMessages H block.vtx ++ tree.messages H} := by
    intro q hq
    rw [hmessages]
    exact List.mem_append_right _ (List.mem_map_of_mem hq)
  simp only [hmatched, ← mem_merkleLeaves_iff hbuild]
  refine ⟨matched_subset_of_height hinj hM hne hfits hpairs hvalue.symm, fun hheight ↦ ?_⟩
  exact matched_subset_iff hinj hM hne hfits hpairs hvalue.symm
    fun _ htx ↦ (hwell.length_wireBytes hheight htx).2

end Authentic

/-- The coinbase of the block of two transactions is shown. -/
def coinbaseShown : PartialMerkleTree :=
  ⟨2, [true, true, false, false, false, false, false, false],
    [0x97dbef85672b0aeffd63971b93197a016af794fb02cdd2a4680e257cddfa2f1a,
      0xddcea411dade5baeb20ec134501731928accb13d9d3690d8a02b38d9bfd310ec], false⟩

def rootShown : PartialMerkleTree :=
  ⟨1, [true, false, false, false, false, false, false, false],
    [0xc6c9ac3bd124391a56754bbbb329d41b06bdef5ee05cb67eb73dae5611a6048e], false⟩

theorem injOn_of_messages_subset (h : ∀ m ∈ tree.messages Sha256.sha256d,
      m ∈ merkleMessages Sha256.sha256d (mintAndPay 1).vtx) :
    Set.InjOn Sha256.sha256d {m | m ∈ merkleMessages Sha256.sha256d (mintAndPay 1).vtx ++
      tree.messages Sha256.sha256d} := by
  refine injOn_mintAndPay.mono fun m hm ↦ ?_
  rcases List.mem_append.mp hm with hm | hm
  · exact List.mem_append_left _ hm
  · exact List.mem_append_left _ (h m hm)

theorem messages_coinbaseShown : coinbaseShown.messages Sha256.sha256d =
    [merklePair (0x97dbef85672b0aeffd63971b93197a016af794fb02cdd2a4680e257cddfa2f1a,
      0xddcea411dade5baeb20ec134501731928accb13d9d3690d8a02b38d9bfd310ec)] := by
  decide +kernel

/-- With two transactions the tree has the height of the block's. -/
theorem authentic_iff_coinbase :
    coinbaseShown.extractMatches Sha256.sha256d =
      ((mintAndPay 1).hashMerkleRoot,
        [0x97dbef85672b0aeffd63971b93197a016af794fb02cdd2a4680e257cddfa2f1a]) ∧
    ∀ hash ∈ (coinbaseShown.extractMatches Sha256.sha256d).2,
      ∃ tx ∈ (mintAndPay 1).vtx, tx.getHash Sha256.sha256d = .ok hash := by
  have hextract : coinbaseShown.extractMatches Sha256.sha256d = ((mintAndPay 1).hashMerkleRoot,
        [0x97dbef85672b0aeffd63971b93197a016af794fb02cdd2a4680e257cddfa2f1a]) := by decide +kernel
  have hmessages : ∀ m ∈ coinbaseShown.messages Sha256.sha256d,
      m ∈ merkleMessages Sha256.sha256d (mintAndPay 1).vtx := by
    obtain ⟨hmint, hpay, -⟩ := hash_two
    intro m hm
    rw [messages_coinbaseShown, List.mem_singleton] at hm
    change m ∈ merkleMessages Sha256.sha256d [mintOne, payOne]
    rw [merkleMessages_two, hmint, hpay, hm]
    simp
  exact ⟨hextract, (authentic_iff coinbaseShown (rfl : noAccounts.H = Sha256.sha256d)
    (checkBlock_mintAndPay 1) (congrArg Prod.fst hextract) (by decide)
    (injOn_of_messages_subset hmessages)).1 (by decide +kernel)⟩

/-- With one transaction, the root passes as that transaction. -/
theorem root_passes_as_transaction :
    unserialize (leBytes 4 1 ++ [1] ++ leBytes 32 (mintAndPay 1).hashMerkleRoot.toNat ++ [1, 1]) =
      some (rootShown, []) ∧
    checkBlock noAccounts true true (mintAndPay 1) = .ok () ∧
    Set.InjOn Sha256.sha256d {m | m ∈ merkleMessages Sha256.sha256d (mintAndPay 1).vtx ++
      rootShown.messages Sha256.sha256d} ∧
    rootShown.extractMatches Sha256.sha256d =
      ((mintAndPay 1).hashMerkleRoot, [(mintAndPay 1).hashMerkleRoot]) ∧
    ¬ ∃ tx ∈ (mintAndPay 1).vtx,
      tx.getHash Sha256.sha256d = .ok (mintAndPay 1).hashMerkleRoot := by
  have hmessages : rootShown.messages Sha256.sha256d = [] := by decide +kernel
  refine ⟨by decide +kernel, checkBlock_mintAndPay 1, injOn_of_messages_subset ?_,
    by decide +kernel, by decide +kernel⟩
  rw [hmessages]
  exact fun _ hm ↦ absurd hm List.not_mem_nil

end PartialMerkleTree

end Cryptonite
