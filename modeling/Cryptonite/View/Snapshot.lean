import Cryptonite.Foundation.Crc32c
import Cryptonite.Patricia.Tally
import Cryptonite.Trie.RoundTrip
import Cryptonite.View.TempApply

/-!
# The trie on disk

`TrieView::Flush` writes the account trie and the name of its block to `trie.dat`, and the
constructor of `TrieView` reads it when the node starts. The file is a header with a magic word, a
version, the length of the payload and a checksum, followed by the name of the block and the slice
`SubTrie` writes for the range of all keys.

Writer and reader have separate bounds. The writer allows for 200 bytes per account, which is more
than an account ever takes; the reader refuses a payload of more than 64 megabytes. An account takes
53 bytes and a branch 22, and a trie of `n` accounts has `n - 1` branches, so the bound is reached
at 894786 accounts. `Flush` writes such a trie and reports success, and the node that starts from
the file moves it out of the way and starts without accounts.
-/

namespace Cryptonite

open Patricia Codec Crc32c TrieNode

/-! ## The file -/

/-- `TRIE_FILE_MAGIC`: the letters `XCNA`. -/
def TRIE_FILE_MAGIC : List UInt8 := [0x58, 0x43, 0x4e, 0x41]

def TRIE_FILE_VERSION : ℕ := 1

def TRIE_FILE_HEADER_LEN : ℕ := 16

def TRIE_BESTBLOCK_LEN : ℕ := 32

structure DataDir where
  /-- `trie.dat`. -/
  trie : Option (List UInt8)
  /-- `trie.dat.tmp`. -/
  tmp : Option (List UInt8)
  /-- What `ArchiveTrieFile` has moved away, with the name it gave. -/
  archived : List (String × List UInt8)

/-- The record `Flush` packs. -/
def trieFile (crc : List UInt8 → UInt32) (bestBlock : UInt256) (payload : List UInt8) :
    List UInt8 :=
  let payload_len := UInt32.ofNat payload.length
  let body := leBytes TRIE_BESTBLOCK_LEN bestBlock.toNat ++ payload.take payload_len.toNat
  TRIE_FILE_MAGIC ++ leBytes 4 TRIE_FILE_VERSION ++ leBytes 4 payload_len.toNat ++
    leBytes 4 (mask (crc body)).toNat ++ body

/-- What the operating system answers while `Flush` runs. -/
structure FlushDisk where
  /-- `malloc` of the buffer for the payload. -/
  mallocBuf : Bool
  /-- `malloc` of the buffer for the record. -/
  mallocOut : Bool
  /-- `fopen` of `trie.dat.tmp`. -/
  fopen : Bool
  /-- How many bytes `fwrite` writes, of as many as it is given. -/
  fwrite : ℕ
  /-- `rename` to `trie.dat`. -/
  rename : Bool
  /-- `remove` of `trie.dat.tmp`. -/
  remove : Bool

def flush (H : List UInt8 → UInt256) (crc : List UInt8 → UInt32) (disk : FlushDisk)
    (view : TrieView) (dir : DataDir) : Exec (Bool × TrieView × DataDir) :=
  match view.root with
  | none => pure (false, view, dir)
  | some root =>
    let fsize := (TrieNode.children root).toNat * 200 % 2 ^ 64
    if !disk.mallocBuf then pure (false, view, dir)
    else do
      -- the budget is passed as a `uint32_t`
      let (ok, buf, root) ← subTrie H 0 (BitVec.allOnes 160) (fsize % 2 ^ 32) root 0 0 false ⟨[], 0⟩
      let view := { view with root := some root }
      if !ok || !disk.mallocOut || !disk.fopen then pure (false, view, dir)
      else
        let out := trieFile crc view.bestBlock buf.out
        let removed (tmp : List UInt8) : DataDir :=
          { dir with tmp := if disk.remove then none else some tmp }
        if disk.fwrite < out.length then pure (false, view, removed (out.take disk.fwrite))
        else if !disk.rename then pure (false, view, removed out)
        else pure (true, view, { dir with trie := some out, tmp := none })

/-- Why the constructor rejects a file. -/
inductive TrieFileError where
  | truncatedHeader
  | badMagic
  | badVersion
  | badLength
  | oom
  | truncatedBody
  | checksumMismatch
  | deserializeFailed
  deriving DecidableEq, Repr

/-- The reason, as the name of the archived file has it. -/
def TrieFileError.reason : TrieFileError → String
  | truncatedHeader => "truncated-header"
  | badMagic => "bad-magic"
  | badVersion => "bad-version"
  | badLength => "bad-length"
  | oom => "oom"
  | truncatedBody => "truncated-body"
  | checksumMismatch => "checksum-mismatch"
  | deserializeFailed => "deserialize-failed"

/-- The reading of `trie.dat` in the constructor; `malloc` says whether there is memory for the
body. -/
def readTrieFile (crc : List UInt8 → UInt32) (malloc : Bool) (file : List UInt8) :
    Except TrieFileError TrieView :=
  let hdr := file.take TRIE_FILE_HEADER_LEN
  let word (i : ℕ) : ℕ := leNat ((hdr.drop i).take 4)
  if hdr.length ≠ TRIE_FILE_HEADER_LEN then .error .truncatedHeader
  else if hdr.take 4 ≠ TRIE_FILE_MAGIC then .error .badMagic
  else if word 4 ≠ TRIE_FILE_VERSION then .error .badVersion
  else
    let payload_len := word 8
    if payload_len = 0 ∨ 64 * 1024 * 1024 < payload_len then .error .badLength
    else
      let stored_crc := UInt32.ofNat (word 12)
      let body_len := TRIE_BESTBLOCK_LEN + payload_len
      let body := (file.drop TRIE_FILE_HEADER_LEN).take body_len
      if !malloc then .error .oom
      else if body.length ≠ body_len then .error .truncatedBody
      else if unmask stored_crc ≠ crc body then .error .checksumMismatch
      else
        match deserialize (body.drop TRIE_BESTBLOCK_LEN) with
        | none => .error .deserializeFailed
        | some root =>
          .ok ⟨some root, BitVec.ofNat 256 (leNat (body.take TRIE_BESTBLOCK_LEN))⟩

/-- What the operating system answers while the constructor runs. -/
structure LoadDisk where
  /-- `remove` of `trie.dat.tmp`. -/
  remove : Bool
  /-- `fopen` of `trie.dat`, if there is one. -/
  fopen : Bool
  /-- `malloc` of the buffer for the body. -/
  malloc : Bool
  /-- `rename` of a rejected file. -/
  rename : Bool
  /-- `GetTime()`. -/
  time : ℤ

def TrieView.unbuilt : TrieView := ⟨none, 0⟩

def TrieView.new (crc : List UInt8 → UInt32) (disk : LoadDisk) (dir : DataDir) :
    TrieView × DataDir :=
  let dir := { dir with tmp := if disk.remove then none else dir.tmp }
  match dir.trie, disk.fopen with
  | some file, true =>
    match readTrieFile crc disk.malloc file with
    | .ok view => (view, dir)
    | .error e =>
      let archive := "trie.dat." ++ e.reason ++ "-" ++ toString disk.time
      (.unbuilt, if disk.rename then
        { dir with trie := none, archived := (archive, file) :: dir.archived } else dir)
  | _, _ => (.unbuilt, dir)

/-! ## The slice of all keys -/

variable {H : List UInt8 → UInt256} {crc : List UInt8 → UInt32}

/-- A trie with the caches of nodes that have just been read. -/
def blank : TrieNode → TrieNode
  | .leaf _ k v => .leaf NodeCache.newLeaf k v
  | .node _ key bits l r => .node NodeCache.newBranch key bits (blank l) (blank r)
  | .stub h => .stub h

theorem erase_blank (t : TrieNode) : (blank t).erase = t.erase := by
  induction t with
  | leaf c k v => rfl
  | node c key bits l r ihl ihr => rw [blank, Trie.erase, Trie.erase, ihl, ihr]
  | stub h => rfl

theorem encode_blank (t : TrieNode) : encode (blank t) = encode t := by
  induction t with
  | leaf c k v => rfl
  | node c key bits l r ihl ihr => rw [blank, encode, encode, ihl, ihr]
  | stub h => rfl

theorem blank_blank {t : TrieNode} : ∀ {d : ℕ} {p : UInt160}, t.Canon d p → Blank (blank t) := by
  induction t with
  | leaf c k v => exact fun _ ↦ rfl
  | node c key bits l r ihl ihr =>
    exact fun ⟨hb, _, hl, hr⟩ ↦ ⟨rfl, by omega, ihl hl, ihr hr⟩
  | stub h => exact fun hcanon ↦ hcanon.elim

theorem length_encode {t : TrieNode} : ∀ {d : ℕ} {p : UInt160}, t.Canon d p →
    (encode t).length + 22 = 75 * t.leaves.length := by
  induction t with
  | leaf c k v =>
    intro d p _
    simp [encode, length_leafPreimage, Trie.leaves]
  | node c key bits l r ihl ihr =>
    rintro d p ⟨-, -, hl, hr⟩
    have hleft := ihl hl
    have hright := ihr hr
    simp only [encode, Trie.leaves, List.length_cons, List.length_append, length_leBytes]
    omega
  | stub h => exact fun hcanon ↦ hcanon.elim

/-! ### Room in the buffer -/

/-- Bytes are written exactly when there is room for them. -/
structure Writes (max : ℕ) (buf : SliceBuf) (bytes : List UInt8) (res : Bool × SliceBuf) :
    Prop where
  fits_iff : res.1 = true ↔ buf.out.length + bytes.length ≤ max
  out_eq : res.1 = true → res.2.out = buf.out ++ bytes

variable {max : ℕ} {buf : SliceBuf}

theorem SliceBuf.room_eq (hle : buf.out.length ≤ max) (hmax : max < 2 ^ 32) :
    buf.room max = max - buf.out.length := sub32_of_le hle hmax

variable {bytes : List UInt8} {buf' : SliceBuf}

theorem Writes.false_of_lt
    (h : max < buf.out.length + bytes.length) : Writes max buf bytes (false, buf') :=
  ⟨iff_of_false Bool.false_ne_true (Nat.not_le.mpr h), fun hok ↦ absurd hok Bool.false_ne_true⟩

theorem writes_serializeLeaf (hle : buf.out.length ≤ max) (hmax : max < 2 ^ 32) (k : UInt160)
    (v : AccountData) :
    Writes max buf (NodeType.leaf.toByte :: leafPreimage k v) (serializeLeaf max buf k v) := by
  have hbytes : (NodeType.leaf.toByte :: leafPreimage k v).length = 53 := by
    rw [List.length_cons, length_leafPreimage]
  have hpush : (buf.push [NodeType.leaf.toByte]).out.length = buf.out.length + 1 := by
    simp [SliceBuf.push]
  rw [serializeLeaf, SliceBuf.room_eq hle hmax]
  split
  · exact .false_of_lt (by omega)
  · dsimp only
    rw [SliceBuf.room_eq (by omega) hmax]
    split
    · exact .false_of_lt (by omega)
    · exact ⟨⟨fun _ ↦ by omega, fun _ ↦ rfl⟩, fun _ ↦ by simp [SliceBuf.push]⟩

theorem writes_serializeBranch (hle : buf.out.length ≤ max) (hmax : max < 2 ^ 32) (key : UInt160)
    (bits : ℕ) : Writes max buf (NodeType.branch.toByte :: UInt8.ofNat bits :: leBytes 20 key.toNat)
      (serializeBranch max buf key bits) := by
  have hbytes : (NodeType.branch.toByte :: UInt8.ofNat bits :: leBytes 20 key.toNat).length = 22 :=
    by simp
  rw [serializeBranch, SliceBuf.room_eq hle hmax]
  split
  · exact .false_of_lt (by omega)
  · exact ⟨⟨fun _ ↦ by omega, fun _ ↦ rfl⟩, fun _ ↦ rfl⟩

theorem Writes.node {key : UInt160} {bits : ℕ} {l r : TrieNode} {c : NodeCache}
    {buf₀ buf₁ : SliceBuf} {res : Bool × SliceBuf}
    (hbranch : Writes max buf (NodeType.branch.toByte :: UInt8.ofNat bits :: leBytes 20 key.toNat)
      (true, buf₀))
    (hl : Writes max buf₀ (encode l) (true, buf₁)) (hr : Writes max buf₁ (encode r) res) :
    Writes max buf (encode (.node c key bits l r)) res := by
  have h₀ := hbranch.out_eq rfl
  have h₁ := hl.out_eq rfl
  have hout : buf₁.out ++ encode r = buf.out ++ encode (.node c key bits l r) := by
    rw [h₁, h₀, encode]
    simp
  refine ⟨?_, fun hok ↦ (hr.out_eq hok).trans hout⟩
  rw [hr.fits_iff, ← List.length_append, hout, List.length_append]

theorem Writes.lt_of_false
    (h : Writes max buf bytes (false, buf')) : max < buf.out.length + bytes.length :=
  Nat.lt_of_not_le fun hle ↦ Bool.false_ne_true (h.fits_iff.mpr hle)

theorem Writes.length_le (h : Writes max buf bytes (true, buf')) : buf'.out.length ≤ max := by
  rw [h.out_eq rfl, List.length_append]
  exact h.fits_iff.mp rfl

/-- `SubTrie` for the range of all keys writes the whole trie, if there is room for it. -/
theorem subTrie_all (hmax : max < 2 ^ 32) : ∀ {t : TrieNode} {d : ℕ} {p ckey : UInt160} {bits : ℕ}
    {buf : SliceBuf}, t.Canon d p → buf.out.length ≤ max →
    ∃ res : Bool × SliceBuf, subTrie H 0 (BitVec.allOnes 160) max t ckey bits false buf
      = .ok (res.1, res.2, t) ∧ Writes max buf (encode t) res := by
  intro t
  induction t with
  | leaf c k v =>
    intro d p ckey bits buf _ hle
    have hwrites := @writes_serializeLeaf max { buf with nodes := buf.nodes + 1 } hle hmax k v
    exact ⟨_, by rw [subTrie]; rfl, hwrites.fits_iff, hwrites.out_eq⟩
  | node c key nbits l r ihl ihr =>
    rintro d p ckey bits buf ⟨-, -, hl, hr⟩ hle
    have hbranch := writes_serializeBranch hle hmax key nbits
    have hleft : ∀ x : UInt160, decide (x < 0 &&& highMask (bits + nbits)) = false := by
      intro x
      refine decide_eq_false (BitVec.not_lt.mpr ?_)
      exact BitVec.le_trans (and_le 0 _) (Nat.zero_le x.toNat)
    have hright : ∀ x : UInt160, decide (x > BitVec.allOnes 160) = false := by
      intro x
      refine decide_eq_false (Nat.not_lt.mpr ?_)
      rw [BitVec.toNat_allOnes]
      exact Nat.le_sub_one_of_lt x.isLt
    rw [subTrie]
    dsimp only
    rw [hleft, hleft, hright, Bool.or_false]
    rcases hserialize : serializeBranch max buf key nbits with ⟨_ | _, buf₀⟩
    · rw [hserialize] at hbranch
      refine ⟨(false, buf₀), rfl, .false_of_lt ?_⟩
      have hlt := hbranch.lt_of_false
      simp only [encode, List.length_cons, List.length_append, length_leBytes] at hlt ⊢
      omega
    · rw [hserialize] at hbranch
      obtain ⟨⟨_ | _, buf₁⟩, hsubL, hwritesL⟩ := @ihl _ _ (ckey ||| key) (bits + nbits + 1) buf₀ hl
        hbranch.length_le
      · refine ⟨(false, buf₁), ?_, .false_of_lt ?_⟩
        · simp only [hsubL]
          rfl
        · have hlt := hwritesL.lt_of_false
          rw [hbranch.out_eq rfl] at hlt
          simp only [encode, List.length_cons, List.length_append, length_leBytes] at hlt ⊢
          omega
      · obtain ⟨res, hsubR, hwritesR⟩ := @ihr _ _
          (ckey ||| key ||| shl 1 (sub32 (sub32 160 (bits + nbits)) 1)) (bits + nbits + 1) buf₁ hr
          hwritesL.length_le
        refine ⟨res, ?_, .node hbranch hwritesL hwritesR⟩
        simp only [hsubL]
        change (subTrie H 0 _ max r _ _ false buf₁).bind _ = _
        rw [hsubR]
        rfl
  | stub h => exact fun hcanon ↦ hcanon.elim

/-! ## From `Flush` to the constructor -/

variable {view view' : TrieView} {dir dir' : DataDir} {t : TrieNode}

theorem trie_of_flush {disk : FlushDisk} (hroot : view.root = some t) (hcanon : t.Canon 0 0)
    (h : flush H crc disk view dir = .ok (true, view', dir')) :
    (encode t).length < 2 ^ 32 ∧ dir'.trie = some (trieFile crc view.bestBlock (encode t)) := by
  have hmax : (children t).toNat * 200 % 2 ^ 64 % 2 ^ 32 < 2 ^ 32 :=
    Nat.mod_lt _ (by decide)
  obtain ⟨⟨ok, buf⟩, hsub, hwrites⟩ := @subTrie_all H _ hmax t 0 0 0 0 ⟨[], 0⟩ hcanon
    (Nat.zero_le _)
  rw [flush, hroot] at h
  dsimp only at h
  rw [hsub] at h
  split at h
  · simp [pure, Except.pure] at h
  · dsimp only [bind, Except.bind] at h
    split at h
    · simp [pure, Except.pure] at h
    · next hok =>
      obtain rfl : ok = true := by simp_all
      split at h
      · simp [pure, Except.pure] at h
      · split at h
        · simp [pure, Except.pure] at h
        · obtain ⟨-, rfl⟩ : _ ∧ _ = dir' := by simpa [pure, Except.pure] using h
          have hfits := hwrites.fits_iff.mp rfl
          have hout := hwrites.out_eq rfl
          rw [List.nil_append] at hout
          exact ⟨by rw [List.length_nil, Nat.zero_add] at hfits; exact hfits.trans_lt hmax,
            by rw [← hout]⟩

theorem readTrieFile_trieFile {bestBlock : UInt256} {payload : List UInt8}
    (hpos : 0 < payload.length) (hlt : payload.length < 2 ^ 32) :
    readTrieFile crc true (trieFile crc bestBlock payload) =
      if 64 * 1024 * 1024 < payload.length then .error .badLength
      else match deserialize payload with
        | none => .error .deserializeFailed
        | some root => .ok ⟨some root, bestBlock⟩ := by
  have hlen : (UInt32.ofNat payload.length).toNat = payload.length :=
    UInt32.toNat_ofNat_of_lt' hlt
  have hsize : leNat (leBytes 4 payload.length) = payload.length := leNat_leBytes_of_lt hlt
  have hcrc : ∀ c : UInt32, UInt32.ofNat (leNat (leBytes 4 c.toNat)) = c := fun c ↦ by
    rw [leNat_leBytes_of_lt (by exact c.toNat_lt), UInt32.ofNat_toNat]
  have hbest : BitVec.ofNat 256 (leNat (leBytes 32 bestBlock.toNat)) = bestBlock := by
    rw [leNat_leBytes_of_lt (by exact bestBlock.isLt), BitVec.ofNat_toNat, BitVec.setWidth_eq]
  rw [trieFile, hlen, List.take_length]
  generalize hbody : leBytes TRIE_BESTBLOCK_LEN bestBlock.toNat ++ payload = body
  generalize hhdr : TRIE_FILE_MAGIC ++ leBytes 4 TRIE_FILE_VERSION ++ leBytes 4 payload.length ++
    leBytes 4 (mask (crc body)).toNat = hdr
  have hlenHdr : hdr.length = TRIE_FILE_HEADER_LEN := by
    rw [← hhdr]
    simp [TRIE_FILE_MAGIC, TRIE_FILE_HEADER_LEN]
  have hlenBody : body.length = TRIE_BESTBLOCK_LEN + payload.length := by
    rw [← hbody, List.length_append, length_leBytes]
  have hmagic : hdr.take 4 = TRIE_FILE_MAGIC := by
    rw [← hhdr]
    rfl
  have hversion : leNat ((hdr.drop 4).take 4) = TRIE_FILE_VERSION := by
    rw [← hhdr]
    rfl
  have hlenWord : leNat ((hdr.drop 8).take 4) = payload.length := by
    rw [← hhdr, List.append_assoc, List.drop_left' (by rfl), List.take_left' (by simp), hsize]
  have hcrcWord : UInt32.ofNat (leNat ((hdr.drop 12).take 4)) = mask (crc body) := by
    rw [← hhdr, List.drop_left' (by simp [TRIE_FILE_MAGIC]), List.take_of_length_le (by simp), hcrc]
  rw [readTrieFile]
  dsimp only
  rw [List.take_left' hlenHdr, List.drop_left' hlenHdr, if_neg (not_not.mpr hlenHdr),
    if_neg (not_not.mpr hmagic), if_neg (not_not.mpr hversion), hlenWord, hcrcWord, unmask_mask,
    ← hlenBody, List.take_length, if_neg (not_not.mpr rfl), if_neg (not_not.mpr rfl)]
  split
  · next hbound => rw [if_pos (hbound.resolve_left hpos.ne')]
  · next hbound =>
    rw [if_neg fun h ↦ hbound (.inr h), ← hbody, List.drop_left' (by simp [TRIE_BESTBLOCK_LEN]),
      List.take_left' (by simp [TRIE_BESTBLOCK_LEN]), TRIE_BESTBLOCK_LEN, hbest]
    rfl

theorem TrieView.new_eq {disk : LoadDisk} {file : List UInt8} (hfile : dir.trie = some file)
    (hopen : disk.fopen = true) :
    (TrieView.new crc disk dir).1 = match readTrieFile crc disk.malloc file with
      | .ok view => view
      | .error _ => .unbuilt := by
  rw [TrieView.new]
  simp only [hfile, hopen]
  split <;> rfl

/-- A view that has the block, the accounts and the root hash of another. -/
structure Restores (H : List UInt8 → UInt256) (view loaded : TrieView) : Prop where
  bestBlock : loaded.bestBlock = view.bestBlock
  accts : accounts loaded.root = accounts view.root
  hash : loaded.root.map (fun t ↦ (TrieNode.hash H t).1)
    = view.root.map (fun t ↦ (TrieNode.hash H t).1)

theorem not_restores_unbuilt (hroot : view.root = some t) (hcanon : t.Canon 0 0) :
    ¬Restores H view .unbuilt := by
  intro h
  obtain ⟨k, v, hk⟩ := hcanon.exists_entry
  have haccts := congrFun h.accts k
  rw [hroot, accounts, hk] at haccts
  simp [TrieView.unbuilt, accounts] at haccts

theorem restores_decoded (hroot : view.root = some t) (hcanon : t.Canon 0 0)
    (hcoherent : Coherent H t) {loaded : TrieNode}
    (hloaded : deserialize (encode t) = some loaded) :
    Restores H view ⟨some loaded, view.bestBlock⟩ := by
  have herase : loaded.erase = t.erase := by
    have hread := deserialize_encode (blank_blank hcanon)
    rw [encode_blank, hloaded, Option.some.injEq] at hread
    rw [hread, erase_findChildren, erase_blank]
  have hdigest : (hash H loaded).1 = (hash H t).1 := by
    rw [((received_of_deserialize hloaded).coherent.hash_spec).1, (hcoherent.hash_spec).1,
      ← digest_erase, herase, digest_erase]
  refine ⟨rfl, ?_, ?_⟩
  · rw [hroot]
    exact Trie.toMap_congr herase
  · rw [hroot]
    exact congrArg some hdigest

/-- **Snapshots.** A trie that `Flush` has written is read back, with its block, its accounts and
its hash, exactly when it has at most 894785 accounts. -/
theorem snapshot_restored_iff {flushDisk : FlushDisk} {loadDisk : LoadDisk}
    (hroot : view.root = some t) (hcanon : t.Canon 0 0) (hcoherent : TrieNode.Coherent H t)
    (hflush : flush H crc flushDisk view dir = .ok (true, view', dir'))
    (hopen : loadDisk.fopen = true) (hmalloc : loadDisk.malloc = true) :
    Restores H view (TrieView.new crc loadDisk dir').1 ↔ t.leaves.length ≤ 894785 := by
  obtain ⟨hlt, htrie⟩ := trie_of_flush hroot hcanon hflush
  have hpos : 0 < (encode t).length := (Nat.succ_pos 32).trans_le (length_encode_ge t)
  have hlength := length_encode hcanon
  rw [TrieView.new_eq htrie hopen, hmalloc, readTrieFile_trieFile hpos hlt]
  by_cases hbound : 64 * 1024 * 1024 < (encode t).length
  · rw [if_pos hbound]
    exact ⟨fun h ↦ absurd h (not_restores_unbuilt hroot hcanon), fun h ↦ by omega⟩
  · have hread := deserialize_encode (blank_blank hcanon)
    rw [encode_blank] at hread
    rw [if_neg hbound, hread]
    exact ⟨fun _ ↦ by omega, fun _ ↦ restores_decoded hroot hcanon hcoherent hread⟩

/-! ## Runs -/

/-- Nothing fails while `Flush` runs. -/
def FlushDisk.good : FlushDisk := ⟨true, true, true, 2 ^ 40, true, true⟩

/-- Nothing fails while the constructor runs. -/
def LoadDisk.good : LoadDisk := ⟨true, true, true, true, 0⟩

theorem length_trieFile {bestBlock : UInt256} {payload : List UInt8} (h : payload.length < 2 ^ 32) :
    (trieFile crc bestBlock payload).length = 48 + payload.length := by
  have hlen : (UInt32.ofNat payload.length).toNat = payload.length := UInt32.toNat_ofNat_of_lt' h
  simp only [trieFile, hlen, List.take_length, List.length_append, length_leBytes, ← Nat.add_assoc]
  rfl

theorem flush_good (hroot : view.root = some t) (hcanon : t.Canon 0 0)
    (hfits : (encode t).length ≤ (children t).toNat * 200 % 2 ^ 64 % 2 ^ 32) :
    flush H crc .good view dir = .ok (true, view,
      { dir with trie := some (trieFile crc view.bestBlock (encode t)), tmp := none }) := by
  have hmax : (children t).toNat * 200 % 2 ^ 64 % 2 ^ 32 < 2 ^ 32 :=
    Nat.mod_lt _ (by decide)
  obtain ⟨⟨ok, buf⟩, hsub, hwrites⟩ := @subTrie_all H _ hmax t 0 0 0 0 ⟨[], 0⟩ hcanon
    (Nat.zero_le _)
  obtain rfl : ok = true := hwrites.fits_iff.mpr (by simpa using hfits)
  have hout : buf.out = encode t := hwrites.out_eq rfl
  have hlt := hfits.trans_lt hmax
  have hwritten : ¬FlushDisk.good.fwrite < (trieFile crc view.bestBlock (encode t)).length := by
    rw [length_trieFile hlt]
    exact Nat.not_lt.mpr ((Nat.add_le_add_left hlt.le 48).trans (by decide))
  obtain ⟨root, bestBlock⟩ := view
  obtain rfl : root = some t := hroot
  rw [flush]
  dsimp only
  rw [hsub]
  dsimp only [bind, Except.bind]
  rw [hout, if_neg hwritten]
  rfl

theorem children_eq {t : TrieNode} : ∀ {d : ℕ} {p : UInt160}, t.Canon d p → Counted t →
    children t = UInt64.ofNat t.leaves.length := by
  induction t with
  | leaf c k v => exact fun _ h ↦ h
  | node c key bits l r ihl ihr =>
    rintro d p ⟨-, -, hl, hr⟩ ⟨hchildren, hcl, hcr⟩
    rw [children, hchildren, ihl hl hcl, ihr hr hcr, Trie.leaves, List.length_append,
      UInt64.ofNat_add]
  | stub h => exact fun hcanon ↦ hcanon.elim

theorem length_leaves (t : TrieNode) : t.leaves.length = t.sumBy fun _ ↦ 1 := by
  induction t with
  | leaf c k v => rfl
  | node c key bits l r ihl ihr => rw [Trie.leaves, List.length_append, ihl, ihr, Trie.sumBy]
  | stub h => rfl

/-- There are tries of every size. -/
theorem exists_valid (n : ℕ) (hn : n < 2 ^ 160) :
    ∃ t, Valid H t ∧ Counted t ∧ t.leaves.length = n + 1 := by
  induction n with
  | zero => exact ⟨_, valid_leaf (TrieEngine.insertable_new 0 .init), rfl, rfl⟩
  | succ n ih =>
    obtain ⟨t, hvalid, hcounted, hlength⟩ := ih ((Nat.lt_succ_self n).trans hn)
    obtain ⟨k, hk⟩ := @exists_key_notMem 160 (t.leaves.map Prod.fst) (by
      rwa [List.length_map, hlength])
    have hnone : accounts (some t) k = none := by
      by_contra hne
      obtain ⟨v, hv⟩ := Option.ne_none_iff_exists'.mp hne
      exact hk (List.mem_map.mpr ⟨(k, v),
        (hvalid.canon.mem_leaves_iff (supportedIn_zero 0 0)).mpr hv, rfl⟩)
    have hnew : TrieEngine.Insertable H (.new k .init) := TrieEngine.insertable_new k .init
    obtain ⟨t', hinsert, hvalid', hmap⟩ := insert_spec (validRoot_some.mpr hvalid) hnew hnone
    have hcounted' := TrieEngine.counted_insert (by rintro _ ⟨⟩; exact hcounted) hnew.2 hinsert
    have htally := tally_update (fun _ : AccountData ↦ 1) (accounts (some t)) k (some .init)
    rw [hnone, Option.elim_none, Option.elim_some, Nat.add_zero] at htally
    refine ⟨t', hvalid', hcounted', ?_⟩
    rw [length_leaves, hvalid.canon.sumBy_eq_tally _ (supportedIn_zero 0 0)] at hlength
    rw [length_leaves, hvalid'.canon.sumBy_eq_tally _ (supportedIn_zero 0 0), hmap, ← hlength]
    simpa only [Leaf.new, accounts] using htally

/-- A trie of two accounts is restored. -/
theorem snapshot_restored_two : ∃ dir',
    flush Sha256.sha256d crc32c .good ⟨some twoAccounts, 100⟩ ⟨none, none, []⟩
      = .ok (true, ⟨some twoAccounts, 100⟩, dir') ∧
    Restores Sha256.sha256d ⟨some twoAccounts, 100⟩ (TrieView.new crc32c .good dir').1 := by
  have hvalid := valid_twoAccounts
  have hflush := @flush_good Sha256.sha256d crc32c ⟨some twoAccounts, 100⟩ ⟨none, none, []⟩
    twoAccounts rfl hvalid.canon (by decide +kernel)
  exact ⟨_, hflush, (snapshot_restored_iff rfl hvalid.canon hvalid.coherent hflush rfl rfl).mpr
    (by decide)⟩

/-- **A snapshot that is lost.** A trie of 894786 accounts is written, and the node that starts from
the file has no accounts. -/
theorem snapshot_lost : ∃ t dir', Valid Sha256.sha256d t ∧ Counted t ∧
    t.leaves.length = 894786 ∧
    flush Sha256.sha256d crc32c .good ⟨some t, 100⟩ ⟨none, none, []⟩
      = .ok (true, ⟨some t, 100⟩, dir') ∧
    TrieView.new crc32c .good dir'
      = (.unbuilt, ⟨none, none, [("trie.dat.bad-length-0", (dir'.trie).getD [])]⟩) := by
  obtain ⟨t, hvalid, hcounted, hlength⟩ := @exists_valid Sha256.sha256d 894785 (by norm_num)
  have hencode := length_encode hvalid.canon
  have hsize : (encode t).length = 67108928 := by omega
  have hchildren : (children t).toNat = 894786 := by
    rw [children_eq hvalid.canon hcounted, hlength]
    rfl
  have hflush := @flush_good Sha256.sha256d crc32c ⟨some t, 100⟩ ⟨none, none, []⟩ t rfl
    hvalid.canon (by rw [hsize, hchildren]; decide)
  refine ⟨t, _, hvalid, hcounted, hlength, hflush, ?_⟩
  have hread := @readTrieFile_trieFile crc32c 100 (encode t) (by omega) (by omega)
  rw [if_pos (by omega)] at hread
  rw [TrieView.new]
  simp only [hread, LoadDisk.good]
  rfl

end Cryptonite
