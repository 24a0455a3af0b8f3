import Cryptonite.Trie.Decode

/-!
# Decoding from memory

`TrieNode::DeserializeI` of `trie.cpp` is given an address and a size, and moves both along by hand
as it reads. The size is a `uint32_t`; if it were ever less than what has been read, it would wrap
around and the decoder would go on into whatever follows. `deserializeAt` keeps the two as the
source does, over a memory without end.

It computes what `deserializeI` computes on the list of the first `sz` bytes (`deserializeAt_eq`),
where there is nothing to run past. What is known about that decoder then holds of this one: it
returns, it looks at no byte behind the size, and a node ends where it ends, whatever follows.
-/

namespace Cryptonite

open Codec

/-! ## The model -/

/-- What `DeserializeI` leaves: the node, and the number of bytes it returns. Zero bytes mean that
there is no node. -/
structure Decoding where
  node : Option TrieNode
  size : UInt32
  deriving DecidableEq

/-- `return 0`. -/
def Decoding.fail : Decoding := ⟨none, 0⟩

section Model

variable (mem : ℕ → UInt8)

/-- The bytes from an address on. -/
def load (src n : ℕ) : List UInt8 := (List.range n).map fun i ↦ mem (src + i)

/-- `AccountData::DeserializeI`. -/
def deserializeLeafAt (src : ℕ) (sz : UInt32) : Decoding :=
  if sz < 52 then .fail
  else
    let word (i n : ℕ) : ℕ := leNat (load mem (src + i) n)
    ⟨some (.leaf NodeCache.newLeaf (BitVec.ofNat 160 (word 32 20))
      { age := UInt64.ofNat (word 0 8), balance := UInt64.ofNat (word 8 8),
        limit := UInt64.ofNat (word 16 8), futureLimit := UInt64.ofNat (word 24 8) }), 52⟩

/-- A child of a branch: the type byte, and the node. -/
def readChild (decode : NodeType → ℕ → UInt32 → Option Decoding) (src : ℕ) (sz : UInt32) :
    Option Decoding :=
  if sz < 21 then some .fail
  else
    match NodeType.ofByte (mem src) with
    | none => some .fail
    | some type => decode type (src + 1) (sz - 1)

/-- `TrieNode::DeserializeI` on a node of a given type, if no more than `fuel` calls are nested. -/
def deserializeAt : ℕ → NodeType → ℕ → UInt32 → Option Decoding
  | _, .hash, src, sz =>
    if sz < 32 then some .fail
    else some ⟨some (.stub (BitVec.ofNat 256 (leNat (load mem src 32)))), 32⟩
  | _, .leaf, src, sz => some (deserializeLeafAt mem src sz)
  | 0, .branch, _, _ => none
  | fuel + 1, .branch, src, sz =>
    if sz < 23 then some .fail
    else do
      let bits := mem src
      let src := src + 1
      let sz := sz - 1
      let key := BitVec.ofNat 160 (leNat (load mem src 20))
      let src := src + 20
      let sz := sz - 20
      let left ← readChild mem (deserializeAt fuel) src sz
      if left.size = 0 then some .fail
      else
        let sz := sz - 1 - left.size
        let src := src + 1 + left.size.toNat
        let right ← readChild mem (deserializeAt fuel) src sz
        if right.size = 0 then some .fail
        else some ⟨left.node.bind fun l ↦ right.node.map fun r ↦
          .node NodeCache.newBranch key bits.toNat l r, 23 + left.size + right.size⟩

/-- `TrieNode::Deserialize`. -/
def deserializeFrom (fuel src : ℕ) (sz : UInt32) : Option (Option TrieNode) :=
  if sz < 33 then some none
  else
    match NodeType.ofByte (mem src) with
    | none => some none
    | some type => do
      let ret ← deserializeAt mem fuel type (src + 1) (sz - 1)
      if ret.size = 0 then some none
      else some (ret.node.map fun t ↦ (findChildren t).2)

end Model

/-! ## Bytes in memory -/

section Load

variable {mem mem' : ℕ → UInt8} {src src' n : ℕ}

@[simp] theorem length_load : (load mem src n).length = n := by simp [load]

theorem load_succ : load mem src (n + 1) = mem src :: load mem (src + 1) n := by
  rw [load, List.range_succ_eq_map, List.map_cons, List.map_map]
  refine congrArg (mem src :: ·) (List.map_congr_left fun i _ ↦ ?_)
  exact congrArg mem (by rw [Nat.succ_eq_add_one]; omega)

theorem load_add (m : ℕ) : load mem src (m + n) = load mem src m ++ load mem (src + m) n := by
  rw [load, List.range_add, List.map_append, List.map_map]
  exact congrArg _ (List.map_congr_left fun i _ ↦ congrArg mem (Nat.add_assoc _ _ _).symm)

theorem drop_load {k : ℕ} (hk : k ≤ n) : (load mem src n).drop k = load mem (src + k) (n - k) := by
  obtain ⟨m, rfl⟩ := Nat.exists_eq_add_of_le hk
  rw [load_add, Nat.add_sub_cancel_left]
  exact List.drop_left' length_load

theorem take_load {k : ℕ} (hk : k ≤ n) : (load mem src n).take k = load mem src k := by
  obtain ⟨m, rfl⟩ := Nat.exists_eq_add_of_le hk
  rw [load_add]
  exact List.take_left' length_load

theorem headD_load (hn : 0 < n) : (load mem src n).headD 0 = mem src := by
  obtain ⟨m, rfl⟩ := Nat.exists_eq_add_of_le' hn
  rw [load_succ]
  rfl

theorem tail_load : (load mem src n).tail = load mem (src + 1) (n - 1) := by
  rcases n with _ | n
  · rfl
  · rw [load_succ]
    rfl

theorem load_congr (h : ∀ i < n, mem' (src' + i) = mem (src + i)) :
    load mem' src' n = load mem src n :=
  List.map_congr_left fun i hi ↦ h i (List.mem_range.mp hi)

end Load

/-! ## The decoder on a list -/

/-- The result of the decoder on a list, as `DeserializeI` leaves it. -/
def Decoding.of (result : Option (TrieNode × ℕ)) : Decoding :=
  result.elim .fail fun r ↦ ⟨some r.1, UInt32.ofNat r.2⟩

theorem Reads.size_pos {type : NodeType} {src : List UInt8} {t : TrieNode} {n : ℕ}
    (h : Reads type src t n) : 0 < n := by
  rcases h with h | _ | _
  · rw [deserializeLeaf] at h
    split at h
    · cases h
    · have hn : 52 = n := congrArg Prod.snd (Option.some.inj h)
      omega
  · omega
  · omega

/-- A child of a branch, on a list. -/
def childOf (decode : NodeType → List UInt8 → Option (TrieNode × ℕ)) (src : List UInt8) :
    Option (TrieNode × ℕ) :=
  if src.length < 21 then none
  else (NodeType.ofByte (src.headD 0)).bind fun type ↦ decode type src.tail

theorem deserializeI_branch (fuel : ℕ) (src : List UInt8) : deserializeI (fuel + 1) .branch src =
    if src.length < 23 then none
    else (childOf (deserializeI fuel) (src.drop 21)).bind fun l ↦
      (childOf (deserializeI fuel) ((src.drop 21).tail.drop l.2)).map fun r ↦
        (.node NodeCache.newBranch (BitVec.ofNat 160 (leNat ((src.drop 1).take 20)))
          (src.headD 0).toNat l.1 r.1, 23 + l.2 + r.2) := by
  rw [deserializeI, childOf]
  split
  · rfl
  · dsimp only
    split
    · rfl
    · rw [Option.bind_assoc]
      refine Option.bind_congr fun type _ ↦ Option.bind_congr fun l _ ↦ ?_
      rw [childOf]
      split
      · rfl
      · rw [Option.map_bind]
        refine Option.bind_congr fun type' _ ↦ ?_
        rw [Function.comp_apply, Option.map_eq_bind]
        rfl

theorem size_of_childOf {fuel : ℕ} {src : List UInt8} {r : TrieNode × ℕ}
    (h : childOf (deserializeI fuel) src = some r) : 0 < r.2 ∧ r.2 + 1 ≤ src.length := by
  rw [childOf] at h
  split at h
  · cases h
  · obtain ⟨type, -, h⟩ := Option.bind_eq_some_iff.mp h
    have hreads := reads_of_deserializeI (t := r.1) (n := r.2) h
    have hle := (hreads.append []).1
    rw [List.length_tail] at hle
    exact ⟨hreads.size_pos, by omega⟩

section Refinement

variable {mem mem' : ℕ → UInt8} {src src' fuel fuel' : ℕ} {type : NodeType} {sz sz' : UInt32}

theorem toNat_sub_of_toNat_le {a b : UInt32} (h : b.toNat ≤ a.toNat) :
    (a - b).toNat = a.toNat - b.toNat :=
  UInt32.toNat_sub_of_le _ _ (UInt32.le_iff_toNat_le.mpr h)

theorem size_of_some {n : ℕ} (hpos : 0 < n) (hle : n ≤ sz.toNat) (t : TrieNode) :
    (Decoding.of (some (t, n))).size ≠ 0 ∧ (Decoding.of (some (t, n))).size.toNat = n := by
  have htoNat : (UInt32.ofNat n).toNat = n :=
    UInt32.toNat_ofNat_of_lt' (hle.trans_lt sz.toNat_lt)
  refine ⟨fun hzero ↦ ?_, htoNat⟩
  rw [show UInt32.ofNat n = 0 from hzero] at htoNat
  exact hpos.ne htoNat

theorem deserializeLeafAt_eq :
    deserializeLeafAt mem src sz = Decoding.of (deserializeLeaf (load mem src sz.toNat)) := by
  rw [deserializeLeafAt, deserializeLeaf, length_load]
  by_cases hsz : sz.toNat < 52
  · rw [if_pos (UInt32.lt_iff_toNat_lt.mpr hsz), if_pos hsz]
    rfl
  · have hword : ∀ i n, i + n ≤ 52 →
        ((load mem src sz.toNat).drop i).take n = load mem (src + i) n := by
      intro i n hin
      rw [drop_load (by omega), take_load (by omega)]
    rw [if_neg (fun h ↦ hsz (UInt32.lt_iff_toNat_lt.mp h)), if_neg hsz]
    dsimp only
    rw [hword 0 8 (by omega), hword 8 8 (by omega), hword 16 8 (by omega), hword 24 8 (by omega),
      hword 32 20 (by omega)]
    rfl

theorem readChild_eq (hfuel : sz.toNat ≤ fuel)
    (ih : ∀ {type : NodeType} {src : ℕ} {sz : UInt32}, sz.toNat < fuel →
      deserializeAt mem fuel type src sz =
        some (Decoding.of (deserializeI fuel type (load mem src sz.toNat)))) :
    readChild mem (deserializeAt mem fuel) src sz =
      some (Decoding.of (childOf (deserializeI fuel) (load mem src sz.toNat))) := by
  rw [readChild, childOf, length_load]
  by_cases hsz : sz.toNat < 21
  · rw [if_pos (UInt32.lt_iff_toNat_lt.mpr hsz), if_pos hsz]
    rfl
  · have hone : (1 : UInt32).toNat = 1 := rfl
    have hrest := toNat_sub_of_toNat_le (show (1 : UInt32).toNat ≤ sz.toNat by omega)
    rw [if_neg (fun h ↦ hsz (UInt32.lt_iff_toNat_lt.mp h)), if_neg hsz, headD_load (by omega),
      tail_load]
    rcases NodeType.ofByte (mem src) with _ | type
    · rfl
    · dsimp only [Option.bind_some]
      rw [ih (by omega), hrest, hone]

/-- **The size is tracked correctly.** On the address and the size the decoder computes what it
computes on the list of the bytes, if the recursion may be deeper than there are bytes. -/
theorem deserializeAt_eq (hfuel : sz.toNat < fuel) : deserializeAt mem fuel type src sz =
    some (Decoding.of (deserializeI fuel type (load mem src sz.toNat))) := by
  induction fuel generalizing type src sz with
  | zero => exact absurd hfuel (Nat.not_lt_zero _)
  | succ fuel ih =>
    rcases type with _ | _ | _
    · rw [deserializeAt, deserializeI, deserializeLeafAt_eq]
    · rw [deserializeAt, deserializeI_branch, length_load]
      by_cases hsz : sz.toNat < 23
      · rw [if_pos (UInt32.lt_iff_toNat_lt.mpr hsz), if_pos hsz]
        rfl
      have hone : (1 : UInt32).toNat = 1 := rfl
      have htwenty : (20 : UInt32).toNat = 20 := rfl
      have hsz₁ := toNat_sub_of_toNat_le (show (1 : UInt32).toNat ≤ sz.toNat by omega)
      have hsz₂ := toNat_sub_of_toNat_le (show (20 : UInt32).toNat ≤ (sz - 1).toNat by omega)
      have hrest : (sz - 1 - 20).toNat = sz.toNat - 21 := by omega
      rw [if_neg (fun h ↦ hsz (UInt32.lt_iff_toNat_lt.mp h)), if_neg hsz, headD_load (by omega),
        drop_load (by omega), drop_load (by omega), take_load (by omega), tail_load]
      dsimp only
      rw [readChild_eq (by omega) ih, hrest]
      -- the left child
      rcases hl : childOf (deserializeI fuel) (load mem (src + 21) (sz.toNat - 21)) with _ | ⟨l, nl⟩
      · rfl
      obtain ⟨hposL, hleL⟩ := size_of_childOf hl
      dsimp only at hposL hleL
      rw [length_load] at hleL
      obtain ⟨hneL, hnl⟩ := @size_of_some sz nl hposL (by omega) l
      dsimp only [bind, Option.bind_some]
      rw [if_neg hneL, hnl]
      generalize hL : Decoding.of (some (l, nl)) = left at hneL hnl
      have hsz₃ := toNat_sub_of_toNat_le (show (1 : UInt32).toNat ≤ (sz - 1 - 20).toNat by omega)
      have hsz₄ := toNat_sub_of_toNat_le (show left.size.toNat ≤ (sz - 1 - 20 - 1).toNat by omega)
      have hrestR : (sz - 1 - 20 - 1 - left.size).toNat = sz.toNat - 21 - 1 - nl := by omega
      rw [readChild_eq (by omega) ih, hrestR, drop_load (by omega)]
      -- the right child
      rcases hr : childOf (deserializeI fuel)
        (load mem (src + 21 + 1 + nl) (sz.toNat - 21 - 1 - nl)) with _ | ⟨r, nr⟩
      · rfl
      obtain ⟨hposR, hleR⟩ := size_of_childOf hr
      dsimp only at hposR hleR
      rw [length_load] at hleR
      obtain ⟨hneR, hnr⟩ := @size_of_some sz nr hposR (by omega) r
      dsimp only [bind, Option.bind_some, Option.map_some]
      rw [if_neg hneR, ← hL]
      refine congrArg (fun n ↦ some (Decoding.mk _ n)) ?_
      rw [Decoding.of, Decoding.of, Option.elim_some, Option.elim_some, UInt32.ofNat_add,
        UInt32.ofNat_add]
      rfl
    · rw [deserializeAt, deserializeI, length_load]
      by_cases hsz : sz.toNat < 32
      · rw [if_pos (UInt32.lt_iff_toNat_lt.mpr hsz), if_pos hsz]
        rfl
      · rw [if_neg (fun h ↦ hsz (UInt32.lt_iff_toNat_lt.mp h)), if_neg hsz, take_load (by omega)]
        rfl

theorem deserializeI_eq_deserializeI {bytes : List UInt8} (hfuel : bytes.length ≤ fuel)
    (hfuel' : bytes.length ≤ fuel') :
    deserializeI fuel type bytes = deserializeI fuel' type bytes :=
  Option.ext fun r ↦ (deserializeI_eq_some_iff (t := r.1) (n := r.2) hfuel).trans
    (deserializeI_eq_some_iff hfuel').symm

/-- `Deserialize` on an address and a size is `Deserialize` on the list of the bytes. -/
theorem deserializeFrom_eq (hfuel : sz.toNat ≤ fuel) :
    deserializeFrom mem fuel src sz = some (deserialize (load mem src sz.toNat)) := by
  rw [deserializeFrom, deserialize, length_load]
  by_cases hsz : sz.toNat < 33
  · rw [if_pos (UInt32.lt_iff_toNat_lt.mpr hsz), if_pos hsz]
  · have hone : (1 : UInt32).toNat = 1 := rfl
    have hrest := toNat_sub_of_toNat_le (show (1 : UInt32).toNat ≤ sz.toNat by omega)
    rw [if_neg (fun h ↦ hsz (UInt32.lt_iff_toNat_lt.mp h)), if_neg hsz, headD_load (by omega),
      tail_load, length_load]
    rcases NodeType.ofByte (mem src) with _ | type
    · rfl
    · dsimp only [bind, Option.bind_some]
      rw [deserializeAt_eq (by omega), hrest, hone, @deserializeI_eq_deserializeI fuel
        (sz.toNat - 1) type _ (by rw [length_load]; omega) (by rw [length_load])]
      rcases hresult : deserializeI (sz.toNat - 1) type (load mem (src + 1) (sz.toNat - 1))
        with _ | ⟨t, n⟩
      · rfl
      · have hreads := reads_of_deserializeI hresult
        have hle := (hreads.append []).1
        rw [length_load] at hle
        dsimp only [Option.bind_some]
        rw [if_neg (@size_of_some sz n hreads.size_pos (by omega) t).1]
        rfl

theorem decoding_cases (fuel : ℕ) (type : NodeType) (mem : ℕ → UInt8) (src : ℕ) (sz : UInt32) :
    deserializeI fuel type (load mem src sz.toNat) = none ∨ ∃ t n,
      deserializeI fuel type (load mem src sz.toNat) = some (t, n) ∧ n ≤ sz.toNat ∧
        (Decoding.of (some (t, n))).size ≠ 0 ∧ (Decoding.of (some (t, n))).size.toNat = n := by
  rcases hresult : deserializeI fuel type (load mem src sz.toNat) with _ | ⟨t, n⟩
  · exact .inl rfl
  · have hreads := reads_of_deserializeI hresult
    have hle := (hreads.append []).1
    rw [length_load] at hle
    exact .inr ⟨t, n, rfl, hle, @size_of_some sz n hreads.size_pos hle t⟩

/-- **Robust decoding.** `DeserializeI` returns, whatever it finds in memory, and what it returns
depends on the bytes within the size only. If it does not return zero, it has made a node and
consumed no more than the size, and with a larger size and anything behind the bytes it makes the
same node and consumes as much. -/
theorem deserializeAt_robust (mem : ℕ → UInt8) (type : NodeType) (src : ℕ) (sz : UInt32) :
    ∃ result : Decoding,
      (∀ mem' src', (∀ i < sz.toNat, mem' (src' + i) = mem (src + i)) →
        ∀ fuel, sz.toNat < fuel → deserializeAt mem' fuel type src' sz = some result) ∧
      result.size ≤ sz ∧ (result.size ≠ 0 ↔ result.node.isSome = true) ∧
      (result.size ≠ 0 → ∀ mem' src' sz', (∀ i < sz.toNat, mem' (src' + i) = mem (src + i)) →
        sz ≤ sz' → ∀ fuel, sz'.toNat < fuel →
          deserializeAt mem' fuel type src' sz' = some result) := by
  refine ⟨Decoding.of (deserializeI sz.toNat type (load mem src sz.toNat)), ?_, ?_⟩
  · intro mem' src' hsame fuel hfuel
    rw [deserializeAt_eq hfuel, load_congr hsame, @deserializeI_eq_deserializeI fuel sz.toNat type _
      (by rw [length_load]; exact hfuel.le) (by rw [length_load])]
  · obtain hnone | ⟨t, n, hsome, hle, hne, hn⟩ := decoding_cases sz.toNat type mem src sz
    · rw [hnone]
      exact ⟨UInt32.le_iff_toNat_le.mpr (Nat.zero_le _), by simp [Decoding.of, Decoding.fail],
        fun hne ↦ absurd rfl hne⟩
    · rw [hsome]
      refine ⟨UInt32.le_iff_toNat_le.mpr (hn.trans_le hle), iff_of_true hne rfl, ?_⟩
      intro _ mem' src' sz' hsame hsz fuel hfuel
      obtain ⟨m, hm⟩ := Nat.exists_eq_add_of_le (UInt32.le_iff_toNat_le.mp hsz)
      -- the bytes behind the old size are of no consequence
      have hreads := (reads_of_deserializeI hsome).append (load mem' (src' + sz.toNat) m)
      rw [← load_congr hsame, ← load_add, ← hm] at hreads
      rw [deserializeAt_eq hfuel, hreads.2.deserializeI_eq (by rw [length_load]; exact hfuel.le)]

end Refinement

end Cryptonite
