import Cryptonite.Foundation.LittleEndian

/-!
# Reading a byte stream, and encodings that can be read back

A serialized record is the concatenation of its fields, and nothing marks where one ends and the
next begins. What makes the whole determine the parts is that each field's encoding can be cut off
the front of any stream: `PrefixFreeOn s enc` says so for the values in `s`. The rules build such
encodings from smaller ones, a fixed-width number at the bottom, pairs and counted lists above it;
an encoding with a reader that inverts it needs no rule at all (`PrefixFreeOn.of_read`).

A reader may accept more than what is written: another form of the same value. `Inverts` says that
it does not, so that what it accepts is what would be written for what it returns.
-/

namespace Codec

variable {α β γ : Type*}

/-! ## Readers -/

/-- Take `n` bytes off a stream; nothing if there are fewer. -/
def readBytes (n : ℕ) (src : List UInt8) : Option (List UInt8 × List UInt8) :=
  if n ≤ src.length then some (src.take n, src.drop n) else none

/-- A little-endian number of `n` bytes. -/
def readNat (n : ℕ) (src : List UInt8) : Option (ℕ × List UInt8) :=
  (readBytes n src).map (Prod.map leNat id)

/-- `n` items, one after the other. -/
def readMany (read : List UInt8 → Option (α × List UInt8)) :
    ℕ → List UInt8 → Option (List α × List UInt8)
  | 0, src => some ([], src)
  | n + 1, src => do
    let (a, src) ← read src
    let (as, src) ← readMany read n src
    some (a :: as, src)

theorem readBytes_append {bs r : List UInt8} : readBytes bs.length (bs ++ r) = some (bs, r) := by
  rw [readBytes, if_pos (by rw [List.length_append]; exact Nat.le_add_right _ _),
    List.take_left, List.drop_left]

theorem readNat_leBytes {n x : ℕ} (h : x < 256 ^ n) (r : List UInt8) :
    readNat n (leBytes n x ++ r) = some (x, r) := by
  have hread : readBytes n (leBytes n x ++ r) = some (leBytes n x, r) := by
    simpa only [length_leBytes] using @readBytes_append (leBytes n x) r
  rw [readNat, hread, Option.map_some, Prod.map_apply, leNat_leBytes_of_lt h, id]

variable {as : List α} {n : ℕ} {src r : List UInt8} {read : List UInt8 → Option (α × List UInt8)}

theorem readMany_flatMap {read : List UInt8 → Option (β × List UInt8)} {enc : α → List UInt8}
    {f : α → β} (h : ∀ a ∈ as, ∀ r, read (enc a ++ r) = some (f a, r)) (r : List UInt8) :
    readMany read as.length (as.flatMap enc ++ r) = some (as.map f, r) := by
  induction as with
  | nil => rfl
  | cons a as ih =>
    rw [List.forall_mem_cons] at h
    rw [List.length_cons, List.flatMap_cons, List.append_assoc, readMany, h.1]
    simp only [Option.bind_eq_bind, Option.bind_some, ih h.2, List.map_cons]

theorem length_of_readBytes {bs : List UInt8} (h : readBytes n src = some (bs, r)) :
    bs.length = n := by
  rw [readBytes] at h
  split at h
  · next hn =>
    rw [Option.some.injEq, Prod.mk.injEq] at h
    rw [← h.1, List.length_take, Nat.min_eq_left hn]
  · cases h

theorem length_of_readMany (h : readMany read n src = some (as, r)) : as.length = n := by
  induction n generalizing src as with
  | zero =>
    rw [readMany, Option.some.injEq, Prod.mk.injEq] at h
    rw [← h.1, List.length_nil]
  | succ n ih =>
    simp only [readMany, Option.bind_eq_bind, Option.bind_eq_some_iff, Option.some.injEq,
      Prod.mk.injEq, Prod.exists] at h
    obtain ⟨a, src', -, as', r', hrest, rfl, rfl⟩ := h
    rw [List.length_cons, ih hrest]

theorem exists_read_of_mem_readMany (h : readMany read n src = some (as, r)) {a : α}
    (ha : a ∈ as) : ∃ src r, read src = some (a, r) := by
  induction n generalizing src as with
  | zero =>
    rw [readMany, Option.some.injEq, Prod.mk.injEq] at h
    exact absurd (h.1 ▸ ha) List.not_mem_nil
  | succ n ih =>
    simp only [readMany, Option.bind_eq_bind, Option.bind_eq_some_iff, Option.some.injEq,
      Prod.mk.injEq, Prod.exists] at h
    obtain ⟨b, src', hb, as', r', hrest, rfl, rfl⟩ := h
    rcases List.mem_cons.mp ha with rfl | ha
    · exact ⟨src, src', hb⟩
    · exact ih hrest ha

/-! ## Encodings -/

/-- The encodings of the values in `s` can be cut off the front of a stream. -/
def PrefixFreeOn (s : Set α) (enc : α → List β) : Prop :=
  ∀ ⦃a⦄, a ∈ s → ∀ ⦃b⦄, b ∈ s → ∀ r r', enc a ++ r = enc b ++ r' → a = b ∧ r = r'

namespace PrefixFreeOn

variable {s : Set α} {enc f : α → List β} {t : Set γ}

theorem of_read {read : List β → Option (α × List β)}
    (h : ∀ a ∈ s, ∀ r, read (enc a ++ r) = some (a, r)) : PrefixFreeOn s enc := by
  intro a ha b hb r r' heq
  have hread := h a ha r
  rw [heq, h b hb r', Option.some.injEq, Prod.mk.injEq] at hread
  exact ⟨hread.1.symm, hread.2.symm⟩

theorem leBytes (n : ℕ) : PrefixFreeOn {x | x < 256 ^ n} (leBytes n) :=
  of_read fun _ hx r ↦ readNat_leBytes hx r

theorem comp {φ : γ → α} (h : PrefixFreeOn s enc)
    (hmaps : Set.MapsTo φ t s) (hinj : Set.InjOn φ t) : PrefixFreeOn t fun c ↦ enc (φ c) := by
  intro a ha b hb r r' heq
  obtain ⟨hab, hr⟩ := h (hmaps ha) (hmaps hb) r r' heq
  exact ⟨hinj ha hb hab, hr⟩

theorem append {g : γ → List β} (hf : PrefixFreeOn s f)
    (hg : PrefixFreeOn t g) : PrefixFreeOn (s ×ˢ t) fun p ↦ f p.1 ++ g p.2 := by
  rintro ⟨a, c⟩ ⟨ha, hc⟩ ⟨b, d⟩ ⟨hb, hd⟩ r r' heq
  simp only [List.append_assoc] at heq
  obtain ⟨hab, heq⟩ := hf ha hb _ _ heq
  obtain ⟨hcd, hr⟩ := hg hc hd _ _ heq
  exact ⟨Prod.ext hab hcd, hr⟩

theorem flatMap (hf : PrefixFreeOn s f) {as bs : List α}
    (ha : ∀ a ∈ as, a ∈ s) (hb : ∀ b ∈ bs, b ∈ s) (hlen : as.length = bs.length)
    {r r' : List β} (h : as.flatMap f ++ r = bs.flatMap f ++ r') : as = bs ∧ r = r' := by
  induction as generalizing bs with
  | nil =>
    rw [List.eq_nil_of_length_eq_zero hlen.symm] at h ⊢
    exact ⟨rfl, h⟩
  | cons a as ih =>
    obtain ⟨b, bs, rfl⟩ := List.exists_cons_of_length_eq_add_one hlen.symm
    rw [List.flatMap_cons, List.flatMap_cons, List.append_assoc, List.append_assoc] at h
    obtain ⟨hab, h⟩ := hf (ha a List.mem_cons_self) (hb b List.mem_cons_self) _ _ h
    obtain ⟨habs, hr⟩ := ih (fun x hx ↦ ha x (List.mem_cons_of_mem _ hx))
      (fun x hx ↦ hb x (List.mem_cons_of_mem _ hx)) (Nat.succ.inj hlen) h
    exact ⟨by rw [hab, habs], hr⟩

theorem counted {c : Set ℕ} {count : ℕ → List β}
    (hc : PrefixFreeOn c count) (hf : PrefixFreeOn s f) :
    PrefixFreeOn {as : List α | as.length ∈ c ∧ ∀ a ∈ as, a ∈ s} fun as ↦
      count as.length ++ as.flatMap f := by
  rintro as ⟨hlen, has⟩ bs ⟨hlen', hbs⟩ r r' heq
  simp only [List.append_assoc] at heq
  obtain ⟨hlen, heq⟩ := hc hlen hlen' _ _ heq
  exact hf.flatMap has hbs hlen heq

end PrefixFreeOn

/-! ## Readers that accept one form only -/

/-- What is written for the values in `s` is read back, and nothing else is read. -/
structure Inverts (s : Set α) (read : List UInt8 → Option (α × List UInt8))
    (enc : α → List UInt8) : Prop where
  read_append : ∀ {a : α}, a ∈ s → ∀ r, read (enc a ++ r) = some (a, r)
  mem : ∀ {src r : List UInt8} {a : α}, read src = some (a, r) → a ∈ s
  eq_append : ∀ {src r : List UInt8} {a : α}, read src = some (a, r) → src = enc a ++ r

namespace Inverts

theorem readBytes (n : ℕ) : Inverts {bs | bs.length = n} (readBytes n) id where
  read_append := by
    rintro bs rfl r
    exact readBytes_append
  mem := length_of_readBytes
  eq_append := by
    intro src r bs h
    rw [Codec.readBytes] at h
    split at h
    · obtain ⟨rfl, rfl⟩ := Prod.mk.inj (Option.some.inj h)
      exact (List.take_append_drop n src).symm
    · exact absurd h (by simp)

theorem readNat (n : ℕ) : Inverts {x | x < 256 ^ n} (readNat n) (leBytes n) := by
  have hread : ∀ {src r : List UInt8} {x : ℕ}, Codec.readNat n src = some (x, r) →
      ∃ bs, bs.length = n ∧ leNat bs = x ∧ src = bs ++ r := by
    intro src r x h
    obtain ⟨⟨bs, r'⟩, hbs, heq⟩ := Option.map_eq_some_iff.mp h
    obtain ⟨rfl, rfl⟩ := Prod.mk.inj heq
    exact ⟨bs, length_of_readBytes hbs, rfl, (readBytes n).eq_append hbs⟩
  refine ⟨fun hx r ↦ readNat_leBytes hx r, fun h ↦ ?_, fun h ↦ ?_⟩
  · obtain ⟨bs, rfl, rfl, -⟩ := hread h
    exact leNat_lt bs
  · obtain ⟨bs, rfl, rfl, rfl⟩ := hread h
    rw [leBytes_leNat]

theorem readMany {s : Set α} {read : List UInt8 → Option (α × List UInt8)}
    {enc : α → List UInt8} (h : Inverts s read enc) (n : ℕ) :
    Inverts {as : List α | as.length = n ∧ ∀ a ∈ as, a ∈ s} (readMany read n)
      fun as ↦ as.flatMap enc := by
  induction n with
  | zero =>
    refine ⟨?_, ?_, ?_⟩
    · rintro as ⟨hlen, -⟩ r
      rw [List.eq_nil_of_length_eq_zero hlen]
      rfl
    · intro src r as hread
      obtain ⟨rfl, -⟩ := Prod.mk.inj (Option.some.inj hread)
      exact ⟨rfl, by simp⟩
    · intro src r as hread
      obtain ⟨rfl, rfl⟩ := Prod.mk.inj (Option.some.inj hread)
      rfl
  | succ n ih =>
    refine ⟨?_, ?_, ?_⟩
    · rintro as ⟨hlen, has⟩ r
      obtain ⟨a, as, rfl⟩ := List.exists_cons_of_length_eq_add_one hlen
      rw [List.forall_mem_cons] at has
      have hrest := ih.read_append ⟨Nat.succ.inj hlen, has.2⟩ r
      rw [List.flatMap_cons, List.append_assoc, Codec.readMany, h.read_append has.1]
      simp only [Option.bind_eq_bind, Option.bind_some, hrest]
    · intro src r as hread
      simp only [Codec.readMany, Option.bind_eq_bind, Option.bind_eq_some_iff, Option.some.injEq,
        Prod.mk.injEq, Prod.exists] at hread
      obtain ⟨a, src', ha, as', r', hrest, rfl, rfl⟩ := hread
      obtain ⟨hlen, has⟩ := ih.mem hrest
      exact ⟨congrArg Nat.succ hlen, List.forall_mem_cons.mpr ⟨h.mem ha, has⟩⟩
    · intro src r as hread
      simp only [Codec.readMany, Option.bind_eq_bind, Option.bind_eq_some_iff, Option.some.injEq,
        Prod.mk.injEq, Prod.exists] at hread
      obtain ⟨a, src', ha, as', r', hrest, rfl, rfl⟩ := hread
      rw [List.flatMap_cons, List.append_assoc, ← ih.eq_append hrest, ← h.eq_append ha]

end Inverts

/-! ## Fields of one width -/

/-- The first `n` fields of `k` bytes each. -/
def fields (k n : ℕ) (src : List UInt8) : List (List UInt8) :=
  (List.range n).map fun i ↦ (src.drop (i * k)).take k

theorem fields_flatten {k : ℕ} {bss : List (List UInt8)} (h : ∀ bs ∈ bss, bs.length = k)
    (r : List UInt8) : fields k bss.length (bss.flatten ++ r) = bss := by
  induction bss with
  | nil => rfl
  | cons bs bss ih =>
    rw [List.forall_mem_cons] at h
    have htail : ∀ i, (((bs :: bss).flatten ++ r).drop ((i + 1) * k)).take k
        = ((bss.flatten ++ r).drop (i * k)).take k := by
      intro i
      rw [List.flatten_cons, List.append_assoc, Nat.succ_mul, Nat.add_comm, ← List.drop_drop,
        List.drop_left' h.1]
    rw [fields, List.length_cons, List.range_succ_eq_map, List.map_cons, List.map_map]
    refine congrArg₂ _ ?_ ?_
    · rw [Nat.zero_mul, List.drop_zero, List.flatten_cons, List.append_assoc, List.take_left' h.1]
    · exact (List.map_congr_left fun i _ ↦ htail i).trans (ih h.2)

end Codec
