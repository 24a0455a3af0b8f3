import Cryptonite.Net.AddrReload

/-!
# Consistency of the address manager

The calls of the address manager and the writing and reading of its file all keep the invariant, so
that it holds after any sequence of them (`run_spec`). What it says without loose entries and held
references is what `Check_` tests of the structure (`Consistent`).
-/

namespace Cryptonite

open Buckets TreeMap

namespace AddrMan

variable {am : AddrMan}

/-- A call of the manager, or the manager written out and read again. -/
inductive Call where
  | add (addr : Address) (source : NetAddr) (nTimePenalty : Int64)
  | good (addr : Service) (nTime : Int64)
  | attempt (addr : Service) (nTime : Int64)
  | connected (addr : Service) (nTime : Int64)
  | select (nUnkBias : ℤ) (rounds : ℕ)
  | getAddr
  | reload (nVersion : UInt32)

def step (base : NetBase) (am : AddrMan) (draws : Draws) : Call → NetExec AddrMan
  | .add addr source nTimePenalty => Prod.snd <$> am.add base addr source nTimePenalty draws
  | .good addr nTime => am.good base addr nTime draws
  | .attempt addr nTime => .ok (am.attempt addr nTime)
  | .connected addr nTime => .ok (am.connected addr nTime)
  | .select nUnkBias rounds => (fun _ ↦ am) <$> am.select nUnkBias rounds draws
  | .getAddr => Prod.snd <$> am.getAddr draws.rnd
  | .reload nVersion => am.reload base nVersion

/-- The manager after a sequence of calls, each with its own draws. -/
def run (base : NetBase) : AddrMan → List (Call × Draws) → NetExec AddrMan
  | am, [] => .ok am
  | am, (call, draws) :: calls => do
    let am ← am.step base draws call
    run base am calls

/-- The structure that `Check_` tests. -/
structure Consistent (am : AddrMan) : Prop where
  /-- `vRandom` is a permutation of the ids, -/
  random_perm : am.vRandom.Perm (am.mapInfo.toList.map Prod.fst)
  /-- and each entry has its position in it. -/
  random_pos : ∀ (id : ℤ) (info : AddrInfo), am.mapInfo[id]? = some info →
    ∃ n, info.nRandomPos = some n ∧ am.vRandom[n]? = some id
  /-- `mapAddr` has the addresses of the entries. -/
  addr_iff : ∀ (ip : NetAddr) (id : ℤ), am.mapAddr ip = some id ↔
    ∃ info : AddrInfo, am.mapInfo[id]? = some info ∧ info.ip = ip
  /-- An entry that was tried is in one place of the tried buckets and in no new bucket, -/
  tried : ∀ (id : ℤ) (info : AddrInfo), am.mapInfo[id]? = some info → info.fInTried = true →
    info.nRefCount = 0 ∧ places am.vvTried id = 1 ∧ degree am.vvNew id = 0
  /-- and one that was not is in as many new buckets as it says, one to four. -/
  new : ∀ (id : ℤ) (info : AddrInfo), am.mapInfo[id]? = some info → info.fInTried = false →
    places am.vvTried id = 0 ∧ info.nRefCount = degree am.vvNew id ∧ 1 ≤ info.nRefCount ∧
      info.nRefCount ≤ ADDRMAN_NEW_BUCKETS_PER_ADDRESS
  /-- There is nothing else in the buckets. -/
  known : ∀ id : ℤ, am.mapInfo[id]? = none → places am.vvTried id = 0 ∧ degree am.vvNew id = 0
  /-- The counters count the entries. -/
  nTried_eq : am.nTried = (am.mapInfo.toList.filter fun entry ↦ entry.2.fInTried = true).length
  nNew_eq : am.nNew = (am.mapInfo.toList.filter fun entry ↦ entry.2.fInTried = false).length
  /-- The buckets are not too large. -/
  tried_size : ∀ b, (am.vvTried b).length ≤ ADDRMAN_TRIED_BUCKET_SIZE
  new_size : ∀ b, (am.vvNew b).card ≤ ADDRMAN_NEW_BUCKET_SIZE

theorem Invariant.consistent (h : am.Invariant ∅ none) : am.Consistent where
  random_perm := h.perm_keys
  random_pos _ _ hget := h.indexed.exists_position (slots_of_get hget)
  addr_iff := by
    intro ip id
    rw [h.indexed.addr_iff]
    constructor
    · rintro ⟨n, hslot⟩
      obtain ⟨info, hget, heq⟩ := Option.map_eq_some_iff.mp hslot
      exact ⟨info, hget, (Prod.mk.inj heq).1⟩
    · rintro ⟨info, hget, rfl⟩
      obtain ⟨n, hn, -⟩ := h.indexed.exists_position (slots_of_get hget)
      exact ⟨n, hn ▸ slots_of_get hget⟩
  tried _ _ hget htried := h.filed.tried (htried ▸ files_of_get hget)
  new := by
    intro id info hget htried
    have hfile : files am.mapInfo id = some (false, info.nRefCount) := htried ▸ files_of_get hget
    obtain ⟨hplaces, -, hle, hloose⟩ := h.filed.new hfile
    have hcount := h.filed.refs_eq hfile
    have hne : info.nRefCount ≠ 0 := fun hzero ↦ hloose hzero
    exact ⟨hplaces, hcount, by omega, hle⟩
  known _ hget := h.filed.unknown (by rw [files, hget, Option.map_none])
  nTried_eq := by rw [h.tried_eq, countOf, total_ite]
  nNew_eq := by rw [h.new_eq, countOf, total_ite]
  tried_size := h.filed.tried_size
  new_size := h.filed.new_size

theorem invariant_init (nKey : Fin 32 → UInt8) : (init nKey).Invariant ∅ none := by
  refine ⟨?_, ?_, (countOf_empty false).symm, (countOf_empty true).symm, ?_, ?_⟩
  · simpa only [init, slots_empty] using Indexed.empty
  · simpa only [init, files_empty] using Filed.empty ∅
  · simp [init]
  · simp [init]

/-- A call keeps the invariant, unless there is no id left. -/
theorem step_spec (base : NetBase) (h : am.Invariant ∅ none) (call : Call) (draws : Draws) :
    (am.step base draws call = .error .overflow ∧ am.nIdCount = 2 ^ 31 - 1) ∨
      ∃ am', am.step base draws call = .ok am' ∧ am'.Invariant ∅ none ∧
        am'.nIdCount ≤ am.nIdCount + 1 := by
  cases call with
  | add addr source nTimePenalty =>
    rcases add_spec base h addr source nTimePenalty draws with ⟨hadd, hmax⟩ |
      ⟨fNew, am', hadd, h', hcount⟩
    · exact .inl ⟨by rw [step, hadd]; rfl, hmax⟩
    · exact .inr ⟨am', by rw [step, hadd]; rfl, h', hcount⟩
  | good addr nTime =>
    obtain ⟨am', hgood, h', hcount⟩ := good_spec base h addr nTime draws
    exact .inr ⟨am', hgood, h', by omega⟩
  | attempt addr nTime =>
    obtain ⟨h', hcount⟩ := h.attempt addr nTime
    exact .inr ⟨_, rfl, h', by omega⟩
  | connected addr nTime =>
    obtain ⟨h', hcount⟩ := h.connected addr nTime
    exact .inr ⟨_, rfl, h', by omega⟩
  | select nUnkBias rounds =>
    obtain ⟨addr, hselect⟩ := select_spec h nUnkBias rounds draws
    exact .inr ⟨am, by rw [step, hselect]; rfl, h, by omega⟩
  | getAddr =>
    obtain ⟨vAddr, am', hget, h', hcount⟩ := getAddr_spec h draws.rnd
    exact .inr ⟨am', by rw [step, hget]; rfl, h', by omega⟩
  | reload nVersion =>
    obtain ⟨am', hreload, h', hcount⟩ := reload_spec h base nVersion
    exact .inr ⟨am', hreload, h', by omega⟩

theorem run_spec (base : NetBase) (h : am.Invariant ∅ none) (calls : List (Call × Draws)) :
    (∃ am', run base am calls = .ok am' ∧ am'.Invariant ∅ none) ∨
      (run base am calls = .error .overflow ∧ 2 ^ 31 ≤ am.nIdCount + calls.length) := by
  induction calls generalizing am with
  | nil => exact .inl ⟨am, rfl, h⟩
  | cons call calls ih =>
    obtain ⟨call, draws⟩ := call
    rw [run, List.length_cons, Nat.cast_succ]
    rcases step_spec base h call draws with ⟨hstep, hmax⟩ | ⟨am₁, hstep, h₁, hcount⟩
    · exact .inr ⟨by rw [hstep]; rfl, by omega⟩
    · rw [hstep]
      rcases ih h₁ with hrun | ⟨hrun, hlength⟩
      · exact .inl hrun
      · exact .inr ⟨hrun, by omega⟩

/-- **Consistency of the address manager.** After any sequence of calls, with the manager written
out and read again at any time and whatever is drawn, the five views agree. No assertion fails and
nothing that was written is refused. The one thing that can go wrong is that the counter of the ids
runs over, which takes `2 ^ 31` calls. -/
theorem run_consistent (base : NetBase) (nKey : Fin 32 → UInt8) (calls : List (Call × Draws)) :
    (∃ am, run base (init nKey) calls = .ok am ∧ am.Consistent) ∨
      (run base (init nKey) calls = .error .overflow ∧ 2 ^ 31 ≤ calls.length) := by
  rcases run_spec base (invariant_init nKey) calls with ⟨am, hrun, h⟩ | ⟨hrun, hlength⟩
  · exact .inl ⟨am, hrun, h.consistent⟩
  · have hzero : (init nKey).nIdCount = 0 := rfl
    exact .inr ⟨hrun, by omega⟩

end AddrMan

end Cryptonite
