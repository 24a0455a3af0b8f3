import Cryptonite.Core.Serialize
import Cryptonite.Foundation.Buckets
import Cryptonite.Foundation.TreeMap

/-!
# The address manager

`CAddrMan` keeps the addresses of other nodes. An entry has an id, and the manager has five views
of its entries: the table `mapInfo` from ids to entries, the table `mapAddr` from addresses to ids,
the vector `vRandom` of all ids in some order, the 64 vectors of addresses that were reached, and
the 256 sets of those that were only heard of. An entry of the last kind can be in several of the
sets, and counts in how many it is; one that nothing refers to any more is deleted.

Which set or vector an address goes to is decided by a hash. Which entry has to make place for
another one is decided at random, and by what is known about the entries. The numbers that
`GetRandInt` draws and the times that the clock shows are a parameter of each call (`Draws`).

Times and counts of attempts are machine integers that wrap around. The counter of the ids must not,
since the next entry would get an id that another entry has: that it runs over is a fault.
-/

namespace Cryptonite

open Buckets Codec

/-! ## Addresses -/

/-- `CNetAddr`: the sixteen bytes of an address, the first one lowest. -/
abbrev NetAddr := BitVec 128

/-- `CService`: an address and a port. -/
structure Service where
  ip : NetAddr
  port : UInt16
  deriving DecidableEq

/-- `CAddress`; the defaults are those of `Init`. -/
structure Address extends Service where
  nServices : UInt64 := 1
  nTime : UInt32 := 100000000
  nLastTry : Int64 := 0

/-- `CAddrInfo`; the defaults are those of `Init`, and no position is `-1` there. -/
structure AddrInfo extends Address where
  source : NetAddr
  nLastSuccess : Int64 := 0
  nAttempts : Int32 := 0
  nRefCount : ℤ := 0
  fInTried : Bool := false
  nRandomPos : Option ℕ := none

/-- `CAddrInfo::CAddrInfo(addrIn, addrSource)`. -/
def AddrInfo.ofAddress (addrIn : Address) (addrSource : NetAddr) : AddrInfo where
  toAddress := { addrIn with nLastTry := 0 }
  source := addrSource

/-- `CAddrInfo::CAddrInfo()`. -/
def AddrInfo.blank : AddrInfo where
  ip := 0
  port := 0
  source := 0

/-- What the manager asks of the rest of the program: the hash, `CNetAddr::GetGroup` and
`CNetAddr::IsRoutable`. -/
structure NetBase where
  H : List UInt8 → UInt256
  getGroup : NetAddr → List UInt8
  isRoutable : NetAddr → Bool

def Service.getKey (addr : Service) : List UInt8 :=
  leBytes 16 addr.ip.toNat ++ [(addr.port / 0x100).toUInt8, (addr.port &&& 0xFF).toUInt8]

abbrev ADDRMAN_TRIED_BUCKET_COUNT : ℕ := 64
abbrev ADDRMAN_TRIED_BUCKET_SIZE : ℕ := 64
abbrev ADDRMAN_NEW_BUCKET_COUNT : ℕ := 256
abbrev ADDRMAN_NEW_BUCKET_SIZE : ℕ := 64
abbrev ADDRMAN_TRIED_BUCKETS_PER_GROUP : ℕ := 4
abbrev ADDRMAN_NEW_BUCKETS_PER_SOURCE_GROUP : ℕ := 32
abbrev ADDRMAN_NEW_BUCKETS_PER_ADDRESS : ℤ := 4
abbrev ADDRMAN_TRIED_ENTRIES_INSPECT_ON_EVICT : ℕ := 4
abbrev ADDRMAN_HORIZON_DAYS : Int64 := 30
abbrev ADDRMAN_RETRIES : Int32 := 3
abbrev ADDRMAN_MAX_FAILURES : Int32 := 10
abbrev ADDRMAN_MIN_FAIL_DAYS : Int64 := 7
abbrev ADDRMAN_GETADDR_MAX_PCT : ℕ := 23
abbrev ADDRMAN_GETADDR_MAX : ℕ := 2500

def getLow64 (hash : UInt256) : ℕ := hash.toNat % 2 ^ 64

def AddrInfo.getTriedBucket (base : NetBase) (info : AddrInfo) (nKey : List UInt8) :
    Fin ADDRMAN_TRIED_BUCKET_COUNT :=
  let hash1 := getLow64 (base.H (writeBytes nKey ++ writeBytes info.getKey))
  let hash2 := getLow64 (base.H (writeBytes nKey ++ writeBytes (base.getGroup info.ip) ++
    leBytes 8 (hash1 % ADDRMAN_TRIED_BUCKETS_PER_GROUP)))
  Fin.ofNat _ hash2

def AddrInfo.getNewBucket (base : NetBase) (info : AddrInfo) (nKey : List UInt8) (src : NetAddr) :
    Fin ADDRMAN_NEW_BUCKET_COUNT :=
  let hash1 := getLow64 (base.H (writeBytes nKey ++ writeBytes (base.getGroup info.ip) ++
    writeBytes (base.getGroup src)))
  let hash2 := getLow64 (base.H (writeBytes nKey ++ writeBytes (base.getGroup src) ++
    leBytes 8 (hash1 % ADDRMAN_NEW_BUCKETS_PER_SOURCE_GROUP)))
  Fin.ofNat _ hash2

/-- A time of 32 bits where one of 64 is expected. -/
def wideTime (nTime : UInt32) : Int64 := nTime.toUInt64.toInt64

/-- A time of 64 bits where one of 32 is kept. -/
def narrowTime (nTime : Int64) : UInt32 := nTime.toUInt64.toUInt32

def AddrInfo.isTerrible (info : AddrInfo) (nNow : Int64) : Bool :=
  -- never remove things tried the last minute
  if info.nLastTry ≠ 0 ∧ nNow - 60 ≤ info.nLastTry then false
  -- came in a flying DeLorean
  else if nNow + 10 * 60 < wideTime info.nTime then true
  -- not seen in over a month
  else if info.nTime = 0 ∨ ADDRMAN_HORIZON_DAYS * 86400 < nNow - wideTime info.nTime then true
  -- tried three times and never a success
  else if info.nLastSuccess = 0 ∧ ADDRMAN_RETRIES ≤ info.nAttempts then true
  -- ten successive failures in the last week
  else if ADDRMAN_MIN_FAIL_DAYS * 86400 < nNow - info.nLastSuccess ∧
      ADDRMAN_MAX_FAILURES ≤ info.nAttempts then true
  else false

def AddrInfo.getChance (info : AddrInfo) (nNow : Int64) : Float :=
  let nSinceLastSeen := nNow - wideTime info.nTime
  let nSinceLastTry := nNow - info.nLastTry
  let nSinceLastSeen := if nSinceLastSeen < 0 then 0 else nSinceLastSeen
  let nSinceLastTry := if nSinceLastTry < 0 then 0 else nSinceLastTry
  let fChance := 1.0 * (600.0 / (600.0 + nSinceLastSeen.toFloat))
  -- deprioritize very recent attempts away
  let fChance := if nSinceLastTry < 60 * 10 then fChance * 0.01 else fChance
  -- deprioritize after each failed attempt
  (List.range info.nAttempts.toInt.toNat).foldl (fun fChance _ ↦ fChance / 1.5) fChance

/-! ## The manager -/

/-- How a call can end other than by returning. -/
inductive NetFault where
  /-- A failed `assert`, or an id that is not in `mapInfo` where one is taken for granted. -/
  | assertion
  /-- An element past the end of a vector is read. -/
  | outOfBounds
  /-- The counter of the ids runs over. -/
  | overflow
  /-- The stream ends too early, or a size in it is not acceptable. -/
  | badStream
  deriving DecidableEq, Repr

/-- A call of the address manager: it returns, or it ends in a fault. -/
abbrev NetExec := Except NetFault

/-- What is not decided by the manager during a call: the numbers that are drawn, before they are
reduced to the range asked for, and the times that the clock shows. -/
structure Draws where
  rnd : ℕ → ℕ
  clock : ℕ → Int64

def Draws.skip (draws : Draws) (drawn shown : ℕ) : Draws where
  rnd n := draws.rnd (drawn + n)
  clock n := draws.clock (shown + n)

def getRandInt (nMax raw : ℕ) : ℕ := if nMax = 0 then 0 else raw % nMax

theorem getRandInt_lt {nMax : ℕ} (h : 0 < nMax) (raw : ℕ) : getRandInt nMax raw < nMax := by
  rw [getRandInt, if_neg h.ne']
  exact Nat.mod_lt raw h

structure AddrMan where
  nKey : List UInt8
  nIdCount : ℤ
  mapInfo : Std.ExtTreeMap ℤ AddrInfo
  mapAddr : NetAddr → Option ℤ
  vRandom : List ℤ
  nTried : ℤ
  vvTried : Fin ADDRMAN_TRIED_BUCKET_COUNT → List ℤ
  nNew : ℤ
  vvNew : Fin ADDRMAN_NEW_BUCKET_COUNT → Finset ℤ

theorem getElem?_insert_eq (m : Std.ExtTreeMap ℤ AddrInfo) (id : ℤ) (info : AddrInfo) (k : ℤ) :
    (m.insert id info)[k]? = if k = id then some info else m[k]? := by
  rw [Std.ExtTreeMap.getElem?_insert]
  exact if_congr (Std.compare_eq_iff_eq.trans eq_comm) rfl rfl

theorem getElem?_erase_eq (m : Std.ExtTreeMap ℤ AddrInfo) (id k : ℤ) :
    (m.erase id)[k]? = if k = id then none else m[k]? := by
  rw [Std.ExtTreeMap.getElem?_erase]
  exact if_congr (Std.compare_eq_iff_eq.trans eq_comm) rfl rfl

def incInt (n : ℤ) : NetExec ℤ := if n = 2 ^ 31 - 1 then .error .overflow else .ok (n + 1)

namespace AddrMan

/-- `CAddrMan::CAddrMan`; the key is drawn at random. -/
def init (nKey : Fin 32 → UInt8) : AddrMan where
  nKey := List.ofFn nKey
  nIdCount := 0
  mapInfo := ∅
  mapAddr _ := none
  vRandom := []
  nTried := 0
  vvTried _ := []
  nNew := 0
  vvNew _ := ∅

/-- The entry of an id that must have one. -/
def infoAt (am : AddrMan) (nId : ℤ) : NetExec AddrInfo :=
  match am.mapInfo[nId]? with
  | some info => .ok info
  | none => .error .assertion

def setInfo (am : AddrMan) (nId : ℤ) (info : AddrInfo) : AddrMan :=
  { am with mapInfo := am.mapInfo.insert nId info }

theorem infoAt_of {am : AddrMan} {id : ℤ} {info : AddrInfo} (h : am.mapInfo[id]? = some info) :
    am.infoAt id = .ok info := by
  rw [infoAt, h]

theorem getElem?_setInfo_self (am : AddrMan) (id : ℤ) (info : AddrInfo) :
    (am.setInfo id info).mapInfo[id]? = some info := by
  rw [setInfo, getElem?_insert_eq, if_pos rfl]

def find (am : AddrMan) (addr : NetAddr) : Option (ℤ × AddrInfo) := do
  let nId ← am.mapAddr addr
  let info ← am.mapInfo[nId]?
  some (nId, info)

def create (am : AddrMan) (addr : Address) (addrSource : NetAddr) : NetExec (ℤ × AddrMan) := do
  let nId := am.nIdCount
  let nIdCount ← incInt am.nIdCount
  let info := { AddrInfo.ofAddress addr addrSource with nRandomPos := some am.vRandom.length }
  .ok (nId, { am with
    nIdCount := nIdCount
    mapInfo := am.mapInfo.insert nId info
    mapAddr := Function.update am.mapAddr addr.ip (some nId)
    vRandom := am.vRandom ++ [nId] })

def swapRandom (am : AddrMan) (nRndPos1 nRndPos2 : ℕ) : NetExec AddrMan :=
  if nRndPos1 = nRndPos2 then .ok am
  else
    match am.vRandom[nRndPos1]?, am.vRandom[nRndPos2]? with
    | some nId1, some nId2 => do
      let info1 ← am.infoAt nId1
      let am := am.setInfo nId1 { info1 with nRandomPos := some nRndPos2 }
      let info2 ← am.infoAt nId2
      let am := am.setInfo nId2 { info2 with nRandomPos := some nRndPos1 }
      .ok { am with vRandom := (am.vRandom.set nRndPos1 nId2).set nRndPos2 nId1 }
    | _, _ => .error .assertion

/-! ### Making place -/

/-- The rounds of `CAddrMan::SelectTried`: a random element is brought to the front, and the one
with the least recent success is remembered, with the position it was found at. -/
def inspect (am : AddrMan) (rnd : ℕ → ℕ) :
    List ℕ → List ℤ → Option (ℤ × ℕ) → NetExec (List ℤ × Option (ℤ × ℕ))
  | [], vTried, oldest => .ok (vTried, oldest)
  | i :: is, vTried, oldest =>
    let nPos := getRandInt (vTried.length - i) (rnd i) + i
    match vTried[nPos]?, vTried[i]? with
    | some nTemp, some front => do
      let vTried := (vTried.set nPos front).set i nTemp
      let info ← am.infoAt nTemp
      match oldest with
      | none => am.inspect rnd is vTried (some (nTemp, nPos))
      | some (nOldest, nOldestPos) => do
        let infoOldest ← am.infoAt nOldest
        if info.nLastSuccess < infoOldest.nLastSuccess then
          am.inspect rnd is vTried (some (nTemp, nPos))
        else am.inspect rnd is vTried (some (nOldest, nOldestPos))
    | _, _ => .error .outOfBounds

/-- `CAddrMan::SelectTried`. The position is the one where the entry was before it was brought to
the front. -/
def selectTried (am : AddrMan) (nKBucket : Fin ADDRMAN_TRIED_BUCKET_COUNT) (rnd : ℕ → ℕ) :
    NetExec (Option ℕ × AddrMan) := do
  let vTried := am.vvTried nKBucket
  let rounds := List.range (min ADDRMAN_TRIED_ENTRIES_INSPECT_ON_EVICT vTried.length)
  let (vTried, oldest) ← am.inspect rnd rounds vTried none
  .ok (oldest.map Prod.snd, { am with vvTried := Function.update am.vvTried nKBucket vTried })

/-- The first loop of `CAddrMan::ShrinkNew`: the first entry that can just be deleted. -/
def firstTerrible (am : AddrMan) (clock : ℕ → Int64) : ℕ → List ℤ → NetExec (Option ℤ)
  | _, [] => .ok none
  | n, nId :: vNew => do
    let info ← am.infoAt nId
    if info.isTerrible (clock n) then .ok (some nId) else am.firstTerrible clock (n + 1) vNew

/-- The second loop of `CAddrMan::ShrinkNew`: the least recently seen of the entries at the
positions `n`. -/
def oldestAt (am : AddrMan) (n : List ℕ) : ℕ → List ℤ → Option ℤ → NetExec (Option ℤ)
  | _, [], oldest => .ok oldest
  | nI, nId :: vNew, oldest =>
    if nI ∈ n then
      match oldest with
      | none => am.oldestAt n (nI + 1) vNew (some nId)
      | some nOldest => do
        let info ← am.infoAt nId
        let infoOldest ← am.infoAt nOldest
        if info.nTime < infoOldest.nTime then am.oldestAt n (nI + 1) vNew (some nId)
        else am.oldestAt n (nI + 1) vNew (some nOldest)
    else am.oldestAt n (nI + 1) vNew oldest

/-- What both loops of `CAddrMan::ShrinkNew` do with the entry they find: it leaves the bucket, and
is deleted if it is in no other. -/
def release (am : AddrMan) (nUBucket : Fin ADDRMAN_NEW_BUCKET_COUNT) (nId : ℤ) :
    NetExec AddrMan := do
  let info ← am.infoAt nId
  let info := { info with nRefCount := info.nRefCount - 1 }
  let am := am.setInfo nId info
  let am ← if info.nRefCount = 0 then do
      -- `-1` is passed on as an `unsigned int`
      let am ← am.swapRandom (info.nRandomPos.getD (2 ^ 32 - 1)) (am.vRandom.length - 1)
      .ok { am with
        vRandom := am.vRandom.dropLast
        mapAddr := Function.update am.mapAddr info.ip none
        mapInfo := am.mapInfo.erase nId
        nNew := am.nNew - 1 }
    else .ok am
  .ok { am with vvNew := Function.update am.vvNew nUBucket ((am.vvNew nUBucket).erase nId) }

/-- A `set<int>` is gone through in its order. -/
def sortedIds (ids : Finset ℤ) : List ℤ := ids.sort (· ≤ ·)

@[simp] theorem mem_sortedIds {ids : Finset ℤ} {id : ℤ} : id ∈ sortedIds ids ↔ id ∈ ids :=
  Finset.mem_sort _

theorem length_sortedIds (ids : Finset ℤ) : (sortedIds ids).length = ids.card :=
  Finset.length_sort _

theorem nodup_sortedIds (ids : Finset ℤ) : (sortedIds ids).Nodup := Finset.sort_nodup _ _

def shrinkNew (am : AddrMan) (nUBucket : Fin ADDRMAN_NEW_BUCKET_COUNT) (draws : Draws) :
    NetExec (ℤ × AddrMan) := do
  let vNew := sortedIds (am.vvNew nUBucket)
  match ← am.firstTerrible draws.clock 0 vNew with
  | some nId =>
    let am ← am.release nUBucket nId
    .ok (0, am)
  | none =>
    let n := (List.range 4).map fun i ↦ getRandInt vNew.length (draws.rnd i)
    match ← am.oldestAt n 0 vNew none with
    | some nOldest =>
      let am ← am.release nUBucket nOldest
      .ok (1, am)
    | none => .error .assertion

/-! ### Marking an entry as good -/

/-- The end of `CAddrMan::MakeTried`: an entry of the full bucket goes back to the new ones, and
`nId` takes its place. -/
def evict (base : NetBase) (am : AddrMan) (nId : ℤ) (nOrigin : Fin ADDRMAN_NEW_BUCKET_COUNT)
    (nKBucket : Fin ADDRMAN_TRIED_BUCKET_COUNT) (rnd : ℕ → ℕ) : NetExec AddrMan := do
  let (nPos, am) ← am.selectTried nKBucket rnd
  match nPos.bind fun nPos ↦ ((am.vvTried nKBucket)[nPos]?).map (nPos, ·) with
  | none => .error .outOfBounds
  | some (nPos, nOld) =>
    let infoOld ← am.infoAt nOld
    let nUBucket := infoOld.getNewBucket base am.nKey infoOld.source
    let am := am.setInfo nOld { infoOld with fInTried := false, nRefCount := 1 }
    -- if there is no place in its own bucket, there is in the one that `nId` came from
    let nBack :=
      if (am.vvNew nUBucket).card < ADDRMAN_NEW_BUCKET_SIZE then nUBucket else nOrigin
    let info ← am.infoAt nId
    let am := am.setInfo nId { info with fInTried := true }
    .ok { am with
      vvNew := Function.update am.vvNew nBack (insert nOld (am.vvNew nBack))
      nNew := am.nNew + 1
      vvTried := Function.update am.vvTried nKBucket ((am.vvTried nKBucket).set nPos nId) }

def makeTried (base : NetBase) (am : AddrMan) (nId : ℤ)
    (nOrigin : Fin ADDRMAN_NEW_BUCKET_COUNT) (rnd : ℕ → ℕ) : NetExec AddrMan :=
  if nId ∉ am.vvNew nOrigin then .error .assertion
  else do
    let info ← am.infoAt nId
    -- remove the entry from all new buckets, and count down for each that had it
    let info := { info with nRefCount := info.nRefCount - degree am.vvNew nId }
    let am := { am.setInfo nId info with
      vvNew := fun nUBucket ↦ (am.vvNew nUBucket).erase nId
      nNew := am.nNew - 1 }
    if info.nRefCount ≠ 0 then .error .assertion
    else
      let nKBucket := info.getTriedBucket base am.nKey
      if (am.vvTried nKBucket).length < ADDRMAN_TRIED_BUCKET_SIZE then
        let am := am.setInfo nId { info with fInTried := true }
        .ok { am with
          vvTried := Function.update am.vvTried nKBucket (am.vvTried nKBucket ++ [nId])
          nTried := am.nTried + 1 }
      else am.evict base nId nOrigin nKBucket rnd

/-- The bucket that `CAddrMan::Good_` finds an entry in, from a random one on. -/
def bucketOf (am : AddrMan) (nId : ℤ) (nRnd : ℕ) : Option (Fin ADDRMAN_NEW_BUCKET_COUNT) :=
  ((List.range ADDRMAN_NEW_BUCKET_COUNT).map fun n ↦ Fin.ofNat _ (n + nRnd)).find?
    fun nB ↦ nId ∈ am.vvNew nB

def good (base : NetBase) (am : AddrMan) (addr : Service) (nTime : Int64) (draws : Draws) :
    NetExec AddrMan :=
  match am.find addr.ip with
  | none => .ok am
  | some (nId, info) =>
    if info.toService ≠ addr then .ok am
    else
      let am := am.setInfo nId { info with
        nLastSuccess := nTime
        nLastTry := nTime
        nTime := narrowTime nTime
        nAttempts := 0 }
      if info.fInTried then .ok am
      else
        match am.bucketOf nId (getRandInt ADDRMAN_NEW_BUCKET_COUNT (draws.rnd 0)) with
        | none => .ok am
        | some nUBucket => am.makeTried base nId nUBucket (draws.skip 1 0).rnd

/-! ### The other calls -/

/-- What `CAddrMan::Add_` writes to an entry that it finds. -/
def refresh (info : AddrInfo) (addr : Address) (nTimePenalty nNow : Int64) : AddrInfo :=
  let fCurrentlyOnline := nNow - wideTime addr.nTime < 24 * 60 * 60
  let nUpdateInterval := if fCurrentlyOnline then 60 * 60 else 24 * 60 * 60
  let nTime :=
    if addr.nTime ≠ 0 ∧ (info.nTime = 0 ∨
        wideTime info.nTime < wideTime addr.nTime - nUpdateInterval - nTimePenalty) then
      narrowTime (max 0 (wideTime addr.nTime - nTimePenalty))
    else info.nTime
  { info with nTime := nTime, nServices := info.nServices ||| addr.nServices }

/-- The end of `CAddrMan::Add_`: the entry is put into the bucket that its source says. -/
def addToNew (base : NetBase) (am : AddrMan) (nId : ℤ) (source : NetAddr) (draws : Draws) :
    NetExec AddrMan := do
  let info ← am.infoAt nId
  let nUBucket := info.getNewBucket base am.nKey source
  if nId ∈ am.vvNew nUBucket then .ok am
  else do
    let am := am.setInfo nId { info with nRefCount := info.nRefCount + 1 }
    let am ← if (am.vvNew nUBucket).card = ADDRMAN_NEW_BUCKET_SIZE then
        Prod.snd <$> am.shrinkNew nUBucket draws
      else .ok am
    .ok { am with vvNew := Function.update am.vvNew nUBucket (insert nId (am.vvNew nUBucket)) }

def add (base : NetBase) (am : AddrMan) (addr : Address) (source : NetAddr)
    (nTimePenalty : Int64) (draws : Draws) : NetExec (Bool × AddrMan) :=
  if base.isRoutable addr.ip = false then .ok (false, am)
  else
    match am.find addr.ip with
    | some (nId, info) =>
      let info := refresh info addr nTimePenalty (draws.clock 0)
      let am := am.setInfo nId info
      -- do not update if no new information is present
      if addr.nTime = 0 ∨ (info.nTime ≠ 0 ∧ addr.nTime ≤ info.nTime) then .ok (false, am)
      else if info.fInTried then .ok (false, am)
      else if info.nRefCount = ADDRMAN_NEW_BUCKETS_PER_ADDRESS then .ok (false, am)
      else
        -- previous nRefCount == N: 2^N times harder to increase it
        let nFactor := 2 ^ info.nRefCount.toNat
        if 1 < nFactor ∧ getRandInt nFactor (draws.rnd 0) ≠ 0 then .ok (false, am)
        else do
          let am ← am.addToNew base nId source (draws.skip 1 1)
          .ok (false, am)
    | none => do
      let (nId, am) ← am.create addr source
      let info ← am.infoAt nId
      let am := am.setInfo nId { info with
        nTime := narrowTime (max 0 (wideTime info.nTime - nTimePenalty)) }
      let am ← { am with nNew := am.nNew + 1 }.addToNew base nId source (draws.skip 1 1)
      .ok (true, am)

def attempt (am : AddrMan) (addr : Service) (nTime : Int64) : AddrMan :=
  match am.find addr.ip with
  | none => am
  | some (nId, info) =>
    if info.toService ≠ addr then am
    else am.setInfo nId { info with nLastTry := nTime, nAttempts := info.nAttempts + 1 }

def connected (am : AddrMan) (addr : Service) (nTime : Int64) : AddrMan :=
  match am.find addr.ip with
  | none => am
  | some (nId, info) =>
    if info.toService ≠ addr then am
    else if 20 * 60 < nTime - wideTime info.nTime then
      am.setInfo nId { info with nTime := narrowTime nTime }
    else am

/-- The loops of `CAddrMan::Select_`, for as many rounds as are given: an entry of a random bucket
is drawn and taken with a certain chance, which gets better from round to round. -/
def selectFrom (am : AddrMan) {k : ℕ} [NeZero k] (buckets : Fin k → List ℤ) :
    ℕ → Draws → Float → NetExec (Option Address)
  | 0, _, _ => .ok none
  | rounds + 1, draws, fChanceFactor =>
    let bucket := buckets (Fin.ofNat k (draws.rnd 0))
    if bucket.length = 0 then am.selectFrom buckets rounds (draws.skip 1 0) fChanceFactor
    else
      match bucket[getRandInt bucket.length (draws.rnd 1)]? with
      | none => .error .outOfBounds
      | some nId => do
        let info ← am.infoAt nId
        if (getRandInt (2 ^ 30) (draws.rnd 2)).toFloat <
            fChanceFactor * info.getChance (draws.clock 0) * 2 ^ 30 then
          .ok (some info.toAddress)
        else am.selectFrom buckets rounds (draws.skip 3 1) (fChanceFactor * 1.2)

/-- `CAddrMan::Select_`, as far as a number of rounds brings it; nothing if it is still drawing. -/
def select (am : AddrMan) (nUnkBias : ℤ) (rounds : ℕ) (draws : Draws) :
    NetExec (Option Address) :=
  if am.vRandom.length = 0 then .ok (some { ip := 0, port := 0 })
  else
    let nCorTried := (Float.ofInt am.nTried).sqrt * (100.0 - Float.ofInt nUnkBias)
    let nCorNew := (Float.ofInt am.nNew).sqrt * Float.ofInt nUnkBias
    if (nCorTried + nCorNew) * (getRandInt (2 ^ 30) (draws.rnd 0)).toFloat / 2 ^ 30 < nCorTried then
      am.selectFrom am.vvTried rounds (draws.skip 1 0) 1.0
    else
      am.selectFrom (fun nUBucket ↦ sortedIds (am.vvNew nUBucket)) rounds (draws.skip 1 0) 1.0

/-- The loop of `CAddrMan::GetAddr_`, which shuffles the front of `vRandom`. -/
def takeRandom (am : AddrMan) (rnd : ℕ → ℕ) : List ℕ → NetExec (List Address × AddrMan)
  | [] => .ok ([], am)
  | n :: ns => do
    let am ← am.swapRandom n (getRandInt (am.vRandom.length - n) (rnd n) + n)
    match am.vRandom[n]? with
    | none => .error .outOfBounds
    | some nId =>
      let info ← am.infoAt nId
      let (vAddr, am) ← am.takeRandom rnd ns
      .ok (info.toAddress :: vAddr, am)

def getAddr (am : AddrMan) (rnd : ℕ → ℕ) : NetExec (List Address × AddrMan) :=
  let nNodes := min ADDRMAN_GETADDR_MAX (ADDRMAN_GETADDR_MAX_PCT * am.vRandom.length / 100)
  am.takeRandom rnd (List.range nNodes)

end AddrMan

end Cryptonite
