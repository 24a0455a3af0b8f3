import Cryptonite.Net.AddrCalls

/-!
# The address manager on disk

The file has the key, the new entries, the tried ones, and for each new bucket the numbers of its
entries in the file. The rest is put together when it is read: the entries get new ids, in the order
in which they are read, and every entry that was tried goes to the bucket that its hash says, if
there is place for it. What an entry has in memory only starts anew.

The source reads and builds at the same time; nothing that is read depends on what was built, so
that the two are kept apart here.
-/

namespace Cryptonite

open Buckets Codec Function

/-! ## The entries -/

def writeInt (n : Int32) : List UInt8 := leBytes 4 n.toUInt32.toNat

def readInt (src : List UInt8) : Option (Int32 × List UInt8) := do
  let (n, src) ← readNat 4 src
  some ((UInt32.ofNat n).toInt32, src)

/-- `CAddrInfo`, written to disk by a program of some version. The port is in network byte order. -/
def AddrInfo.serialize (nVersion : UInt32) (info : AddrInfo) : List UInt8 :=
  leBytes 4 nVersion.toNat ++ leBytes 4 info.nTime.toNat ++ leBytes 8 info.nServices.toNat ++
    leBytes 16 info.ip.toNat ++ (leBytes 2 info.port.toNat).reverse ++
    leBytes 16 info.source.toNat ++ leBytes 8 info.nLastSuccess.toUInt64.toNat ++
    writeInt info.nAttempts

def AddrInfo.unserialize (src : List UInt8) : Option (AddrInfo × List UInt8) := do
  let (_, src) ← readNat 4 src
  let (nTime, src) ← readNat 4 src
  let (nServices, src) ← readNat 8 src
  let (ip, src) ← readNat 16 src
  let (portN, src) ← readBytes 2 src
  let (source, src) ← readNat 16 src
  let (nLastSuccess, src) ← readNat 8 src
  let (nAttempts, src) ← readInt src
  some ({
    ip := BitVec.ofNat 128 ip
    port := UInt16.ofNat (leNat portN.reverse)
    nServices := UInt64.ofNat nServices
    nTime := UInt32.ofNat nTime
    source := BitVec.ofNat 128 source
    nLastSuccess := (UInt64.ofNat nLastSuccess).toInt64
    nAttempts := nAttempts }, src)

def AddrInfo.stored (info : AddrInfo) : AddrInfo :=
  { info with nLastTry := 0, nRefCount := 0, fInTried := false, nRandomPos := none }

theorem readInt_writeInt (n : Int32) (r : List UInt8) :
    readInt (writeInt n ++ r) = some (n, r) := by
  rw [readInt, writeInt, @readNat_leBytes 4 _ n.toUInt32.toNat_lt]
  simp only [Option.bind_eq_bind, Option.bind_some, UInt32.ofNat_toNat, Int32.toInt32_toUInt32]

theorem AddrInfo.unserialize_serialize (nVersion : UInt32) (info : AddrInfo) (r : List UInt8) :
    AddrInfo.unserialize (info.serialize nVersion ++ r) = some (info.stored, r) := by
  have hport : (leBytes 2 info.port.toNat).reverse.length = 2 := by simp
  have hread : ∀ r, readBytes 2 ((leBytes 2 info.port.toNat).reverse ++ r) =
      some ((leBytes 2 info.port.toNat).reverse, r) := by
    intro r
    have h := @readBytes_append (leBytes 2 info.port.toNat).reverse r
    rwa [hport] at h
  simp only [unserialize, serialize, List.append_assoc, @readNat_leBytes 4 _ nVersion.toNat_lt,
    @readNat_leBytes 4 _ info.nTime.toNat_lt, @readNat_leBytes 8 _ info.nServices.toNat_lt,
    @readNat_leBytes 16 _ info.ip.isLt, hread, @readNat_leBytes 16 _ info.source.isLt,
    @readNat_leBytes 8 _ info.nLastSuccess.toUInt64.toNat_lt, readInt_writeInt, Option.bind_eq_bind,
    Option.bind_some, List.reverse_reverse, @leNat_leBytes_of_lt 2 _ info.port.toNat_lt,
    BitVec.ofNat_toNat, BitVec.setWidth_eq, UInt16.ofNat_toNat, UInt32.ofNat_toNat,
    UInt64.ofNat_toNat, Int64.toInt64_toUInt64, stored]

/-! ## The file -/

structure AddrFile where
  nVersion : UInt8
  nKey : List UInt8
  nNew : Int32
  nTried : Int32
  nUBuckets : Int32
  newInfos : List AddrInfo
  triedInfos : List AddrInfo
  buckets : List (List Int32)

/-- A bucket: its size, and the numbers of its entries. -/
def writeBucket (bucket : List Int32) : List UInt8 :=
  writeInt (Int32.ofNat bucket.length) ++ bucket.flatMap writeInt

def readBucket (src : List UInt8) : Option (List Int32 × List UInt8) := do
  let (nSize, src) ← readInt src
  readMany readInt nSize.toInt.toNat src

def AddrFile.serialize (nVersion : UInt32) (file : AddrFile) : List UInt8 :=
  [file.nVersion] ++ writeBytes file.nKey ++ writeInt file.nNew ++ writeInt file.nTried ++
    writeInt file.nUBuckets ++ file.newInfos.flatMap (AddrInfo.serialize nVersion) ++
    file.triedInfos.flatMap (AddrInfo.serialize nVersion) ++ file.buckets.flatMap writeBucket

def AddrFile.unserialize (src : List UInt8) : Option (AddrFile × List UInt8) :=
  match src with
  | [] => none
  | nVersion :: src => do
    let (nKey, src) ← readByteVector src
    let (nNew, src) ← readInt src
    let (nTried, src) ← readInt src
    let (nUBuckets, src) ← readInt src
    let (newInfos, src) ← readMany AddrInfo.unserialize nNew.toInt.toNat src
    let (triedInfos, src) ← readMany AddrInfo.unserialize nTried.toInt.toNat src
    let (buckets, src) ← readMany readBucket nUBuckets.toInt.toNat src
    some (⟨nVersion, nKey, nNew, nTried, nUBuckets, newInfos, triedInfos, buckets⟩, src)

theorem readBucket_writeBucket {bucket : List Int32} (h : bucket.length < 2 ^ 31)
    (r : List UInt8) : readBucket (writeBucket bucket ++ r) = some (bucket, r) := by
  have hmany : readMany readInt bucket.length (bucket.flatMap writeInt ++ r) =
      some (bucket.map fun n ↦ n, r) := readMany_flatMap (fun n _ r ↦ readInt_writeInt n r) r
  rw [readBucket, writeBucket, List.append_assoc, readInt_writeInt]
  simp only [Option.bind_eq_bind, Option.bind_some, Int32.toInt_ofNat_of_lt h, Int.toNat_natCast,
    hmany, List.map_id']

/-- The sizes in a file are those of what comes behind them. -/
structure AddrFile.Sized (file : AddrFile) : Prop where
  nKey : file.nKey.length ≤ MAX_SIZE
  nNew : file.newInfos.length = file.nNew.toInt.toNat
  nTried : file.triedInfos.length = file.nTried.toInt.toNat
  nUBuckets : file.buckets.length = file.nUBuckets.toInt.toNat
  buckets : ∀ bucket ∈ file.buckets, bucket.length < 2 ^ 31

theorem AddrFile.unserialize_serialize {file : AddrFile} (h : file.Sized) (nVersion : UInt32)
    (r : List UInt8) : AddrFile.unserialize (file.serialize nVersion ++ r) = some ({ file with
      newInfos := file.newInfos.map AddrInfo.stored
      triedInfos := file.triedInfos.map AddrInfo.stored }, r) := by
  have hinfos : ∀ (infos : List AddrInfo) (r : List UInt8), readMany AddrInfo.unserialize
      infos.length (infos.flatMap (AddrInfo.serialize nVersion) ++ r) =
      some (infos.map AddrInfo.stored, r) := fun infos ↦
    readMany_flatMap fun info _ r ↦ AddrInfo.unserialize_serialize nVersion info r
  have hbuckets : readMany readBucket file.buckets.length
      (file.buckets.flatMap writeBucket ++ r) = some (file.buckets, r) := by
    have hmany := readMany_flatMap (fun bucket hbucket r ↦
      readBucket_writeBucket (h.buckets bucket hbucket) r) r
    rwa [List.map_id'] at hmany
  simp only [serialize, List.append_assoc, List.cons_append, List.nil_append, unserialize,
    readByteVector_writeBytes h.nKey, readInt_writeInt, ← h.nNew, ← h.nTried, ← h.nUBuckets, hinfos,
    hbuckets, Option.bind_eq_bind, Option.bind_some]

/-! ## Writing a manager -/

/-- The first loop over the entries: those that are referred to, and the number of each in the
file. -/
def indexNew (nNew : ℤ) : List (ℤ × AddrInfo) → ℤ → (ℤ → ℤ) → List AddrInfo × (ℤ → ℤ)
  | [], _, mapUnkIds => ([], mapUnkIds)
  | (nId, info) :: entries, nIds, mapUnkIds =>
    if nIds = nNew then ([], mapUnkIds)
    else
      let mapUnkIds := update mapUnkIds nId nIds
      if info.nRefCount ≠ 0 then
        let (infos, mapUnkIds) := indexNew nNew entries (nIds + 1) mapUnkIds
        (info :: infos, mapUnkIds)
      else indexNew nNew entries nIds mapUnkIds

/-- The second loop over the entries: those that were tried. -/
def listTried (nTried : ℤ) : List (ℤ × AddrInfo) → ℤ → List AddrInfo
  | [], _ => []
  | (_, info) :: entries, nIds =>
    if nIds = nTried then []
    else if info.fInTried then info :: listTried nTried entries (nIds + 1)
    else listTried nTried entries nIds

namespace AddrMan

def save (am : AddrMan) : AddrFile :=
  let indexed := indexNew am.nNew am.mapInfo.toList 0 fun _ ↦ 0
  { nVersion := 0
    nKey := am.nKey
    nNew := Int32.ofInt am.nNew
    nTried := Int32.ofInt am.nTried
    nUBuckets := Int32.ofNat ADDRMAN_NEW_BUCKET_COUNT
    newInfos := indexed.1
    triedInfos := listTried am.nTried am.mapInfo.toList 0
    buckets := (List.finRange ADDRMAN_NEW_BUCKET_COUNT).map fun nUBucket ↦
      (sortedIds (am.vvNew nUBucket)).map fun nId ↦ Int32.ofInt (indexed.2 nId) }

/-! ## Reading a manager -/

/-- An entry is added that nothing refers to, or, if the number of buckets is another one, that is
in the bucket of its source. -/
def readNew (base : NetBase) (nUBuckets : ℤ) (am : AddrMan) (n : ℤ) (info : AddrInfo) : AddrMan :=
  let info := { info with nRandomPos := some am.vRandom.length }
  let am := { am with
    mapAddr := update am.mapAddr info.ip (some n)
    vRandom := am.vRandom ++ [n] }
  if nUBuckets ≠ ADDRMAN_NEW_BUCKET_COUNT then
    let nUBucket := info.getNewBucket base am.nKey info.source
    { am.setInfo n { info with nRefCount := info.nRefCount + 1 } with
      vvNew := update am.vvNew nUBucket (insert n (am.vvNew nUBucket)) }
  else am.setInfo n info

def loadNew (base : NetBase) (nUBuckets : ℤ) : ℤ → List AddrInfo → AddrMan → AddrMan
  | _, [], am => am
  | n, info :: infos, am =>
    loadNew base nUBuckets (n + 1) infos (am.readNew base nUBuckets n info)

/-- The loop over the tried entries, with the number of those that there is no place for. -/
def loadTried (base : NetBase) : List AddrInfo → AddrMan → ℤ → NetExec (AddrMan × ℤ)
  | [], am, nLost => .ok (am, nLost)
  | info :: infos, am, nLost =>
    let nKBucket := info.getTriedBucket base am.nKey
    if (am.vvTried nKBucket).length < ADDRMAN_TRIED_BUCKET_SIZE then do
      let info := { info with nRandomPos := some am.vRandom.length, fInTried := true }
      let nId := am.nIdCount
      let nIdCount ← incInt am.nIdCount
      loadTried base infos { am with
        vRandom := am.vRandom ++ [nId]
        mapInfo := am.mapInfo.insert nId info
        mapAddr := update am.mapAddr info.ip (some nId)
        vvTried := update am.vvTried nKBucket (am.vvTried nKBucket ++ [nId])
        nIdCount := nIdCount } nLost
    else loadTried base infos am (nLost + 1)

/-- An entry is added to a bucket; one that is not there would be made. -/
def readIndex (nUBuckets : ℤ) (b : Fin ADDRMAN_NEW_BUCKET_COUNT) (am : AddrMan) (nIndex : ℤ) :
    AddrMan :=
  let info := (am.mapInfo[nIndex]?).getD AddrInfo.blank
  if nUBuckets = ADDRMAN_NEW_BUCKET_COUNT ∧ info.nRefCount < ADDRMAN_NEW_BUCKETS_PER_ADDRESS then
    { am.setInfo nIndex { info with nRefCount := info.nRefCount + 1 } with
      vvNew := update am.vvNew b (insert nIndex (am.vvNew b)) }
  else am.setInfo nIndex info

def loadBuckets (nUBuckets : ℤ) : ℕ → List (List ℤ) → AddrMan → NetExec AddrMan
  | _, [], am => .ok am
  | b, bucket :: buckets, am =>
    if hb : b < ADDRMAN_NEW_BUCKET_COUNT then
      loadBuckets nUBuckets (b + 1) buckets (bucket.foldl (readIndex nUBuckets ⟨b, hb⟩) am)
    else .error .outOfBounds

def load (base : NetBase) (file : AddrFile) : NetExec AddrMan := do
  let nUBuckets := file.nUBuckets.toInt
  let am : AddrMan := {
    nKey := file.nKey
    nIdCount := 0
    mapInfo := ∅
    mapAddr := fun _ ↦ none
    vRandom := []
    nTried := file.nTried.toInt
    vvTried := fun _ ↦ []
    nNew := file.nNew.toInt
    vvNew := fun _ ↦ ∅ }
  let am := loadNew base nUBuckets 0 file.newInfos am
  let am := { am with nIdCount := am.nNew }
  let (am, nLost) ← loadTried base file.triedInfos am 0
  let am := { am with nTried := am.nTried - nLost }
  loadBuckets nUBuckets 0 (file.buckets.map (List.map Int32.toInt)) am

def reload (base : NetBase) (nVersion : UInt32) (am : AddrMan) : NetExec AddrMan :=
  match AddrFile.unserialize (am.save.serialize nVersion) with
  | none => .error .badStream
  | some (file, _) => load base file

end AddrMan

end Cryptonite
