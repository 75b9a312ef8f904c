import Mathlib

/-!
# The tables of the address manager

`CAddrMan` (`addrman.h`, `addrman.cpp`) keeps every address it knows as a `CAddrInfo` under an
id in `mapInfo`, finds the id of an address through `mapAddr`, and lists every id in `vRandom`,
each entry knowing its position there. An entry sits either in the "tried" table `vvTried`, at
the one slot its hashes give it, or in up to eight slots of the "new" table `vvNew`, one per
bucket, counted by its `nRefCount`; `nNew` and `nTried` count the entries of each kind.

The addresses are of any type `A`, and the key `nKey` of any type `K`. The bucket hashes and what
the manager asks of an address are taken as given (`AddrManEnv`): they read the address, its port
and its source, never the counters of an entry, and the structure of the tables does not depend
on what they compute.

This module holds the state and the private operations that keep it: `Find`, `Create`,
`SwapRandom`, `Delete`, `ClearNew` and `MakeTried`.
-/

namespace BitcoinCash

/-- `ADDRMAN_TRIED_BUCKET_COUNT_LOG2`. -/
def addrmanTriedBucketCountLog2 : ℕ := 8

/-- `ADDRMAN_NEW_BUCKET_COUNT_LOG2`. -/
def addrmanNewBucketCountLog2 : ℕ := 10

/-- `ADDRMAN_BUCKET_SIZE_LOG2`. -/
def addrmanBucketSizeLog2 : ℕ := 6

/-- `ADDRMAN_NEW_BUCKETS_PER_ADDRESS`. -/
def addrmanNewBucketsPerAddress : ℤ := 8

/-- `ADDRMAN_HORIZON_DAYS`. -/
def addrmanHorizonDays : ℤ := 30

/-- `ADDRMAN_RETRIES`. -/
def addrmanRetries : ℤ := 3

/-- `ADDRMAN_MAX_FAILURES`. -/
def addrmanMaxFailures : ℤ := 10

/-- `ADDRMAN_MIN_FAIL_DAYS`. -/
def addrmanMinFailDays : ℤ := 7

/-- `ADDRMAN_REPLACEMENT_SECONDS`. -/
def addrmanReplacementSeconds : ℤ := 4 * 60 * 60

/-- `ADDRMAN_TRIED_BUCKET_COUNT`. -/
def addrmanTriedBucketCount : ℕ := 2 ^ addrmanTriedBucketCountLog2

/-- `ADDRMAN_NEW_BUCKET_COUNT`. -/
def addrmanNewBucketCount : ℕ := 2 ^ addrmanNewBucketCountLog2

/-- `ADDRMAN_BUCKET_SIZE`. -/
def addrmanBucketSize : ℕ := 2 ^ addrmanBucketSizeLog2

/-- `ADDRMAN_SET_TRIED_COLLISION_SIZE`. -/
def addrmanSetTriedCollisionSize : ℕ := 10

/-- `ADDRMAN_TEST_WINDOW`. -/
def addrmanTestWindow : ℤ := 40 * 60

/-- `CAddress::TIME_INIT`. -/
def timeInit : ℕ := 100000000

/-- `CService`: an address and a port. -/
structure CService (A : Type) where
  addr : A
  port : ℕ
  deriving DecidableEq

/-- `CAddress`: a service, the service bits it announces (`uint64_t`) and when it was last seen
(`uint32_t`). -/
structure CAddress (A : Type) extends CService A where
  nServices : ℕ
  nTime : ℕ

/-- `CAddrInfo`: an address with where it came from and what the manager knows of it. -/
structure CAddrInfo (A : Type) extends CAddress A where
  nLastTry : ℤ
  nLastCountAttempt : ℤ
  source : A
  nLastSuccess : ℤ
  nAttempts : ℤ
  nRefCount : ℤ
  fInTried : Bool
  nRandomPos : ℤ

/-- `CAddrInfo(addrIn, addrSource)`: a new entry, in no table. -/
def CAddrInfo.ofAddress {A : Type} (addr : CAddress A) (source : A) : CAddrInfo A :=
  { addr with
    nLastTry := 0
    nLastCountAttempt := 0
    source := source
    nLastSuccess := 0
    nAttempts := 0
    nRefCount := 0
    fInTried := false
    nRandomPos := -1 }

/-- `CAddrInfo()`. -/
instance {A : Type} [Inhabited A] : Inhabited (CAddrInfo A) :=
  ⟨CAddrInfo.ofAddress ⟨⟨default, 0⟩, 0, timeInit⟩ default⟩

/-- What the address manager asks of its addresses, and the bucket hashes of an entry under a
key: `IsRoutable`, `IsValid`, `GetTriedBucket`, `GetNewBucket` with a source, and
`GetBucketPosition`. The hashes read the service and the source only. -/
structure AddrManEnv (A K : Type) where
  isRoutable : A → Bool
  isValid : A → Bool
  getTriedBucket : K → CService A → Fin addrmanTriedBucketCount
  getNewBucket : K → CService A → A → Fin addrmanNewBucketCount
  getBucketPosition : K → CService A → Bool → ℤ → Fin addrmanBucketSize

/-- The state of a `CAddrMan`. An empty slot of a table holds `-1`; `m_tried_collisions` is a
`std::set<int>`, kept here as its ascending list. -/
structure CAddrMan (A K : Type) where
  nIdCount : ℤ
  mapInfo : ℤ → Option (CAddrInfo A)
  mapAddr : A → Option ℤ
  vRandom : List ℤ
  nTried : ℤ
  vvTried : Fin addrmanTriedBucketCount → Fin addrmanBucketSize → ℤ
  nNew : ℤ
  vvNew : Fin addrmanNewBucketCount → Fin addrmanBucketSize → ℤ
  nLastGood : ℤ
  mTriedCollisions : List ℤ
  nKey : K

namespace CAddrMan

variable {A K : Type} [DecidableEq A] [Inhabited A]

/-- `Clear()`, with `nKey` the fresh random key. The set of tried collisions is kept. -/
def clear (s : CAddrMan A K) (nKey : K) : CAddrMan A K :=
  { s with
    vRandom := []
    nKey
    vvNew := fun _ _ => -1
    vvTried := fun _ _ => -1
    nIdCount := 0
    nTried := 0
    nNew := 0
    -- Initially at 1 so that "never" is strictly worse.
    nLastGood := 1
    mapInfo := fun _ => none
    mapAddr := fun _ => none }

/-- `CAddrMan()`: an empty set of collisions, then `Clear()`. -/
def init (nKey : K) : CAddrMan A K :=
  clear ⟨0, fun _ => none, fun _ => none, [], 0, fun _ _ => -1, 0, fun _ _ => -1, 1, [], nKey⟩ nKey

/-- `mapInfo[nId]`: the entry, or a default one where there is none. -/
def info (s : CAddrMan A K) (nId : ℤ) : CAddrInfo A := (s.mapInfo nId).getD default

/-- `mapInfo[nId] = info`. -/
def setInfo (s : CAddrMan A K) (nId : ℤ) (info : CAddrInfo A) : CAddrMan A K :=
  { s with mapInfo := Function.update s.mapInfo nId (some info) }

/-- `vvNew[nBucket][nPos] = v`. -/
def setNew (s : CAddrMan A K) (nBucket : Fin addrmanNewBucketCount)
    (nPos : Fin addrmanBucketSize) (v : ℤ) : CAddrMan A K :=
  { s with vvNew := Function.update s.vvNew nBucket (Function.update (s.vvNew nBucket) nPos v) }

/-- `vvTried[nBucket][nPos] = v`. -/
def setTried (s : CAddrMan A K) (nBucket : Fin addrmanTriedBucketCount)
    (nPos : Fin addrmanBucketSize) (v : ℤ) : CAddrMan A K :=
  { s with
    vvTried := Function.update s.vvTried nBucket (Function.update (s.vvTried nBucket) nPos v) }

/-- `nNew += d`. -/
def addNew (s : CAddrMan A K) (d : ℤ) : CAddrMan A K := { s with nNew := s.nNew + d }

/-- `nTried += d`. -/
def addTried (s : CAddrMan A K) (d : ℤ) : CAddrMan A K := { s with nTried := s.nTried + d }

/-- `Find`: the id an address is stored under, and its entry. -/
def find (s : CAddrMan A K) (addr : A) : Option (ℤ × CAddrInfo A) :=
  (s.mapAddr addr).bind fun nId => (s.mapInfo nId).map fun info => (nId, info)

/-- `Create`: a new entry under the next id, at the end of `vRandom`. -/
def create (s : CAddrMan A K) (addr : CAddress A) (addrSource : A) : CAddrMan A K × ℤ :=
  let nId := s.nIdCount
  ({ s with
      nIdCount := nId + 1
      mapInfo := Function.update s.mapInfo nId
        (some { CAddrInfo.ofAddress addr addrSource with nRandomPos := s.vRandom.length })
      mapAddr := Function.update s.mapAddr addr.addr (some nId)
      vRandom := s.vRandom ++ [nId] }, nId)

/-- `SwapRandom`: exchange two positions of `vRandom`, and the positions their entries record. -/
def swapRandom (s : CAddrMan A K) (nRndPos1 nRndPos2 : ℕ) : CAddrMan A K :=
  if nRndPos1 = nRndPos2 then s
  else
    let nId1 := s.vRandom.getD nRndPos1 0
    let nId2 := s.vRandom.getD nRndPos2 0
    let s := s.setInfo nId1 { s.info nId1 with nRandomPos := nRndPos2 }
    let s := s.setInfo nId2 { s.info nId2 with nRandomPos := nRndPos1 }
    { s with vRandom := (s.vRandom.set nRndPos1 nId2).set nRndPos2 nId1 }

/-- `Delete`: move the entry to the end of `vRandom`, then drop it from the three containers.
It must not be in tried, and have refcount 0. -/
def delete (s : CAddrMan A K) (nId : ℤ) : CAddrMan A K :=
  let s := s.swapRandom (s.info nId).nRandomPos.toNat (s.vRandom.length - 1)
  { s with
    vRandom := s.vRandom.dropLast
    mapAddr := Function.update s.mapAddr (s.info nId).addr none
    mapInfo := Function.update s.mapInfo nId none
    nNew := s.nNew - 1 }

/-- `ClearNew`: empty a slot of the new table, deleting its entry once no slot holds it. -/
def clearNew (s : CAddrMan A K) (nUBucket : Fin addrmanNewBucketCount)
    (nUBucketPos : Fin addrmanBucketSize) : CAddrMan A K :=
  if s.vvNew nUBucket nUBucketPos ≠ -1 then
    let nIdDelete := s.vvNew nUBucket nUBucketPos
    let infoDelete := s.info nIdDelete
    let s := s.setInfo nIdDelete { infoDelete with nRefCount := infoDelete.nRefCount - 1 }
    let s := s.setNew nUBucket nUBucketPos (-1)
    if infoDelete.nRefCount - 1 = 0 then s.delete nIdDelete else s
  else s

variable (env : AddrManEnv A K)

/-- The loop of `MakeTried` over the new buckets: empty the slot of the entry in each bucket that
holds it. -/
def makeTriedLoop (nId : ℤ) : CAddrMan A K → List (Fin addrmanNewBucketCount) → CAddrMan A K
  | s, [] => s
  | s, bucket :: buckets =>
    let pos := env.getBucketPosition s.nKey (s.info nId).toCService true bucket.val
    let s :=
      if s.vvNew bucket pos = nId then
        (s.setNew bucket pos (-1)).setInfo nId
          { s.info nId with nRefCount := (s.info nId).nRefCount - 1 }
      else s
    makeTriedLoop nId s buckets

/-- The eviction in `MakeTried`: the tried entry at the slot goes back to the new table, at the
slot of its own source, whose entry is cleared first. -/
def evictTried (s : CAddrMan A K) (nKBucket : Fin addrmanTriedBucketCount)
    (nKBucketPos : Fin addrmanBucketSize) : CAddrMan A K :=
  -- find an item to evict
  let nIdEvict := s.vvTried nKBucket nKBucketPos
  -- Remove the to-be-evicted item from the tried set.
  let s := s.setInfo nIdEvict { s.info nIdEvict with fInTried := false }
  let s := (s.setTried nKBucket nKBucketPos (-1)).addTried (-1)
  -- find which new bucket it belongs to
  let infoOld := s.info nIdEvict
  let nUBucket := env.getNewBucket s.nKey infoOld.toCService infoOld.source
  let nUBucketPos := env.getBucketPosition s.nKey infoOld.toCService true nUBucket.val
  let s := s.clearNew nUBucket nUBucketPos
  -- Enter it into the new set again.
  let s := s.setInfo nIdEvict { s.info nIdEvict with nRefCount := 1 }
  (s.setNew nUBucket nUBucketPos nIdEvict).addNew 1

/-- `MakeTried`: move an entry from the new table to the tried table. -/
def makeTried (s : CAddrMan A K) (nId : ℤ) : CAddrMan A K :=
  -- remove the entry from all new buckets
  let s := (makeTriedLoop env nId s (List.finRange addrmanNewBucketCount)).addNew (-1)
  -- which tried bucket to move the entry to
  let nKBucket := env.getTriedBucket s.nKey (s.info nId).toCService
  let nKBucketPos := env.getBucketPosition s.nKey (s.info nId).toCService false nKBucket.val
  -- first make space to add it (the existing tried entry there is moved to new, deleting
  -- whatever is there).
  let s := if s.vvTried nKBucket nKBucketPos ≠ -1 then evictTried env s nKBucket nKBucketPos else s
  let s := (s.setTried nKBucket nKBucketPos nId).addTried 1
  s.setInfo nId { s.info nId with fInTried := true }

end CAddrMan

end BitcoinCash
