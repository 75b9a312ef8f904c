import BitcoinCash.AddrMan.Invariant
import BitcoinCash.Serialize.Stream
import Mathlib.Data.List.Sort

/-!
# Reading the address manager back

`CAddrMan::Unserialize` (`addrman.h`) reads `peers.dat`: a format byte, the key, the counts of
new and tried entries, the new entries, the tried entries (each in the slot its hash gives, or
lost to a collision), the bucket of each new entry when it was written, and the asmap version;
then it puts every new entry in a slot of the new table and deletes those that find none.

The key is a `uint256`, its 32 bytes. What an entry's serialization reads (`CAddress`, with the
`ADDRV2_FORMAT` flag from format 3 on, its source, `nLastSuccess` and `nAttempts`) is a
parameter of the model; the other fields of the entry keep their initial values. `Check()` does
nothing in a build without `DEBUG_ADDRMAN`.

The counts are `int`s and are only bounded from above: a negative `nNew` is accepted, reads no
entry, and is left in the state (`unserialize_negative_nNew`), which then does not satisfy the
invariant.
-/

namespace BitcoinCash

namespace CAddrMan

variable {A : Type} [DecidableEq A] [Inhabited A]

/-- `Format::V1_DETERMINISTIC`: the bucket count is written xor `1 << 30`. -/
def formatV1Deterministic : ℕ := 1

/-- `Format::V2_ASMAP`: the asmap version is written. -/
def formatV2Asmap : ℕ := 2

/-- `Format::V3_BIP155`: addresses are written in addrv2 format; the newest format. -/
def formatV3Bip155 : ℕ := 3

/-- The text of the exception for a format newer than `V3_BIP155`. -/
def unsupportedFormat (format : ℕ) : String :=
  "Unsupported format of addrman database: " ++ toString format ++ ". Maximum supported is " ++
    toString formatV3Bip155 ++
    ". Continuing operation without using the saved list of peers."

/-- The text of the exception for a key size other than 32. -/
def incorrectKeysize : String := "Incorrect keysize in addrman deserialization"

/-- The text of the exception for too large an `nNew`. -/
def nNewExceedsLimit : String := "Corrupt CAddrMan serialization, nNew exceeds limit."

/-- The text of the exception for too large an `nTried`. -/
def nTriedExceedsLimit : String := "Corrupt CAddrMan serialization, nTried exceeds limit."

/-- The `int` whose two's complement bits are the 32-bit value `v`. -/
def int32OfBits (v : ℕ) : ℤ := if v < 2 ^ 31 then v else (v : ℤ) - 2 ^ 32

/-- `s >> n` for an `int`. -/
def readInt32 : Reader ℤ := do
  let v ← serReaddata32
  pure (int32OfBits v)

/-- The entry a default `CAddrInfo` becomes once its serialized fields are read. -/
def infoOfRead (r : CAddress A × A × ℤ × ℤ) : CAddrInfo A :=
  { CAddrInfo.ofAddress r.1 r.2.1 with nLastSuccess := r.2.2.1, nAttempts := r.2.2.2 }

variable {K : Type}

/-- A new entry read back, stored under `n` at the end of `vRandom`. -/
def unserializeNewEntry (s : CAddrMan A K) (n : ℤ) (info : CAddrInfo A) : CAddrMan A K :=
  { s with
    mapInfo := Function.update s.mapInfo n (some { info with nRandomPos := s.vRandom.length })
    mapAddr := Function.update s.mapAddr info.addr (some n)
    vRandom := s.vRandom ++ [n] }

/-- The loop over the new entries: `k` entries, the next one under `n`. -/
def readNewEntries (readInfo : Reader (CAddrInfo A)) : ℤ → ℕ → CAddrMan A K → Reader (CAddrMan A K)
  | _, 0, s => pure s
  | n, k + 1, s => do
    let info ← readInfo
    readNewEntries readInfo (n + 1) k (unserializeNewEntry s n info)

variable (env : AddrManEnv A K)

/-- A tried entry read back: stored under `nIdCount` in the slot its hash gives, or lost when
the slot is taken. The state and the number lost. -/
def unserializeTriedEntry (s : CAddrMan A K) (nLost : ℤ) (info : CAddrInfo A) :
    CAddrMan A K × ℤ :=
  let nKBucket := env.getTriedBucket s.nKey info.toCService
  let nKBucketPos := env.getBucketPosition s.nKey info.toCService false nKBucket.val
  if s.vvTried nKBucket nKBucketPos = -1 then
    let info := { info with nRandomPos := s.vRandom.length, fInTried := true }
    let s := (s.setTried nKBucket nKBucketPos s.nIdCount).setInfo s.nIdCount info
    ({ s with
        vRandom := s.vRandom ++ [s.nIdCount]
        mapAddr := Function.update s.mapAddr info.addr (some s.nIdCount)
        nIdCount := s.nIdCount + 1 }, nLost)
  else (s, nLost + 1)

/-- The loop over the `k` tried entries. -/
def readTriedEntries (readInfo : Reader (CAddrInfo A)) :
    ℕ → CAddrMan A K × ℤ → Reader (CAddrMan A K × ℤ)
  | 0, acc => pure acc
  | k + 1, (s, nLost) => do
    let info ← readInfo
    readTriedEntries readInfo k (unserializeTriedEntry env s nLost info)

/-- The indexes of one bucket as written: those of new entries record the bucket. -/
def readBucketIndexes (nNew bucket : ℤ) : ℕ → (ℤ → ℤ) → Reader (ℤ → ℤ)
  | 0, entryToBucket => pure entryToBucket
  | k + 1, entryToBucket => do
    let nIndex ← readInt32
    readBucketIndexes nNew bucket k
      (if 0 ≤ nIndex ∧ nIndex < nNew then Function.update entryToBucket nIndex bucket
      else entryToBucket)

/-- The loop over the `k` buckets written, the next one `bucket`; `entryToBucket` is a
`std::map<int, int>` read with `[]`, so a missing index reads `0`. -/
def readBuckets (nNew : ℤ) : ℤ → ℕ → (ℤ → ℤ) → Reader (ℤ → ℤ)
  | _, 0, entryToBucket => pure entryToBucket
  | bucket, k + 1, entryToBucket => do
    let nSize ← readInt32
    let entryToBucket ← readBucketIndexes nNew bucket nSize.toNat entryToBucket
    readBuckets nNew (bucket + 1) k entryToBucket

/-- The new entry `n` put in the new table: in the slot of the bucket it was written in, when
the format, the bucket count and the asmap version allow and the slot is free, else in the slot
its source gives, if that is free. When the first test reads the table, the bucket is below
`nUBuckets = ADDRMAN_NEW_BUCKET_COUNT`, so the index taken modulo the count is the bucket. -/
def rebucketEntry (format : ℕ) (nUBuckets : ℤ) (asmapVersionsEqual : Bool)
    (entryToBucket : ℤ → ℤ) (s : CAddrMan A K) (n : ℤ) : CAddrMan A K :=
  let info := s.info n
  let bucket := entryToBucket n
  let nUBucketPos := env.getBucketPosition s.nKey info.toCService true bucket
  let b : Fin addrmanNewBucketCount :=
    ⟨bucket.toNat % addrmanNewBucketCount, Nat.mod_lt _ (Nat.two_pow_pos _)⟩
  if format ≥ formatV2Asmap ∧ nUBuckets = addrmanNewBucketCount ∧ s.vvNew b nUBucketPos = -1 ∧
      info.nRefCount < addrmanNewBucketsPerAddress ∧ asmapVersionsEqual = true then
    -- Bucketing has not changed, using existing bucket positions for the new table
    (s.setNew b nUBucketPos n).setInfo n { info with nRefCount := info.nRefCount + 1 }
  else
    -- try to give them a reference based on their primary source address
    let bucket := env.getNewBucket s.nKey info.toCService info.source
    let nUBucketPos := env.getBucketPosition s.nKey info.toCService true bucket.val
    if s.vvNew bucket nUBucketPos = -1 then
      (s.setNew bucket nUBucketPos n).setInfo n { info with nRefCount := info.nRefCount + 1 }
    else s

/-- The pruning of the new entries without references, over the ids in ascending order. -/
def pruneLoop : List ℤ → CAddrMan A K → CAddrMan A K
  | [], s => s
  | nId :: ids, s =>
    match s.mapInfo nId with
    | some info =>
      if info.fInTried = false ∧ info.nRefCount = 0 then pruneLoop ids (s.delete nId)
      else pruneLoop ids s
    | none => pruneLoop ids s

/-- `Unserialize`, from the state `s` and the fresh key `Clear()` draws. `readAddrInfo addrv2`
reads what `s >> info` reads of an entry; `suppliedAsmapVersion` is the hash of the asmap in
use, or zero. The keys of `mapInfo`, over which the pruning iterates in ascending order, are the
ids of `vRandom`. -/
def unserialize (env : AddrManEnv A (List UInt8))
    (readAddrInfo : Bool → Reader (CAddress A × A × ℤ × ℤ)) (suppliedAsmapVersion : List UInt8)
    (s : CAddrMan A (List UInt8)) (nKey : List UInt8) : Reader (CAddrMan A (List UInt8)) := do
  let s := s.clear nKey
  let format ← serReaddata8
  if format.toNat > formatV3Bip155 then throw (unsupportedFormat format.toNat)
  let readInfo : Reader (CAddrInfo A) := do
    let r ← readAddrInfo (decide (format.toNat ≥ formatV3Bip155))
    pure (infoOfRead r)
  let nKeySize ← serReaddata8
  if nKeySize ≠ 32 then throw incorrectKeysize
  let nKey ← readBytes 32
  let nNew ← readInt32
  let nTried ← readInt32
  let nUBucketsBits ← serReaddata32
  let nUBuckets := int32OfBits
    (if format.toNat ≥ formatV1Deterministic then nUBucketsBits ^^^ 2 ^ 30 else nUBucketsBits)
  if nNew > addrmanNewBucketCount * addrmanBucketSize then throw nNewExceedsLimit
  if nTried > addrmanTriedBucketCount * addrmanBucketSize then throw nTriedExceedsLimit
  let s := { s with nKey, nNew, nTried }
  -- Deserialize entries from the new table.
  let s ← readNewEntries readInfo 0 nNew.toNat s
  let s := { s with nIdCount := nNew }
  -- Deserialize entries from the tried table.
  let (s, nLost) ← readTriedEntries env readInfo nTried.toNat (s, 0)
  let s := { s with nTried := s.nTried - nLost }
  -- Store positions in the new table buckets to apply later (if possible).
  let entryToBucket ← readBuckets nNew 0 nUBuckets.toNat fun _ => 0
  let serializedAsmapVersion ← (if format.toNat ≥ formatV2Asmap then readBytes 32
    else pure (List.replicate 32 0))
  let asmapVersionsEqual := suppliedAsmapVersion == serializedAsmapVersion
  let s := ((List.range nNew.toNat).map fun n : ℕ => (n : ℤ)).foldl
    (rebucketEntry env format.toNat nUBuckets asmapVersionsEqual entryToBucket) s
  -- Prune new entries with refcount 0 (as a result of collisions).
  pure (pruneLoop (s.vRandom.insertionSort (· ≤ ·)) s)

section Errors

variable (env : AddrManEnv A (List UInt8))
  (readAddrInfo : Bool → Reader (CAddress A × A × ℤ × ℤ)) (suppliedAsmapVersion : List UInt8)
  (s : CAddrMan A (List UInt8)) (nKey : List UInt8)

/-- A format newer than `V3_BIP155` is rejected, with its number in the message. -/
theorem unserialize_unsupportedFormat {format : UInt8} (hf : formatV3Bip155 < format.toNat)
    (rest : List UInt8) :
    (unserialize env readAddrInfo suppliedAsmapVersion s nKey).run (format :: rest) =
      .error (unsupportedFormat format.toNat) := by
  simp [unserialize, StateT.run, bind, StateT.bind, serReaddata8, hf, Except.bind, throw,
    throwThe, MonadExceptOf.throw, StateT.lift]

/-- A supported format with a key size other than 32 is rejected. -/
theorem unserialize_incorrectKeysize {format nKeySize : UInt8}
    (hf : format.toNat ≤ formatV3Bip155) (hk : nKeySize ≠ 32) (rest : List UInt8) :
    (unserialize env readAddrInfo suppliedAsmapVersion s nKey).run (format :: nKeySize :: rest) =
      .error incorrectKeysize := by
  simp [unserialize, StateT.run, bind, StateT.bind, serReaddata8, Nat.not_lt.mpr hf, hk,
    Except.bind, throw, throwThe, MonadExceptOf.throw, StateT.lift]

end Errors

/-- A `peers.dat` of format 1 with the key size 32, a zero key, `nNew = -1` (`FF FF FF FF`),
`nTried = 0` and no bucket (`1 << 30`, which the format xors away). -/
def negativeNNewStream : List UInt8 :=
  [1, 32] ++ List.replicate 32 0 ++ [0xFF, 0xFF, 0xFF, 0xFF] ++ [0, 0, 0, 0] ++ [0, 0, 0, 0x40]

/-- `Unserialize` reads a `peers.dat` whose `nNew` is `-1` without throwing, and leaves `nNew`
and `nIdCount` at `-1` with no entry: the state does not satisfy the invariant. -/
theorem unserialize_negative_nNew (env : AddrManEnv A (List UInt8))
    (readAddrInfo : Bool → Reader (CAddress A × A × ℤ × ℤ)) (suppliedAsmapVersion : List UInt8)
    (s : CAddrMan A (List UInt8)) (nKey : List UInt8) :
    ∃ s', (unserialize env readAddrInfo suppliedAsmapVersion s nKey).run negativeNNewStream =
      .ok (s', []) ∧ s'.nNew = -1 ∧ s'.nIdCount = -1 ∧ ¬Consistent env s' := by
  obtain ⟨s', hrun, hnew, hrandom, hid⟩ : ∃ s',
      (unserialize env readAddrInfo suppliedAsmapVersion s nKey).run negativeNNewStream =
        .ok (s', []) ∧ s'.nNew = -1 ∧ s'.vRandom = [] ∧ s'.nIdCount = -1 :=
    ⟨_, rfl, rfl, rfl, rfl⟩
  refine ⟨s', hrun, hnew, hid, fun h => ?_⟩
  -- `nNew` counts the new entries of `vRandom`, of which there are none
  have hcount := h.counts.nNew_eq
  rw [hnew, hrandom] at hcount
  cases hcount

end CAddrMan

end BitcoinCash
