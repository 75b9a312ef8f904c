import Mathlib.Data.List.Basic
import Mathlib.Tactic.SplitIfs
import BitcoinCash.Script.Machine
import BitcoinCash.Control.InputLoop
import BitcoinCash.Data.FilterRange

/-!
# Compact block reconstruction

A peer announces a block as a `CBlockHeaderAndShortTxIDs` (`blockencodings.h`): the header,
six-byte short ids of most transactions, and a few transactions in full ("prefilled"), whose
positions in the block are sent as offsets from the previous prefilled one. The receiver's
`PartiallyDownloadedBlock::InitData` lays out `txns_available`, one slot per transaction of the
block: it puts each prefilled transaction at its position, gives the short ids the remaining
slots in order, and fills the slots whose short id it recognises from its mempool and from a
list of extra transactions. `FillBlock` completes the block with the transactions it had to
request, in the order of the empty slots.

Every count and offset comes from the peer. An index outside `txns_available` or `have_txn`
is undefined behaviour in the source; the model stops there with an `IndexFault`. The keyed
short-id hash `SipHashUint256`, the transaction hash, the bucket statistics of the
`unordered_map` and `CheckBlock` are left open, as the fields of a `CompactBlockEnv`.
-/

namespace BitcoinCash

/-! ### Messages and the functions the model leaves open -/

/-- `ReadStatus`. -/
inductive ReadStatus
  | ok
  /-- invalid object: the peer is sending bogus data -/
  | invalid
  /-- failed to process object -/
  | failed
  /-- used only by `FillBlock` to indicate a failure in `CheckBlock` -/
  | checkblockFailed
  deriving DecidableEq, Repr

/-- `CBlockHeader`. -/
structure BlockHeader where
  nVersion : Int32
  hashPrevBlock : Vector UInt8 32
  hashMerkleRoot : Vector UInt8 32
  nTime : UInt32
  nBits : UInt32
  nNonce : UInt32

/-- `CBlockHeader::IsNull`. -/
def BlockHeader.isNull (header : BlockHeader) : Bool := header.nBits == 0

/-- `CTransaction::IsNull`. -/
def Transaction.isNull (tx : Transaction) : Bool := tx.vin.isEmpty && tx.vout.isEmpty

/-- `PrefilledTransaction`. In a `CBlockHeaderAndShortTxIDs`, `index` is an offset since the last
prefilled transaction. -/
structure PrefilledTransaction where
  index : UInt32
  tx : Transaction

/-- `CBlockHeaderAndShortTxIDs`, with the keys `FillShortTxIDSelector` derives on reading. -/
structure CBlockHeaderAndShortTxIDs where
  shorttxidk0 : UInt64
  shorttxidk1 : UInt64
  shorttxids : List UInt64
  prefilledtxn : List PrefilledTransaction
  header : BlockHeader

/-- What `CheckBlock` and its validation state say of a reconstructed block. -/
inductive CheckBlockResult
  | valid
  /-- `CheckBlock` fails and `state.CorruptionPossible()`: possibly a short id collision -/
  | corruptionPossible
  | invalid

/-- `std::unordered_map<uint64_t, uint32_t>` of short ids: its entries, the one written last
first. -/
structure ShortIdMap where
  entries : List (UInt64 × ℕ)

/-- `shorttxids[key] = value`. -/
def ShortIdMap.insert (m : ShortIdMap) (key : UInt64) (value : ℕ) : ShortIdMap :=
  ⟨(key, value) :: m.entries.filter fun entry => entry.1 != key⟩

/-- `shorttxids.find(key)`. -/
def ShortIdMap.find (m : ShortIdMap) (key : UInt64) : Option ℕ := m.entries.lookup key

/-- `shorttxids.size()`. -/
def ShortIdMap.size (m : ShortIdMap) : ℕ := m.entries.length

/-- The functions compact block reconstruction calls and the model leaves open. -/
structure CompactBlockEnv where
  /-- `SipHashUint256(k0, k1, txhash)`. -/
  sipHashUint256 : UInt64 → UInt64 → Vector UInt8 32 → UInt64
  /-- `CTransaction::GetHash()`. -/
  getHash : Transaction → Vector UInt8 32
  /-- `config->GetExcessiveBlockSize()`. -/
  excessiveBlockSize : ℕ
  /-- Whether, after an insertion, the bucket of a key in the `unordered_map` of short ids
  holds more than 12 entries. -/
  bucketOverfull : ShortIdMap → UInt64 → Bool
  /-- `CheckBlock` on the header and the transactions of a block. -/
  checkBlock : BlockHeader → List Transaction → CheckBlockResult

/-- `MIN_TRANSACTION_SIZE`: the serialized size of `CTransaction::null`, a version, two empty
vectors and a lock time. -/
def minTransactionSize : ℕ := 10

namespace CBlockHeaderAndShortTxIDs

/-- `BlockTxCount()`. -/
def blockTxCount (cmpctblock : CBlockHeaderAndShortTxIDs) : ℕ :=
  cmpctblock.shorttxids.length + cmpctblock.prefilledtxn.length

/-- `GetShortID`: six bytes of the keyed hash. -/
def getShortID (env : CompactBlockEnv) (cmpctblock : CBlockHeaderAndShortTxIDs)
    (txhash : Vector UInt8 32) : UInt64 :=
  env.sipHashUint256 cmpctblock.shorttxidk0 cmpctblock.shorttxidk1 txhash &&& 0xffffffffffff

end CBlockHeaderAndShortTxIDs

/-- `PartiallyDownloadedBlock`, without its `pool` and `config`. -/
structure PartiallyDownloadedBlock where
  txnsAvailable : List (Option Transaction)
  prefilledCount : ℕ
  mempoolCount : ℕ
  extraCount : ℕ
  header : BlockHeader

/-! ### Vector accesses -/

/-- An index outside a vector of `InitData`, undefined behaviour in the source. -/
inductive IndexFault
  | txnsAvailable (i : ℕ)
  | haveTxn (i : ℕ)
  deriving DecidableEq, Repr

/-- How `InitData` ends before its end: it returns a status, or indexes outside a vector. -/
inductive InitExit
  | status (r : ReadStatus)
  | fault (f : IndexFault)
  deriving DecidableEq, Repr

/-- `v[i]`, which must be inside `v`. -/
def readSlot {α : Type} (v : List α) (i : ℕ) (f : IndexFault) : Except InitExit α :=
  match v[i]? with
  | some a => .ok a
  | none => .error (.fault f)

/-- `v[i] = a`, which must be inside `v`. -/
def writeSlot {α : Type} (v : List α) (i : ℕ) (a : α) (f : IndexFault) :
    Except InitExit (List α) :=
  if i < v.length then .ok (v.set i a) else .error (.fault f)

/-! ### `InitData` -/

namespace PartiallyDownloadedBlock

/-- The loop over `prefilledtxn`: the `i`-th prefilled transaction goes at
`lastprefilledindex + index + 1`, which must lie below `shorttxids.size() + i + 1`. -/
def placePrefilled (nShortIds : ℕ) :
    ℕ → ℤ → List (Option Transaction) → List PrefilledTransaction →
      Except InitExit (List (Option Transaction))
  | _, _, txnsAvailable, [] => .ok txnsAvailable
  | i, lastprefilledindex, txnsAvailable, prefilledtxn :: rest =>
    if prefilledtxn.tx.isNull then .error (.status .invalid)
    else
      let lastprefilledindex := lastprefilledindex + prefilledtxn.index.toNat + 1
      if lastprefilledindex > 4294967295 then .error (.status .invalid)
      -- a transaction for which there is neither a prefilled transaction nor a short id
      else if lastprefilledindex.toNat > nShortIds + i then .error (.status .invalid)
      else do
        let txnsAvailable ← writeSlot txnsAvailable lastprefilledindex.toNat
          (some prefilledtxn.tx) (.txnsAvailable lastprefilledindex.toNat)
        placePrefilled nShortIds (i + 1) lastprefilledindex txnsAvailable rest

set_option linter.unusedVariables false in
/-- `while (txns_available[i + index_offset]) index_offset++;`: skips the slots prefilled
transactions took. -/
def skipPrefilled (txnsAvailable : List (Option Transaction)) (i indexOffset : ℕ) :
    Except InitExit ℕ :=
  match h : txnsAvailable[i + indexOffset]? with
  | none => .error (.fault (.txnsAvailable (i + indexOffset)))
  | some none => .ok indexOffset
  | some (some _) => skipPrefilled txnsAvailable i (indexOffset + 1)
termination_by txnsAvailable.length - (i + indexOffset)
decreasing_by
  have := (List.getElem?_eq_some_iff.mp h).1
  omega

/-- The loop over `shorttxids`: the `i`-th short id is mapped to `i + index_offset`, past the
prefilled slots. -/
def assignShortIds (env : CompactBlockEnv) (txnsAvailable : List (Option Transaction)) :
    ℕ → ℕ → ShortIdMap → List UInt64 → Except InitExit ShortIdMap
  | _, _, shorttxids, [] => .ok shorttxids
  | i, indexOffset, shorttxids, shortid :: rest => do
    let indexOffset ← skipPrefilled txnsAvailable i indexOffset
    let shorttxids := shorttxids.insert shortid (i + indexOffset)
    if env.bucketOverfull shorttxids shortid then throw (.status .failed)
    assignShortIds env txnsAvailable (i + 1) indexOffset shorttxids rest

/-- What the scans of the mempool and of the extra transactions update. -/
structure ScanState where
  txnsAvailable : List (Option Transaction)
  haveTxn : List Bool
  mempoolCount : ℕ
  extraCount : ℕ

/-- The loop over the mempool: a transaction whose short id is known fills its slot; a second
one for the same slot empties it again, to be requested. -/
def scanMempool (env : CompactBlockEnv) (cmpctblock : CBlockHeaderAndShortTxIDs)
    (shorttxids : ShortIdMap) : ScanState → List Transaction → Except InitExit ScanState
  | st, [] => .ok st
  | st, entry :: pool => do
    let shortid := cmpctblock.getShortID env (env.getHash entry)
    let st ← match shorttxids.find shortid with
      | none => pure st
      | some idx => do
        let haveTxnIdx ← readSlot st.haveTxn idx (.haveTxn idx)
        if !haveTxnIdx then
          let txnsAvailable ← writeSlot st.txnsAvailable idx (some entry) (.txnsAvailable idx)
          let haveTxn ← writeSlot st.haveTxn idx true (.haveTxn idx)
          pure { st with txnsAvailable, haveTxn, mempoolCount := st.mempoolCount + 1 }
        else
          let available ← readSlot st.txnsAvailable idx (.txnsAvailable idx)
          if available.isSome then
            let txnsAvailable ← writeSlot st.txnsAvailable idx none (.txnsAvailable idx)
            pure { st with txnsAvailable, mempoolCount := st.mempoolCount - 1 }
          else pure st
    if st.mempoolCount = shorttxids.size then pure st
    else scanMempool env cmpctblock shorttxids st pool

/-- The loop over the extra transactions: as the mempool scan, but a second transaction empties
the slot only if its hash differs from the one already there. -/
def scanExtra (env : CompactBlockEnv) (cmpctblock : CBlockHeaderAndShortTxIDs)
    (shorttxids : ShortIdMap) :
    ScanState → List (Vector UInt8 32 × Transaction) → Except InitExit ScanState
  | st, [] => .ok st
  | st, extraTxn :: extraTxns => do
    let shortid := cmpctblock.getShortID env extraTxn.1
    let st ← match shorttxids.find shortid with
      | none => pure st
      | some idx => do
        let haveTxnIdx ← readSlot st.haveTxn idx (.haveTxn idx)
        if !haveTxnIdx then
          let txnsAvailable ← writeSlot st.txnsAvailable idx (some extraTxn.2)
            (.txnsAvailable idx)
          let haveTxn ← writeSlot st.haveTxn idx true (.haveTxn idx)
          pure { st with txnsAvailable, haveTxn, mempoolCount := st.mempoolCount + 1,
                         extraCount := st.extraCount + 1 }
        else
          let available ← readSlot st.txnsAvailable idx (.txnsAvailable idx)
          match available with
          | some tx =>
            if env.getHash tx ≠ env.getHash extraTxn.2 then
              let txnsAvailable ← writeSlot st.txnsAvailable idx none (.txnsAvailable idx)
              pure { st with txnsAvailable, mempoolCount := st.mempoolCount - 1,
                             extraCount := st.extraCount - 1 }
            else pure st
          | none => pure st
    if st.mempoolCount = shorttxids.size then pure st
    else scanExtra env cmpctblock shorttxids st extraTxns

/-- `InitData(cmpctblock, extra_txn)` on a fresh block, with the mempool's transactions in
index order. `.ok` is `READ_STATUS_OK` with the block it lays out. -/
def initData (env : CompactBlockEnv) (cmpctblock : CBlockHeaderAndShortTxIDs)
    (pool : List Transaction) (extraTxns : List (Vector UInt8 32 × Transaction)) :
    Except InitExit PartiallyDownloadedBlock :=
  if cmpctblock.header.isNull ||
      (cmpctblock.shorttxids.isEmpty && cmpctblock.prefilledtxn.isEmpty) then
    .error (.status .invalid)
  else if cmpctblock.shorttxids.length + cmpctblock.prefilledtxn.length >
      env.excessiveBlockSize / minTransactionSize then
    .error (.status .invalid)
  else do
    let txnsAvailable ← placePrefilled cmpctblock.shorttxids.length 0 (-1)
      (List.replicate cmpctblock.blockTxCount none) cmpctblock.prefilledtxn
    let shorttxids ← assignShortIds env txnsAvailable 0 0 ⟨[]⟩ cmpctblock.shorttxids
    -- short id collision
    if shorttxids.size ≠ cmpctblock.shorttxids.length then .error (.status .failed)
    else do
      let st ← scanMempool env cmpctblock shorttxids
        { txnsAvailable, haveTxn := List.replicate txnsAvailable.length false, mempoolCount := 0,
          extraCount := 0 } pool
      let st ← scanExtra env cmpctblock shorttxids st extraTxns
      pure { txnsAvailable := st.txnsAvailable, prefilledCount := cmpctblock.prefilledtxn.length,
             mempoolCount := st.mempoolCount, extraCount := st.extraCount,
             header := cmpctblock.header }

/-! ### `FillBlock` -/

/-- The loop of `FillBlock` from `tx_missing_offset`: an available transaction is kept, an
empty slot takes the next missing transaction; `none` is `READ_STATUS_INVALID`, when they run
out. The result is the block's transactions and the final offset. -/
def fillBlockLoop (vtxMissing : List Transaction) :
    List (Option Transaction) → ℕ → Option (List Transaction × ℕ)
  | [], txMissingOffset => some ([], txMissingOffset)
  | some tx :: rest, txMissingOffset =>
    (fillBlockLoop vtxMissing rest txMissingOffset).map fun r => (tx :: r.1, r.2)
  | none :: rest, txMissingOffset =>
    match vtxMissing[txMissingOffset]? with
    | none => none
    | some tx => (fillBlockLoop vtxMissing rest (txMissingOffset + 1)).map fun r => (tx :: r.1, r.2)

/-- `FillBlock(block, vtx_missing)`: `.ok` is `READ_STATUS_OK` with the block's transactions;
on any other status the caller discards the block. -/
def fillBlock (env : CompactBlockEnv) (pdb : PartiallyDownloadedBlock)
    (vtxMissing : List Transaction) : Except ReadStatus (List Transaction) :=
  match fillBlockLoop vtxMissing pdb.txnsAvailable 0 with
  | none => .error .invalid
  | some (vtx, txMissingOffset) =>
    if vtxMissing.length ≠ txMissingOffset then .error .invalid
    else
      match env.checkBlock pdb.header vtx with
      | .valid => .ok vtx
      -- possible short id collision
      | .corruptionPossible => .error .failed
      | .invalid => .error .checkblockFailed

/-! ### What the loops compute -/

/-- The empty slots of a layout from position `k` on, in order. -/
def emptySlotsFrom {α : Type} (txnsAvailable : List (Option α)) (k : ℕ) : List ℕ :=
  FilterRange.filterFrom (fun j => (txnsAvailable.getD j none).isNone) txnsAvailable.length k

/-- The positions of the prefilled transactions, decoded from their offsets, from `next`, one
past the position of the previous one. -/
def prefilledPositions : ℕ → List PrefilledTransaction → List ℕ
  | _, [] => []
  | next, prefilledtxn :: rest =>
    (next + prefilledtxn.index.toNat) :: prefilledPositions (next + prefilledtxn.index.toNat + 1) rest

/-- The slots of a block not taken by a prefilled transaction, in order. -/
def shortIdSlots (cmpctblock : CBlockHeaderAndShortTxIDs) : List ℕ :=
  FilterRange.filterFrom (fun j => !(prefilledPositions 0 cmpctblock.prefilledtxn).contains j)
    cmpctblock.blockTxCount 0

/-- A transaction the scans may put in the slot of `shortid`: one of the mempool with that short
id, or an extra transaction listed with a hash of that short id. -/
def announcedIn (env : CompactBlockEnv) (cmpctblock : CBlockHeaderAndShortTxIDs)
    (pool : List Transaction) (extraTxns : List (Vector UInt8 32 × Transaction))
    (shortid : UInt64) (tx : Transaction) : Prop :=
  (tx ∈ pool ∧ cmpctblock.getShortID env (env.getHash tx) = shortid) ∨
    ∃ txhash, (txhash, tx) ∈ extraTxns ∧ cmpctblock.getShortID env txhash = shortid

/-- What the scans keep of a layout: a slot that no pair of `kvs` names is as laid out, and a
transaction in the slot of a pair was announced under the pair's short id. -/
def Announced (layout : List (Option Transaction)) (kvs : List (UInt64 × ℕ))
    (Ann : UInt64 → Transaction → Prop) (txnsAvailable : List (Option Transaction)) : Prop :=
  (∀ j, (∀ e ∈ kvs, e.2 ≠ j) → txnsAvailable[j]? = layout[j]?) ∧
    ∀ e ∈ kvs, ∀ tx, txnsAvailable[e.2]? = some (some tx) → Ann e.1 tx

/-- A layout completed with the transactions of `vtx`, which fill its empty slots in order. -/
def fillSlots {α : Type} : List (Option α) → List α → List α
  | [], _ => []
  | some tx :: rest, vtx => tx :: fillSlots rest vtx
  | none :: rest, [] => fillSlots rest []
  | none :: rest, tx :: vtx => tx :: fillSlots rest vtx

section Accesses

variable {α : Type} {v : List α} {i : ℕ} {f : IndexFault}

theorem readSlot_of_lt (h : i < v.length) : readSlot v i f = .ok v[i] := by
  rw [readSlot, List.getElem?_eq_getElem h]

theorem writeSlot_of_lt (h : i < v.length) (a : α) : writeSlot v i a f = .ok (v.set i a) := by
  rw [writeSlot, if_pos h]

/-- Every position a map finds was written into it. -/
theorem ShortIdMap.mem_of_find {m : ShortIdMap} {key : UInt64} {value : ℕ}
    (h : m.find key = some value) : (key, value) ∈ m.entries := by
  obtain ⟨l₁, l₂, hl, -⟩ := List.lookup_eq_some_iff.mp h
  rw [hl]
  exact List.mem_append_right _ List.mem_cons_self

theorem ShortIdMap.mem_insert {m : ShortIdMap} {key : UInt64} {value : ℕ} {e : UInt64 × ℕ}
    (he : e ∈ (m.insert key value).entries) : e = (key, value) ∨ e ∈ m.entries := by
  rcases List.mem_cons.mp he with rfl | he
  · exact .inl rfl
  · exact .inr (List.mem_of_mem_filter he)

end Accesses

/-! ### Lists of pairs -/

section Zip

variable {α β : Type} {l₁ : List α} {l₂ : List β}

/-- Zipped with a list without duplicates, a list is a function of the second components. -/
theorem fst_eq_of_mem_zip (hnd : l₂.Nodup) {a a' : α} {b : β} (h : (a, b) ∈ l₁.zip l₂)
    (h' : (a', b) ∈ l₁.zip l₂) : a = a' := by
  obtain ⟨i, hi⟩ := List.mem_iff_getElem?.mp h
  obtain ⟨i', hi'⟩ := List.mem_iff_getElem?.mp h'
  rw [List.getElem?_zip_eq_some] at hi hi'
  -- `b` stands at one position only
  obtain ⟨hlt, hb⟩ := List.getElem?_eq_some_iff.mp hi.2
  obtain ⟨hlt', hb'⟩ := List.getElem?_eq_some_iff.mp hi'.2
  have hii : i = i' := hnd.getElem_inj_iff.mp (hb.trans hb'.symm)
  rw [hii] at hi
  exact Option.some_inj.mp (hi.1.symm.trans hi'.1)

theorem exists_mem_zip_of_mem_right (hlen : l₁.length = l₂.length) {b : β} (h : b ∈ l₂) :
    ∃ a, (a, b) ∈ l₁.zip l₂ := by
  obtain ⟨i, hi⟩ := List.mem_iff_getElem?.mp h
  have hlt : i < l₁.length := hlen ▸ (List.getElem?_eq_some_iff.mp hi).1
  exact ⟨l₁[i], List.mem_iff_getElem?.mpr
    ⟨i, List.getElem?_zip_eq_some.mpr ⟨List.getElem?_eq_getElem hlt, hi⟩⟩⟩

end Zip

/-! ### The short ids -/

section ShortIds

variable {l : List (Option Transaction)}

/-- The `while` loop stops at the first empty slot from `i + index_offset`. -/
theorem skipPrefilled_of_emptySlotsFrom {i off j : ℕ} {rest : List ℕ}
    (h : emptySlotsFrom l (i + off) = j :: rest) : skipPrefilled l i off = .ok (j - i) := by
  fun_induction skipPrefilled l i off with
  | case1 off hnone =>
    rw [emptySlotsFrom, FilterRange.filterFrom_of_le (List.getElem?_eq_none_iff.mp hnone)] at h
    cases h
  | case2 off hempty =>
    have hlt : i + off < l.length := (List.getElem?_eq_some_iff.mp hempty).1
    have hp : (l.getD (i + off) none).isNone = true := by
      rw [List.getD_eq_getElem?_getD, hempty]
      rfl
    rw [emptySlotsFrom, FilterRange.filterFrom_of_lt hlt, if_pos hp, List.cons.injEq] at h
    rw [← h.1, Nat.add_sub_cancel_left]
  | case3 off tx hfull ih =>
    have hlt : i + off < l.length := (List.getElem?_eq_some_iff.mp hfull).1
    have hp : (l.getD (i + off) none).isNone = false := by
      rw [List.getD_eq_getElem?_getD, hfull]
      rfl
    rw [emptySlotsFrom, FilterRange.filterFrom_of_lt hlt, hp] at h
    exact ih (by rw [emptySlotsFrom, ← Nat.add_assoc]; exact h)

/-- With a short id left and a slot for it: the next empty slot `j` from `i + off`, and the slots
after it, which the loop looks through from `i + 1` with the offset `j - i`. -/
theorem exists_emptySlotsFrom_cons {i off n : ℕ}
    (hlen : n + 1 ≤ (emptySlotsFrom l (i + off)).length) :
    ∃ j rest, emptySlotsFrom l (i + off) = j :: rest ∧ i + (j - i) = j ∧
      emptySlotsFrom l (i + 1 + (j - i)) = rest ∧ n ≤ rest.length := by
  cases hs : emptySlotsFrom l (i + off) with
  | nil =>
    rw [hs, List.length_nil] at hlen
    omega
  | cons j rest =>
    obtain ⟨hij, -, -, -, hrest⟩ := FilterRange.filterFrom_eq_cons hs
    refine ⟨j, rest, rfl, by omega, ?_, ?_⟩
    · rw [show i + 1 + (j - i) = j + 1 by omega]
      exact hrest
    · rw [hs, List.length_cons] at hlen
      omega

/-- The loop over the short ids gives the `k`-th short id the `k`-th empty slot from where it
starts: it stops early only when a bucket overflows, and otherwise makes these assignments in
order. -/
theorem assignShortIds_spec (env : CompactBlockEnv) (keys : List UInt64) :
    ∀ (i off : ℕ) (m : ShortIdMap), keys.length ≤ (emptySlotsFrom l (i + off)).length →
      (∀ e, assignShortIds env l i off m keys = .error e → e = .status .failed) ∧
      ∀ m', assignShortIds env l i off m keys = .ok m' →
        m' = (keys.zip (emptySlotsFrom l (i + off))).foldl (fun m e => m.insert e.1 e.2) m := by
  induction keys with
  | nil =>
    intro i off m _
    refine ⟨fun e h => ?_, fun m' h => ?_⟩
    · rw [assignShortIds] at h
      cases h
    · rw [assignShortIds] at h
      cases h
      rfl
  | cons key keys ih =>
    intro i off m hlen
    -- the next empty slot `j`, and the ones after it
    obtain ⟨j, rest, hslots, hj, hnext, hrest⟩ := exists_emptySlotsFrom_cons hlen
    obtain ⟨ihe, iho⟩ := ih (i + 1) (j - i) (m.insert key j) (by rw [hnext]; exact hrest)
    rw [assignShortIds, skipPrefilled_of_emptySlotsFrom hslots, Except.bind_ok', hj]
    dsimp only
    by_cases hover : env.bucketOverfull (m.insert key j) key = true
    · rw [if_pos hover]
      refine ⟨fun e h => ?_, fun m' h => ?_⟩
      · cases h
        rfl
      · cases h
    · rw [if_neg hover, hslots, List.zip_cons_cons, List.foldl_cons, ← hnext]
      exact ⟨ihe, iho⟩

/-- A map built by inserting pairs holds only those pairs and its own. -/
theorem mem_foldl_insert (kvs : List (UInt64 × ℕ)) :
    ∀ (m : ShortIdMap) {e : UInt64 × ℕ}, e ∈ (kvs.foldl (fun m e => m.insert e.1 e.2) m).entries →
      e ∈ kvs ∨ e ∈ m.entries := by
  induction kvs with
  | nil => exact fun m e he => .inr he
  | cons kv kvs ih =>
    intro m e he
    rw [List.foldl_cons] at he
    rcases ih _ he with he | he
    · exact .inl (List.mem_cons_of_mem _ he)
    · rcases ShortIdMap.mem_insert he with rfl | he
      · exact .inl List.mem_cons_self
      · exact .inr he

theorem lt_of_mem_emptySlotsFrom {k j : ℕ} (h : j ∈ emptySlotsFrom l k) : j < l.length :=
  (FilterRange.mem_filterFrom.mp h).2.1

theorem getElem?_of_mem_emptySlotsFrom {k j : ℕ} (h : j ∈ emptySlotsFrom l k) :
    l[j]? = some none := by
  obtain ⟨-, hlt, hnone⟩ := FilterRange.mem_filterFrom.mp h
  rw [List.getD_eq_getElem?_getD, List.getElem?_eq_getElem hlt, Option.getD_some,
    Option.isNone_iff_eq_none] at hnone
  rw [List.getElem?_eq_getElem hlt, hnone]

end ShortIds

/-! ### The prefilled transactions -/

theorem length_prefilledPositions : ∀ (next : ℕ) (ps : List PrefilledTransaction),
    (prefilledPositions next ps).length = ps.length
  | _, [] => rfl
  | next, p :: ps => by
    rw [prefilledPositions, List.length_cons, List.length_cons,
      length_prefilledPositions (next + p.index.toNat + 1) ps]

theorem le_of_mem_prefilledPositions : ∀ {next j : ℕ} {ps : List PrefilledTransaction},
    j ∈ prefilledPositions next ps → next ≤ j
  | _, _, [], h => by cases h
  | next, j, p :: ps, h => by
    rw [prefilledPositions] at h
    rcases List.mem_cons.mp h with rfl | h
    · exact Nat.le_add_right _ _
    · have := le_of_mem_prefilledPositions h
      omega

/-- The decoded positions strictly increase. -/
theorem pairwise_prefilledPositions : ∀ (next : ℕ) (ps : List PrefilledTransaction),
    (prefilledPositions next ps).Pairwise (· < ·)
  | _, [] => List.Pairwise.nil
  | next, p :: ps => by
    rw [prefilledPositions]
    refine List.Pairwise.cons (fun j hj => ?_) (pairwise_prefilledPositions _ ps)
    have := le_of_mem_prefilledPositions hj
    omega

section Prefilled

variable {nShortIds : ℕ}

/-- The loop over the prefilled transactions writes only inside a layout of
`shorttxids.size() + prefilledtxn.size()` slots. -/
theorem placePrefilled_ne_fault (ps : List PrefilledTransaction) :
    ∀ (i : ℕ) (last : ℤ) (avail : List (Option Transaction)),
      avail.length = nShortIds + i + ps.length → -1 ≤ last →
      ∀ f, placePrefilled nShortIds i last avail ps ≠ .error (.fault f) := by
  induction ps with
  | nil =>
    intro i last avail _ _ f h
    rw [placePrefilled] at h
    cases h
  | cons p ps ih =>
    intro i last avail hlen hlast f h
    rw [placePrefilled] at h
    dsimp only at h
    split_ifs at h with hnull hbig hfar
    · cases h
    · cases h
    · cases h
    -- the position is at most `shorttxids.size() + i`, inside the layout
    rw [List.length_cons] at hlen
    rw [writeSlot_of_lt (by omega), Except.bind_ok'] at h
    exact ih (i + 1) _ _ (by rw [List.length_set]; omega) (by omega) f h

/-- On success, the `k`-th prefilled transaction is at the `k`-th decoded position, inside the
layout, and every other slot is as it was, when the slots from `next` on were empty. -/
theorem placePrefilled_eq_ok (ps : List PrefilledTransaction) :
    ∀ (i next : ℕ) (avail avail' : List (Option Transaction)),
      (∀ j, next ≤ j → (h : j < avail.length) → avail[j] = none) →
      placePrefilled nShortIds i ((next : ℤ) - 1) avail ps = .ok avail' →
        (∀ j ∈ prefilledPositions next ps, j < nShortIds + i + ps.length) ∧
        avail'.length = avail.length ∧
        avail'.countP Option.isNone + ps.length = avail.countP Option.isNone ∧
        (∀ e ∈ ps.zip (prefilledPositions next ps), avail'[e.2]? = some (some e.1.tx)) ∧
        ∀ j, j ∉ prefilledPositions next ps → avail'[j]? = avail[j]? := by
  induction ps with
  | nil =>
    intro i next avail avail' _ h
    rw [placePrefilled] at h
    cases h
    exact ⟨fun j hj => absurd hj List.not_mem_nil, rfl, rfl, fun e he => absurd he List.not_mem_nil,
      fun j _ => rfl⟩
  | cons p ps ih =>
    intro i next avail avail' hempty h
    rw [placePrefilled] at h
    dsimp only at h
    split_ifs at h with hnull hbig hfar
    -- the position `next + index` is empty and inside the layout
    have hpos : ((next : ℤ) - 1 + p.index.toNat + 1).toNat = next + p.index.toNat := by omega
    rw [hpos] at h hfar
    have hlt : next + p.index.toNat < avail.length := by
      cases hw : writeSlot avail (next + p.index.toNat) (some p.tx)
          (.txnsAvailable (next + p.index.toNat)) with
      | error e => rw [hw] at h; cases h
      | ok v => rw [writeSlot] at hw; split_ifs at hw with hw'; exact hw'
    rw [writeSlot_of_lt hlt, Except.bind_ok'] at h
    have hlast : ((next : ℤ) - 1 + p.index.toNat + 1) =
        ((next + p.index.toNat + 1 : ℕ) : ℤ) - 1 := by omega
    rw [hlast] at h
    obtain ⟨hbound, hlen, hcount, hplaced, hframe⟩ := ih (i + 1) _ _ avail'
      (fun j hj hj' => by
        rw [List.getElem_set, if_neg (by omega)]
        exact hempty j (by omega) (by rw [List.length_set] at hj'; exact hj'))
      h
    have hnone : avail[next + p.index.toNat] = none := hempty _ (Nat.le_add_right _ _) hlt
    refine ⟨fun j hj => ?_, by rw [hlen, List.length_set], ?_, fun e he => ?_, fun j hj => ?_⟩
    · rw [prefilledPositions] at hj
      rcases List.mem_cons.mp hj with rfl | hj
      · rw [List.length_cons]
        omega
      · have := hbound j hj
        rw [List.length_cons]
        omega
    · rw [List.countP_set hlt, hnone] at hcount
      rw [List.length_cons]
      have hpos' : 0 < avail.countP Option.isNone :=
        List.countP_pos_iff.mpr ⟨_, List.getElem_mem hlt, by rw [hnone]; rfl⟩
      simp only [Option.isNone_none, Option.isNone_some, if_true, Bool.false_eq_true,
        if_false] at hcount
      omega
    · rw [prefilledPositions, List.zip_cons_cons] at he
      rcases List.mem_cons.mp he with rfl | he
      · have hlater : next + p.index.toNat ∉ prefilledPositions (next + p.index.toNat + 1) ps :=
          fun hmem => absurd (le_of_mem_prefilledPositions hmem) (by omega)
        rw [hframe _ hlater, List.getElem?_set_self hlt]
      · exact hplaced e he
    · rw [prefilledPositions, List.mem_cons, not_or] at hj
      rw [hframe j hj.2, List.getElem?_set_ne (Ne.symm hj.1)]

end Prefilled

/-! ### The scans of the mempool and of the extra transactions -/

/-- Both vectors a scan writes have `N` slots. -/
def ScanState.Sized (N : ℕ) (st : ScanState) : Prop :=
  st.txnsAvailable.length = N ∧ st.haveTxn.length = N

/-- What the scans do for one transaction `tx` with short id `shortid`: nothing to
`txns_available`, or a write of `tx` or of nothing into the slot the short id maps to. -/
inductive ScanMove (shorttxids : ShortIdMap) (shortid : UInt64) (tx : Transaction) :
    ScanState → ScanState → Prop
  | keep {st st' : ScanState} (havail : st'.txnsAvailable = st.txnsAvailable)
      (hhave : st'.haveTxn.length = st.haveTxn.length) : ScanMove shorttxids shortid tx st st'
  | write {st st' : ScanState} (idx : ℕ) (a : Option Transaction)
      (hfind : shorttxids.find shortid = some idx) (ha : a = none ∨ a = some tx)
      (havail : st'.txnsAvailable = st.txnsAvailable.set idx a)
      (hhave : st'.haveTxn.length = st.haveTxn.length) : ScanMove shorttxids shortid tx st st'

section Scans

variable {env : CompactBlockEnv} {cmpctblock : CBlockHeaderAndShortTxIDs} {shorttxids : ShortIdMap}
  {N : ℕ}

theorem ScanMove.sized {shortid : UInt64} {tx : Transaction} {st st' : ScanState}
    (h : ScanMove shorttxids shortid tx st st') (hst : st.Sized N) : st'.Sized N := by
  obtain ⟨hlen, hhave⟩ := hst
  cases h with
  | keep havail hhave' => exact ⟨by rw [havail, hlen], by rw [hhave', hhave]⟩
  | write idx a _ _ havail hhave' =>
    exact ⟨by rw [havail, List.length_set, hlen], by rw [hhave', hhave]⟩

/-- One transaction of the mempool scan: a `ScanMove`, then the scan returns when every short id
has a transaction, and goes on otherwise. Its accesses are inside the vectors when the map's
slots are. -/
theorem scanMempool_cons (hm : ∀ e ∈ shorttxids.entries, e.2 < N) {st : ScanState}
    (hst : st.Sized N) (entry : Transaction) (pool : List Transaction) :
    ∃ st1, ScanMove shorttxids (cmpctblock.getShortID env (env.getHash entry)) entry st st1 ∧
      scanMempool env cmpctblock shorttxids st (entry :: pool) =
        if st1.mempoolCount = shorttxids.size then pure st1
        else scanMempool env cmpctblock shorttxids st1 pool := by
  obtain ⟨hlen, hhave⟩ := hst
  rw [scanMempool]
  cases hfind : shorttxids.find (cmpctblock.getShortID env (env.getHash entry)) with
  | none => exact ⟨st, .keep rfl rfl, rfl⟩
  | some idx =>
    have hidx : idx < N := hm _ (ShortIdMap.mem_of_find hfind)
    dsimp only
    rw [readSlot_of_lt (by omega), Except.bind_ok']
    by_cases hnew : (!st.haveTxn[idx]) = true
    · rw [if_pos hnew, writeSlot_of_lt (by omega), Except.bind_ok', writeSlot_of_lt (by omega),
        Except.bind_ok', Except.pure_eq_ok, Except.bind_ok']
      exact ⟨_, .write idx _ hfind (.inr rfl) rfl List.length_set, rfl⟩
    · rw [if_neg hnew, readSlot_of_lt (by omega), Except.bind_ok']
      by_cases havail : st.txnsAvailable[idx].isSome = true
      · rw [if_pos havail, writeSlot_of_lt (by omega), Except.bind_ok', Except.pure_eq_ok,
          Except.bind_ok']
        refine ⟨_, ?_, rfl⟩
        exact .write idx none hfind (.inl rfl) rfl rfl
      · rw [if_neg havail, Except.pure_eq_ok, Except.bind_ok']
        exact ⟨st, .keep rfl rfl, rfl⟩

/-- One extra transaction, likewise. -/
theorem scanExtra_cons (hm : ∀ e ∈ shorttxids.entries, e.2 < N) {st : ScanState}
    (hst : st.Sized N) (extraTxn : Vector UInt8 32 × Transaction)
    (extraTxns : List (Vector UInt8 32 × Transaction)) :
    ∃ st1, ScanMove shorttxids (cmpctblock.getShortID env extraTxn.1) extraTxn.2 st st1 ∧
      scanExtra env cmpctblock shorttxids st (extraTxn :: extraTxns) =
        if st1.mempoolCount = shorttxids.size then pure st1
        else scanExtra env cmpctblock shorttxids st1 extraTxns := by
  obtain ⟨hlen, hhave⟩ := hst
  rw [scanExtra]
  cases hfind : shorttxids.find (cmpctblock.getShortID env extraTxn.1) with
  | none => exact ⟨st, .keep rfl rfl, rfl⟩
  | some idx =>
    have hidx : idx < N := hm _ (ShortIdMap.mem_of_find hfind)
    dsimp only
    rw [readSlot_of_lt (by omega), Except.bind_ok']
    by_cases hnew : (!st.haveTxn[idx]) = true
    · rw [if_pos hnew, writeSlot_of_lt (by omega), Except.bind_ok', writeSlot_of_lt (by omega),
        Except.bind_ok', Except.pure_eq_ok, Except.bind_ok']
      exact ⟨_, .write idx _ hfind (.inr rfl) rfl List.length_set, rfl⟩
    · rw [if_neg hnew, readSlot_of_lt (by omega), Except.bind_ok']
      cases havail : st.txnsAvailable[idx] with
      | none =>
        dsimp only
        rw [Except.pure_eq_ok, Except.bind_ok']
        exact ⟨st, .keep rfl rfl, rfl⟩
      | some tx =>
        dsimp only
        by_cases hdiff : env.getHash tx ≠ env.getHash extraTxn.2
        · rw [if_pos hdiff, writeSlot_of_lt (by omega), Except.bind_ok', Except.pure_eq_ok,
            Except.bind_ok']
          refine ⟨_, ?_, rfl⟩
          exact .write idx none hfind (.inl rfl) rfl rfl
        · rw [if_neg hdiff, Except.pure_eq_ok, Except.bind_ok']
          exact ⟨st, .keep rfl rfl, rfl⟩

variable (P : ScanState → Prop)

/-- The mempool scan runs to its end, and keeps every property of the state that each of its
moves keeps. -/
theorem scanMempool_run (hm : ∀ e ∈ shorttxids.entries, e.2 < N) (pool : List Transaction)
    (hmove : ∀ entry ∈ pool, ∀ st st1, P st →
      ScanMove shorttxids (cmpctblock.getShortID env (env.getHash entry)) entry st st1 → P st1) :
    ∀ st : ScanState, st.Sized N → P st →
      ∃ st', scanMempool env cmpctblock shorttxids st pool = .ok st' ∧ st'.Sized N ∧ P st' := by
  induction pool with
  | nil => exact fun st hst hP => ⟨st, by rw [scanMempool], hst, hP⟩
  | cons entry pool ih =>
    intro st hst hP
    obtain ⟨st1, hstep, hrun⟩ := scanMempool_cons hm hst entry pool
    have hP1 := hmove entry List.mem_cons_self st st1 hP hstep
    rw [hrun]
    split_ifs
    · exact ⟨st1, rfl, hstep.sized hst, hP1⟩
    · exact ih (fun e he => hmove e (List.mem_cons_of_mem _ he)) st1 (hstep.sized hst) hP1

/-- The scan of the extra transactions, likewise. -/
theorem scanExtra_run (hm : ∀ e ∈ shorttxids.entries, e.2 < N)
    (extraTxns : List (Vector UInt8 32 × Transaction))
    (hmove : ∀ extraTxn ∈ extraTxns, ∀ st st1, P st →
      ScanMove shorttxids (cmpctblock.getShortID env extraTxn.1) extraTxn.2 st st1 → P st1) :
    ∀ st : ScanState, st.Sized N → P st →
      ∃ st', scanExtra env cmpctblock shorttxids st extraTxns = .ok st' ∧ st'.Sized N ∧ P st' := by
  induction extraTxns with
  | nil => exact fun st hst hP => ⟨st, by rw [scanExtra], hst, hP⟩
  | cons extraTxn extraTxns ih =>
    intro st hst hP
    obtain ⟨st1, hstep, hrun⟩ := scanExtra_cons hm hst extraTxn extraTxns
    have hP1 := hmove extraTxn List.mem_cons_self st st1 hP hstep
    rw [hrun]
    split_ifs
    · exact ⟨st1, rfl, hstep.sized hst, hP1⟩
    · exact ih (fun e he => hmove e (List.mem_cons_of_mem _ he)) st1 (hstep.sized hst) hP1

end Scans

/-- Each move of a scan keeps `Announced` for the pairs a map holds, when the move's transaction
was announced under its short id: the map sends the short id to the one slot its pair names. -/
theorem ScanMove.announced {layout : List (Option Transaction)} {kvs : List (UInt64 × ℕ)}
    {Ann : UInt64 → Transaction → Prop} {shorttxids : ShortIdMap} {shortid : UInt64}
    {tx : Transaction} {st st' : ScanState} (hkvs : ∀ e ∈ shorttxids.entries, e ∈ kvs)
    (hfun : ∀ e ∈ kvs, ∀ e' ∈ kvs, e.2 = e'.2 → e.1 = e'.1) (hann : Ann shortid tx)
    (h : ScanMove shorttxids shortid tx st st') (hst : Announced layout kvs Ann st.txnsAvailable) :
    Announced layout kvs Ann st'.txnsAvailable := by
  obtain ⟨hframe, hslots⟩ := hst
  cases h with
  | keep havail _ =>
    rw [havail]
    exact ⟨hframe, hslots⟩
  | write idx a hfind ha havail _ =>
    have hmem : (shortid, idx) ∈ kvs := hkvs _ (ShortIdMap.mem_of_find hfind)
    rw [havail]
    refine ⟨fun j hj => ?_, fun e he tx' htx => ?_⟩
    · rw [List.getElem?_set_ne (hj _ hmem)]
      exact hframe j hj
    · by_cases heq : idx = e.2
      · -- the slot written holds `tx` or nothing
        rw [List.getElem?_set, if_pos heq] at htx
        split_ifs at htx
        rcases ha with rfl | rfl
        · cases htx
        · cases htx
          rw [hfun e he _ hmem heq.symm]
          exact hann
      · rw [List.getElem?_set_ne heq] at htx
        exact hslots e he tx' htx

/-! ### `InitData` -/

theorem length_emptySlotsFrom_zero {α : Type} (l : List (Option α)) :
    (emptySlotsFrom l 0).length = l.countP Option.isNone :=
  FilterRange.length_filterFrom_getD Option.isNone l none

/-- The layout of the prefilled transactions `InitData` accepts: the `k`-th one at the `k`-th
decoded position, the positions strictly increasing and inside the block, and as many empty
slots left as there are short ids. -/
theorem placePrefilled_layout (cmpctblock : CBlockHeaderAndShortTxIDs)
    {txnsAvailable : List (Option Transaction)}
    (h : placePrefilled cmpctblock.shorttxids.length 0 (-1)
      (List.replicate cmpctblock.blockTxCount none) cmpctblock.prefilledtxn = .ok txnsAvailable) :
    (prefilledPositions 0 cmpctblock.prefilledtxn).Pairwise (· < ·) ∧
      (∀ j ∈ prefilledPositions 0 cmpctblock.prefilledtxn, j < cmpctblock.blockTxCount) ∧
      (∀ e ∈ cmpctblock.prefilledtxn.zip (prefilledPositions 0 cmpctblock.prefilledtxn),
        txnsAvailable[e.2]? = some (some e.1.tx)) ∧
      txnsAvailable.length = cmpctblock.blockTxCount ∧
      (emptySlotsFrom txnsAvailable 0).length = cmpctblock.shorttxids.length := by
  obtain ⟨hbound, hlen, hcount, hplaced, -⟩ := placePrefilled_eq_ok cmpctblock.prefilledtxn 0 0 _ _
    (fun j _ hj => List.getElem_replicate hj) h
  rw [List.countP_replicate, Option.isNone_none, if_pos rfl,
    CBlockHeaderAndShortTxIDs.blockTxCount] at hcount
  rw [List.length_replicate] at hlen
  refine ⟨pairwise_prefilledPositions 0 _, fun j hj => ?_, hplaced, hlen, ?_⟩
  · have := hbound j hj
    rw [CBlockHeaderAndShortTxIDs.blockTxCount]
    omega
  · rw [length_emptySlotsFrom_zero]
    omega

/-- The empty slots of the layout are the slots the prefilled positions leave. -/
theorem emptySlotsFrom_placePrefilled (cmpctblock : CBlockHeaderAndShortTxIDs)
    {txnsAvailable : List (Option Transaction)}
    (h : placePrefilled cmpctblock.shorttxids.length 0 (-1)
      (List.replicate cmpctblock.blockTxCount none) cmpctblock.prefilledtxn = .ok txnsAvailable) :
    emptySlotsFrom txnsAvailable 0 = shortIdSlots cmpctblock := by
  obtain ⟨-, hlen, -, hplaced, hframe⟩ := placePrefilled_eq_ok cmpctblock.prefilledtxn 0 0 _ _
    (fun j _ hj => List.getElem_replicate hj) h
  rw [List.length_replicate] at hlen
  rw [emptySlotsFrom, shortIdSlots, hlen]
  refine FilterRange.filterFrom_congr fun j _ hj => ?_
  rw [List.getD_eq_getElem?_getD]
  by_cases hpos : j ∈ prefilledPositions 0 cmpctblock.prefilledtxn
  · -- a prefilled slot
    obtain ⟨p, hp⟩ := exists_mem_zip_of_mem_right (length_prefilledPositions 0 _).symm hpos
    have hslot : txnsAvailable[j]? = some (some p.tx) := hplaced _ hp
    rw [hslot, List.contains_iff_mem.mpr hpos, Option.getD_some, Option.isNone_some, Bool.not_true]
  · have hfree : (prefilledPositions 0 cmpctblock.prefilledtxn).contains j = false :=
      Bool.eq_false_iff.mpr fun hc => hpos (List.contains_iff_mem.mp hc)
    rw [hframe j hpos, List.getElem?_replicate, if_pos hj, hfree, Option.getD_some,
      Option.isNone_none, Bool.not_false]

/-- The map of short ids holds only pairs of a short id and the slot of the same rank. -/
theorem entries_assignShortIds {env : CompactBlockEnv} {cmpctblock : CBlockHeaderAndShortTxIDs}
    {layout : List (Option Transaction)} {m : ShortIdMap}
    (hplace : placePrefilled cmpctblock.shorttxids.length 0 (-1)
      (List.replicate cmpctblock.blockTxCount none) cmpctblock.prefilledtxn = .ok layout)
    (hassign : assignShortIds env layout 0 0 ⟨[]⟩ cmpctblock.shorttxids = .ok m) :
    ∀ e ∈ m.entries, e ∈ cmpctblock.shorttxids.zip (emptySlotsFrom layout 0) := by
  obtain ⟨-, -, -, -, hslots⟩ := placePrefilled_layout cmpctblock hplace
  obtain ⟨-, hmap⟩ := assignShortIds_spec env cmpctblock.shorttxids 0 0 ⟨[]⟩
    (by rw [Nat.add_zero, hslots])
  intro e he
  rw [hmap m hassign] at he
  rcases mem_foldl_insert _ _ he with he | he
  · exact he
  · cases he

/-- `InitData` indexes `txns_available` and `have_txn` only inside them, whatever the message,
the mempool and the extra transactions. -/
theorem initData_ne_fault (env : CompactBlockEnv) (cmpctblock : CBlockHeaderAndShortTxIDs)
    (pool : List Transaction) (extraTxns : List (Vector UInt8 32 × Transaction)) (f : IndexFault) :
    initData env cmpctblock pool extraTxns ≠ .error (.fault f) := by
  intro h
  rw [initData] at h
  split_ifs at h with hnull hmax
  · cases h
  · cases h
  rcases Except.bind_eq_error.mp h with hplace | ⟨txnsAvailable, hplace, h⟩
  · refine placePrefilled_ne_fault cmpctblock.prefilledtxn 0 (-1) _ ?_ (by omega) f hplace
    rw [List.length_replicate, CBlockHeaderAndShortTxIDs.blockTxCount, Nat.add_zero]
  obtain ⟨-, -, -, -, hslots⟩ := placePrefilled_layout cmpctblock hplace
  obtain ⟨hfail, -⟩ := assignShortIds_spec env cmpctblock.shorttxids 0 0 ⟨[]⟩
    (by rw [Nat.add_zero, hslots])
  rcases Except.bind_eq_error.mp h with hassign | ⟨shorttxids, hassign, h⟩
  · cases hfail _ hassign
  split_ifs at h with hsize
  · cases h
  -- every slot a short id maps to is a slot of the layout
  have hvalues : ∀ e ∈ shorttxids.entries, e.2 < txnsAvailable.length := fun e he =>
    lt_of_mem_emptySlotsFrom (List.of_mem_zip (entries_assignShortIds hplace hassign e he)).2
  have hsized0 : ScanState.Sized txnsAvailable.length
      { txnsAvailable, haveTxn := List.replicate txnsAvailable.length false, mempoolCount := 0,
        extraCount := 0 } := ⟨rfl, List.length_replicate⟩
  obtain ⟨st, hscan, hsized, -⟩ := scanMempool_run (fun _ => True) hvalues pool
    (fun _ _ _ _ _ _ => trivial) _ hsized0 trivial
  obtain ⟨st', hextra, -⟩ := scanExtra_run (fun _ => True) hvalues extraTxns
    (fun _ _ _ _ _ _ => trivial) st hsized trivial
  rw [hscan, Except.bind_ok', hextra, Except.bind_ok'] at h
  cases h

/-- What a successful `InitData` lays out: the prefilled transactions as `placePrefilled` puts
them, and in the slot of each short id nothing or a transaction announced under it. -/
theorem initData_eq_ok {env : CompactBlockEnv} {cmpctblock : CBlockHeaderAndShortTxIDs}
    {pool : List Transaction} {extraTxns : List (Vector UInt8 32 × Transaction)}
    {pdb : PartiallyDownloadedBlock} (h : initData env cmpctblock pool extraTxns = .ok pdb) :
    ∃ layout, placePrefilled cmpctblock.shorttxids.length 0 (-1)
        (List.replicate cmpctblock.blockTxCount none) cmpctblock.prefilledtxn = .ok layout ∧
      pdb.txnsAvailable.length = layout.length ∧
      Announced layout (cmpctblock.shorttxids.zip (emptySlotsFrom layout 0))
        (announcedIn env cmpctblock pool extraTxns) pdb.txnsAvailable := by
  rw [initData] at h
  -- the early returns are errors
  split_ifs at h with hnull hmax
  obtain ⟨layout, hplace, h⟩ := Except.bind_eq_ok.mp h
  obtain ⟨shorttxids, hassign, h⟩ := Except.bind_eq_ok.mp h
  split_ifs at h with hsize
  have hkvs := entries_assignShortIds hplace hassign
  have hvalues : ∀ e ∈ shorttxids.entries, e.2 < layout.length := fun e he =>
    lt_of_mem_emptySlotsFrom (List.of_mem_zip (hkvs e he)).2
  -- distinct slots: each slot belongs to one short id
  have hfun : ∀ e ∈ cmpctblock.shorttxids.zip (emptySlotsFrom layout 0),
      ∀ e' ∈ cmpctblock.shorttxids.zip (emptySlotsFrom layout 0), e.2 = e'.2 → e.1 = e'.1 := by
    rintro ⟨a, b⟩ he ⟨a', b'⟩ he' (rfl : b = b')
    exact fst_eq_of_mem_zip FilterRange.nodup_filterFrom he he'
  -- the scans start from the layout, where the slot of every short id is empty
  have hstart : Announced layout (cmpctblock.shorttxids.zip (emptySlotsFrom layout 0))
      (announcedIn env cmpctblock pool extraTxns) layout := by
    refine ⟨fun _ _ => rfl, fun e he tx htx => ?_⟩
    rw [getElem?_of_mem_emptySlotsFrom (List.of_mem_zip he).2] at htx
    cases htx
  obtain ⟨st, hscan, hsized, hst⟩ := scanMempool_run
    (fun st => Announced layout (cmpctblock.shorttxids.zip (emptySlotsFrom layout 0))
      (announcedIn env cmpctblock pool extraTxns) st.txnsAvailable) hvalues pool
    (fun entry hentry _ _ hP hmove => hmove.announced hkvs hfun (.inl ⟨hentry, rfl⟩) hP)
    { txnsAvailable := layout, haveTxn := List.replicate layout.length false, mempoolCount := 0,
      extraCount := 0 } ⟨rfl, List.length_replicate⟩ hstart
  obtain ⟨st', hextra, hsized', hst'⟩ := scanExtra_run
    (fun st => Announced layout (cmpctblock.shorttxids.zip (emptySlotsFrom layout 0))
      (announcedIn env cmpctblock pool extraTxns) st.txnsAvailable) hvalues extraTxns
    (fun extraTxn hmem _ _ hP hmove => hmove.announced hkvs hfun (.inr ⟨extraTxn.1, hmem, rfl⟩) hP)
    st hsized hst
  rw [hscan, Except.bind_ok', hextra, Except.bind_ok'] at h
  cases h
  exact ⟨layout, hplace, hsized'.1, hst'⟩

section Fill

variable {α : Type}

theorem length_fillSlots : ∀ (avail : List (Option α)) (vtx : List α),
    avail.countP Option.isNone ≤ vtx.length → (fillSlots avail vtx).length = avail.length
  | [], _, _ => rfl
  | some tx :: rest, vtx, h => by
    rw [List.countP_cons_of_neg Bool.false_ne_true] at h
    rw [fillSlots, List.length_cons, List.length_cons, length_fillSlots rest vtx h]
  | none :: rest, [], h => by
    rw [List.countP_cons_of_pos (by rfl)] at h
    simp at h
  | none :: rest, tx :: vtx, h => by
    rw [List.countP_cons_of_pos (by rfl), List.length_cons] at h
    rw [fillSlots, List.length_cons, List.length_cons, length_fillSlots rest vtx (by omega)]

/-- An available transaction stays in its slot. -/
theorem getElem?_fillSlots_of_some : ∀ (avail : List (Option α)) (vtx : List α) (j : ℕ) (tx : α),
    avail.countP Option.isNone ≤ vtx.length → avail[j]? = some (some tx) →
      (fillSlots avail vtx)[j]? = some tx
  | [], _, _, _, _, h => by cases h
  | some tx' :: rest, vtx, 0, tx, _, h => by
    rw [List.getElem?_cons_zero, Option.some_inj, Option.some_inj] at h
    rw [fillSlots, List.getElem?_cons_zero, h]
  | some tx' :: rest, vtx, j + 1, tx, hc, h => by
    rw [List.countP_cons_of_neg Bool.false_ne_true] at hc
    rw [fillSlots, List.getElem?_cons_succ]
    exact getElem?_fillSlots_of_some rest vtx j tx hc h
  | none :: rest, _, 0, _, _, h => by cases h
  | none :: rest, [], j + 1, tx, hc, h => by
    rw [List.countP_cons_of_pos (by rfl)] at hc
    simp at hc
  | none :: rest, tx' :: vtx, j + 1, tx, hc, h => by
    rw [List.countP_cons_of_pos (by rfl), List.length_cons] at hc
    rw [fillSlots, List.getElem?_cons_succ]
    exact getElem?_fillSlots_of_some rest vtx j tx (by omega) h

/-- The empty slots take the transactions of `vtx` in order: the slot `j` the one after as many
as there are empty slots before `j`. -/
theorem getElem?_fillSlots_of_none : ∀ (avail : List (Option α)) (vtx : List α) (j : ℕ),
    avail.countP Option.isNone ≤ vtx.length → avail[j]? = some none →
      (fillSlots avail vtx)[j]? = vtx[(avail.take j).countP Option.isNone]?
  | [], _, _, _, h => by cases h
  | some tx' :: rest, _, 0, _, h => by cases h
  | some tx' :: rest, vtx, j + 1, hc, h => by
    rw [List.countP_cons_of_neg Bool.false_ne_true] at hc
    rw [fillSlots, List.getElem?_cons_succ, List.take_succ_cons, List.countP_cons_of_neg Bool.false_ne_true]
    exact getElem?_fillSlots_of_none rest vtx j hc h
  | none :: rest, [], _, hc, _ => by
    rw [List.countP_cons_of_pos (by rfl)] at hc
    simp at hc
  | none :: rest, tx' :: vtx, 0, _, _ => by
    rw [fillSlots, List.take_zero, List.countP_nil]
    rfl
  | none :: rest, tx' :: vtx, j + 1, hc, h => by
    rw [List.countP_cons_of_pos (by rfl), List.length_cons] at hc
    rw [fillSlots, List.getElem?_cons_succ, List.take_succ_cons, List.countP_cons_of_pos (by rfl),
      List.getElem?_cons_succ]
    exact getElem?_fillSlots_of_none rest vtx j (by omega) h

end Fill

/-- The loop of `FillBlock` from an offset inside `vtx_missing` runs to the end exactly when
enough missing transactions are left for the empty slots, and then fills them in order. -/
theorem fillBlockLoop_eq (vtxMissing : List Transaction) :
    ∀ (avail : List (Option Transaction)) (off : ℕ), off ≤ vtxMissing.length →
      fillBlockLoop vtxMissing avail off =
        if off + avail.countP Option.isNone ≤ vtxMissing.length then
          some (fillSlots avail (vtxMissing.drop off), off + avail.countP Option.isNone)
        else none
  | [], off, _ => by
    rw [fillBlockLoop, List.countP_nil, Nat.add_zero, if_pos (by assumption)]
    rfl
  | some tx :: rest, off, hoff => by
    rw [fillBlockLoop, fillBlockLoop_eq vtxMissing rest off hoff,
      List.countP_cons_of_neg Bool.false_ne_true]
    split_ifs <;> rfl
  | none :: rest, off, hoff => by
    rw [fillBlockLoop, List.countP_cons_of_pos (by rfl)]
    by_cases hlt : off < vtxMissing.length
    · rw [List.getElem?_eq_getElem hlt]
      dsimp only
      rw [fillBlockLoop_eq vtxMissing rest (off + 1) hlt, List.drop_eq_getElem_cons hlt]
      have hcomm : off + 1 + rest.countP Option.isNone = off + (rest.countP Option.isNone + 1) := by
        omega
      rw [hcomm]
      split_ifs <;> rfl
    · rw [List.getElem?_eq_none (by omega), if_neg (by omega)]

/-- `FillBlock` returns `READ_STATUS_INVALID` unless `vtx_missing` has one transaction per empty
slot; then it checks, and returns, the layout with the empty slots filled in order. -/
theorem fillBlock_eq (env : CompactBlockEnv) (pdb : PartiallyDownloadedBlock)
    (vtxMissing : List Transaction) :
    fillBlock env pdb vtxMissing =
      if vtxMissing.length = pdb.txnsAvailable.countP Option.isNone then
        match env.checkBlock pdb.header (fillSlots pdb.txnsAvailable vtxMissing) with
        | .valid => .ok (fillSlots pdb.txnsAvailable vtxMissing)
        | .corruptionPossible => .error .failed
        | .invalid => .error .checkblockFailed
      else .error .invalid := by
  rw [fillBlock, fillBlockLoop_eq vtxMissing pdb.txnsAvailable 0 (Nat.zero_le _), Nat.zero_add,
    List.drop_zero]
  by_cases henough : pdb.txnsAvailable.countP Option.isNone ≤ vtxMissing.length
  · rw [if_pos henough]
    dsimp only
    by_cases heq : vtxMissing.length = pdb.txnsAvailable.countP Option.isNone
    · rw [if_neg (not_not.mpr heq), if_pos heq]
    · rw [if_pos heq, if_neg heq]
  · rw [if_neg henough, if_neg (by omega)]

/-- Compact block reconstruction is memory safe, whatever the message, the mempool and the extra
transactions: `InitData` indexes its vectors only inside them, and the loops over the prefilled
transactions and the short ids make the assignments the message encodes. The map of short ids
takes the `k`-th short id to the `k`-th slot not taken by a prefilled transaction. After a
successful `InitData`, the `k`-th prefilled transaction is at its decoded position, these strictly
increasing, and the slot of a short id holds nothing or a transaction announced under it. `FillBlock`
returns `READ_STATUS_INVALID` unless `vtx_missing` has one transaction per empty slot, and gives the
empty slot `j` the transaction of `vtx_missing` after as many as there are empty slots before `j`. -/
theorem compactBlock_reconstruction_safe (env : CompactBlockEnv)
    (cmpctblock : CBlockHeaderAndShortTxIDs) (pool : List Transaction)
    (extraTxns : List (Vector UInt8 32 × Transaction)) :
    (∀ f, initData env cmpctblock pool extraTxns ≠ .error (.fault f)) ∧
    (∀ layout, placePrefilled cmpctblock.shorttxids.length 0 (-1)
        (List.replicate cmpctblock.blockTxCount none) cmpctblock.prefilledtxn = .ok layout →
      ∀ m, assignShortIds env layout 0 0 ⟨[]⟩ cmpctblock.shorttxids = .ok m →
        m = (cmpctblock.shorttxids.zip (shortIdSlots cmpctblock)).foldl
          (fun m e => m.insert e.1 e.2) ⟨[]⟩) ∧
    ∀ pdb, initData env cmpctblock pool extraTxns = .ok pdb →
      (prefilledPositions 0 cmpctblock.prefilledtxn).Pairwise (· < ·) ∧
      pdb.txnsAvailable.length = cmpctblock.blockTxCount ∧
      (∀ e ∈ cmpctblock.prefilledtxn.zip (prefilledPositions 0 cmpctblock.prefilledtxn),
        pdb.txnsAvailable[e.2]? = some (some e.1.tx)) ∧
      (shortIdSlots cmpctblock).length = cmpctblock.shorttxids.length ∧
      (∀ e ∈ cmpctblock.shorttxids.zip (shortIdSlots cmpctblock), ∀ tx,
        pdb.txnsAvailable[e.2]? = some (some tx) →
          (tx ∈ pool ∧ cmpctblock.getShortID env (env.getHash tx) = e.1) ∨
            ∃ txhash, (txhash, tx) ∈ extraTxns ∧ cmpctblock.getShortID env txhash = e.1) ∧
      ∀ vtxMissing : List Transaction,
        (vtxMissing.length ≠ pdb.txnsAvailable.countP Option.isNone →
          fillBlock env pdb vtxMissing = .error .invalid) ∧
        ∀ vtx, fillBlock env pdb vtxMissing = .ok vtx →
          vtx.length = cmpctblock.blockTxCount ∧
          ∀ j, (∀ tx, pdb.txnsAvailable[j]? = some (some tx) → vtx[j]? = some tx) ∧
            (pdb.txnsAvailable[j]? = some none →
              vtx[j]? = vtxMissing[(pdb.txnsAvailable.take j).countP Option.isNone]?) := by
  refine ⟨initData_ne_fault env cmpctblock pool extraTxns, fun layout hplace m hassign => ?_,
    fun pdb h => ?_⟩
  · -- the short ids: the `k`-th empty slot of the layout is the `k`-th slot left free
    obtain ⟨-, -, -, -, hslots⟩ := placePrefilled_layout cmpctblock hplace
    have hmap := (assignShortIds_spec env cmpctblock.shorttxids 0 0 ⟨[]⟩
      (by rw [Nat.add_zero, hslots])).2 m hassign
    rwa [Nat.add_zero, emptySlotsFrom_placePrefilled cmpctblock hplace] at hmap
  obtain ⟨layout, hplace, hlen, hframe, hannounced⟩ := initData_eq_ok h
  obtain ⟨hpair, -, hplaced, hlayout, hcount⟩ := placePrefilled_layout cmpctblock hplace
  have hempty := emptySlotsFrom_placePrefilled cmpctblock hplace
  refine ⟨hpair, by rw [hlen, hlayout], fun e he => ?_, by rw [← hempty, hcount],
    fun e he tx htx => ?_, fun vtxMissing => ⟨fun hne => ?_, fun vtx hfill => ?_⟩⟩
  · -- no short id has a prefilled slot, so the scans leave it as laid out
    rw [hframe e.2 fun e' he' heq => ?_]
    · exact hplaced e he
    · have hfree := getElem?_of_mem_emptySlotsFrom (List.of_mem_zip he').2
      rw [heq, hplaced e he] at hfree
      cases hfree
  · rw [← hempty] at he
    exact hannounced e he tx htx
  · rw [fillBlock_eq, if_neg hne]
  · rw [fillBlock_eq] at hfill
    split_ifs at hfill with hmissing
    have hvtx : vtx = fillSlots pdb.txnsAvailable vtxMissing := by
      split at hfill
      · cases hfill
        rfl
      · cases hfill
      · cases hfill
    subst hvtx
    have henough : pdb.txnsAvailable.countP Option.isNone ≤ vtxMissing.length :=
      Nat.le_of_eq hmissing.symm
    refine ⟨by rw [length_fillSlots _ _ henough, hlen, hlayout], fun j => ⟨fun tx htx => ?_, ?_⟩⟩
    · exact getElem?_fillSlots_of_some _ _ j tx henough htx
    · exact getElem?_fillSlots_of_none _ _ j henough

/-- A compact block of a prefilled coinbase and one short id, whose transaction the mempool holds:
the layout, the map of short ids, `InitData` and `FillBlock` with nothing missing all succeed, and
`FillBlock` given a transaction too many refuses. -/
theorem compactBlock_reconstruction_safe_pool :
    let env : CompactBlockEnv := ⟨fun _ _ h => (h.toList.headD 0).toUInt64,
      fun tx => Vector.replicate 32 tx.nLockTime.toUInt8, 1000, fun _ _ => false,
      fun _ _ => .valid⟩
    let cmpctblock : CBlockHeaderAndShortTxIDs :=
      ⟨0, 0, [1], [⟨0, ⟨1, [⟨⟨Vector.replicate 32 0, 0⟩, [], 0⟩], [], 0⟩⟩],
        ⟨1, Vector.replicate 32 0, Vector.replicate 32 0, 0, 0x1d00ffff, 0⟩⟩
    let pool : List Transaction := [⟨1, [], [], 1⟩]
    ∃ layout m pdb vtx,
      placePrefilled cmpctblock.shorttxids.length 0 (-1)
        (List.replicate cmpctblock.blockTxCount none) cmpctblock.prefilledtxn = .ok layout ∧
      assignShortIds env layout 0 0 ⟨[]⟩ cmpctblock.shorttxids = .ok m ∧
      m = (cmpctblock.shorttxids.zip (shortIdSlots cmpctblock)).foldl
        (fun m e => m.insert e.1 e.2) ⟨[]⟩ ∧
      initData env cmpctblock pool [] = .ok pdb ∧ fillBlock env pdb [] = .ok vtx ∧
      vtx.length = cmpctblock.blockTxCount ∧ fillBlock env pdb pool = .error .invalid := by
  intro env cmpctblock pool
  -- each step runs to completion on this input, as evaluation decides
  obtain ⟨layout, hplace⟩ := Except.exists_eq_ok_of_isOk (show (placePrefilled 1 0 (-1) (List.replicate 2 none)
    cmpctblock.prefilledtxn).isOk = true by decide +kernel)
  have hassign : (match placePrefilled 1 0 (-1) (List.replicate 2 none) cmpctblock.prefilledtxn with
      | .ok layout => (assignShortIds env layout 0 0 ⟨[]⟩ [1]).isOk
      | .error _ => false) = true := by
    decide +kernel
  rw [hplace] at hassign
  obtain ⟨m, hassign⟩ := Except.exists_eq_ok_of_isOk hassign
  obtain ⟨pdb, hinit⟩ := Except.exists_eq_ok_of_isOk (show (initData env cmpctblock pool []).isOk = true by decide +kernel)
  have hfill : (match initData env cmpctblock pool [] with
      | .ok pdb => (fillBlock env pdb []).isOk && pdb.txnsAvailable.countP Option.isNone == 0
      | .error _ => false) = true := by
    decide +kernel
  rw [hinit, Bool.and_eq_true, beq_iff_eq] at hfill
  obtain ⟨vtx, hvtx⟩ := Except.exists_eq_ok_of_isOk hfill.1
  have hsafe := compactBlock_reconstruction_safe env cmpctblock pool []
  obtain ⟨-, -, -, -, -, hfillBlock⟩ := hsafe.2.2 pdb hinit
  exact ⟨layout, m, pdb, vtx, hplace, hassign, hsafe.2.1 layout hplace m hassign, hinit, hvtx,
    ((hfillBlock []).2 vtx hvtx).1, (hfillBlock pool).1 (by rw [hfill.2]; decide)⟩
end PartiallyDownloadedBlock

end BitcoinCash
