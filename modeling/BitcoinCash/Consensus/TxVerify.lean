import BitcoinCash.Script.Machine
import Mathlib.Data.List.Sort

/-!
# Finality of a transaction

What consensus (`consensus/tx_verify.cpp`) requires of the lock times of a transaction in a
block: `IsFinalTx` for its absolute lock time `nLockTime`, and `SequenceLocks` (BIP 68) for the
relative lock times in the `nSequence` of its inputs.

A `CBlockIndex` is read here through `nHeight`, `pprev`, `GetAncestor` and `GetMedianTimePast`,
so it is modelled by the times of the blocks on its chain. `CalculateSequenceLocks` computes
the last invalid height and time on `int` and `int64_t`; a height past `INT_MAX`, and the null
ancestor of a coin above the block, are undefined behaviour and make the model return `none`.
The times cannot overflow: a median time past is a block time, an `uint32_t`.
-/

namespace BitcoinCash

/-! ### Constants -/

namespace TxIn

/-- `CTxIn::SEQUENCE_FINAL`. -/
def sequenceFinal : UInt32 := 0xffffffff

/-- `CTxIn::SEQUENCE_LOCKTIME_DISABLE_FLAG`: the input has no relative lock time. -/
def sequenceLocktimeDisableFlag : UInt32 := 1 <<< (31 : UInt32)

/-- `CTxIn::SEQUENCE_LOCKTIME_TYPE_FLAG`: the relative lock time is in units of 512 seconds. -/
def sequenceLocktimeTypeFlag : UInt32 := 1 <<< (22 : UInt32)

/-- `CTxIn::SEQUENCE_LOCKTIME_MASK`. -/
def sequenceLocktimeMask : UInt32 := 0x0000ffff

/-- `CTxIn::SEQUENCE_LOCKTIME_GRANULARITY`. -/
def sequenceLocktimeGranularity : UInt32 := 9

end TxIn

/-- `LOCKTIME_VERIFY_SEQUENCE`. -/
def locktimeVerifySequence : UInt32 := 1 <<< (0 : UInt32)

/-- `CBlockIndex::nMedianTimeSpan`. -/
def nMedianTimeSpan : ℕ := 11

/-! ### Block indices -/

/-- `CBlockIndex`, by what `tx_verify.cpp` reads of it: the `nTime` of the block and of each
block before it along `pprev`, back to the genesis block. `nHeight` is an `int`. -/
structure CBlockIndex where
  times : List UInt32
  times_ne_nil : times ≠ []
  length_le : times.length ≤ 2 ^ 31

namespace CBlockIndex

variable (block : CBlockIndex)

/-- `nHeight`. -/
def nHeight : ℤ := block.times.length - 1

/-- `pprev`, null at the genesis block. -/
def pprev : Option CBlockIndex :=
  if h : block.times.tail = [] then none
  else some ⟨block.times.tail, h, by rw [List.length_tail]; have := block.length_le; omega⟩

/-- `GetAncestor(height)`: null outside `[0, nHeight]`; the skip pointers only shorten the walk
along `pprev`. -/
def getAncestor (height : ℤ) : Option CBlockIndex :=
  if h : height > block.nHeight ∨ height < 0 then none
  else
    some ⟨block.times.drop (block.nHeight - height).toNat,
      by
        have hpos := List.length_pos_iff.mpr block.times_ne_nil
        have hn : block.nHeight = block.times.length - 1 := rfl
        rw [ne_eq, List.drop_eq_nil_iff, not_le]
        omega,
      by rw [List.length_drop]; have := block.length_le; omega⟩

/-- `GetMedianTimePast`: the median of the times of the block and the ten before it. -/
def getMedianTimePast : ℤ :=
  let pmedian := ((block.times.take nMedianTimeSpan).map UInt32.toNat).insertionSort (· ≤ ·)
  pmedian.getD (pmedian.length / 2) 0

end CBlockIndex

/-! ### `IsFinalTx` -/

/-- `IsFinalTx`: a zero lock time, a lock time before the block's height or time (as the
threshold says which), or every input final. -/
def isFinalTx (tx : Transaction) (nBlockHeight : Int32) (nBlockTime : Int64) : Bool :=
  if tx.nLockTime = 0 then true
  else
    let lockTime : ℤ := tx.nLockTime.toNat
    let lockTimeLimit : ℤ :=
      if lockTime < locktimeThreshold then nBlockHeight.toInt else nBlockTime.toInt
    if lockTime < lockTimeLimit then true
    else tx.vin.all fun txin => txin.nSequence == TxIn.sequenceFinal

/-- A final transaction that has a non-final input has a zero lock time or one below the
block's limit. -/
theorem isFinalTx_eq_true {tx : Transaction} {nBlockHeight : Int32} {nBlockTime : Int64}
    (h : isFinalTx tx nBlockHeight nBlockTime = true)
    (hinput : ∃ txin ∈ tx.vin, txin.nSequence ≠ TxIn.sequenceFinal) :
    tx.nLockTime = 0 ∨
      (tx.nLockTime.toNat : ℤ) <
        if (tx.nLockTime.toNat : ℤ) < locktimeThreshold then nBlockHeight.toInt
        else nBlockTime.toInt := by
  unfold isFinalTx at h
  by_cases hzero : tx.nLockTime = 0
  · exact .inl hzero
  rw [if_neg hzero] at h
  dsimp only at h
  by_cases hlt : (tx.nLockTime.toNat : ℤ) <
      if (tx.nLockTime.toNat : ℤ) < locktimeThreshold then nBlockHeight.toInt
      else nBlockTime.toInt
  · exact .inr hlt
  -- otherwise every input is final, and one is not
  rw [if_neg hlt] at h
  obtain ⟨txin, hmem, hne⟩ := hinput
  have := List.all_eq_true.mp h txin hmem
  simp [hne] at this

/-! ### `CalculateSequenceLocks` -/

/-- An `int` result: `none` when it leaves `int`. -/
def checkedInt (x : ℤ) : Option ℤ := if intMin ≤ x ∧ x ≤ intMax then some x else none

/-- One input of the loop of `CalculateSequenceLocks`: the new last invalid height and time, and
the height the input leaves in `prevHeights` (zero when it has no relative lock). -/
def sequenceLockStep (block : CBlockIndex) (lockPair : ℤ × ℤ) (txin : TxIn)
    (nCoinHeight : Int32) : Option ((ℤ × ℤ) × Int32) :=
  let (nMinHeight, nMinTime) := lockPair
  if txin.nSequence &&& TxIn.sequenceLocktimeDisableFlag ≠ 0 then some (lockPair, 0)
  else if txin.nSequence &&& TxIn.sequenceLocktimeTypeFlag ≠ 0 then do
    -- `std::max(nCoinHeight - 1, 0)`, then `->GetMedianTimePast()` of the ancestor
    let height ← checkedInt (nCoinHeight.toInt - 1)
    let ancestor ← block.getAncestor (max height 0)
    let nCoinTime := ancestor.getMedianTimePast
    let lockTime : ℤ :=
      ((txin.nSequence &&& TxIn.sequenceLocktimeMask) <<< TxIn.sequenceLocktimeGranularity).toNat
    some ((nMinHeight, max nMinTime (nCoinTime + lockTime - 1)), nCoinHeight)
  else do
    let sum ← checkedInt (nCoinHeight.toInt + (txin.nSequence &&& TxIn.sequenceLocktimeMask).toNat)
    let lastInvalid ← checkedInt (sum - 1)
    some ((max nMinHeight lastInvalid, nMinTime), nCoinHeight)

/-- The loop of `CalculateSequenceLocks` over the inputs with the heights of their coins. -/
def sequenceLocksLoop (block : CBlockIndex) :
    List (TxIn × Int32) → ℤ × ℤ → Option ((ℤ × ℤ) × List Int32)
  | [], lockPair => some (lockPair, [])
  | (txin, nCoinHeight) :: inputs, lockPair => do
    let (lockPair, height) ← sequenceLockStep block lockPair txin nCoinHeight
    let (lockPair, heights) ← sequenceLocksLoop block inputs lockPair
    pure (lockPair, height :: heights)

/-- `CalculateSequenceLocks`: the last invalid height and time, starting from `-1`, and the
heights it leaves in `prevHeights`. -/
def calculateSequenceLocks (tx : Transaction) (flags : Int32) (prevHeights : List Int32)
    (block : CBlockIndex) : Option ((ℤ × ℤ) × List Int32) :=
  -- `assert(prevHeights->size() == tx.vin.size())`
  if prevHeights.length ≠ tx.vin.length then none
  else
    let fEnforceBIP68 :=
      decide (2 ≤ tx.nVersion.toUInt32) && flags.toUInt32 &&& locktimeVerifySequence != 0
    if !fEnforceBIP68 then some ((-1, -1), prevHeights)
    else sequenceLocksLoop block (tx.vin.zip prevHeights) (-1, -1)

/-- `EvaluateSequenceLocks`: both bounds are below the block; `assert(block.pprev)`. -/
def evaluateSequenceLocks (block : CBlockIndex) (lockPair : ℤ × ℤ) : Option Bool :=
  match block.pprev with
  | none => none
  | some pprev =>
    let nBlockTime := pprev.getMedianTimePast
    some !(decide (lockPair.1 ≥ block.nHeight) || decide (lockPair.2 ≥ nBlockTime))

/-- `SequenceLocks`. -/
def sequenceLocks (tx : Transaction) (flags : Int32) (prevHeights : List Int32)
    (block : CBlockIndex) : Option Bool := do
  let (lockPair, _) ← calculateSequenceLocks tx flags prevHeights block
  evaluateSequenceLocks block lockPair

/-! ### What the sequence locks mean -/

/-- What a relative lock time `nSequence` on a coin at height `nCoinHeight` asks of a block. Its
bit 22 gives the type and its low 16 bits the value: a height lock asks for as many blocks since
the coin, a time lock for as many units of 512 seconds between the median time past before the
block and the one before the coin. -/
def RelativeLockElapsed (block : CBlockIndex) (nSequence : ℕ) (nCoinHeight : Int32) : Prop :=
  let value : ℤ := (nSequence % 2 ^ 16 : ℕ)
  if nSequence.testBit 22 then
    ∃ pprev ancestor, block.pprev = some pprev ∧
      block.getAncestor (max (nCoinHeight.toInt - 1) 0) = some ancestor ∧
      value * 2 ^ 9 ≤ pprev.getMedianTimePast - ancestor.getMedianTimePast
  else value ≤ block.nHeight - nCoinHeight.toInt

/-- A lock of the same type and no larger value has elapsed when one has. -/
theorem RelativeLockElapsed.of_le {block : CBlockIndex} {a b : ℕ} {nCoinHeight : Int32}
    (htype : a.testBit 22 = b.testBit 22) (hle : a % 2 ^ 16 ≤ b % 2 ^ 16)
    (h : RelativeLockElapsed block b nCoinHeight) : RelativeLockElapsed block a nCoinHeight := by
  unfold RelativeLockElapsed at h ⊢
  rw [htype]
  split_ifs at h ⊢
  · obtain ⟨pprev, ancestor, hprev, hanc, hval⟩ := h
    exact ⟨pprev, ancestor, hprev, hanc, by omega⟩
  · omega

/-- The bound that the loop of `CalculateSequenceLocks` puts on a last invalid height and time
for one locked input. -/
def LockBound (block : CBlockIndex) (lockPair : ℤ × ℤ) (txin : TxIn) (nCoinHeight : Int32) :
    Prop :=
  let value : ℤ := (txin.nSequence &&& TxIn.sequenceLocktimeMask).toNat
  if txin.nSequence &&& TxIn.sequenceLocktimeTypeFlag = 0 then
    nCoinHeight.toInt + value - 1 ≤ lockPair.1
  else
    ∃ ancestor, block.getAncestor (max (nCoinHeight.toInt - 1) 0) = some ancestor ∧
      ancestor.getMedianTimePast + value * 2 ^ 9 - 1 ≤ lockPair.2

section Loop

variable {block : CBlockIndex}

theorem checkedInt_eq_some {x y : ℤ} (h : checkedInt x = some y) : y = x := by
  unfold checkedInt at h
  split_ifs at h
  simp_all

/-- The mask shifted by the granularity is the mask times `2^9`: it is below `2^16`. -/
theorem toNat_mask_shiftLeft (nSequence : UInt32) :
    ((nSequence &&& TxIn.sequenceLocktimeMask) <<< TxIn.sequenceLocktimeGranularity).toNat =
      (nSequence &&& TxIn.sequenceLocktimeMask).toNat * 2 ^ 9 := by
  have hlt : (nSequence &&& TxIn.sequenceLocktimeMask).toNat < 2 ^ 16 := by
    rw [UInt32.toNat_and]
    exact lt_of_le_of_lt Nat.and_le_right (by decide)
  rw [UInt32.toNat_shiftLeft, Nat.shiftLeft_eq]
  simp only [TxIn.sequenceLocktimeGranularity, UInt32.reduceToNat, Nat.reduceMod]
  omega

/-- The value of a relative lock is the low 16 bits of the sequence number. -/
theorem toNat_and_sequenceLocktimeMask (nSequence : UInt32) :
    (nSequence &&& TxIn.sequenceLocktimeMask).toNat = nSequence.toNat % 2 ^ 16 := by
  have hmask : TxIn.sequenceLocktimeMask.toNat = 2 ^ 16 - 1 := rfl
  rw [UInt32.toNat_and, hmask, Nat.and_two_pow_sub_one_eq_mod]

/-- The type of a relative lock is bit 22 of the sequence number. -/
theorem and_sequenceLocktimeTypeFlag_eq_zero (nSequence : UInt32) :
    nSequence &&& TxIn.sequenceLocktimeTypeFlag = 0 ↔ nSequence.toNat.testBit 22 = false := by
  have hflag : TxIn.sequenceLocktimeTypeFlag.toNat = 2 ^ 22 := rfl
  rw [← UInt32.toNat_inj, UInt32.toNat_and, hflag, Nat.and_two_pow, UInt32.toNat_zero]
  cases nSequence.toNat.testBit 22 <;> simp

/-- A bound stays a bound when the last invalid height and time grow. -/
theorem LockBound.mono {lockPair lockPair' : ℤ × ℤ} {txin : TxIn} {nCoinHeight : Int32}
    (h : LockBound block lockPair txin nCoinHeight) (h₁ : lockPair.1 ≤ lockPair'.1)
    (h₂ : lockPair.2 ≤ lockPair'.2) : LockBound block lockPair' txin nCoinHeight := by
  unfold LockBound at h ⊢
  split_ifs at h ⊢
  · omega
  · obtain ⟨ancestor, hanc, hle⟩ := h
    exact ⟨ancestor, hanc, by omega⟩

/-- One input: the bounds only grow, and a locked input is bounded. -/
theorem sequenceLockStep_eq_some {lockPair lockPair' : ℤ × ℤ} {txin : TxIn}
    {nCoinHeight height : Int32}
    (h : sequenceLockStep block lockPair txin nCoinHeight = some (lockPair', height)) :
    lockPair.1 ≤ lockPair'.1 ∧ lockPair.2 ≤ lockPair'.2 ∧
      (txin.nSequence &&& TxIn.sequenceLocktimeDisableFlag = 0 →
        LockBound block lockPair' txin nCoinHeight) := by
  obtain ⟨nMinHeight, nMinTime⟩ := lockPair
  unfold sequenceLockStep at h
  dsimp only at h
  split_ifs at h with hdisable htype
  · -- no relative lock: nothing changes
    simp only [Option.some.injEq, Prod.mk.injEq] at h
    obtain ⟨rfl, -⟩ := h
    exact ⟨le_rfl, le_rfl, fun h => absurd h hdisable⟩
  · -- a time lock, from the median time past before the coin
    obtain ⟨height', hheight, h⟩ := Option.bind_eq_some_iff.mp h
    obtain ⟨ancestor, hanc, h⟩ := Option.bind_eq_some_iff.mp h
    simp only [Option.some.injEq, Prod.mk.injEq] at h
    obtain ⟨rfl, -⟩ := h
    rw [checkedInt_eq_some hheight] at hanc
    refine ⟨le_rfl, le_max_left _ _, fun _ => ?_⟩
    simp only [LockBound, if_neg htype]
    refine ⟨ancestor, hanc, ?_⟩
    rw [toNat_mask_shiftLeft] at *
    push_cast
    exact le_max_right _ _
  · -- a height lock
    obtain ⟨sum, hsum, h⟩ := Option.bind_eq_some_iff.mp h
    obtain ⟨lastInvalid, hlast, h⟩ := Option.bind_eq_some_iff.mp h
    simp only [Option.some.injEq, Prod.mk.injEq] at h
    obtain ⟨rfl, -⟩ := h
    rw [checkedInt_eq_some hlast, checkedInt_eq_some hsum] at *
    refine ⟨le_max_left _ _, le_rfl, fun _ => ?_⟩
    simp only [LockBound, if_pos (not_not.mp htype)]
    exact le_max_right _ _

/-- The whole loop: the bounds only grow, and every locked input is bounded by the result. -/
theorem sequenceLocksLoop_lockBound {inputs : List (TxIn × Int32)} {lockPair lockPair' : ℤ × ℤ}
    {heights : List Int32}
    (h : sequenceLocksLoop block inputs lockPair = some (lockPair', heights)) :
    lockPair.1 ≤ lockPair'.1 ∧ lockPair.2 ≤ lockPair'.2 ∧
      ∀ input ∈ inputs, input.1.nSequence &&& TxIn.sequenceLocktimeDisableFlag = 0 →
        LockBound block lockPair' input.1 input.2 := by
  induction inputs generalizing lockPair heights with
  | nil =>
    simp only [sequenceLocksLoop, Option.some.injEq, Prod.mk.injEq] at h
    obtain ⟨rfl, -⟩ := h
    simp
  | cons input inputs ih =>
    obtain ⟨txin, nCoinHeight⟩ := input
    simp only [sequenceLocksLoop] at h
    obtain ⟨⟨lockPair₁, height⟩, hstep, h⟩ := Option.bind_eq_some_iff.mp h
    obtain ⟨⟨lockPair₂, heights₂⟩, hloop, h⟩ := Option.bind_eq_some_iff.mp h
    simp only [pure, Option.some.injEq, Prod.mk.injEq] at h
    obtain ⟨rfl, -⟩ := h
    obtain ⟨h₁, h₂, hbound⟩ := sequenceLockStep_eq_some hstep
    obtain ⟨h₁', h₂', hrest⟩ := ih hloop
    refine ⟨h₁.trans h₁', h₂.trans h₂', ?_⟩
    rintro input (_ | ⟨_, hmem⟩) hdisable
    · exact (hbound hdisable).mono h₁' h₂'
    · exact hrest input hmem hdisable

end Loop

theorem length_of_calculateSequenceLocks {tx : Transaction} {flags : Int32}
    {prevHeights : List Int32} {block : CBlockIndex} {r : (ℤ × ℤ) × List Int32}
    (h : calculateSequenceLocks tx flags prevHeights block = some r) :
    prevHeights.length = tx.vin.length := by
  unfold calculateSequenceLocks at h
  by_contra hne
  rw [if_pos hne] at h
  simp at h

/-- Once BIP 68 is enforced, `CalculateSequenceLocks` is its loop over the inputs. -/
theorem calculateSequenceLocks_of_enforced {tx : Transaction} {flags : Int32}
    {prevHeights : List Int32} {block : CBlockIndex} (hlen : prevHeights.length = tx.vin.length)
    (hversion : 2 ≤ tx.nVersion.toUInt32) (hflags : flags.toUInt32 &&& locktimeVerifySequence ≠ 0) :
    calculateSequenceLocks tx flags prevHeights block =
      sequenceLocksLoop block (tx.vin.zip prevHeights) (-1, -1) := by
  simp [calculateSequenceLocks, hlen, hversion, hflags]

/-- `EvaluateSequenceLocks` holds when the block has a parent and both bounds are below it. -/
theorem evaluateSequenceLocks_eq_some_true {block : CBlockIndex} {lockPair : ℤ × ℤ}
    (h : evaluateSequenceLocks block lockPair = some true) :
    ∃ pprev, block.pprev = some pprev ∧ lockPair.1 < block.nHeight ∧
      lockPair.2 < pprev.getMedianTimePast := by
  unfold evaluateSequenceLocks at h
  split at h
  · simp at h
  · rename_i pprev hprev
    simp only [Option.some.injEq, Bool.not_eq_true', Bool.or_eq_false_iff,
      decide_eq_false_iff_not, not_le] at h
    exact ⟨pprev, hprev, h⟩

/-- Bounds below the block say that the lock has elapsed. -/
theorem LockBound.elapsed {block pprev : CBlockIndex} {lockPair : ℤ × ℤ} {txin : TxIn}
    {nCoinHeight : Int32} (h : LockBound block lockPair txin nCoinHeight)
    (hprev : block.pprev = some pprev) (hheight : lockPair.1 < block.nHeight)
    (htime : lockPair.2 < pprev.getMedianTimePast) :
    RelativeLockElapsed block txin.nSequence.toNat nCoinHeight := by
  unfold LockBound at h
  unfold RelativeLockElapsed
  rw [toNat_and_sequenceLocktimeMask] at h
  by_cases htype : txin.nSequence &&& TxIn.sequenceLocktimeTypeFlag = 0
  · -- a height lock
    rw [if_pos htype] at h
    rw [if_neg (by simp [(and_sequenceLocktimeTypeFlag_eq_zero _).mp htype])]
    omega
  · -- a time lock
    rw [if_neg htype] at h
    rw [if_pos (by simpa [and_sequenceLocktimeTypeFlag_eq_zero] using htype)]
    obtain ⟨ancestor, hanc, hle⟩ := h
    exact ⟨pprev, ancestor, hprev, hanc, by omega⟩

/-- `SequenceLocks` holds only when the relative lock of every input that has one has elapsed,
once BIP 68 is enforced. -/
theorem sequenceLocks_elapsed {tx : Transaction} {flags : Int32} {prevHeights : List Int32}
    {block : CBlockIndex} (h : sequenceLocks tx flags prevHeights block = some true)
    (hversion : 2 ≤ tx.nVersion.toUInt32) (hflags : flags.toUInt32 &&& locktimeVerifySequence ≠ 0)
    {i : ℕ} {txin : TxIn} {nCoinHeight : Int32} (htxin : tx.vin[i]? = some txin)
    (hheight : prevHeights[i]? = some nCoinHeight)
    (hdisable : txin.nSequence &&& TxIn.sequenceLocktimeDisableFlag = 0) :
    RelativeLockElapsed block txin.nSequence.toNat nCoinHeight := by
  obtain ⟨⟨lockPair, heights⟩, hcalc, heval⟩ := Option.bind_eq_some_iff.mp h
  dsimp only at heval
  -- BIP 68 is enforced: the loop ran over every input
  rw [calculateSequenceLocks_of_enforced (length_of_calculateSequenceLocks hcalc) hversion
    hflags] at hcalc
  have hmem : (txin, nCoinHeight) ∈ tx.vin.zip prevHeights :=
    List.mem_of_getElem? (List.getElem?_zip_eq_some.mpr ⟨htxin, hheight⟩)
  have hbound := (sequenceLocksLoop_lockBound hcalc).2.2 _ hmem hdisable
  obtain ⟨pprev, hprev, hbelow, htime⟩ := evaluateSequenceLocks_eq_some_true heval
  exact hbound.elapsed hprev hbelow htime

end BitcoinCash
