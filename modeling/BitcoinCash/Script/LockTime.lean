import BitcoinCash.Script.Interpreter
import BitcoinCash.Script.Arithmetic
import BitcoinCash.Consensus.TxVerify

/-!
# Lock-time opcodes and finality

`OP_CHECKLOCKTIMEVERIFY` and `OP_CHECKSEQUENCEVERIFY` compare their operand with the spending
transaction through `GenericTransactionSignatureChecker::CheckLockTime` and `CheckSequence`
(`script/interpreter.cpp`); consensus enforces the lock times of that transaction through
`IsFinalTx` and `SequenceLocks` (`consensus/tx_verify.cpp`).

The opcodes are sound with respect to those rules: a script that passes `CHECKLOCKTIMEVERIFY`
with operand `L` can only be mined in a block whose height (or time, as `L` says) is past `L`,
and one that passes `CHECKSEQUENCEVERIFY` with an operand `S` whose disable bit is clear only in a
block where the relative lock `S` has elapsed for the input. The checker compares the operand
with the transaction's own fields, of the same type, and requires them to be enforced (a
non-final input for `nLockTime`, version 2 and no disable bit for `nSequence`); the enforcement
then bounds the block by the transaction's fields, and so by the operand.
-/

namespace BitcoinCash

open CScriptNum

/-- `GenericTransactionSignatureChecker`, by what `CheckLockTime` and `CheckSequence` read: the
transaction `txTo` and the input `nIn` it checks, which `txTo->vin[nIn]` requires to exist. -/
structure TransactionChecker where
  txTo : Transaction
  nIn : ℕ
  nIn_lt : nIn < txTo.vin.length

namespace TransactionChecker

variable (c : TransactionChecker)

/-- `txTo->vin[nIn]`. -/
def txIn : TxIn := c.txTo.vin.get ⟨c.nIn, c.nIn_lt⟩

/-- `CheckLockTime`: the operand has the type of the transaction's `nLockTime` and is not past
it, and the input is not final. -/
def checkLockTime (nLockTime : ℤ) : Bool :=
  let txLockTime : ℤ := c.txTo.nLockTime.toNat
  if ¬((txLockTime < locktimeThreshold ∧ nLockTime < locktimeThreshold) ∨
      (txLockTime ≥ locktimeThreshold ∧ nLockTime ≥ locktimeThreshold)) then false
  else if nLockTime > txLockTime then false
  else if TxIn.sequenceFinal = c.txIn.nSequence then false
  else true

/-- `CheckSequence`: the transaction enforces BIP 68 on the input, and the operand's masked
relative lock has the type of the input's and is not past it. The masks apply to the
`uint32_t` that `txToSequence` widens. -/
def checkSequence (nSequence : ℤ) : Bool :=
  if c.txTo.nVersion.toUInt32 < 2 then false
  else if c.txIn.nSequence &&& TxIn.sequenceLocktimeDisableFlag ≠ 0 then false
  else
    let nLockTimeMask := TxIn.sequenceLocktimeTypeFlag ||| TxIn.sequenceLocktimeMask
    let txToSequenceMasked : ℤ := (c.txIn.nSequence &&& nLockTimeMask).toNat
    match safeBitwiseAnd nSequence nLockTimeMask.toNat with
    | none => false
    | some nSequenceMasked =>
      let typeFlag : ℤ := TxIn.sequenceLocktimeTypeFlag.toNat
      if ¬((txToSequenceMasked < typeFlag ∧ nSequenceMasked < typeFlag) ∨
          (txToSequenceMasked ≥ typeFlag ∧ nSequenceMasked ≥ typeFlag)) then false
      else if nSequenceMasked > txToSequenceMasked then false
      else true

/-- The checker `EvalScript` receives: the signature methods hash the transaction and are
given; the lock-time methods are the transaction's. -/
def toBase (verifySignature : ValType → ValType → Vector UInt8 32 → Bool)
    (checkSig : ValType → ValType → List UInt8 → UInt32 → Bool) : BaseSignatureChecker where
  verifySignature
  checkSig
  checkLockTime := c.checkLockTime
  checkSequence := c.checkSequence

theorem txIn_mem : c.txIn ∈ c.txTo.vin := List.get_mem _ _

theorem getElem?_vin : c.txTo.vin[c.nIn]? = some c.txIn := by
  simp [txIn]

/-! ### `CheckLockTime` -/

theorem checkLockTime_eq_true {nLockTime : ℤ} (h : c.checkLockTime nLockTime = true) :
    ((c.txTo.nLockTime.toNat : ℤ) < locktimeThreshold ∧ nLockTime < locktimeThreshold ∨
      (c.txTo.nLockTime.toNat : ℤ) ≥ locktimeThreshold ∧ nLockTime ≥ locktimeThreshold) ∧
    nLockTime ≤ c.txTo.nLockTime.toNat ∧ c.txIn.nSequence ≠ TxIn.sequenceFinal := by
  unfold checkLockTime at h
  dsimp only at h
  split_ifs at h with htype hgt hfinal
  exact ⟨htype, not_lt.mp hgt, Ne.symm hfinal⟩

/-- A lock time that `CheckLockTime` accepts is past in every block, from height one, in which
the transaction is final: its height if it is a height, its time if it is a time. -/
theorem checkLockTime_sound {nLockTime : ℤ} (h : c.checkLockTime nLockTime = true)
    {nBlockHeight : Int32} {nBlockTime : Int64}
    (hheight : 1 ≤ nBlockHeight.toInt) (hfinal : isFinalTx c.txTo nBlockHeight nBlockTime = true) :
    (nLockTime < locktimeThreshold → nLockTime < nBlockHeight.toInt) ∧
      (locktimeThreshold ≤ nLockTime → nLockTime < nBlockTime.toInt) := by
  obtain ⟨htype, hle, hseq⟩ := c.checkLockTime_eq_true h
  have hthreshold : (locktimeThreshold : ℤ) = 500000000 := rfl
  rcases isFinalTx_eq_true hfinal ⟨c.txIn, c.txIn_mem, hseq⟩ with hzero | hlt
  · -- a zero lock time admits only the operand zero, a height
    have hzero' : (c.txTo.nLockTime.toNat : ℤ) = 0 := by simp [hzero]
    constructor <;> intro <;> omega
  · -- the transaction's lock time is below the block's limit of its type
    split_ifs at hlt
    all_goals constructor <;> intro <;> omega

/-! ### `CheckSequence` -/

/-- The masks of `CheckSequence` keep bit 22, the type, and the low 16 bits, the value. -/
theorem and_lockTimeMask (x : ℕ) :
    x &&& (2 ^ 22 ||| (2 ^ 16 - 1)) = (x.testBit 22).toNat * 2 ^ 22 + x % 2 ^ 16 := by
  rw [Nat.and_or_distrib_left, Nat.and_two_pow, Nat.and_two_pow_sub_one_eq_mod]
  have h := Nat.two_pow_add_eq_or_of_lt (Nat.mod_lt x (by positivity : 0 < 2 ^ 16))
    ((x.testBit 22).toNat * 2 ^ 6)
  rw [show 2 ^ 16 * ((x.testBit 22).toNat * 2 ^ 6) = (x.testBit 22).toNat * 2 ^ 22 by ring] at h
  exact h.symm

theorem toNat_lockTimeMask :
    (TxIn.sequenceLocktimeTypeFlag ||| TxIn.sequenceLocktimeMask).toNat = 2 ^ 22 ||| (2 ^ 16 - 1) :=
  rfl

/-- What `CheckSequence` accepts of an operand below `2^63`: an input with a relative lock, in a
transaction that enforces it, and an operand of the same type and no larger value. -/
theorem checkSequence_eq_true {nSequence : ℤ} (h : c.checkSequence nSequence = true)
    (hnonneg : 0 ≤ nSequence) (hlt : nSequence < 2 ^ 63) :
    2 ≤ c.txTo.nVersion.toUInt32 ∧ c.txIn.nSequence &&& TxIn.sequenceLocktimeDisableFlag = 0 ∧
      nSequence.toNat.testBit 22 = c.txIn.nSequence.toNat.testBit 22 ∧
      nSequence.toNat % 2 ^ 16 ≤ c.txIn.nSequence.toNat % 2 ^ 16 := by
  unfold checkSequence at h
  split_ifs at h with hversion hdisable
  dsimp only at h
  rw [safeBitwiseAnd_of_nonneg hnonneg hlt (by decide) (by decide)] at h
  dsimp only at h
  split_ifs at h with htype hgt
  refine ⟨UInt32.not_lt.mp hversion, not_not.mp hdisable, ?_⟩
  -- both masked values are a type bit and a 16-bit value
  simp only [UInt32.toNat_and, toNat_lockTimeMask, Int.toNat_natCast, and_lockTimeMask]
    at htype hgt
  have hflag : (TxIn.sequenceLocktimeTypeFlag.toNat : ℤ) = 2 ^ 22 := rfl
  rw [hflag] at htype
  have hs := Nat.mod_lt nSequence.toNat (by positivity : 0 < 2 ^ 16)
  have ht := Nat.mod_lt c.txIn.nSequence.toNat (by positivity : 0 < 2 ^ 16)
  have hbit := Bool.toNat_le (nSequence.toNat.testBit 22)
  have hbit' := Bool.toNat_le (c.txIn.nSequence.toNat.testBit 22)
  have heq : (nSequence.toNat.testBit 22).toNat = (c.txIn.nSequence.toNat.testBit 22).toNat := by
    omega
  refine ⟨?_, by omega⟩
  revert heq
  cases nSequence.toNat.testBit 22 <;> cases c.txIn.nSequence.toNat.testBit 22 <;> simp

/-- A relative lock that `CheckSequence` accepts has elapsed for the input in every block in
which `SequenceLocks` holds for the transaction, with any flags that enforce BIP 68. -/
theorem checkSequence_sound {nSequence : ℤ} (h : c.checkSequence nSequence = true)
    (hnonneg : 0 ≤ nSequence) (hlt : nSequence < 2 ^ 63) {flags : Int32}
    {prevHeights : List Int32} {block : CBlockIndex}
    (hflags : flags.toUInt32 &&& locktimeVerifySequence ≠ 0)
    (hlocks : sequenceLocks c.txTo flags prevHeights block = some true) :
    ∃ nCoinHeight, prevHeights[c.nIn]? = some nCoinHeight ∧
      RelativeLockElapsed block nSequence.toNat nCoinHeight := by
  obtain ⟨hversion, hdisable, htype, hle⟩ := c.checkSequence_eq_true h hnonneg hlt
  obtain ⟨⟨lockPair, heights⟩, hcalc, -⟩ := Option.bind_eq_some_iff.mp hlocks
  have hlen : c.nIn < prevHeights.length := by
    rw [length_of_calculateSequenceLocks hcalc]
    exact c.nIn_lt
  obtain ⟨nCoinHeight, hheight⟩ : ∃ x, prevHeights[c.nIn]? = some x :=
    ⟨_, List.getElem?_eq_getElem hlen⟩
  -- the input's own lock has elapsed, and the operand asks no more
  have helapsed := sequenceLocks_elapsed hlocks hversion hflags c.getElem?_vin hheight hdisable
  exact ⟨nCoinHeight, hheight, helapsed.of_le htype hle⟩

end TransactionChecker

/-! ### The opcodes -/

section Opcodes

variable {env : EvalEnv} {m m' : Machine} {top : ValType} {rest : List ValType}

/-- `OP_CHECKLOCKTIMEVERIFY`, when enabled and successful, had an operand that the checker
accepted. -/
theorem evalCheckLockTimeVerify_eq_ok {nLockTime : ℤ}
    (hflag : hasFlag env.flags scriptVerifyChecklocktimeverify = true)
    (hstack : m.stack = top :: rest)
    (hnum : scriptNum top env.fRequireMinimal 5 = .ok nLockTime)
    (h : evalCheckLockTimeVerify env m = .ok m') :
    env.checker.checkLockTime nLockTime = true := by
  unfold evalCheckLockTimeVerify at h
  rw [if_neg (by simp [hflag]), if_neg (by simp [hstack])] at h
  simp only [hstack, stacktop_cons_neg_one, Except.bind_ok', hnum] at h
  obtain ⟨-, h⟩ := Except.ite_throw_eq_ok.mp h
  obtain ⟨hcheck, -⟩ := Except.ite_throw_eq_ok.mp h
  simpa using hcheck

/-- `OP_CHECKSEQUENCEVERIFY`, when enabled and successful on an operand whose disable bit is
clear, had a non-negative operand below `2^63` that the checker accepted. -/
theorem evalCheckSequenceVerify_eq_ok {nSequence : ℤ}
    (hflag : hasFlag env.flags scriptVerifyChecksequenceverify = true)
    (hstack : m.stack = top :: rest)
    (hnum : scriptNum top env.fRequireMinimal 5 = .ok nSequence)
    (hbit : nSequence.toNat.testBit 31 = false)
    (h : evalCheckSequenceVerify env m = .ok m') :
    0 ≤ nSequence ∧ nSequence < 2 ^ 63 ∧ env.checker.checkSequence nSequence = true := by
  have hlt : nSequence < 2 ^ 63 := by
    have := natAbs_lt_of_fromBytes (fromBytes_of_scriptNum hnum)
    omega
  unfold evalCheckSequenceVerify at h
  rw [if_neg (by simp [hflag]), if_neg (by simp [hstack])] at h
  simp only [hstack, stacktop_cons_neg_one, Except.bind_ok', hnum] at h
  obtain ⟨hneg, h⟩ := Except.ite_throw_eq_ok.mp h
  have hnonneg : 0 ≤ nSequence := not_lt.mp hneg
  -- with the disable bit clear the operand goes to the checker
  have hand : safeBitwiseAnd nSequence sequenceLocktimeDisableFlag = some 0 := by
    rw [safeBitwiseAnd_of_nonneg hnonneg hlt (by decide) (by decide)]
    have hflag' : (sequenceLocktimeDisableFlag).toNat = 2 ^ 31 := rfl
    rw [hflag', Nat.and_two_pow, hbit]
    rfl
  rw [hand] at h
  dsimp only at h
  rw [if_neg (by simp)] at h
  obtain ⟨hcheck, -⟩ := Except.ite_throw_eq_ok.mp h
  exact ⟨hnonneg, hlt, by simpa using hcheck⟩

end Opcodes

/-- The lock-time opcodes are sound with respect to the finality rules of consensus, for a
checker whose lock-time methods are those of the transaction checker for `(tx, nIn)`: a passed
`OP_CHECKLOCKTIMEVERIFY` on `L` means that every block from height one in which the transaction
is final is past `L`, in height or in time as `L` says; a passed `OP_CHECKSEQUENCEVERIFY` on an
`S` with its disable bit clear means that in every block where `SequenceLocks` holds, with flags
that enforce BIP 68, the relative lock `S` has elapsed since the coin the input spends. -/
theorem lockTimeVerify_sound :
    (∀ (c : TransactionChecker) (env : EvalEnv) (m m' : Machine) (top : ValType)
        (rest : List ValType) (L : ℤ),
      env.checker.checkLockTime = c.checkLockTime →
      hasFlag env.flags scriptVerifyChecklocktimeverify = true →
      m.stack = top :: rest → scriptNum top env.fRequireMinimal 5 = .ok L →
      evalCheckLockTimeVerify env m = .ok m' →
      ∀ (nBlockHeight : Int32) (nBlockTime : Int64), 1 ≤ nBlockHeight.toInt →
        isFinalTx c.txTo nBlockHeight nBlockTime = true →
        (L < locktimeThreshold → L < nBlockHeight.toInt) ∧
          (locktimeThreshold ≤ L → L < nBlockTime.toInt)) ∧
    (∀ (c : TransactionChecker) (env : EvalEnv) (m m' : Machine) (top : ValType)
        (rest : List ValType) (S : ℤ),
      env.checker.checkSequence = c.checkSequence →
      hasFlag env.flags scriptVerifyChecksequenceverify = true →
      m.stack = top :: rest → scriptNum top env.fRequireMinimal 5 = .ok S →
      S.toNat.testBit 31 = false →
      evalCheckSequenceVerify env m = .ok m' →
      ∀ (flags : Int32) (prevHeights : List Int32) (block : CBlockIndex),
        flags.toUInt32 &&& locktimeVerifySequence ≠ 0 →
        sequenceLocks c.txTo flags prevHeights block = some true →
        ∃ nCoinHeight, prevHeights[c.nIn]? = some nCoinHeight ∧
          RelativeLockElapsed block S.toNat nCoinHeight) := by
  constructor
  · intro c env m m' top rest L hchecker hflag hstack hnum h nBlockHeight nBlockTime hheight hfinal
    have hcheck := evalCheckLockTimeVerify_eq_ok hflag hstack hnum h
    rw [hchecker] at hcheck
    exact c.checkLockTime_sound hcheck hheight hfinal
  · intro c env m m' top rest S hchecker hflag hstack hnum hbit h flags prevHeights block hflags
      hlocks
    obtain ⟨hnonneg, hlt, hcheck⟩ := evalCheckSequenceVerify_eq_ok hflag hstack hnum hbit h
    rw [hchecker] at hcheck
    exact c.checkSequence_sound hcheck hnonneg hlt hflags hlocks

/-- The checker of a version 2 transaction locked to height 100, for its one input, which has a
relative lock of one block. -/
def heightLockedChecker : TransactionChecker :=
  ⟨⟨2, [⟨⟨Vector.replicate 32 0, 0⟩, [], 1⟩], [], 100⟩, 0, by decide⟩

/-- Both lock-time opcodes enabled, with the checker of `heightLockedChecker`. -/
def heightLockedEnv : EvalEnv where
  flags := scriptVerifyChecklocktimeverify ||| scriptVerifyChecksequenceverify
  checker := heightLockedChecker.toBase default default
  context := none
  crypto := default

theorem lockTimeVerify_sound_at_height_101 :
    (((100 : ℤ) < locktimeThreshold → (100 : ℤ) < (101 : Int32).toInt) ∧
      ((locktimeThreshold : ℤ) ≤ 100 → (100 : ℤ) < (0 : Int64).toInt)) ∧
    ∃ nCoinHeight, [(1 : Int32)][0]? = some nCoinHeight ∧
      RelativeLockElapsed ⟨[0, 0, 0], by simp, by simp⟩ (1 : ℤ).toNat nCoinHeight :=
  ⟨lockTimeVerify_sound.1 heightLockedChecker heightLockedEnv (initialMachine [[0x64]] [0xb1] {})
      (initialMachine [[0x64]] [0xb1] {}) [0x64] [] 100
      (by dsimp only [heightLockedEnv, TransactionChecker.toBase]) (by decide) rfl (by rfl) (by rfl)
      101 0 (by decide) (by decide),
    lockTimeVerify_sound.2 heightLockedChecker heightLockedEnv (initialMachine [[0x01]] [0xb2] {})
      (initialMachine [[0x01]] [0xb2] {}) [0x01] [] 1
      (by dsimp only [heightLockedEnv, TransactionChecker.toBase]) (by decide) rfl (by rfl)
      (by decide) (by rfl) 1 [1] ⟨[0, 0, 0], by simp, by simp⟩ (by decide) (by decide)⟩

end BitcoinCash
