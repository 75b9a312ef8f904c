import BitcoinCash.Script.ScriptNum

/-!
# Scripts: opcodes, limits, flags, errors and the instruction decoder

The parts of `script/script.h`, `script/script.cpp`, `script/script_flags.h` and
`script/script_error.h` that the interpreter reads. A script is a byte string; an iterator into
it is modelled by the bytes from that position to the end, so `pc < pend` is "the rest is not
empty" and `CScript(pbegincodehash, pend)` is the stored suffix itself.

Opcodes are bytes, as `GetScriptOp` reads them, with the names of `opcodetype` as match
patterns; the interpreter compares them as numbers (`opcode > OP_16`) and dispatches on them by
name.
-/

namespace BitcoinCash

open Bytes

/-- `valtype`: an element of the script stack. -/
abbrev ValType := List UInt8

/-! ### Limits -/

/-- `MAX_SCRIPT_ELEMENT_SIZE`. -/
def maxScriptElementSize : ℕ := 520

/-- `MAX_OPS_PER_SCRIPT`. -/
def maxOpsPerScript : ℕ := 201

/-- `MAX_PUBKEYS_PER_MULTISIG`. -/
def maxPubkeysPerMultisig : ℕ := 20

/-- `MAX_SCRIPT_SIZE`. -/
def maxScriptSize : ℕ := 10000

/-- `MAX_STACK_SIZE`. -/
def maxStackSize : ℕ := 1000

/-- `LOCKTIME_THRESHOLD`: below it a lock time is a block height, from it on a time. -/
def locktimeThreshold : ℕ := 500000000

/-! ### Opcodes -/

section Opcodes

@[match_pattern] def op0 : UInt8 := 0x00
@[match_pattern] def opPushData1 : UInt8 := 0x4c
@[match_pattern] def opPushData2 : UInt8 := 0x4d
@[match_pattern] def opPushData4 : UInt8 := 0x4e
@[match_pattern] def op1Negate : UInt8 := 0x4f
@[match_pattern] def op1 : UInt8 := 0x51
@[match_pattern] def op2 : UInt8 := 0x52
@[match_pattern] def op3 : UInt8 := 0x53
@[match_pattern] def op4 : UInt8 := 0x54
@[match_pattern] def op5 : UInt8 := 0x55
@[match_pattern] def op6 : UInt8 := 0x56
@[match_pattern] def op7 : UInt8 := 0x57
@[match_pattern] def op8 : UInt8 := 0x58
@[match_pattern] def op9 : UInt8 := 0x59
@[match_pattern] def op10 : UInt8 := 0x5a
@[match_pattern] def op11 : UInt8 := 0x5b
@[match_pattern] def op12 : UInt8 := 0x5c
@[match_pattern] def op13 : UInt8 := 0x5d
@[match_pattern] def op14 : UInt8 := 0x5e
@[match_pattern] def op15 : UInt8 := 0x5f
@[match_pattern] def op16 : UInt8 := 0x60
@[match_pattern] def opNop : UInt8 := 0x61
@[match_pattern] def opIf : UInt8 := 0x63
@[match_pattern] def opNotIf : UInt8 := 0x64
@[match_pattern] def opElse : UInt8 := 0x67
@[match_pattern] def opEndIf : UInt8 := 0x68
@[match_pattern] def opVerify : UInt8 := 0x69
@[match_pattern] def opReturn : UInt8 := 0x6a
@[match_pattern] def opToAltStack : UInt8 := 0x6b
@[match_pattern] def opFromAltStack : UInt8 := 0x6c
@[match_pattern] def op2Drop : UInt8 := 0x6d
@[match_pattern] def op2Dup : UInt8 := 0x6e
@[match_pattern] def op3Dup : UInt8 := 0x6f
@[match_pattern] def op2Over : UInt8 := 0x70
@[match_pattern] def op2Rot : UInt8 := 0x71
@[match_pattern] def op2Swap : UInt8 := 0x72
@[match_pattern] def opIfDup : UInt8 := 0x73
@[match_pattern] def opDepth : UInt8 := 0x74
@[match_pattern] def opDrop : UInt8 := 0x75
@[match_pattern] def opDup : UInt8 := 0x76
@[match_pattern] def opNip : UInt8 := 0x77
@[match_pattern] def opOver : UInt8 := 0x78
@[match_pattern] def opPick : UInt8 := 0x79
@[match_pattern] def opRoll : UInt8 := 0x7a
@[match_pattern] def opRot : UInt8 := 0x7b
@[match_pattern] def opSwap : UInt8 := 0x7c
@[match_pattern] def opTuck : UInt8 := 0x7d
@[match_pattern] def opCat : UInt8 := 0x7e
@[match_pattern] def opSplit : UInt8 := 0x7f
@[match_pattern] def opNum2Bin : UInt8 := 0x80
@[match_pattern] def opBin2Num : UInt8 := 0x81
@[match_pattern] def opSize : UInt8 := 0x82
@[match_pattern] def opInvert : UInt8 := 0x83
@[match_pattern] def opAnd : UInt8 := 0x84
@[match_pattern] def opOr : UInt8 := 0x85
@[match_pattern] def opXor : UInt8 := 0x86
@[match_pattern] def opEqual : UInt8 := 0x87
@[match_pattern] def opEqualVerify : UInt8 := 0x88
@[match_pattern] def op1Add : UInt8 := 0x8b
@[match_pattern] def op1Sub : UInt8 := 0x8c
@[match_pattern] def op2Mul : UInt8 := 0x8d
@[match_pattern] def op2Div : UInt8 := 0x8e
@[match_pattern] def opNegate : UInt8 := 0x8f
@[match_pattern] def opAbs : UInt8 := 0x90
@[match_pattern] def opNot : UInt8 := 0x91
@[match_pattern] def op0NotEqual : UInt8 := 0x92
@[match_pattern] def opAdd : UInt8 := 0x93
@[match_pattern] def opSub : UInt8 := 0x94
@[match_pattern] def opMul : UInt8 := 0x95
@[match_pattern] def opDiv : UInt8 := 0x96
@[match_pattern] def opMod : UInt8 := 0x97
@[match_pattern] def opLShift : UInt8 := 0x98
@[match_pattern] def opRShift : UInt8 := 0x99
@[match_pattern] def opBoolAnd : UInt8 := 0x9a
@[match_pattern] def opBoolOr : UInt8 := 0x9b
@[match_pattern] def opNumEqual : UInt8 := 0x9c
@[match_pattern] def opNumEqualVerify : UInt8 := 0x9d
@[match_pattern] def opNumNotEqual : UInt8 := 0x9e
@[match_pattern] def opLessThan : UInt8 := 0x9f
@[match_pattern] def opGreaterThan : UInt8 := 0xa0
@[match_pattern] def opLessThanOrEqual : UInt8 := 0xa1
@[match_pattern] def opGreaterThanOrEqual : UInt8 := 0xa2
@[match_pattern] def opMin : UInt8 := 0xa3
@[match_pattern] def opMax : UInt8 := 0xa4
@[match_pattern] def opWithin : UInt8 := 0xa5
@[match_pattern] def opRipemd160 : UInt8 := 0xa6
@[match_pattern] def opSha1 : UInt8 := 0xa7
@[match_pattern] def opSha256 : UInt8 := 0xa8
@[match_pattern] def opHash160 : UInt8 := 0xa9
@[match_pattern] def opHash256 : UInt8 := 0xaa
@[match_pattern] def opCodeSeparator : UInt8 := 0xab
@[match_pattern] def opCheckSig : UInt8 := 0xac
@[match_pattern] def opCheckSigVerify : UInt8 := 0xad
@[match_pattern] def opCheckMultiSig : UInt8 := 0xae
@[match_pattern] def opCheckMultiSigVerify : UInt8 := 0xaf
@[match_pattern] def opNop1 : UInt8 := 0xb0
@[match_pattern] def opCheckLockTimeVerify : UInt8 := 0xb1
@[match_pattern] def opCheckSequenceVerify : UInt8 := 0xb2
@[match_pattern] def opNop4 : UInt8 := 0xb3
@[match_pattern] def opNop5 : UInt8 := 0xb4
@[match_pattern] def opNop6 : UInt8 := 0xb5
@[match_pattern] def opNop7 : UInt8 := 0xb6
@[match_pattern] def opNop8 : UInt8 := 0xb7
@[match_pattern] def opNop9 : UInt8 := 0xb8
@[match_pattern] def opNop10 : UInt8 := 0xb9
@[match_pattern] def opCheckDataSig : UInt8 := 0xba
@[match_pattern] def opCheckDataSigVerify : UInt8 := 0xbb
@[match_pattern] def opReverseBytes : UInt8 := 0xbc
@[match_pattern] def opInputIndex : UInt8 := 0xc0
@[match_pattern] def opActiveBytecode : UInt8 := 0xc1
@[match_pattern] def opTxVersion : UInt8 := 0xc2
@[match_pattern] def opTxInputCount : UInt8 := 0xc3
@[match_pattern] def opTxOutputCount : UInt8 := 0xc4
@[match_pattern] def opTxLockTime : UInt8 := 0xc5
@[match_pattern] def opUtxoValue : UInt8 := 0xc6
@[match_pattern] def opUtxoBytecode : UInt8 := 0xc7
@[match_pattern] def opOutpointTxHash : UInt8 := 0xc8
@[match_pattern] def opOutpointIndex : UInt8 := 0xc9
@[match_pattern] def opInputBytecode : UInt8 := 0xca
@[match_pattern] def opInputSequenceNumber : UInt8 := 0xcb
@[match_pattern] def opOutputValue : UInt8 := 0xcc
@[match_pattern] def opOutputBytecode : UInt8 := 0xcd

end Opcodes

/-! ### Flags and errors -/

/-- `SCRIPT_VERIFY_P2SH`. -/
def scriptVerifyP2sh : UInt32 := 1 <<< (0 : UInt32)
/-- `SCRIPT_VERIFY_STRICTENC`. -/
def scriptVerifyStrictenc : UInt32 := 1 <<< (1 : UInt32)
/-- `SCRIPT_VERIFY_DERSIG`. -/
def scriptVerifyDersig : UInt32 := 1 <<< (2 : UInt32)
/-- `SCRIPT_VERIFY_LOW_S`. -/
def scriptVerifyLowS : UInt32 := 1 <<< (3 : UInt32)
/-- `SCRIPT_VERIFY_SIGPUSHONLY`. -/
def scriptVerifySigpushonly : UInt32 := 1 <<< (5 : UInt32)
/-- `SCRIPT_VERIFY_MINIMALDATA`. -/
def scriptVerifyMinimaldata : UInt32 := 1 <<< (6 : UInt32)
/-- `SCRIPT_VERIFY_DISCOURAGE_UPGRADABLE_NOPS`. -/
def scriptVerifyDiscourageUpgradableNops : UInt32 := 1 <<< (7 : UInt32)
/-- `SCRIPT_VERIFY_CLEANSTACK`. -/
def scriptVerifyCleanstack : UInt32 := 1 <<< (8 : UInt32)
/-- `SCRIPT_VERIFY_CHECKLOCKTIMEVERIFY`. -/
def scriptVerifyChecklocktimeverify : UInt32 := 1 <<< (9 : UInt32)
/-- `SCRIPT_VERIFY_CHECKSEQUENCEVERIFY`. -/
def scriptVerifyChecksequenceverify : UInt32 := 1 <<< (10 : UInt32)
/-- `SCRIPT_VERIFY_MINIMALIF`. -/
def scriptVerifyMinimalif : UInt32 := 1 <<< (13 : UInt32)
/-- `SCRIPT_VERIFY_NULLFAIL`. -/
def scriptVerifyNullfail : UInt32 := 1 <<< (14 : UInt32)
/-- `SCRIPT_ENABLE_SIGHASH_FORKID`. -/
def scriptEnableSighashForkid : UInt32 := 1 <<< (16 : UInt32)
/-- `SCRIPT_DISALLOW_SEGWIT_RECOVERY`. -/
def scriptDisallowSegwitRecovery : UInt32 := 1 <<< (20 : UInt32)
/-- `SCRIPT_ENABLE_SCHNORR_MULTISIG`. -/
def scriptEnableSchnorrMultisig : UInt32 := 1 <<< (21 : UInt32)
/-- `SCRIPT_VERIFY_INPUT_SIGCHECKS`. -/
def scriptVerifyInputSigchecks : UInt32 := 1 <<< (22 : UInt32)
/-- `SCRIPT_64_BIT_INTEGERS`. -/
def script64BitIntegers : UInt32 := 1 <<< (24 : UInt32)
/-- `SCRIPT_NATIVE_INTROSPECTION`. -/
def scriptNativeIntrospection : UInt32 := 1 <<< (25 : UInt32)

/-- `flags & flag`, read as a condition. -/
def hasFlag (flags flag : UInt32) : Bool := flags &&& flag != 0

/-- `ScriptError`, in the order of `script_error.h`. -/
inductive ScriptError where
  | ok | unknown | evalFalse | opReturn
  | scriptSize | pushSize | opCount | stackSize | sigCount | pubkeyCount | inputSigchecks
  | invalidOperandSize | invalidNumberRange | impossibleEncoding | invalidSplitRange
  | invalidBitCount
  | verify | equalverify | checkmultisigverify | checksigverify | checkdatasigverify
  | numequalverify
  | badOpcode | disabledOpcode | invalidStackOperation | invalidAltstackOperation
  | unbalancedConditional
  | divByZero | modByZero
  | invalidBitfieldSize | invalidBitRange
  | negativeLocktime | unsatisfiedLocktime
  | sigHashtype | sigDer | minimaldata | sigPushonly | sigHighS | pubkeytype | cleanstack
  | minimalif | sigNullfail
  | sigBadlength | sigNonschnorr
  | discourageUpgradableNops
  | illegalForkid | mustUseForkid
  | sigchecksLimitExceeded
  | invalidNumberRange64Bit
  | contextNotPresent | limitedContextNoSiblingInfo | invalidTxInputIndex
  | invalidTxOutputIndex
  deriving DecidableEq, Repr

/-! ### Decoding instructions -/

/-- The size field of a push opcode: the operand size (the opcode itself below
`OP_PUSHDATA1`, else one, two or four little-endian bytes, `ReadLE16`, `ReadLE32`) and the
bytes after the field; `none` where the script ends inside the field. -/
def readPushSize (opcode : UInt8) (pc : List UInt8) : Option (ℕ × List UInt8) :=
  if opcode < opPushData1 then some (opcode.toNat, pc)
  else if opcode = opPushData1 then
    if pc.length < 1 then none else some (leValue (pc.take 1), pc.drop 1)
  else if opcode = opPushData2 then
    if pc.length < 2 then none else some (leValue (pc.take 2), pc.drop 2)
  else
    if pc.length < 4 then none else some (leValue (pc.take 4), pc.drop 4)

/-- `GetScriptOp`: the opcode at `pc`, its push data and the bytes after the instruction;
`none` where the script ends inside the instruction. Scripts are shorter than `2 ^ 32` bytes,
so `uint32_t(end - pc)` is the number of bytes left. -/
def getScriptOp : List UInt8 → Option (UInt8 × ValType × List UInt8)
  | [] => none
  | opcode :: pc =>
    if opcode ≤ opPushData4 then
      match readPushSize opcode pc with
      | none => none
      | some (nSize, pc) =>
        if pc.length < nSize then none else some (opcode, pc.take nSize, pc.drop nSize)
    else some (opcode, [], pc)

/-- The size field is a prefix of the bytes after the opcode. -/
theorem readPushSize_eq_some {opcode : UInt8} {pc rest : List UInt8} {n : ℕ}
    (h : readPushSize opcode pc = some (n, rest)) : ∃ field, pc = field ++ rest := by
  unfold readPushSize at h
  split_ifs at h <;> simp only [Option.some.injEq, Prod.mk.injEq] at h <;>
    obtain ⟨-, rfl⟩ := h
  · exact ⟨[], rfl⟩
  all_goals exact ⟨_, (List.take_append_drop _ pc).symm⟩

/-- A decoded instruction is its opcode, a size field, the push data and then the rest of the
script. -/
theorem getScriptOp_eq_some {pc rest : List UInt8} {opcode : UInt8} {data : ValType}
    (h : getScriptOp pc = some (opcode, data, rest)) :
    ∃ field, pc = opcode :: (field ++ data ++ rest) := by
  cases pc with
  | nil => simp [getScriptOp] at h
  | cons b bs =>
    simp only [getScriptOp] at h
    split_ifs at h with hpush
    · -- a push: the operand follows its size field
      split at h
      · simp at h
      · rename_i nSize after hsize
        split_ifs at h
        simp only [Option.some.injEq, Prod.mk.injEq] at h
        obtain ⟨rfl, rfl, rfl⟩ := h
        obtain ⟨field, rfl⟩ := readPushSize_eq_some hsize
        exact ⟨field, by simp⟩
    · simp only [Option.some.injEq, Prod.mk.injEq] at h
      obtain ⟨rfl, rfl, rfl⟩ := h
      exact ⟨[], rfl⟩

/-- Decoding consumes at least one byte. -/
theorem getScriptOp_length_lt {pc rest : List UInt8} {opcode : UInt8} {data : ValType}
    (h : getScriptOp pc = some (opcode, data, rest)) : rest.length < pc.length := by
  obtain ⟨field, rfl⟩ := getScriptOp_eq_some h
  simp
  omega

/-- `CheckMinimalPush`, called for the push opcodes `OP_0` … `OP_PUSHDATA4` only. -/
def checkMinimalPush (data : ValType) (opcode : UInt8) : Bool :=
  if data.length = 0 then opcode == op0
  else if data.length = 1 ∧ 1 ≤ data.getD 0 0 ∧ data.getD 0 0 ≤ 16 then false
  else if data.length = 1 ∧ data.getD 0 0 = 0x81 then false
  else if data.length ≤ 75 then opcode.toNat == data.length
  else if data.length ≤ 255 then opcode == opPushData1
  else if data.length ≤ 65535 then opcode == opPushData2
  else true

/-- `CastToBool`: a string is true when it has a non-zero byte, other than a sign bit alone in
the last byte (negative zero). -/
def castToBool : ValType → Bool
  | [] => false
  | b :: rest => if b ≠ 0 then !(rest.isEmpty && b == 0x80) else castToBool rest

/-- `IsOpcodeDisabled`. -/
def isOpcodeDisabled (opcode : UInt8) (flags : UInt32) : Bool :=
  match opcode with
  | opInvert | op2Mul | op2Div | opLShift | opRShift => true
  | opMul => !hasFlag flags script64BitIntegers
  | _ => false

/-! ### Scripts as byte strings -/

/-- `CScript::operator<<(const std::vector<uint8_t> &)`: the shortest push of `b`. -/
def pushData (b : ValType) : List UInt8 :=
  (if b.length < opPushData1.toNat then [UInt8.ofNat b.length]
    else if b.length ≤ 0xff then [opPushData1, UInt8.ofNat b.length]
    else if b.length ≤ 0xffff then opPushData2 :: leBytes 2 b.length
    else opPushData4 :: leBytes 4 b.length) ++ b

set_option linter.unusedVariables false in
/-- `CScript::IsPushOnly`: every instruction decodes and none is above `OP_16`. -/
def isPushOnly (pc : List UInt8) : Bool :=
  match h : getScriptOp pc with
  | none => pc.isEmpty
  | some (opcode, _, rest) => if opcode > op16 then false else isPushOnly rest
termination_by pc.length
decreasing_by exact getScriptOp_length_lt h

/-- `CScript::IsPayToScriptHash`: `OP_HASH160 <20 bytes> OP_EQUAL`. -/
def isPayToScriptHash (script : List UInt8) : Bool :=
  script.length == 23 && script.getD 0 0 == opHash160 && script.getD 1 0 == 0x14 &&
    script.getD 22 0 == opEqual

/-- `CScript::IsWitnessProgram`: a version opcode followed by one direct push of 2 to 40 bytes. -/
def isWitnessProgram (script : List UInt8) : Bool :=
  if script.length < 4 ∨ script.length > 42 then false
  else if script.getD 0 0 ≠ op0 ∧ (script.getD 0 0 < op1 ∨ script.getD 0 0 > op16) then false
  else (script.getD 1 0).toNat + 2 == script.length

set_option linter.unusedVariables false in
/-- The inner `while` of `FindAndDelete`: skip the copies of `b` that start at `pc`, counting
them. -/
def skipMatches (b pc : List UInt8) : List UInt8 × ℕ :=
  if h : b ≠ [] ∧ b.length ≤ pc.length ∧ pc.take b.length = b then
    let skipped := skipMatches b (pc.drop b.length)
    (skipped.1, skipped.2 + 1)
  else (pc, 0)
termination_by pc.length
decreasing_by
  have : 0 < b.length := List.length_pos_iff.mpr h.1
  simp only [List.length_drop]
  omega

theorem length_skipMatches_le (b pc : List UInt8) : (skipMatches b pc).1.length ≤ pc.length := by
  induction pc using skipMatches.induct b with
  | case1 pc h ih =>
    rw [skipMatches, dif_pos h]
    simp only [List.length_drop] at ih ⊢
    omega
  | case2 pc h =>
    rw [skipMatches, dif_neg h]

set_option linter.unusedVariables false in
/-- The `do … while (script.GetOp(pc, opcode))` loop of `FindAndDelete`, from the position
`pc2` reached after the last skip: copy the next instruction, then skip the copies of `b` after
it. Returns the copied bytes, the count and the final `pc2`. -/
def findAndDeleteLoop (b pc2 result : List UInt8) (nFound : ℕ) : List UInt8 × ℕ × List UInt8 :=
  match h : getScriptOp pc2 with
  | none => (result, nFound, pc2)
  | some (_, _, pc) =>
    let skipped := skipMatches b pc
    findAndDeleteLoop b skipped.1 (result ++ pc2.take (pc2.length - pc.length))
      (nFound + skipped.2)
termination_by pc2.length
decreasing_by exact lt_of_le_of_lt (length_skipMatches_le b pc) (getScriptOp_length_lt h)

/-- `FindAndDelete`: delete from `script` the copies of `b` that start at instruction
boundaries; the new script and the number of copies deleted. -/
def findAndDelete (script b : List UInt8) : List UInt8 × ℕ :=
  if b = [] then (script, 0) else
  let skipped := skipMatches b script
  let (result, nFound, pc2) := findAndDeleteLoop b skipped.1 [] skipped.2
  if nFound > 0 then (result ++ pc2, nFound) else (script, nFound)

/-! ### Minimal number encodings -/

namespace CScriptNum

/-- The trimming loop of `MinimallyEncode`, `for (i = size - 1; i > 0; i--)`: find the last
non-zero byte before position `i` and move the sign byte `last` into it, or after it when its
top bit is taken. -/
def trimTo (data : ValType) (last : UInt8) : ℕ → ValType
  | 0 => []
  | i + 1 =>
    let d := data.getD i 0
    if d ≠ 0 then
      if d &&& 0x80 ≠ 0 then (data.set (i + 1) last).take (i + 2)
      else (data.set i (d ||| last)).take (i + 1)
    else trimTo data last i

/-- `CScriptNum::MinimallyEncode`: whether the operand changed, and the minimal encoding of the
same number. -/
def minimallyEncode (data : ValType) : Bool × ValType :=
  match data.getLast? with
  | none => (false, data)
  | some last =>
    if last &&& 0x7f ≠ 0 then (false, data)
    else if data.length = 1 then (true, [])
    else if data.getD (data.length - 2) 0 &&& 0x80 ≠ 0 then (false, data)
    else (true, trimTo data last (data.length - 1))

theorem length_trimTo_le (data : ValType) (last : UInt8) (i : ℕ) :
    (trimTo data last i).length ≤ i + 1 := by
  induction i with
  | zero => simp [trimTo]
  | succ i ih =>
    simp only [trimTo]
    split_ifs
    · simp only [List.length_take]
      omega
    · simp only [List.length_take]
      omega
    · omega

/-- `MinimallyEncode` never lengthens its operand. -/
theorem length_minimallyEncode (data : ValType) :
    (minimallyEncode data).2.length ≤ data.length := by
  unfold minimallyEncode
  split
  · exact le_rfl
  · next last hlast =>
    have hpos : 0 < data.length :=
      List.length_pos_iff.mpr fun h => by simp [h] at hlast
    split_ifs
    · exact le_rfl
    · simp
    · exact le_rfl
    · have := length_trimTo_le data last (data.length - 1)
      dsimp only
      omega

end CScriptNum

end BitcoinCash
