import BitcoinCash.Script.Machine
import BitcoinCash.Script.Arithmetic
import BitcoinCash.Control.InputLoop

/-!
# `EvalScript`

The script interpreter of `script/interpreter.cpp`. Each `case` of its `switch` is a function
from the machine to the machine or a fault, written with the accesses the C++ makes: a size
check, then `stacktop` reads through `at`, then `popstack`, `push_back`, `erase` and `insert`.
`handlerOf` is the table of `case` labels, `execute` the table of bodies, `step` one iteration of
the `while (pc < pend)` loop and `evalScript` the whole function, its `catch (...)` included.
-/

namespace BitcoinCash

open CScriptNum

/-- `CScriptNum::fromIntUnchecked(b)` for a `bool`. -/
def boolToInt (b : Bool) : ℤ := if b then 1 else 0

/-- `CleanupScriptCode`: unless the signature uses `SIGHASH_FORKID` and the flag enables it,
delete its push from the code. -/
def cleanupScriptCode (scriptCode : List UInt8) (vchSig : ValType) (flags : UInt32) :
    List UInt8 :=
  if !hasFlag flags scriptEnableSighashForkid || !sigHashHasFork (getHashType vchSig) then
    (findAndDelete scriptCode (pushData vchSig)).1
  else scriptCode

/-- `stack.push_back(fSuccess ? vchTrue : vchFalse)`, then, for the `…VERIFY` variant, pop the
result on success and fail with `e` otherwise. -/
def pushResult (verify : Bool) (e : ScriptError) (fSuccess : Bool) (stack : List ValType) :
    Except EvalFault (List ValType) :=
  if verify then
    if fSuccess then popstack (vchBool fSuccess :: stack) else throw (.scriptError e)
  else pure (vchBool fSuccess :: stack)

/-- `for (i = 0; i < n; i++) popstack(stack)`. -/
def popstackN : ℕ → List ValType → Except EvalFault (List ValType)
  | 0, stack => pure stack
  | n + 1, stack => do popstackN n (← popstack stack)

/-- The inner `switch` of `OP_1ADD` … `OP_0NOTEQUAL`. -/
def unaryNumericOp (opcode : UInt8) (bn : ℤ) : Except EvalFault ℤ :=
  match opcode with
  | op1Add =>
    match safeAdd bn 1 with
    | none => throw (.scriptError .invalidNumberRange64Bit)
    | some r => pure r
  | op1Sub =>
    match safeSub bn 1 with
    | none => throw (.scriptError .invalidNumberRange64Bit)
    | some r => pure r
  | opNegate => pure (neg bn)
  | opAbs => pure (if bn < 0 then neg bn else bn)
  | opNot => pure (boolToInt (bn == 0))
  | op0NotEqual => pure (boolToInt (bn != 0))
  | _ => throw .assertFailed

/-- The inner `switch` of `OP_ADD` … `OP_MAX`. -/
def binaryNumericOp (opcode : UInt8) (bn1 bn2 : ℤ) : Except EvalFault ℤ :=
  match opcode with
  | opAdd =>
    match safeAdd bn1 bn2 with
    | none => throw (.scriptError .invalidNumberRange64Bit)
    | some r => pure r
  | opSub =>
    match safeSub bn1 bn2 with
    | none => throw (.scriptError .invalidNumberRange64Bit)
    | some r => pure r
  | opMul =>
    match safeMul bn1 bn2 with
    | none => throw (.scriptError .invalidNumberRange64Bit)
    | some r => pure r
  | opDiv => if bn2 = 0 then throw (.scriptError .divByZero) else pure (div bn1 bn2)
  | opMod => if bn2 = 0 then throw (.scriptError .modByZero) else pure (mod bn1 bn2)
  | opBoolAnd => pure (boolToInt (bn1 != 0 && bn2 != 0))
  | opBoolOr => pure (boolToInt (bn1 != 0 || bn2 != 0))
  | opNumEqual | opNumEqualVerify => pure (boolToInt (bn1 == bn2))
  | opNumNotEqual => pure (boolToInt (bn1 != bn2))
  | opLessThan => pure (boolToInt (decide (bn1 < bn2)))
  | opGreaterThan => pure (boolToInt (decide (bn1 > bn2)))
  | opLessThanOrEqual => pure (boolToInt (decide (bn1 ≤ bn2)))
  | opGreaterThanOrEqual => pure (boolToInt (decide (bn1 ≥ bn2)))
  | opMin => pure (if bn1 < bn2 then bn1 else bn2)
  | opMax => pure (if bn1 > bn2 then bn1 else bn2)
  | _ => throw .assertFailed

/-- The inner `switch` of `OP_AND`, `OP_OR`, `OP_XOR`, byte by byte. -/
def bitwiseOp (opcode : UInt8) (a b : UInt8) : UInt8 :=
  match opcode with
  | opAnd => a &&& b
  | opOr => a ||| b
  | opXor => a ^^^ b
  | _ => a

/-- The digest of `OP_RIPEMD160` … `OP_HASH256`; `CHash160` and `CHash256` hash the SHA-256
digest again. -/
def hashOp (crypto : Crypto) (opcode : UInt8) (vch : ValType) : ValType :=
  match opcode with
  | opRipemd160 => (crypto.ripemd160 vch).toList
  | opSha1 => (crypto.sha1 vch).toList
  | opSha256 => (crypto.sha256 vch).toList
  | opHash160 => (crypto.ripemd160 (crypto.sha256 vch).toList).toList
  | opHash256 => (crypto.sha256 (crypto.sha256 vch).toList).toList
  | _ => List.replicate 32 0

/-- `checkBits >> iKey`: undefined from a shift of 32 on. -/
def shiftBits (checkBits : UInt32) (iKey : ℕ) : Except EvalFault UInt32 :=
  if iKey ≥ 32 then throw (.undefined .shiftTooLarge) else pure (checkBits >>> iKey.toUInt32)

/-- `while (((checkBits >> iKey) & 0x01) == 0) iKey++`: the next key whose bit is set. -/
def nextKey (checkBits : UInt32) (iKey : ℕ) : Except EvalFault ℕ :=
  if iKey ≥ 32 then throw (.undefined .shiftTooLarge)
  else if (checkBits >>> iKey.toUInt32) &&& 1 = 0 then nextKey checkBits (iKey + 1)
  else pure iKey
termination_by 32 - iKey

/-- `NUM2BIN`'s padding of a minimal number to `size` bytes: the sign bit moves from the last
byte to a new last byte, with zeros between. -/
def num2BinPad (rawnum : ValType) (size : ℕ) : ValType :=
  match rawnum.getLast? with
  | none => List.replicate (size - 1) 0 ++ [0]
  | some back =>
    let rawnum := rawnum.set (rawnum.length - 1) (back &&& 0x7f)
    rawnum ++ List.replicate (size - 1 - rawnum.length) 0 ++ [back &&& 0x80]

section Handlers

variable (env : EvalEnv)

/-- `OP_1NEGATE`, `OP_1` … `OP_16`: push `opcode - (OP_1 - 1)`. -/
def evalPushValue (opcode : UInt8) (m : Machine) : Except EvalFault Machine :=
  let bn : ℤ := (opcode.toNat : ℤ) - ((op1.toNat : ℤ) - 1)
  pure { m with stack := serialize bn :: m.stack }

/-- `OP_CHECKLOCKTIMEVERIFY`: a number of up to five bytes, not negative, that the checker
accepts; the stack is unchanged. -/
def evalCheckLockTimeVerify (m : Machine) : Except EvalFault Machine :=
  if !hasFlag env.flags scriptVerifyChecklocktimeverify then pure m
  else if m.stack.length < 1 then throw (.scriptError .invalidStackOperation)
  else do
    let nLockTime ← scriptNum (← stacktop m.stack (-1)) env.fRequireMinimal 5
    if nLockTime < 0 then throw (.scriptError .negativeLocktime)
    else if !env.checker.checkLockTime nLockTime then throw (.scriptError .unsatisfiedLocktime)
    else pure m

/-- `CTxIn::SEQUENCE_LOCKTIME_DISABLE_FLAG`. -/
def sequenceLocktimeDisableFlag : ℤ := 2 ^ 31

/-- `OP_CHECKSEQUENCEVERIFY`: as `OP_CHECKLOCKTIMEVERIFY`, but a number with the disable flag
set passes unchecked. -/
def evalCheckSequenceVerify (m : Machine) : Except EvalFault Machine :=
  if !hasFlag env.flags scriptVerifyChecksequenceverify then pure m
  else if m.stack.length < 1 then throw (.scriptError .invalidStackOperation)
  else do
    let nSequence ← scriptNum (← stacktop m.stack (-1)) env.fRequireMinimal 5
    if nSequence < 0 then throw (.scriptError .negativeLocktime)
    else
      match safeBitwiseAnd nSequence sequenceLocktimeDisableFlag with
      | none => throw (.scriptError .invalidNumberRange64Bit)
      | some res =>
        if res ≠ 0 then pure m
        else if !env.checker.checkSequence nSequence then
          throw (.scriptError .unsatisfiedLocktime)
        else pure m

/-- `OP_NOP1`, `OP_NOP4` … `OP_NOP10`. -/
def evalUpgradableNop (m : Machine) : Except EvalFault Machine :=
  if hasFlag env.flags scriptVerifyDiscourageUpgradableNops then
    throw (.scriptError .discourageUpgradableNops)
  else pure m

/-- `OP_IF`, `OP_NOTIF`: in an executed branch pop the condition (minimal under `MINIMALIF`);
push whether the new branch executes. -/
def evalIf (opcode : UInt8) (fExec : Bool) (m : Machine) : Except EvalFault Machine :=
  if fExec then
    if m.stack.length < 1 then throw (.scriptError .unbalancedConditional)
    else do
      let vch ← stacktop m.stack (-1)
      if hasFlag env.flags scriptVerifyMinimalif ∧
          (vch.length > 1 ∨ (vch.length = 1 ∧ vch.getD 0 0 ≠ 1)) then
        throw (.scriptError .minimalif)
      else
        let fValue := if opcode = opNotIf then !castToBool vch else castToBool vch
        let stack ← popstack m.stack
        pure { m with stack, vfExec := m.vfExec.pushBack fValue }
  else pure { m with vfExec := m.vfExec.pushBack false }

/-- `OP_ELSE`. -/
def evalElse (m : Machine) : Except EvalFault Machine :=
  if m.vfExec.empty then throw (.scriptError .unbalancedConditional)
  else pure { m with vfExec := m.vfExec.toggleTop }

/-- `OP_ENDIF`. -/
def evalEndIf (m : Machine) : Except EvalFault Machine :=
  if m.vfExec.empty then throw (.scriptError .unbalancedConditional)
  else pure { m with vfExec := m.vfExec.popBack }

/-- `OP_VERIFY`. -/
def evalVerify (m : Machine) : Except EvalFault Machine :=
  if m.stack.length < 1 then throw (.scriptError .invalidStackOperation)
  else do
    if castToBool (← stacktop m.stack (-1)) then
      let stack ← popstack m.stack
      pure { m with stack }
    else throw (.scriptError .verify)

/-- `OP_TOALTSTACK`. -/
def evalToAltStack (m : Machine) : Except EvalFault Machine :=
  if m.stack.length < 1 then throw (.scriptError .invalidStackOperation)
  else do
    let altstack := (← stacktop m.stack (-1)) :: m.altstack
    let stack ← popstack m.stack
    pure { m with stack, altstack }

/-- `OP_FROMALTSTACK`. -/
def evalFromAltStack (m : Machine) : Except EvalFault Machine :=
  if m.altstack.length < 1 then throw (.scriptError .invalidAltstackOperation)
  else do
    let stack := (← stacktop m.altstack (-1)) :: m.stack
    let altstack ← popstack m.altstack
    pure { m with stack, altstack }

/-- `OP_2DROP`. -/
def eval2Drop (m : Machine) : Except EvalFault Machine :=
  if m.stack.length < 2 then throw (.scriptError .invalidStackOperation)
  else do
    let stack ← popstack (← popstack m.stack)
    pure { m with stack }

/-- `OP_2DUP`. -/
def eval2Dup (m : Machine) : Except EvalFault Machine :=
  if m.stack.length < 2 then throw (.scriptError .invalidStackOperation)
  else do
    let vch1 ← stacktop m.stack (-2)
    let vch2 ← stacktop m.stack (-1)
    pure { m with stack := vch2 :: vch1 :: m.stack }

/-- `OP_3DUP`. -/
def eval3Dup (m : Machine) : Except EvalFault Machine :=
  if m.stack.length < 3 then throw (.scriptError .invalidStackOperation)
  else do
    let vch1 ← stacktop m.stack (-3)
    let vch2 ← stacktop m.stack (-2)
    let vch3 ← stacktop m.stack (-1)
    pure { m with stack := vch3 :: vch2 :: vch1 :: m.stack }

/-- `OP_2OVER`. -/
def eval2Over (m : Machine) : Except EvalFault Machine :=
  if m.stack.length < 4 then throw (.scriptError .invalidStackOperation)
  else do
    let vch1 ← stacktop m.stack (-4)
    let vch2 ← stacktop m.stack (-3)
    pure { m with stack := vch2 :: vch1 :: m.stack }

/-- `OP_2ROT`: move the fifth and sixth elements to the top. -/
def eval2Rot (m : Machine) : Except EvalFault Machine :=
  if m.stack.length < 6 then throw (.scriptError .invalidStackOperation)
  else do
    let vch1 ← stacktop m.stack (-6)
    let vch2 ← stacktop m.stack (-5)
    let stack ← eraseRange m.stack 6 4
    pure { m with stack := vch2 :: vch1 :: stack }

/-- `OP_2SWAP`. -/
def eval2Swap (m : Machine) : Except EvalFault Machine :=
  if m.stack.length < 4 then throw (.scriptError .invalidStackOperation)
  else do
    let stack ← swapStacktop m.stack (-4) (-2)
    let stack ← swapStacktop stack (-3) (-1)
    pure { m with stack }

/-- `OP_IFDUP`. -/
def evalIfDup (m : Machine) : Except EvalFault Machine :=
  if m.stack.length < 1 then throw (.scriptError .invalidStackOperation)
  else do
    let vch ← stacktop m.stack (-1)
    if castToBool vch then pure { m with stack := vch :: m.stack } else pure m

/-- `OP_DEPTH`: push the size of the stack. -/
def evalDepth (m : Machine) : Except EvalFault Machine :=
  pure { m with stack := serialize (sizeToInt64 m.stack.length) :: m.stack }

/-- `OP_DROP`. -/
def evalDrop (m : Machine) : Except EvalFault Machine :=
  if m.stack.length < 1 then throw (.scriptError .invalidStackOperation)
  else do
    let stack ← popstack m.stack
    pure { m with stack }

/-- `OP_DUP`. -/
def evalDup (m : Machine) : Except EvalFault Machine :=
  if m.stack.length < 1 then throw (.scriptError .invalidStackOperation)
  else do
    let vch ← stacktop m.stack (-1)
    pure { m with stack := vch :: m.stack }

/-- `OP_NIP`: `stack.erase(stack.end() - 2)`. -/
def evalNip (m : Machine) : Except EvalFault Machine :=
  if m.stack.length < 2 then throw (.scriptError .invalidStackOperation)
  else do
    let stack ← eraseAt m.stack 2
    pure { m with stack }

/-- `OP_OVER`. -/
def evalOver (m : Machine) : Except EvalFault Machine :=
  if m.stack.length < 2 then throw (.scriptError .invalidStackOperation)
  else do
    let vch ← stacktop m.stack (-2)
    pure { m with stack := vch :: m.stack }

/-- `OP_PICK`, `OP_ROLL`: copy, or move, the element `n` below the top after popping `n`. -/
def evalPickRoll (opcode : UInt8) (m : Machine) : Except EvalFault Machine :=
  if m.stack.length < 2 then throw (.scriptError .invalidStackOperation)
  else do
    let n ← scriptNum (← stacktop m.stack (-1)) env.fRequireMinimal env.maxIntegerSize
    let stack ← popstack m.stack
    if n < 0 ∨ n.toNat ≥ stack.length then throw (.scriptError .invalidStackOperation)
    else do
      let vch ← stacktop stack (-n - 1)
      let stack ← (if opcode = opRoll then eraseAt stack (n.toNat + 1) else pure stack :
        Except EvalFault (List ValType))
      pure { m with stack := vch :: stack }

/-- `OP_ROT`. -/
def evalRot (m : Machine) : Except EvalFault Machine :=
  if m.stack.length < 3 then throw (.scriptError .invalidStackOperation)
  else do
    let stack ← swapStacktop m.stack (-3) (-2)
    let stack ← swapStacktop stack (-2) (-1)
    pure { m with stack }

/-- `OP_SWAP`. -/
def evalSwap (m : Machine) : Except EvalFault Machine :=
  if m.stack.length < 2 then throw (.scriptError .invalidStackOperation)
  else do
    let stack ← swapStacktop m.stack (-2) (-1)
    pure { m with stack }

/-- `OP_TUCK`: `stack.insert(stack.end() - 2, vch)`. -/
def evalTuck (m : Machine) : Except EvalFault Machine :=
  if m.stack.length < 2 then throw (.scriptError .invalidStackOperation)
  else do
    let vch ← stacktop m.stack (-1)
    let stack ← insertAt m.stack 2 vch
    pure { m with stack }

/-- `OP_SIZE`: push the size of the top element. -/
def evalSize (m : Machine) : Except EvalFault Machine :=
  if m.stack.length < 1 then throw (.scriptError .invalidStackOperation)
  else do
    let vch ← stacktop m.stack (-1)
    pure { m with stack := serialize (sizeToInt64 vch.length) :: m.stack }

/-- `OP_AND`, `OP_OR`, `OP_XOR`: combine two elements of the same size into the lower one, in
place, then pop the upper. -/
def evalBitwise (opcode : UInt8) (m : Machine) : Except EvalFault Machine :=
  if m.stack.length < 2 then throw (.scriptError .invalidStackOperation)
  else do
    let vch1 ← stacktop m.stack (-2)
    let vch2 ← stacktop m.stack (-1)
    if vch1.length ≠ vch2.length then throw (.scriptError .invalidOperandSize)
    else do
      let stack ← setStacktop m.stack (-2) (List.zipWith (bitwiseOp opcode) vch1 vch2)
      let stack ← popstack stack
      pure { m with stack }

/-- `OP_EQUAL`, `OP_EQUALVERIFY`. -/
def evalEqual (opcode : UInt8) (m : Machine) : Except EvalFault Machine :=
  if m.stack.length < 2 then throw (.scriptError .invalidStackOperation)
  else do
    let vch1 ← stacktop m.stack (-2)
    let vch2 ← stacktop m.stack (-1)
    let stack ← popstack (← popstack m.stack)
    let stack ← pushResult (opcode == opEqualVerify) .equalverify (vch1 == vch2) stack
    pure { m with stack }

/-- `OP_1ADD` … `OP_0NOTEQUAL`: replace the top number by the result. -/
def evalUnaryNumeric (opcode : UInt8) (m : Machine) : Except EvalFault Machine :=
  if m.stack.length < 1 then throw (.scriptError .invalidStackOperation)
  else do
    let bn ← scriptNum (← stacktop m.stack (-1)) env.fRequireMinimal env.maxIntegerSize
    let bn ← unaryNumericOp opcode bn
    let stack ← popstack m.stack
    pure { m with stack := serialize bn :: stack }

/-- `OP_ADD` … `OP_MAX`: replace the top two numbers by the result; `OP_NUMEQUALVERIFY` then
pops a true result and fails on a false one. -/
def evalBinaryNumeric (opcode : UInt8) (m : Machine) : Except EvalFault Machine :=
  if m.stack.length < 2 then throw (.scriptError .invalidStackOperation)
  else do
    let bn1 ← scriptNum (← stacktop m.stack (-2)) env.fRequireMinimal env.maxIntegerSize
    let bn2 ← scriptNum (← stacktop m.stack (-1)) env.fRequireMinimal env.maxIntegerSize
    let bn ← binaryNumericOp opcode bn1 bn2
    let stack ← popstack (← popstack m.stack)
    let stack := serialize bn :: stack
    if opcode = opNumEqualVerify then
      if castToBool (← stacktop stack (-1)) then
        let stack ← popstack stack
        pure { m with stack }
      else throw (.scriptError .numequalverify)
    else pure { m with stack }

/-- `OP_WITHIN`: whether `min ≤ x < max`. -/
def evalWithin (m : Machine) : Except EvalFault Machine :=
  if m.stack.length < 3 then throw (.scriptError .invalidStackOperation)
  else do
    let bn1 ← scriptNum (← stacktop m.stack (-3)) env.fRequireMinimal env.maxIntegerSize
    let bn2 ← scriptNum (← stacktop m.stack (-2)) env.fRequireMinimal env.maxIntegerSize
    let bn3 ← scriptNum (← stacktop m.stack (-1)) env.fRequireMinimal env.maxIntegerSize
    let fValue := decide (bn2 ≤ bn1 ∧ bn1 < bn3)
    let stack ← popstack (← popstack (← popstack m.stack))
    pure { m with stack := vchBool fValue :: stack }

/-- `OP_RIPEMD160` … `OP_HASH256`: replace the top element by its digest. -/
def evalHash (opcode : UInt8) (m : Machine) : Except EvalFault Machine :=
  if m.stack.length < 1 then throw (.scriptError .invalidStackOperation)
  else do
    let vchHash := hashOp env.crypto opcode (← stacktop m.stack (-1))
    let stack ← popstack m.stack
    pure { m with stack := vchHash :: stack }

/-- `OP_CODESEPARATOR`: signatures hash the code after it. -/
def evalCodeSeparator (pc : List UInt8) (m : Machine) : Except EvalFault Machine :=
  pure { m with pbegincodehash := pc }

/-- The `if (vchSig.size())` block of `OP_CHECKSIG` and `OP_CHECKDATASIG`: a non-empty
signature is one signature check, and under `NULLFAIL` a failed one is an error. -/
def countSigCheck (vchSig : ValType) (fSuccess : Bool) (nSigChecks : Int32) :
    Except EvalFault (Bool × Int32) :=
  if vchSig.length ≠ 0 then do
    let nSigChecks ← addSigChecks nSigChecks 1
    if !fSuccess && hasFlag env.flags scriptVerifyNullfail then
      throw (.scriptError .sigNullfail)
    else pure (fSuccess, nSigChecks)
  else pure (false, nSigChecks)

/-- `OP_CHECKSIG`, `OP_CHECKSIGVERIFY`. -/
def evalCheckSig (opcode : UInt8) (m : Machine) : Except EvalFault Machine :=
  if m.stack.length < 2 then throw (.scriptError .invalidStackOperation)
  else do
    let vchSig ← stacktop m.stack (-2)
    let vchPubKey ← stacktop m.stack (-1)
    liftScriptError (checkTransactionSignatureEncoding env.crypto.checkLowS vchSig env.flags)
    liftScriptError (checkPubKeyEncoding vchPubKey env.flags)
    let scriptCode := cleanupScriptCode m.pbegincodehash vchSig env.flags
    let (fSuccess, nSigChecks) ← countSigCheck env vchSig
      (env.checker.checkSig vchSig vchPubKey scriptCode env.flags) m.nSigChecks
    let stack ← popstack (← popstack m.stack)
    let stack ← pushResult (opcode == opCheckSigVerify) .checksigverify fSuccess stack
    pure { m with stack, nSigChecks }

/-- `OP_CHECKDATASIG`, `OP_CHECKDATASIGVERIFY`: a signature of the SHA-256 digest of the
message. -/
def evalCheckDataSig (opcode : UInt8) (m : Machine) : Except EvalFault Machine :=
  if m.stack.length < 3 then throw (.scriptError .invalidStackOperation)
  else do
    let vchSig ← stacktop m.stack (-3)
    let vchMessage ← stacktop m.stack (-2)
    let vchPubKey ← stacktop m.stack (-1)
    liftScriptError (checkDataSignatureEncoding env.crypto.checkLowS vchSig env.flags)
    liftScriptError (checkPubKeyEncoding vchPubKey env.flags)
    let (fSuccess, nSigChecks) ← countSigCheck env vchSig
      (env.checker.verifySignature vchSig vchPubKey (env.crypto.sha256 vchMessage)) m.nSigChecks
    let stack ← popstack (← popstack (← popstack m.stack))
    let stack ← pushResult (opcode == opCheckDataSigVerify) .checkdatasigverify fSuccess stack
    pure { m with stack, nSigChecks }

/-- One iteration of the Schnorr multisig loop `for (iSig = 0; iSig < nSigsCount; iSig++,
iKey++)`: find the next key whose bit is set and check the signature `iSig` from the bottom
against it. The state is `iKey` and the signature-check count. -/
def schnorrMultisigStep (stack : List ValType) (scriptCode : List UInt8) (checkBits : UInt32)
    (nKeysCount idxBottomKey idxBottomSig : ℕ) (state : ℕ × Int32) (iSig : ℕ) :
    Except EvalFault (ℕ × Int32) := do
  if (← shiftBits checkBits state.1) = 0 then throw (.scriptError .invalidBitRange)
  else do
    let iKey ← nextKey checkBits state.1
    if iKey ≥ nKeysCount then throw (.scriptError .pubkeyCount)
    else do
      let vchSig ← stacktop stack (-(idxBottomSig : ℤ) + iSig)
      let vchPubKey ← stacktop stack (-(idxBottomKey : ℤ) + iKey)
      liftScriptError (checkTransactionSchnorrSignatureEncoding vchSig env.flags)
      liftScriptError (checkPubKeyEncoding vchPubKey env.flags)
      if !env.checker.checkSig vchSig vchPubKey scriptCode env.flags then
        throw (.scriptError .sigNullfail)
      else do
        let nSigChecks ← addSigChecks state.2 1
        pure (iKey + 1, nSigChecks)

/-- The Schnorr path of `OP_CHECKMULTISIG`: the dummy element is a bitfield that selects the
keys, every selected key must check its signature, and each check counts. -/
def schnorrMultisig (stack : List ValType) (scriptCode : List UInt8)
    (nKeysCount nSigsCount idxTopKey idxTopSig idxDummy : ℕ) (nSigChecks : Int32) :
    Except EvalFault (Bool × Int32) := do
  let checkBits ← liftScriptError (decodeBitfield (← stacktop stack (-(idxDummy : ℤ))) nKeysCount)
  if countBits checkBits ≠ nSigsCount then throw (.scriptError .invalidBitCount)
  else do
    let (iKey, nSigChecks) ← (List.range nSigsCount).foldlM
      (schnorrMultisigStep env stack scriptCode checkBits nKeysCount
        (idxTopKey + nKeysCount - 1) (idxTopSig + nSigsCount - 1)) (0, nSigChecks)
    if (← shiftBits checkBits iKey) ≠ 0 then throw (.scriptError .invalidBitCount)
    else pure (true, nSigChecks)

/-- One signature against one key in the legacy multisig loop: the encodings, then
`CheckSig`. The signature and the key are `k` and `l` below the top ones. -/
def legacyMultisigCheck (stack : List ValType) (scriptCode : List UInt8)
    (idxTopKey idxTopSig : ℕ) (k l : ℤ) : Except EvalFault Bool := do
  let vchSig ← stacktop stack (-(idxTopSig : ℤ) - k)
  let vchPubKey ← stacktop stack (-(idxTopKey : ℤ) - l)
  liftScriptError (checkTransactionECDSASignatureEncoding env.crypto.checkLowS vchSig env.flags)
  liftScriptError (checkPubKeyEncoding vchPubKey env.flags)
  pure (env.checker.checkSig vchSig vchPubKey scriptCode env.flags)

set_option linter.unusedVariables false in
/-- `while (fSuccess && nSigsRemaining > 0)` of the legacy path: try the signatures in order
against the keys in order; a key that fails is skipped, and the loop fails once more signatures
than keys remain. -/
def legacyMultisigLoop (stack : List ValType) (scriptCode : List UInt8)
    (nSigsCount nKeysCount : ℤ) (idxTopKey idxTopSig : ℕ) (nSigsRemaining nKeysRemaining : ℤ) :
    Except EvalFault Bool :=
  if h : 0 < nSigsRemaining then
    match legacyMultisigCheck env stack scriptCode idxTopKey idxTopSig
        (nSigsCount - nSigsRemaining) (nKeysCount - nKeysRemaining) with
    | .error e => .error e
    | .ok fOk =>
      let nSigsRemaining' := if fOk then nSigsRemaining - 1 else nSigsRemaining
      if h' : nSigsRemaining' > nKeysRemaining - 1 then .ok false
      else legacyMultisigLoop stack scriptCode nSigsCount nKeysCount idxTopKey idxTopSig
        nSigsRemaining' (nKeysRemaining - 1)
  else .ok true
termination_by nKeysRemaining.toNat
decreasing_by
  simp only [nSigsRemaining', gt_iff_lt, not_lt] at h'
  split at h' <;> omega

/-- The legacy path of `OP_CHECKMULTISIG`: delete the signatures from the code, run the loop;
a failure with a non-empty signature is an error under `NULLFAIL`, and unless every signature
is empty the key count is added to the signature checks. -/
def legacyMultisig (stack : List ValType) (scriptCode : List UInt8)
    (nKeysCount nSigsCount idxTopKey idxTopSig : ℕ) (nSigChecks : Int32) :
    Except EvalFault (Bool × Int32) := do
  let scriptCode ← (List.range nSigsCount).foldlM (fun scriptCode (k : ℕ) => do
    pure (cleanupScriptCode scriptCode (← stacktop stack (-(idxTopSig : ℤ) - k)) env.flags))
    scriptCode
  let fSuccess ← legacyMultisigLoop env stack scriptCode nSigsCount nKeysCount idxTopKey
    idxTopSig nSigsCount nKeysCount
  let areAllSignaturesNull ← (List.range nSigsCount).allM fun (i : ℕ) => do
    pure ((← stacktop stack (-(idxTopSig : ℤ) - i)).length = 0)
  if !fSuccess && hasFlag env.flags scriptVerifyNullfail && !areAllSignaturesNull then
    throw (.scriptError .sigNullfail)
  else
    -- `metrics.nSigChecks += nKeysCount` adds an `int64_t` to an `int`
    pure (fSuccess, if areAllSignaturesNull then nSigChecks
      else toIntWrap (nSigChecks.toInt + nKeysCount))

/-- The two paths of `OP_CHECKMULTISIG`: Schnorr when the flag is set and the dummy element is
not empty, legacy otherwise. -/
def multisigBody (stack : List ValType) (scriptCode : List UInt8)
    (nKeysCount nSigsCount idxTopKey idxTopSig idxDummy : ℕ) (nSigChecks : Int32) :
    Except EvalFault (Bool × Int32) := do
  let schnorr ← (if hasFlag env.flags scriptEnableSchnorrMultisig then do
      pure ((← stacktop stack (-(idxDummy : ℤ))).length != 0)
    else pure false : Except EvalFault Bool)
  if schnorr then
    schnorrMultisig env stack scriptCode nKeysCount nSigsCount idxTopKey idxTopSig idxDummy
      nSigChecks
  else legacyMultisig env stack scriptCode nKeysCount nSigsCount idxTopKey idxTopSig nSigChecks

/-- `OP_CHECKMULTISIG`, `OP_CHECKMULTISIGVERIFY`: `[dummy] [sig …] nSigs [pubkey …] nKeys`.
The keys count as opcodes. -/
def evalCheckMultiSig (opcode : UInt8) (m : Machine) : Except EvalFault Machine := do
  let idxKeyCount : ℕ := 1
  if m.stack.length < idxKeyCount then throw (.scriptError .invalidStackOperation)
  else do
    let nKeysCount ← scriptNum (← stacktop m.stack (-(idxKeyCount : ℤ))) env.fRequireMinimal
      env.maxIntegerSize
    if nKeysCount < 0 ∨ nKeysCount > maxPubkeysPerMultisig then
      throw (.scriptError .pubkeyCount)
    else if m.nOpCount + nKeysCount.toNat > maxOpsPerScript then throw (.scriptError .opCount)
    else do
      let idxTopKey := idxKeyCount + 1
      let idxSigCount := idxTopKey + nKeysCount.toNat
      if m.stack.length < idxSigCount then throw (.scriptError .invalidStackOperation)
      else do
        let nSigsCount ← scriptNum (← stacktop m.stack (-(idxSigCount : ℤ)))
          env.fRequireMinimal env.maxIntegerSize
        if nSigsCount < 0 ∨ nSigsCount > nKeysCount then throw (.scriptError .sigCount)
        else do
          let idxTopSig := idxSigCount + 1
          let idxDummy := idxTopSig + nSigsCount.toNat
          if m.stack.length < idxDummy then throw (.scriptError .invalidStackOperation)
          else do
            let (fSuccess, nSigChecks) ← multisigBody env m.stack m.pbegincodehash
              nKeysCount.toNat nSigsCount.toNat idxTopKey idxTopSig idxDummy m.nSigChecks
            let stack ← popstackN idxDummy m.stack
            let stack ← pushResult (opcode == opCheckMultiSigVerify) .checkmultisigverify
              fSuccess stack
            pure { m with stack, nOpCount := m.nOpCount + nKeysCount.toNat, nSigChecks }

/-- `OP_CAT`: append the top element to the one below, in place. -/
def evalCat (m : Machine) : Except EvalFault Machine :=
  if m.stack.length < 2 then throw (.scriptError .invalidStackOperation)
  else do
    let vch1 ← stacktop m.stack (-2)
    let vch2 ← stacktop m.stack (-1)
    if vch1.length + vch2.length > maxScriptElementSize then throw (.scriptError .pushSize)
    else do
      let stack ← setStacktop m.stack (-2) (vch1 ++ vch2)
      let stack ← popstack stack
      pure { m with stack }

/-- `OP_SPLIT`: split the element below the top at the position on top. -/
def evalSplit (m : Machine) : Except EvalFault Machine :=
  if m.stack.length < 2 then throw (.scriptError .invalidStackOperation)
  else do
    let data ← stacktop m.stack (-2)
    let position ← scriptNum (← stacktop m.stack (-1)) env.fRequireMinimal env.maxIntegerSize
    if position < 0 ∨ position.toNat > data.length then throw (.scriptError .invalidSplitRange)
    else do
      let n1 ← subrange data 0 position.toNat
      let n2 ← subrange data position.toNat data.length
      let stack ← setStacktop m.stack (-2) n1
      let stack ← setStacktop stack (-1) n2
      pure { m with stack }

/-- `OP_REVERSEBYTES`, in place. -/
def evalReverseBytes (m : Machine) : Except EvalFault Machine :=
  if m.stack.length < 1 then throw (.scriptError .invalidStackOperation)
  else do
    let data ← stacktop m.stack (-1)
    let stack ← setStacktop m.stack (-1) data.reverse
    pure { m with stack }

/-- `OP_NUM2BIN`: encode the number below the top in as many bytes as the top says. The
element is minimally encoded in place before the size is compared. -/
def evalNum2Bin (m : Machine) : Except EvalFault Machine :=
  if m.stack.length < 2 then throw (.scriptError .invalidStackOperation)
  else do
    -- `uint64_t const size = CScriptNum(...).getint64()`
    let size := ((← scriptNum (← stacktop m.stack (-1)) env.fRequireMinimal env.maxIntegerSize)
      % 2 ^ 64).toNat
    if size > maxScriptElementSize then throw (.scriptError .pushSize)
    else do
      let stack ← popstack m.stack
      let rawnum := (minimallyEncode (← stacktop stack (-1))).2
      if rawnum.length > size then throw (.scriptError .impossibleEncoding)
      else do
        let stack ← setStacktop stack (-1)
          (if rawnum.length = size then rawnum else num2BinPad rawnum size)
        pure { m with stack }

/-- `OP_BIN2NUM`: minimally encode the top element, in place; it must then be a number. -/
def evalBin2Num (m : Machine) : Except EvalFault Machine :=
  if m.stack.length < 1 then throw (.scriptError .invalidStackOperation)
  else do
    let n := (minimallyEncode (← stacktop m.stack (-1))).2
    let stack ← setStacktop m.stack (-1) n
    if !isMinimallyEncoded n env.maxIntegerSize then
      throw (.scriptError env.invalidNumberRangeError)
    else pure { m with stack }

/-- `stack.push_back(CScriptNum::fromInt(x).value().getvch())`. -/
def pushNum (x : ℤ) (m : Machine) : Except EvalFault Machine := do
  let bn ← fromIntValue x
  pure { m with stack := serialize bn :: m.stack }

/-- `stack.emplace_back(bytes)` after the size check of the introspection opcodes. -/
def pushBytes (bytes : List UInt8) (m : Machine) : Except EvalFault Machine :=
  if bytes.length > maxScriptElementSize then throw (.scriptError .pushSize)
  else pure { m with stack := bytes :: m.stack }

/-- The nullary introspection opcodes `OP_INPUTINDEX` … `OP_TXLOCKTIME`. -/
def evalIntrospectionNullary (opcode : UInt8) (m : Machine) : Except EvalFault Machine :=
  if !env.nativeIntrospection then throw (.scriptError .badOpcode)
  else
    match env.context with
    | none => throw (.scriptError .contextNotPresent)
    | some ctx =>
      match opcode with
      | opInputIndex => pushNum ctx.nIn.toNat m
      | opActiveBytecode => pushBytes m.pbegincodehash m
      | opTxVersion => pushNum ctx.tx.nVersion.toInt m
      | opTxInputCount => pushNum (sizeToInt64 ctx.tx.vin.length) m
      | opTxOutputCount => pushNum (sizeToInt64 ctx.tx.vout.length) m
      | opTxLockTime => pushNum ctx.tx.nLockTime.toNat m
      | _ => throw .assertFailed

/-- `context->tx().vin()[index]`, unchecked. -/
def inputAt (ctx : ScriptExecutionContext) (index : ℕ) : Except EvalFault TxIn :=
  match ctx.tx.vin[index]? with
  | some txin => pure txin
  | none => throw (.undefined .iteratorOutOfRange)

/-- `context->tx().vout()[index]`, unchecked. -/
def outputAt (ctx : ScriptExecutionContext) (index : ℕ) : Except EvalFault TxOut :=
  match ctx.tx.vout[index]? with
  | some txout => pure txout
  | none => throw (.undefined .iteratorOutOfRange)

/-- The checks of an index into the inputs, and for the `OP_UTXO…` opcodes that the coin is
known. -/
def checkInputIndex (ctx : ScriptExecutionContext) (index : ℤ) (utxo : Bool) :
    Except EvalFault Unit :=
  if index < 0 ∨ index.toNat ≥ ctx.tx.vin.length then throw (.scriptError .invalidTxInputIndex)
  else if utxo && ctx.limited && index.toNat != ctx.nIn.toNat then
    throw (.scriptError .limitedContextNoSiblingInfo)
  else pure ()

/-- The check of an index into the outputs. -/
def checkOutputIndex (ctx : ScriptExecutionContext) (index : ℤ) : Except EvalFault Unit :=
  if index < 0 ∨ index.toNat ≥ ctx.tx.vout.length then throw (.scriptError .invalidTxOutputIndex)
  else pure ()

/-- The unary introspection opcodes `OP_UTXOVALUE` … `OP_OUTPUTBYTECODE`: pop an index and push
what the transaction has there. -/
def evalIntrospectionUnary (opcode : UInt8) (m : Machine) : Except EvalFault Machine :=
  if !env.nativeIntrospection then throw (.scriptError .badOpcode)
  else
    match env.context with
    | none => throw (.scriptError .contextNotPresent)
    | some ctx =>
      if m.stack.length < 1 then throw (.scriptError .invalidStackOperation)
      else do
        let index ← scriptNum (← stacktop m.stack (-1)) env.fRequireMinimal env.maxIntegerSize
        let stack ← popstack m.stack
        let m := { m with stack }
        match opcode with
        | opUtxoValue => do
          checkInputIndex ctx index true
          pushNum (← ctx.coin index.toNat).nValue.toInt m
        | opUtxoBytecode => do
          checkInputIndex ctx index true
          pushBytes (← ctx.coin index.toNat).scriptPubKey m
        | opOutpointTxHash => do
          checkInputIndex ctx index false
          pure { m with stack := (← inputAt ctx index.toNat).prevout.txid.toList :: m.stack }
        | opOutpointIndex => do
          checkInputIndex ctx index false
          pushNum (← inputAt ctx index.toNat).prevout.n.toNat m
        | opInputBytecode => do
          checkInputIndex ctx index false
          pushBytes (← ctx.scriptSig index.toNat) m
        | opInputSequenceNumber => do
          checkInputIndex ctx index false
          pushNum (← inputAt ctx index.toNat).nSequence.toNat m
        | opOutputValue => do
          checkOutputIndex ctx index
          pushNum (← outputAt ctx index.toNat).nValue.toInt m
        | opOutputBytecode => do
          checkOutputIndex ctx index
          pushBytes (← outputAt ctx index.toNat).scriptPubKey m
        | _ => throw .assertFailed

end Handlers

/-! ### The `switch` -/

/-- The bodies of the `switch` of `EvalScript`; opcodes whose `case` labels share a body share a
handler. -/
inductive Handler where
  | pushValue | nop | checkLockTimeVerify | checkSequenceVerify | upgradableNop
  | ifNotIf | elseBranch | endIf | verify | returnOp
  | toAltStack | fromAltStack | twoDrop | twoDup | threeDup | twoOver | twoRot | twoSwap
  | ifDup | depth | drop | dup | nip | over | pickRoll | rot | swap | tuck | size
  | bitwise | equal | unaryNumeric | binaryNumeric | within
  | hash | codeSeparator | checkSig | checkDataSig | checkMultiSig
  | cat | split | reverseBytes | num2Bin | bin2Num
  | introspectionNullary | introspectionUnary
  | badOpcode
  deriving DecidableEq, Repr

/-- The `case` labels of the `switch`; every other opcode reaches `default`. -/
def handlerOf : UInt8 → Handler
  | op1Negate | op1 | op2 | op3 | op4 | op5 | op6 | op7 | op8 | op9 | op10 | op11 | op12 | op13
  | op14 | op15 | op16 => .pushValue
  | opNop => .nop
  | opCheckLockTimeVerify => .checkLockTimeVerify
  | opCheckSequenceVerify => .checkSequenceVerify
  | opNop1 | opNop4 | opNop5 | opNop6 | opNop7 | opNop8 | opNop9 | opNop10 => .upgradableNop
  | opIf | opNotIf => .ifNotIf
  | opElse => .elseBranch
  | opEndIf => .endIf
  | opVerify => .verify
  | opReturn => .returnOp
  | opToAltStack => .toAltStack
  | opFromAltStack => .fromAltStack
  | op2Drop => .twoDrop
  | op2Dup => .twoDup
  | op3Dup => .threeDup
  | op2Over => .twoOver
  | op2Rot => .twoRot
  | op2Swap => .twoSwap
  | opIfDup => .ifDup
  | opDepth => .depth
  | opDrop => .drop
  | opDup => .dup
  | opNip => .nip
  | opOver => .over
  | opPick | opRoll => .pickRoll
  | opRot => .rot
  | opSwap => .swap
  | opTuck => .tuck
  | opSize => .size
  | opAnd | opOr | opXor => .bitwise
  | opEqual | opEqualVerify => .equal
  | op1Add | op1Sub | opNegate | opAbs | opNot | op0NotEqual => .unaryNumeric
  | opAdd | opSub | opMul | opDiv | opMod | opBoolAnd | opBoolOr | opNumEqual | opNumEqualVerify
  | opNumNotEqual | opLessThan | opGreaterThan | opLessThanOrEqual | opGreaterThanOrEqual
  | opMin | opMax => .binaryNumeric
  | opWithin => .within
  | opRipemd160 | opSha1 | opSha256 | opHash160 | opHash256 => .hash
  | opCodeSeparator => .codeSeparator
  | opCheckSig | opCheckSigVerify => .checkSig
  | opCheckDataSig | opCheckDataSigVerify => .checkDataSig
  | opCheckMultiSig | opCheckMultiSigVerify => .checkMultiSig
  | opCat => .cat
  | opSplit => .split
  | opReverseBytes => .reverseBytes
  | opNum2Bin => .num2Bin
  | opBin2Num => .bin2Num
  | opInputIndex | opActiveBytecode | opTxVersion | opTxInputCount | opTxOutputCount
  | opTxLockTime => .introspectionNullary
  | opUtxoValue | opUtxoBytecode | opOutpointTxHash | opOutpointIndex | opInputBytecode
  | opInputSequenceNumber | opOutputValue | opOutputBytecode => .introspectionUnary
  | _ => .badOpcode

section Loop

variable (env : EvalEnv)

/-- The body of a `case`, run on the opcode that selected it; `pc` is the position after the
instruction. -/
def execute (h : Handler) (opcode : UInt8) (fExec : Bool) (pc : List UInt8) (m : Machine) :
    Except EvalFault Machine :=
  match h with
  | .pushValue => evalPushValue opcode m
  | .nop => pure m
  | .checkLockTimeVerify => evalCheckLockTimeVerify env m
  | .checkSequenceVerify => evalCheckSequenceVerify env m
  | .upgradableNop => evalUpgradableNop env m
  | .ifNotIf => evalIf env opcode fExec m
  | .elseBranch => evalElse m
  | .endIf => evalEndIf m
  | .verify => evalVerify m
  | .returnOp => throw (.scriptError .opReturn)
  | .toAltStack => evalToAltStack m
  | .fromAltStack => evalFromAltStack m
  | .twoDrop => eval2Drop m
  | .twoDup => eval2Dup m
  | .threeDup => eval3Dup m
  | .twoOver => eval2Over m
  | .twoRot => eval2Rot m
  | .twoSwap => eval2Swap m
  | .ifDup => evalIfDup m
  | .depth => evalDepth m
  | .drop => evalDrop m
  | .dup => evalDup m
  | .nip => evalNip m
  | .over => evalOver m
  | .pickRoll => evalPickRoll env opcode m
  | .rot => evalRot m
  | .swap => evalSwap m
  | .tuck => evalTuck m
  | .size => evalSize m
  | .bitwise => evalBitwise opcode m
  | .equal => evalEqual opcode m
  | .unaryNumeric => evalUnaryNumeric env opcode m
  | .binaryNumeric => evalBinaryNumeric env opcode m
  | .within => evalWithin env m
  | .hash => evalHash env opcode m
  | .codeSeparator => evalCodeSeparator pc m
  | .checkSig => evalCheckSig env opcode m
  | .checkDataSig => evalCheckDataSig env opcode m
  | .checkMultiSig => evalCheckMultiSig env opcode m
  | .cat => evalCat m
  | .split => evalSplit env m
  | .reverseBytes => evalReverseBytes m
  | .num2Bin => evalNum2Bin env m
  | .bin2Num => evalBin2Num env m
  | .introspectionNullary => evalIntrospectionNullary env opcode m
  | .introspectionUnary => evalIntrospectionUnary env opcode m
  | .badOpcode => throw (.scriptError .badOpcode)

/-- `opcode > OP_16 && ++nOpCount > MAX_OPS_PER_SCRIPT`: `OP_RESERVED` and the pushes do not
count. -/
def countOpcode (opcode : UInt8) (m : Machine) : Except EvalFault Machine :=
  if opcode > op16 then
    if m.nOpCount + 1 > maxOpsPerScript then throw (.scriptError .opCount)
    else pure { m with nOpCount := m.nOpCount + 1 }
  else pure m

/-- The two branches of an iteration: in an executed branch a push opcode pushes its data
(minimally pushed under `MINIMALDATA`); any other opcode runs its `case` when the branch
executes, and the conditionals run always. -/
def dispatch (opcode : UInt8) (vchPushValue : ValType) (fExec : Bool) (pc : List UInt8)
    (m : Machine) : Except EvalFault Machine :=
  if fExec && opcode ≤ opPushData4 then
    if env.fRequireMinimal && !checkMinimalPush vchPushValue opcode then
      throw (.scriptError .minimaldata)
    else pure { m with stack := vchPushValue :: m.stack }
  else if fExec || (opIf ≤ opcode && opcode ≤ opEndIf) then
    execute env (handlerOf opcode) opcode fExec pc m
  else pure m

/-- An iteration of `while (pc < pend)` up to the end of the `switch`: read the instruction at
`pc`, bound its push, count it, refuse a disabled opcode and run it. -/
def runOpcode (m : Machine) (pc : List UInt8) : Except EvalFault (Machine × List UInt8) :=
  match getScriptOp pc with
  | none => throw (.scriptError .badOpcode)
  | some (opcode, vchPushValue, pc) =>
    if vchPushValue.length > maxScriptElementSize then throw (.scriptError .pushSize)
    else do
      let m' ← countOpcode opcode m
      if isOpcodeDisabled opcode env.flags then throw (.scriptError .disabledOpcode)
      else do
        let m' ← dispatch env opcode vchPushValue m.vfExec.allTrue pc m'
        pure (m', pc)

/-- One iteration of `while (pc < pend)`: run the opcode, then bound the stacks. -/
def step (m : Machine) (pc : List UInt8) : Except EvalFault (Machine × List UInt8) := do
  let (m', pc) ← runOpcode env m pc
  if m'.stack.length + m'.altstack.length > maxStackSize then throw (.scriptError .stackSize)
  else pure (m', pc)

/-- What a successful run of an opcode does: it decodes an instruction whose data fit in an
element, counts it, finds it enabled and runs it. -/
theorem runOpcode_eq_ok {m : Machine} {pc : List UInt8} {r : Machine × List UInt8}
    (h : runOpcode env m pc = .ok r) :
    ∃ opcode data m₁, getScriptOp pc = some (opcode, data, r.2) ∧
      data.length ≤ maxScriptElementSize ∧ countOpcode opcode m = .ok m₁ ∧
      isOpcodeDisabled opcode env.flags = false ∧
      dispatch env opcode data m.vfExec.allTrue r.2 m₁ = .ok r.1 := by
  unfold runOpcode at h
  split at h
  · simp at h
  · rename_i opcode data rest hop
    obtain ⟨hpush, h⟩ := Except.ite_throw_eq_ok.mp h
    obtain ⟨m₁, hcount, h⟩ := Except.bind_eq_ok.mp h
    obtain ⟨hdis, h⟩ := Except.ite_throw_eq_ok.mp h
    obtain ⟨m₂, hdisp, h⟩ := Except.bind_eq_ok.mp h
    rw [Except.pure_eq_ok, Except.ok.injEq] at h
    subst h
    exact ⟨opcode, data, m₁, hop, by omega, hcount, by simpa using hdis, hdisp⟩

/-- A successful iteration ran an opcode and left the stacks within `MAX_STACK_SIZE`. -/
theorem step_eq_ok {m : Machine} {pc : List UInt8} {r : Machine × List UInt8}
    (h : step env m pc = .ok r) :
    runOpcode env m pc = .ok r ∧ r.1.stack.length + r.1.altstack.length ≤ maxStackSize := by
  unfold step at h
  obtain ⟨⟨m', pc'⟩, hrun, h⟩ := Except.bind_eq_ok.mp h
  obtain ⟨hsize, h⟩ := Except.ite_throw_eq_ok.mp h
  rw [Except.pure_eq_ok, Except.ok.injEq] at h
  subst h
  exact ⟨hrun, Nat.not_lt.mp hsize⟩

/-- A successful iteration consumes at least the opcode. -/
theorem step_consumes {m : Machine} {pc : List UInt8} {r : Machine × List UInt8}
    (h : step env m pc = .ok r) : r.2.length < pc.length := by
  obtain ⟨opcode, data, -, hop, -⟩ := runOpcode_eq_ok env (step_eq_ok env h).1
  exact getScriptOp_length_lt hop

/-- The `while (pc < pend)` loop of `EvalScript`. -/
def scriptLoop : InputLoop Machine UInt8 EvalFault where
  step := step env
  consumes := step_consumes env

/-- The machine `EvalScript` starts from: the stack it is given, an empty alternate stack and
condition stack, the code hashed from the start of the script, and the metrics so far. -/
def initialMachine (stack : List ValType) (script : List UInt8)
    (metrics : ScriptExecutionMetrics) : Machine :=
  { stack, pbegincodehash := script, nSigChecks := metrics.nSigChecks }

/-- `EvalScript`: the final stack and metrics, or the fault that ends it. The `catch (...)`
turns every exception into `ScriptError::UNKNOWN`; an unclosed conditional is an error at the
end. -/
def evalScript (stack : List ValType) (script : List UInt8) (metrics : ScriptExecutionMetrics) :
    Except EvalFault (List ValType × ScriptExecutionMetrics) :=
  if script.length > maxScriptSize then throw (.scriptError .scriptSize)
  else
    match (scriptLoop env).run (initialMachine stack script metrics) script with
    | .error (.exception _) => throw (.scriptError .unknown)
    | .error e => throw e
    | .ok m =>
      if !m.vfExec.empty then throw (.scriptError .unbalancedConditional)
      else pure (m.stack, { nSigChecks := m.nSigChecks })

/-- A successful `EvalScript` ran its loop to the end and closed every conditional. -/
theorem evalScript_eq_ok {stack : List ValType} {script : List UInt8}
    {metrics : ScriptExecutionMetrics} {r : List ValType × ScriptExecutionMetrics}
    (h : evalScript env stack script metrics = .ok r) :
    ∃ m, (scriptLoop env).run (initialMachine stack script metrics) script = .ok m ∧
      m.vfExec.empty = true ∧ r = (m.stack, { nSigChecks := m.nSigChecks }) := by
  unfold evalScript at h
  obtain ⟨-, h⟩ := Except.ite_throw_eq_ok.mp h
  split at h
  · simp at h
  · simp at h
  · rename_i m hrun
    obtain ⟨hempty, h⟩ := Except.ite_throw_eq_ok.mp h
    rw [Except.pure_eq_ok, Except.ok.injEq] at h
    exact ⟨m, hrun, by simpa using hempty, h.symm⟩

end Loop

end BitcoinCash
