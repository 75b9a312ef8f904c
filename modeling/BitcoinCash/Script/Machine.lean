import BitcoinCash.Script.SigEncoding
import BitcoinCash.Script.ConditionStack

/-!
# The state of the script interpreter

What `EvalScript` (`script/interpreter.cpp`) reads and writes: the stacks, the condition stack,
the start of the code hashed by signatures, the opcode count and the signature-check metric; and
what it reads only: the flags, the signature checker, the execution context of introspection and
the hash functions.

A stack is a list with its top first: `stacktop(-1)` is the head. `stack.at` throws
`std::out_of_range` past either end, and an `erase`, `insert` or iterator outside its vector is
undefined behaviour; both are outcomes of the model, so that their absence can be proved.
-/

namespace BitcoinCash

/-! ### Faults -/

/-- A C++ exception thrown inside `EvalScript`'s `try` block. -/
inductive CppException where
  /-- `std::out_of_range` from `std::vector::at`. -/
  | outOfRange
  /-- `std::runtime_error("popstack(): stack empty")`. -/
  | stackEmpty
  /-- `scriptnum_error` from the `CScriptNum` constructor, with its message. -/
  | scriptnumError (what : String)
  /-- `std::bad_optional_access` from `std::optional::value`. -/
  | badOptionalAccess
  deriving DecidableEq, Repr

/-- Behaviour the C++ standard leaves undefined. -/
inductive UndefinedBehavior where
  /-- An `erase`, `insert` or iterator range outside its vector. -/
  | iteratorOutOfRange
  /-- Arithmetic on `int` whose result does not fit. -/
  | signedOverflow
  /-- A shift by at least the width of its operand. -/
  | shiftTooLarge
  deriving DecidableEq, Repr

/-- How an iteration of `EvalScript` ends when it does not go on. -/
inductive EvalFault where
  /-- `return set_error(serror, e)`. -/
  | scriptError (e : ScriptError)
  | exception (e : CppException)
  | undefined (u : UndefinedBehavior)
  /-- A failed `assert`, which aborts the process. -/
  | assertFailed
  deriving DecidableEq, Repr

/-- A fault is a memory fault when an access left its vector: `at` threw or an iterator left
its range. -/
def EvalFault.IsMemoryFault : EvalFault → Prop
  | .exception .outOfRange => True
  | .undefined .iteratorOutOfRange => True
  | _ => False

/-- Raise the error a check of the encodings sets. -/
def liftScriptError {α : Type} : Except ScriptError α → Except EvalFault α
  | .ok a => .ok a
  | .error e => .error (.scriptError e)

/-! ### What the interpreter reads -/

/-- `COutPoint`. -/
structure OutPoint where
  /-- `GetTxId()`, a `uint256`. -/
  txid : Vector UInt8 32
  /-- `GetN()`. -/
  n : UInt32

/-- `CTxIn`. -/
structure TxIn where
  prevout : OutPoint
  scriptSig : List UInt8
  nSequence : UInt32

/-- `CTxOut`; `Amount` is an `int64_t` number of satoshis, so `nValue / SATOSHI` is that
number. -/
structure TxOut where
  nValue : Int64
  scriptPubKey : List UInt8

/-- `CTransactionView`. -/
structure Transaction where
  nVersion : Int32
  vin : List TxIn
  vout : List TxOut
  nLockTime : UInt32

/-- `ScriptExecutionContext`: the input being evaluated, whether the coins of the other inputs
are missing, the outputs the inputs spend and the transaction, with the class invariant that
there is one coin per input. -/
structure ScriptExecutionContext where
  nIn : UInt32
  limited : Bool
  /-- `inputCoins`: of a `Coin` the interpreter reads only `GetTxOut()`. -/
  inputCoins : List TxOut
  tx : Transaction
  inputCoins_length : inputCoins.length = tx.vin.length

namespace ScriptExecutionContext

/-- `coin(inputIdx)`: `inputCoins.at(inputIdx)`. The `unsigned` index receives indices below
`tx().vin().size()`. -/
def coin (ctx : ScriptExecutionContext) (inputIdx : ℕ) : Except EvalFault TxOut :=
  match ctx.inputCoins[inputIdx]? with
  | some c => .ok c
  | none => .error (.exception .outOfRange)

/-- `scriptSig(inputIdx)`: `tx().vin().at(inputIdx).scriptSig`. -/
def scriptSig (ctx : ScriptExecutionContext) (inputIdx : ℕ) : Except EvalFault (List UInt8) :=
  match ctx.tx.vin[inputIdx]? with
  | some txin => .ok txin.scriptSig
  | none => .error (.exception .outOfRange)

end ScriptExecutionContext

/-- `BaseSignatureChecker`: the virtual methods the interpreter calls. -/
structure BaseSignatureChecker where
  /-- `VerifySignature(vchSig, CPubKey(vchPubKey), sighash)`. -/
  verifySignature : ValType → ValType → Vector UInt8 32 → Bool
  /-- `CheckSig(vchSig, vchPubKey, scriptCode, flags)`. -/
  checkSig : ValType → ValType → List UInt8 → UInt32 → Bool
  /-- `CheckLockTime(nLockTime)`. -/
  checkLockTime : ℤ → Bool
  /-- `CheckSequence(nSequence)`. -/
  checkSequence : ℤ → Bool
  deriving Inhabited

/-- The hash functions and the secp256k1 test the interpreter calls; their outputs have the
sizes of `valtype vchHash(20)` and `valtype vchHash(32)`. -/
structure Crypto where
  ripemd160 : List UInt8 → Vector UInt8 20
  sha1 : List UInt8 → Vector UInt8 20
  sha256 : List UInt8 → Vector UInt8 32
  /-- `CPubKey::CheckLowS`. -/
  checkLowS : List UInt8 → Bool
  deriving Inhabited

/-- The arguments of `EvalScript` that it only reads, and the hash functions. -/
structure EvalEnv where
  flags : UInt32
  checker : BaseSignatureChecker
  context : Option ScriptExecutionContext
  crypto : Crypto
  deriving Inhabited

namespace EvalEnv

variable (env : EvalEnv)

/-- `fRequireMinimal`. -/
def fRequireMinimal : Bool := hasFlag env.flags scriptVerifyMinimaldata

/-- `nativeIntrospection`. -/
def nativeIntrospection : Bool := hasFlag env.flags scriptNativeIntrospection

/-- `integers64Bit`. -/
def integers64Bit : Bool := hasFlag env.flags script64BitIntegers

/-- `maxIntegerSize`. -/
def maxIntegerSize : ℕ :=
  if env.integers64Bit then CScriptNum.maximumElementSize64Bit
  else CScriptNum.maximumElementSize32Bit

/-- `invalidNumberRangeError`. -/
def invalidNumberRangeError : ScriptError :=
  if env.integers64Bit then .invalidNumberRange64Bit else .invalidNumberRange

end EvalEnv

/-! ### The machine -/

/-- `ScriptExecutionMetrics`. -/
structure ScriptExecutionMetrics where
  nSigChecks : Int32 := 0
  deriving DecidableEq, Repr

/-- The state `EvalScript` keeps across iterations. -/
structure Machine where
  /-- `stack`, top first. -/
  stack : List ValType
  /-- `altstack`, top first. -/
  altstack : List ValType := []
  vfExec : ConditionStack := {}
  /-- The script from `pbegincodehash` to its end. -/
  pbegincodehash : List UInt8
  nOpCount : ℕ := 0
  /-- `metrics.nSigChecks`. -/
  nSigChecks : Int32

/-- `INT_MIN`. -/
def intMin : ℤ := -2 ^ 31

/-- `INT_MAX`. -/
def intMax : ℤ := 2 ^ 31 - 1

/-- `metrics.nSigChecks += k` for an `int` `k`: the sum must fit in an `int`. -/
def addSigChecks (nSigChecks : Int32) (k : ℤ) : Except EvalFault Int32 :=
  if intMin ≤ nSigChecks.toInt + k ∧ nSigChecks.toInt + k ≤ intMax then
    .ok (Int32.ofInt (nSigChecks.toInt + k))
  else .error (.undefined .signedOverflow)

/-- `int(x)` for an `int64_t` `x`: the value modulo `2 ^ 32`, as `int`. -/
def toIntWrap (x : ℤ) : Int32 := Int32.ofInt x

/-! ### Accesses -/

/-- `stacktop(i)`, that is `stack.at(stack.size() + i)`, for an offset `i` from the end:
`-1` is the top. -/
def stacktop (stack : List ValType) (i : ℤ) : Except EvalFault ValType :=
  if i < 0 then
    match stack[(-i - 1).toNat]? with
    | some v => .ok v
    | none => .error (.exception .outOfRange)
  else .error (.exception .outOfRange)

/-- `stacktop(i) = v`: an assignment through `at`. -/
def setStacktop (stack : List ValType) (i : ℤ) (v : ValType) :
    Except EvalFault (List ValType) :=
  if i < 0 ∧ (-i - 1).toNat < stack.length then .ok (stack.set (-i - 1).toNat v)
  else .error (.exception .outOfRange)

/-- `swap(stacktop(i), stacktop(j))`. -/
def swapStacktop (stack : List ValType) (i j : ℤ) : Except EvalFault (List ValType) := do
  let a ← stacktop stack i
  let b ← stacktop stack j
  let stack ← setStacktop stack i b
  setStacktop stack j a

/-- `popstack`. -/
def popstack : List ValType → Except EvalFault (List ValType)
  | [] => .error (.exception .stackEmpty)
  | _ :: stack => .ok stack

/-- `stack.erase(stack.end() - k)`. -/
def eraseAt (stack : List ValType) (k : ℕ) : Except EvalFault (List ValType) :=
  if 1 ≤ k ∧ k ≤ stack.length then .ok (stack.eraseIdx (k - 1))
  else .error (.undefined .iteratorOutOfRange)

/-- `stack.erase(stack.end() - a, stack.end() - b)`. -/
def eraseRange (stack : List ValType) (a b : ℕ) : Except EvalFault (List ValType) :=
  if b ≤ a ∧ a ≤ stack.length then .ok (stack.take b ++ stack.drop a)
  else .error (.undefined .iteratorOutOfRange)

/-- `stack.insert(stack.end() - k, v)`. -/
def insertAt (stack : List ValType) (k : ℕ) (v : ValType) : Except EvalFault (List ValType) :=
  if k ≤ stack.length then .ok (stack.insertIdx k v)
  else .error (.undefined .iteratorOutOfRange)

/-- `valtype(data.begin() + a, data.begin() + b)`. -/
def subrange (data : ValType) (a b : ℕ) : Except EvalFault ValType :=
  if a ≤ b ∧ b ≤ data.length then .ok ((data.take b).drop a)
  else .error (.undefined .iteratorOutOfRange)

/-- `CScriptNum(vch, fRequireMinimal, maxIntegerSize)`: `scriptnum_error` becomes an
exception. -/
def scriptNum (vch : ValType) (fRequireMinimal : Bool) (maxIntegerSize : ℕ) :
    Except EvalFault ℤ :=
  match CScriptNum.fromBytes vch fRequireMinimal maxIntegerSize with
  | .ok v => .ok v
  | .error what => .error (.exception (.scriptnumError what))

theorem fromBytes_of_scriptNum {vch : ValType} {fRequireMinimal : Bool} {maxIntegerSize : ℕ}
    {v : ℤ} (h : scriptNum vch fRequireMinimal maxIntegerSize = .ok v) :
    CScriptNum.fromBytes vch fRequireMinimal maxIntegerSize = .ok v := by
  unfold scriptNum at h
  split at h <;> simp_all

/-- `CScriptNum::fromInt(x).value()`: `std::bad_optional_access` for `INT64_MIN`. -/
def fromIntValue (x : ℤ) : Except EvalFault ℤ :=
  if valid64BitRange x then .ok x else .error (.exception .badOptionalAccess)

/-- The implicit conversion of a `size_t` to `int64_t`. -/
def sizeToInt64 (n : ℕ) : ℤ := int64OfBits (n % 2 ^ 64)

/-- `vchTrue` and `vchFalse`. -/
def vchBool (b : Bool) : ValType := if b then [1] else []

/-! ### The accesses in range -/

section Accesses

variable {stack : List ValType} {v : ValType}

@[simp] theorem stacktop_cons_neg_one (x : ValType) (s : List ValType) :
    stacktop (x :: s) (-1) = .ok x := rfl

/-- Below the top, `stacktop` reads the rest of the stack one offset higher. -/
@[simp] theorem stacktop_cons_of_lt {x : ValType} {s : List ValType} {i : ℤ} (hi : i < -1) :
    stacktop (x :: s) i = stacktop s (i + 1) := by
  have hidx : (-i - 1).toNat = (-(i + 1) - 1).toNat + 1 := by omega
  simp only [stacktop, hidx, List.getElem?_cons_succ]
  rw [if_pos (by omega), if_pos (by omega)]

theorem stacktop_of_lt {k : ℕ} (hk : k < stack.length) :
    stacktop stack (-(k : ℤ) - 1) = .ok stack[k] := by
  have hneg : -(k : ℤ) - 1 < 0 := by omega
  have hidx : (-(-(k : ℤ) - 1) - 1).toNat = k := by omega
  rw [stacktop, if_pos hneg, hidx, List.getElem?_eq_getElem hk]

@[simp] theorem setStacktop_cons_neg_one (x : ValType) (s : List ValType) :
    setStacktop (x :: s) (-1) v = .ok (v :: s) := rfl

/-- Below the top, `setStacktop` writes into the rest of the stack one offset higher. -/
@[simp] theorem setStacktop_cons_of_lt {x : ValType} {s : List ValType} {i : ℤ} (hi : i < -1) :
    setStacktop (x :: s) i v = (x :: ·) <$> setStacktop s (i + 1) v := by
  have hidx : (-i - 1).toNat = (-(i + 1) - 1).toNat + 1 := by omega
  unfold setStacktop
  rw [hidx]
  by_cases h : (-(i + 1) - 1).toNat < s.length
  · rw [if_pos ⟨by omega, by simpa using h⟩, if_pos ⟨by omega, h⟩]
    rfl
  · rw [if_neg (by simp; omega), if_neg (by omega)]
    rfl

@[simp] theorem popstack_cons (x : ValType) (s : List ValType) : popstack (x :: s) = .ok s := rfl

theorem eraseAt_of_le {k : ℕ} (h1 : 1 ≤ k) (hk : k ≤ stack.length) :
    eraseAt stack k = .ok (stack.eraseIdx (k - 1)) := if_pos ⟨h1, hk⟩

theorem subrange_of_le {data : ValType} {a b : ℕ} (hab : a ≤ b) (hb : b ≤ data.length) :
    subrange data a b = .ok ((data.take b).drop a) := if_pos ⟨hab, hb⟩

end Accesses

end BitcoinCash
