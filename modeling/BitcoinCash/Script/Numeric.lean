import BitcoinCash.Script.Safety

/-!
# The numeric results of `EvalScript`

Under `SCRIPT_64_BIT_INTEGERS` the numeric opcodes read their operands with the decoder of
`CScriptNum` at eight bytes and push `getvch()` of their result. This file proves that what they
push is a valid operand for any later numeric opcode: the minimal encoding, of at most eight
bytes, of a number of `[INT64_MIN + 1, INT64_MAX]`, which the decoder reads back. The arithmetic
opcodes compute the exact mathematical result, truncating for `OP_DIV` and `OP_MOD`, and fail
with `INVALID_NUMBER_RANGE_64_BIT`, `DIV_BY_ZERO` or `MOD_BY_ZERO` exactly when it cannot be
pushed.

The results of `OP_DEPTH`, `OP_SIZE` and the numeric introspection opcodes are sizes, indexes,
amounts and fields of the transaction; they are in the range because a `std::vector` holds fewer
than `2^63` entries and the fields are at most 64 bits wide, with `CScriptNum::fromInt` refusing
`INT64_MIN`.
-/

namespace BitcoinCash

open CScriptNum

/-! ### Encodings of script numbers -/

/-- `v` is what `CScriptNum::getvch()` makes of `x`, the minimal encoding of a number of the
range in at most eight bytes, and the decoder reads `x` back from it. -/
structure ScriptNumEncoding (v : ValType) (x : ℤ) : Prop where
  inRange : InRange x
  eq_serialize : v = serialize x
  length_le : v.length ≤ maximumElementSize64Bit
  isMinimallyEncoded : isMinimallyEncoded v maximumElementSize64Bit = true
  fromBytes_eq : ∀ fRequireMinimal, fromBytes v fRequireMinimal maximumElementSize64Bit = .ok x

/-- Every number of the range is encoded by `serialize`. -/
theorem scriptNumEncoding_serialize {x : ℤ} (hx : InRange x) :
    ScriptNumEncoding (serialize x) x where
  inRange := hx
  eq_serialize := rfl
  length_le := (serialize_spec hx.1 hx.2).2.2
  isMinimallyEncoded := isMinimallyEncoded_serialize hx.1 hx.2
  fromBytes_eq := fromBytes_serialize hx.1 hx.2

/-- Under `SCRIPT_64_BIT_INTEGERS` an encoding is an operand: `CScriptNum(v, fRequireMinimal,
maxIntegerSize)` reads it. -/
theorem ScriptNumEncoding.scriptNum_eq {env : EvalEnv} {v : ValType} {x : ℤ}
    (h : ScriptNumEncoding v x) (h64 : env.integers64Bit = true) :
    scriptNum v env.fRequireMinimal env.maxIntegerSize = .ok x := by
  simp [scriptNum, EvalEnv.maxIntegerSize, h64, h.fromBytes_eq]

/-- Under `SCRIPT_64_BIT_INTEGERS` every operand the interpreter reads is in the range. -/
theorem inRange_of_scriptNum {env : EvalEnv} {v : ValType} {x : ℤ}
    (h : scriptNum v env.fRequireMinimal env.maxIntegerSize = .ok x) : InRange x :=
  inRange_of_fromBytes (fromBytes_of_scriptNum h)

/-! ### The specification of the arithmetic -/

/-- The unary arithmetic opcodes. -/
def unaryNumericOpcodes : List UInt8 := [op1Add, op1Sub, opNegate, opAbs, opNot, op0NotEqual]

/-- The binary arithmetic opcodes whose result stays on the stack: all of `OP_ADD` … `OP_MAX`
but `OP_NUMEQUALVERIFY`, which pops it. -/
def binaryNumericOpcodes : List UInt8 :=
  [opAdd, opSub, opMul, opDiv, opMod, opBoolAnd, opBoolOr, opNumEqual, opNumNotEqual,
    opLessThan, opGreaterThan, opLessThanOrEqual, opGreaterThanOrEqual, opMin, opMax]

/-- The mathematical result of a unary arithmetic opcode. -/
def unaryNumericSpec (opcode : UInt8) (a : ℤ) : ℤ :=
  if opcode = op1Add then a + 1
  else if opcode = op1Sub then a - 1
  else if opcode = opNegate then -a
  else if opcode = opAbs then |a|
  else if opcode = opNot then boolToInt (decide (a = 0))
  else boolToInt (decide (a ≠ 0))

/-- The mathematical result of a binary arithmetic opcode; `Int.tdiv` and `Int.tmod` are C++'s
truncating quotient and remainder. -/
def binaryNumericSpec (opcode : UInt8) (a b : ℤ) : ℤ :=
  if opcode = opAdd then a + b
  else if opcode = opSub then a - b
  else if opcode = opMul then a * b
  else if opcode = opDiv then a.tdiv b
  else if opcode = opMod then a.tmod b
  else if opcode = opBoolAnd then boolToInt (decide (a ≠ 0 ∧ b ≠ 0))
  else if opcode = opBoolOr then boolToInt (decide (a ≠ 0 ∨ b ≠ 0))
  else if opcode = opNumEqual then boolToInt (decide (a = b))
  else if opcode = opNumNotEqual then boolToInt (decide (a ≠ b))
  else if opcode = opLessThan then boolToInt (decide (a < b))
  else if opcode = opGreaterThan then boolToInt (decide (b < a))
  else if opcode = opLessThanOrEqual then boolToInt (decide (a ≤ b))
  else if opcode = opGreaterThanOrEqual then boolToInt (decide (b ≤ a))
  else if opcode = opMin then min a b
  else max a b

/-- A result that cannot be encoded is refused with `INVALID_NUMBER_RANGE_64_BIT`. -/
def rangeChecked (r : ℤ) : Except EvalFault ℤ :=
  if InRange r then pure r else throw (.scriptError .invalidNumberRange64Bit)

/-- What a unary arithmetic opcode does with an operand: the result, or its refusal. -/
def unaryNumericResult (opcode : UInt8) (a : ℤ) : Except EvalFault ℤ :=
  rangeChecked (unaryNumericSpec opcode a)

/-- What a binary arithmetic opcode does with two operands: a division by zero is refused,
otherwise the result or its refusal. -/
def binaryNumericResult (opcode : UInt8) (a b : ℤ) : Except EvalFault ℤ :=
  if opcode = opDiv ∧ b = 0 then throw (.scriptError .divByZero)
  else if opcode = opMod ∧ b = 0 then throw (.scriptError .modByZero)
  else rangeChecked (binaryNumericSpec opcode a b)

theorem rangeChecked_of_inRange {r : ℤ} (h : InRange r) : rangeChecked r = .ok r := by
  simp [rangeChecked, h]

/-- A checked operation that refuses with `INVALID_NUMBER_RANGE_64_BIT` is `rangeChecked`. -/
theorem checked_match_eq_rangeChecked (r : ℤ) :
    (match checked r with
      | none => (throw (.scriptError .invalidNumberRange64Bit) : Except EvalFault ℤ)
      | some r => pure r) = rangeChecked r := by
  by_cases h : InRange r
  · simp [checked_of_inRange h, rangeChecked, h]
  · simp [checked_of_not_inRange h, rangeChecked, h]

theorem inRange_boolToInt (b : Bool) : InRange (boolToInt b) := by
  cases b <;> simp [boolToInt, InRange, int64Min, int64Max]

/-- A truth value is always encodable. -/
theorem pure_boolToInt_eq (b : Bool) : pure (boolToInt b) = rangeChecked (boolToInt b) :=
  (rangeChecked_of_inRange (inRange_boolToInt b)).symm

/-- `OP_ABS` negates exactly the negative operands. -/
theorem abs_eq_of_inRange {a : ℤ} (ha : InRange a) : (if a < 0 then neg a else a) = |a| := by
  split_ifs with hneg
  · rw [neg_eq ha, abs_of_neg hneg]
  · rw [abs_of_nonneg (not_lt.mp hneg)]

theorem inRange_abs {a : ℤ} (ha : InRange a) : InRange |a| := by
  unfold InRange int64Min int64Max at *
  rcases abs_cases a with ⟨h, -⟩ | ⟨h, -⟩ <;> omega

/-- On an operand of the range, the inner `switch` of `OP_1ADD` … `OP_0NOTEQUAL` computes the
specification. -/
theorem unaryNumericOp_eq_result {opcode : UInt8} (hop : opcode ∈ unaryNumericOpcodes) {a : ℤ}
    (ha : InRange a) : unaryNumericOp opcode a = unaryNumericResult opcode a := by
  simp only [unaryNumericOpcodes, List.mem_cons, List.not_mem_nil, or_false] at hop
  -- each case first evaluates the `switch` at its opcode
  rcases hop with rfl | rfl | rfl | rfl | rfl | rfl
  · exact checked_match_eq_rangeChecked (a + 1)
  · exact checked_match_eq_rangeChecked (a - 1)
  · show pure (neg a) = rangeChecked (-a)
    rw [neg_eq ha, rangeChecked_of_inRange (inRange_neg ha)]
    rfl
  · show pure (if a < 0 then neg a else a) = rangeChecked |a|
    rw [abs_eq_of_inRange ha, rangeChecked_of_inRange (inRange_abs ha)]
    rfl
  · exact pure_boolToInt_eq _
  · show pure (boolToInt (a != 0)) = rangeChecked (boolToInt (decide (a ≠ 0)))
    rw [pure_boolToInt_eq]
    congr 2
    simp only [ne_eq, decide_not]
    rfl

/-- `OP_MIN` and `OP_MAX` pick one of their operands. -/
theorem inRange_min {a b : ℤ} (ha : InRange a) (hb : InRange b) : InRange (min a b) := by
  rcases min_choice a b with h | h <;> rw [h] <;> assumption

theorem inRange_max {a b : ℤ} (ha : InRange a) (hb : InRange b) : InRange (max a b) := by
  rcases max_choice a b with h | h <;> rw [h] <;> assumption

/-- On operands of the range, the inner `switch` of `OP_ADD` … `OP_MAX` computes the
specification: the checked operations refuse exactly the results outside the range, `OP_DIV` and
`OP_MOD` exactly a zero divisor. -/
theorem binaryNumericOp_eq_result {opcode : UInt8} (hop : opcode ∈ binaryNumericOpcodes)
    {a b : ℤ} (ha : InRange a) (hb : InRange b) :
    binaryNumericOp opcode a b = binaryNumericResult opcode a b := by
  simp only [binaryNumericOpcodes, List.mem_cons, List.not_mem_nil, or_false] at hop
  -- each case first evaluates the `switch` at its opcode
  rcases hop with rfl | rfl | rfl | rfl | rfl | rfl | rfl | rfl | rfl | rfl | rfl | rfl | rfl |
    rfl | rfl
  · exact checked_match_eq_rangeChecked (a + b)
  · exact checked_match_eq_rangeChecked (a - b)
  · exact checked_match_eq_rangeChecked (a * b)
  · show (if b = 0 then throw (EvalFault.scriptError .divByZero) else pure (div a b)) = _
    by_cases hb0 : b = 0
    · simp [binaryNumericResult, hb0]
    · simp +decide [binaryNumericResult, binaryNumericSpec, hb0, div_eq_tdiv ha,
        rangeChecked_of_inRange (inRange_tdiv ha b)]
  · show (if b = 0 then throw (EvalFault.scriptError .modByZero) else pure (mod a b)) = _
    by_cases hb0 : b = 0
    · simp +decide [binaryNumericResult, hb0]
    · simp +decide [binaryNumericResult, binaryNumericSpec, hb0, mod_eq_tmod ha,
        rangeChecked_of_inRange (inRange_tmod ha b)]
  -- the comparisons push a truth value
  · show pure (boolToInt (a != 0 && b != 0)) = _
    simp +decide [binaryNumericResult, binaryNumericSpec, ← pure_boolToInt_eq, beq_eq_decide,
      bne]
  · show pure (boolToInt (a != 0 || b != 0)) = _
    simp +decide [binaryNumericResult, binaryNumericSpec, ← pure_boolToInt_eq, beq_eq_decide,
      bne]
  · show pure (boolToInt (a == b)) = _
    simp +decide [binaryNumericResult, binaryNumericSpec, ← pure_boolToInt_eq, beq_eq_decide]
  · show pure (boolToInt (a != b)) = _
    simp +decide [binaryNumericResult, binaryNumericSpec, ← pure_boolToInt_eq, beq_eq_decide,
      bne]
  · show pure (boolToInt (decide (a < b))) = _
    simp +decide [binaryNumericResult, binaryNumericSpec, ← pure_boolToInt_eq]
  · show pure (boolToInt (decide (a > b))) = _
    simp +decide [binaryNumericResult, binaryNumericSpec, ← pure_boolToInt_eq]
  · show pure (boolToInt (decide (a ≤ b))) = _
    simp +decide [binaryNumericResult, binaryNumericSpec, ← pure_boolToInt_eq]
  · show pure (boolToInt (decide (a ≥ b))) = _
    simp +decide [binaryNumericResult, binaryNumericSpec, ← pure_boolToInt_eq]
  -- `OP_MIN` and `OP_MAX` keep the first operand on a tie
  · show pure (if a < b then a else b) = _
    have hmin : (if a < b then a else b) = min a b := by
      rw [min_def]
      split_ifs <;> omega
    simp +decide [binaryNumericResult, binaryNumericSpec, hmin,
      rangeChecked_of_inRange (inRange_min ha hb)]
  · show pure (if a > b then a else b) = _
    have hmax : (if a > b then a else b) = max a b := by
      rw [max_def]
      split_ifs <;> omega
    simp +decide [binaryNumericResult, binaryNumericSpec, hmax,
      rangeChecked_of_inRange (inRange_max ha hb)]

/-- A refused result is refused with one of the three errors of the arithmetic; an accepted one
is the specification, in the range. -/
theorem rangeChecked_eq_ok {r v : ℤ} (h : rangeChecked r = .ok v) : v = r ∧ InRange r := by
  unfold rangeChecked at h
  split_ifs at h with hr
  · exact ⟨(Except.ok.inj h).symm, hr⟩

theorem inRange_of_unaryNumericResult {opcode : UInt8} {a r : ℤ}
    (h : unaryNumericResult opcode a = .ok r) : InRange r := by
  obtain ⟨rfl, hr⟩ := rangeChecked_eq_ok h
  exact hr

theorem inRange_of_binaryNumericResult {opcode : UInt8} {a b r : ℤ}
    (h : binaryNumericResult opcode a b = .ok r) : InRange r := by
  unfold binaryNumericResult at h
  split_ifs at h
  obtain ⟨rfl, hr⟩ := rangeChecked_eq_ok h
  exact hr

/-! ### What the bodies push -/

/-- `std::vector::max_size()` on a 64-bit platform: the stack and each of its elements hold fewer
than `2^63` entries. -/
def FitsVector (stack : List ValType) : Prop :=
  stack.length < 2 ^ 63 ∧ ∀ v ∈ stack, v.length < 2 ^ 63

/-- A result of a body whose machine, if any, has a script number on top of its stack. -/
def PushesScriptNum (r : Except EvalFault Machine) : Prop :=
  ∀ m', r = .ok m' → ∃ v x, m'.stack.head? = some v ∧ ScriptNumEncoding v x

section Rules

theorem pushesScriptNum_serialize {x : ℤ} (hx : InRange x) (m : Machine) (s : List ValType) :
    PushesScriptNum (.ok { m with stack := serialize x :: s }) := by
  rintro m' ⟨⟩
  exact ⟨serialize x, x, rfl, scriptNumEncoding_serialize hx⟩

@[simp] theorem pushesScriptNum_error (e : EvalFault) : PushesScriptNum (.error e) := by
  rintro m' ⟨⟩

theorem pushesScriptNum_bind {α : Type} {x : Except EvalFault α} {f : α → Except EvalFault Machine}
    (hf : ∀ a, x = .ok a → PushesScriptNum (f a)) : PushesScriptNum (x >>= f) := by
  cases x with
  | error e => exact pushesScriptNum_error e
  | ok a => exact hf a rfl

theorem pushesScriptNum_ite_throw {c : Prop} [Decidable c] {e : ScriptError}
    {x : Except EvalFault Machine} (hx : ¬c → PushesScriptNum x) :
    PushesScriptNum (if c then throw (.scriptError e) else x) := by
  split_ifs with hc
  · exact pushesScriptNum_error _
  · exact hx hc

end Rules

/-- A size held in a `std::vector` converts to `int64_t` unchanged. -/
theorem sizeToInt64_of_lt {n : ℕ} (h : n < 2 ^ 63) : sizeToInt64 n = n := by
  rw [sizeToInt64, Nat.mod_eq_of_lt (by omega), int64OfBits_of_lt h]

theorem inRange_sizeToInt64 {n : ℕ} (h : n < 2 ^ 63) : InRange (sizeToInt64 n) := by
  rw [sizeToInt64_of_lt h]
  unfold InRange int64Min int64Max
  omega

/-- `CScriptNum::fromInt(x).value()` of an `int64_t` pushes a script number: `fromInt` refuses
only `INT64_MIN`. -/
theorem pushesScriptNum_pushNum {x : ℤ} (hlo : int64Min ≤ x) (hhi : x ≤ int64Max) (m : Machine) :
    PushesScriptNum (pushNum x m) := by
  unfold pushNum fromIntValue
  split_ifs with hvalid
  · have hx : InRange x := ⟨lt_of_le_of_ne hlo ((valid64BitRange_iff x).mp hvalid).symm, hhi⟩
    exact pushesScriptNum_serialize hx m _
  · exact pushesScriptNum_error _

variable (env : EvalEnv)

/-- On a decoded operand, `OP_1ADD` … `OP_0NOTEQUAL` replace it by the specified result, or
fail as the specification says. -/
theorem evalUnaryNumeric_eq {opcode : UInt8} (hop : opcode ∈ unaryNumericOpcodes) {m : Machine}
    {va : ValType} {rest : List ValType} {a : ℤ} (hstack : m.stack = va :: rest)
    (ha : scriptNum va env.fRequireMinimal env.maxIntegerSize = .ok a) :
    evalUnaryNumeric env opcode m =
      (fun r => { m with stack := serialize r :: rest }) <$> unaryNumericResult opcode a := by
  simp [evalUnaryNumeric, hstack, ha, unaryNumericOp_eq_result hop (inRange_of_scriptNum ha)]
  cases unaryNumericResult opcode a <;> rfl

theorem not_mem_binaryNumericOpcodes : opNumEqualVerify ∉ binaryNumericOpcodes := by decide

/-- On decoded operands, `OP_ADD` … `OP_MAX` replace them by the specified result, or fail as
the specification says. -/
theorem evalBinaryNumeric_eq {opcode : UInt8} (hop : opcode ∈ binaryNumericOpcodes) {m : Machine}
    {va vb : ValType} {rest : List ValType} {a b : ℤ} (hstack : m.stack = vb :: va :: rest)
    (ha : scriptNum va env.fRequireMinimal env.maxIntegerSize = .ok a)
    (hb : scriptNum vb env.fRequireMinimal env.maxIntegerSize = .ok b) :
    evalBinaryNumeric env opcode m =
      (fun r => { m with stack := serialize r :: rest }) <$> binaryNumericResult opcode a b := by
  have hne : opcode ≠ opNumEqualVerify := fun h => not_mem_binaryNumericOpcodes (h ▸ hop)
  simp only [evalBinaryNumeric, hstack, List.length_cons, Except.throw_eq_error, Int.reduceNeg,
    neg_lt_neg_iff, Nat.one_lt_ofNat, stacktop_cons_of_lt, Int.reduceAdd, stacktop_cons_neg_one,
    popstack_cons, hne, ↓reduceIte, Except.pure_eq_ok, Except.bind_ok', hb, ha,
    binaryNumericOp_eq_result hop (inRange_of_scriptNum ha) (inRange_of_scriptNum hb)]
  rw [if_neg (by omega)]
  cases binaryNumericResult opcode a b <;> rfl

theorem pushesScriptNum_evalUnaryNumeric {opcode : UInt8} (hop : opcode ∈ unaryNumericOpcodes)
    (m : Machine) :
    PushesScriptNum (evalUnaryNumeric env opcode m) := by
  intro m' h
  rcases hs : m.stack with _ | ⟨va, rest⟩
  · simp [evalUnaryNumeric, hs] at h
  cases ha : scriptNum va env.fRequireMinimal env.maxIntegerSize with
  | error e => simp [evalUnaryNumeric, hs, ha] at h
  | ok a =>
    rw [evalUnaryNumeric_eq env hop hs ha] at h
    cases hr : unaryNumericResult opcode a with
    | error e => simp [hr] at h
    | ok r =>
      simp only [hr, Except.map_ok', Except.ok.injEq] at h
      exact h ▸ pushesScriptNum_serialize (inRange_of_unaryNumericResult hr) m rest _ rfl

theorem pushesScriptNum_evalBinaryNumeric {opcode : UInt8} (hop : opcode ∈ binaryNumericOpcodes)
    (m : Machine) : PushesScriptNum (evalBinaryNumeric env opcode m) := by
  intro m' h
  rcases hs : m.stack with _ | ⟨vb, _ | ⟨va, rest⟩⟩
  · simp [evalBinaryNumeric, hs] at h
  · simp [evalBinaryNumeric, hs] at h
  cases ha : scriptNum va env.fRequireMinimal env.maxIntegerSize with
  | error e =>
    simp only [evalBinaryNumeric, hs, List.length_cons, Except.throw_eq_error, Int.reduceNeg,
      neg_lt_neg_iff, Nat.one_lt_ofNat, stacktop_cons_of_lt, Int.reduceAdd, stacktop_cons_neg_one,
      popstack_cons, Except.pure_eq_ok, Except.bind_ok', ha, Except.bind_error'] at h
    split_ifs at h
  | ok a =>
    cases hb : scriptNum vb env.fRequireMinimal env.maxIntegerSize with
    | error e =>
      simp only [evalBinaryNumeric, hs, List.length_cons, Except.throw_eq_error, Int.reduceNeg,
        neg_lt_neg_iff, Nat.one_lt_ofNat, stacktop_cons_of_lt, Int.reduceAdd, stacktop_cons_neg_one,
        popstack_cons, Except.pure_eq_ok, Except.bind_ok', hb, Except.bind_error', ha] at h
      split_ifs at h
    | ok b =>
      rw [evalBinaryNumeric_eq env hop hs ha hb] at h
      cases hr : binaryNumericResult opcode a b with
      | error e => simp [hr] at h
      | ok r =>
        simp only [hr, Except.map_ok', Except.ok.injEq] at h
        exact h ▸ pushesScriptNum_serialize (inRange_of_binaryNumericResult hr) m rest _ rfl

/-- `OP_DEPTH` pushes the size of a stack that fits in a `std::vector`. -/
theorem pushesScriptNum_evalDepth {m : Machine} (hfits : FitsVector m.stack) :
    PushesScriptNum (evalDepth m) :=
  pushesScriptNum_serialize (inRange_sizeToInt64 hfits.1) m m.stack

/-- `OP_SIZE` pushes the size of an element that fits in a `std::vector`. -/
theorem pushesScriptNum_evalSize {m : Machine} (hfits : FitsVector m.stack) :
    PushesScriptNum (evalSize m) := by
  unfold evalSize
  refine pushesScriptNum_ite_throw fun hlen => ?_
  rcases hs : m.stack with _ | ⟨top, rest⟩
  · simp [hs] at hlen
  have htop : top.length < 2 ^ 63 := hfits.2 top (by simp [hs])
  simpa [hs] using pushesScriptNum_serialize (inRange_sizeToInt64 htop) m (top :: rest)

/-! ### Introspection -/

/-- The nullary introspection opcodes that push a number. -/
def introspectionNullaryNumericOpcodes : List UInt8 :=
  [opInputIndex, opTxVersion, opTxInputCount, opTxOutputCount, opTxLockTime]

/-- The unary introspection opcodes that push a number. -/
def introspectionUnaryNumericOpcodes : List UInt8 :=
  [opUtxoValue, opOutpointIndex, opInputSequenceNumber, opOutputValue]

/-- The fields the introspection opcodes push are `int64_t` values. -/
theorem int64_bounds_uint32 (x : UInt32) : int64Min ≤ (x.toNat : ℤ) ∧ (x.toNat : ℤ) ≤ int64Max := by
  have := x.toNat_lt
  unfold int64Min int64Max
  omega

theorem int64_bounds_int32 (x : Int32) : int64Min ≤ x.toInt ∧ x.toInt ≤ int64Max := by
  have := x.le_toInt
  have := x.toInt_lt
  unfold int64Min int64Max
  omega

theorem int64_bounds_int64 (x : Int64) : int64Min ≤ x.toInt ∧ x.toInt ≤ int64Max := by
  have := x.le_toInt
  have := x.toInt_lt
  unfold int64Min int64Max
  omega

theorem int64_bounds_sizeToInt64 (n : ℕ) : int64Min ≤ sizeToInt64 n ∧ sizeToInt64 n ≤ int64Max :=
  int64OfBits_mem (Nat.mod_lt _ (by norm_num))

theorem pushesScriptNum_evalIntrospectionNullary {opcode : UInt8}
    (hop : opcode ∈ introspectionNullaryNumericOpcodes) (m : Machine) :
    PushesScriptNum (evalIntrospectionNullary env opcode m) := by
  unfold evalIntrospectionNullary
  refine pushesScriptNum_ite_throw fun _ => ?_
  split
  · exact pushesScriptNum_error _
  split
  · exact pushesScriptNum_pushNum (int64_bounds_uint32 _).1 (int64_bounds_uint32 _).2 m
  · simp +decide at hop
  · exact pushesScriptNum_pushNum (int64_bounds_int32 _).1 (int64_bounds_int32 _).2 m
  · exact pushesScriptNum_pushNum (int64_bounds_sizeToInt64 _).1 (int64_bounds_sizeToInt64 _).2 m
  · exact pushesScriptNum_pushNum (int64_bounds_sizeToInt64 _).1 (int64_bounds_sizeToInt64 _).2 m
  · exact pushesScriptNum_pushNum (int64_bounds_uint32 _).1 (int64_bounds_uint32 _).2 m
  · exact pushesScriptNum_error _

theorem pushesScriptNum_evalIntrospectionUnary {opcode : UInt8}
    (hop : opcode ∈ introspectionUnaryNumericOpcodes) (m : Machine) :
    PushesScriptNum (evalIntrospectionUnary env opcode m) := by
  unfold evalIntrospectionUnary
  refine pushesScriptNum_ite_throw fun _ => ?_
  split
  · exact pushesScriptNum_error _
  refine pushesScriptNum_ite_throw fun _ => ?_
  refine pushesScriptNum_bind fun _ _ => pushesScriptNum_bind fun _ _ =>
    pushesScriptNum_bind fun s _ => ?_
  -- every branch checks the index and reads the field; the bytecode branches are not numeric
  split
  · refine pushesScriptNum_bind fun _ _ => pushesScriptNum_bind fun c _ => ?_
    exact pushesScriptNum_pushNum (int64_bounds_int64 _).1 (int64_bounds_int64 _).2 _
  · simp +decide at hop
  · simp +decide at hop
  · refine pushesScriptNum_bind fun _ _ => pushesScriptNum_bind fun txin _ => ?_
    exact pushesScriptNum_pushNum (int64_bounds_uint32 _).1 (int64_bounds_uint32 _).2 _
  · simp +decide at hop
  · refine pushesScriptNum_bind fun _ _ => pushesScriptNum_bind fun txin _ => ?_
    exact pushesScriptNum_pushNum (int64_bounds_uint32 _).1 (int64_bounds_uint32 _).2 _
  · refine pushesScriptNum_bind fun _ _ => pushesScriptNum_bind fun txout _ => ?_
    exact pushesScriptNum_pushNum (int64_bounds_int64 _).1 (int64_bounds_int64 _).2 _
  · simp +decide at hop
  · exact pushesScriptNum_error _

/-! ### The opcodes in the loop -/

/-- The opcodes whose result is a number: the arithmetic, `OP_DEPTH`, `OP_SIZE` and the numeric
introspection opcodes. -/
def numericResultOpcodes : List UInt8 :=
  unaryNumericOpcodes ++ binaryNumericOpcodes ++ [opDepth, opSize] ++
    introspectionNullaryNumericOpcodes ++ introspectionUnaryNumericOpcodes

set_option maxRecDepth 8000 in
theorem handlerOf_of_unaryNumeric :
    ∀ opcode ∈ unaryNumericOpcodes, handlerOf opcode = .unaryNumeric := by decide

set_option maxRecDepth 8000 in
theorem handlerOf_of_binaryNumeric :
    ∀ opcode ∈ binaryNumericOpcodes, handlerOf opcode = .binaryNumeric := by decide

set_option maxRecDepth 8000 in
theorem handlerOf_of_introspectionNullary :
    ∀ opcode ∈ introspectionNullaryNumericOpcodes, handlerOf opcode = .introspectionNullary := by
  decide

set_option maxRecDepth 8000 in
theorem handlerOf_of_introspectionUnary :
    ∀ opcode ∈ introspectionUnaryNumericOpcodes, handlerOf opcode = .introspectionUnary := by
  decide

set_option maxRecDepth 8000 in
/-- None of them is a push. -/
theorem opPushData4_lt_of_numericResult :
    ∀ opcode ∈ numericResultOpcodes, opPushData4 < opcode := by
  decide

/-- The body of a numeric opcode pushes a script number. -/
theorem pushesScriptNum_execute {opcode : UInt8} (hop : opcode ∈ numericResultOpcodes)
    (fExec : Bool) (pc : List UInt8) {m : Machine} (hfits : FitsVector m.stack) :
    PushesScriptNum (execute env (handlerOf opcode) opcode fExec pc m) := by
  simp only [numericResultOpcodes, List.mem_append, List.mem_cons, List.not_mem_nil,
    or_false] at hop
  rcases hop with (((hu | hb) | rfl | rfl) | hn) | hi
  · rw [handlerOf_of_unaryNumeric opcode hu]
    exact pushesScriptNum_evalUnaryNumeric env hu m
  · rw [handlerOf_of_binaryNumeric opcode hb]
    exact pushesScriptNum_evalBinaryNumeric env hb m
  · exact pushesScriptNum_evalDepth hfits
  · exact pushesScriptNum_evalSize hfits
  · rw [handlerOf_of_introspectionNullary opcode hn]
    exact pushesScriptNum_evalIntrospectionNullary env hn m
  · rw [handlerOf_of_introspectionUnary opcode hi]
    exact pushesScriptNum_evalIntrospectionUnary env hi m

/-- Every number an executed numeric opcode pushes is a script number: an iteration of the loop
that runs one leaves the encoding of a number of the range on top of the stack. -/
theorem runOpcode_pushes_scriptNum {m m' : Machine} {pc pc' : List UInt8} {opcode : UInt8}
    {data : ValType} (hdecode : getScriptOp pc = some (opcode, data, pc'))
    (hop : opcode ∈ numericResultOpcodes) (hexec : m.vfExec.allTrue = true)
    (hfits : FitsVector m.stack) (h : runOpcode env m pc = .ok (m', pc')) :
    ∃ v x, m'.stack.head? = some v ∧ ScriptNumEncoding v x := by
  obtain ⟨opcode', data', m₁, hdecode', -, hcount, -, hdispatch⟩ := runOpcode_eq_ok env h
  rw [hdecode, Option.some.injEq, Prod.mk.injEq] at hdecode'
  obtain ⟨rfl, -⟩ := hdecode'
  -- counting the opcode leaves the stack alone
  have hstack : m₁.stack = m.stack := by
    rcases countOpcode_eq_ok hcount with ⟨-, rfl⟩ | ⟨-, rfl, -⟩ <;> rfl
  have hpush : ¬opcode ≤ opPushData4 :=
    UInt8.not_le.mpr (opPushData4_lt_of_numericResult opcode hop)
  simp only [dispatch, hexec, hpush, Bool.true_and, decide_false, Bool.true_or,
    if_true] at hdispatch
  exact pushesScriptNum_execute env hop true pc' (hstack ▸ hfits) m' hdispatch

/-! ### The numeric results -/

/-- What the numeric opcodes of `EvalScript` guarantee: each number they push is a script number
that a later numeric opcode reads back, and the arithmetic pushes its mathematical result or fails
with one of its three errors. -/
structure NumericResultsValid (env : EvalEnv) : Prop where
  /-- An executed numeric opcode pushes the encoding of a number of the range. -/
  pushes : ∀ {m m' : Machine} {pc pc' : List UInt8} {opcode : UInt8} {data : ValType},
    getScriptOp pc = some (opcode, data, pc') → opcode ∈ numericResultOpcodes →
      m.vfExec.allTrue = true → FitsVector m.stack → runOpcode env m pc = .ok (m', pc') →
        ∃ v x, m'.stack.head? = some v ∧ ScriptNumEncoding v x
  /-- `CScriptNum(v, fRequireMinimal, maxIntegerSize)` reads such an encoding back. -/
  operand : ∀ {v : ValType} {x : ℤ}, ScriptNumEncoding v x →
    scriptNum v env.fRequireMinimal env.maxIntegerSize = .ok x
  /-- `OP_1ADD` … `OP_0NOTEQUAL` replace their operand by `unaryNumericResult`. -/
  unary : ∀ {opcode : UInt8} {m : Machine} {va : ValType} {rest : List ValType} {a : ℤ},
    opcode ∈ unaryNumericOpcodes → m.stack = va :: rest →
      scriptNum va env.fRequireMinimal env.maxIntegerSize = .ok a →
        evalUnaryNumeric env opcode m =
          (fun r => { m with stack := serialize r :: rest }) <$> unaryNumericResult opcode a
  /-- `OP_ADD` … `OP_MAX` replace their operands by `binaryNumericResult`. -/
  binary : ∀ {opcode : UInt8} {m : Machine} {va vb : ValType} {rest : List ValType} {a b : ℤ},
    opcode ∈ binaryNumericOpcodes → m.stack = vb :: va :: rest →
      scriptNum va env.fRequireMinimal env.maxIntegerSize = .ok a →
        scriptNum vb env.fRequireMinimal env.maxIntegerSize = .ok b →
          evalBinaryNumeric env opcode m =
            (fun r => { m with stack := serialize r :: rest }) <$> binaryNumericResult opcode a b
  /-- The arithmetic fails only with `INVALID_NUMBER_RANGE_64_BIT`, `DIV_BY_ZERO` or
  `MOD_BY_ZERO`. -/
  fails : ∀ {opcode : UInt8} {a b : ℤ} {e : EvalFault},
    (unaryNumericResult opcode a = .error e ∨ binaryNumericResult opcode a b = .error e) →
      e = .scriptError .invalidNumberRange64Bit ∨ e = .scriptError .divByZero ∨
        e = .scriptError .modByZero

theorem rangeChecked_eq_error {r : ℤ} {e : EvalFault} (h : rangeChecked r = .error e) :
    e = .scriptError .invalidNumberRange64Bit := by
  unfold rangeChecked at h
  split_ifs at h
  · simp at h
  · simp only [Except.throw_eq_error, Except.error.injEq] at h
    exact h.symm

theorem numeric_results_valid (env : EvalEnv) (h64 : env.integers64Bit = true) :
    NumericResultsValid env where
  pushes := runOpcode_pushes_scriptNum env
  operand h := h.scriptNum_eq h64
  unary hop hs ha := evalUnaryNumeric_eq env hop hs ha
  binary hop hs ha hb := evalBinaryNumeric_eq env hop hs ha hb
  fails := by
    rintro opcode a b e (h | h)
    · exact .inl (rangeChecked_eq_error h)
    · unfold binaryNumericResult at h
      split_ifs at h
      · simp only [Except.throw_eq_error, Except.error.injEq] at h
        exact .inr (.inl h.symm)
      · simp only [Except.throw_eq_error, Except.error.injEq] at h
        exact .inr (.inr h.symm)
      · exact .inl (rangeChecked_eq_error h)

/-- The environment of a script evaluated with `SCRIPT_64_BIT_INTEGERS` alone. -/
def integers64BitEnv : EvalEnv := { (default : EvalEnv) with flags := script64BitIntegers }

/-- `numeric_results_valid` under the flag `SCRIPT_64_BIT_INTEGERS`. -/
theorem numeric_results_valid_64 :
    integers64BitEnv.integers64Bit = true ∧ NumericResultsValid integers64BitEnv :=
  ⟨by decide, numeric_results_valid integers64BitEnv (by decide)⟩

end BitcoinCash
