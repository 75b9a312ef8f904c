import BitcoinCash.Script.Safety

/-!
# `VerifyScript`

`VerifyScript` (`script/interpreter.cpp`) evaluates the scriptSig from an empty stack, the
scriptPubKey on the stack it leaves and, for a P2SH output, the redeem script on a copy of that
stack; it then checks `CLEANSTACK` and bounds the signature checks of the input by the size of
its scriptSig, `int(scriptSig.size()) < metrics.nSigChecks * 43 - 60`.

The `static_assert`s before that comparison rely on each evaluation adding at most
`MAX_OPS_PER_SCRIPT` signature checks. That follows from the counters every iteration of the loop
keeps (`Counters`): a call of `EvalScript` adds at most the opcodes it counted, and counts at most
`MAX_OPS_PER_SCRIPT`.
-/

namespace BitcoinCash

/-! ### The model -/

/-- An `int` result: undefined when it leaves `int`. -/
def intResult (x : ℤ) : Except EvalFault ℤ :=
  if intMin ≤ x ∧ x ≤ intMax then pure x else throw (.undefined .signedOverflow)

/-- The flags `VerifyScript` evaluates with: with `SIGHASH_FORKID` enabled it also ensures strict
encoding. -/
def verifyEnv (flags : UInt32) (checker : BaseSignatureChecker)
    (context : Option ScriptExecutionContext) (crypto : Crypto) : EvalEnv where
  flags := if hasFlag flags scriptEnableSighashForkid then flags ||| scriptVerifyStrictenc
    else flags
  checker
  context
  crypto

/-- `if (stack.empty()) …; if (CastToBool(stack.back()) == false) …`: the top of the stack is
true. -/
def checkEvalTrue : List ValType → Except EvalFault Unit
  | [] => throw (.scriptError .evalFalse)
  | top :: _ => if castToBool top = false then throw (.scriptError .evalFalse) else pure ()

/-- The P2SH part of `VerifyScript`, from the copy of the stack the scriptSig left: pop the redeem
script and evaluate it on the rest. Its first component is the stack the final checks read,
`none` when a P2SH segwit program bails out early with success. -/
def evalRedeemScript (env : EvalEnv) (scriptSig : List UInt8) (stackCopy : List ValType)
    (metrics : ScriptExecutionMetrics) :
    Except EvalFault (Option (List ValType) × ScriptExecutionMetrics) :=
  if !isPushOnly scriptSig then throw (.scriptError .sigPushonly)
  else
    -- `swap(stack, stackCopy)`, then `assert(!stack.empty())`
    match stackCopy with
    | [] => throw .assertFailed
    | pubKeySerialized :: stack =>
      if !hasFlag env.flags scriptDisallowSegwitRecovery && stack.isEmpty &&
          isWitnessProgram pubKeySerialized then pure (none, metrics)
      else do
        let (stack, metrics) ← evalScript env stack pubKeySerialized metrics
        checkEvalTrue stack
        pure (some stack, metrics)

/-- The evaluations of `VerifyScript` and the checks between them, from empty metrics: the
stack the final checks read (`none` after an early success) and the metrics. -/
def evalScripts (env : EvalEnv) (scriptSig scriptPubKey : List UInt8) :
    Except EvalFault (Option (List ValType) × ScriptExecutionMetrics) := do
  let (stack, metrics) ← evalScript env [] scriptSig {}
  let stackCopy := if hasFlag env.flags scriptVerifyP2sh then stack else []
  let (stack, metrics) ← evalScript env stack scriptPubKey metrics
  checkEvalTrue stack
  if hasFlag env.flags scriptVerifyP2sh && isPayToScriptHash scriptPubKey then
    evalRedeemScript env scriptSig stackCopy metrics
  else pure (some stack, metrics)

/-- The `CLEANSTACK` check: exactly one element is left; the flag without `P2SH` fails the
`assert`. -/
def checkCleanStack (flags : UInt32) (stack : List ValType) : Except EvalFault Unit :=
  if !hasFlag flags scriptVerifyCleanstack then pure ()
  else if !hasFlag flags scriptVerifyP2sh then throw .assertFailed
  else if stack.length ≠ 1 then throw (.scriptError .cleanstack)
  else pure ()

/-- `metrics.nSigChecks * 43 - 60` on `int`. -/
def sigChecksLimit (nSigChecks : Int32) : Except EvalFault ℤ := do
  let product ← intResult (nSigChecks.toInt * 43)
  intResult (product - 60)

/-- The `INPUT_SIGCHECKS` check; `int(scriptSig.size())` converts modulo `2^32`. -/
def checkInputSigChecks (flags : UInt32) (scriptSig : List UInt8)
    (metrics : ScriptExecutionMetrics) : Except EvalFault Unit :=
  if !hasFlag flags scriptVerifyInputSigchecks then pure ()
  else do
    let limit ← sigChecksLimit metrics.nSigChecks
    if (toIntWrap scriptSig.length).toInt < limit then throw (.scriptError .inputSigchecks)
    else pure ()

/-- `VerifyScript`: the metrics it writes to `metricsOut` on success, or how it fails. -/
def verifyScript (scriptSig scriptPubKey : List UInt8) (flags : UInt32)
    (checker : BaseSignatureChecker) (context : Option ScriptExecutionContext) (crypto : Crypto) :
    Except EvalFault ScriptExecutionMetrics :=
  let env := verifyEnv flags checker context crypto
  if hasFlag env.flags scriptVerifySigpushonly && !isPushOnly scriptSig then
    throw (.scriptError .sigPushonly)
  else do
    let (stack, metrics) ← evalScripts env scriptSig scriptPubKey
    match stack with
    | none => pure metrics
    | some stack =>
      checkCleanStack env.flags stack
      checkInputSigChecks env.flags scriptSig metrics
      pure metrics

/-! ### Signature checks of one evaluation -/

section Counting

variable (env : EvalEnv) {stack stack' : List ValType} {script : List UInt8}
  {metrics metrics' : ScriptExecutionMetrics}

/-- A successful `EvalScript` returns the signature checks of a final state that keeps the
counters of the metrics it started from. -/
theorem evalScript_counters (h : evalScript env stack script metrics = .ok (stack', metrics')) :
    ∃ m, (scriptLoop env).run (initialMachine stack script metrics) script = .ok m ∧
      metrics'.nSigChecks = m.nSigChecks ∧ Counters metrics.nSigChecks m := by
  obtain ⟨m, hrun, -, hr⟩ := evalScript_eq_ok env h
  rw [Prod.mk.injEq] at hr
  exact ⟨m, hrun, by rw [hr.2], reaches_counters env (InputLoop.run_eq_ok hrun)⟩

/-- With room for `MAX_OPS_PER_SCRIPT` more in `int`, a successful `EvalScript` adds between
none and `MAX_OPS_PER_SCRIPT` signature checks. -/
theorem evalScript_nSigChecks_mem (h : evalScript env stack script metrics = .ok (stack', metrics'))
    (hroom : metrics.nSigChecks.toInt + maxOpsPerScript ≤ intMax) :
    metrics.nSigChecks.toInt ≤ metrics'.nSigChecks.toInt ∧
      metrics'.nSigChecks.toInt ≤ metrics.nSigChecks.toInt + maxOpsPerScript := by
  obtain ⟨m, -, heq, hc⟩ := evalScript_counters env h
  have hle := hc.nSigChecks_le
  have hops := hc.nOpCount_le
  rw [heq]
  exact ⟨hc.nSigChecks_ge hroom, by omega⟩

end Counting

/-! ### Signature checks of `VerifyScript` -/

section Verify

variable (env : EvalEnv) {scriptSig scriptPubKey : List UInt8}

/-- The redeem script, from room for `MAX_OPS_PER_SCRIPT` more, adds between none and
`MAX_OPS_PER_SCRIPT` signature checks. -/
theorem evalRedeemScript_nSigChecks_mem {stackCopy : List ValType} {stack? : Option (List ValType)}
    {metrics metrics' : ScriptExecutionMetrics}
    (h : evalRedeemScript env scriptSig stackCopy metrics = .ok (stack?, metrics'))
    (hroom : metrics.nSigChecks.toInt + maxOpsPerScript ≤ intMax) :
    metrics.nSigChecks.toInt ≤ metrics'.nSigChecks.toInt ∧
      metrics'.nSigChecks.toInt ≤ metrics.nSigChecks.toInt + maxOpsPerScript := by
  unfold evalRedeemScript at h
  obtain ⟨-, h⟩ := Except.ite_throw_eq_ok.mp h
  rcases stackCopy with _ | ⟨pubKeySerialized, stack⟩
  · simp at h
  dsimp only at h
  by_cases hbail : (!hasFlag env.flags scriptDisallowSegwitRecovery && stack.isEmpty &&
      isWitnessProgram pubKeySerialized) = true
  · -- the early success keeps the metrics
    rw [if_pos hbail, Except.pure_eq_ok, Except.ok.injEq, Prod.mk.injEq] at h
    rw [← h.2]
    exact ⟨le_rfl, by omega⟩
  · rw [if_neg hbail] at h
    obtain ⟨⟨stack', metrics''⟩, heval, h⟩ := Except.bind_eq_ok.mp h
    obtain ⟨-, -, h⟩ := Except.bind_eq_ok.mp h
    rw [Except.pure_eq_ok, Except.ok.injEq, Prod.mk.injEq] at h
    rw [← h.2]
    exact evalScript_nSigChecks_mem env heval hroom

/-- After the evaluations of `VerifyScript`, at most three of `MAX_OPS_PER_SCRIPT` signature
checks each: `0 ≤ nSigChecks ≤ 3 * MAX_OPS_PER_SCRIPT`. -/
theorem evalScripts_nSigChecks {stack? : Option (List ValType)} {metrics : ScriptExecutionMetrics}
    (h : evalScripts env scriptSig scriptPubKey = .ok (stack?, metrics)) :
    0 ≤ metrics.nSigChecks.toInt ∧ metrics.nSigChecks.toInt ≤ 3 * maxOpsPerScript := by
  unfold evalScripts at h
  obtain ⟨⟨stack₁, metrics₁⟩, h₁, h⟩ := Except.bind_eq_ok.mp h
  obtain ⟨⟨stack₂, metrics₂⟩, h₂, h⟩ := Except.bind_eq_ok.mp h
  obtain ⟨-, -, h⟩ := Except.bind_eq_ok.mp h
  -- each evaluation starts below `2 * MAX_OPS_PER_SCRIPT`, far from `INT_MAX`
  have hmax : (3 * maxOpsPerScript : ℤ) ≤ intMax := by
    simp [maxOpsPerScript, intMax]
  have hb₁ := evalScript_nSigChecks_mem env h₁ (by simp; omega)
  simp only [Int32.toInt_zero] at hb₁
  have hb₂ := evalScript_nSigChecks_mem env h₂ (by omega)
  by_cases hp2sh : (hasFlag env.flags scriptVerifyP2sh && isPayToScriptHash scriptPubKey) = true
  · rw [if_pos hp2sh] at h
    have hb₃ := evalRedeemScript_nSigChecks_mem env h (by omega)
    omega
  · rw [if_neg hp2sh, Except.pure_eq_ok, Except.ok.injEq, Prod.mk.injEq] at h
    rw [← h.2]
    omega

theorem intResult_of_mem {x : ℤ} (hmin : intMin ≤ x) (hmax : x ≤ intMax) :
    intResult x = .ok x := by
  simp [intResult, hmin, hmax]

/-- Below `3 * MAX_OPS_PER_SCRIPT` the limit of `INPUT_SIGCHECKS` is computed without
overflow: this is the `static_assert(INT_MAX / 43 / 3 > MAX_OPS_PER_SCRIPT)`. -/
theorem sigChecksLimit_of_le {nSigChecks : Int32} (h₀ : 0 ≤ nSigChecks.toInt)
    (h : nSigChecks.toInt ≤ 3 * maxOpsPerScript) :
    sigChecksLimit nSigChecks = .ok (nSigChecks.toInt * 43 - 60) := by
  unfold maxOpsPerScript at h
  unfold sigChecksLimit
  rw [intResult_of_mem (by unfold intMin; omega) (by unfold intMax; omega), Except.bind_ok',
    intResult_of_mem (by unfold intMin; omega) (by unfold intMax; omega)]

theorem checkCleanStack_eq_error {flags : UInt32} {stack : List ValType} {e : EvalFault}
    (h : checkCleanStack flags stack = .error e) :
    e = .assertFailed ∨ e = .scriptError .cleanstack := by
  unfold checkCleanStack at h
  split_ifs at h
  · simp at h
  · simp_all
  · simp_all
  · simp at h

/-- Below `3 * MAX_OPS_PER_SCRIPT` the `INPUT_SIGCHECKS` check fails only with its own error. -/
theorem checkInputSigChecks_eq_error {flags : UInt32} {metrics : ScriptExecutionMetrics}
    {e : EvalFault} (h₀ : 0 ≤ metrics.nSigChecks.toInt)
    (hle : metrics.nSigChecks.toInt ≤ 3 * maxOpsPerScript)
    (h : checkInputSigChecks flags scriptSig metrics = .error e) :
    e = .scriptError .inputSigchecks := by
  unfold checkInputSigChecks at h
  rw [sigChecksLimit_of_le h₀ hle, Except.bind_ok'] at h
  split_ifs at h
  · simp at h
  · simpa using h.symm
  · simp at h

/-- A successful `VerifyScript` returns the metrics of its evaluations. -/
theorem verifyScript_eq_ok {flags : UInt32} {checker : BaseSignatureChecker}
    {context : Option ScriptExecutionContext} {crypto : Crypto} {metrics : ScriptExecutionMetrics}
    (h : verifyScript scriptSig scriptPubKey flags checker context crypto = .ok metrics) :
    ∃ stack?, evalScripts (verifyEnv flags checker context crypto) scriptSig scriptPubKey =
      .ok (stack?, metrics) := by
  unfold verifyScript at h
  obtain ⟨-, h⟩ := Except.ite_throw_eq_ok.mp h
  obtain ⟨⟨stack?, metrics'⟩, hev, h⟩ := Except.bind_eq_ok.mp h
  -- every way through the final checks returns the metrics unchanged
  have hmetrics : metrics' = metrics := by
    rcases stack? with _ | stack
    · simpa using h
    · obtain ⟨-, -, h⟩ := Except.bind_eq_ok.mp h
      obtain ⟨-, -, h⟩ := Except.bind_eq_ok.mp h
      simpa using h
  exact ⟨stack?, hmetrics ▸ hev⟩

/-- The `INPUT_SIGCHECKS` expression cannot overflow: a signed overflow of `VerifyScript` is one
of its evaluations. -/
theorem verifyScript_overflow_of_evalScripts {flags : UInt32} {checker : BaseSignatureChecker}
    {context : Option ScriptExecutionContext} {crypto : Crypto}
    (h : verifyScript scriptSig scriptPubKey flags checker context crypto =
      .error (.undefined .signedOverflow)) :
    evalScripts (verifyEnv flags checker context crypto) scriptSig scriptPubKey =
      .error (.undefined .signedOverflow) := by
  unfold verifyScript at h
  dsimp only at h
  split_ifs at h
  · simp at h
  rcases hev : evalScripts (verifyEnv flags checker context crypto) scriptSig scriptPubKey with
    e | ⟨stack?, metrics⟩
  · rw [hev] at h
    simpa using h
  rw [hev, Except.bind_ok'] at h
  obtain ⟨h₀, hle⟩ := evalScripts_nSigChecks _ hev
  rcases stack? with _ | stack
  · simp at h
  -- the final checks fail with errors of their own
  rcases Except.bind_eq_error.mp h with hc | ⟨_, -, h⟩
  · rcases checkCleanStack_eq_error hc with hc | hc <;> simp at hc
  rcases Except.bind_eq_error.mp h with hc | ⟨_, -, h⟩
  · simpa using checkInputSigChecks_eq_error h₀ hle hc
  · simp at h

end Verify

/-- Signature checks are bounded by the opcode budget: a successful `EvalScript` adds at most the
opcodes its loop counted, at most `MAX_OPS_PER_SCRIPT`; a successful `VerifyScript` ends with
`0 ≤ nSigChecks ≤ 3 * MAX_OPS_PER_SCRIPT`; and a signed overflow of `VerifyScript` comes from its
evaluations, never from `nSigChecks * 43 - 60`. -/
theorem verifyScript_nSigChecks_le :
    (∀ (env : EvalEnv) (stack stack' : List ValType) (script : List UInt8)
      (metrics metrics' : ScriptExecutionMetrics),
      evalScript env stack script metrics = .ok (stack', metrics') →
        ∃ m, (scriptLoop env).run (initialMachine stack script metrics) script = .ok m ∧
          metrics'.nSigChecks = m.nSigChecks ∧
          metrics'.nSigChecks.toInt ≤ metrics.nSigChecks.toInt + m.nOpCount ∧
          m.nOpCount ≤ maxOpsPerScript) ∧
    ∀ (scriptSig scriptPubKey : List UInt8) (flags : UInt32) (checker : BaseSignatureChecker)
      (context : Option ScriptExecutionContext) (crypto : Crypto),
      (∀ metrics, verifyScript scriptSig scriptPubKey flags checker context crypto = .ok metrics →
        0 ≤ metrics.nSigChecks.toInt ∧ metrics.nSigChecks.toInt ≤ 3 * maxOpsPerScript) ∧
      (verifyScript scriptSig scriptPubKey flags checker context crypto =
          .error (.undefined .signedOverflow) →
        evalScripts (verifyEnv flags checker context crypto) scriptSig scriptPubKey =
          .error (.undefined .signedOverflow)) := by
  refine ⟨fun env _ _ _ _ _ h => ?_, fun _ _ _ _ _ _ => ⟨fun _ h => ?_,
    verifyScript_overflow_of_evalScripts⟩⟩
  · obtain ⟨m, hrun, heq, hc⟩ := evalScript_counters env h
    exact ⟨m, hrun, heq, heq ▸ hc.nSigChecks_le, hc.nOpCount_le⟩
  · obtain ⟨_, hev⟩ := verifyScript_eq_ok h
    exact evalScripts_nSigChecks _ hev

/-- `OP_1` evaluated alone, and verified as the locking script of an empty unlocking script. -/
theorem verifyScript_nSigChecks_le_one :
    (∃ stack' metrics', evalScript default [] [0x51] {} = .ok (stack', metrics') ∧
      ∃ m, (scriptLoop default).run (initialMachine [] [0x51] {}) [0x51] = .ok m ∧
        metrics'.nSigChecks = m.nSigChecks ∧
        metrics'.nSigChecks.toInt ≤ ({} : ScriptExecutionMetrics).nSigChecks.toInt + m.nOpCount ∧
        m.nOpCount ≤ maxOpsPerScript) ∧
    ∃ metrics, verifyScript [] [0x51] 0 default none default = .ok metrics ∧
      0 ≤ metrics.nSigChecks.toInt ∧ metrics.nSigChecks.toInt ≤ 3 * maxOpsPerScript := by
  obtain ⟨⟨stack', metrics'⟩, heval⟩ :=
    Except.exists_eq_ok_of_isOk (show (evalScript default [] [0x51] {}).isOk = true by decide +kernel)
  obtain ⟨metrics, hverify⟩ :=
    Except.exists_eq_ok_of_isOk (show (verifyScript [] [0x51] 0 default none default).isOk = true by decide +kernel)
  exact ⟨⟨stack', metrics', heval, verifyScript_nSigChecks_le.1 _ _ _ _ _ _ heval⟩,
    metrics, hverify, (verifyScript_nSigChecks_le.2 _ _ _ _ _ _).1 _ hverify⟩

end BitcoinCash
