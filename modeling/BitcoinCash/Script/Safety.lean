import BitcoinCash.Script.Bounds

/-!
# Memory safety and the bounds of `EvalScript`

Every `case` of the `switch` of `EvalScript` checks the size of the stack before it reads, and
the reads, writes, `erase`s and `insert`s it then makes are at offsets the check covers. This
file proves it, opcode by opcode: each body `Keeps` the bounds of `Script.Bounds` and raises no
memory fault. The lemmas follow the bodies: the stack is split into the elements the size check
guarantees, and the accesses are evaluated on them.

`execute_keeps` collects the bodies, `runOpcode_keeps` adds the decoding and the opcode count,
and `Invariant` is what holds at every iteration of the loop: the elements fit, the stacks hold
at most `MAX_STACK_SIZE` elements, at most `MAX_OPS_PER_SCRIPT` opcodes were counted, the
signature checks grew by at most that count, and the code start and the position lie in the
script.
-/

namespace BitcoinCash

open CScriptNum

/-! ### The opcodes one by one -/

section Handlers

variable (env : EvalEnv) {pc : List UInt8}

/-- A body that changes only the condition stack. -/
theorem keeps_vfExec {cost : ℕ} {m : Machine} (c : ConditionStack) :
    Keeps cost pc m { m with vfExec := c } :=
  .of_stacks id (by simp [Machine.depth]) rfl rfl rfl

/-- `keeps_stack` on a stack split as the size check allows. -/
theorem keeps_stack_of_eq {cost : ℕ} {m : Machine} {l s : List ValType} (hs : m.stack = l)
    (hfit : (∀ v ∈ l, Fits v) → ∀ v ∈ s, Fits v) (hlen : s.length ≤ l.length + 3) :
    Keeps cost pc m { m with stack := s } := by
  subst hs
  exact keeps_stack hfit hlen

theorem evalPushValue_keeps (opcode : UInt8) (m : Machine) :
    KeepsResult 0 pc m (evalPushValue opcode m) := by
  simp only [evalPushValue, Except.pure_eq_ok, keepsResult_ok]
  exact keeps_stack (fun h => List.forall_mem_cons.mpr ⟨fits_serialize _, h⟩) (by simp)

theorem evalCheckLockTimeVerify_keeps (m : Machine) :
    KeepsResult 0 pc m (evalCheckLockTimeVerify env m) := by
  unfold evalCheckLockTimeVerify
  split_ifs with hflag hlen
  · simp
  · simp
  rcases hs : m.stack with _ | ⟨top, s⟩ <;> simp [hs] at hlen
  simp only [stacktop_cons_neg_one, Except.bind_ok']
  refine keepsResult_bind (noMemoryFault_scriptNum _ _ _) fun n _ => ?_
  split_ifs <;> simp

theorem evalCheckSequenceVerify_keeps (m : Machine) :
    KeepsResult 0 pc m (evalCheckSequenceVerify env m) := by
  unfold evalCheckSequenceVerify
  split_ifs with hflag hlen
  · simp
  · simp
  rcases hs : m.stack with _ | ⟨top, s⟩ <;> simp [hs] at hlen
  simp only [stacktop_cons_neg_one, Except.bind_ok']
  refine keepsResult_bind (noMemoryFault_scriptNum _ _ _) fun n _ => ?_
  split_ifs
  · simp
  all_goals
    split
    · simp
    · split_ifs <;> simp

theorem evalUpgradableNop_keeps (m : Machine) : KeepsResult 0 pc m (evalUpgradableNop env m) := by
  unfold evalUpgradableNop
  split_ifs <;> simp

theorem evalIf_keeps (opcode : UInt8) (fExec : Bool) (m : Machine) :
    KeepsResult 0 pc m (evalIf env opcode fExec m) := by
  unfold evalIf
  by_cases hexec : fExec = true
  · rw [if_pos hexec]
    by_cases hlen : m.stack.length < 1
    · rw [if_pos hlen]
      simp
    rw [if_neg hlen]
    rcases hs : m.stack with _ | ⟨top, s⟩ <;> simp [hs] at hlen
    simp only [stacktop_cons_neg_one, Except.bind_ok']
    -- `MINIMALIF` refuses the condition, or it is popped whatever the opcode
    split_ifs
    · simp
    all_goals
      simp only [popstack_cons, Except.bind_ok', Except.pure_eq_ok, keepsResult_ok]
      refine .of_stacks (fun h => by simp_all [Machine.ElementsFit]) ?_ rfl rfl rfl
      simp only [Machine.depth, hs, List.length_cons]
      omega
  · -- a branch that does not execute pushes a false condition
    rw [if_neg hexec]
    simp only [Except.pure_eq_ok, keepsResult_ok]
    exact keeps_vfExec _

theorem evalElse_keeps (m : Machine) : KeepsResult 0 pc m (evalElse m) := by
  unfold evalElse
  split_ifs
  · simp
  · simp only [Except.pure_eq_ok, keepsResult_ok]
    exact keeps_vfExec _

theorem evalEndIf_keeps (m : Machine) : KeepsResult 0 pc m (evalEndIf m) := by
  unfold evalEndIf
  split_ifs
  · simp
  · simp only [Except.pure_eq_ok, keepsResult_ok]
    exact keeps_vfExec _

theorem evalVerify_keeps (m : Machine) : KeepsResult 0 pc m (evalVerify m) := by
  unfold evalVerify
  refine keepsResult_ite_throw fun hlen => ?_
  rcases hs : m.stack with _ | ⟨top, s⟩ <;> simp [hs] at hlen
  simp only [stacktop_cons_neg_one, Except.bind_ok']
  split_ifs
  · simp only [popstack_cons, Except.bind_ok', Except.pure_eq_ok, keepsResult_ok]
    exact keeps_stack_of_eq hs (fun h => by simp_all) (by simp +arith)
  · simp

theorem evalToAltStack_keeps (m : Machine) : KeepsResult 0 pc m (evalToAltStack m) := by
  unfold evalToAltStack
  refine keepsResult_ite_throw fun hlen => ?_
  rcases hs : m.stack with _ | ⟨top, s⟩ <;> simp [hs] at hlen
  simp only [stacktop_cons_neg_one, popstack_cons, Except.bind_ok', Except.pure_eq_ok,
    keepsResult_ok]
  refine .of_stacks (fun h => by simp_all [Machine.ElementsFit]) ?_ rfl rfl rfl
  simp only [Machine.depth, hs, List.length_cons]
  omega

theorem evalFromAltStack_keeps (m : Machine) : KeepsResult 0 pc m (evalFromAltStack m) := by
  unfold evalFromAltStack
  refine keepsResult_ite_throw fun hlen => ?_
  rcases hs : m.altstack with _ | ⟨top, s⟩ <;> simp [hs] at hlen
  simp only [stacktop_cons_neg_one, popstack_cons, Except.bind_ok', Except.pure_eq_ok,
    keepsResult_ok]
  refine .of_stacks (fun h => by simp_all [Machine.ElementsFit]) ?_ rfl rfl rfl
  simp only [Machine.depth, hs, List.length_cons]
  omega

theorem eval2Drop_keeps (m : Machine) : KeepsResult 0 pc m (eval2Drop m) := by
  unfold eval2Drop
  refine keepsResult_ite_throw fun hlen => ?_
  rcases hs : m.stack with _ | ⟨a, _ | ⟨b, s⟩⟩ <;> simp [hs] at hlen
  simp only [popstack_cons, Except.bind_ok', Except.pure_eq_ok, keepsResult_ok]
  exact keeps_stack_of_eq hs (fun h => by simp_all) (by simp +arith)

theorem eval2Dup_keeps (m : Machine) : KeepsResult 0 pc m (eval2Dup m) := by
  unfold eval2Dup
  refine keepsResult_ite_throw fun hlen => ?_
  rcases hs : m.stack with _ | ⟨a, _ | ⟨b, s⟩⟩ <;> simp [hs] at hlen
  simp
  exact keeps_stack_of_eq hs (fun h => by simp_all) (by simp +arith)

theorem eval3Dup_keeps (m : Machine) : KeepsResult 0 pc m (eval3Dup m) := by
  unfold eval3Dup
  refine keepsResult_ite_throw fun hlen => ?_
  rcases hs : m.stack with _ | ⟨a, _ | ⟨b, _ | ⟨c, s⟩⟩⟩ <;> simp [hs] at hlen
  simp
  exact keeps_stack_of_eq hs (fun h => by simp_all) (by simp +arith)

theorem eval2Over_keeps (m : Machine) : KeepsResult 0 pc m (eval2Over m) := by
  unfold eval2Over
  refine keepsResult_ite_throw fun hlen => ?_
  rcases hs : m.stack with _ | ⟨a, _ | ⟨b, _ | ⟨c, _ | ⟨d, s⟩⟩⟩⟩ <;> simp [hs] at hlen
  simp
  exact keeps_stack_of_eq hs (fun h => by simp_all) (by simp +arith)

/-- `OP_2ROT` erases the fifth and sixth elements and pushes them back on top. -/
theorem eval2Rot_keeps (m : Machine) : KeepsResult 0 pc m (eval2Rot m) := by
  unfold eval2Rot
  refine keepsResult_ite_throw fun hlen => ?_
  rcases hs : m.stack with _ | ⟨a, _ | ⟨b, _ | ⟨c, _ | ⟨d, _ | ⟨e, _ | ⟨f, s⟩⟩⟩⟩⟩⟩ <;>
    simp [hs] at hlen
  simp [eraseRange]
  exact keeps_stack_of_eq hs (fun h => by simp_all) (by simp +arith)

theorem eval2Swap_keeps (m : Machine) : KeepsResult 0 pc m (eval2Swap m) := by
  unfold eval2Swap
  refine keepsResult_ite_throw fun hlen => ?_
  rcases hs : m.stack with _ | ⟨a, _ | ⟨b, _ | ⟨c, _ | ⟨d, s⟩⟩⟩⟩ <;> simp [hs] at hlen
  simp [swapStacktop]
  exact keeps_stack_of_eq hs (fun h => by simp_all) (by simp +arith)

theorem evalIfDup_keeps (m : Machine) : KeepsResult 0 pc m (evalIfDup m) := by
  unfold evalIfDup
  refine keepsResult_ite_throw fun hlen => ?_
  rcases hs : m.stack with _ | ⟨top, s⟩ <;> simp [hs] at hlen
  simp only [stacktop_cons_neg_one, Except.bind_ok']
  split_ifs
  · simp only [Except.pure_eq_ok, keepsResult_ok]
    exact keeps_stack_of_eq hs (fun h => by simp_all) (by simp +arith)
  · simp

theorem evalDepth_keeps (m : Machine) : KeepsResult 0 pc m (evalDepth m) := by
  simp only [evalDepth, Except.pure_eq_ok, keepsResult_ok]
  exact keeps_stack (fun h => List.forall_mem_cons.mpr ⟨fits_serialize _, h⟩) (by simp)

theorem evalDrop_keeps (m : Machine) : KeepsResult 0 pc m (evalDrop m) := by
  unfold evalDrop
  refine keepsResult_ite_throw fun hlen => ?_
  rcases hs : m.stack with _ | ⟨top, s⟩ <;> simp [hs] at hlen
  simp only [popstack_cons, Except.bind_ok', Except.pure_eq_ok, keepsResult_ok]
  exact keeps_stack_of_eq hs (fun h => by simp_all) (by simp +arith)

theorem evalDup_keeps (m : Machine) : KeepsResult 0 pc m (evalDup m) := by
  unfold evalDup
  refine keepsResult_ite_throw fun hlen => ?_
  rcases hs : m.stack with _ | ⟨top, s⟩ <;> simp [hs] at hlen
  simp only [stacktop_cons_neg_one, Except.bind_ok', Except.pure_eq_ok, keepsResult_ok]
  exact keeps_stack_of_eq hs (fun h => by simp_all) (by simp +arith)

/-- `OP_NIP` erases the second element. -/
theorem evalNip_keeps (m : Machine) : KeepsResult 0 pc m (evalNip m) := by
  unfold evalNip
  refine keepsResult_ite_throw fun hlen => ?_
  rcases hs : m.stack with _ | ⟨a, _ | ⟨b, s⟩⟩ <;> simp [hs] at hlen
  simp [eraseAt]
  exact keeps_stack_of_eq hs (fun h => by simp_all) (by simp +arith)

theorem evalOver_keeps (m : Machine) : KeepsResult 0 pc m (evalOver m) := by
  unfold evalOver
  refine keepsResult_ite_throw fun hlen => ?_
  rcases hs : m.stack with _ | ⟨a, _ | ⟨b, s⟩⟩ <;> simp [hs] at hlen
  simp
  exact keeps_stack_of_eq hs (fun h => by simp_all) (by simp +arith)

/-- `OP_PICK` and `OP_ROLL` take any 64-bit `n`, and read and erase only after checking
`0 ≤ n < stack.size()` on the stack without `n`. -/
theorem evalPickRoll_keeps (opcode : UInt8) (m : Machine) :
    KeepsResult 0 pc m (evalPickRoll env opcode m) := by
  unfold evalPickRoll
  refine keepsResult_ite_throw fun hlen => ?_
  rcases hs : m.stack with _ | ⟨top, s⟩ <;> simp [hs] at hlen
  simp only [stacktop_cons_neg_one, popstack_cons, Except.bind_ok']
  refine keepsResult_bind (noMemoryFault_scriptNum _ _ _) fun n _ => ?_
  by_cases hn : n < 0 ∨ n.toNat ≥ s.length
  · rw [if_pos hn]
    simp
  rw [if_neg hn]
  have hk : n.toNat < s.length := by omega
  have hidx : -n - 1 = -(n.toNat : ℤ) - 1 := by omega
  have hmem : s[n.toNat] ∈ top :: s := List.mem_cons_of_mem _ (List.getElem_mem hk)
  rw [hidx, stacktop_of_lt hk, Except.bind_ok']
  split_ifs
  · -- `OP_ROLL` erases the element it copies
    rw [eraseAt_of_le (by omega) (by omega), Except.bind_ok']
    simp only [Nat.add_sub_cancel, Except.pure_eq_ok, keepsResult_ok]
    refine keeps_stack (fun h => List.forall_mem_cons.mpr ⟨h _ (hs ▸ hmem), fun v hv =>
      h v (hs ▸ List.mem_cons_of_mem _ (List.mem_of_mem_eraseIdx hv))⟩) ?_
    simp only [hs, List.length_cons, List.length_eraseIdx_of_lt hk]
    omega
  · simp only [Except.pure_eq_ok, Except.bind_ok', keepsResult_ok]
    refine keeps_stack (fun h => List.forall_mem_cons.mpr ⟨h _ (hs ▸ hmem), fun v hv =>
      h v (hs ▸ List.mem_cons_of_mem _ hv)⟩) ?_
    simp only [hs, List.length_cons]
    omega

theorem evalRot_keeps (m : Machine) : KeepsResult 0 pc m (evalRot m) := by
  unfold evalRot
  refine keepsResult_ite_throw fun hlen => ?_
  rcases hs : m.stack with _ | ⟨a, _ | ⟨b, _ | ⟨c, s⟩⟩⟩ <;> simp [hs] at hlen
  simp [swapStacktop]
  exact keeps_stack_of_eq hs (fun h => by simp_all) (by simp +arith)

theorem evalSwap_keeps (m : Machine) : KeepsResult 0 pc m (evalSwap m) := by
  unfold evalSwap
  refine keepsResult_ite_throw fun hlen => ?_
  rcases hs : m.stack with _ | ⟨a, _ | ⟨b, s⟩⟩ <;> simp [hs] at hlen
  simp [swapStacktop]
  exact keeps_stack_of_eq hs (fun h => by simp_all) (by simp +arith)

/-- `OP_TUCK` inserts a copy of the top below the second element. -/
theorem evalTuck_keeps (m : Machine) : KeepsResult 0 pc m (evalTuck m) := by
  unfold evalTuck
  refine keepsResult_ite_throw fun hlen => ?_
  rcases hs : m.stack with _ | ⟨a, _ | ⟨b, s⟩⟩ <;> simp [hs] at hlen
  simp [insertAt]
  exact keeps_stack_of_eq hs (fun h => by simp_all) (by simp +arith)

theorem evalSize_keeps (m : Machine) : KeepsResult 0 pc m (evalSize m) := by
  unfold evalSize
  refine keepsResult_ite_throw fun hlen => ?_
  rcases hs : m.stack with _ | ⟨top, s⟩ <;> simp [hs] at hlen
  simp only [stacktop_cons_neg_one, Except.bind_ok', Except.pure_eq_ok, keepsResult_ok]
  exact keeps_stack (fun h => List.forall_mem_cons.mpr ⟨fits_serialize _, hs ▸ h⟩)
    (by simp only [hs, List.length_cons]; omega)

theorem noMemoryFault_unaryNumericOp (opcode : UInt8) (bn : ℤ) :
    NoMemoryFault (unaryNumericOp opcode bn) := by
  unfold unaryNumericOp
  split <;> (try split) <;> simp

theorem noMemoryFault_binaryNumericOp (opcode : UInt8) (bn1 bn2 : ℤ) :
    NoMemoryFault (binaryNumericOp opcode bn1 bn2) := by
  unfold binaryNumericOp
  split <;> (try split) <;> simp

theorem fits_zipWith (f : UInt8 → UInt8 → UInt8) {a b : ValType} (ha : Fits a) :
    Fits (List.zipWith f a b) := by
  unfold Fits at *
  rw [List.length_zipWith]
  omega

/-- What a result pushed after the operands are popped keeps: the pushed boolean fits, the
opcodes counted are the `k` keys of a multisig, and the signature checks grow by at most `k`
and `cost`. -/
theorem keeps_pushResult {cost : ℕ} (k : ℕ) {m : Machine} {verify : Bool} {e : ScriptError}
    {fSuccess : Bool} {s s' : List ValType} {n : Int32}
    (hpush : pushResult verify e fSuccess s = .ok s')
    (hfit : (∀ v ∈ m.stack, Fits v) → ∀ v ∈ s, Fits v) (hlen : s.length + 1 ≤ m.stack.length + 3)
    (hops : k = 0 ∨ m.nOpCount + k ≤ maxOpsPerScript)
    (hle : n.toInt ≤ m.nSigChecks.toInt + k + cost)
    (hge : m.nSigChecks.toInt + k ≤ intMax → m.nSigChecks.toInt ≤ n.toInt) :
    Keeps cost pc m { m with stack := s', nOpCount := m.nOpCount + k, nSigChecks := n } where
  elementsFit h := by
    refine ⟨fun v hv => ?_, h.2⟩
    rcases pushResult_eq_ok hpush with rfl | rfl
    · exact hfit h.1 v hv
    · rcases List.mem_cons.mp hv with rfl | hv
      · exact fits_vchBool _
      · exact hfit h.1 v hv
  depth_le := by
    have : s'.length ≤ s.length + 1 := by rcases pushResult_eq_ok hpush with rfl | rfl <;> simp
    simp only [Machine.depth]
    omega
  nOpCount := by
    rcases hops with rfl | hops
    · exact .inl rfl
    · exact .inr ⟨Nat.le_add_right _ _, hops⟩
  nSigChecks_le := by simpa using hle
  nSigChecks_ge := by simpa using hge
  pbegincodehash := .inl rfl

/-- `OP_AND`, `OP_OR`, `OP_XOR` combine the two top elements into the lower one, in place. -/
theorem evalBitwise_keeps (opcode : UInt8) (m : Machine) :
    KeepsResult 0 pc m (evalBitwise opcode m) := by
  unfold evalBitwise
  refine keepsResult_ite_throw fun hlen => ?_
  rcases hs : m.stack with _ | ⟨a, _ | ⟨b, s⟩⟩ <;> simp [hs] at hlen
  simp only [stacktop_cons_neg_one, stacktop_cons_of_lt, Int.reduceLT, Int.reduceAdd,
    Int.reduceNeg, Except.bind_ok']
  refine keepsResult_ite_throw fun _ => ?_
  simp only [setStacktop_cons_of_lt, setStacktop_cons_neg_one, Int.reduceLT, Int.reduceAdd,
    Int.reduceNeg, Except.map_ok', Except.bind_ok', popstack_cons, Except.pure_eq_ok,
    keepsResult_ok]
  exact keeps_stack_of_eq hs (fun h => by simp_all [fits_zipWith])
    (by simp +arith)

theorem evalEqual_keeps (opcode : UInt8) (m : Machine) :
    KeepsResult 0 pc m (evalEqual opcode m) := by
  unfold evalEqual
  refine keepsResult_ite_throw fun hlen => ?_
  rcases hs : m.stack with _ | ⟨a, _ | ⟨b, s⟩⟩ <;> simp [hs] at hlen
  simp only [stacktop_cons_neg_one, stacktop_cons_of_lt, Int.reduceLT, Int.reduceAdd,
    Int.reduceNeg, popstack_cons, Except.bind_ok']
  refine keepsResult_bind (noMemoryFault_pushResult _ _ _ _) fun s' hs' => ?_
  simp only [Except.pure_eq_ok, keepsResult_ok]
  exact keeps_pushResult 0 hs' (fun h => by simp_all)
    (by simp only [hs, List.length_cons]; omega) (.inl rfl) (by simp) (fun _ => le_rfl)

theorem evalUnaryNumeric_keeps (opcode : UInt8) (m : Machine) :
    KeepsResult 0 pc m (evalUnaryNumeric env opcode m) := by
  unfold evalUnaryNumeric
  refine keepsResult_ite_throw fun hlen => ?_
  rcases hs : m.stack with _ | ⟨a, s⟩ <;> simp [hs] at hlen
  simp only [stacktop_cons_neg_one, popstack_cons, Except.bind_ok']
  refine keepsResult_bind (noMemoryFault_scriptNum _ _ _) fun _ _ => ?_
  refine keepsResult_bind (noMemoryFault_unaryNumericOp _ _) fun bn _ => ?_
  simp only [Except.pure_eq_ok, keepsResult_ok]
  exact keeps_stack_of_eq hs (fun h => by simp_all [fits_serialize])
    (by simp +arith)

theorem evalBinaryNumeric_keeps (opcode : UInt8) (m : Machine) :
    KeepsResult 0 pc m (evalBinaryNumeric env opcode m) := by
  unfold evalBinaryNumeric
  refine keepsResult_ite_throw fun hlen => ?_
  rcases hs : m.stack with _ | ⟨a, _ | ⟨b, s⟩⟩ <;> simp [hs] at hlen
  simp only [stacktop_cons_neg_one, stacktop_cons_of_lt, Int.reduceLT, Int.reduceAdd,
    Int.reduceNeg, popstack_cons, Except.bind_ok']
  refine keepsResult_bind (noMemoryFault_scriptNum _ _ _) fun _ _ => ?_
  refine keepsResult_bind (noMemoryFault_scriptNum _ _ _) fun _ _ => ?_
  refine keepsResult_bind (noMemoryFault_binaryNumericOp _ _ _) fun bn _ => ?_
  -- `OP_NUMEQUALVERIFY` pops the result it pushed, or fails
  split_ifs
  · simp only [Except.pure_eq_ok, keepsResult_ok]
    exact keeps_stack_of_eq hs (fun h => by simp_all) (by simp +arith)
  · simp
  · simp only [Except.pure_eq_ok, keepsResult_ok]
    exact keeps_stack_of_eq hs (fun h => by simp_all [fits_serialize])
      (by simp +arith)

theorem evalWithin_keeps (m : Machine) : KeepsResult 0 pc m (evalWithin env m) := by
  unfold evalWithin
  refine keepsResult_ite_throw fun hlen => ?_
  rcases hs : m.stack with _ | ⟨a, _ | ⟨b, _ | ⟨c, s⟩⟩⟩ <;> simp [hs] at hlen
  simp only [stacktop_cons_neg_one, stacktop_cons_of_lt, Int.reduceLT, Int.reduceAdd,
    Int.reduceNeg, popstack_cons, Except.bind_ok']
  refine keepsResult_bind (noMemoryFault_scriptNum _ _ _) fun _ _ => ?_
  refine keepsResult_bind (noMemoryFault_scriptNum _ _ _) fun _ _ => ?_
  refine keepsResult_bind (noMemoryFault_scriptNum _ _ _) fun _ _ => ?_
  simp only [Except.pure_eq_ok, keepsResult_ok]
  exact keeps_stack (fun h => by simp_all [fits_vchBool])
    (by simp only [hs, List.length_cons]; omega)

theorem evalHash_keeps (opcode : UInt8) (m : Machine) :
    KeepsResult 0 pc m (evalHash env opcode m) := by
  unfold evalHash
  refine keepsResult_ite_throw fun hlen => ?_
  rcases hs : m.stack with _ | ⟨a, s⟩ <;> simp [hs] at hlen
  simp only [stacktop_cons_neg_one, popstack_cons, Except.bind_ok', Except.pure_eq_ok,
    keepsResult_ok]
  exact keeps_stack_of_eq hs (fun h => by simp_all [fits_hashOp])
    (by simp +arith)

/-- `OP_CODESEPARATOR` moves the start of the hashed code to the position after it. -/
theorem evalCodeSeparator_keeps (m : Machine) :
    KeepsResult 0 pc m (evalCodeSeparator pc m) := by
  simp only [evalCodeSeparator, Except.pure_eq_ok, keepsResult_ok]
  exact { elementsFit := id, depth_le := by simp [Machine.depth], nOpCount := .inl rfl,
          nSigChecks_le := by simp, nSigChecks_ge := fun _ => le_rfl,
          pbegincodehash := .inr rfl }

/-- `OP_CHECKSIG` makes at most one signature check. -/
theorem evalCheckSig_keeps (opcode : UInt8) (m : Machine) :
    KeepsResult 1 pc m (evalCheckSig env opcode m) := by
  unfold evalCheckSig
  refine keepsResult_ite_throw fun hlen => ?_
  rcases hs : m.stack with _ | ⟨a, _ | ⟨b, s⟩⟩ <;> simp [hs] at hlen
  simp only [stacktop_cons_neg_one, stacktop_cons_of_lt, Int.reduceLT, Int.reduceAdd,
    Int.reduceNeg, popstack_cons, Except.bind_ok']
  refine keepsResult_bind (noMemoryFault_liftScriptError _) fun _ _ => ?_
  refine keepsResult_bind (noMemoryFault_liftScriptError _) fun _ _ => ?_
  refine keepsResult_bind (noMemoryFault_countSigCheck env _ _ _) fun ⟨f, n⟩ hcount => ?_
  refine keepsResult_bind (noMemoryFault_pushResult _ _ _ _) fun s' hs' => ?_
  simp only [Except.pure_eq_ok, keepsResult_ok]
  have hn := countSigCheck_eq_ok env hcount
  exact keeps_pushResult 0 hs' (fun h => by simp_all)
    (by simp only [hs, List.length_cons]; omega) (.inl rfl) (by omega) (fun _ => by omega)

/-- `OP_CHECKDATASIG` makes at most one signature check. -/
theorem evalCheckDataSig_keeps (opcode : UInt8) (m : Machine) :
    KeepsResult 1 pc m (evalCheckDataSig env opcode m) := by
  unfold evalCheckDataSig
  refine keepsResult_ite_throw fun hlen => ?_
  rcases hs : m.stack with _ | ⟨a, _ | ⟨b, _ | ⟨c, s⟩⟩⟩ <;> simp [hs] at hlen
  simp only [stacktop_cons_neg_one, stacktop_cons_of_lt, Int.reduceLT, Int.reduceAdd,
    Int.reduceNeg, popstack_cons, Except.bind_ok']
  refine keepsResult_bind (noMemoryFault_liftScriptError _) fun _ _ => ?_
  refine keepsResult_bind (noMemoryFault_liftScriptError _) fun _ _ => ?_
  refine keepsResult_bind (noMemoryFault_countSigCheck env _ _ _) fun ⟨f, n⟩ hcount => ?_
  refine keepsResult_bind (noMemoryFault_pushResult _ _ _ _) fun s' hs' => ?_
  simp only [Except.pure_eq_ok, keepsResult_ok]
  have hn := countSigCheck_eq_ok env hcount
  exact keeps_pushResult 0 hs' (fun h => by simp_all)
    (by simp only [hs, List.length_cons]; omega) (.inl rfl) (by omega) (fun _ => by omega)

/-- `OP_CHECKMULTISIG` reads its counts and the elements below them only after checking the
stack holds them; it counts its keys as opcodes within `MAX_OPS_PER_SCRIPT` and makes at most
one signature check per key. -/
theorem evalCheckMultiSig_keeps (opcode : UInt8) (m : Machine) :
    KeepsResult 0 pc m (evalCheckMultiSig env opcode m) := by
  unfold evalCheckMultiSig
  dsimp only
  refine keepsResult_ite_throw fun hlen => ?_
  refine keepsResult_bind (noMemoryFault_stacktop (by omega) (by omega)) fun _ _ => ?_
  refine keepsResult_bind (noMemoryFault_scriptNum _ _ _) fun nKeys _ => ?_
  refine keepsResult_ite_throw fun hkeys => ?_
  refine keepsResult_ite_throw fun hops => ?_
  refine keepsResult_ite_throw fun hlenKeys => ?_
  refine keepsResult_bind (noMemoryFault_stacktop (by omega) (by omega)) fun _ _ => ?_
  refine keepsResult_bind (noMemoryFault_scriptNum _ _ _) fun nSigs _ => ?_
  refine keepsResult_ite_throw fun hsigs => ?_
  refine keepsResult_ite_throw fun hlenSigs => ?_
  refine keepsResult_bind (noMemoryFault_multisigBody env _ _ _ (by omega) rfl rfl (by omega)
    (by omega)) fun ⟨f, n⟩ hbody => ?_
  obtain ⟨hle, hge⟩ := multisigBody_nSigChecks env _ _ (by omega) hbody
  dsimp only
  rw [popstackN_of_le (by omega), Except.bind_ok']
  refine keepsResult_bind (noMemoryFault_pushResult _ _ _ _) fun s' hs' => ?_
  simp only [Except.pure_eq_ok, keepsResult_ok]
  exact keeps_pushResult _ hs' (fun h v hv => h v (List.mem_of_mem_drop hv))
    (by simp only [List.length_drop]; omega) (.inr (by omega)) (by simpa using hle) hge

theorem fits_append {a b : ValType} (h : a.length + b.length ≤ maxScriptElementSize) :
    Fits (a ++ b) := by
  unfold Fits
  rw [List.length_append]
  exact h

/-- `OP_CAT` writes the concatenation in place after checking its size. -/
theorem evalCat_keeps (m : Machine) : KeepsResult 0 pc m (evalCat m) := by
  unfold evalCat
  refine keepsResult_ite_throw fun hlen => ?_
  rcases hs : m.stack with _ | ⟨a, _ | ⟨b, s⟩⟩ <;> simp [hs] at hlen
  simp only [stacktop_cons_neg_one, stacktop_cons_of_lt, Int.reduceLT, Int.reduceAdd,
    Int.reduceNeg, Except.bind_ok']
  refine keepsResult_ite_throw fun hsize => ?_
  have hcat : Fits (b ++ a) := fits_append (by omega)
  simp only [setStacktop_cons_of_lt, setStacktop_cons_neg_one, Int.reduceLT, Int.reduceAdd,
    Int.reduceNeg, Except.map_ok', Except.bind_ok', popstack_cons, Except.pure_eq_ok,
    keepsResult_ok]
  exact keeps_stack_of_eq hs (fun h => by simp_all) (by simp +arith)

theorem fits_take {v : ValType} (i : ℕ) (h : Fits v) : Fits (v.take i) :=
  (List.length_take_le' i v).trans h

theorem fits_drop {v : ValType} (i : ℕ) (h : Fits v) : Fits (v.drop i) := by
  unfold Fits at *
  rw [List.length_drop]
  omega

/-- `OP_SPLIT` cuts the element below the top at a position it checked against the element's
size, so both iterator ranges are in range. -/
theorem evalSplit_keeps (m : Machine) : KeepsResult 0 pc m (evalSplit env m) := by
  unfold evalSplit
  refine keepsResult_ite_throw fun hlen => ?_
  rcases hs : m.stack with _ | ⟨a, _ | ⟨b, s⟩⟩ <;> simp [hs] at hlen
  simp only [stacktop_cons_neg_one, stacktop_cons_of_lt, Int.reduceLT, Int.reduceAdd,
    Int.reduceNeg, Except.bind_ok']
  refine keepsResult_bind (noMemoryFault_scriptNum _ _ _) fun p _ => ?_
  refine keepsResult_ite_throw fun hp => ?_
  rw [subrange_of_le (Nat.zero_le _) (by omega), subrange_of_le (by omega) le_rfl]
  simp only [setStacktop_cons_of_lt, setStacktop_cons_neg_one, Int.reduceLT, Int.reduceAdd,
    Int.reduceNeg, Except.map_ok', Except.bind_ok', Except.pure_eq_ok, keepsResult_ok]
  exact keeps_stack_of_eq hs (fun h => by simp_all [fits_take, fits_drop])
    (by simp +arith)

theorem evalReverseBytes_keeps (m : Machine) : KeepsResult 0 pc m (evalReverseBytes m) := by
  unfold evalReverseBytes
  refine keepsResult_ite_throw fun hlen => ?_
  rcases hs : m.stack with _ | ⟨a, s⟩ <;> simp [hs] at hlen
  simp only [stacktop_cons_neg_one, setStacktop_cons_neg_one, Except.bind_ok',
    Except.pure_eq_ok, keepsResult_ok]
  exact keeps_stack_of_eq hs (fun h => by simp_all [Fits]) (by simp +arith)

/-- The padding of `OP_NUM2BIN` produces exactly the requested size. -/
theorem length_num2BinPad {rawnum : ValType} {size : ℕ} (h : rawnum.length < size) :
    (num2BinPad rawnum size).length = size := by
  unfold num2BinPad
  split
  · simp
    omega
  · simp
    omega

/-- `OP_NUM2BIN` writes an element of the size it checked against `MAX_SCRIPT_ELEMENT_SIZE`. -/
theorem evalNum2Bin_keeps (m : Machine) : KeepsResult 0 pc m (evalNum2Bin env m) := by
  unfold evalNum2Bin
  refine keepsResult_ite_throw fun hlen => ?_
  rcases hs : m.stack with _ | ⟨a, _ | ⟨b, s⟩⟩ <;> simp [hs] at hlen
  simp only [stacktop_cons_neg_one, Except.bind_ok']
  refine keepsResult_bind (noMemoryFault_scriptNum _ _ _) fun v _ => ?_
  refine keepsResult_ite_throw fun hsize => ?_
  simp only [popstack_cons, stacktop_cons_neg_one, Except.bind_ok']
  refine keepsResult_ite_throw fun hraw => ?_
  simp only [setStacktop_cons_neg_one, Except.bind_ok', Except.pure_eq_ok, keepsResult_ok]
  have hnew : Fits (if (minimallyEncode b).2.length = (v % 2 ^ 64).toNat then
      (minimallyEncode b).2 else num2BinPad (minimallyEncode b).2 (v % 2 ^ 64).toNat) := by
    unfold Fits
    split_ifs with heq
    · omega
    · rw [length_num2BinPad (by omega)]
      omega
  exact keeps_stack_of_eq hs (fun h => by simp_all) (by simp +arith)

theorem evalBin2Num_keeps (m : Machine) : KeepsResult 0 pc m (evalBin2Num env m) := by
  unfold evalBin2Num
  refine keepsResult_ite_throw fun hlen => ?_
  rcases hs : m.stack with _ | ⟨a, s⟩ <;> simp [hs] at hlen
  simp only [stacktop_cons_neg_one, setStacktop_cons_neg_one, Except.bind_ok']
  refine keepsResult_ite_throw fun _ => ?_
  simp only [Except.pure_eq_ok, keepsResult_ok]
  have hshort := length_minimallyEncode a
  exact keeps_stack (fun h => by simp_all [Fits]; omega)
    (by simp only [hs, List.length_cons]; omega)

/-! ### Introspection -/

theorem checkInputIndex_eq_ok {ctx : ScriptExecutionContext} {index : ℤ} {utxo : Bool} {u : Unit}
    (h : checkInputIndex ctx index utxo = .ok u) : index.toNat < ctx.tx.vin.length := by
  unfold checkInputIndex at h
  split_ifs at h with hrange
  omega

theorem checkOutputIndex_eq_ok {ctx : ScriptExecutionContext} {index : ℤ} {u : Unit}
    (h : checkOutputIndex ctx index = .ok u) : index.toNat < ctx.tx.vout.length := by
  unfold checkOutputIndex at h
  split_ifs at h with hrange
  omega

theorem noMemoryFault_checkInputIndex (ctx : ScriptExecutionContext) (index : ℤ) (utxo : Bool) :
    NoMemoryFault (checkInputIndex ctx index utxo) := by
  unfold checkInputIndex
  split_ifs <;> simp

theorem noMemoryFault_checkOutputIndex (ctx : ScriptExecutionContext) (index : ℤ) :
    NoMemoryFault (checkOutputIndex ctx index) := by
  unfold checkOutputIndex
  split_ifs <;> simp

/-- There is a coin for every input: `coin` does not throw on an input index. -/
theorem coin_of_lt (ctx : ScriptExecutionContext) {i : ℕ} (h : i < ctx.tx.vin.length) :
    ∃ c, ctx.coin i = .ok c := by
  have hi : i < ctx.inputCoins.length := ctx.inputCoins_length ▸ h
  exact ⟨ctx.inputCoins[i], by simp [ScriptExecutionContext.coin, List.getElem?_eq_getElem hi]⟩

theorem scriptSig_of_lt (ctx : ScriptExecutionContext) {i : ℕ} (h : i < ctx.tx.vin.length) :
    ∃ v, ctx.scriptSig i = .ok v :=
  ⟨ctx.tx.vin[i].scriptSig, by simp [ScriptExecutionContext.scriptSig, List.getElem?_eq_getElem h]⟩

theorem inputAt_of_lt (ctx : ScriptExecutionContext) {i : ℕ} (h : i < ctx.tx.vin.length) :
    ∃ txin, inputAt ctx i = .ok txin :=
  ⟨ctx.tx.vin[i], by simp [inputAt, List.getElem?_eq_getElem h]⟩

theorem outputAt_of_lt (ctx : ScriptExecutionContext) {i : ℕ} (h : i < ctx.tx.vout.length) :
    ∃ txout, outputAt ctx i = .ok txout :=
  ⟨ctx.tx.vout[i], by simp [outputAt, List.getElem?_eq_getElem h]⟩

section Push

variable {cost : ℕ} {m : Machine} (s : List ValType)
  (hfit : (∀ v ∈ m.stack, Fits v) → ∀ v ∈ s, Fits v) (hlen : s.length + 1 ≤ m.stack.length + 3)
include hfit hlen

/-- A number pushed onto the stack `s` fits: `serialize` writes at most nine bytes. -/
theorem keepsResult_pushNum (x : ℤ) : KeepsResult cost pc m (pushNum x { m with stack := s }) := by
  unfold pushNum
  refine keepsResult_bind (noMemoryFault_fromIntValue x) fun bn _ => ?_
  simp only [Except.pure_eq_ok, keepsResult_ok]
  exact keeps_stack (fun h => List.forall_mem_cons.mpr ⟨fits_serialize _, hfit h⟩)
    (by simpa using hlen)

/-- Bytes pushed onto the stack `s` after the size check fit. -/
theorem keepsResult_pushBytes (bytes : List UInt8) :
    KeepsResult cost pc m (pushBytes bytes { m with stack := s }) := by
  unfold pushBytes
  refine keepsResult_ite_throw fun hsize => ?_
  simp only [Except.pure_eq_ok, keepsResult_ok]
  exact keeps_stack (fun h => List.forall_mem_cons.mpr ⟨Nat.le_of_not_lt hsize, hfit h⟩)
    (by simpa using hlen)

end Push

theorem evalIntrospectionNullary_keeps (opcode : UInt8) (m : Machine) :
    KeepsResult 0 pc m (evalIntrospectionNullary env opcode m) := by
  unfold evalIntrospectionNullary
  refine keepsResult_ite_throw fun _ => ?_
  split
  · simp
  have hlen : m.stack.length + 1 ≤ m.stack.length + 3 := by omega
  split
  · exact keepsResult_pushNum m.stack id hlen _
  · exact keepsResult_pushBytes m.stack id hlen _
  · exact keepsResult_pushNum m.stack id hlen _
  · exact keepsResult_pushNum m.stack id hlen _
  · exact keepsResult_pushNum m.stack id hlen _
  · exact keepsResult_pushNum m.stack id hlen _
  · simp

/-- The unary introspection opcodes index the inputs or outputs only after checking the index
against their number, and there is one coin per input. -/
theorem evalIntrospectionUnary_keeps (opcode : UInt8) (m : Machine) :
    KeepsResult 0 pc m (evalIntrospectionUnary env opcode m) := by
  unfold evalIntrospectionUnary
  refine keepsResult_ite_throw fun _ => ?_
  split
  · simp
  rename_i ctx _
  refine keepsResult_ite_throw fun hlen => ?_
  rcases hs : m.stack with _ | ⟨top, s⟩ <;> simp [hs] at hlen
  simp only [stacktop_cons_neg_one, popstack_cons, Except.bind_ok']
  refine keepsResult_bind (noMemoryFault_scriptNum _ _ _) fun index _ => ?_
  have hfit : (∀ v ∈ m.stack, Fits v) → ∀ v ∈ s, Fits v := fun h => by simp_all
  have hlen' : s.length + 1 ≤ m.stack.length + 3 := by simp only [hs, List.length_cons]; omega
  split
  · refine keepsResult_bind (noMemoryFault_checkInputIndex _ _ _) fun _ hidx => ?_
    obtain ⟨c, hc⟩ := coin_of_lt ctx (checkInputIndex_eq_ok hidx)
    rw [hc, Except.bind_ok']
    exact keepsResult_pushNum s hfit hlen' _
  · refine keepsResult_bind (noMemoryFault_checkInputIndex _ _ _) fun _ hidx => ?_
    obtain ⟨c, hc⟩ := coin_of_lt ctx (checkInputIndex_eq_ok hidx)
    rw [hc, Except.bind_ok']
    exact keepsResult_pushBytes s hfit hlen' _
  · refine keepsResult_bind (noMemoryFault_checkInputIndex _ _ _) fun _ hidx => ?_
    obtain ⟨txin, htxin⟩ := inputAt_of_lt ctx (checkInputIndex_eq_ok hidx)
    rw [htxin, Except.bind_ok']
    simp only [Except.pure_eq_ok, keepsResult_ok]
    -- a transaction id has 32 bytes
    have htxid : Fits txin.prevout.txid.toList := by simp [Fits, maxScriptElementSize]
    exact keeps_stack (fun h => List.forall_mem_cons.mpr ⟨htxid, hfit h⟩) (by simpa using hlen')
  · refine keepsResult_bind (noMemoryFault_checkInputIndex _ _ _) fun _ hidx => ?_
    obtain ⟨txin, htxin⟩ := inputAt_of_lt ctx (checkInputIndex_eq_ok hidx)
    rw [htxin, Except.bind_ok']
    exact keepsResult_pushNum s hfit hlen' _
  · refine keepsResult_bind (noMemoryFault_checkInputIndex _ _ _) fun _ hidx => ?_
    obtain ⟨v, hv⟩ := scriptSig_of_lt ctx (checkInputIndex_eq_ok hidx)
    rw [hv, Except.bind_ok']
    exact keepsResult_pushBytes s hfit hlen' _
  · refine keepsResult_bind (noMemoryFault_checkInputIndex _ _ _) fun _ hidx => ?_
    obtain ⟨txin, htxin⟩ := inputAt_of_lt ctx (checkInputIndex_eq_ok hidx)
    rw [htxin, Except.bind_ok']
    exact keepsResult_pushNum s hfit hlen' _
  · refine keepsResult_bind (noMemoryFault_checkOutputIndex _ _) fun _ hidx => ?_
    obtain ⟨txout, htxout⟩ := outputAt_of_lt ctx (checkOutputIndex_eq_ok hidx)
    rw [htxout, Except.bind_ok']
    exact keepsResult_pushNum s hfit hlen' _
  · refine keepsResult_bind (noMemoryFault_checkOutputIndex _ _) fun _ hidx => ?_
    obtain ⟨txout, htxout⟩ := outputAt_of_lt ctx (checkOutputIndex_eq_ok hidx)
    rw [htxout, Except.bind_ok']
    exact keepsResult_pushBytes s hfit hlen' _
  · simp

end Handlers

/-! ### The `switch` and the loop -/

section Loop

variable (env : EvalEnv)

/-- The signature checks a body makes beyond the opcodes it counts: one for `OP_CHECKSIG` and
`OP_CHECKDATASIG`; `OP_CHECKMULTISIG` counts its keys as opcodes. -/
def sigCost : Handler → ℕ
  | .checkSig | .checkDataSig => 1
  | _ => 0

/-- The opcodes up to `OP_16`, which the count skips, run no body that checks a signature. -/
theorem sigCost_handlerOf_le (opcode : UInt8) :
    sigCost (handlerOf opcode) ≤ if opcode > op16 then 1 else 0 := by
  split_ifs with hop
  · cases handlerOf opcode <;> simp [sigCost]
  · have hpushes : ∀ n, n < 97 → sigCost (handlerOf n.toUInt8) = 0 := by decide
    have hn : opcode.toNat < 97 := by
      have h16 : op16.toNat = 96 := rfl
      rw [gt_iff_lt, UInt8.lt_iff_toNat_lt, h16] at hop
      omega
    have h := hpushes opcode.toNat hn
    rw [Nat.toUInt8_eq, UInt8.ofNat_toNat] at h
    omega

theorem execute_keeps (h : Handler) (opcode : UInt8) (fExec : Bool) (pc : List UInt8)
    (m : Machine) : KeepsResult (sigCost h) pc m (execute env h opcode fExec pc m) := by
  cases h with
  | pushValue => exact evalPushValue_keeps opcode m
  | nop => exact keepsResult_ok.mpr keeps_self
  | checkLockTimeVerify => exact evalCheckLockTimeVerify_keeps env m
  | checkSequenceVerify => exact evalCheckSequenceVerify_keeps env m
  | upgradableNop => exact evalUpgradableNop_keeps env m
  | ifNotIf => exact evalIf_keeps env opcode fExec m
  | elseBranch => exact evalElse_keeps m
  | endIf => exact evalEndIf_keeps m
  | verify => exact evalVerify_keeps m
  | returnOp => simp [execute]
  | toAltStack => exact evalToAltStack_keeps m
  | fromAltStack => exact evalFromAltStack_keeps m
  | twoDrop => exact eval2Drop_keeps m
  | twoDup => exact eval2Dup_keeps m
  | threeDup => exact eval3Dup_keeps m
  | twoOver => exact eval2Over_keeps m
  | twoRot => exact eval2Rot_keeps m
  | twoSwap => exact eval2Swap_keeps m
  | ifDup => exact evalIfDup_keeps m
  | depth => exact evalDepth_keeps m
  | drop => exact evalDrop_keeps m
  | dup => exact evalDup_keeps m
  | nip => exact evalNip_keeps m
  | «over» => exact evalOver_keeps m
  | pickRoll => exact evalPickRoll_keeps env opcode m
  | rot => exact evalRot_keeps m
  | swap => exact evalSwap_keeps m
  | tuck => exact evalTuck_keeps m
  | size => exact evalSize_keeps m
  | bitwise => exact evalBitwise_keeps opcode m
  | equal => exact evalEqual_keeps opcode m
  | unaryNumeric => exact evalUnaryNumeric_keeps env opcode m
  | binaryNumeric => exact evalBinaryNumeric_keeps env opcode m
  | within => exact evalWithin_keeps env m
  | hash => exact evalHash_keeps env opcode m
  | codeSeparator => exact evalCodeSeparator_keeps m
  | checkSig => exact evalCheckSig_keeps env opcode m
  | checkDataSig => exact evalCheckDataSig_keeps env opcode m
  | checkMultiSig => exact evalCheckMultiSig_keeps env opcode m
  | cat => exact evalCat_keeps m
  | split => exact evalSplit_keeps env m
  | reverseBytes => exact evalReverseBytes_keeps m
  | num2Bin => exact evalNum2Bin_keeps env m
  | bin2Num => exact evalBin2Num_keeps env m
  | introspectionNullary => exact evalIntrospectionNullary_keeps env opcode m
  | introspectionUnary => exact evalIntrospectionUnary_keeps env opcode m
  | badOpcode => simp [execute]

/-- In an executed branch a push adds its data, which the decoder bounded; otherwise the body
runs, or nothing happens. -/
theorem dispatch_keeps (opcode : UInt8) {data : ValType} (hdata : Fits data) (fExec : Bool)
    (pc : List UInt8) (m : Machine) :
    KeepsResult (sigCost (handlerOf opcode)) pc m (dispatch env opcode data fExec pc m) := by
  unfold dispatch
  split_ifs
  · simp
  · simp only [Except.pure_eq_ok, keepsResult_ok]
    exact keeps_stack (fun h => List.forall_mem_cons.mpr ⟨hdata, h⟩) (by simp)
  · exact execute_keeps env _ _ _ _ _
  · simp

theorem countOpcode_eq_ok {opcode : UInt8} {m m₁ : Machine} (h : countOpcode opcode m = .ok m₁) :
    (¬opcode > op16 ∧ m₁ = m) ∨
      (opcode > op16 ∧ m₁ = { m with nOpCount := m.nOpCount + 1 } ∧
        m.nOpCount + 1 ≤ maxOpsPerScript) := by
  unfold countOpcode at h
  split_ifs at h with hop hcount
  · simp only [Except.pure_eq_ok, Except.ok.injEq] at h
    exact .inr ⟨hop, h.symm, by omega⟩
  · simp only [Except.pure_eq_ok, Except.ok.injEq] at h
    exact .inl ⟨hop, h.symm⟩

theorem noMemoryFault_countOpcode (opcode : UInt8) (m : Machine) :
    NoMemoryFault (countOpcode opcode m) := by
  unfold countOpcode
  split_ifs <;> simp

/-- Counting the opcode and then running a body whose signature checks the count covers keeps
the bounds at no cost. -/
theorem Keeps.of_countOpcode {c : ℕ} {pc : List UInt8} {opcode : UInt8} {m m₁ m' : Machine}
    (hcount : countOpcode opcode m = .ok m₁) (hc : c ≤ if opcode > op16 then 1 else 0)
    (h : Keeps c pc m₁ m') : Keeps 0 pc m m' := by
  rcases countOpcode_eq_ok hcount with ⟨hop, rfl⟩ | ⟨hop, rfl, hmax⟩
  · have hc0 : c = 0 := by simpa [hop] using hc
    exact hc0 ▸ h
  · have hc1 : c ≤ 1 := by simpa [hop] using hc
    obtain ⟨hfit, hdepth, hops, hle, hge, hcode⟩ := h
    simp only at hops hle hge hcode
    refine ⟨hfit, hdepth, ?_, ?_, fun hmax' => hge ?_, hcode⟩
    · omega
    · -- the count grew by one, which pays for the at most one signature check
      omega
    · omega

/-- Decoding, counting and running an opcode keeps the bounds. -/
theorem runOpcode_keeps {m : Machine} {pc : List UInt8} {r : Machine × List UInt8}
    (h : runOpcode env m pc = .ok r) : Keeps 0 r.2 m r.1 := by
  obtain ⟨opcode, data, m₁, -, hdata, hcount, -, hdisp⟩ := runOpcode_eq_ok env h
  have hkeeps := (dispatch_keeps env opcode hdata m.vfExec.allTrue r.2 m₁).2 r.1 hdisp
  exact .of_countOpcode hcount (sigCost_handlerOf_le opcode) hkeeps

theorem noMemoryFault_runOpcode (m : Machine) (pc : List UInt8) :
    NoMemoryFault (runOpcode env m pc) := by
  unfold runOpcode
  split
  · simp
  · rename_i opcode data rest hop
    split_ifs with hpush hdis
    · simp
    · exact (noMemoryFault_countOpcode opcode m).bind fun _ _ => by simp
    · refine (noMemoryFault_countOpcode opcode m).bind fun m₁ _ => ?_
      exact ((dispatch_keeps env opcode (Nat.le_of_not_lt hpush) _ _ m₁).1).bind
        fun _ _ => by simp

theorem noMemoryFault_step (m : Machine) (pc : List UInt8) : NoMemoryFault (step env m pc) := by
  unfold step
  refine (noMemoryFault_runOpcode env m pc).bind fun ⟨m', pc'⟩ _ => ?_
  dsimp only
  split_ifs <;> simp

/-! ### Invariants of the loop -/

/-- The counters at an iteration of a loop started with `n₀` signature checks: at most
`MAX_OPS_PER_SCRIPT` opcodes counted, and signature checks grown by at most that count and lost
only if they left `int`. -/
structure Counters (n₀ : Int32) (m : Machine) : Prop where
  nOpCount_le : m.nOpCount ≤ maxOpsPerScript
  nSigChecks_le : m.nSigChecks.toInt ≤ n₀.toInt + m.nOpCount
  nSigChecks_ge : n₀.toInt + maxOpsPerScript ≤ intMax → n₀.toInt ≤ m.nSigChecks.toInt

/-- The stacks at an iteration of the loop over `script` with `pc` left: elements that fit, at
most `MAX_STACK_SIZE` of them, and the position and the start of the hashed code in the
script. -/
structure Bounded (script : List UInt8) (m : Machine) (pc : List UInt8) : Prop where
  elementsFit : m.ElementsFit
  depth_le : m.depth ≤ maxStackSize
  pc_suffix : pc <:+ script
  pbegincodehash_suffix : m.pbegincodehash <:+ script

theorem counters_initialMachine (stack : List ValType) (script : List UInt8)
    (metrics : ScriptExecutionMetrics) :
    Counters metrics.nSigChecks (initialMachine stack script metrics) where
  nOpCount_le := by simp [initialMachine, maxOpsPerScript]
  nSigChecks_le := by simp [initialMachine]
  nSigChecks_ge _ := by simp [initialMachine]

theorem bounded_initialMachine {stack : List ValType} (script : List UInt8)
    (metrics : ScriptExecutionMetrics) (hfit : ∀ v ∈ stack, Fits v)
    (hdepth : stack.length ≤ maxStackSize) :
    Bounded script (initialMachine stack script metrics) script where
  elementsFit := ⟨hfit, by simp [initialMachine]⟩
  depth_le := by simpa [Machine.depth, initialMachine] using hdepth
  pc_suffix := List.suffix_refl script
  pbegincodehash_suffix := List.suffix_refl script

/-- Every iteration keeps the counters: it counts at most one opcode, or the keys of a
multisig, within the limit, and makes no more signature checks than it counts. -/
theorem step_counters {n₀ : Int32} {m m' : Machine} {pc pc' : List UInt8}
    (hinv : Counters n₀ m) (h : step env m pc = .ok (m', pc')) : Counters n₀ m' := by
  have hkeeps : Keeps 0 pc' m m' := runOpcode_keeps env (step_eq_ok env h).1
  obtain ⟨-, -, hops, hle, hge, -⟩ := hkeeps
  obtain ⟨hops₀, hle₀, hge₀⟩ := hinv
  have hops' : m.nOpCount ≤ m'.nOpCount ∧ m'.nOpCount ≤ maxOpsPerScript := by
    rcases hops with hops | hops <;> omega
  refine ⟨hops'.2, by omega, fun hmax => ?_⟩
  -- below the limit the sum never leaves `int`, so no check is lost
  have hfrom := hge₀ hmax
  have hmono := hge (by omega)
  omega

/-- Every iteration keeps the stacks bounded: what it adds fits, the check after the `switch`
bounds their size, and the position and the code start move forward in the script. -/
theorem step_bounded {script : List UInt8} {m m' : Machine} {pc pc' : List UInt8}
    (hinv : Bounded script m pc) (h : step env m pc = .ok (m', pc')) : Bounded script m' pc' := by
  obtain ⟨hrun, hsize⟩ := step_eq_ok env h
  obtain ⟨opcode, data, -, hop, -⟩ := runOpcode_eq_ok env hrun
  have hkeeps : Keeps 0 pc' m m' := runOpcode_keeps env hrun
  -- the decoder only ever drops a prefix of the script
  obtain ⟨field, hpc⟩ := getScriptOp_eq_some hop
  have hsuffix : pc' <:+ script :=
    List.IsSuffix.trans ⟨opcode :: (field ++ data), by rw [hpc]; simp⟩ hinv.pc_suffix
  refine ⟨hkeeps.elementsFit hinv.elementsFit, hsize, hsuffix, ?_⟩
  rcases hkeeps.pbegincodehash with hcode | hcode
  · exact hcode ▸ hinv.pbegincodehash_suffix
  · exact hcode ▸ hsuffix

/-! ### Whole runs -/

section Run

variable {stack : List ValType} {script : List UInt8} {metrics : ScriptExecutionMetrics}

/-- Every state of a run keeps the counters of the metrics it started from. -/
theorem reaches_counters {m : Machine} {pc : List UInt8}
    (hreach : (scriptLoop env).Reaches (initialMachine stack script metrics) script m pc) :
    Counters metrics.nSigChecks m :=
  InputLoop.Reaches.invariant (fun m _ => Counters metrics.nSigChecks m)
    (fun _ _ _ _ _ hinv h => step_counters env hinv h) hreach
    (counters_initialMachine stack script metrics)

/-- Every state of a run from fitting stacks is bounded. -/
theorem reaches_bounded (hfit : ∀ v ∈ stack, Fits v) (hdepth : stack.length ≤ maxStackSize)
    {m : Machine} {pc : List UInt8}
    (hreach : (scriptLoop env).Reaches (initialMachine stack script metrics) script m pc) :
    Bounded script m pc :=
  InputLoop.Reaches.invariant (Bounded script)
    (fun _ _ _ _ _ hinv h => step_bounded env hinv h) hreach
    (bounded_initialMachine script metrics hfit hdepth)

/-- No run of the loop, from any machine, ends in a memory fault: every iteration guards its
accesses. -/
theorem run_noMemoryFault (m : Machine) (pc : List UInt8) :
    NoMemoryFault ((scriptLoop env).run m pc) := by
  intro e h
  obtain ⟨m', pc', -, -, hfail⟩ := InputLoop.run_eq_error h
  exact noMemoryFault_step env m' pc' e hfail

end Run

/-- What memory safety of `EvalScript` on `stack` and `script` means: no access leaves its
vector, the state between two opcodes is bounded, the state an opcode leaves before the size
check has at most three elements more, and a successful call returns a bounded state. -/
structure MemorySafe (stack : List ValType) (script : List UInt8)
    (metrics : ScriptExecutionMetrics) : Prop where
  noMemoryFault : NoMemoryFault ((scriptLoop env).run (initialMachine stack script metrics) script)
  bounded : ∀ m pc,
    (scriptLoop env).Reaches (initialMachine stack script metrics) script m pc →
      Bounded script m pc
  runOpcode_bounded : ∀ m pc r,
    (scriptLoop env).Reaches (initialMachine stack script metrics) script m pc →
      runOpcode env m pc = .ok r → r.1.ElementsFit ∧ r.1.depth ≤ maxStackSize + 3
  evalScript_bounded : ∀ r, evalScript env stack script metrics = .ok r →
    ∃ m, (scriptLoop env).run (initialMachine stack script metrics) script = .ok m ∧
      Bounded script m [] ∧ r.1 = m.stack

theorem evalScript_memory_safe (stack : List ValType) (script : List UInt8)
    (metrics : ScriptExecutionMetrics) (hfit : ∀ v ∈ stack, Fits v)
    (hdepth : stack.length ≤ maxStackSize) : MemorySafe env stack script metrics where
  noMemoryFault := run_noMemoryFault env _ _
  bounded _ _ hreach := reaches_bounded env hfit hdepth hreach
  runOpcode_bounded m pc r hreach hr := by
    have hb := reaches_bounded env hfit hdepth hreach
    have hk := runOpcode_keeps env hr
    have hdepth' := hk.depth_le
    have hmax := hb.depth_le
    exact ⟨hk.elementsFit hb.elementsFit, by omega⟩
  evalScript_bounded r hr := by
    obtain ⟨m, hrun, -, rfl⟩ := evalScript_eq_ok env hr
    exact ⟨m, hrun, reaches_bounded env hfit hdepth (InputLoop.run_eq_ok hrun), rfl⟩

theorem evalScript_memory_safe_dup :
    MemorySafe default [[0x01]] [0x76] { nSigChecks := 0 } :=
  evalScript_memory_safe default [[0x01]] [0x76] { nSigChecks := 0 }
    (by simp [Fits, maxScriptElementSize]) (by simp [maxStackSize])

end Loop

end BitcoinCash
