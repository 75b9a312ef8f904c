import BitcoinCash.Script.Interpreter

/-!
# What an opcode of `EvalScript` keeps

The facts about one `case` of the `switch` from which the safety and the resource bounds of
`EvalScript` are built. An element *fits* when it has at most `MAX_SCRIPT_ELEMENT_SIZE` bytes; a
computation has *no memory fault* when it never fails with an access outside its vector.
`Keeps` lists what a body preserves from the machine it starts from to the machine it returns:
the elements fit, there are at most three more of them, the opcode count stays within
`MAX_OPS_PER_SCRIPT`, the signature checks grow at most by the opcodes counted, and the code
hashed by signatures starts where it did or after the opcode.

Every access of the interpreter is in range once the size checks before it pass. The lemmas
here say so for each kind of access, and for the two paths of `OP_CHECKMULTISIG`, whose reads
are at offsets computed from the two counts on the stack.
-/

namespace BitcoinCash

open CScriptNum

/-! ### Elements and stacks -/

/-- An element fits when it has at most `MAX_SCRIPT_ELEMENT_SIZE` bytes. -/
def Fits (v : ValType) : Prop := v.length ≤ maxScriptElementSize

namespace Machine

/-- `stack.size() + altstack.size()`. -/
def depth (m : Machine) : ℕ := m.stack.length + m.altstack.length

/-- Every element of both stacks fits. -/
def ElementsFit (m : Machine) : Prop := (∀ v ∈ m.stack, Fits v) ∧ ∀ v ∈ m.altstack, Fits v

end Machine

theorem fits_serialize (x : ℤ) : Fits (serialize x) :=
  (length_serialize_le x).trans (by decide)

theorem fits_vchBool (b : Bool) : Fits (vchBool b) := by
  cases b <;> simp [Fits, vchBool, maxScriptElementSize]

/-- Digests have 20 or 32 bytes. -/
theorem fits_hashOp (crypto : Crypto) (opcode : UInt8) (vch : ValType) :
    Fits (hashOp crypto opcode vch) := by
  unfold hashOp
  split <;> simp [Fits, maxScriptElementSize]

/-! ### Memory faults -/

section NoMemoryFault

variable {α β : Type}

@[simp] theorem not_isMemoryFault_scriptError (e : ScriptError) :
    ¬(EvalFault.scriptError e).IsMemoryFault := id

@[simp] theorem not_isMemoryFault_assertFailed : ¬EvalFault.assertFailed.IsMemoryFault := id

@[simp] theorem not_isMemoryFault_scriptnumError (what : String) :
    ¬(EvalFault.exception (.scriptnumError what)).IsMemoryFault := id

@[simp] theorem not_isMemoryFault_badOptionalAccess :
    ¬(EvalFault.exception .badOptionalAccess).IsMemoryFault := id

@[simp] theorem not_isMemoryFault_signedOverflow :
    ¬(EvalFault.undefined .signedOverflow).IsMemoryFault := id

@[simp] theorem not_isMemoryFault_shiftTooLarge :
    ¬(EvalFault.undefined .shiftTooLarge).IsMemoryFault := id

/-- The computation fails only with faults that are not memory faults. -/
def NoMemoryFault (x : Except EvalFault α) : Prop := ∀ e, x = .error e → ¬e.IsMemoryFault

@[simp] theorem noMemoryFault_ok (a : α) : NoMemoryFault (.ok a : Except EvalFault α) := by
  simp [NoMemoryFault]

@[simp] theorem noMemoryFault_error {e : EvalFault} :
    NoMemoryFault (.error e : Except EvalFault α) ↔ ¬e.IsMemoryFault := by
  simp [NoMemoryFault]

theorem NoMemoryFault.bind {x : Except EvalFault α} {f : α → Except EvalFault β}
    (hx : NoMemoryFault x) (hf : ∀ a, x = .ok a → NoMemoryFault (f a)) :
    NoMemoryFault (x >>= f) := by
  cases x with
  | error e => simpa using hx e rfl
  | ok a => simpa using hf a rfl

theorem noMemoryFault_scriptNum (vch : ValType) (fRequireMinimal : Bool) (maxIntegerSize : ℕ) :
    NoMemoryFault (scriptNum vch fRequireMinimal maxIntegerSize) := by
  unfold scriptNum
  split <;> simp

theorem noMemoryFault_liftScriptError (x : Except ScriptError α) :
    NoMemoryFault (liftScriptError x) := by
  cases x <;> simp [liftScriptError]

theorem noMemoryFault_addSigChecks (n : Int32) (k : ℤ) : NoMemoryFault (addSigChecks n k) := by
  unfold addSigChecks
  split_ifs <;> simp

theorem noMemoryFault_fromIntValue (x : ℤ) : NoMemoryFault (fromIntValue x) := by
  unfold fromIntValue
  split_ifs <;> simp

/-- A read at an offset from the end that the stack reaches is in range. -/
theorem noMemoryFault_stacktop {s : List ValType} {i : ℤ} (hi : i < 0) (hs : -i ≤ s.length) :
    NoMemoryFault (stacktop s i) := by
  have hk : (-i - 1).toNat < s.length := by omega
  unfold stacktop
  rw [if_pos hi, List.getElem?_eq_getElem hk]
  simp

theorem popstackN_of_le {n : ℕ} {s : List ValType} (h : n ≤ s.length) :
    popstackN n s = .ok (s.drop n) := by
  induction n generalizing s with
  | zero => rfl
  | succ n ih =>
    cases s with
    | nil => simp at h
    | cons x s => simp [popstackN, ih (show n ≤ s.length by simpa using h)]

theorem pushResult_eq_ok {verify : Bool} {e : ScriptError} {fSuccess : Bool}
    {s s' : List ValType} (h : pushResult verify e fSuccess s = .ok s') :
    s' = s ∨ s' = vchBool fSuccess :: s := by
  unfold pushResult at h
  split_ifs at h <;> simp at h <;> simp [h]

theorem noMemoryFault_pushResult (verify : Bool) (e : ScriptError) (fSuccess : Bool)
    (s : List ValType) : NoMemoryFault (pushResult verify e fSuccess s) := by
  unfold pushResult
  split_ifs <;> simp

end NoMemoryFault

/-! ### The signature-check count -/

theorem toInt_toIntWrap_of_le {x : ℤ} (h₁ : intMin ≤ x) (h₂ : x ≤ intMax) :
    (toIntWrap x).toInt = x :=
  Int32.toInt_ofInt_of_le (by unfold intMin at h₁; omega) (by unfold intMax at h₂; omega)

/-- Wrapping into an `int` never raises a value that is not below `INT_MIN`. -/
theorem toInt_toIntWrap_le {x : ℤ} (h : intMin ≤ x) : (toIntWrap x).toInt ≤ x := by
  by_cases hx : x ≤ intMax
  · rw [toInt_toIntWrap_of_le h hx]
  · have hlt := Int32.toInt_lt (toIntWrap x)
    unfold intMax at hx
    omega

theorem addSigChecks_eq_ok {n n' : Int32} {k : ℤ} (h : addSigChecks n k = .ok n') :
    n'.toInt = n.toInt + k := by
  unfold addSigChecks at h
  split_ifs at h with hk
  simp only [Except.ok.injEq] at h
  subst h
  exact toInt_toIntWrap_of_le hk.1 hk.2

section Counts

variable (env : EvalEnv)

theorem countSigCheck_eq_ok {vchSig : ValType} {fSuccess f : Bool} {n n' : Int32}
    (h : countSigCheck env vchSig fSuccess n = .ok (f, n')) :
    n'.toInt = n.toInt ∨ n'.toInt = n.toInt + 1 := by
  unfold countSigCheck at h
  by_cases hsig : vchSig.length ≠ 0
  · rw [if_pos hsig] at h
    obtain ⟨n₁, hn₁, h⟩ := Except.bind_eq_ok.mp h
    obtain ⟨-, h⟩ := Except.ite_throw_eq_ok.mp h
    simp only [Except.pure_eq_ok, Except.ok.injEq, Prod.mk.injEq] at h
    exact .inr (h.2 ▸ addSigChecks_eq_ok hn₁)
  · rw [if_neg hsig] at h
    simp only [Except.pure_eq_ok, Except.ok.injEq, Prod.mk.injEq] at h
    exact .inl (by rw [h.2])

theorem noMemoryFault_countSigCheck (vchSig : ValType) (fSuccess : Bool) (n : Int32) :
    NoMemoryFault (countSigCheck env vchSig fSuccess n) := by
  unfold countSigCheck
  by_cases hsig : vchSig.length ≠ 0
  · rw [if_pos hsig]
    refine (noMemoryFault_addSigChecks n 1).bind fun n₁ _ => ?_
    split_ifs <;> simp
  · rw [if_neg hsig]
    simp

end Counts

/-! ### What an opcode body keeps -/

/-- What an opcode body keeps from the machine `m` it starts from to the machine `m'` it returns,
where `pc` is the code after the opcode and `cost` bounds the signature checks the body makes
beyond the opcodes it counts. -/
structure Keeps (cost : ℕ) (pc : List UInt8) (m m' : Machine) : Prop where
  elementsFit : m.ElementsFit → m'.ElementsFit
  /-- At most three more elements: `OP_3DUP`. -/
  depth_le : m'.depth ≤ m.depth + 3
  /-- The opcode count stays, or grows within `MAX_OPS_PER_SCRIPT`: `OP_CHECKMULTISIG`. -/
  nOpCount : m'.nOpCount = m.nOpCount ∨ m.nOpCount ≤ m'.nOpCount ∧ m'.nOpCount ≤ maxOpsPerScript
  nSigChecks_le :
    m'.nSigChecks.toInt ≤ m.nSigChecks.toInt + (m'.nOpCount - m.nOpCount : ℕ) + cost
  /-- Signature checks are not lost, unless adding the keys of a multisig leaves `int`. -/
  nSigChecks_ge : m.nSigChecks.toInt + (m'.nOpCount - m.nOpCount : ℕ) ≤ intMax →
    m.nSigChecks.toInt ≤ m'.nSigChecks.toInt
  pbegincodehash : m'.pbegincodehash = m.pbegincodehash ∨ m'.pbegincodehash = pc

/-- A result of an opcode body from `m` keeps the bounds: it is no memory fault, and a machine it
returns `Keeps` them. -/
def KeepsResult (cost : ℕ) (pc : List UInt8) (m : Machine) (r : Except EvalFault Machine) :
    Prop :=
  NoMemoryFault r ∧ ∀ m', r = .ok m' → Keeps cost pc m m'

section Rules

variable {cost : ℕ} {pc : List UInt8} {m : Machine}

@[simp] theorem keepsResult_ok {m' : Machine} :
    KeepsResult cost pc m (.ok m') ↔ Keeps cost pc m m' := by
  simp [KeepsResult]

@[simp] theorem keepsResult_error {e : EvalFault} :
    KeepsResult cost pc m (.error e) ↔ ¬e.IsMemoryFault := by
  simp [KeepsResult]

/-- A body that leaves the counters and the code start alone keeps the bounds when the new
elements fit and there are at most three more. -/
theorem Keeps.of_stacks {m' : Machine} (hfit : m.ElementsFit → m'.ElementsFit)
    (hdepth : m'.depth ≤ m.depth + 3) (hop : m'.nOpCount = m.nOpCount)
    (hsig : m'.nSigChecks = m.nSigChecks) (hcode : m'.pbegincodehash = m.pbegincodehash) :
    Keeps cost pc m m' where
  elementsFit := hfit
  depth_le := hdepth
  nOpCount := .inl hop
  nSigChecks_le := by simp [hop, hsig]
  nSigChecks_ge _ := by simp [hsig]
  pbegincodehash := .inl hcode

@[simp] theorem keeps_self : Keeps cost pc m m := .of_stacks id (by omega) rfl rfl rfl

/-- A body that only replaces the main stack keeps the bounds when the new stack fits whenever
the old one does and is at most three elements longer. -/
theorem keeps_stack {s : List ValType} (hfit : (∀ v ∈ m.stack, Fits v) → ∀ v ∈ s, Fits v)
    (hlen : s.length ≤ m.stack.length + 3) : Keeps cost pc m { m with stack := s } := by
  refine .of_stacks (fun h => ⟨hfit h.1, h.2⟩) ?_ rfl rfl rfl
  simp only [Machine.depth]
  omega

/-- A size check that fails with a script error keeps the bounds when what follows it does. -/
theorem keepsResult_ite_throw {c : Prop} [Decidable c] {e : ScriptError}
    {x : Except EvalFault Machine} (hx : ¬c → KeepsResult cost pc m x) :
    KeepsResult cost pc m (if c then throw (.scriptError e) else x) := by
  by_cases hc : c
  · simp [hc]
  · simpa [hc] using hx hc

theorem keepsResult_bind {α : Type} {x : Except EvalFault α} {f : α → Except EvalFault Machine}
    (hx : NoMemoryFault x) (hf : ∀ a, x = .ok a → KeepsResult cost pc m (f a)) :
    KeepsResult cost pc m (x >>= f) := by
  cases x with
  | error e => simpa using hx e rfl
  | ok a => exact hf a rfl

end Rules

/-! ### `OP_CHECKMULTISIG` -/

section Multisig

variable (env : EvalEnv) (stack : List ValType) (scriptCode : List UInt8)

theorem noMemoryFault_shiftBits (checkBits : UInt32) (iKey : ℕ) :
    NoMemoryFault (shiftBits checkBits iKey) := by
  unfold shiftBits
  split_ifs <;> simp

theorem noMemoryFault_nextKey (checkBits : UInt32) (iKey : ℕ) :
    NoMemoryFault (nextKey checkBits iKey) := by
  fun_induction nextKey checkBits iKey with
  | case1 => simp
  | case2 _ _ _ ih => exact ih
  | case3 => simp

/-- An iteration of the Schnorr loop reads a signature at or above the bottom one and a key it
found below `nKeysCount`: both in range. -/
theorem noMemoryFault_schnorrMultisigStep {checkBits : UInt32}
    {nKeysCount nSigsCount idxTopKey idxTopSig iSig : ℕ} (st : ℕ × Int32)
    (hiSig : iSig < nSigsCount) (hTopKey : 1 ≤ idxTopKey)
    (hKeyLen : idxTopKey + nKeysCount ≤ stack.length + 1) (hTopSig : 1 ≤ idxTopSig)
    (hSigLen : idxTopSig + nSigsCount ≤ stack.length + 1) :
    NoMemoryFault (schnorrMultisigStep env stack scriptCode checkBits nKeysCount
      (idxTopKey + nKeysCount - 1) (idxTopSig + nSigsCount - 1) st iSig) := by
  unfold schnorrMultisigStep
  refine (noMemoryFault_shiftBits _ _).bind fun _ _ => ?_
  split_ifs
  · simp
  refine (noMemoryFault_nextKey _ _).bind fun iKey _ => ?_
  split_ifs with hkey
  · simp
  refine (noMemoryFault_stacktop (by omega) (by omega)).bind fun _ _ => ?_
  refine (noMemoryFault_stacktop (by omega) (by omega)).bind fun _ _ => ?_
  refine (noMemoryFault_liftScriptError _).bind fun _ _ => ?_
  refine (noMemoryFault_liftScriptError _).bind fun _ _ => ?_
  split_ifs
  · simp
  refine (noMemoryFault_addSigChecks _ _).bind fun _ _ => ?_
  simp

theorem noMemoryFault_schnorrMultisig {nKeysCount nSigsCount idxTopKey idxTopSig idxDummy : ℕ}
    (n : Int32) (hTopKey : 1 ≤ idxTopKey) (hKeyLen : idxTopKey + nKeysCount ≤ stack.length + 1)
    (hTopSig : 1 ≤ idxTopSig) (hDummy : idxDummy = idxTopSig + nSigsCount)
    (hLen : idxDummy ≤ stack.length) :
    NoMemoryFault (schnorrMultisig env stack scriptCode nKeysCount nSigsCount idxTopKey
      idxTopSig idxDummy n) := by
  unfold schnorrMultisig
  refine (noMemoryFault_stacktop (by omega) (by omega)).bind fun _ _ => ?_
  refine (noMemoryFault_liftScriptError _).bind fun checkBits _ => ?_
  split_ifs
  · simp
  -- every iteration reads a signature below `nSigsCount`
  have hloop : NoMemoryFault ((List.range nSigsCount).foldlM
      (schnorrMultisigStep env stack scriptCode checkBits nKeysCount (idxTopKey + nKeysCount - 1)
        (idxTopSig + nSigsCount - 1)) (0, n)) := fun e he =>
    Except.foldlM_error (fun st iSig e' hiSig he' =>
      noMemoryFault_schnorrMultisigStep env stack scriptCode st (List.mem_range.mp hiSig)
        hTopKey hKeyLen hTopSig (by omega) e' he') he
  refine hloop.bind fun st _ => ?_
  refine (noMemoryFault_shiftBits _ _).bind fun _ _ => ?_
  split_ifs <;> simp

theorem noMemoryFault_legacyMultisigCheck {idxTopKey idxTopSig : ℕ} {k l : ℤ}
    (hk : 0 ≤ k) (hkLen : idxTopSig + k ≤ stack.length) (hl : 0 ≤ l)
    (hlLen : idxTopKey + l ≤ stack.length) (hTopKey : 1 ≤ idxTopKey) (hTopSig : 1 ≤ idxTopSig) :
    NoMemoryFault (legacyMultisigCheck env stack scriptCode idxTopKey idxTopSig k l) := by
  unfold legacyMultisigCheck
  refine (noMemoryFault_stacktop (by omega) (by omega)).bind fun _ _ => ?_
  refine (noMemoryFault_stacktop (by omega) (by omega)).bind fun _ _ => ?_
  refine (noMemoryFault_liftScriptError _).bind fun _ _ => ?_
  refine (noMemoryFault_liftScriptError _).bind fun _ _ => ?_
  simp

/-- The legacy loop reads signature `nSigsCount - nSigsRemaining` and key
`nKeysCount - nKeysRemaining`; while signatures remain, no more remain than keys, so both reads
are in range. -/
theorem noMemoryFault_legacyMultisigLoop {nSigsCount nKeysCount : ℤ} {idxTopKey idxTopSig : ℕ}
    (hTopKey : 1 ≤ idxTopKey) (hKeyLen : idxTopKey + nKeysCount ≤ stack.length + 1)
    (hTopSig : 1 ≤ idxTopSig) (hSigLen : idxTopSig + nSigsCount ≤ stack.length + 1)
    (nSigsRemaining nKeysRemaining : ℤ) (hsigs : nSigsRemaining ≤ nSigsCount)
    (hrem : nSigsRemaining ≤ nKeysRemaining) (hkeys : nKeysRemaining ≤ nKeysCount) :
    NoMemoryFault (legacyMultisigLoop env stack scriptCode nSigsCount nKeysCount idxTopKey
      idxTopSig nSigsRemaining nKeysRemaining) := by
  fun_induction legacyMultisigLoop env stack scriptCode nSigsCount nKeysCount idxTopKey
    idxTopSig nSigsRemaining nKeysRemaining with
  | case1 r kr hr e hcheck =>
    have hsafe : NoMemoryFault (legacyMultisigCheck env stack scriptCode idxTopKey idxTopSig
        (nSigsCount - r) (nKeysCount - kr)) :=
      noMemoryFault_legacyMultisigCheck env stack scriptCode (by omega) (by omega) (by omega)
        (by omega) hTopKey hTopSig
    simpa using hsafe e hcheck
  | case2 => simp
  | case3 r kr hr fOk hcheck r' hstop ih =>
    -- a matched signature leaves one fewer remaining; every round uses up a key
    have hle : r' ≤ r := by
      simp only [r']
      split <;> omega
    exact ih (by omega) (by omega) (by omega)
  | case4 => simp

/-- The legacy path reads the signatures below `nSigsCount` to delete them from the code and to
test them for emptiness, and runs the loop from as many signatures as there are, no more than
keys. -/
theorem noMemoryFault_legacyMultisig {nKeysCount nSigsCount idxTopKey idxTopSig : ℕ} (n : Int32)
    (hTopKey : 1 ≤ idxTopKey) (hKeyLen : idxTopKey + nKeysCount ≤ stack.length + 1)
    (hTopSig : 1 ≤ idxTopSig) (hSigLen : idxTopSig + nSigsCount ≤ stack.length + 1)
    (hsigs : nSigsCount ≤ nKeysCount) :
    NoMemoryFault (legacyMultisig env stack scriptCode nKeysCount nSigsCount idxTopKey idxTopSig
      n) := by
  have hread : ∀ k ∈ List.range nSigsCount,
      NoMemoryFault (stacktop stack (-(idxTopSig : ℤ) - k)) := fun k hk => by
    have hk := List.mem_range.mp hk
    exact noMemoryFault_stacktop (by omega) (by omega)
  unfold legacyMultisig
  refine NoMemoryFault.bind (fun e he => Except.foldlM_error (fun c k e' hk he' =>
    ((hread k hk).bind fun _ _ => noMemoryFault_ok _) e' he') he) fun scriptCode' _ => ?_
  refine (noMemoryFault_legacyMultisigLoop env stack scriptCode' hTopKey (by omega) hTopSig
    (by omega) nSigsCount nKeysCount le_rfl (by omega) le_rfl).bind fun fSuccess _ => ?_
  refine NoMemoryFault.bind (fun e he => Except.allM_error (fun i e' hi he' =>
    ((hread i hi).bind fun _ _ => noMemoryFault_ok _) e' he') he) fun _ _ => ?_
  split_ifs <;> simp

/-- The body of `OP_CHECKMULTISIG` reads only the elements the size checks before it cover:
the dummy element, `nSigsCount` signatures and `nKeysCount` keys. -/
theorem noMemoryFault_multisigBody {nKeysCount nSigsCount idxTopKey idxTopSig idxDummy : ℕ}
    (n : Int32) (hTopKey : 1 ≤ idxTopKey) (hTopSig : idxTopSig = idxTopKey + nKeysCount + 1)
    (hDummy : idxDummy = idxTopSig + nSigsCount) (hLen : idxDummy ≤ stack.length)
    (hsigs : nSigsCount ≤ nKeysCount) :
    NoMemoryFault (multisigBody env stack scriptCode nKeysCount nSigsCount idxTopKey idxTopSig
      idxDummy n) := by
  unfold multisigBody
  refine NoMemoryFault.bind ?_ fun schnorr _ => ?_
  · split_ifs
    · exact (noMemoryFault_stacktop (by omega) (by omega)).bind fun _ _ => noMemoryFault_ok _
    · exact noMemoryFault_ok _
  · split_ifs
    · exact noMemoryFault_schnorrMultisig env stack scriptCode n hTopKey (by omega) (by omega)
        hDummy hLen
    · exact noMemoryFault_legacyMultisig env stack scriptCode n hTopKey (by omega) (by omega)
        (by omega) hsigs

theorem schnorrMultisigStep_eq_ok {checkBits : UInt32}
    {nKeysCount idxBottomKey idxBottomSig iSig : ℕ} {st st' : ℕ × Int32}
    (h : schnorrMultisigStep env stack scriptCode checkBits nKeysCount idxBottomKey idxBottomSig
      st iSig = .ok st') :
    st'.2.toInt = st.2.toInt + 1 := by
  unfold schnorrMultisigStep at h
  obtain ⟨_, -, h⟩ := Except.bind_eq_ok.mp h
  obtain ⟨-, h⟩ := Except.ite_throw_eq_ok.mp h
  obtain ⟨_, -, h⟩ := Except.bind_eq_ok.mp h
  obtain ⟨-, h⟩ := Except.ite_throw_eq_ok.mp h
  iterate 4 obtain ⟨_, -, h⟩ := Except.bind_eq_ok.mp h
  obtain ⟨-, h⟩ := Except.ite_throw_eq_ok.mp h
  obtain ⟨n, hn, h⟩ := Except.bind_eq_ok.mp h
  simp only [Except.pure_eq_ok, Except.ok.injEq] at h
  rw [← h]
  exact addSigChecks_eq_ok hn

/-- The Schnorr path counts one signature check per signature. -/
theorem schnorrMultisig_eq_ok {nKeysCount nSigsCount idxTopKey idxTopSig idxDummy : ℕ}
    {n n' : Int32} {f : Bool}
    (h : schnorrMultisig env stack scriptCode nKeysCount nSigsCount idxTopKey idxTopSig idxDummy
      n = .ok (f, n')) :
    n'.toInt = n.toInt + nSigsCount := by
  unfold schnorrMultisig at h
  iterate 2 obtain ⟨_, -, h⟩ := Except.bind_eq_ok.mp h
  obtain ⟨-, h⟩ := Except.ite_throw_eq_ok.mp h
  obtain ⟨st, hfold, h⟩ := Except.bind_eq_ok.mp h
  obtain ⟨_, -, h⟩ := Except.bind_eq_ok.mp h
  obtain ⟨-, h⟩ := Except.ite_throw_eq_ok.mp h
  simp only [Except.pure_eq_ok, Except.ok.injEq, Prod.mk.injEq] at h
  -- after `i` iterations the count has grown by `i`
  have hcount := Except.foldlM_invariant (fun i st => st.2.toInt = n.toInt + i)
    (fun i st _ st' _ hst hstep => by
      rw [schnorrMultisigStep_eq_ok env stack scriptCode hstep, hst]
      push_cast
      ring) (show (0, n).2.toInt = n.toInt + ((0 : ℕ) : ℤ) by simp) hfold
  rw [← h.2, hcount, List.length_range]
  push_cast
  ring

/-- The legacy path adds the key count, wrapped into an `int`, unless every signature is
empty. -/
theorem legacyMultisig_eq_ok {nKeysCount nSigsCount idxTopKey idxTopSig : ℕ} {n n' : Int32}
    {f : Bool}
    (h : legacyMultisig env stack scriptCode nKeysCount nSigsCount idxTopKey idxTopSig n =
      .ok (f, n')) :
    n' = n ∨ n' = toIntWrap (n.toInt + nKeysCount) := by
  unfold legacyMultisig at h
  iterate 3 obtain ⟨_, -, h⟩ := Except.bind_eq_ok.mp h
  obtain ⟨-, h⟩ := Except.ite_throw_eq_ok.mp h
  simp only [Except.pure_eq_ok, Except.ok.injEq, Prod.mk.injEq] at h
  rw [← h.2]
  split_ifs
  · exact .inl rfl
  · exact .inr rfl

/-- Both paths of `OP_CHECKMULTISIG` add at most `nKeysCount` signature checks, and lose none
unless the sum leaves `int`. -/
theorem multisigBody_nSigChecks {nKeysCount nSigsCount idxTopKey idxTopSig idxDummy : ℕ}
    {n n' : Int32} {f : Bool} (hsigs : nSigsCount ≤ nKeysCount)
    (h : multisigBody env stack scriptCode nKeysCount nSigsCount idxTopKey idxTopSig idxDummy n =
      .ok (f, n')) :
    n'.toInt ≤ n.toInt + nKeysCount ∧ (n.toInt + nKeysCount ≤ intMax → n.toInt ≤ n'.toInt) := by
  unfold multisigBody at h
  obtain ⟨schnorr, -, h⟩ := Except.bind_eq_ok.mp h
  have hmin : intMin ≤ n.toInt + nKeysCount := by
    have := Int32.le_toInt n
    unfold intMin
    omega
  split_ifs at h
  · have hn := schnorrMultisig_eq_ok env stack scriptCode h
    constructor <;> intros <;> omega
  · rcases legacyMultisig_eq_ok env stack scriptCode h with rfl | rfl
    · constructor <;> intros <;> omega
    · exact ⟨toInt_toIntWrap_le hmin, fun hmax => by rw [toInt_toIntWrap_of_le hmin hmax]; omega⟩

end Multisig

end BitcoinCash
