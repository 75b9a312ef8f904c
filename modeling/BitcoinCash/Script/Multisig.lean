import BitcoinCash.Arith.BaseUint
import BitcoinCash.Script.Bounds
import BitcoinCash.Data.SetBits
import BitcoinCash.Data.GreedyMatch

/-!
# The two loops of `OP_CHECKMULTISIG`

The Schnorr path reads the dummy element as a bitfield of the keys to check. Its loop pairs the
signatures, from the bottom one up, with the keys at the set bits of the bitfield, from the lowest
one up: each iteration scans from `iKey` to the next set bit, and the scan walks down the list of
the set bits (`SetBits.setBitsFrom_eq_cons`). So once `DecodeBitfield` accepts the bitfield and
it has as many set bits as signatures, the loop checks exactly those pairs
(`schnorrMultisig_checks_pairs`), and its three sanity checks, which the source calls
unreachable, never fire.

The legacy path matches the signatures, in stack order, greedily into the keys, in stack order:
it is `GreedyMatch.run` on the indices of the signatures and of the keys
(`legacyMultisigLoop_eq_run`), which succeeds exactly when a strictly increasing assignment of
signatures to keys checks (`legacyMultisigLoop_greedy`). Every round uses up a key, so the loop
runs at most `nKeysCount` rounds: `legacyMultisigLoop` decreases `nKeysRemaining` by one in each.
-/

namespace BitcoinCash

open SetBits

/-! ### Bits of the Schnorr bitfield -/

theorem shiftBits_of_lt {checkBits : UInt32} {iKey : ℕ} (h : iKey < 32) :
    shiftBits checkBits iKey = .ok (checkBits >>> iKey.toUInt32) := by
  rw [shiftBits, if_neg (Nat.not_le.mpr h)]
  rfl

/-- `checkBits >> iKey` is zero when no bit is set from `iKey` on. -/
theorem shiftRight_eq_zero_iff (checkBits : UInt32) {k : ℕ} (hk : k < 32) :
    checkBits >>> k.toUInt32 = 0 ↔ ∀ m, k ≤ m → checkBits.toNat.testBit m = false := by
  rw [← UInt32.toNat_inj, UInt32.toNat_zero]
  constructor
  · intro h m hm
    have hbit := BaseUint.testBit_uint32_shiftRight checkBits hk (m - k)
    rw [h, Nat.zero_testBit, Nat.add_sub_cancel' hm] at hbit
    exact hbit.symm
  · intro h
    apply Nat.eq_of_testBit_eq
    intro b
    rw [BaseUint.testBit_uint32_shiftRight checkBits hk b, Nat.zero_testBit]
    exact h (k + b) (Nat.le_add_right k b)

/-- `((checkBits >> iKey) & 0x01) == 0` tests the bit at `iKey`. -/
theorem shiftRight_and_one_eq_zero_iff (checkBits : UInt32) {k : ℕ} (hk : k < 32) :
    (checkBits >>> k.toUInt32) &&& 1 = 0 ↔ checkBits.toNat.testBit k = false := by
  have hbit := BaseUint.testBit_uint32_shiftRight checkBits hk 0
  rw [Nat.add_zero, Nat.testBit_zero] at hbit
  rw [← UInt32.toNat_inj, UInt32.toNat_and, UInt32.toNat_one, UInt32.toNat_zero,
    Nat.and_one_is_mod, ← hbit, decide_eq_false_iff_not]
  omega

/-- The scan `while (((checkBits >> iKey) & 0x01) == 0) iKey++` stops at the next set bit. -/
theorem nextKey_eq {checkBits : UInt32} {k j : ℕ} {l : List ℕ}
    (h : setBitsFrom checkBits.toNat 32 k = j :: l) : nextKey checkBits k = .ok j := by
  fun_induction nextKey checkBits k with
  | case1 k hk =>
    rw [setBitsFrom_of_le hk] at h
    cases h
  | case2 k hk hzero ih =>
    -- no bit at `k`: the list from `k` is the list from `k + 1`
    have hbit := (shiftRight_and_one_eq_zero_iff checkBits (by omega)).mp hzero
    rw [setBitsFrom_of_lt (by omega), hbit] at h
    exact ih h
  | case3 k hk hne =>
    have hbit : checkBits.toNat.testBit k = true := by
      rw [← Bool.not_eq_false, ← shiftRight_and_one_eq_zero_iff checkBits (by omega)]
      exact hne
    rw [setBitsFrom_of_lt (by omega), if_pos hbit, List.cons.injEq] at h
    rw [h.1]
    rfl

theorem countBits_eq_length (v : UInt32) : countBits v = (setBitsFrom v.toNat 32 0).length := by
  rw [countBits, setBitsFrom, List.range_eq_range']

/-- A set bit of a bitfield that `DecodeBitfield` accepted for `nKeysCount` keys names a key. -/
theorem lt_of_mem_setBitsFrom {checkBits : UInt32} {nKeysCount k j : ℕ}
    (hbits : checkBits.toNat < 2 ^ nKeysCount) (hj : j ∈ setBitsFrom checkBits.toNat 32 k) :
    j < nKeysCount := by
  obtain ⟨-, -, hbit⟩ := mem_setBitsFrom.mp hj
  by_contra hge
  rw [Nat.testBit_lt_two_pow (lt_of_lt_of_le hbits
    (Nat.pow_le_pow_right Nat.two_pos (Nat.le_of_not_lt hge)))] at hbit
  cases hbit

/-! ### The errors of a check -/

theorem stacktop_eq_error {stack : List ValType} {i : ℤ} {e : EvalFault}
    (h : stacktop stack i = .error e) : e = .exception .outOfRange := by
  unfold stacktop at h
  split_ifs at h
  · split at h
    · cases h
    · exact (Except.error.inj h).symm
  · exact (Except.error.inj h).symm

theorem liftScriptError_eq_error {α : Type} {x : Except ScriptError α} {e : EvalFault}
    (h : liftScriptError x = .error e) : ∃ e', e = .scriptError e' ∧ x = .error e' := by
  cases x with
  | error e' => exact ⟨e', (Except.error.inj h).symm, rfl⟩
  | ok a => cases h

theorem addSigChecks_eq_error {n : Int32} {k : ℤ} {e : EvalFault}
    (h : addSigChecks n k = .error e) : e = .undefined .signedOverflow := by
  unfold addSigChecks at h
  split_ifs at h
  exact (Except.error.inj h).symm

theorem checkSighashEncoding_error {vchSig : ValType} {flags : UInt32} {e : ScriptError}
    (h : checkSighashEncoding vchSig flags = .error e) :
    e = .sigHashtype ∨ e = .illegalForkid ∨ e = .mustUseForkid := by
  unfold checkSighashEncoding at h
  dsimp only at h
  split_ifs at h <;> cases h
  · exact .inl rfl
  · exact .inr (.inl rfl)
  · exact .inr (.inr rfl)

/-- A Schnorr signature is refused for its size or for its sighash byte. -/
theorem checkTransactionSchnorrSignatureEncoding_error {vchSig : ValType} {flags : UInt32}
    {e : ScriptError} (h : checkTransactionSchnorrSignatureEncoding vchSig flags = .error e) :
    e = .sigNonschnorr ∨ e = .sigHashtype ∨ e = .illegalForkid ∨ e = .mustUseForkid := by
  unfold checkTransactionSchnorrSignatureEncoding checkTransactionSignatureEncodingImpl at h
  split_ifs at h
  · cases h
  rcases Except.bind_eq_error.mp h with h | ⟨_, -, h⟩
  · unfold checkRawSchnorrSignatureEncoding at h
    dsimp only at h
    split_ifs at h
    · cases h
    · exact .inl (Except.error.inj h).symm
  · exact .inr (checkSighashEncoding_error h)

theorem checkPubKeyEncoding_error {vchPubKey : ValType} {flags : UInt32} {e : ScriptError}
    (h : checkPubKeyEncoding vchPubKey flags = .error e) : e = .pubkeytype := by
  unfold checkPubKeyEncoding at h
  split_ifs at h
  · exact (Except.error.inj h).symm
  · cases h

/-! ### The Schnorr loop -/

/-- The pairs the Schnorr loop checks: signature `i` from the bottom with the key at the `i`-th
set bit of `checkBits`. -/
def schnorrPairs (checkBits : UInt32) (nSigsCount : ℕ) : List (ℕ × ℕ) :=
  (List.range nSigsCount).zip (setBitsFrom checkBits.toNat 32 0)

section Schnorr

variable (env : EvalEnv) (stack : List ValType) (scriptCode : List UInt8)

/-- The check of signature `iSig` from the bottom against key `iKey` from the bottom: the
encodings, `CheckSig`, and one more signature check. -/
def schnorrCheckPair (idxBottomKey idxBottomSig : ℕ) (nSigChecks : Int32) (pair : ℕ × ℕ) :
    Except EvalFault Int32 := do
  let vchSig ← stacktop stack (-(idxBottomSig : ℤ) + pair.1)
  let vchPubKey ← stacktop stack (-(idxBottomKey : ℤ) + pair.2)
  liftScriptError (checkTransactionSchnorrSignatureEncoding vchSig env.flags)
  liftScriptError (checkPubKeyEncoding vchPubKey env.flags)
  if !env.checker.checkSig vchSig vchPubKey scriptCode env.flags then
    throw (.scriptError .sigNullfail)
  else addSigChecks nSigChecks 1

/-- An iteration of the Schnorr loop from `iKey = k`, with `j` the next set bit: it checks the
signature against the key at `j` and goes on from `j + 1`. -/
theorem schnorrMultisigStep_eq {checkBits : UInt32} {nKeysCount idxBottomKey idxBottomSig : ℕ}
    {k j : ℕ} {l : List ℕ} (hl : setBitsFrom checkBits.toNat 32 k = j :: l) (hj : j < nKeysCount)
    (c : Int32) (iSig : ℕ) :
    schnorrMultisigStep env stack scriptCode checkBits nKeysCount idxBottomKey idxBottomSig (k, c)
        iSig =
      (fun c' => (j + 1, c')) <$>
        schnorrCheckPair env stack scriptCode idxBottomKey idxBottomSig c (iSig, j) := by
  obtain ⟨hkj, hj32, hbit, -, -⟩ := setBitsFrom_eq_cons hl
  -- the bit at `j` is at or above `k`, so the shift is not zero
  have hshift : checkBits >>> k.toUInt32 ≠ 0 := fun h0 => by
    rw [(shiftRight_eq_zero_iff checkBits (by omega)).mp h0 j hkj] at hbit
    cases hbit
  simp only [schnorrMultisigStep, schnorrCheckPair, shiftBits_of_lt (show k < 32 by omega),
    Except.bind_ok', if_neg hshift, nextKey_eq hl, if_neg (Nat.not_le.mpr hj), map_bind,
    apply_ite, bind_pure_comp]
  rfl

/-- The whole loop from `iKey = k`: while signatures remain, it walks down the set bits from
`k`, and it stops at a key `k'` from which no bit is set. -/
theorem foldlM_schnorrMultisigStep {checkBits : UInt32} {nKeysCount idxBottomKey idxBottomSig : ℕ}
    (hbits : checkBits.toNat < 2 ^ nKeysCount) :
    ∀ (is l : List ℕ) (k : ℕ), is.length = l.length → setBitsFrom checkBits.toNat 32 k = l →
      k ≤ nKeysCount → ∃ k', k' ≤ nKeysCount ∧ setBitsFrom checkBits.toNat 32 k' = [] ∧
        ∀ c, is.foldlM (schnorrMultisigStep env stack scriptCode checkBits nKeysCount idxBottomKey
            idxBottomSig) (k, c) =
          (fun c' => (k', c')) <$> (is.zip l).foldlM
            (schnorrCheckPair env stack scriptCode idxBottomKey idxBottomSig) c := by
  intro is
  induction is with
  | nil =>
    intro l k hlen hl hk
    rw [List.length_nil, eq_comm, List.length_eq_zero_iff] at hlen
    subst hlen
    exact ⟨k, hk, hl, fun c => rfl⟩
  | cons i is ih =>
    intro l k hlen hl hk
    obtain _ | ⟨j, l⟩ := l
    · cases hlen
    have hj : j < nKeysCount := lt_of_mem_setBitsFrom hbits (hl ▸ List.mem_cons_self)
    obtain ⟨k', hk', hend, hrest⟩ := ih l (j + 1) (Nat.succ.inj hlen) (setBitsFrom_eq_cons hl).2.2.2.2 hj
    refine ⟨k', hk', hend, fun c => ?_⟩
    rw [List.foldlM_cons, List.zip_cons_cons, List.foldlM_cons,
      schnorrMultisigStep_eq env stack scriptCode hl hj]
    -- the iteration either fails in both or goes on from `j + 1` in both
    cases schnorrCheckPair env stack scriptCode idxBottomKey idxBottomSig c (i, j) with
    | error e => rfl
    | ok c₁ => exact hrest c₁

/-- The errors one check of the Schnorr loop can raise: a read out of range, a bad encoding,
`NULLFAIL`, or an overflow of the signature-check count. None of them is a sanity error. -/
theorem schnorrCheckPair_error {idxBottomKey idxBottomSig : ℕ} {c : Int32} {pair : ℕ × ℕ}
    {e : EvalFault}
    (h : schnorrCheckPair env stack scriptCode idxBottomKey idxBottomSig c pair = .error e) :
    e ≠ .scriptError .invalidBitRange ∧ e ≠ .scriptError .pubkeyCount ∧
      e ≠ .scriptError .invalidBitCount := by
  unfold schnorrCheckPair at h
  rcases Except.bind_eq_error.mp h with h | ⟨vchSig, -, h⟩
  · rw [stacktop_eq_error h]
    exact ⟨nofun, nofun, nofun⟩
  rcases Except.bind_eq_error.mp h with h | ⟨vchPubKey, -, h⟩
  · rw [stacktop_eq_error h]
    exact ⟨nofun, nofun, nofun⟩
  rcases Except.bind_eq_error.mp h with h | ⟨_, -, h⟩
  · obtain ⟨e', rfl, he'⟩ := liftScriptError_eq_error h
    rcases checkTransactionSchnorrSignatureEncoding_error he' with rfl | rfl | rfl | rfl <;>
      exact ⟨nofun, nofun, nofun⟩
  rcases Except.bind_eq_error.mp h with h | ⟨_, -, h⟩
  · obtain ⟨e', rfl, he'⟩ := liftScriptError_eq_error h
    rw [checkPubKeyEncoding_error he']
    exact ⟨nofun, nofun, nofun⟩
  split_ifs at h
  · rw [Except.throw_eq_error, Except.error.injEq] at h
    subst h
    exact ⟨nofun, nofun, nofun⟩
  · rw [addSigChecks_eq_error h]
    exact ⟨nofun, nofun, nofun⟩

/-- The Schnorr path of `OP_CHECKMULTISIG` with counts `0 ≤ nSigsCount ≤ nKeysCount ≤ 20`, a
stack that holds the dummy element, a bitfield that `DecodeBitfield` accepts and as many set
bits as signatures: the loop checks exactly `nSigsCount` pairs, signature `i` from the bottom
with the key at the `i`-th set bit, every index it passes to `stacktop` lies in the signature or
the key region, and none of the sanity errors `INVALID_BIT_RANGE`, `PUBKEY_COUNT` and
`INVALID_BIT_COUNT` can be raised. -/
theorem schnorrMultisig_checks_pairs {nKeysCount nSigsCount idxTopKey idxTopSig idxDummy : ℕ}
    {checkBits : UInt32} (n : Int32) (hkeys : nKeysCount ≤ 20)
    (hTopSig : idxTopSig = idxTopKey + nKeysCount + 1) (hDummy : idxDummy = idxTopSig + nSigsCount)
    (hLen : idxDummy ≤ stack.length)
    (hdecode : decodeBitfield (stack.getD (idxDummy - 1) []) nKeysCount = .ok checkBits)
    (hcount : countBits checkBits = nSigsCount) :
    (schnorrPairs checkBits nSigsCount).length = nSigsCount ∧
      (∀ p ∈ schnorrPairs checkBits nSigsCount,
        (-(idxTopSig + nSigsCount : ℤ) < -((idxTopSig + nSigsCount - 1 : ℕ) : ℤ) + p.1 ∧
          -((idxTopSig + nSigsCount - 1 : ℕ) : ℤ) + p.1 ≤ -(idxTopSig : ℤ)) ∧
        (-(idxTopKey + nKeysCount : ℤ) < -((idxTopKey + nKeysCount - 1 : ℕ) : ℤ) + p.2 ∧
          -((idxTopKey + nKeysCount - 1 : ℕ) : ℤ) + p.2 ≤ -(idxTopKey : ℤ))) ∧
      schnorrMultisig env stack scriptCode nKeysCount nSigsCount idxTopKey idxTopSig idxDummy n =
        (fun c => (true, c)) <$> (schnorrPairs checkBits nSigsCount).foldlM
          (schnorrCheckPair env stack scriptCode (idxTopKey + nKeysCount - 1)
            (idxTopSig + nSigsCount - 1)) n ∧
      ∀ e, schnorrMultisig env stack scriptCode nKeysCount nSigsCount idxTopKey idxTopSig idxDummy
          n = .error e →
        e ≠ .scriptError .invalidBitRange ∧ e ≠ .scriptError .pubkeyCount ∧
          e ≠ .scriptError .invalidBitCount := by
  have hbits := decodeBitfield_lt hdecode
  have hlen : (List.range nSigsCount).length = (setBitsFrom checkBits.toNat 32 0).length := by
    rw [List.length_range, ← countBits_eq_length, hcount]
  have hpairs : (schnorrPairs checkBits nSigsCount).length = nSigsCount := by
    rw [schnorrPairs, List.length_zip, hlen, Nat.min_self, ← countBits_eq_length, hcount]
  -- every pair is a signature below `nSigsCount` and a key below `nKeysCount`
  have hregion : ∀ p ∈ schnorrPairs checkBits nSigsCount, p.1 < nSigsCount ∧ p.2 < nKeysCount :=
    fun p hp => by
      obtain ⟨h1, h2⟩ := List.of_mem_zip hp
      exact ⟨List.mem_range.mp h1, lt_of_mem_setBitsFrom hbits h2⟩
  -- the loop, and the final check from the key after the last set bit
  obtain ⟨k', hk', hend, hfold⟩ := @foldlM_schnorrMultisigStep env stack scriptCode checkBits
    nKeysCount (idxTopKey + nKeysCount - 1) (idxTopSig + nSigsCount - 1) hbits _ _ 0 hlen rfl
    (Nat.zero_le _)
  have hlast : shiftBits checkBits k' = .ok 0 := by
    rw [shiftBits_of_lt (by omega), (shiftRight_eq_zero_iff checkBits (by omega)).mpr
      fun m hm => testBit_of_setBitsFrom_eq_nil hend checkBits.toNat_lt hm]
  have hdummy : stacktop stack (-(idxDummy : ℤ)) = .ok (stack.getD (idxDummy - 1) []) := by
    have hidx : -(idxDummy : ℤ) = -((idxDummy - 1 : ℕ) : ℤ) - 1 := by omega
    rw [hidx, stacktop_of_lt (by omega), List.getD_eq_getElem _ _ (by omega)]
  have heq : schnorrMultisig env stack scriptCode nKeysCount nSigsCount idxTopKey idxTopSig
      idxDummy n = (fun c => (true, c)) <$> (schnorrPairs checkBits nSigsCount).foldlM
        (schnorrCheckPair env stack scriptCode (idxTopKey + nKeysCount - 1)
          (idxTopSig + nSigsCount - 1)) n := by
    rw [schnorrMultisig, hdummy, Except.bind_ok', hdecode]
    simp only [liftScriptError, Except.bind_ok', hcount, ne_eq, not_true_eq_false, if_false,
      hfold n, schnorrPairs]
    cases (((List.range nSigsCount).zip (setBitsFrom checkBits.toNat 32 0)).foldlM
      (schnorrCheckPair env stack scriptCode (idxTopKey + nKeysCount - 1)
        (idxTopSig + nSigsCount - 1)) n) with
    | error e => rfl
    | ok c =>
      simp only [Except.map_ok', Except.bind_ok', hlast, not_true_eq_false, if_false]
      rfl
  refine ⟨hpairs, fun p hp => ?_, heq, fun e he => ?_⟩
  · have := hregion p hp
    omega
  · -- a failure is a failure of one of the checks
    rw [heq] at he
    cases hrun : (schnorrPairs checkBits nSigsCount).foldlM
      (schnorrCheckPair env stack scriptCode (idxTopKey + nKeysCount - 1)
        (idxTopSig + nSigsCount - 1)) n with
    | ok c => rw [hrun] at he; cases he
    | error e' =>
      rw [hrun] at he
      cases he
      exact Except.foldlM_error (fun c p e'' _ h => schnorrCheckPair_error env stack scriptCode h)
        hrun

/-- One signature checked against one key, selected by the bitfield `0x01`. -/
theorem schnorrMultisig_checks_pairs_one_of_one :
    (schnorrPairs 1 1).length = 1 ∧
      (∀ p ∈ schnorrPairs 1 1,
        (-((4 : ℕ) + (1 : ℕ) : ℤ) < -((4 + 1 - 1 : ℕ) : ℤ) + p.1 ∧
          -((4 + 1 - 1 : ℕ) : ℤ) + p.1 ≤ -((4 : ℕ) : ℤ)) ∧
        (-((2 : ℕ) + (1 : ℕ) : ℤ) < -((2 + 1 - 1 : ℕ) : ℤ) + p.2 ∧
          -((2 + 1 - 1 : ℕ) : ℤ) + p.2 ≤ -((2 : ℕ) : ℤ))) ∧
      schnorrMultisig default [[], [], [], [], [1]] [] 1 1 2 4 5 0 =
        (fun c => (true, c)) <$> (schnorrPairs 1 1).foldlM
          (schnorrCheckPair default [[], [], [], [], [1]] [] (2 + 1 - 1) (4 + 1 - 1)) 0 ∧
      ∀ e, schnorrMultisig default [[], [], [], [], [1]] [] 1 1 2 4 5 0 = .error e →
        e ≠ .scriptError .invalidBitRange ∧ e ≠ .scriptError .pubkeyCount ∧
          e ≠ .scriptError .invalidBitCount :=
  schnorrMultisig_checks_pairs default [[], [], [], [], [1]] [] 0 (by decide) rfl rfl (by decide)
    rfl rfl

end Schnorr


/-! ### The legacy loop -/

section Legacy

variable (env : EvalEnv) (stack : List ValType) (scriptCode : List UInt8)

/-- A read by `stacktop` sees only the element it reads. -/
theorem stacktop_congr {stack' : List ValType} {i : ℤ}
    (h : stack'[(-i - 1).toNat]? = stack[(-i - 1).toNat]?) : stacktop stack' i = stacktop stack i := by
  unfold stacktop
  rw [h]

/-- A check of the legacy loop reads signature `k` below the top one and key `l` below the top
one, and nothing else. -/
theorem legacyMultisigCheck_congr {stack' : List ValType} {idxTopKey idxTopSig k l : ℕ}
    (hsig : stack'[idxTopSig + k - 1]? = stack[idxTopSig + k - 1]?)
    (hkey : stack'[idxTopKey + l - 1]? = stack[idxTopKey + l - 1]?) :
    legacyMultisigCheck env stack' scriptCode idxTopKey idxTopSig k l =
      legacyMultisigCheck env stack scriptCode idxTopKey idxTopSig k l := by
  have hk : (-(-(idxTopSig : ℤ) - (k : ℤ)) - 1).toNat = idxTopSig + k - 1 := by omega
  have hl : (-(-(idxTopKey : ℤ) - (l : ℤ)) - 1).toNat = idxTopKey + l - 1 := by omega
  unfold legacyMultisigCheck
  rw [@stacktop_congr stack stack' (-(idxTopSig : ℤ) - k) (by rw [hk]; exact hsig),
    @stacktop_congr stack stack' (-(idxTopKey : ℤ) - l) (by rw [hl]; exact hkey)]

/-- The legacy loop with `r` signatures and `kr` keys left is the greedy match of the last `r`
signatures into the last `kr` keys. -/
theorem legacyMultisigLoop_eq_run {nSigsCount nKeysCount idxTopKey idxTopSig : ℕ} :
    ∀ (kr r : ℕ), r ≤ kr → r ≤ nSigsCount → kr ≤ nKeysCount →
      legacyMultisigLoop env stack scriptCode nSigsCount nKeysCount idxTopKey idxTopSig r kr =
        GreedyMatch.run
          (fun k l : ℕ => legacyMultisigCheck env stack scriptCode idxTopKey idxTopSig k l)
          (List.range' (nSigsCount - r) r) (List.range' (nKeysCount - kr) kr) := by
  intro kr
  -- every round uses up a key
  induction kr with
  | zero =>
    intro r hr _ _
    obtain rfl : r = 0 := Nat.le_zero.mp hr
    rw [legacyMultisigLoop, dif_neg (by omega)]
    rfl
  | succ kr ih =>
    intro r hr hrs hkr
    cases r with
    | zero =>
      rw [legacyMultisigLoop, dif_neg (by omega)]
      rfl
    | succ r =>
      rw [legacyMultisigLoop, dif_pos (by omega), List.range'_succ, List.range'_succ,
        GreedyMatch.run]
      have hk : ((nSigsCount - (r + 1) : ℕ) : ℤ) = (nSigsCount : ℤ) - ((r + 1 : ℕ) : ℤ) := by
        omega
      have hl : ((nKeysCount - (kr + 1) : ℕ) : ℤ) = (nKeysCount : ℤ) - ((kr + 1 : ℕ) : ℤ) := by
        omega
      dsimp only
      rw [hk, hl]
      cases legacyMultisigCheck env stack scriptCode idxTopKey idxTopSig
        ((nSigsCount : ℤ) - ((r + 1 : ℕ) : ℤ)) ((nKeysCount : ℤ) - ((kr + 1 : ℕ) : ℤ)) with
      | error e => rfl
      | ok fOk =>
        have hkeys : nKeysCount - (kr + 1) + 1 = nKeysCount - kr := by omega
        have hkr : ((kr + 1 : ℕ) : ℤ) - 1 = (kr : ℤ) := by omega
        dsimp only
        rw [List.length_range', hkeys, hkr]
        cases fOk with
        | false =>
          -- a failed check keeps the signature for the next key
          rw [if_neg Bool.false_ne_true, if_neg Bool.false_ne_true, ← List.range'_succ]
          by_cases hlong : ((r + 1 : ℕ) : ℤ) > (kr : ℤ)
          · rw [dif_pos hlong, if_pos (by rw [List.length_range']; omega)]
          · rw [dif_neg hlong, if_neg (by rw [List.length_range']; omega), hkr]
            exact ih (r + 1) (by omega) hrs (by omega)
        | true =>
          -- a matched signature is done
          have hsigs : nSigsCount - (r + 1) + 1 = nSigsCount - r := by omega
          have hr' : ((r + 1 : ℕ) : ℤ) - 1 = (r : ℤ) := by omega
          rw [if_pos rfl, if_pos rfl, hsigs, hr']
          by_cases hlong : (r : ℤ) > (kr : ℤ)
          · rw [dif_pos hlong, if_pos (by rw [List.length_range']; omega)]
          · rw [dif_neg hlong, if_neg (by rw [List.length_range']; omega), hkr]
            exact ih r (by omega) (by omega) (by omega)

/-- The legacy loop of `OP_CHECKMULTISIG`, for counts `0 ≤ nSigsCount ≤ nKeysCount` that the stack
holds, and for every `CheckSig`: it reads only the signature and the key regions, each read in
range; at most `nKeysCount` checks of a signature against a key decide it, one per iteration; it
returns whenever the checks of its pairs do; and it returns `true` exactly when a strictly
increasing assignment `f` of the signatures to the keys, in stack order, has every signature `i`
check against key `f i`. -/
theorem legacyMultisigLoop_greedy {nKeysCount nSigsCount idxTopKey idxTopSig : ℕ}
    (hsigs : nSigsCount ≤ nKeysCount) (hTopKey : 1 ≤ idxTopKey)
    (hTopSig : idxTopSig = idxTopKey + nKeysCount + 1)
    (hLen : idxTopSig + nSigsCount ≤ stack.length) :
    NoMemoryFault (legacyMultisigLoop env stack scriptCode nSigsCount nKeysCount idxTopKey
        idxTopSig nSigsCount nKeysCount) ∧
      (∀ stack' : List ValType, (∀ d, (idxTopSig ≤ d ∧ d < idxTopSig + nSigsCount) ∨
          (idxTopKey ≤ d ∧ d < idxTopKey + nKeysCount) → stack'[d - 1]? = stack[d - 1]?) →
        legacyMultisigLoop env stack' scriptCode nSigsCount nKeysCount idxTopKey idxTopSig
            nSigsCount nKeysCount =
          legacyMultisigLoop env stack scriptCode nSigsCount nKeysCount idxTopKey idxTopSig
            nSigsCount nKeysCount) ∧
      (∃ P : List (ℕ × ℕ), P.length ≤ nKeysCount ∧ ∀ (env' : EvalEnv) (stack' : List ValType),
        (∀ p ∈ P, legacyMultisigCheck env' stack' scriptCode idxTopKey idxTopSig p.1 p.2 =
          legacyMultisigCheck env stack scriptCode idxTopKey idxTopSig p.1 p.2) →
        legacyMultisigLoop env' stack' scriptCode nSigsCount nKeysCount idxTopKey idxTopSig
            nSigsCount nKeysCount =
          legacyMultisigLoop env stack scriptCode nSigsCount nKeysCount idxTopKey idxTopSig
            nSigsCount nKeysCount) ∧
      ((∀ k < nSigsCount, ∀ l < nKeysCount,
          ∃ b, legacyMultisigCheck env stack scriptCode idxTopKey idxTopSig k l = .ok b) →
        ∃ b, legacyMultisigLoop env stack scriptCode nSigsCount nKeysCount idxTopKey idxTopSig
          nSigsCount nKeysCount = .ok b) ∧
      ∀ b, legacyMultisigLoop env stack scriptCode nSigsCount nKeysCount idxTopKey idxTopSig
          nSigsCount nKeysCount = .ok b →
        (b = true ↔ ∃ f : ℕ → ℕ, (∀ i < nSigsCount, f i < nKeysCount ∧
            legacyMultisigCheck env stack scriptCode idxTopKey idxTopSig i (f i) = .ok true) ∧
          ∀ i j, i < j → j < nSigsCount → f i < f j) := by
  -- the loop is the greedy match of the signature indices into the key indices
  have hrun : ∀ (env' : EvalEnv) (stack' : List ValType), legacyMultisigLoop env' stack'
      scriptCode nSigsCount nKeysCount idxTopKey idxTopSig nSigsCount nKeysCount =
      GreedyMatch.run
        (fun k l : ℕ => legacyMultisigCheck env' stack' scriptCode idxTopKey idxTopSig k l)
        (List.range' 0 nSigsCount) (List.range' 0 nKeysCount) := fun env' stack' => by
    rw [legacyMultisigLoop_eq_run env' stack' scriptCode nKeysCount nSigsCount hsigs le_rfl
      le_rfl, Nat.sub_self, Nat.sub_self]
  refine ⟨?_, fun stack' hagree => ?_, ?_, fun hok => ?_, fun b hb => ?_⟩
  · exact noMemoryFault_legacyMultisigLoop env stack scriptCode hTopKey (by omega) (by omega)
      (by omega) nSigsCount nKeysCount le_rfl (by omega) le_rfl
  · rw [hrun env stack', hrun env stack]
    refine GreedyMatch.run_congr _ fun k hk l hl => ?_
    rw [List.mem_range'_1] at hk hl
    exact legacyMultisigCheck_congr env stack scriptCode
      (hagree (idxTopSig + k) (.inl ⟨by omega, by omega⟩))
      (hagree (idxTopKey + l) (.inr ⟨by omega, by omega⟩))
  · -- one check per key
    obtain ⟨P, hP, hdet⟩ := GreedyMatch.run_determined_by_checks
      (fun k l : ℕ => legacyMultisigCheck env stack scriptCode idxTopKey idxTopSig k l)
      (List.range' 0 nSigsCount) (List.range' 0 nKeysCount)
    refine ⟨P, by rw [List.length_range'] at hP; exact hP, fun env' stack' hagree => ?_⟩
    rw [hrun env' stack', hrun env stack]
    exact hdet _ hagree
  · rw [hrun env stack]
    refine GreedyMatch.run_ok _ fun k hk l hl => ?_
    rw [List.mem_range'_1] at hk hl
    exact hok k (by omega) l (by omega)
  · rw [hrun env stack] at hb
    rw [GreedyMatch.run_eq_ok _ hb, GreedyMatch.sublistForall₂_range'_iff, GreedyMatch.StrictMatch]
    simp only [Nat.zero_add, GreedyMatch.Passes]

/-- One signature against one key. -/
theorem legacyMultisigLoop_greedy_one_of_one :
    NoMemoryFault (legacyMultisigLoop default [[], [], [], [], []] [] (1 : ℕ) (1 : ℕ) 2 4 (1 : ℕ)
        (1 : ℕ)) ∧
      (∀ stack' : List ValType, (∀ d, (4 ≤ d ∧ d < 4 + 1) ∨ (2 ≤ d ∧ d < 2 + 1) →
          stack'[d - 1]? = ([[], [], [], [], []] : List ValType)[d - 1]?) →
        legacyMultisigLoop default stack' [] (1 : ℕ) (1 : ℕ) 2 4 (1 : ℕ) (1 : ℕ) =
          legacyMultisigLoop default [[], [], [], [], []] [] (1 : ℕ) (1 : ℕ) 2 4 (1 : ℕ) (1 : ℕ)) ∧
      (∃ P : List (ℕ × ℕ), P.length ≤ 1 ∧ ∀ (env' : EvalEnv) (stack' : List ValType),
        (∀ p ∈ P, legacyMultisigCheck env' stack' [] 2 4 (p.1 : ℕ) (p.2 : ℕ) =
          legacyMultisigCheck default [[], [], [], [], []] [] 2 4 (p.1 : ℕ) (p.2 : ℕ)) →
        legacyMultisigLoop env' stack' [] (1 : ℕ) (1 : ℕ) 2 4 (1 : ℕ) (1 : ℕ) =
          legacyMultisigLoop default [[], [], [], [], []] [] (1 : ℕ) (1 : ℕ) 2 4 (1 : ℕ) (1 : ℕ)) ∧
      ((∀ k < 1, ∀ l < 1, ∃ b, legacyMultisigCheck default [[], [], [], [], []] [] 2 4 (k : ℕ)
          (l : ℕ) = .ok b) →
        ∃ b, legacyMultisigLoop default [[], [], [], [], []] [] (1 : ℕ) (1 : ℕ) 2 4 (1 : ℕ)
          (1 : ℕ) = .ok b) ∧
      ∀ b, legacyMultisigLoop default [[], [], [], [], []] [] (1 : ℕ) (1 : ℕ) 2 4 (1 : ℕ)
          (1 : ℕ) = .ok b →
        (b = true ↔ ∃ f : ℕ → ℕ, (∀ i < 1, f i < 1 ∧
            legacyMultisigCheck default [[], [], [], [], []] [] 2 4 (i : ℕ) (f i : ℕ) = .ok true) ∧
          ∀ i j, i < j → j < 1 → f i < f j) :=
  legacyMultisigLoop_greedy default [[], [], [], [], []] [] (by decide) (by decide) rfl (by decide)

end Legacy

end BitcoinCash
