import BitcoinCash.Arith.Compact
import BitcoinCash.Script.ScriptNum

/-!
# The ASERT target computation

`CalculateASERT` (`pow.cpp`) computes the next proof-of-work target from a reference target
`refTarget`, the time and height distances to the anchor block, the target spacing and the
half-life:
`refTarget * 2 ^ ((nTimeDiff - nPowTargetSpacing * (nHeightDiff + 1)) / nHalfLife)`,
in fixed point. The exponent is an `int64_t` in units of `1 / 65536`; its fractional part goes
through a cubic polynomial in `uint64_t` to a 17-bit `factor`, and its integer part becomes a
shift of the 256-bit product, with a check for overflow. The result is clamped to
`[1, powLimit]`.

Signed overflow, division by zero and a failed `assert` stop the computation: they are the
errors of `AsertFault`. `int64_t` values are integers, checked against `int64Min` and
`int64Max` after each operation.
-/

namespace BitcoinCash

/-- What stops `CalculateASERT` short of a target. -/
inductive AsertFault
  /-- an `assert` fails -/
  | assertFailed
  /-- a signed `int64_t` operation overflows -/
  | int64Overflow
  /-- a division by zero -/
  | divisionByZero
  deriving DecidableEq, Repr

/-- `assert(b)`. -/
def cppAssert (b : Bool) : Except AsertFault Unit :=
  if b then pure () else throw .assertFailed

/-- An `int64_t` operation whose exact result is `v`: undefined outside the range. -/
def int64Result (v : ℤ) : Except AsertFault ℤ :=
  if int64Min ≤ v ∧ v ≤ int64Max then pure v else throw .int64Overflow

/-- `a / b` on `int64_t`: rounds toward zero. -/
def int64Div (a b : ℤ) : Except AsertFault ℤ :=
  if b = 0 then throw .divisionByZero else int64Result (a.tdiv b)

/-- The cubic of `CalculateASERT` on unbounded naturals: `2 ^ 48` times an approximation of
`2 ^ (frac / 65536) - 1`, plus `2 ^ 47` for rounding. -/
def asertPolynomial (frac : ℕ) : ℕ :=
  195766423245049 * frac + 971821376 * frac * frac + 5127 * frac * frac * frac + 2 ^ 47

/-- `factor` in `CalculateASERT`: the cubic in `uint64_t`, shifted right by 48, plus `65536`,
stored in a `uint32_t`. -/
def asertFactor (frac : UInt16) : UInt32 :=
  let f : UInt64 := frac.toUInt64
  let poly : UInt64 :=
    195766423245049 * f + 971821376 * f * f + 5127 * f * f * f + ((1 : UInt64) <<< (47 : UInt64))
  (65536 + (poly >>> (48 : UInt64))).toUInt32

/-- The exponent of `CalculateASERT`, in units of `1 / 65536`, with the `assert` that guards it. -/
def asertExponent (nPowTargetSpacing nTimeDiff nHeightDiff nHalfLife : ℤ) :
    Except AsertFault ℤ := do
  -- `assert(llabs(nTimeDiff - nPowTargetSpacing * nHeightDiff) < (1ll << (63 - 16)))`
  let p ← int64Result (nPowTargetSpacing * nHeightDiff)
  let d ← int64Result (nTimeDiff - p)
  let l ← int64Result |d|
  cppAssert (decide (l < 2 ^ 47))
  -- `((nTimeDiff - nPowTargetSpacing * (nHeightDiff + 1)) * 65536) / nHalfLife`
  let h ← int64Result (nHeightDiff + 1)
  let p ← int64Result (nPowTargetSpacing * h)
  let d ← int64Result (nTimeDiff - p)
  let e ← int64Result (d * 65536)
  int64Div e nHalfLife

/-- The last step of `CalculateASERT`: `0` becomes `1`, and a target above `powLimit` becomes
`powLimit`. -/
def asertClamp (nextTarget powLimit : ArithUint256) : ArithUint256 :=
  if nextTarget.equalTo 0 then BaseUint.ofUInt64 1
  else if 0 < nextTarget.compareTo powLimit then powLimit
  else nextTarget

/-- The shift of `CalculateASERT` by `shifts`: to the right for `shifts ≤ 0`, else to the left,
with `powLimit` when bits are shifted out. Shift counts reach `operator<<` and `operator>>` as
`unsigned int`, that is modulo `2 ^ 32`. -/
def asertShift (nextTarget powLimit : ArithUint256) (shifts : ℤ) :
    Except AsertFault ArithUint256 :=
  if shifts ≤ 0 then do
    let s ← int64Result (-shifts)
    pure (nextTarget.shiftRightAssign (s % 2 ^ 32).toNat)
  else
    let nextTargetShifted := nextTarget.shiftLeftAssign (shifts % 2 ^ 32).toNat
    -- bits shifted out show up as a difference after shifting back
    pure (if nextTargetShifted.shiftRightAssign (shifts % 2 ^ 32).toNat ≠ nextTarget then powLimit
      else nextTargetShifted)

/-- The rest of `CalculateASERT`: `refTarget * factor`, shifted by the integer part of the
exponent minus 16, then clamped to `[1, powLimit]`. -/
def asertScale (refTarget powLimit : ArithUint256) (exponent : ℤ) :
    Except AsertFault ArithUint256 := do
  let shifts := exponent >>> (16 : ℕ)
  let frac := UInt16.ofInt exponent
  cppAssert (exponent == shifts * 65536 + frac.toNat)
  let nextTarget := refTarget.mulAssign (asertFactor frac)
  let shifts ← int64Result (shifts - 16)
  let nextTarget ← asertShift nextTarget powLimit shifts
  pure (asertClamp nextTarget powLimit)

/-- `CalculateASERT(refTarget, nPowTargetSpacing, nTimeDiff, nHeightDiff, powLimit,
nHalfLife)`. -/
def calculateASERT (refTarget : ArithUint256) (nPowTargetSpacing nTimeDiff nHeightDiff : ℤ)
    (powLimit : ArithUint256) (nHalfLife : ℤ) : Except AsertFault ArithUint256 := do
  cppAssert (decide (0 < refTarget.compareTo (BaseUint.ofUInt64 0)) && refTarget.le powLimit)
  cppAssert ((powLimit.shiftRightAssign 224).equalTo 0)
  cppAssert (decide (0 ≤ nHeightDiff))
  let exponent ← asertExponent nPowTargetSpacing nTimeDiff nHeightDiff nHalfLife
  asertScale refTarget powLimit exponent

/-! ### The steps of the computation -/

section Steps

variable {α β : Type}

theorem except_bind_eq_ok {x : Except AsertFault α} {f : α → Except AsertFault β} {r : β} :
    (x >>= f) = .ok r ↔ ∃ a, x = .ok a ∧ f a = .ok r := by
  cases x <;> simp [bind, Except.bind]

theorem cppAssert_eq_ok {b : Bool} {u : Unit} : cppAssert b = .ok u ↔ b = true := by
  cases b <;> simp [cppAssert, throw, throwThe, MonadExceptOf.throw, pure, Except.pure]

theorem cppAssert_of_eq_true {b : Bool} (h : b = true) : cppAssert b = pure () := by
  rw [h]
  rfl

theorem int64Result_of_le {v : ℤ} (h1 : int64Min ≤ v) (h2 : v ≤ int64Max) :
    int64Result v = pure v :=
  if_pos ⟨h1, h2⟩

theorem int64Result_eq_ok {v a : ℤ} :
    int64Result v = .ok a ↔ a = v ∧ int64Min ≤ v ∧ v ≤ int64Max := by
  unfold int64Result
  split_ifs with h
  · simp only [pure, Except.pure, Except.ok.injEq]
    exact ⟨fun h' => ⟨h'.symm, h⟩, fun h' => h'.1.symm⟩
  · exact iff_of_false (fun h' => nomatch h') (fun h' => h h'.2)

end Steps

/-! ### The factor -/

/-- Bounds on the nonlinear terms of the cubic, as the code groups them, for a 16-bit `frac`. -/
theorem asertPolynomial_terms_le {frac : ℕ} (h : frac < 2 ^ 16) :
    971821376 * frac * frac ≤ 971821376 * 65535 * 65535 ∧
      5127 * frac * frac ≤ 5127 * 65535 * 65535 ∧
      5127 * frac * frac * frac ≤ 5127 * 65535 * 65535 * 65535 := by
  have h1 : frac ≤ 65535 := by omega
  have h2 : 5127 * frac * frac ≤ 5127 * 65535 * 65535 :=
    Nat.mul_le_mul (Nat.mul_le_mul_left _ h1) h1
  exact ⟨Nat.mul_le_mul (Nat.mul_le_mul_left _ h1) h1, h2, Nat.mul_le_mul h2 h1⟩

/-- The cubic is increasing, and at `frac = 65535` it is still `1.8 * 10 ^ 14` below `2 ^ 64`. -/
theorem asertPolynomial_lt {frac : ℕ} (h : frac < 2 ^ 16) : asertPolynomial frac < 2 ^ 64 := by
  obtain ⟨k2, -, k3⟩ := asertPolynomial_terms_le h
  unfold asertPolynomial
  omega

/-- `factor` is `65536` plus the top bits of the cubic: no `uint64_t` operation of the cubic
wraps. -/
theorem toNat_asertFactor (frac : UInt16) :
    (asertFactor frac).toNat = 65536 + asertPolynomial frac.toNat / 2 ^ 48 := by
  have hf := frac.toNat_lt
  obtain ⟨k2, k2', k3⟩ := asertPolynomial_terms_le hf
  have hq : asertPolynomial frac.toNat / 2 ^ 48 < 2 ^ 16 := by
    rw [Nat.div_lt_iff_lt_mul (by positivity)]
    exact lt_of_lt_of_eq (asertPolynomial_lt hf) (by norm_num)
  unfold asertFactor
  dsimp only
  simp only [UInt64.toNat_toUInt32, UInt64.toNat_add, UInt64.toNat_mul, UInt64.toNat_shiftRight,
    UInt64.toNat_shiftLeft, UInt16.toNat_toUInt64, UInt64.toNat_ofNat, Nat.reducePow,
    Nat.reduceMod, Nat.shiftRight_eq_div_pow, Nat.shiftLeft_eq, Nat.one_mul]
  -- every intermediate value stays below `2 ^ 64`, innermost first
  simp (disch := omega) only [Nat.mod_eq_of_lt]
  unfold asertPolynomial at hq ⊢
  omega

/-- `factor` lies in `[65536, 131072)`: `65536` times an approximation of `2 ^ (frac / 65536)`. -/
theorem asertFactor_bounds (frac : UInt16) :
    65536 ≤ (asertFactor frac).toNat ∧ (asertFactor frac).toNat < 131072 := by
  have hq : asertPolynomial frac.toNat / 2 ^ 48 < 2 ^ 16 := by
    rw [Nat.div_lt_iff_lt_mul (by positivity)]
    exact lt_of_lt_of_eq (asertPolynomial_lt frac.toNat_lt) (by norm_num)
  rw [toNat_asertFactor]
  omega

/-- A target below `2 ^ 224` times `factor` is below `2 ^ 241`: the product does not wrap. -/
theorem toNat_mulAssign_asertFactor {refTarget : ArithUint256} (h : refTarget.toNat < 2 ^ 224)
    (frac : UInt16) :
    (refTarget.mulAssign (asertFactor frac)).toNat = refTarget.toNat * (asertFactor frac).toNat ∧
      refTarget.toNat * (asertFactor frac).toNat < 2 ^ 241 := by
  have hlt : refTarget.toNat * (asertFactor frac).toNat < 2 ^ 241 :=
    calc refTarget.toNat * (asertFactor frac).toNat < 2 ^ 224 * 2 ^ 17 :=
          Nat.mul_lt_mul_of_lt_of_le h (by have := (asertFactor_bounds frac).2; omega)
            (by positivity)
      _ = 2 ^ 241 := by norm_num
  refine ⟨?_, hlt⟩
  rw [BaseUint.toNat_mulAssign, Nat.mod_eq_of_lt (lt_trans hlt (by norm_num))]

/-! ### The scaling -/

/-- The clamp lands in `[1, powLimit]`, whatever the target it is given. -/
theorem asertClamp_bounds {powLimit : ArithUint256} (hlim : 0 < powLimit.toNat)
    (nextTarget : ArithUint256) :
    1 ≤ (asertClamp nextTarget powLimit).toNat ∧
      (asertClamp nextTarget powLimit).toNat ≤ powLimit.toNat := by
  have hone : (BaseUint.ofUInt64 1 : ArithUint256).toNat = 1 :=
    BaseUint.toNat_ofUInt64 (by norm_num) 1
  unfold asertClamp
  split_ifs with hzero hgt
  · omega
  · omega
  · rw [BaseUint.equalTo_iff (by norm_num) _ (by norm_num)] at hzero
    rw [BaseUint.compareTo_pos_iff] at hgt
    omega

/-- The assert of `CalculateASERT` on the split of the exponent: the arithmetic shift and the
`uint16_t` conversion are the floor quotient and the remainder by `65536`. -/
theorem exponent_eq_shiftRight_add_frac (exponent : ℤ) :
    exponent = (exponent >>> (16 : ℕ)) * 65536 + ((UInt16.ofInt exponent).toNat : ℤ) := by
  have hmod : (0 : ℤ) ≤ exponent % 2 ^ 16 := Int.emod_nonneg _ (by norm_num)
  have hlt : exponent % 2 ^ 16 < 2 ^ 16 := Int.emod_lt_of_pos _ (by norm_num)
  rw [UInt16.ofInt, UInt16.toNat_ofNat', Nat.mod_eq_of_lt (by omega), Int.toNat_of_nonneg hmod,
    Int.shiftRight_eq_div_pow]
  omega

theorem asertScale_eq_clamp {refTarget powLimit t : ArithUint256} {exponent : ℤ}
    (h : asertScale refTarget powLimit exponent = .ok t) :
    ∃ nextTarget, t = asertClamp nextTarget powLimit := by
  unfold asertScale at h
  obtain ⟨_, -, h⟩ := except_bind_eq_ok.mp h
  obtain ⟨_, -, h⟩ := except_bind_eq_ok.mp h
  obtain ⟨nextTarget, -, h⟩ := except_bind_eq_ok.mp h
  exact ⟨nextTarget, (Except.ok.inj h).symm⟩

theorem asertScale_bounds {refTarget powLimit t : ArithUint256} {exponent : ℤ}
    (hlim : 0 < powLimit.toNat) (h : asertScale refTarget powLimit exponent = .ok t) :
    1 ≤ t.toNat ∧ t.toNat ≤ powLimit.toNat := by
  obtain ⟨nextTarget, rfl⟩ := asertScale_eq_clamp h
  exact asertClamp_bounds hlim nextTarget

theorem asertShift_ok (nextTarget powLimit : ArithUint256) (shifts : ℤ)
    (h : int64Min < shifts) : ∃ t, asertShift nextTarget powLimit shifts = .ok t := by
  unfold asertShift
  split_ifs with hle
  · rw [int64Result_of_le (by unfold int64Min at h ⊢; omega)
      (by unfold int64Min int64Max at *; omega),
      pure_bind]
    exact ⟨_, rfl⟩
  · exact ⟨_, rfl⟩

/-- For an `int64_t` exponent the scaling neither fails its `assert` nor overflows. -/
theorem asertScale_ok (refTarget powLimit : ArithUint256) {exponent : ℤ}
    (h1 : int64Min ≤ exponent) (h2 : exponent ≤ int64Max) :
    ∃ t, asertScale refTarget powLimit exponent = .ok t := by
  have hsplit := exponent_eq_shiftRight_add_frac exponent
  have hshift : exponent >>> (16 : ℕ) = exponent / 65536 := by
    rw [Int.shiftRight_eq_div_pow]
    rfl
  unfold int64Min at h1
  unfold int64Max at h2
  unfold asertScale
  dsimp only
  rw [cppAssert_of_eq_true (beq_iff_eq.mpr hsplit), pure_bind,
    int64Result_of_le (by unfold int64Min; omega) (by unfold int64Max; omega), pure_bind]
  obtain ⟨nextTarget, hnext⟩ := asertShift_ok (refTarget.mulAssign (asertFactor
    (UInt16.ofInt exponent))) powLimit (exponent >>> (16 : ℕ) - 16) (by unfold int64Min; omega)
  rw [hnext]
  exact ⟨_, rfl⟩

/-! ### The exponent -/

/-- A computed exponent is an `int64_t`. -/
theorem asertExponent_bounds {nPowTargetSpacing nTimeDiff nHeightDiff nHalfLife e : ℤ}
    (h : asertExponent nPowTargetSpacing nTimeDiff nHeightDiff nHalfLife = .ok e) :
    int64Min ≤ e ∧ e ≤ int64Max := by
  unfold asertExponent at h
  iterate 8 obtain ⟨_, -, h⟩ := except_bind_eq_ok.mp h
  unfold int64Div at h
  -- a division by zero stops with an error, so the quotient was checked
  split_ifs at h
  obtain ⟨rfl, hrange⟩ := int64Result_eq_ok.mp h
  exact hrange

/-- Where `nTimeDiff - nPowTargetSpacing * (nHeightDiff + 1)`, the distance the code multiplies
by `65536`, is itself below `2 ^ 47`, the exponent is computed without overflow. -/
theorem asertExponent_eq {nPowTargetSpacing nTimeDiff nHeightDiff nHalfLife : ℤ}
    (hL : 0 < nHalfLife) (hs : 0 ≤ nPowTargetSpacing) (hh : 0 ≤ nHeightDiff)
    (hhmax : nHeightDiff < int64Max)
    (hp : nPowTargetSpacing * (nHeightDiff + 1) ≤ int64Max)
    (hd : |nTimeDiff - nPowTargetSpacing * nHeightDiff| < 2 ^ 47)
    (hd1 : |nTimeDiff - nPowTargetSpacing * (nHeightDiff + 1)| < 2 ^ 47) :
    asertExponent nPowTargetSpacing nTimeDiff nHeightDiff nHalfLife =
      .ok (((nTimeDiff - nPowTargetSpacing * (nHeightDiff + 1)) * 65536).tdiv nHalfLife) := by
  have hp0 : 0 ≤ nPowTargetSpacing * nHeightDiff := Int.mul_nonneg hs hh
  have hp1 : nPowTargetSpacing * (nHeightDiff + 1) = nPowTargetSpacing * nHeightDiff +
      nPowTargetSpacing := by ring
  have hq := abs_lt.mp hd
  have hq1 := abs_lt.mp hd1
  -- the quotient is no larger than the dividend, an `int64_t`
  have hdiv := Int.natAbs_tdiv_le_natAbs
    ((nTimeDiff - nPowTargetSpacing * (nHeightDiff + 1)) * 65536) nHalfLife
  unfold int64Max at hhmax hp
  unfold asertExponent
  rw [int64Result_of_le (by unfold int64Min; omega) (by unfold int64Max; omega), pure_bind,
    int64Result_of_le (by unfold int64Min; omega) (by unfold int64Max; omega), pure_bind,
    int64Result_of_le (le_trans (by unfold int64Min; norm_num) (abs_nonneg _))
      (by unfold int64Max; linarith), pure_bind,
    cppAssert_of_eq_true (decide_eq_true hd), pure_bind,
    int64Result_of_le (by unfold int64Min; omega) (by unfold int64Max; omega), pure_bind,
    int64Result_of_le (by unfold int64Min; omega) (by unfold int64Max; omega), pure_bind,
    int64Result_of_le (by unfold int64Min; omega) (by unfold int64Max; omega), pure_bind,
    int64Result_of_le (by unfold int64Min; omega) (by unfold int64Max; omega), pure_bind]
  unfold int64Div
  rw [if_neg hL.ne', int64Result_of_le (by unfold int64Min; omega) (by unfold int64Max; omega)]
  rfl

/-! ### `CalculateASERT` -/

/-- A target `CalculateASERT` returns lies in `[1, powLimit]`: its first `assert` makes
`powLimit` positive, and the clamp does the rest. -/
theorem calculateASERT_bounds {refTarget powLimit t : ArithUint256}
    {nPowTargetSpacing nTimeDiff nHeightDiff nHalfLife : ℤ}
    (h : calculateASERT refTarget nPowTargetSpacing nTimeDiff nHeightDiff powLimit nHalfLife =
      .ok t) :
    1 ≤ t.toNat ∧ t.toNat ≤ powLimit.toNat := by
  have hzero : (BaseUint.ofUInt64 0 : ArithUint256).toNat = 0 :=
    BaseUint.toNat_ofUInt64 (by norm_num) 0
  unfold calculateASERT at h
  obtain ⟨_, hassert, h⟩ := except_bind_eq_ok.mp h
  iterate 3 obtain ⟨_, -, h⟩ := except_bind_eq_ok.mp h
  have hpos := cppAssert_eq_ok.mp hassert
  simp only [Bool.and_eq_true, decide_eq_true_eq, BaseUint.compareTo_pos_iff, BaseUint.le_iff,
    hzero] at hpos
  exact asertScale_bounds (by omega) h

/-- Under the `assert`s, with `nTimeDiff - nPowTargetSpacing * (nHeightDiff + 1)` (the distance
the code multiplies by `65536`) below `2 ^ 47` as well, `CalculateASERT` overflows nowhere and
returns a target in `[1, powLimit]`: no `int64_t` operation leaves its range (else the result is
an error), and at the fraction the call computes, the `uint64_t` cubic stays below `2 ^ 64`, the
`uint32_t` factor is its exact value and the 256-bit product `refTarget * factor` does not wrap. -/
theorem calculateASERT_ok {refTarget powLimit : ArithUint256}
    {nPowTargetSpacing nTimeDiff nHeightDiff nHalfLife : ℤ}
    (hpos : 0 < refTarget.toNat) (hle : refTarget.toNat ≤ powLimit.toNat)
    (hlim : powLimit.toNat < 2 ^ 224) (hL : 0 < nHalfLife) (hs : 0 < nPowTargetSpacing)
    (hh : 0 ≤ nHeightDiff) (hhmax : nHeightDiff < int64Max)
    (hp : nPowTargetSpacing * (nHeightDiff + 1) ≤ int64Max)
    (hd : |nTimeDiff - nPowTargetSpacing * nHeightDiff| < 2 ^ 47)
    (hd1 : |nTimeDiff - nPowTargetSpacing * (nHeightDiff + 1)| < 2 ^ 47) :
    ∃ t, calculateASERT refTarget nPowTargetSpacing nTimeDiff nHeightDiff powLimit nHalfLife =
      .ok t ∧ 1 ≤ t.toNat ∧ t.toNat ≤ powLimit.toNat ∧
      let frac := UInt16.ofInt
        (((nTimeDiff - nPowTargetSpacing * (nHeightDiff + 1)) * 65536).tdiv nHalfLife)
      asertPolynomial frac.toNat < 2 ^ 64 ∧
        (asertFactor frac).toNat = 65536 + asertPolynomial frac.toNat / 2 ^ 48 ∧
        (refTarget.mulAssign (asertFactor frac)).toNat = refTarget.toNat * (asertFactor frac).toNat := by
  have hzero : (BaseUint.ofUInt64 0 : ArithUint256).toNat = 0 :=
    BaseUint.toNat_ofUInt64 (by norm_num) 0
  -- the three `assert`s on the arguments hold
  have ha1 : (decide (0 < refTarget.compareTo (BaseUint.ofUInt64 0)) && refTarget.le powLimit) =
      true := by
    simp only [Bool.and_eq_true, decide_eq_true_eq, BaseUint.compareTo_pos_iff, BaseUint.le_iff,
      hzero]
    exact ⟨hpos, hle⟩
  have ha2 : (powLimit.shiftRightAssign 224).equalTo 0 = true := by
    rw [BaseUint.equalTo_iff (by norm_num) _ (by norm_num), BaseUint.toNat_shiftRightAssign,
      Nat.div_eq_of_lt hlim]
  have hexp := asertExponent_eq hL hs.le hh hhmax hp hd hd1
  obtain ⟨he1, he2⟩ := asertExponent_bounds hexp
  obtain ⟨t, ht⟩ := asertScale_ok refTarget powLimit he1 he2
  have hrun : calculateASERT refTarget nPowTargetSpacing nTimeDiff nHeightDiff powLimit
      nHalfLife = .ok t := by
    unfold calculateASERT
    rw [cppAssert_of_eq_true ha1, pure_bind, cppAssert_of_eq_true ha2, pure_bind,
      cppAssert_of_eq_true (decide_eq_true hh), pure_bind, hexp]
    exact ht
  obtain ⟨hlo, hhi⟩ := calculateASERT_bounds hrun
  refine ⟨t, hrun, hlo, hhi, ?_⟩
  intro frac
  exact ⟨asertPolynomial_lt frac.toNat_lt, toNat_asertFactor frac,
    (toNat_mulAssign_asertFactor (lt_of_le_of_lt hle hlim) frac).1⟩

theorem calculateASERT_ok_anchor :
    ∃ t, calculateASERT (BaseUint.ofUInt64 1000) 600 600 0 (BaseUint.ofUInt64 (2 ^ 40)) 172800 =
      .ok t ∧ 1 ≤ t.toNat ∧ t.toNat ≤ (BaseUint.ofUInt64 (2 ^ 40) : ArithUint256).toNat ∧
      let frac := UInt16.ofInt (((600 - 600 * (0 + 1)) * 65536 : ℤ).tdiv 172800)
      asertPolynomial frac.toNat < 2 ^ 64 ∧
        (asertFactor frac).toNat = 65536 + asertPolynomial frac.toNat / 2 ^ 48 ∧
        ((BaseUint.ofUInt64 1000 : ArithUint256).mulAssign (asertFactor frac)).toNat =
          (BaseUint.ofUInt64 1000 : ArithUint256).toNat * (asertFactor frac).toNat :=
  calculateASERT_ok (by decide) (by decide) (by decide) (by decide) (by decide) (by decide)
    (by decide) (by decide) (by decide) (by decide)

theorem calculateASERT_exponent_overflow :
    let refTarget : ArithUint256 := BaseUint.ofUInt64 1
    (0 < refTarget.toNat ∧ refTarget.toNat ≤ refTarget.toNat ∧ refTarget.toNat < 2 ^ 224 ∧
      (0 : ℤ) < 172800 ∧ (0 : ℤ) < 600 ∧ (0 : ℤ) ≤ 0 ∧ |(-(2 ^ 47 - 1) : ℤ) - 600 * 0| < 2 ^ 47) ∧
    calculateASERT refTarget 600 (-(2 ^ 47 - 1)) 0 refTarget 172800 = .error .int64Overflow := by
  intro refTarget
  have hone : refTarget.toNat = 1 := BaseUint.toNat_ofUInt64 (by norm_num) 1
  refine ⟨?_, by decide⟩
  rw [hone]
  norm_num

end BitcoinCash
