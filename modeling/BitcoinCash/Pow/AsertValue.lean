import Mathlib
import BitcoinCash.Pow.Asert

/-!
# What `CalculateASERT` computes

`Pow/Asert.lean` runs `CalculateASERT` step by step. Here its result is read off as arithmetic
on naturals: the clamp of `refTarget * factor` shifted by the integer part of the exponent
minus `16` (`asertValue`), provided the shift count survives its conversion to `unsigned int`.
That holds for every exponent the code computes once `nHalfLife ≥ 2 ^ 16` (the consensus
half-life is two days), and not for shorter half-lives: a shift count of `-2 ^ 32` becomes a
shift by `0`.
-/

namespace BitcoinCash

/-- A shift by `shifts` on unbounded naturals: floor division by `2 ^ (-shifts)` for
`shifts ≤ 0`, multiplication by `2 ^ shifts` otherwise. -/
def shiftTarget (x : ℕ) (shifts : ℤ) : ℕ :=
  if shifts ≤ 0 then x / 2 ^ (-shifts).toNat else x * 2 ^ shifts.toNat

/-- `refTarget * factor`, shifted by the integer part of the exponent minus `16`: what
`CalculateASERT` computes before its clamp, on unbounded naturals. -/
def asertValue (refTarget : ℕ) (exponent : ℤ) : ℕ :=
  shiftTarget (refTarget * (asertFactor (UInt16.ofInt exponent)).toNat) (exponent >>> (16 : ℕ) - 16)

/-! ### Shifts and the clamp -/

theorem shiftTarget_mono_left {x y : ℕ} (h : x ≤ y) (shifts : ℤ) :
    shiftTarget x shifts ≤ shiftTarget y shifts := by
  unfold shiftTarget
  split_ifs
  · exact Nat.div_le_div_right h
  · exact Nat.mul_le_mul_right _ h

theorem shiftTarget_eq_zero {x : ℕ} {shifts : ℤ} (hle : shifts ≤ 0)
    (hx : x < 2 ^ (-shifts).toNat) : shiftTarget x shifts = 0 := by
  rw [shiftTarget, if_pos hle, Nat.div_eq_of_lt hx]

/-- One more unit of shift makes up for halving what is shifted. -/
theorem shiftTarget_le_succ {x y : ℕ} (h : x ≤ 2 * y) (shifts : ℤ) :
    shiftTarget x shifts ≤ shiftTarget y (shifts + 1) := by
  unfold shiftTarget
  split_ifs with h0 h1 h1
  · -- both shifts go right, `x` by one bit more
    have hk : (-shifts).toNat = (-(shifts + 1)).toNat + 1 := by omega
    rw [hk, pow_succ', ← Nat.div_div_eq_div_mul]
    exact Nat.div_le_div_right (Nat.div_le_of_le_mul (by omega))
  · -- `shifts = 0`: `x ≤ y * 2`
    have hk : (shifts + 1).toNat = 1 := by omega
    rw [show (-shifts).toNat = 0 by omega, hk]
    omega
  · omega
  · have hk : (shifts + 1).toNat = shifts.toNat + 1 := by omega
    rw [hk, pow_succ]
    calc x * 2 ^ shifts.toNat ≤ 2 * y * 2 ^ shifts.toNat := Nat.mul_le_mul_right _ h
      _ = y * (2 ^ shifts.toNat * 2) := by ring

/-- Shifting left and back loses nothing exactly when the product fits. -/
theorem mul_pow_mod_div_eq_iff {x k N : ℕ} (hN : 0 < N) :
    x * 2 ^ k % N / 2 ^ k = x ↔ x * 2 ^ k < N := by
  constructor
  · intro h
    by_contra hge
    have hlt : x * 2 ^ k % N < x * 2 ^ k := lt_of_lt_of_le (Nat.mod_lt _ hN) (not_lt.mp hge)
    have := (Nat.div_lt_iff_lt_mul (by positivity)).mpr hlt
    omega
  · intro h
    rw [Nat.mod_eq_of_lt h, Nat.mul_div_cancel _ (by positivity)]

/-- The overflow test of `CalculateASERT`: shifting left and back gives the target again
exactly when the exact product is below `2 ^ 256`. -/
theorem shiftLeftAssign_shiftRightAssign_eq_iff (x : ArithUint256) (k : ℕ) :
    (x.shiftLeftAssign k).shiftRightAssign k = x ↔ x.toNat * 2 ^ k < 2 ^ 256 := by
  rw [← mul_pow_mod_div_eq_iff (by positivity : 0 < 2 ^ 256)]
  constructor
  · intro h
    have hval := congrArg BaseUint.toNat h
    rwa [BaseUint.toNat_shiftRightAssign, BaseUint.toNat_shiftLeftAssign] at hval
  · intro h
    apply BaseUint.eq_of_toNat_eq
    rw [BaseUint.toNat_shiftRightAssign, BaseUint.toNat_shiftLeftAssign]
    exact h

/-- What `asertShift` returns, for every shift count: the count taken modulo `2 ^ 32`, and
`powLimit` where the left shift overflows. -/
theorem toNat_asertShift {nextTarget powLimit r : ArithUint256} {shifts : ℤ}
    (h : asertShift nextTarget powLimit shifts = .ok r) :
    r.toNat = if shifts ≤ 0 then nextTarget.toNat / 2 ^ (-shifts % 2 ^ 32).toNat
      else if nextTarget.toNat * 2 ^ (shifts % 2 ^ 32).toNat < 2 ^ 256 then
        nextTarget.toNat * 2 ^ (shifts % 2 ^ 32).toNat
      else powLimit.toNat := by
  unfold asertShift at h
  split_ifs at h ⊢ with hle hfit
  · obtain ⟨s, hs, h⟩ := except_bind_eq_ok.mp h
    obtain ⟨rfl, -⟩ := int64Result_eq_ok.mp hs
    obtain rfl := Except.ok.inj h
    exact BaseUint.toNat_shiftRightAssign _ _
  · -- the product fits, so the overflow test passes
    dsimp only at h
    rw [if_neg (not_not.mpr ((shiftLeftAssign_shiftRightAssign_eq_iff _ _).mpr hfit))] at h
    obtain rfl := Except.ok.inj h
    rw [BaseUint.toNat_shiftLeftAssign, Nat.mod_eq_of_lt hfit]
  · dsimp only at h
    rw [if_pos (mt (shiftLeftAssign_shiftRightAssign_eq_iff _ _).mp hfit)] at h
    obtain rfl := Except.ok.inj h
    rfl

theorem toNat_asertClamp {powLimit : ArithUint256} (hlim : 0 < powLimit.toNat)
    (nextTarget : ArithUint256) :
    (asertClamp nextTarget powLimit).toNat = min powLimit.toNat (max 1 nextTarget.toNat) := by
  have hone : (BaseUint.ofUInt64 1 : ArithUint256).toNat = 1 :=
    BaseUint.toNat_ofUInt64 (by norm_num) 1
  unfold asertClamp
  split_ifs with hzero hgt
  · rw [BaseUint.equalTo_iff (by norm_num) _ (by norm_num)] at hzero
    omega
  · rw [BaseUint.compareTo_pos_iff] at hgt
    omega
  · rw [BaseUint.equalTo_iff (by norm_num) _ (by norm_num)] at hzero
    rw [BaseUint.compareTo_pos_iff] at hgt
    omega

/-- Where the shift count survives the conversion to `unsigned int`, the shift and the clamp
give the clamped `shiftTarget`: a left shift that loses bits went past `2 ^ 256`, so past
`powLimit`. -/
theorem toNat_asertClamp_of_asertShift {nextTarget powLimit r : ArithUint256} {shifts : ℤ}
    (hlim : 0 < powLimit.toNat) (hlo : -2 ^ 32 < shifts) (hhi : shifts < 2 ^ 32)
    (h : asertShift nextTarget powLimit shifts = .ok r) :
    (asertClamp r powLimit).toNat =
      min powLimit.toNat (max 1 (shiftTarget nextTarget.toNat shifts)) := by
  have hp : powLimit.toNat < 2 ^ 256 := powLimit.toNat_lt
  rw [toNat_asertClamp hlim, toNat_asertShift h]
  unfold shiftTarget
  split_ifs with hle hfit
  · rw [Int.emod_eq_of_lt (by omega) (by omega)]
  · rw [Int.emod_eq_of_lt (by omega) hhi]
  · -- bits were lost: the exact product is at least `2 ^ 256`, above `powLimit`
    rw [Int.emod_eq_of_lt (by omega) hhi] at hfit
    omega

/-- Whatever the shift count, the shift and the clamp are monotone in what is shifted: an
overflow of the smaller target is an overflow of the larger one. -/
theorem asertClamp_asertShift_mono {x₁ x₂ powLimit r₁ r₂ : ArithUint256} {shifts : ℤ}
    (hlim : 0 < powLimit.toNat) (hx : x₁.toNat ≤ x₂.toNat)
    (h₁ : asertShift x₁ powLimit shifts = .ok r₁) (h₂ : asertShift x₂ powLimit shifts = .ok r₂) :
    (asertClamp r₁ powLimit).toNat ≤ (asertClamp r₂ powLimit).toNat := by
  have hdiv := Nat.div_le_div_right (c := 2 ^ (-shifts % 2 ^ 32).toNat) hx
  have hmul := Nat.mul_le_mul_right (2 ^ (shifts % 2 ^ 32).toNat) hx
  rw [toNat_asertClamp hlim, toNat_asertClamp hlim, toNat_asertShift h₁, toNat_asertShift h₂]
  split_ifs <;> omega

/-! ### The exponent and the scaling -/

theorem except_map_eq_ok {ε α β : Type} {x : Except ε α} {f : α → β} {b : β} :
    x.map f = .ok b ↔ ∃ a, x = .ok a ∧ f a = b := by
  cases x <;> simp [Except.map]

/-- A computed exponent is the truncated quotient of the code's formula, with a nonzero
divisor and a dividend that is an `int64_t`. -/
theorem asertExponent_eq_ok {nPowTargetSpacing nTimeDiff nHeightDiff nHalfLife e : ℤ}
    (h : asertExponent nPowTargetSpacing nTimeDiff nHeightDiff nHalfLife = .ok e) :
    e = ((nTimeDiff - nPowTargetSpacing * (nHeightDiff + 1)) * 65536).tdiv nHalfLife ∧
      nHalfLife ≠ 0 ∧
      int64Min ≤ (nTimeDiff - nPowTargetSpacing * (nHeightDiff + 1)) * 65536 ∧
      (nTimeDiff - nPowTargetSpacing * (nHeightDiff + 1)) * 65536 ≤ int64Max := by
  unfold asertExponent at h
  -- past the `assert`, four `int64_t` results and the division
  iterate 4 obtain ⟨_, -, h⟩ := except_bind_eq_ok.mp h
  obtain ⟨_, hh, h⟩ := except_bind_eq_ok.mp h
  obtain ⟨_, hp, h⟩ := except_bind_eq_ok.mp h
  obtain ⟨_, hd, h⟩ := except_bind_eq_ok.mp h
  obtain ⟨_, he, h⟩ := except_bind_eq_ok.mp h
  obtain ⟨rfl, -⟩ := int64Result_eq_ok.mp hh
  obtain ⟨rfl, -⟩ := int64Result_eq_ok.mp hp
  obtain ⟨rfl, -⟩ := int64Result_eq_ok.mp hd
  obtain ⟨rfl, hlo, hhi⟩ := int64Result_eq_ok.mp he
  unfold int64Div at h
  split_ifs at h with hL
  exact ⟨(int64Result_eq_ok.mp h).1, hL, hlo, hhi⟩

/-- With `nHalfLife ≥ 2 ^ 16` a computed exponent is no larger than its dividend over `65536`,
at most `2 ^ 47`, so its integer part minus `16` is far from `± 2 ^ 32`. -/
theorem asertExponent_shifts_lt {nPowTargetSpacing nTimeDiff nHeightDiff nHalfLife e : ℤ}
    (hL : 2 ^ 16 ≤ nHalfLife)
    (h : asertExponent nPowTargetSpacing nTimeDiff nHeightDiff nHalfLife = .ok e) :
    -2 ^ 32 < e >>> (16 : ℕ) - 16 ∧ e >>> (16 : ℕ) - 16 < 2 ^ 32 := by
  obtain ⟨rfl, -, hlo, hhi⟩ := asertExponent_eq_ok h
  set x := (nTimeDiff - nPowTargetSpacing * (nHeightDiff + 1)) * 65536
  have habs : (x.tdiv nHalfLife).natAbs ≤ 2 ^ 47 := by
    rw [Int.natAbs_tdiv]
    calc x.natAbs / nHalfLife.natAbs ≤ x.natAbs / 2 ^ 16 :=
          Nat.div_le_div_left (by omega) (by positivity)
      _ ≤ 2 ^ 47 := by unfold int64Min int64Max at *; omega
  rw [Int.shiftRight_eq_div_pow]
  omega

/-- When the shift count does not wrap, a target `asertScale` computes is the clamped
`asertValue` of the exponent. -/
theorem toNat_of_asertScale {refTarget powLimit t : ArithUint256} {exponent : ℤ}
    (href : refTarget.toNat < 2 ^ 224) (hlim : 0 < powLimit.toNat)
    (hlo : -2 ^ 32 < exponent >>> (16 : ℕ) - 16) (hhi : exponent >>> (16 : ℕ) - 16 < 2 ^ 32)
    (h : asertScale refTarget powLimit exponent = .ok t) :
    t.toNat = min powLimit.toNat (max 1 (asertValue refTarget.toNat exponent)) := by
  unfold asertScale at h
  obtain ⟨_, -, hrest⟩ := except_bind_eq_ok.mp h
  obtain ⟨shifts, hshifts, hshift⟩ := except_bind_eq_ok.mp hrest
  obtain ⟨nextTarget, hnext, hclamp⟩ := except_bind_eq_ok.mp hshift
  obtain ⟨rfl, -⟩ := int64Result_eq_ok.mp hshifts
  obtain rfl := Except.ok.inj hclamp
  rw [toNat_asertClamp_of_asertShift hlim hlo hhi hnext, asertValue,
    (toNat_mulAssign_asertFactor href _).1]

/-- `asertScale` is monotone in `refTarget`, for every exponent. -/
theorem asertScale_mono_left {refTarget₁ refTarget₂ powLimit t₁ t₂ : ArithUint256}
    {exponent : ℤ} (href : refTarget₂.toNat < 2 ^ 224) (hlim : 0 < powLimit.toNat)
    (hle : refTarget₁.toNat ≤ refTarget₂.toNat)
    (h₁ : asertScale refTarget₁ powLimit exponent = .ok t₁)
    (h₂ : asertScale refTarget₂ powLimit exponent = .ok t₂) :
    t₁.toNat ≤ t₂.toNat := by
  unfold asertScale at h₁ h₂
  obtain ⟨_, -, hrest₁⟩ := except_bind_eq_ok.mp h₁
  obtain ⟨_, -, hrest₂⟩ := except_bind_eq_ok.mp h₂
  obtain ⟨s₁, hs₁, hshift₁⟩ := except_bind_eq_ok.mp hrest₁
  obtain ⟨s₂, hs₂, hshift₂⟩ := except_bind_eq_ok.mp hrest₂
  obtain ⟨n₁, hn₁, hclamp₁⟩ := except_bind_eq_ok.mp hshift₁
  obtain ⟨n₂, hn₂, hclamp₂⟩ := except_bind_eq_ok.mp hshift₂
  obtain ⟨rfl, -⟩ := int64Result_eq_ok.mp hs₁
  obtain ⟨rfl, -⟩ := int64Result_eq_ok.mp hs₂
  obtain rfl := Except.ok.inj hclamp₁
  obtain rfl := Except.ok.inj hclamp₂
  -- both products stay below `2 ^ 241`, so they compare as the targets do
  have hprod : (refTarget₁.mulAssign (asertFactor (UInt16.ofInt exponent))).toNat ≤
      (refTarget₂.mulAssign (asertFactor (UInt16.ofInt exponent))).toNat := by
    rw [(toNat_mulAssign_asertFactor (lt_of_le_of_lt hle href) _).1,
      (toNat_mulAssign_asertFactor href _).1]
    exact Nat.mul_le_mul_right _ hle
  exact asertClamp_asertShift_mono hlim hprod hn₁ hn₂

/-! ### Monotonicity in the exponent -/

theorem asertPolynomial_mono {a b : ℕ} (h : a ≤ b) : asertPolynomial a ≤ asertPolynomial b := by
  unfold asertPolynomial
  gcongr

/-- The integer part and the fraction of an exponent are the only such split. -/
theorem exponent_split_unique {exponent q : ℤ} {f : ℕ} (hf : f < 65536)
    (h : exponent = q * 65536 + f) :
    exponent >>> (16 : ℕ) = q ∧ (UInt16.ofInt exponent).toNat = f := by
  have hsplit := exponent_eq_shiftRight_add_frac exponent
  have hlt : (UInt16.ofInt exponent).toNat < 65536 := (UInt16.ofInt exponent).toNat_lt
  omega

/-- One unit more of exponent never lowers the target. Within a unit the fraction grows and the
cubic with it; from fraction `65535` to the next unit, `factor(65535) < 131072 = 2 * factor(0)`
is made up for by one more bit of shift. -/
theorem asertValue_le_succ (refTarget : ℕ) (exponent : ℤ) :
    asertValue refTarget exponent ≤ asertValue refTarget (exponent + 1) := by
  have hsplit := exponent_eq_shiftRight_add_frac exponent
  have hlt : (UInt16.ofInt exponent).toNat < 65536 := (UInt16.ofInt exponent).toNat_lt
  unfold asertValue
  by_cases hfrac : (UInt16.ofInt exponent).toNat + 1 < 65536
  · -- same integer part, fraction one larger
    obtain ⟨hq, hf⟩ := @exponent_split_unique (exponent + 1) (exponent >>> (16 : ℕ)) _ hfrac
      (by push_cast; omega)
    rw [hq]
    apply shiftTarget_mono_left
    apply Nat.mul_le_mul_left
    rw [toNat_asertFactor, toNat_asertFactor, hf]
    exact Nat.add_le_add_left (Nat.div_le_div_right (asertPolynomial_mono (Nat.le_succ _))) _
  · -- the next integer part, fraction `0`
    obtain ⟨hq, hf⟩ := @exponent_split_unique (exponent + 1) (exponent >>> (16 : ℕ) + 1) 0
      (by norm_num) (by push_cast; omega)
    rw [hq, show ∀ q : ℤ, q + 1 - 16 = q - 16 + 1 from fun q => by ring]
    apply shiftTarget_le_succ
    have hfactor : (asertFactor (UInt16.ofInt (exponent + 1))).toNat = 65536 := by
      rw [toNat_asertFactor, hf]
      rfl
    have htop := (asertFactor_bounds (UInt16.ofInt exponent)).2
    rw [hfactor]
    calc refTarget * (asertFactor (UInt16.ofInt exponent)).toNat ≤ refTarget * 131072 :=
          Nat.mul_le_mul_left _ htop.le
      _ = 2 * (refTarget * 65536) := by ring

theorem asertValue_mono (refTarget : ℕ) : Monotone (asertValue refTarget) :=
  monotone_int_of_le_succ (asertValue_le_succ refTarget)

/-! ### `CalculateASERT` -/

/-- What a computed target rests on: the three `assert`s on the arguments, a computed exponent
and its scaling. -/
theorem calculateASERT_eq_ok {refTarget powLimit t : ArithUint256}
    {nPowTargetSpacing nTimeDiff nHeightDiff nHalfLife : ℤ}
    (h : calculateASERT refTarget nPowTargetSpacing nTimeDiff nHeightDiff powLimit nHalfLife =
      .ok t) :
    0 < refTarget.toNat ∧ refTarget.toNat ≤ powLimit.toNat ∧ powLimit.toNat < 2 ^ 224 ∧
      0 ≤ nHeightDiff ∧ ∃ e, asertExponent nPowTargetSpacing nTimeDiff nHeightDiff nHalfLife =
        .ok e ∧ asertScale refTarget powLimit e = .ok t := by
  have hzero : (BaseUint.ofUInt64 0 : ArithUint256).toNat = 0 :=
    BaseUint.toNat_ofUInt64 (by norm_num) 0
  unfold calculateASERT at h
  obtain ⟨_, ha₁, h⟩ := except_bind_eq_ok.mp h
  obtain ⟨_, ha₂, h⟩ := except_bind_eq_ok.mp h
  obtain ⟨_, ha₃, h⟩ := except_bind_eq_ok.mp h
  obtain ⟨e, he, h⟩ := except_bind_eq_ok.mp h
  have h₁ := cppAssert_eq_ok.mp ha₁
  simp only [Bool.and_eq_true, decide_eq_true_eq, BaseUint.compareTo_pos_iff, BaseUint.le_iff,
    hzero] at h₁
  have h₂ := cppAssert_eq_ok.mp ha₂
  rw [BaseUint.equalTo_iff (by norm_num) _ (by norm_num), BaseUint.toNat_shiftRightAssign,
    Nat.div_eq_zero_iff] at h₂
  exact ⟨h₁.1, h₁.2, h₂.resolve_left (by positivity), decide_eq_true_eq.mp
    (cppAssert_eq_ok.mp ha₃), e, he, h⟩

/-- With `nHalfLife ≥ 2 ^ 16`, a target `CalculateASERT` computes is the clamped `asertValue` of
its exponent. -/
theorem calculateASERT_value {refTarget powLimit t : ArithUint256}
    {nPowTargetSpacing nTimeDiff nHeightDiff nHalfLife : ℤ} (hL : 2 ^ 16 ≤ nHalfLife)
    (h : calculateASERT refTarget nPowTargetSpacing nTimeDiff nHeightDiff powLimit nHalfLife =
      .ok t) :
    ∃ e, asertExponent nPowTargetSpacing nTimeDiff nHeightDiff nHalfLife = .ok e ∧
      t.toNat = min powLimit.toNat (max 1 (asertValue refTarget.toNat e)) := by
  obtain ⟨hpos, hle, hlim, -, e, he, hs⟩ := calculateASERT_eq_ok h
  obtain ⟨hlo, hhi⟩ := asertExponent_shifts_lt hL he
  exact ⟨e, he, toNat_of_asertScale (by omega) (by omega) hlo hhi hs⟩

/-- `calculateASERT` is monotone in `refTarget`, whatever the other arguments: the exponent does
not depend on it. -/
theorem calculateASERT_mono_refTarget {refTarget₁ refTarget₂ powLimit t₁ t₂ : ArithUint256}
    {nPowTargetSpacing nTimeDiff nHeightDiff nHalfLife : ℤ}
    (hr : refTarget₁.toNat ≤ refTarget₂.toNat)
    (h₁ : calculateASERT refTarget₁ nPowTargetSpacing nTimeDiff nHeightDiff powLimit nHalfLife =
      .ok t₁)
    (h₂ : calculateASERT refTarget₂ nPowTargetSpacing nTimeDiff nHeightDiff powLimit nHalfLife =
      .ok t₂) :
    t₁.toNat ≤ t₂.toNat := by
  obtain ⟨-, -, -, -, e₁, he₁, hs₁⟩ := calculateASERT_eq_ok h₁
  obtain ⟨hpos, hle, hlim, -, e₂, he₂, hs₂⟩ := calculateASERT_eq_ok h₂
  obtain rfl : e₁ = e₂ := Except.ok.inj (he₁.symm.trans he₂)
  exact asertScale_mono_left (by omega) (by omega) hr hs₁ hs₂

/-- With `nHalfLife ≥ 2 ^ 16`, targets computed from one `refTarget` and `powLimit` compare as
the dividends of their exponents do. -/
theorem calculateASERT_le_of_dividend_le {refTarget powLimit t₁ t₂ : ArithUint256}
    {nPowTargetSpacing nTimeDiff₁ nTimeDiff₂ nHeightDiff₁ nHeightDiff₂ nHalfLife : ℤ}
    (hL : 2 ^ 16 ≤ nHalfLife)
    (hd : nTimeDiff₁ - nPowTargetSpacing * (nHeightDiff₁ + 1) ≤
      nTimeDiff₂ - nPowTargetSpacing * (nHeightDiff₂ + 1))
    (h₁ : calculateASERT refTarget nPowTargetSpacing nTimeDiff₁ nHeightDiff₁ powLimit nHalfLife =
      .ok t₁)
    (h₂ : calculateASERT refTarget nPowTargetSpacing nTimeDiff₂ nHeightDiff₂ powLimit nHalfLife =
      .ok t₂) :
    t₁.toNat ≤ t₂.toNat := by
  obtain ⟨e₁, he₁, ht₁⟩ := calculateASERT_value hL h₁
  obtain ⟨e₂, he₂, ht₂⟩ := calculateASERT_value hL h₂
  obtain ⟨rfl, -⟩ := asertExponent_eq_ok he₁
  obtain ⟨rfl, -⟩ := asertExponent_eq_ok he₂
  -- truncated division by a positive half-life keeps the order
  have he := Int.tdiv_le_tdiv (by omega : 0 < nHalfLife)
    (Int.mul_le_mul_of_nonneg_right hd (by norm_num : (0 : ℤ) ≤ 65536))
  have hv := asertValue_mono refTarget.toNat he
  rw [ht₁, ht₂]
  omega

theorem calculateASERT_monotone (nPowTargetSpacing : ℤ) (powLimit : ArithUint256)
    (nHalfLife : ℤ) :
    (2 ^ 16 ≤ nHalfLife → ∀ (refTarget : ArithUint256) (nHeightDiff nTimeDiff₁ nTimeDiff₂ : ℤ)
        (t₁ t₂ : ArithUint256), nTimeDiff₁ ≤ nTimeDiff₂ →
        calculateASERT refTarget nPowTargetSpacing nTimeDiff₁ nHeightDiff powLimit nHalfLife =
          .ok t₁ →
        calculateASERT refTarget nPowTargetSpacing nTimeDiff₂ nHeightDiff powLimit nHalfLife =
          .ok t₂ →
        t₁.toNat ≤ t₂.toNat) ∧
      (2 ^ 16 ≤ nHalfLife → 0 ≤ nPowTargetSpacing → ∀ (refTarget : ArithUint256)
        (nTimeDiff nHeightDiff₁ nHeightDiff₂ : ℤ) (t₁ t₂ : ArithUint256),
        nHeightDiff₁ ≤ nHeightDiff₂ →
        calculateASERT refTarget nPowTargetSpacing nTimeDiff nHeightDiff₁ powLimit nHalfLife =
          .ok t₁ →
        calculateASERT refTarget nPowTargetSpacing nTimeDiff nHeightDiff₂ powLimit nHalfLife =
          .ok t₂ →
        t₂.toNat ≤ t₁.toNat) ∧
      (∀ (refTarget₁ refTarget₂ : ArithUint256) (nTimeDiff nHeightDiff : ℤ)
        (t₁ t₂ : ArithUint256), refTarget₁.toNat ≤ refTarget₂.toNat →
        calculateASERT refTarget₁ nPowTargetSpacing nTimeDiff nHeightDiff powLimit nHalfLife =
          .ok t₁ →
        calculateASERT refTarget₂ nPowTargetSpacing nTimeDiff nHeightDiff powLimit nHalfLife =
          .ok t₂ →
        t₁.toNat ≤ t₂.toNat) := by
  refine ⟨?_, ?_, ?_⟩
  · intro hL refTarget nHeightDiff nTimeDiff₁ nTimeDiff₂ t₁ t₂ hn h₁ h₂
    exact calculateASERT_le_of_dividend_le hL (sub_le_sub_right hn _) h₁ h₂
  · intro hL hs refTarget nTimeDiff nHeightDiff₁ nHeightDiff₂ t₁ t₂ hh h₁ h₂
    -- a later height subtracts more target spacings
    have hmore : nPowTargetSpacing * (nHeightDiff₁ + 1) ≤ nPowTargetSpacing * (nHeightDiff₂ + 1) :=
      Int.mul_le_mul_of_nonneg_left (by omega) hs
    exact calculateASERT_le_of_dividend_le hL (sub_le_sub_left hmore _) h₂ h₁
  · intro refTarget₁ refTarget₂ nTimeDiff nHeightDiff t₁ t₂ hr h₁ h₂
    exact calculateASERT_mono_refTarget hr h₁ h₂

theorem calculateASERT_monotone_runs :
    (∃ t₁ t₂, calculateASERT (BaseUint.ofUInt64 1000) 600 173400 0 (BaseUint.ofUInt64 (2 ^ 40))
        172800 = .ok t₁ ∧
      calculateASERT (BaseUint.ofUInt64 1000) 600 346200 0 (BaseUint.ofUInt64 (2 ^ 40))
        172800 = .ok t₂ ∧ t₁.toNat ≤ t₂.toNat) ∧
    (∃ t₁ t₂, calculateASERT (BaseUint.ofUInt64 1000) 600 346200 0 (BaseUint.ofUInt64 (2 ^ 40))
        172800 = .ok t₁ ∧
      calculateASERT (BaseUint.ofUInt64 1000) 600 346200 1 (BaseUint.ofUInt64 (2 ^ 40))
        172800 = .ok t₂ ∧ t₂.toNat ≤ t₁.toNat) ∧
    (∃ t₁ t₂, calculateASERT (BaseUint.ofUInt64 1000) 600 173400 0 (BaseUint.ofUInt64 (2 ^ 40))
        172800 = .ok t₁ ∧
      calculateASERT (BaseUint.ofUInt64 2000) 600 173400 0 (BaseUint.ofUInt64 (2 ^ 40))
        172800 = .ok t₂ ∧ t₁.toNat ≤ t₂.toNat) := by
  obtain ⟨t₁, ht₁, -⟩ := except_map_eq_ok.mp (show (calculateASERT (BaseUint.ofUInt64 1000) 600
    173400 0 (BaseUint.ofUInt64 (2 ^ 40)) 172800).map BaseUint.toNat = .ok 2000 by decide)
  obtain ⟨t₂, ht₂, -⟩ := except_map_eq_ok.mp (show (calculateASERT (BaseUint.ofUInt64 1000) 600
    346200 0 (BaseUint.ofUInt64 (2 ^ 40)) 172800).map BaseUint.toNat = .ok 4000 by decide)
  obtain ⟨t₃, ht₃, -⟩ := except_map_eq_ok.mp (show (calculateASERT (BaseUint.ofUInt64 1000) 600
    346200 1 (BaseUint.ofUInt64 (2 ^ 40)) 172800).map BaseUint.toNat = .ok 3990 by decide)
  obtain ⟨t₄, ht₄, -⟩ := except_map_eq_ok.mp (show (calculateASERT (BaseUint.ofUInt64 2000) 600
    173400 0 (BaseUint.ofUInt64 (2 ^ 40)) 172800).map BaseUint.toNat = .ok 4000 by decide)
  have hmono := calculateASERT_monotone 600 (BaseUint.ofUInt64 (2 ^ 40)) 172800
  refine ⟨⟨t₁, t₂, ht₁, ht₂, hmono.1 (by norm_num) _ _ _ _ _ _ (by norm_num) ht₁ ht₂⟩,
    ⟨t₂, t₃, ht₂, ht₃, hmono.2.1 (by norm_num) (by norm_num) _ _ _ _ _ _ (by norm_num) ht₂ ht₃⟩,
    ⟨t₁, t₄, ht₁, ht₄, hmono.2.2 _ _ _ _ _ _ ?_ ht₁ ht₄⟩⟩
  rw [BaseUint.toNat_ofUInt64 (by norm_num), BaseUint.toNat_ofUInt64 (by norm_num)]
  norm_num

/-- A run with a half-life of one second: `16 - 2 ^ 32` whole half-lives make the shift count
`-2 ^ 32`, which `operator>>=` receives as `0`, so `1 * 65536` stays as it is. -/
theorem calculateASERT_wrapped_shift_run :
    (calculateASERT (BaseUint.ofUInt64 1) 600 (616 - 2 ^ 32) 0 (BaseUint.ofUInt64 (2 ^ 32))
      1).map BaseUint.toNat = .ok 65536 := by
  decide

/-- One second later the shift count is `1 - 2 ^ 32`, received as `2 ^ 32 - 1`: the target
drops from `65536` to `1`, so a later timestamp made it harder. -/
theorem calculateASERT_later_time_harder :
    (616 - 2 ^ 32 : ℤ) ≤ 617 - 2 ^ 32 ∧ ∃ t₁ t₂,
      calculateASERT (BaseUint.ofUInt64 1) 600 (616 - 2 ^ 32) 0 (BaseUint.ofUInt64 (2 ^ 32)) 1 =
        .ok t₁ ∧
      calculateASERT (BaseUint.ofUInt64 1) 600 (617 - 2 ^ 32) 0 (BaseUint.ofUInt64 (2 ^ 32)) 1 =
        .ok t₂ ∧ t₂.toNat < t₁.toNat := by
  obtain ⟨t₁, ht₁, hv₁⟩ := except_map_eq_ok.mp calculateASERT_wrapped_shift_run
  obtain ⟨t₂, ht₂, hv₂⟩ := except_map_eq_ok.mp (show (calculateASERT (BaseUint.ofUInt64 1) 600
    (617 - 2 ^ 32) 0 (BaseUint.ofUInt64 (2 ^ 32)) 1).map BaseUint.toNat = .ok 1 by decide)
  refine ⟨by norm_num, t₁, t₂, ht₁, ht₂, ?_⟩
  rw [hv₁, hv₂]
  norm_num

/-! ### Whole half-lives -/

/-- Shifting `x * 2 ^ k` by `m - k` is shifting `x` by `m`. -/
theorem shiftTarget_mul_two_pow (x k : ℕ) (m : ℤ) :
    shiftTarget (x * 2 ^ k) (m - k) = shiftTarget x m := by
  unfold shiftTarget
  split_ifs with h₁ h₂ h₂
  · -- both shift right, the first by `k` more
    have hk : 2 ^ (-(m - k)).toNat = 2 ^ k * 2 ^ (-m).toNat := by
      rw [← pow_add]
      congr 1
      omega
    rw [hk, ← Nat.div_div_eq_div_mul, Nat.mul_div_cancel _ (by positivity)]
  · -- `0 < m ≤ k`: a right shift by `k - m` leaves `x * 2 ^ m`
    have hk : 2 ^ k = 2 ^ m.toNat * 2 ^ (-(m - k)).toNat := by
      rw [← pow_add]
      congr 1
      omega
    rw [hk, ← mul_assoc, Nat.mul_div_cancel _ (by positivity)]
  · omega
  · rw [mul_assoc, ← pow_add]
    congr 2
    omega

/-- `⌊x * 2 ^ m⌋` is `x` shifted by `m`. -/
theorem floor_mul_two_zpow (x : ℕ) (m : ℤ) : ⌊(x : ℚ) * 2 ^ m⌋ = shiftTarget x m := by
  unfold shiftTarget
  split_ifs with hm
  · have h2 : (2 : ℚ) ^ m = ((2 ^ (-m).toNat : ℕ) : ℚ)⁻¹ := by
      rw [Nat.cast_pow, Nat.cast_ofNat, ← zpow_natCast, ← zpow_neg, Int.toNat_of_nonneg (by omega),
        neg_neg]
    rw [h2, ← div_eq_mul_inv, Rat.floor_natCast_div_natCast]
    push_cast
    rfl
  · have h2 : (2 : ℚ) ^ m = ((2 ^ m.toNat : ℕ) : ℚ) := by
      rw [Nat.cast_pow, Nat.cast_ofNat, ← zpow_natCast, Int.toNat_of_nonneg (by omega)]
    rw [h2, ← Nat.cast_mul, Int.floor_natCast]

/-- At a whole number `m` of units the fraction is `0`, the factor `65536`, and the value is
`refTarget` shifted by `m`. -/
theorem asertValue_mul_65536 (refTarget : ℕ) (m : ℤ) :
    asertValue refTarget (m * 65536) = shiftTarget refTarget m := by
  obtain ⟨hq, hf⟩ := @exponent_split_unique (m * 65536) m 0 (by norm_num) (by simp)
  have hfactor : (asertFactor (UInt16.ofInt (m * 65536))).toNat = 2 ^ 16 := by
    rw [toNat_asertFactor, hf]
    rfl
  rw [asertValue, hq, hfactor]
  exact_mod_cast shiftTarget_mul_two_pow refTarget 16 m

theorem calculateASERT_whole_halfLives {refTarget powLimit t : ArithUint256}
    {nPowTargetSpacing nTimeDiff nHeightDiff nHalfLife m : ℤ}
    (h : calculateASERT refTarget nPowTargetSpacing nTimeDiff nHeightDiff powLimit nHalfLife =
      .ok t)
    (hm : nTimeDiff - nPowTargetSpacing * (nHeightDiff + 1) = m * nHalfLife)
    (hshift : |m - 16| < 2 ^ 32) :
    (t.toNat : ℤ) = min (powLimit.toNat : ℤ) (max 1 ⌊(refTarget.toNat : ℚ) * 2 ^ m⌋) := by
  obtain ⟨hpos, hle, hlim, -, e, he, hs⟩ := calculateASERT_eq_ok h
  obtain ⟨rfl, hL, -, -⟩ := asertExponent_eq_ok he
  -- `m` whole half-lives make the exponent exactly `m * 65536`
  rw [hm, show m * nHalfLife * 65536 = m * 65536 * nHalfLife by ring,
    Int.mul_tdiv_cancel _ hL] at hs
  obtain ⟨hq, -⟩ := @exponent_split_unique (m * 65536) m 0 (by norm_num) (by simp)
  obtain ⟨hlo, hhi⟩ := abs_lt.mp hshift
  rw [toNat_of_asertScale (by omega) (by omega) (by rw [hq]; omega) (by rw [hq]; omega) hs,
    asertValue_mul_65536, floor_mul_two_zpow]
  push_cast
  rfl

theorem calculateASERT_one_halfLife :
    ∃ t, calculateASERT (BaseUint.ofUInt64 1000) 600 173400 0 (BaseUint.ofUInt64 (2 ^ 40))
        172800 = .ok t ∧
      (t.toNat : ℤ) = min ((BaseUint.ofUInt64 (2 ^ 40) : ArithUint256).toNat : ℤ)
        (max 1 ⌊((BaseUint.ofUInt64 1000 : ArithUint256).toNat : ℚ) * 2 ^ (1 : ℤ)⌋) := by
  obtain ⟨t, ht, -⟩ := except_map_eq_ok.mp (show (calculateASERT (BaseUint.ofUInt64 1000) 600
    173400 0 (BaseUint.ofUInt64 (2 ^ 40)) 172800).map BaseUint.toNat = .ok 2000 by decide)
  exact ⟨t, ht, calculateASERT_whole_halfLives ht (by norm_num) (by norm_num)⟩

/-- At `m = 16 - 2 ^ 32` whole half-lives of one second the wrapped shift count leaves the
target at `65536`, where `⌊1 * 2 ^ m⌋ = 0` clamps to `1`. -/
theorem calculateASERT_wrapped_halfLives :
    (616 - 2 ^ 32 : ℤ) - 600 * (0 + 1) = (16 - 2 ^ 32) * 1 ∧ ∃ t,
      calculateASERT (BaseUint.ofUInt64 1) 600 (616 - 2 ^ 32) 0 (BaseUint.ofUInt64 (2 ^ 32)) 1 =
        .ok t ∧
      (t.toNat : ℤ) ≠ min ((BaseUint.ofUInt64 (2 ^ 32) : ArithUint256).toNat : ℤ)
        (max 1 ⌊((BaseUint.ofUInt64 1 : ArithUint256).toNat : ℚ) * 2 ^ (16 - 2 ^ 32 : ℤ)⌋) := by
  obtain ⟨t, ht, hv⟩ := except_map_eq_ok.mp calculateASERT_wrapped_shift_run
  -- `1` shifted right by `2 ^ 32 - 16` is `0`
  have hfloor : ⌊((BaseUint.ofUInt64 1 : ArithUint256).toNat : ℚ) * 2 ^ (16 - 2 ^ 32 : ℤ)⌋ = 0 := by
    rw [BaseUint.toNat_ofUInt64 (by norm_num), Nat.mod_eq_of_lt (by norm_num : 1 < 2 ^ 64),
      floor_mul_two_zpow, shiftTarget_eq_zero (by omega) (Nat.one_lt_two_pow (by omega))]
    rfl
  refine ⟨by norm_num, t, ht, ?_⟩
  rw [hv, hfloor, BaseUint.toNat_ofUInt64 (by norm_num)]
  norm_num

end BitcoinCash
