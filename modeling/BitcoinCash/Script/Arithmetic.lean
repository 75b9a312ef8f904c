import BitcoinCash.Script.ScriptNum

/-!
# Script number arithmetic

The arithmetic of `ScriptIntBase` (`script/script.h`), on the `int64_t` value of a
`CScriptNum`: addition, subtraction and multiplication that refuse results outside
`[INT64_MIN + 1, INT64_MAX]` (`__builtin_*_overflow`, then `valid64BitRange`), C++'s truncating
`/` and `%` guarded against `INT64_MIN / -1`, negation guarded against `-INT64_MIN`, and `&` on
the two's complement patterns.

Every operand of the interpreter lies in `[INT64_MIN + 1, INT64_MAX]`, the range of the decoder.
There each operation is the exact mathematical one, or refuses exactly the results outside the
range.
-/

namespace BitcoinCash

namespace CScriptNum

/-- The script number range `[INT64_MIN + 1, INT64_MAX]`. -/
def InRange (x : ℤ) : Prop := int64Min < x ∧ x ≤ int64Max

instance : DecidablePred InRange := fun _ => inferInstanceAs (Decidable (_ ∧ _))

/-- Every number the decoder reads is in the range. -/
theorem inRange_of_fromBytes {vch : List UInt8} {fRequireMinimal : Bool} {maxIntegerSize : ℕ}
    {v : ℤ} (h : fromBytes vch fRequireMinimal maxIntegerSize = .ok v) : InRange v := by
  have := natAbs_lt_of_fromBytes h
  unfold InRange int64Min int64Max
  omega

/-- `__builtin_*_overflow` then `valid64BitRange`: the result, if it is in the range. -/
def checked (r : ℤ) : Option ℤ :=
  if ¬(int64Min ≤ r ∧ r ≤ int64Max) then none
  else if !valid64BitRange r then none
  else some r

/-- `ScriptIntBase::safeAdd`. -/
def safeAdd (a b : ℤ) : Option ℤ := checked (a + b)

/-- `ScriptIntBase::safeSub`. -/
def safeSub (a b : ℤ) : Option ℤ := checked (a - b)

/-- `ScriptIntBase::safeMul`. -/
def safeMul (a b : ℤ) : Option ℤ := checked (a * b)

/-- `ScriptIntBase::operator/`: C++ division truncates; `INT64_MIN / -1` is returned unchanged.
Callers never divide by zero. -/
def div (a b : ℤ) : ℤ := if b = -1 ∧ !valid64BitRange a then a else a.tdiv b

/-- `ScriptIntBase::operator%`: C++ remainder has the sign of the dividend; `INT64_MIN % -1` is
zero. -/
def mod (a b : ℤ) : ℤ := if b = -1 ∧ !valid64BitRange a then 0 else a.tmod b

/-- `ScriptIntBase::operator-`: `-INT64_MIN` is returned unchanged. -/
def neg (a : ℤ) : ℤ := if valid64BitRange a then -a else a

/-- `ScriptIntBase::safeBitwiseAnd`: `&` on the 64-bit two's complement patterns. -/
def safeBitwiseAnd (a b : ℤ) : Option ℤ :=
  let r := int64OfBits ((a % 2 ^ 64).toNat &&& (b % 2 ^ 64).toNat)
  if valid64BitRange r then some r else none

theorem valid64BitRange_iff (x : ℤ) : valid64BitRange x = true ↔ x ≠ int64Min := by
  simp [valid64BitRange]

/-- On non-negative operands below `2^63`, `&` is the `&` of their values. -/
theorem safeBitwiseAnd_of_nonneg {a b : ℤ} (ha : 0 ≤ a) (ha' : a < 2 ^ 63) (hb : 0 ≤ b)
    (hb' : b < 2 ^ 63) : safeBitwiseAnd a b = some ((a.toNat &&& b.toNat : ℕ) : ℤ) := by
  have hamod : (a % 2 ^ 64).toNat = a.toNat := by rw [Int.emod_eq_of_lt ha (by omega)]
  have hbmod : (b % 2 ^ 64).toNat = b.toNat := by rw [Int.emod_eq_of_lt hb (by omega)]
  have hlt : a.toNat &&& b.toNat < 2 ^ 63 := lt_of_le_of_lt Nat.and_le_left (by omega)
  simp only [safeBitwiseAnd, hamod, hbmod, int64OfBits_of_lt hlt]
  rw [if_pos ((valid64BitRange_iff _).mpr (by unfold int64Min; omega))]

theorem valid64BitRange_of_inRange {a : ℤ} (ha : InRange a) : valid64BitRange a = true :=
  (valid64BitRange_iff a).mpr ha.1.ne'

theorem checked_of_inRange {r : ℤ} (h : InRange r) : checked r = some r := by
  have hbounds : int64Min ≤ r ∧ r ≤ int64Max := ⟨h.1.le, h.2⟩
  simp [checked, hbounds, valid64BitRange_of_inRange h]

theorem checked_of_not_inRange {r : ℤ} (h : ¬InRange r) : checked r = none := by
  by_cases hmin : r = int64Min
  · simp [checked, hmin, valid64BitRange]
  · -- not `INT64_MIN`, so outside the bounds of `int64_t`
    have hout : ¬(int64Min ≤ r ∧ r ≤ int64Max) := fun hb =>
      h ⟨lt_of_le_of_ne hb.1 (Ne.symm hmin), hb.2⟩
    simp only [checked, hout, not_false_eq_true, if_true]

/-- On the range, `/` is truncating division, and stays in the range. -/
theorem div_eq_tdiv {a : ℤ} (ha : InRange a) (b : ℤ) : div a b = a.tdiv b := by
  simp [div, valid64BitRange_of_inRange ha]

theorem inRange_tdiv {a : ℤ} (ha : InRange a) (b : ℤ) : InRange (a.tdiv b) := by
  have hle : (a.tdiv b).natAbs ≤ a.natAbs := Int.natAbs_tdiv_le_natAbs a b
  unfold InRange int64Min int64Max at *
  omega

/-- On the range, `%` is the remainder of truncating division, and stays in the range. -/
theorem mod_eq_tmod {a : ℤ} (ha : InRange a) (b : ℤ) : mod a b = a.tmod b := by
  simp [mod, valid64BitRange_of_inRange ha]

theorem inRange_tmod {a : ℤ} (ha : InRange a) (b : ℤ) : InRange (a.tmod b) := by
  have hle : (a.tmod b).natAbs ≤ a.natAbs := by
    rw [Int.natAbs_tmod]
    exact Nat.mod_le _ _
  unfold InRange int64Min int64Max at *
  omega

/-- On the range, `-` is negation, and stays in the range. -/
theorem neg_eq {a : ℤ} (ha : InRange a) : neg a = -a := by
  simp [neg, valid64BitRange_of_inRange ha]

theorem inRange_neg {a : ℤ} (ha : InRange a) : InRange (-a) := by
  unfold InRange int64Min int64Max at *
  omega

end CScriptNum

end BitcoinCash
