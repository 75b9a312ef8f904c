import Mathlib.RingTheory.AdjoinRoot
import Mathlib.Algebra.Polynomial.OfFn
import Mathlib.Algebra.CharP.Two
import Mathlib.Algebra.Field.ZMod

/-!
# Binary fields on bits

A number stands for a polynomial over GF(2) through its bits: bit `k` is the coefficient of
`X ^ k`. With the monic modulus `X ^ d + m(X)`, where `m(X)` is the polynomial of a number `m`,
the numbers below `2 ^ d` stand for the elements of `GF(2)[a] / (a ^ d + m(a))`, the field of
`2 ^ d` elements when the modulus is irreducible. Xor is addition, `xtime` multiplies by `a`
(shift, and reduce by `m` when a bit falls out at the top) and `mul` multiplies.
-/

namespace BinaryField

open Polynomial

/-! ### Bits as polynomials over GF(2) -/

/-- The polynomial over GF(2) of the low `d` bits of `n`. -/
noncomputable def bitsPoly (d n : ℕ) : (ZMod 2)[X] :=
  ofFn d fun k => if n.testBit k then 1 else 0

theorem coeff_bitsPoly (d n i : ℕ) :
    (bitsPoly d n).coeff i = if i < d ∧ n.testBit i = true then 1 else 0 := by
  rcases Nat.lt_or_ge i d with hi | hi
  · rw [bitsPoly, ofFn_coeff_eq_val_of_lt _ hi]
    simp [hi]
  · rw [bitsPoly, ofFn_coeff_eq_zero_of_ge _ hi, if_neg (by omega)]

theorem degree_bitsPoly_lt (d n : ℕ) : (bitsPoly d n).degree < d :=
  ofFn_degree_lt _

theorem bitsPoly_xor (d a b : ℕ) : bitsPoly d (a ^^^ b) = bitsPoly d a + bitsPoly d b := by
  ext i
  rw [coeff_add, coeff_bitsPoly, coeff_bitsPoly, coeff_bitsPoly, Nat.testBit_xor]
  by_cases hi : i < d
  · cases a.testBit i <;> cases b.testBit i <;> simp [hi]
    -- `1 + 1 = 0` in GF(2)
    decide
  · simp [hi]

@[simp] theorem bitsPoly_zero (d : ℕ) : bitsPoly d 0 = 0 := by
  ext i
  simp [coeff_bitsPoly]

theorem bitsPoly_one {d : ℕ} (hd : 0 < d) : bitsPoly d 1 = 1 := by
  ext i
  rw [coeff_bitsPoly, coeff_one]
  by_cases hi : i = 0
  · subst hi
    simp [hd]
  · simp [hi, Nat.testBit_one_eq_true_iff_self_eq_zero]

/-- One more bit of `n`: the next coefficient. -/
theorem bitsPoly_succ (j n : ℕ) :
    bitsPoly (j + 1) n = bitsPoly j n + if n.testBit j then X ^ j else 0 := by
  ext i
  rw [coeff_add, coeff_bitsPoly, coeff_bitsPoly, apply_ite (coeff · i), coeff_X_pow,
    coeff_zero]
  rcases Nat.lt_trichotomy i j with hij | rfl | hij
  · simp [hij, Nat.lt_succ_of_lt hij, Nat.ne_of_lt hij]
  · cases n.testBit i <;> simp
  · simp [Nat.not_lt.mpr (Nat.succ_le_of_lt hij), Nat.not_lt.mpr hij.le, Nat.ne_of_gt hij]

/-- Multiplying by `X` shifts the bits up; the bit that leaves the low `d` becomes `X ^ d`. -/
theorem X_mul_bitsPoly {d : ℕ} (hd : 0 < d) (n : ℕ) :
    X * bitsPoly d n = bitsPoly d (2 * n % 2 ^ d) + if n.testBit (d - 1) then X ^ d else 0 := by
  ext i
  rw [coeff_add, coeff_bitsPoly, apply_ite (coeff · i), coeff_X_pow, coeff_zero,
    Nat.testBit_mod_two_pow, show 2 * n = 2 ^ 1 * n from rfl, Nat.testBit_two_pow_mul]
  cases i with
  | zero =>
    rw [coeff_X_mul_zero]
    simp [Nat.ne_of_lt hd]
  | succ j =>
    rw [coeff_X_mul, coeff_bitsPoly, Nat.add_sub_cancel]
    rcases Nat.lt_trichotomy (j + 1) d with hj | hj | hj
    · simp [hj, Nat.lt_of_succ_lt hj, Nat.ne_of_lt hj]
    · -- the top bit `d - 1 = j` leaves the low `d` bits
      have hj' : j = d - 1 := by omega
      subst hj'
      simp [hj, hd]
    · simp [Nat.not_lt.mpr (Nat.le_of_lt_succ hj), Nat.not_lt.mpr hj.le, Nat.ne_of_gt hj]

theorem eq_of_bitsPoly_eq {d a b : ℕ} (ha : a < 2 ^ d) (hb : b < 2 ^ d)
    (h : bitsPoly d a = bitsPoly d b) : a = b := by
  apply Nat.eq_of_testBit_eq
  intro i
  by_cases hi : i < d
  · have hc := congrArg (coeff · i) h
    simp only [coeff_bitsPoly, hi, true_and] at hc
    cases ha' : a.testBit i <;> cases hb' : b.testBit i <;> simp [ha', hb'] at hc ⊢
  · have hdi : 2 ^ d ≤ 2 ^ i := Nat.pow_le_pow_right (by omega) (Nat.le_of_not_lt hi)
    rw [Nat.testBit_lt_two_pow (by omega), Nat.testBit_lt_two_pow (by omega)]

/-! ### The field -/

/-- The modulus `X ^ d + m(X)`. -/
noncomputable def modulus (d m : ℕ) : (ZMod 2)[X] := X ^ d + bitsPoly d m

theorem degree_modulus (d m : ℕ) : (modulus d m).degree = d := by
  rw [modulus, degree_add_eq_left_of_degree_lt (by rw [degree_X_pow]; exact degree_bitsPoly_lt d m),
    degree_X_pow]

/-- `GF(2)[a] / (a ^ d + m(a))`. -/
abbrev BinQuot (d m : ℕ) := AdjoinRoot (modulus d m)

variable {d m : ℕ}

theorem nontrivial (hd : 0 < d) : Nontrivial (BinQuot d m) :=
  AdjoinRoot.nontrivial _ (by rw [degree_modulus]; exact_mod_cast hd.ne')

theorem two_eq_zero : (2 : BinQuot d m) = 0 := by
  rw [← map_ofNat (AdjoinRoot.of (modulus d m)) 2, show (2 : ZMod 2) = 0 from rfl, map_zero]

theorem add_self (x : BinQuot d m) : x + x = 0 := by
  rw [← two_mul, two_eq_zero, zero_mul]

variable (d m) in
/-- The element whose coordinates on `1, a, …, a ^ (d - 1)` are the low `d` bits of `n`. -/
noncomputable def ofBits (n : ℕ) : BinQuot d m := AdjoinRoot.mk _ (bitsPoly d n)

@[simp] theorem ofBits_zero : ofBits d m 0 = 0 := by
  rw [ofBits, bitsPoly_zero, map_zero]

theorem ofBits_one (hd : 0 < d) : ofBits d m 1 = 1 := by
  rw [ofBits, bitsPoly_one hd, map_one]

theorem ofBits_xor (a b : ℕ) : ofBits d m (a ^^^ b) = ofBits d m a + ofBits d m b := by
  rw [ofBits, bitsPoly_xor, map_add]
  rfl

/-- Below `2 ^ d` the bits are the coordinates of a unique element. -/
theorem ofBits_inj {a b : ℕ} (ha : a < 2 ^ d) (hb : b < 2 ^ d) :
    ofBits d m a = ofBits d m b ↔ a = b := by
  refine ⟨fun h => ?_, congrArg _⟩
  rw [ofBits, ofBits, AdjoinRoot.mk_eq_mk] at h
  -- a multiple of the modulus of lower degree than the modulus is zero
  have hzero : bitsPoly d a - bitsPoly d b = 0 := by
    refine eq_zero_of_dvd_of_degree_lt h ?_
    rw [CharTwo.sub_eq_add, ← bitsPoly_xor, degree_modulus]
    exact degree_bitsPoly_lt d _
  exact eq_of_bitsPoly_eq ha hb (sub_eq_zero.mp hzero)

/-- `a ^ d = m(a)`: the relation the modulus imposes. -/
theorem root_pow : AdjoinRoot.root (modulus d m) ^ d = ofBits d m m := by
  rw [ofBits, ← AdjoinRoot.mk_X, ← map_pow, AdjoinRoot.mk_eq_mk, CharTwo.sub_eq_add]
  exact dvd_rfl

/-! ### Multiplication on bits -/

variable (d m) in
/-- Multiplication by `a`: shift up, and add `m` when bit `d - 1` falls out at the top. -/
def xtime (n : ℕ) : ℕ := 2 * n % 2 ^ d ^^^ if n.testBit (d - 1) then m else 0

theorem ofBits_xtime (hd : 0 < d) (n : ℕ) :
    ofBits d m (xtime d m n) = AdjoinRoot.root (modulus d m) * ofBits d m n := by
  have hshift : AdjoinRoot.root (modulus d m) * ofBits d m n =
      ofBits d m (2 * n % 2 ^ d) + if n.testBit (d - 1) then AdjoinRoot.root _ ^ d else 0 := by
    rw [ofBits, ofBits, ← AdjoinRoot.mk_X, ← map_mul, X_mul_bitsPoly hd, map_add,
      apply_ite (AdjoinRoot.mk _), map_pow, map_zero]
  rw [hshift, xtime, ofBits_xor, root_pow]
  split_ifs
  · rfl
  · rw [ofBits_zero]

theorem ofBits_iterate_xtime (hd : 0 < d) (j n : ℕ) :
    ofBits d m ((xtime d m)^[j] n) = AdjoinRoot.root (modulus d m) ^ j * ofBits d m n := by
  induction j with
  | zero => rw [Function.iterate_zero_apply, pow_zero, one_mul]
  | succ j ih =>
    rw [Function.iterate_succ_apply', ofBits_xtime hd, ih, pow_succ', mul_assoc]

variable (d m) in
/-- The xor of `a * a ^ k` over the bits `k < j` of `b`. -/
def mulBits (a b : ℕ) : ℕ → ℕ
  | 0 => 0
  | j + 1 => mulBits a b j ^^^ if b.testBit j then (xtime d m)^[j] a else 0

variable (d m) in
/-- Multiplication: shift and add over the `d` bits of `b`. -/
def mul (a b : ℕ) : ℕ := mulBits d m a b d

theorem ofBits_mulBits (hd : 0 < d) (a b j : ℕ) :
    ofBits d m (mulBits d m a b j) = ofBits d m a * AdjoinRoot.mk _ (bitsPoly j b) := by
  induction j with
  | zero => rw [mulBits, ofBits_zero, bitsPoly, ofFn_zero', map_zero, mul_zero]
  | succ j ih =>
    rw [mulBits, ofBits_xor, ih, bitsPoly_succ, map_add, mul_add]
    congr 1
    split_ifs
    · rw [ofBits_iterate_xtime hd, map_pow, AdjoinRoot.mk_X, mul_comm]
    · rw [ofBits_zero, map_zero, mul_zero]

theorem ofBits_mul (hd : 0 < d) (a b : ℕ) :
    ofBits d m (mul d m a b) = ofBits d m a * ofBits d m b :=
  ofBits_mulBits hd a b d

end BinaryField
