import Mathlib.Data.Nat.Size
import Mathlib.Data.Nat.Bitwise
import Mathlib.Tactic.Linarith
import Mathlib.Tactic.Ring
import BitcoinCash.Control.WhileLoop

/-!
# Big unsigned integers

`base_uint<BITS>` (`arith_uint256.h`, `arith_uint256.cpp`) stores a number in `WIDTH = BITS / 32`
limbs `uint32_t pn[WIDTH]`, least significant first. Its shifts, `bits()`, `GetLow64()` and
`CompareTo` are loops over the limbs; this file models them as such and reads each one off as
arithmetic on the natural number the limbs denote, through its bits.
-/

namespace BitcoinCash

/-- `base_uint` with `width = WIDTH` limbs. -/
structure BaseUint (width : ℕ) where
  /-- `pn`, least significant limb first. -/
  pn : Fin width → UInt32

namespace BaseUint

variable {width : ℕ}

/-- `pn[i]`, and `0` outside the array (never read by the code). -/
def limb (a : BaseUint width) (i : ℕ) : UInt32 := if h : i < width then a.pn ⟨i, h⟩ else 0

/-- The default constructor: every limb `0`. -/
def zero : BaseUint width := ⟨fun _ => 0⟩

/-- `pn[j] |= v`. -/
def orLimb (a : BaseUint width) (j : ℕ) (v : UInt32) : BaseUint width :=
  ⟨fun i => if i.val = j then a.pn i ||| v else a.pn i⟩

/-- `operator==`: `memcmp` of the limbs. -/
instance : DecidableEq (BaseUint width) := fun a b =>
  decidable_of_iff (∀ i, a.pn i = b.pn i) (by
    cases a
    cases b
    simp only [mk.injEq]
    exact ⟨funext, fun h _ => congrFun h _⟩)

/-- The value of the limbs below `n`. -/
def valueBelow (a : BaseUint width) : ℕ → ℕ
  | 0 => 0
  | n + 1 => a.valueBelow n + 2 ^ (32 * n) * (a.limb n).toNat

/-- The number the limbs denote. -/
def toNat (a : BaseUint width) : ℕ := a.valueBelow width

/-- `base_uint(uint64_t b)`: the low and high halves of `b` in the first two limbs. -/
def ofUInt64 (b : ℕ) : BaseUint width :=
  ⟨fun i => if i.val = 0 then UInt32.ofNat b else if i.val = 1 then UInt32.ofNat (b >>> 32)
    else 0⟩

/-- One iteration `i` of the loop of `operator<<=`, for a shift of `k` limbs and `shift` bits:
`pn[i + k + 1] |= a.pn[i] >> (32 - shift)` and `pn[i + k] |= a.pn[i] << shift`, each when it
lands inside the array. -/
def shiftLeftStep (a : BaseUint width) (k shift : ℕ) (r : BaseUint width) (i : ℕ) :
    BaseUint width :=
  let r := if i + k + 1 < width ∧ shift ≠ 0 then
    r.orLimb (i + k + 1) (a.limb i >>> (32 - shift).toUInt32) else r
  if i + k < width then r.orLimb (i + k) (a.limb i <<< shift.toUInt32) else r

/-- `operator<<=`. -/
def shiftLeftAssign (a : BaseUint width) (shift : ℕ) : BaseUint width :=
  (List.range width).foldl (a.shiftLeftStep (shift / 32) (shift % 32)) zero

/-- One iteration `i` of the loop of `operator>>=`: `pn[i - k - 1] |= a.pn[i] << (32 - shift)`
and `pn[i - k] |= a.pn[i] >> shift`, each when it lands inside the array. -/
def shiftRightStep (a : BaseUint width) (k shift : ℕ) (r : BaseUint width) (i : ℕ) :
    BaseUint width :=
  let r := if k + 1 ≤ i ∧ shift ≠ 0 then
    r.orLimb (i - k - 1) (a.limb i <<< (32 - shift).toUInt32) else r
  if k ≤ i then r.orLimb (i - k) (a.limb i >>> shift.toUInt32) else r

/-- `operator>>=`. -/
def shiftRightAssign (a : BaseUint width) (shift : ℕ) : BaseUint width :=
  (List.range width).foldl (a.shiftRightStep (shift / 32) (shift % 32)) zero

/-- The inner loop of `bits()`: the highest set bit among bits `nbits, nbits - 1, …, 1` of a
non-zero limb at `pos`, or bit `0`. -/
def bitsInLimb (x : UInt32) (pos : ℕ) : ℕ → ℕ
  | 0 => 32 * pos + 1
  | nbits + 1 =>
    if x &&& (1 <<< (nbits + 1).toUInt32) ≠ 0 then 32 * pos + (nbits + 1) + 1
    else bitsInLimb x pos nbits

/-- The outer loop of `bits()`: the highest non-zero limb below `pos`. -/
def bitsBelow (a : BaseUint width) : ℕ → ℕ
  | 0 => 0
  | pos + 1 => if a.limb pos ≠ 0 then bitsInLimb (a.limb pos) pos 31 else a.bitsBelow pos

/-- `bits()`: the position of the highest set bit plus one, or zero. -/
def bits (a : BaseUint width) : ℕ := a.bitsBelow width

/-- `GetLow64()`. -/
def getLow64 (a : BaseUint width) : ℕ := (a.limb 0).toNat ||| (a.limb 1).toNat <<< 32

/-- The loop of `CompareTo` over the limbs below `i`, from the top. -/
def compareBelow (a b : BaseUint width) : ℕ → ℤ
  | 0 => 0
  | i + 1 =>
    if a.limb i < b.limb i then -1 else if a.limb i > b.limb i then 1 else compareBelow a b i

/-- `CompareTo`. -/
def compareTo (a b : BaseUint width) : ℤ := compareBelow a b width

/-- `operator<=`. -/
def le (a b : BaseUint width) : Bool := compareTo a b ≤ 0

/-- `EqualTo(uint64_t b)`: the limbs above the second are zero and the two low limbs are the
halves of `b`. -/
def equalTo (a : BaseUint width) (b : ℕ) : Bool :=
  (List.range width).all (fun i => decide (i < 2) || a.limb i == 0) &&
    (a.limb 1).toNat == b >>> 32 && (a.limb 0).toNat == b &&& 0xffffffff

/-- `pn[j] = v`. -/
def setLimb (a : BaseUint width) (j : ℕ) (v : UInt32) : BaseUint width :=
  ⟨fun i => if i.val = j then v else a.pn i⟩

/-- One pass of the loop of `operator*=(uint32_t b32)`: `n = carry + b32 * pn[i]`; the low word
of `n` is the new limb `i` and its high word the next carry. -/
def mulStep (b32 : UInt32) (st : BaseUint width × UInt64) (i : ℕ) : BaseUint width × UInt64 :=
  let n : UInt64 := st.2 + b32.toUInt64 * (st.1.limb i).toUInt64
  (st.1.setLimb i (n &&& 0xffffffff).toUInt32, n >>> 32)

/-- `operator*=(uint32_t b32)`. -/
def mulAssign (a : BaseUint width) (b32 : UInt32) : BaseUint width :=
  ((List.range width).foldl (mulStep b32) (a, 0)).1

/-! ### The value, bit by bit -/

theorem limb_of_lt (a : BaseUint width) {i : ℕ} (h : i < width) : a.limb i = a.pn ⟨i, h⟩ :=
  dif_pos h

@[simp] theorem limb_zero (i : ℕ) : (zero : BaseUint width).limb i = 0 := by
  unfold limb zero
  split <;> rfl

theorem limb_orLimb (a : BaseUint width) (j : ℕ) (v : UInt32) (i : ℕ) :
    (a.orLimb j v).limb i = if i = j ∧ i < width then a.limb i ||| v else a.limb i := by
  unfold limb orLimb
  by_cases hi : i < width
  · rw [dif_pos hi, dif_pos hi]
    by_cases hij : i = j
    · subst hij
      simp [hi]
    · simp [hij]
  · rw [dif_neg hi, dif_neg hi]
    simp [hi]

theorem valueBelow_lt (a : BaseUint width) (n : ℕ) : a.valueBelow n < 2 ^ (32 * n) := by
  induction n with
  | zero => simp [valueBelow]
  | succ n ih =>
    have hlimb := (a.limb n).toNat_lt
    rw [valueBelow, show 32 * (n + 1) = 32 * n + 32 by omega, pow_add]
    have : 2 ^ (32 * n) * (a.limb n).toNat + 2 ^ (32 * n) ≤ 2 ^ (32 * n) * 2 ^ 32 := by
      rw [← Nat.mul_succ]
      exact Nat.mul_le_mul_left _ hlimb
    omega

theorem toNat_lt (a : BaseUint width) : a.toNat < 2 ^ (32 * width) := a.valueBelow_lt width

theorem testBit_valueBelow (a : BaseUint width) (n p : ℕ) :
    (a.valueBelow n).testBit p =
      (decide (p < 32 * n) && (a.limb (p / 32)).toNat.testBit (p % 32)) := by
  induction n with
  | zero => simp [valueBelow, Nat.zero_testBit]
  | succ n ih =>
    rw [valueBelow, Nat.add_comm, Nat.testBit_two_pow_mul_add _ (a.valueBelow_lt n)]
    by_cases hp : p < 32 * n
    · rw [if_pos hp, ih]
      simp [hp, show p < 32 * (n + 1) by omega]
    · rw [if_neg hp]
      by_cases hq : p < 32 * (n + 1)
      · have hdiv : p / 32 = n := by omega
        have hmod : p % 32 = p - 32 * n := by omega
        simp [hq, hdiv, hmod]
      · have hlimb := (a.limb n).toNat_lt
        have hbit : (a.limb n).toNat.testBit (p - 32 * n) = false :=
          Nat.testBit_lt_two_pow (lt_of_lt_of_le hlimb (Nat.pow_le_pow_right (by norm_num)
            (by omega)))
        simp [hq, hbit]

/-- Bit `p` of the value is bit `p % 32` of limb `p / 32`. -/
theorem testBit_toNat (a : BaseUint width) (p : ℕ) :
    a.toNat.testBit p = (decide (p < 32 * width) && (a.limb (p / 32)).toNat.testBit (p % 32)) :=
  a.testBit_valueBelow width p

/-- Limbs are determined by the bits of the value. -/
theorem limb_testBit (a : BaseUint width) {j b : ℕ} (hj : j < width) (hb : b < 32) :
    (a.limb j).toNat.testBit b = a.toNat.testBit (32 * j + b) := by
  rw [testBit_toNat]
  have hdiv : (32 * j + b) / 32 = j := by omega
  have hmod : (32 * j + b) % 32 = b := by omega
  simp [hdiv, hmod, show 32 * j + b < 32 * width by omega]

theorem ext_limb {a b : BaseUint width} (h : ∀ i < width, a.limb i = b.limb i) : a = b := by
  cases a with
  | mk f =>
    cases b with
    | mk g =>
      congr
      funext i
      have := h i.val i.isLt
      rwa [limb_of_lt _ i.isLt, limb_of_lt _ i.isLt] at this

/-- The value determines the limbs. -/
theorem eq_of_toNat_eq {a b : BaseUint width} (h : a.toNat = b.toNat) : a = b := by
  apply ext_limb
  intro i hi
  apply UInt32.toNat_inj.mp
  apply Nat.eq_of_testBit_eq
  intro p
  by_cases hp : p < 32
  · rw [limb_testBit a hi hp, limb_testBit b hi hp, h]
  · rw [Nat.testBit_lt_two_pow (lt_of_lt_of_le (a.limb i).toNat_lt
      (Nat.pow_le_pow_right (by norm_num) (by omega))),
      Nat.testBit_lt_two_pow (lt_of_lt_of_le (b.limb i).toNat_lt
      (Nat.pow_le_pow_right (by norm_num) (by omega)))]

/-- A number is the value of limbs with its bits, when it has no bit above them. -/
theorem toNat_eq_of_testBit {a : BaseUint width} {n : ℕ}
    (h : ∀ p < 32 * width, a.toNat.testBit p = n.testBit p) (hn : n < 2 ^ (32 * width)) :
    a.toNat = n := by
  apply Nat.eq_of_testBit_eq
  intro p
  by_cases hp : p < 32 * width
  · exact h p hp
  · rw [Nat.testBit_lt_two_pow (lt_of_lt_of_le a.toNat_lt (Nat.pow_le_pow_right (by norm_num)
      (by omega))), Nat.testBit_lt_two_pow (lt_of_lt_of_le hn (Nat.pow_le_pow_right
      (by norm_num) (by omega)))]

/-! ### Bits of the limb operations -/

theorem testBit_limb_orLimb (a : BaseUint width) (j : ℕ) (v : UInt32) (i b : ℕ) :
    ((a.orLimb j v).limb i).toNat.testBit b =
      ((a.limb i).toNat.testBit b || (decide (i = j ∧ i < width) && v.toNat.testBit b)) := by
  rw [limb_orLimb]
  split_ifs with h
  · obtain ⟨rfl, hi⟩ := h
    simp [hi]
  · simp [h]

theorem testBit_uint32_shiftLeft (x : UInt32) {s : ℕ} (hs : s < 32) (b : ℕ) :
    (x <<< s.toUInt32).toNat.testBit b =
      (decide (b < 32) && (decide (s ≤ b) && x.toNat.testBit (b - s))) := by
  have hs' : (s.toUInt32).toNat % 32 = s := by
    rw [Nat.toUInt32, UInt32.toNat_ofNat']
    omega
  rw [UInt32.toNat_shiftLeft, hs', Nat.testBit_mod_two_pow, Nat.testBit_shiftLeft]

theorem testBit_uint32_shiftRight (x : UInt32) {t : ℕ} (ht : t < 32) (b : ℕ) :
    (x >>> t.toUInt32).toNat.testBit b = x.toNat.testBit (t + b) := by
  have ht' : (t.toUInt32).toNat % 32 = t := by
    rw [Nat.toUInt32, UInt32.toNat_ofNat']
    omega
  rw [UInt32.toNat_shiftRight, ht', Nat.testBit_shiftRight]

theorem testBit_limb_eq_false (x : UInt32) {b : ℕ} (hb : 32 ≤ b) : x.toNat.testBit b = false :=
  Nat.testBit_lt_two_pow (lt_of_lt_of_le x.toNat_lt (Nat.pow_le_pow_right (by norm_num) hb))

/-! ### `operator<<=` -/

section ShiftLeft

variable (a : BaseUint width) (k s : ℕ)

theorem testBit_limb_orLimb_if (c : Prop) [Decidable c] (r : BaseUint width) (j : ℕ)
    (v : UInt32) (i b : ℕ) :
    ((if c then r.orLimb j v else r).limb i).toNat.testBit b =
      ((r.limb i).toNat.testBit b || (decide (c ∧ i = j ∧ i < width) && v.toNat.testBit b)) := by
  by_cases hc : c
  · simp [hc, testBit_limb_orLimb]
  · simp [hc]

theorem testBit_limb_shiftLeftStep (r : BaseUint width) (i j b : ℕ) :
    ((a.shiftLeftStep k s r i).limb j).toNat.testBit b =
      ((r.limb j).toNat.testBit b ||
        (decide (j = i + k + 1 ∧ j < width ∧ s ≠ 0) &&
          (a.limb i >>> (32 - s).toUInt32).toNat.testBit b) ||
        (decide (j = i + k ∧ j < width) && (a.limb i <<< s.toUInt32).toNat.testBit b)) := by
  unfold shiftLeftStep
  rw [testBit_limb_orLimb_if, testBit_limb_orLimb_if]
  have hlow : (i + k < width ∧ j = i + k ∧ j < width) ↔ (j = i + k ∧ j < width) := by omega
  have hhigh : ((i + k + 1 < width ∧ s ≠ 0) ∧ j = i + k + 1 ∧ j < width) ↔
      (j = i + k + 1 ∧ j < width ∧ s ≠ 0) := by omega
  simp only [hlow, hhigh]

/-- The bits of limb `j` once the iterations below `n` of `operator<<=` have run: those moved up
from a limb `i` with `j = i + k`, and, for a partial-limb shift, those carried from a limb `i`
with `j = i + k + 1`. -/
def ShiftLeftBits (n : ℕ) (r : BaseUint width) : Prop :=
  ∀ j < width, ∀ b < 32, (r.limb j).toNat.testBit b = true ↔
    (∃ i < n, j = i + k ∧ s ≤ b ∧ (a.limb i).toNat.testBit (b - s) = true) ∨
    (∃ i < n, j = i + k + 1 ∧ s ≠ 0 ∧ (a.limb i).toNat.testBit (32 - s + b) = true)

theorem shiftLeftBits_fold (hs : s < 32) (n : ℕ) :
    ShiftLeftBits a k s n ((List.range n).foldl (a.shiftLeftStep k s) zero) := by
  induction n with
  | zero =>
    intro j _ b _
    simp
  | succ n ih =>
    intro j hj b hb
    rw [List.range_succ, List.foldl_append, List.foldl_cons, List.foldl_nil,
      testBit_limb_shiftLeftStep, testBit_uint32_shiftLeft _ hs]
    by_cases hs0 : s = 0
    · simp only [Bool.or_eq_true, ih j hj b hb, Nat.exists_lt_succ_right]
      simp [hs0, hj, hb]
    · rw [testBit_uint32_shiftRight _ (by omega)]
      simp only [Bool.or_eq_true, ih j hj b hb, Nat.exists_lt_succ_right]
      simp [hs0, hj, hb]
      simp only [or_assoc, or_comm, or_left_comm]

/-- A set bit of the value lies in a limb: its index and position there. -/
theorem testBit_toNat_iff (a : BaseUint width) (q : ℕ) :
    a.toNat.testBit q = true ↔
      q < 32 * width ∧ (a.limb (q / 32)).toNat.testBit (q % 32) = true := by
  rw [testBit_toNat]
  simp

/-- `operator<<=` multiplies by `2 ^ shift` modulo `2 ^ (32 * WIDTH)`, for every shift. -/
theorem toNat_shiftLeftAssign (a : BaseUint width) (shift : ℕ) :
    (a.shiftLeftAssign shift).toNat = a.toNat * 2 ^ shift % 2 ^ (32 * width) := by
  apply toNat_eq_of_testBit _ (Nat.mod_lt _ (by positivity))
  intro p hp
  have hbits := shiftLeftBits_fold a (shift / 32) (shift % 32) (Nat.mod_lt _ (by norm_num)) width
    (p / 32) (by omega) (p % 32) (Nat.mod_lt _ (by norm_num))
  rw [Bool.eq_iff_iff, testBit_toNat_iff, Nat.testBit_mod_two_pow, Nat.testBit_mul_two_pow]
  simp only [hp, true_and, decide_true, Bool.true_and, Bool.and_eq_true, decide_eq_true_eq]
  rw [shiftLeftAssign, hbits, testBit_toNat_iff]
  constructor
  · rintro (⟨i, hi, hj, hsb, hbit⟩ | ⟨i, hi, hj, hs0, hbit⟩)
    · -- bits moved up within a limb
      rw [limb_testBit a hi (by omega)] at hbit
      have hq : 32 * i + (p % 32 - shift % 32) = p - shift := by omega
      rw [hq] at hbit
      exact ⟨by omega, (testBit_toNat_iff a _).mp hbit⟩
    · -- bits carried from the limb below
      have hlt : 32 - shift % 32 + p % 32 < 32 := by
        by_contra hge
        rw [testBit_limb_eq_false _ (by omega)] at hbit
        exact Bool.false_ne_true hbit
      rw [limb_testBit a hi hlt] at hbit
      have hq : 32 * i + (32 - shift % 32 + p % 32) = p - shift := by omega
      rw [hq] at hbit
      exact ⟨by omega, (testBit_toNat_iff a _).mp hbit⟩
  · rintro ⟨hle, hq, hbit⟩
    have hi : (p - shift) / 32 < width := by omega
    rw [limb_testBit a hi (Nat.mod_lt _ (by norm_num))] at hbit
    by_cases hsb : shift % 32 ≤ p % 32
    · refine Or.inl ⟨(p - shift) / 32, hi, by omega, hsb, ?_⟩
      rw [limb_testBit a hi (by omega)]
      convert hbit using 2
      omega
    · refine Or.inr ⟨(p - shift) / 32, hi, by omega, by omega, ?_⟩
      rw [limb_testBit a hi (by omega)]
      convert hbit using 2
      omega

end ShiftLeft

/-! ### `operator>>=` -/

section ShiftRight

variable (a : BaseUint width) (k s : ℕ)

theorem testBit_limb_shiftRightStep (r : BaseUint width) (i j b : ℕ) :
    ((a.shiftRightStep k s r i).limb j).toNat.testBit b =
      ((r.limb j).toNat.testBit b ||
        (decide (i = j + k + 1 ∧ j < width ∧ s ≠ 0) &&
          (a.limb i <<< (32 - s).toUInt32).toNat.testBit b) ||
        (decide (i = j + k ∧ j < width) && (a.limb i >>> s.toUInt32).toNat.testBit b)) := by
  unfold shiftRightStep
  rw [testBit_limb_orLimb_if, testBit_limb_orLimb_if]
  have hlow : (k ≤ i ∧ j = i - k ∧ j < width) ↔ (i = j + k ∧ j < width) := by omega
  have hhigh : ((k + 1 ≤ i ∧ s ≠ 0) ∧ j = i - k - 1 ∧ j < width) ↔
      (i = j + k + 1 ∧ j < width ∧ s ≠ 0) := by omega
  simp only [hlow, hhigh]

/-- The bits of limb `j` once the iterations below `n` of `operator>>=` have run: those moved
down from limb `j + k`, and, for a partial-limb shift, those carried from limb `j + k + 1`. -/
def ShiftRightBits (n : ℕ) (r : BaseUint width) : Prop :=
  ∀ j < width, ∀ b < 32, (r.limb j).toNat.testBit b = true ↔
    (∃ i < n, i = j + k ∧ (a.limb i).toNat.testBit (s + b) = true) ∨
    (∃ i < n, i = j + k + 1 ∧ s ≠ 0 ∧ 32 - s ≤ b ∧
      (a.limb i).toNat.testBit (b - (32 - s)) = true)

theorem shiftRightBits_fold (hs : s < 32) (n : ℕ) :
    ShiftRightBits a k s n ((List.range n).foldl (a.shiftRightStep k s) zero) := by
  induction n with
  | zero =>
    intro j _ b _
    simp
  | succ n ih =>
    intro j hj b hb
    rw [List.range_succ, List.foldl_append, List.foldl_cons, List.foldl_nil,
      testBit_limb_shiftRightStep, testBit_uint32_shiftRight _ hs]
    by_cases hs0 : s = 0
    · simp only [Bool.or_eq_true, ih j hj b hb, Nat.exists_lt_succ_right]
      simp [hs0, hj]
    · rw [testBit_uint32_shiftLeft _ (by omega)]
      simp only [Bool.or_eq_true, ih j hj b hb, Nat.exists_lt_succ_right]
      simp [hs0, hj, hb]
      simp only [or_assoc, or_comm, or_left_comm]

/-- `operator>>=` divides by `2 ^ shift`, rounding down, for every shift. -/
theorem toNat_shiftRightAssign (a : BaseUint width) (shift : ℕ) :
    (a.shiftRightAssign shift).toNat = a.toNat / 2 ^ shift := by
  apply toNat_eq_of_testBit _ (lt_of_le_of_lt (Nat.div_le_self _ _) a.toNat_lt)
  intro p hp
  have hbits := shiftRightBits_fold a (shift / 32) (shift % 32) (Nat.mod_lt _ (by norm_num))
    width (p / 32) (by omega) (p % 32) (Nat.mod_lt _ (by norm_num))
  rw [Bool.eq_iff_iff, testBit_toNat_iff, Nat.testBit_div_two_pow]
  simp only [hp, true_and]
  rw [shiftRightAssign, hbits, testBit_toNat_iff]
  constructor
  · rintro (⟨i, hi, hij, hbit⟩ | ⟨i, hi, hij, hs0, hsb, hbit⟩)
    · have hlt : shift % 32 + p % 32 < 32 := by
        by_contra hge
        rw [testBit_limb_eq_false _ (by omega)] at hbit
        exact Bool.false_ne_true hbit
      rw [limb_testBit a hi hlt] at hbit
      have hq : 32 * i + (shift % 32 + p % 32) = p + shift := by omega
      rw [hq] at hbit
      exact (testBit_toNat_iff a _).mp hbit
    · rw [limb_testBit a hi (by omega)] at hbit
      have hq : 32 * i + (p % 32 - (32 - shift % 32)) = p + shift := by omega
      rw [hq] at hbit
      exact (testBit_toNat_iff a _).mp hbit
  · rintro ⟨hq, hbit⟩
    have hi : (p + shift) / 32 < width := by omega
    rw [limb_testBit a hi (Nat.mod_lt _ (by norm_num))] at hbit
    by_cases hsb : shift % 32 + p % 32 < 32
    · refine Or.inl ⟨(p + shift) / 32, hi, by omega, ?_⟩
      rw [limb_testBit a hi hsb]
      convert hbit using 2
      omega
    · refine Or.inr ⟨(p + shift) / 32, hi, by omega, by omega, by omega, ?_⟩
      rw [limb_testBit a hi (by omega)]
      convert hbit using 2
      omega

end ShiftRight

/-! ### Construction from `uint64_t`, `GetLow64`, `bits()`, `CompareTo` -/

/-- `base_uint(uint64_t b)` holds `b` (at least two limbs). -/
theorem toNat_ofUInt64 (hw : 2 ≤ width) (b : ℕ) :
    (ofUInt64 b : BaseUint width).toNat = b % 2 ^ 64 := by
  have hlt : b % 2 ^ 64 < 2 ^ (32 * width) :=
    lt_of_lt_of_le (Nat.mod_lt _ (by positivity)) (Nat.pow_le_pow_right (by norm_num) (by omega))
  apply toNat_eq_of_testBit _ hlt
  intro p hp
  rw [testBit_toNat, Nat.testBit_mod_two_pow]
  simp only [hp, decide_true, Bool.true_and]
  have hpos : p / 32 < width := by omega
  simp only [limb, dif_pos hpos, ofUInt64]
  by_cases h0 : p / 32 = 0
  · rw [if_pos h0, UInt32.toNat_ofNat', Nat.testBit_mod_two_pow, show p % 32 = p by omega]
    simp [show p < 32 by omega, show p < 64 by omega]
  by_cases h1 : p / 32 = 1
  · rw [if_neg h0, if_pos h1, UInt32.toNat_ofNat', Nat.testBit_mod_two_pow,
      Nat.testBit_shiftRight, show 32 + p % 32 = p by omega]
    simp [show p % 32 < 32 by omega, show p < 64 by omega]
  · rw [if_neg h0, if_neg h1]
    simp [show ¬ p < 64 by omega]

/-- `GetLow64()` is the value modulo `2 ^ 64` (at least two limbs). -/
theorem getLow64_eq (hw : 2 ≤ width) (a : BaseUint width) : a.getLow64 = a.toNat % 2 ^ 64 := by
  apply Nat.eq_of_testBit_eq
  intro p
  rw [getLow64, Nat.testBit_or, Nat.testBit_shiftLeft, Nat.testBit_mod_two_pow, testBit_toNat]
  by_cases h0 : p < 32
  · have hp : p / 32 = 0 := by omega
    simp [h0, hp, show p < 64 by omega, show p % 32 = p by omega, show p < 32 * width by omega]
  by_cases h1 : p < 64
  · have hp : p / 32 = 1 := by omega
    have hlow : (a.limb 0).toNat.testBit p = false := testBit_limb_eq_false _ (by omega)
    simp [h1, hp, hlow, show 32 ≤ p by omega, show p < 32 * width by omega,
      show p % 32 = p - 32 by omega]
  · have hlow : (a.limb 0).toNat.testBit p = false := testBit_limb_eq_false _ (by omega)
    have hhigh : (a.limb 1).toNat.testBit (p - 32) = false := testBit_limb_eq_false _ (by omega)
    simp [h1, hlow, hhigh]

theorem testBit_uint32_and_one_shiftLeft (x : UInt32) {m : ℕ} (hm : m < 32) :
    x &&& (1 <<< m.toUInt32) ≠ 0 ↔ x.toNat.testBit m = true := by
  have hone : (1 <<< m.toUInt32 : UInt32).toNat = 2 ^ m := by
    rw [UInt32.toNat_shiftLeft, Nat.toUInt32, UInt32.toNat_ofNat', UInt32.toNat_one,
      Nat.mod_eq_of_lt (show m < 2 ^ 32 by omega), Nat.mod_eq_of_lt hm, Nat.one_shiftLeft,
      Nat.mod_eq_of_lt (Nat.pow_lt_pow_right (by norm_num) hm)]
  rw [ne_eq, ← UInt32.toNat_inj, UInt32.toNat_and, hone, Nat.and_two_pow]
  cases x.toNat.testBit m <;> simp

/-- The inner loop of `bits()` finds the bit length of a non-zero limb. -/
theorem bitsInLimb_eq (x : UInt32) (pos : ℕ) {n : ℕ} (hn : n < 32) (hx : 0 < x.toNat)
    (hlt : x.toNat < 2 ^ (n + 1)) : bitsInLimb x pos n = 32 * pos + Nat.size x.toNat := by
  induction n with
  | zero =>
    have : x.toNat = 1 := by omega
    simp [bitsInLimb, this]
  | succ n ih =>
    rw [bitsInLimb]
    by_cases hbit : x.toNat.testBit (n + 1) = true
    · rw [if_pos ((testBit_uint32_and_one_shiftLeft x hn).mpr hbit)]
      have hge : 2 ^ (n + 1) ≤ x.toNat := Nat.ge_two_pow_of_testBit hbit
      have hsize : Nat.size x.toNat = n + 2 :=
        le_antisymm (Nat.size_le.mpr hlt) (Nat.lt_size.mpr hge)
      omega
    · rw [if_neg (fun h => hbit ((testBit_uint32_and_one_shiftLeft x hn).mp h))]
      apply ih (by omega)
      apply Nat.lt_pow_two_of_testBit
      intro i hi
      rcases Nat.eq_or_lt_of_le hi with rfl | hi'
      · simpa using hbit
      · exact Nat.testBit_lt_two_pow (lt_of_lt_of_le hlt (Nat.pow_le_pow_right (by norm_num)
          (by omega)))

theorem bitsBelow_eq (a : BaseUint width) (n : ℕ) :
    a.bitsBelow n = Nat.size (a.valueBelow n) := by
  induction n with
  | zero => simp [bitsBelow, valueBelow]
  | succ n ih =>
    rw [bitsBelow, valueBelow]
    by_cases hz : a.limb n = 0
    · rw [if_neg (not_not.mpr hz), ih, hz]
      simp
    · rw [if_pos hz]
      have hx : 0 < (a.limb n).toNat := by
        rw [Nat.pos_iff_ne_zero, ne_eq, ← UInt32.toNat_zero, UInt32.toNat_inj]
        exact hz
      rw [bitsInLimb_eq _ _ (by norm_num) hx (a.limb n).toNat_lt]
      have hlow := a.valueBelow_lt n
      -- the low limbs only fill bits below `32 * n`
      have hup : a.valueBelow n + 2 ^ (32 * n) * (a.limb n).toNat <
          2 ^ (32 * n + Nat.size (a.limb n).toNat) := by
        have hs := Nat.lt_size_self (a.limb n).toNat
        rw [pow_add]
        have : 2 ^ (32 * n) * (a.limb n).toNat + 2 ^ (32 * n) ≤
            2 ^ (32 * n) * 2 ^ Nat.size (a.limb n).toNat := by
          rw [← Nat.mul_succ]
          exact Nat.mul_le_mul_left _ hs
        omega
      have hdown : 2 ^ (32 * n + Nat.size (a.limb n).toNat - 1) ≤
          a.valueBelow n + 2 ^ (32 * n) * (a.limb n).toNat := by
        have hs : 2 ^ (Nat.size (a.limb n).toNat - 1) ≤ (a.limb n).toNat :=
          Nat.lt_size.mp (by have := Nat.size_pos.mpr hx; omega)
        have hpos := Nat.size_pos.mpr hx
        rw [show 32 * n + Nat.size (a.limb n).toNat - 1 =
          32 * n + (Nat.size (a.limb n).toNat - 1) by omega, pow_add]
        have := Nat.mul_le_mul_left (2 ^ (32 * n)) hs
        omega
      apply le_antisymm
      · have hlt := Nat.lt_size.mpr hdown
        have hpos := Nat.size_pos.mpr hx
        omega
      · exact Nat.size_le.mpr hup

/-- `bits()` is the bit length of the value. -/
theorem bits_eq_size (a : BaseUint width) : a.bits = Nat.size a.toNat := a.bitsBelow_eq width

/-- The comparison loop compares the values of the limbs it has scanned. -/
theorem compareBelow_eq (a b : BaseUint width) (n : ℕ) :
    compareBelow a b n = if a.valueBelow n < b.valueBelow n then -1
      else if b.valueBelow n < a.valueBelow n then 1 else 0 := by
  induction n with
  | zero => simp [compareBelow, valueBelow]
  | succ n ih =>
    have ha := a.valueBelow_lt n
    have hb := b.valueBelow_lt n
    -- a smaller top limb decides the comparison, whatever the limbs below
    have htop : ∀ {x y : ℕ} {u v : ℕ}, u < v → x < 2 ^ (32 * n) →
        x + 2 ^ (32 * n) * u < y + 2 ^ (32 * n) * v := by
      intro x y u v huv hx
      have := Nat.mul_le_mul_left (2 ^ (32 * n)) (Nat.succ_le_of_lt huv)
      rw [Nat.mul_succ] at this
      omega
    rw [compareBelow, valueBelow, valueBelow]
    by_cases hlt : a.limb n < b.limb n
    · rw [UInt32.lt_iff_toNat_lt] at hlt
      simp [UInt32.lt_iff_toNat_lt, hlt, htop (y := b.valueBelow n) hlt ha]
    by_cases hgt : a.limb n > b.limb n
    · rw [gt_iff_lt, UInt32.lt_iff_toNat_lt] at hgt
      have h1 := htop (y := a.valueBelow n) hgt hb
      simp [UInt32.lt_iff_toNat_lt, hgt, hgt.le, h1, not_lt.mpr h1.le]
    · have heq : a.limb n = b.limb n := by
        rw [UInt32.lt_iff_toNat_lt] at hlt
        rw [gt_iff_lt, UInt32.lt_iff_toNat_lt] at hgt
        exact UInt32.toNat_inj.mp (by omega)
      rw [if_neg hlt, if_neg hgt, ih, heq]
      simp

/-- `CompareTo` is the comparison of the values. -/
theorem compareTo_eq (a b : BaseUint width) : a.compareTo b =
    if a.toNat < b.toNat then -1 else if b.toNat < a.toNat then 1 else 0 :=
  compareBelow_eq a b width

/-- `operator<=` is the order of the values. -/
theorem le_iff (a b : BaseUint width) : a.le b = true ↔ a.toNat ≤ b.toNat := by
  rw [le, compareTo_eq]
  split_ifs with h1 h2 <;> simp <;> omega

/-- `operator>` is the strict order of the values. -/
theorem compareTo_pos_iff (a b : BaseUint width) : 0 < a.compareTo b ↔ b.toNat < a.toNat := by
  rw [compareTo_eq]
  split_ifs with h1 h2 <;> simp <;> omega

/-! ### `EqualTo` -/

theorem limb_ofUInt64 (b i : ℕ) : (ofUInt64 b : BaseUint width).limb i =
    if i = 0 ∧ i < width then UInt32.ofNat b
    else if i = 1 ∧ i < width then UInt32.ofNat (b >>> 32) else 0 := by
  unfold limb ofUInt64
  by_cases hi : i < width
  · simp [hi]
  · simp [hi]

/-- `EqualTo(b)` compares the value with `b` (at least two limbs, `b` a `uint64_t`). -/
theorem equalTo_iff (hw : 2 ≤ width) (a : BaseUint width) {b : ℕ} (hb : b < 2 ^ 64) :
    a.equalTo b = true ↔ a.toNat = b := by
  have hval : (ofUInt64 b : BaseUint width).toNat = b := by
    rw [toNat_ofUInt64 hw, Nat.mod_eq_of_lt hb]
  have hhigh : b >>> 32 < 2 ^ 32 := by
    rw [Nat.shiftRight_eq_div_pow]
    omega
  constructor
  · intro h
    simp only [equalTo, Bool.and_eq_true, List.all_eq_true, List.mem_range, Bool.or_eq_true,
      decide_eq_true_eq, beq_iff_eq] at h
    obtain ⟨⟨hrest, h1⟩, h0⟩ := h
    rw [← hval]
    congr 1
    apply ext_limb
    intro i hi
    rw [limb_ofUInt64]
    rcases Nat.lt_or_ge i 2 with hi2 | hi2
    · rcases (show i = 0 ∨ i = 1 by omega) with rfl | rfl
      · rw [if_pos ⟨rfl, hi⟩]
        apply UInt32.toNat_inj.mp
        rw [h0, UInt32.toNat_ofNat', show (0xffffffff : ℕ) = 2 ^ 32 - 1 by norm_num,
          Nat.and_two_pow_sub_one_eq_mod]
      · rw [if_neg (by omega), if_pos ⟨rfl, hi⟩]
        apply UInt32.toNat_inj.mp
        rw [h1, UInt32.toNat_ofNat', Nat.mod_eq_of_lt hhigh]
    · rw [if_neg (by omega), if_neg (by omega)]
      exact (hrest i hi).resolve_left (by omega)
  · intro h
    rw [← hval] at h
    rw [eq_of_toNat_eq h]
    simp only [equalTo, Bool.and_eq_true, List.all_eq_true, List.mem_range, Bool.or_eq_true,
      decide_eq_true_eq, beq_iff_eq]
    refine ⟨⟨fun i hi => ?_, ?_⟩, ?_⟩
    · rcases Nat.lt_or_ge i 2 with hi2 | hi2
      · exact Or.inl hi2
      · right
        rw [limb_ofUInt64, if_neg (by omega), if_neg (by omega)]
    · rw [limb_ofUInt64, if_neg (by omega), if_pos ⟨rfl, by omega⟩, UInt32.toNat_ofNat',
        Nat.mod_eq_of_lt hhigh]
    · rw [limb_ofUInt64, if_pos ⟨rfl, by omega⟩, UInt32.toNat_ofNat',
        show (0xffffffff : ℕ) = 2 ^ 32 - 1 by norm_num, Nat.and_two_pow_sub_one_eq_mod]

/-! ### Multiplication by a word -/

theorem limb_setLimb (a : BaseUint width) (j : ℕ) (v : UInt32) (i : ℕ) :
    (a.setLimb j v).limb i = if i = j ∧ i < width then v else a.limb i := by
  unfold limb setLimb
  by_cases hi : i < width
  · simp [hi]
  · simp [hi]

/-- The high word of `n`, `n >> 32`: the carry of a carry loop. -/
theorem toNat_highWord (n : UInt64) : (n >>> 32).toNat = n.toNat / 2 ^ 32 := by
  rw [UInt64.toNat_shiftRight, show (32 : UInt64).toNat % 64 = 32 from rfl,
    Nat.shiftRight_eq_div_pow]

theorem valueBelow_setLimb_of_le (a : BaseUint width) {j n : ℕ} (v : UInt32) (h : n ≤ j) :
    (a.setLimb j v).valueBelow n = a.valueBelow n := by
  induction n with
  | zero => rfl
  | succ n ih =>
    rw [valueBelow, valueBelow, ih (by omega), limb_setLimb, if_neg (by omega)]

/-- Setting limb `k` extends the value below `k` by that limb. -/
theorem valueBelow_succ_setLimb (a : BaseUint width) {k : ℕ} (hk : k < width) (v : UInt32) :
    (a.setLimb k v).valueBelow (k + 1) = a.valueBelow k + 2 ^ (32 * k) * v.toNat := by
  rw [valueBelow, valueBelow_setLimb_of_le _ _ le_rfl, limb_setLimb, if_pos ⟨rfl, hk⟩]

/-- Storing the low word of `n` in limb `k` and keeping its high word as the carry adds
`2 ^ (32 * k) * n` to the value of the limbs below `k`: the step of every carry loop. -/
theorem valueBelow_storeWord (a : BaseUint width) {k : ℕ} (hk : k < width) (n : UInt64) :
    (a.setLimb k (n &&& 0xffffffff).toUInt32).valueBelow (k + 1) +
        2 ^ (32 * (k + 1)) * (n >>> 32).toNat =
      a.valueBelow k + 2 ^ (32 * k) * n.toNat := by
  have hlow : (n &&& 0xffffffff).toUInt32.toNat = n.toNat % 2 ^ 32 := by
    rw [UInt64.toNat_toUInt32, UInt64.toNat_and,
      show (0xffffffff : UInt64).toNat = 2 ^ 32 - 1 from rfl, Nat.and_two_pow_sub_one_eq_mod,
      Nat.mod_mod]
  rw [valueBelow_succ_setLimb _ hk, hlow, toNat_highWord, show 32 * (k + 1) = 32 * k + 32 by omega,
    pow_add]
  have hdiv := Nat.div_add_mod n.toNat (2 ^ 32)
  calc a.valueBelow k + 2 ^ (32 * k) * (n.toNat % 2 ^ 32) +
        2 ^ (32 * k) * 2 ^ 32 * (n.toNat / 2 ^ 32)
      = a.valueBelow k + 2 ^ (32 * k) * (2 ^ 32 * (n.toNat / 2 ^ 32) + n.toNat % 2 ^ 32) := by
        ring
    _ = a.valueBelow k + 2 ^ (32 * k) * n.toNat := by rw [hdiv]

/-- The invariant of the loop of `operator*=` after `k` limbs: the limbs from `k` on are the
input's, and the low limbs with the carry above them hold the product of the low `k` limbs. -/
def MulInv (a : BaseUint width) (b : UInt32) (k : ℕ) (st : BaseUint width × UInt64) : Prop :=
  (∀ j, k ≤ j → st.1.limb j = a.limb j) ∧
    st.1.valueBelow k + 2 ^ (32 * k) * st.2.toNat = a.valueBelow k * b.toNat ∧
    st.2.toNat < 2 ^ 32

/-- One pass of the loop: `carry + b32 * pn[i]` fits in 64 bits, and its two words extend the
product by one limb. -/
theorem mulInv_mulStep {a : BaseUint width} {b : UInt32} {k : ℕ} {st : BaseUint width × UInt64}
    (h : MulInv a b k st) (hk : k < width) : MulInv a b (k + 1) (mulStep b st k) := by
  obtain ⟨hrest, hval, hcarry⟩ := h
  have hb := b.toNat_lt
  have hl := (st.1.limb k).toNat_lt
  -- the product of two words plus a word fits in a `uint64_t`
  have hprod : b.toNat * (st.1.limb k).toNat ≤ (2 ^ 32 - 1) * (2 ^ 32 - 1) :=
    Nat.mul_le_mul (by omega) (by omega)
  have hn : (st.2 + b.toUInt64 * (st.1.limb k).toUInt64).toNat =
      st.2.toNat + b.toNat * (st.1.limb k).toNat := by
    rw [UInt64.toNat_add, UInt64.toNat_mul, UInt32.toNat_toUInt64, UInt32.toNat_toUInt64,
      Nat.mod_eq_of_lt (by omega), Nat.mod_eq_of_lt (by omega)]
  have hlow : ((st.2 + b.toUInt64 * (st.1.limb k).toUInt64) &&& 0xffffffff).toUInt32.toNat =
      (st.2.toNat + b.toNat * (st.1.limb k).toNat) % 2 ^ 32 := by
    rw [UInt64.toNat_toUInt32, UInt64.toNat_and, hn,
      show (0xffffffff : UInt64).toNat = 2 ^ 32 - 1 from rfl, Nat.and_two_pow_sub_one_eq_mod,
      Nat.mod_mod]
  have hhigh : ((st.2 + b.toUInt64 * (st.1.limb k).toUInt64) >>> 32).toNat =
      (st.2.toNat + b.toNat * (st.1.limb k).toNat) / 2 ^ 32 := by
    rw [UInt64.toNat_shiftRight, hn, show (32 : UInt64).toNat % 64 = 32 from rfl,
      Nat.shiftRight_eq_div_pow]
  have hlimb : st.1.limb k = a.limb k := hrest k le_rfl
  refine ⟨fun j hj => ?_, ?_, ?_⟩
  · simp only [mulStep]
    rw [limb_setLimb, if_neg (by omega), hrest j (by omega)]
  · simp only [mulStep]
    rw [valueBelow, valueBelow, valueBelow_setLimb_of_le _ _ le_rfl, limb_setLimb,
      if_pos ⟨rfl, hk⟩, hlow, hhigh, ← hlimb, show 32 * (k + 1) = 32 * k + 32 by omega, pow_add]
    set n := st.2.toNat + b.toNat * (st.1.limb k).toNat with hn_def
    have hdiv := Nat.div_add_mod n (2 ^ 32)
    calc st.1.valueBelow k + 2 ^ (32 * k) * (n % 2 ^ 32) + 2 ^ (32 * k) * 2 ^ 32 * (n / 2 ^ 32)
        = st.1.valueBelow k + 2 ^ (32 * k) * n := by
          rw [Nat.mul_assoc, Nat.add_assoc, ← Nat.mul_add, Nat.add_comm (n % _), hdiv]
      _ = (st.1.valueBelow k + 2 ^ (32 * k) * st.2.toNat) +
          2 ^ (32 * k) * (b.toNat * (st.1.limb k).toNat) := by
          rw [hn_def]
          ring
      _ = (a.valueBelow k + 2 ^ (32 * k) * (st.1.limb k).toNat) * b.toNat := by
          rw [hval]
          ring
  · simp only [mulStep]
    rw [hhigh, Nat.div_lt_iff_lt_mul (by positivity)]
    omega

theorem mulInv_fold (a : BaseUint width) (b : UInt32) {k : ℕ} (hk : k ≤ width) :
    MulInv a b k ((List.range k).foldl (mulStep b) (a, 0)) := by
  induction k with
  | zero => exact ⟨fun j _ => rfl, by simp [valueBelow], by simp⟩
  | succ k ih =>
    rw [List.range_succ, List.foldl_append, List.foldl_cons, List.foldl_nil]
    exact mulInv_mulStep (ih (by omega)) (by omega)

/-- `operator*=(uint32_t)` multiplies the value modulo `2 ^ (32 * WIDTH)`. -/
theorem toNat_mulAssign (a : BaseUint width) (b : UInt32) :
    (a.mulAssign b).toNat = a.toNat * b.toNat % 2 ^ (32 * width) := by
  obtain ⟨-, hval, -⟩ := mulInv_fold a b (le_refl width)
  have hlt := (a.mulAssign b).toNat_lt
  unfold mulAssign toNat at *
  rw [← hval, Nat.add_mul_mod_self_left, Nat.mod_eq_of_lt hlt]

end BaseUint

end BitcoinCash
