import BitcoinCash.Arith.Compact

/-!
# Addition, negation, multiplication and division of big unsigned integers

The remaining arithmetic of `base_uint<BITS>` (`arith_uint256.h`, `arith_uint256.cpp`):
`operator+=` with a carry, `operator~`, `operator++` and the unary `operator-` built from them,
`operator-=`, the schoolbook `operator*=(const base_uint &)` with its triangular double loop,
and the shift-subtract long division `operator/=`. Each loop is modelled as the code runs it,
over the limbs, and read off as arithmetic modulo `2 ^ (32 * WIDTH)` through a loop invariant.
-/

namespace BitcoinCash

namespace BaseUint

variable {width : ℕ}

/-! ### Definitions -/

/-- One pass `i` of the loop of `operator+=`: `n = carry + pn[i] + b.pn[i]`; its low word is the
new limb and its high word the next carry. -/
def addStep (b : BaseUint width) (st : BaseUint width × UInt64) (i : ℕ) :
    BaseUint width × UInt64 :=
  let n : UInt64 := st.2 + (st.1.limb i).toUInt64 + (b.limb i).toUInt64
  (st.1.setLimb i (n &&& 0xffffffff).toUInt32, n >>> 32)

/-- `operator+=(const base_uint &b)`. -/
def addAssign (a b : BaseUint width) : BaseUint width :=
  ((List.range width).foldl (addStep b) (a, 0)).1

/-- `operator~`: every limb complemented. -/
def complement (a : BaseUint width) : BaseUint width := ⟨fun i => ~~~(a.pn i)⟩

/-- One pass of the loop `while (i < WIDTH && ++pn[i] == 0) i++` of `operator++`: while the
flag is set, limb `i` is incremented, and the loop goes on when it wrapped to `0`. -/
def incrementStep (st : BaseUint width × Bool) (i : ℕ) : BaseUint width × Bool :=
  if st.2 then
    let v := st.1.limb i + 1
    (st.1.setLimb i v, v == 0)
  else st

/-- The prefix `operator++`. -/
def increment (a : BaseUint width) : BaseUint width :=
  ((List.range width).foldl incrementStep (a, true)).1

/-- The unary `operator-`: the complement, then `++`. -/
def neg (a : BaseUint width) : BaseUint width := a.complement.increment

/-- `operator-=(const base_uint &b)`: `*this += -b`. -/
def subAssign (a b : BaseUint width) : BaseUint width := a.addAssign b.neg

/-- One pass `i` of the inner loop of `operator*=(const base_uint &b)` in row `j`:
`n = carry + a.pn[i + j] + (uint64_t)pn[j] * b.pn[i]`, stored at limb `i + j` of the
accumulator `a`. -/
def mulRowStep (x y : BaseUint width) (j : ℕ) (st : BaseUint width × UInt64) (i : ℕ) :
    BaseUint width × UInt64 :=
  let n : UInt64 :=
    st.2 + (st.1.limb (i + j)).toUInt64 + (x.limb j).toUInt64 * (y.limb i).toUInt64
  (st.1.setLimb (i + j) (n &&& 0xffffffff).toUInt32, n >>> 32)

/-- Row `j` of the outer loop: `carry = 0`, then the inner loop over `i + j < WIDTH`; the last
carry is dropped. -/
def mulRow (x y : BaseUint width) (a : BaseUint width) (j : ℕ) : BaseUint width :=
  ((List.range (width - j)).foldl (mulRowStep x y j) (a, 0)).1

/-- `operator*=(const base_uint &b)`: the rows accumulate into a zeroed `a`, which then
replaces `*this`. -/
def mulAssignBaseUint (x y : BaseUint width) : BaseUint width :=
  (List.range width).foldl (mulRow x y) zero

/-- One pass of the loop of `operator/=` at bit `shift`: where `num >= div`, `num -= div` and
`pn[shift / 32] |= (1 << (shift & 31))`. -/
def divStep (num div quot : BaseUint width) (shift : ℕ) : BaseUint width × BaseUint width :=
  if 0 ≤ num.compareTo div then
    (num.subAssign div, quot.orLimb (shift / 32) ((1 : UInt32) <<< (shift % 32).toUInt32))
  else (num, quot)

/-- The loop `while (shift >= 0)` of `operator/=`, from bit `shift` down to bit `0`, with
`div >>= 1` after each pass; it returns the remainder and the quotient. -/
def divLoop (num div quot : BaseUint width) : ℕ → BaseUint width × BaseUint width
  | 0 => divStep num div quot 0
  | shift + 1 =>
    let st := divStep num div quot (shift + 1)
    divLoop st.1 (div.shiftRightAssign 1) st.2 shift

/-- `operator/=`: `div` is shifted up to the top bit of `num`, then subtracted bit by bit. -/
def divAssign (a b : BaseUint width) : Except String (BaseUint width) :=
  let numBits := a.bits
  let divBits := b.bits
  if divBits = 0 then throw "Division by zero"
  else if divBits > numBits then pure zero
  else
    let shift := numBits - divBits
    pure (divLoop a (b.shiftLeftAssign shift) zero shift).2

/-! ### Addition -/

/-- The invariant of the loop of `operator+=` after `k` limbs: the limbs from `k` on are `a`'s,
and the low limbs with the carry above them hold the sum of the low `k` limbs. -/
def AddInv (a b : BaseUint width) (k : ℕ) (st : BaseUint width × UInt64) : Prop :=
  (∀ j, k ≤ j → st.1.limb j = a.limb j) ∧
    st.1.valueBelow k + 2 ^ (32 * k) * st.2.toNat = a.valueBelow k + b.valueBelow k ∧
    st.2.toNat < 2 ^ 32

/-- One pass of the loop: `carry + pn[i] + b.pn[i]` fits in 64 bits, and its two words extend
the sum by one limb. -/
theorem addInv_addStep {a b : BaseUint width} {k : ℕ} {st : BaseUint width × UInt64}
    (h : AddInv a b k st) (hk : k < width) : AddInv a b (k + 1) (addStep b st k) := by
  obtain ⟨hrest, hval, hcarry⟩ := h
  have hl := (st.1.limb k).toNat_lt
  have hb := (b.limb k).toNat_lt
  have hn : (st.2 + (st.1.limb k).toUInt64 + (b.limb k).toUInt64).toNat =
      st.2.toNat + (st.1.limb k).toNat + (b.limb k).toNat := by
    rw [UInt64.toNat_add, UInt64.toNat_add, UInt32.toNat_toUInt64, UInt32.toNat_toUInt64,
      Nat.mod_eq_of_lt (by omega), Nat.mod_eq_of_lt (by omega)]
  have hlimb : st.1.limb k = a.limb k := hrest k le_rfl
  refine ⟨fun j hj => ?_, ?_, ?_⟩
  · simp only [addStep]
    rw [limb_setLimb, if_neg (by omega), hrest j (by omega)]
  · simp only [addStep]
    rw [valueBelow_storeWord _ hk, hn, valueBelow, valueBelow, ← hlimb, Nat.mul_add, Nat.mul_add]
    omega
  · simp only [addStep]
    rw [toNat_highWord, hn, Nat.div_lt_iff_lt_mul (by positivity)]
    omega

/-- `operator+=` adds the values modulo `2 ^ (32 * WIDTH)`. -/
theorem toNat_addAssign (a b : BaseUint width) :
    (a.addAssign b).toNat = (a.toNat + b.toNat) % 2 ^ (32 * width) := by
  obtain ⟨-, hval, -⟩ := foldl_range_invariant (AddInv a b)
    (show AddInv a b 0 (a, 0) from ⟨fun j _ => rfl, by simp [valueBelow], by simp⟩)
    (fun k hk st h => addInv_addStep h hk)
  have hlt := (a.addAssign b).toNat_lt
  unfold addAssign toNat at *
  rw [← hval, Nat.add_mul_mod_self_left, Nat.mod_eq_of_lt hlt]

/-! ### Complement, increment and negation -/

theorem limb_complement (a : BaseUint width) {i : ℕ} (hi : i < width) :
    a.complement.limb i = ~~~(a.limb i) := by
  rw [limb_of_lt _ hi, limb_of_lt _ hi]
  rfl

/-- The complement of the limbs below `n` is `2 ^ (32 * n) - 1` minus their value. -/
theorem valueBelow_complement (a : BaseUint width) {n : ℕ} (hn : n ≤ width) :
    a.complement.valueBelow n + a.valueBelow n = 2 ^ (32 * n) - 1 := by
  induction n with
  | zero => rfl
  | succ n ih =>
    have hlimb := (a.limb n).toNat_lt
    have hnot : (a.complement.limb n).toNat + (a.limb n).toNat = 2 ^ 32 - 1 := by
      rw [limb_complement _ (by omega), UInt32.toNat_not, show UInt32.size = 2 ^ 32 from rfl]
      omega
    have hpow : 2 ^ (32 * (n + 1)) = 2 ^ (32 * n) * 2 ^ 32 := by
      rw [← pow_add, Nat.mul_succ]
    have hpos : 0 < 2 ^ (32 * n) := by positivity
    rw [valueBelow, valueBelow, hpow]
    -- the low limbs give `2 ^ (32 * n) - 1`, the top limb `2 ^ (32 * n) * (2 ^ 32 - 1)`
    calc a.complement.valueBelow n + 2 ^ (32 * n) * (a.complement.limb n).toNat +
          (a.valueBelow n + 2 ^ (32 * n) * (a.limb n).toNat)
        = (a.complement.valueBelow n + a.valueBelow n) +
            2 ^ (32 * n) * ((a.complement.limb n).toNat + (a.limb n).toNat) := by ring
      _ = 2 ^ (32 * n) - 1 + 2 ^ (32 * n) * (2 ^ 32 - 1) := by rw [ih (by omega), hnot]
      _ = 2 ^ (32 * n) * 2 ^ 32 - 1 := by
        rw [Nat.mul_sub, Nat.mul_one]
        have : 2 ^ (32 * n) ≤ 2 ^ (32 * n) * 2 ^ 32 := Nat.le_mul_of_pos_right _ (by positivity)
        omega

/-- `operator~`: `2 ^ (32 * WIDTH) - 1` minus the value. -/
theorem toNat_complement (a : BaseUint width) :
    a.complement.toNat = 2 ^ (32 * width) - 1 - a.toNat := by
  have h := valueBelow_complement a (le_refl width)
  unfold toNat
  omega

/-- The invariant of the loop of `operator++` after `k` limbs: the limbs from `k` on are `a`'s,
and the low limbs with the flag above them hold the low limbs of `a` plus one. -/
def IncInv (a : BaseUint width) (k : ℕ) (st : BaseUint width × Bool) : Prop :=
  (∀ j, k ≤ j → st.1.limb j = a.limb j) ∧
    st.1.valueBelow k + 2 ^ (32 * k) * st.2.toNat = a.valueBelow k + 1

theorem incInv_incrementStep {a : BaseUint width} {k : ℕ} {st : BaseUint width × Bool}
    (h : IncInv a k st) (hk : k < width) : IncInv a (k + 1) (incrementStep st k) := by
  obtain ⟨m, flag⟩ := st
  obtain ⟨hrest, hval⟩ := h
  dsimp only at hrest hval
  have hlimb : m.limb k = a.limb k := hrest k le_rfl
  have hl := (m.limb k).toNat_lt
  have hpow : 2 ^ (32 * (k + 1)) = 2 ^ (32 * k) * 2 ^ 32 := by
    rw [← pow_add, Nat.mul_succ]
  cases flag with
  | false =>
    -- the loop has stopped: nothing changes
    refine ⟨fun j hj => hrest j (by omega), ?_⟩
    simp only [incrementStep, Bool.false_eq_true, if_false, Bool.toNat_false, Nat.mul_zero,
      Nat.add_zero] at hval ⊢
    rw [valueBelow, valueBelow, hval, ← hlimb]
    omega
  | true =>
    simp only [incrementStep, if_true]
    have hv : (m.limb k + 1).toNat = ((m.limb k).toNat + 1) % 2 ^ 32 := by
      rw [UInt32.toNat_add, UInt32.toNat_one]
    refine ⟨fun j hj => by rw [limb_setLimb, if_neg (by omega), hrest j (by omega)], ?_⟩
    simp only [Bool.toNat_true, Nat.mul_one] at hval
    rw [valueBelow_succ_setLimb _ hk, valueBelow, ← hlimb, hpow, hv]
    by_cases hwrap : (m.limb k).toNat + 1 = 2 ^ 32
    · -- the limb wrapped to `0`: the flag stays and carries into the next limb
      have hzero : (m.limb k + 1 == 0) = true := by
        rw [beq_iff_eq, ← UInt32.toNat_inj, hv, hwrap]
        rfl
      rw [hzero, hwrap, Nat.mod_self, Bool.toNat_true]
      have : 2 ^ (32 * k) * 2 ^ 32 = 2 ^ (32 * k) * (m.limb k).toNat + 2 ^ (32 * k) := by
        rw [← hwrap, Nat.mul_add, Nat.mul_one]
      omega
    · have hne : (m.limb k + 1 == 0) = false := by
        rw [beq_eq_false_iff_ne, ne_eq, ← UInt32.toNat_inj, hv]
        simp only [UInt32.toNat_zero]
        omega
      rw [hne, Bool.toNat_false, Nat.mod_eq_of_lt (by omega), Nat.mul_add]
      omega

/-- `operator++` adds one modulo `2 ^ (32 * WIDTH)`. -/
theorem toNat_increment (a : BaseUint width) :
    a.increment.toNat = (a.toNat + 1) % 2 ^ (32 * width) := by
  obtain ⟨-, hval⟩ := foldl_range_invariant (IncInv a)
    (show IncInv a 0 (a, true) from ⟨fun j _ => rfl, by simp [valueBelow]⟩)
    (fun k hk st h => incInv_incrementStep h hk)
  have hlt := a.increment.toNat_lt
  unfold increment toNat at *
  rw [← hval, Nat.add_mul_mod_self_left, Nat.mod_eq_of_lt hlt]

/-- The unary `operator-` is negation modulo `2 ^ (32 * WIDTH)`. -/
theorem toNat_neg (a : BaseUint width) :
    a.neg.toNat = (2 ^ (32 * width) - a.toNat) % 2 ^ (32 * width) := by
  have hlt := a.toNat_lt
  rw [neg, toNat_increment, toNat_complement]
  congr 1
  omega

/-- `operator-=` subtracts modulo `2 ^ (32 * WIDTH)`. -/
theorem toNat_subAssign (a b : BaseUint width) :
    (a.subAssign b).toNat = (a.toNat + (2 ^ (32 * width) - b.toNat)) % 2 ^ (32 * width) := by
  rw [subAssign, toNat_addAssign, toNat_neg, Nat.add_mod_mod]

theorem toNat_subAssign_of_le {a b : BaseUint width} (h : b.toNat ≤ a.toNat) :
    (a.subAssign b).toNat = a.toNat - b.toNat := by
  have hlt := a.toNat_lt
  rw [toNat_subAssign, show a.toNat + (2 ^ (32 * width) - b.toNat) =
      a.toNat - b.toNat + 2 ^ (32 * width) by omega, Nat.add_mod_right, Nat.mod_eq_of_lt (by omega)]

/-! ### Multiplication -/

/-- The value of the limbs below `m` is the value modulo `2 ^ (32 * m)`. -/
theorem valueBelow_eq_mod (a : BaseUint width) {m : ℕ} (hm : m ≤ width) :
    a.valueBelow m = a.toNat % 2 ^ (32 * m) := by
  apply Nat.eq_of_testBit_eq
  intro p
  rw [testBit_valueBelow, Nat.testBit_mod_two_pow, testBit_toNat]
  by_cases hp : p < 32 * m
  · simp [hp, show p < 32 * width by omega]
  · simp [hp]

/-- The invariant of the inner loop of row `j` after `i` passes, from the accumulator `a`: the
limbs from `i + j` on are `a`'s, and the limbs below with the carry above them hold `a` plus
`pn[j] * 2 ^ (32 * j)` times the low `i` limbs of `b`. -/
def MulRowInv (x y a : BaseUint width) (j i : ℕ) (st : BaseUint width × UInt64) : Prop :=
  (∀ l, i + j ≤ l → st.1.limb l = a.limb l) ∧
    st.1.valueBelow (i + j) + 2 ^ (32 * (i + j)) * st.2.toNat =
      a.valueBelow (i + j) + 2 ^ (32 * j) * ((x.limb j).toNat * y.valueBelow i) ∧
    st.2.toNat < 2 ^ 32

/-- One pass of the inner loop: `carry + a.pn[i + j] + pn[j] * b.pn[i]` fits in 64 bits, and
its two words extend the row by one limb. -/
theorem mulRowInv_mulRowStep {x y a : BaseUint width} {j i : ℕ} {st : BaseUint width × UInt64}
    (h : MulRowInv x y a j i st) (hij : i + j < width) :
    MulRowInv x y a j (i + 1) (mulRowStep x y j st i) := by
  obtain ⟨hrest, hval, hcarry⟩ := h
  have hl := (st.1.limb (i + j)).toNat_lt
  have hx := (x.limb j).toNat_lt
  have hy := (y.limb i).toNat_lt
  have hprod : (x.limb j).toNat * (y.limb i).toNat ≤ (2 ^ 32 - 1) * (2 ^ 32 - 1) :=
    Nat.mul_le_mul (by omega) (by omega)
  have hn : (st.2 + (st.1.limb (i + j)).toUInt64 +
      (x.limb j).toUInt64 * (y.limb i).toUInt64).toNat =
      st.2.toNat + (st.1.limb (i + j)).toNat + (x.limb j).toNat * (y.limb i).toNat := by
    rw [UInt64.toNat_add, UInt64.toNat_add, UInt64.toNat_mul, UInt32.toNat_toUInt64,
      UInt32.toNat_toUInt64, UInt32.toNat_toUInt64, Nat.mod_eq_of_lt (by omega),
      Nat.mod_eq_of_lt (by omega), Nat.mod_eq_of_lt (by omega)]
  have hlimb : st.1.limb (i + j) = a.limb (i + j) := hrest _ le_rfl
  have hidx : i + 1 + j = i + j + 1 := by omega
  refine ⟨fun l hl' => ?_, ?_, ?_⟩
  · simp only [mulRowStep]
    rw [limb_setLimb, if_neg (by omega), hrest l (by omega)]
  · simp only [mulRowStep]
    rw [hidx, valueBelow_storeWord _ hij, hn]
    calc st.1.valueBelow (i + j) + 2 ^ (32 * (i + j)) * (st.2.toNat +
          (st.1.limb (i + j)).toNat + (x.limb j).toNat * (y.limb i).toNat)
        = (st.1.valueBelow (i + j) + 2 ^ (32 * (i + j)) * st.2.toNat) +
            2 ^ (32 * (i + j)) * (st.1.limb (i + j)).toNat +
            2 ^ (32 * (i + j)) * ((x.limb j).toNat * (y.limb i).toNat) := by ring
      _ = a.valueBelow (i + j) + 2 ^ (32 * j) * ((x.limb j).toNat * y.valueBelow i) +
            2 ^ (32 * (i + j)) * (a.limb (i + j)).toNat +
            2 ^ (32 * (i + j)) * ((x.limb j).toNat * (y.limb i).toNat) := by rw [hval, hlimb]
      _ = a.valueBelow (i + j + 1) +
            2 ^ (32 * j) * ((x.limb j).toNat * y.valueBelow (i + 1)) := by
        rw [valueBelow, valueBelow]
        ring
  · simp only [mulRowStep]
    rw [toNat_highWord, hn, Nat.div_lt_iff_lt_mul (by positivity)]
    nlinarith

/-- Row `j` adds `pn[j] * 2 ^ (32 * j)` times `b` to the accumulator, modulo
`2 ^ (32 * WIDTH)`: the products it drops would land above the top limb. -/
theorem toNat_mulRow (x y a : BaseUint width) {j : ℕ} (hj : j < width) :
    (mulRow x y a j).toNat =
      (a.toNat + 2 ^ (32 * j) * (x.limb j).toNat * y.toNat) % 2 ^ (32 * width) := by
  set st := (List.range (width - j)).foldl (mulRowStep x y j) (a, 0) with hst
  have hrow : mulRow x y a j = st.1 := rfl
  obtain ⟨-, hval, -⟩ : MulRowInv x y a j (width - j) st :=
    foldl_range_invariant (MulRowInv x y a j) (n := width - j)
      (show MulRowInv x y a j 0 (a, 0) from ⟨fun l _ => rfl, by simp [valueBelow], by simp⟩)
      (fun i hi st h => mulRowInv_mulRowStep h (by omega))
  rw [show width - j + j = width by omega] at hval
  -- the row's limbs are its value below the top, the carry out of the top is dropped
  have hfold : st.1.toNat =
      (a.toNat + 2 ^ (32 * j) * ((x.limb j).toNat * y.valueBelow (width - j))) %
        2 ^ (32 * width) := by
    have hlt := st.1.toNat_lt
    unfold toNat at hlt ⊢
    rw [← hval, Nat.add_mul_mod_self_left, Nat.mod_eq_of_lt hlt]
  -- `2 ^ (32 * j)` times the low `WIDTH - j` limbs of `b` is `2 ^ (32 * j) * b` modulo
  -- `2 ^ (32 * WIDTH)`
  have hlow : 2 ^ (32 * j) * y.valueBelow (width - j) =
      2 ^ (32 * j) * y.toNat % 2 ^ (32 * width) := by
    rw [valueBelow_eq_mod _ (by omega), ← Nat.mul_mod_mul_left, ← pow_add]
    congr 2
    omega
  have hmod : (x.limb j).toNat * (2 ^ (32 * j) * y.toNat % 2 ^ (32 * width)) % 2 ^ (32 * width) =
      (x.limb j).toNat * (2 ^ (32 * j) * y.toNat) % 2 ^ (32 * width) := by
    rw [Nat.mul_mod, Nat.mod_mod, ← Nat.mul_mod]
  rw [hrow, hfold, show 2 ^ (32 * j) * ((x.limb j).toNat * y.valueBelow (width - j)) =
      (x.limb j).toNat * (2 ^ (32 * j) * y.valueBelow (width - j)) by ring, hlow,
    show 2 ^ (32 * j) * (x.limb j).toNat * y.toNat =
      (x.limb j).toNat * (2 ^ (32 * j) * y.toNat) by ring,
    Nat.add_mod, hmod, ← Nat.add_mod]

theorem valueBelow_zero (n : ℕ) : (zero : BaseUint width).valueBelow n = 0 := by
  induction n with
  | zero => rfl
  | succ n ih => simp [valueBelow, ih]

/-- `operator*=(const base_uint &b)` multiplies the values modulo `2 ^ (32 * WIDTH)`: after row
`j` the accumulator holds `b` times the low `j` limbs of `*this`. -/
theorem toNat_mulAssignBaseUint (x y : BaseUint width) :
    (x.mulAssignBaseUint y).toNat = x.toNat * y.toNat % 2 ^ (32 * width) :=
  foldl_range_invariant
    (fun j (acc : BaseUint width) => acc.toNat = x.valueBelow j * y.toNat % 2 ^ (32 * width))
    (show zero.toNat = x.valueBelow 0 * y.toNat % 2 ^ (32 * width) by
      simp [toNat, valueBelow_zero, valueBelow])
    (fun j hj acc h => by
      rw [toNat_mulRow x y acc hj, h, valueBelow, Nat.mod_add_mod]
      congr 1
      ring)

/-! ### Division -/

/-- Setting bit `s` of the quotient, `pn[s / 32] |= (1 << (s & 31))`, or-s `2 ^ s` into the
value. -/
theorem toNat_orLimb_bit (a : BaseUint width) {s : ℕ} (hs : s < 32 * width) :
    (a.orLimb (s / 32) ((1 : UInt32) <<< (s % 32).toUInt32)).toNat = a.toNat ||| 2 ^ s := by
  apply toNat_eq_of_testBit _
    (Nat.or_lt_two_pow a.toNat_lt (Nat.pow_lt_pow_right (by norm_num) hs))
  intro p hp
  rw [testBit_toNat, testBit_limb_orLimb, testBit_uint32_shiftLeft _ (Nat.mod_lt _ (by norm_num)),
    Nat.testBit_or, testBit_toNat, Nat.testBit_two_pow,
    show (1 : UInt32).toNat = 2 ^ 0 from rfl, Nat.testBit_two_pow]
  by_cases hps : p = s
  · subst hps
    simp [hp, show p / 32 < width by omega, Nat.mod_lt]
  · have hne : ¬(p / 32 = s / 32 ∧ s % 32 ≤ p % 32 ∧ 0 = p % 32 - s % 32) := by omega
    simp only [hp, decide_true, Bool.true_and, Ne.symm hps, decide_false, Bool.or_false]
    simp only [Bool.or_eq_left_iff_imp, Bool.and_eq_true, decide_eq_true_eq]
    intro h
    exact absurd ⟨h.1.1, h.2.2.1, h.2.2.2⟩ hne

/-- The invariant of the loop of `operator/=` dividing `x` by `d`, with the bits below `t` still
to do: the quotient so far is a multiple of `2 ^ t`, it accounts for `x` with the remainder,
and the remainder is below `d * 2 ^ t`. -/
def DivInv (x d t : ℕ) (num quot : BaseUint width) : Prop :=
  (∃ q, quot.toNat = q * 2 ^ t) ∧ x = quot.toNat * d + num.toNat ∧ num.toNat < d * 2 ^ t

/-- One pass at bit `s`, with `div` holding `d * 2 ^ s`: either `num` is at least `div`, the
pass subtracts it and sets bit `s` (clear so far), or it leaves both alone. -/
theorem divInv_divStep {x d s : ℕ} {num div quot : BaseUint width} (hs : s < 32 * width)
    (hdiv : div.toNat = d * 2 ^ s) (h : DivInv x d (s + 1) num quot) :
    DivInv x d s (divStep num div quot s).1 (divStep num div quot s).2 := by
  obtain ⟨⟨q, hq⟩, hx, hnum⟩ := h
  have hdouble : d * 2 ^ (s + 1) = 2 * (d * 2 ^ s) := by ring
  unfold divStep
  split_ifs with hge
  · -- `num >= div`: bit `s` of the quotient is clear, so or-ing it adds `2 ^ s`
    have hle : div.toNat ≤ num.toNat := by
      rw [compareTo_eq] at hge
      split_ifs at hge <;> omega
    have hbit : quot.toNat ||| 2 ^ s = quot.toNat + 2 ^ s := by
      rw [hq, show q * 2 ^ (s + 1) = 2 ^ (s + 1) * q by ring,
        Nat.two_pow_add_eq_or_of_lt (Nat.pow_lt_pow_right (by norm_num) (Nat.lt_succ_self s))]
    have hsum : (quot.toNat + 2 ^ s) * d = quot.toNat * d + d * 2 ^ s := by ring
    have hquot := toNat_orLimb_bit quot hs
    have hnum' := toNat_subAssign_of_le hle
    rw [hdiv] at hle hnum'
    refine ⟨⟨2 * q + 1, ?_⟩, ?_, ?_⟩
    · rw [hquot, hbit, hq]
      ring
    · rw [hquot, hbit, hnum']
      omega
    · rw [hnum']
      omega
  · -- `num < div`: the quotient keeps bit `s` clear
    have hlt : num.toNat < div.toNat := by
      rw [compareTo_eq] at hge
      split_ifs at hge <;> omega
    dsimp only
    exact ⟨⟨2 * q, by rw [hq]; ring⟩, hx, by omega⟩

/-- The loop from bit `s` down to bit `0`, with `div` holding `d * 2 ^ s` and `div >>= 1` after
each pass, ends with the quotient and the remainder of `x` by `d`. -/
theorem divLoop_spec {x d : ℕ} (s : ℕ) {num div quot : BaseUint width} (hs : s < 32 * width)
    (hdiv : div.toNat = d * 2 ^ s) (h : DivInv x d (s + 1) num quot) :
    DivInv x d 0 (divLoop num div quot s).1 (divLoop num div quot s).2 := by
  induction s generalizing num div quot with
  | zero => exact divInv_divStep hs hdiv h
  | succ s ih =>
    -- the pass at bit `s + 1`, then the loop from bit `s` with `div` halved
    have hhalf : (div.shiftRightAssign 1).toNat = d * 2 ^ s := by
      rw [toNat_shiftRightAssign, hdiv, pow_succ, ← Nat.mul_assoc, pow_one,
        Nat.mul_div_cancel _ (by norm_num)]
    exact ih (by omega) hhalf (divInv_divStep hs hdiv h)

theorem toNat_zero : (zero : BaseUint width).toNat = 0 := valueBelow_zero width

/-- `bits()` of a value below `2 ^ (32 * WIDTH)` is at most `32 * WIDTH`. -/
theorem bits_le (a : BaseUint width) : a.bits ≤ 32 * width := by
  rw [bits_eq_size]
  exact Nat.size_le.mpr a.toNat_lt

/-- A nonzero value is at least `2 ^ (bits() - 1)`. -/
theorem two_pow_bits_sub_one_le {a : BaseUint width} (ha : 0 < a.toNat) :
    2 ^ (a.bits - 1) ≤ a.toNat := by
  have hsize : 0 < a.toNat.size := Nat.pos_of_ne_zero (Nat.size_eq_zero.not.mpr (by omega))
  rw [bits_eq_size]
  exact Nat.lt_size.mp (by omega)

theorem divAssign_of_toNat_eq_zero (a : BaseUint width) {b : BaseUint width}
    (hb : b.toNat = 0) : a.divAssign b = .error "Division by zero" := by
  have hbits : b.bits = 0 := by rw [bits_eq_size, hb, Nat.size_zero]
  unfold divAssign
  rw [if_pos hbits]
  rfl

/-- For a nonzero divisor `operator/=` returns the floor quotient. -/
theorem divAssign_eq_ok (a : BaseUint width) {b : BaseUint width} (hb : 0 < b.toNat) :
    ∃ q, a.divAssign b = .ok q ∧ q.toNat = a.toNat / b.toNat := by
  have hbits : b.bits ≠ 0 := by
    rw [bits_eq_size]
    exact Nat.size_eq_zero.not.mpr (by omega)
  have hd := two_pow_bits_sub_one_le hb
  have hx : a.toNat < 2 ^ a.bits := by
    rw [bits_eq_size]
    exact Nat.lt_size_self _
  unfold divAssign
  dsimp only
  rw [if_neg hbits]
  split_ifs with hgt
  · -- the divisor has more bits than `*this`: the quotient is `0`
    refine ⟨zero, rfl, ?_⟩
    have hpow : 2 ^ a.bits ≤ 2 ^ (b.bits - 1) := Nat.pow_le_pow_right (by norm_num) (by omega)
    rw [toNat_zero, eq_comm, Nat.div_eq_zero_iff]
    omega
  · refine ⟨_, rfl, ?_⟩
    -- `div <<= shift` puts the top bit of `b` at the top bit of `*this`, without overflow
    have hexp : b.bits - 1 + (a.bits - b.bits + 1) = a.bits := by omega
    have hshift : (b.shiftLeftAssign (a.bits - b.bits)).toNat = b.toNat * 2 ^ (a.bits - b.bits) := by
      have hb' : b.toNat < 2 ^ b.bits := by
        rw [bits_eq_size]
        exact Nat.lt_size_self _
      have hfit : b.toNat * 2 ^ (a.bits - b.bits) < 2 ^ (32 * width) :=
        calc b.toNat * 2 ^ (a.bits - b.bits) < 2 ^ b.bits * 2 ^ (a.bits - b.bits) :=
              Nat.mul_lt_mul_of_pos_right hb' (by positivity)
          _ = 2 ^ a.bits := by rw [← pow_add]; congr 1; omega
          _ ≤ 2 ^ (32 * width) := Nat.pow_le_pow_right (by norm_num) a.bits_le
      rw [toNat_shiftLeftAssign, Nat.mod_eq_of_lt hfit]
    -- at the start `*this` is below `2 ^ bits() ≤ b * 2 ^ (shift + 1)`
    have hinit : DivInv a.toNat b.toNat (a.bits - b.bits + 1) a zero := by
      refine ⟨⟨0, by rw [toNat_zero, Nat.zero_mul]⟩, by rw [toNat_zero, Nat.zero_mul,
        Nat.zero_add], ?_⟩
      calc a.toNat < 2 ^ a.bits := hx
        _ = 2 ^ (b.bits - 1) * 2 ^ (a.bits - b.bits + 1) := by rw [← pow_add, hexp]
        _ ≤ b.toNat * 2 ^ (a.bits - b.bits + 1) := Nat.mul_le_mul_right _ hd
    obtain ⟨-, hval, hrem⟩ := divLoop_spec (a.bits - b.bits)
      (by have := a.bits_le; omega) hshift hinit
    rw [pow_zero, Nat.mul_one] at hrem
    rw [hval, Nat.add_comm, Nat.add_mul_div_right _ _ hb, Nat.div_eq_of_lt hrem, Nat.zero_add]

end BaseUint

/-! ### `arith_uint256` -/

theorem arithUint256_arith (a b : ArithUint256) (s : ℕ) (k : UInt32) :
    (a.shiftLeftAssign s).toNat = a.toNat * 2 ^ s % 2 ^ 256 ∧
      (a.shiftRightAssign s).toNat = a.toNat / 2 ^ s ∧
      (a.mulAssignBaseUint b).toNat = a.toNat * b.toNat % 2 ^ 256 ∧
      (a.mulAssign k).toNat = a.toNat * k.toNat % 2 ^ 256 ∧
      (a.addAssign b).toNat = (a.toNat + b.toNat) % 2 ^ 256 ∧
      a.neg.toNat = (2 ^ 256 - a.toNat) % 2 ^ 256 ∧
      a.bits = Nat.size a.toNat ∧
      (a.divAssign b = .error "Division by zero" ↔ b.toNat = 0) ∧
      (0 < b.toNat → ∃ q, a.divAssign b = .ok q ∧ q.toNat = a.toNat / b.toNat) ∧
      (0 < b.toNat →
        ∃ t, b.neg.divAssign b = .ok t ∧ t.toNat = (2 ^ 256 - b.toNat) / b.toNat) := by
  refine ⟨BaseUint.toNat_shiftLeftAssign a s, BaseUint.toNat_shiftRightAssign a s,
    BaseUint.toNat_mulAssignBaseUint a b, BaseUint.toNat_mulAssign a k,
    BaseUint.toNat_addAssign a b, BaseUint.toNat_neg a, BaseUint.bits_eq_size a, ?_,
    fun hb => BaseUint.divAssign_eq_ok a hb, fun hb => ?_⟩
  · constructor
    · -- a nonzero divisor gives a quotient, not an error
      intro h
      by_contra hb
      obtain ⟨q, hq, -⟩ := BaseUint.divAssign_eq_ok a (Nat.pos_of_ne_zero hb)
      rw [hq] at h
      cases h
    · exact BaseUint.divAssign_of_toNat_eq_zero a
  · -- `ComputeTarget`'s `(-work) / work`: the negation of a nonzero work is `2 ^ 256 - work`
    have hlt : b.toNat < 2 ^ 256 := b.toNat_lt
    obtain ⟨t, ht, hval⟩ := BaseUint.divAssign_eq_ok b.neg hb
    refine ⟨t, ht, ?_⟩
    rw [hval, BaseUint.toNat_neg, Nat.mod_eq_of_lt (show 2 ^ (32 * 8) - b.toNat < 2 ^ (32 * 8) by
      norm_num at hlt ⊢
      omega)]

theorem arithUint256_arith_divide :
    (∃ q, (BaseUint.ofUInt64 100 : ArithUint256).divAssign (BaseUint.ofUInt64 7) = .ok q ∧
        q.toNat = (BaseUint.ofUInt64 100 : ArithUint256).toNat /
          (BaseUint.ofUInt64 7 : ArithUint256).toNat) ∧
      ∃ t, (BaseUint.ofUInt64 7 : ArithUint256).neg.divAssign (BaseUint.ofUInt64 7) = .ok t ∧
        t.toNat = (2 ^ 256 - (BaseUint.ofUInt64 7 : ArithUint256).toNat) /
          (BaseUint.ofUInt64 7 : ArithUint256).toNat := by
  have h7 : 0 < (BaseUint.ofUInt64 7 : ArithUint256).toNat := by
    rw [BaseUint.toNat_ofUInt64 (by norm_num)]
    norm_num
  have harith := arithUint256_arith (BaseUint.ofUInt64 100) (BaseUint.ofUInt64 7) 0 0
  exact ⟨harith.2.2.2.2.2.2.2.2.1 h7, harith.2.2.2.2.2.2.2.2.2 h7⟩

end BitcoinCash
