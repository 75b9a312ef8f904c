import BitcoinCash.Arith.BaseUint

/-!
# The compact difficulty encoding

`arith_uint256::SetCompact` and `arith_uint256::GetCompact` (`arith_uint256.cpp`) convert a
256-bit target to and from the 32-bit "compact" form of block headers: an exponent byte `nSize`,
the number of bytes of the number, and a 23-bit mantissa, its top bytes, with bit `0x00800000`
a sign.

`GetCompact` takes the three top bytes; when the mantissa would have its sign bit set it drops a
byte and bumps the exponent. Its two `assert`s are modelled by an `Option` result, `none`
standing for an assertion failure; `getCompact_eq` shows they never fire.
-/

namespace BitcoinCash

/-- `arith_uint256`: eight 32-bit limbs. -/
abbrev ArithUint256 := BaseUint 8

/-- `SetCompact(nCompact, pfNegative, pfOverflow)`: the target, and the flags it reports. -/
def setCompact (nCompact : UInt32) : ArithUint256 × Bool × Bool :=
  let nSize := (nCompact >>> 24).toNat
  let nWord := nCompact &&& 0x007fffff
  -- the small-size path shifts the mantissa right; otherwise the target is shifted left
  let nWord := if nSize ≤ 3 then nWord >>> (8 * (3 - nSize)).toUInt32 else nWord
  let target : ArithUint256 :=
    if nSize ≤ 3 then BaseUint.ofUInt64 nWord.toNat
    else (BaseUint.ofUInt64 nWord.toNat).shiftLeftAssign (8 * (nSize - 3))
  let fNegative := nWord != 0 && (nCompact &&& 0x00800000) != 0
  let fOverflow := nWord != 0 &&
    (decide (nSize > 34) || (decide (nWord > 0xff) && decide (nSize > 33)) ||
      (decide (nWord > 0xffff) && decide (nSize > 32)))
  (target, fNegative, fOverflow)

/-- The first stage of `GetCompact`: the three bytes below byte `nSize`, shifted up on the
small-size path. -/
def getCompactMantissa (a : ArithUint256) (nSize : ℕ) : UInt32 :=
  if nSize ≤ 3 then UInt32.ofNat (a.getLow64 <<< (8 * (3 - nSize)) % 2 ^ 64)
  else UInt32.ofNat (a.shiftRightAssign (8 * (nSize - 3))).getLow64

/-- The sign-bit adjustment of `GetCompact`: a mantissa with `0x00800000` set loses its low byte
to a larger exponent. -/
def normalizeCompact (nCompact : UInt32) (nSize : ℕ) : UInt32 × ℕ :=
  if nCompact &&& 0x00800000 ≠ 0 then (nCompact >>> 8, nSize + 1) else (nCompact, nSize)

/-- The last stage of `GetCompact`: its two `assert`s, then the exponent and the sign are or-ed
in. -/
def packCompact (nCompact : UInt32) (nSize : ℕ) (fNegative : Bool) : Option UInt32 :=
  if (nCompact &&& ~~~0x007fffff) = 0 ∧ nSize < 256 then
    let nCompact := nCompact ||| (nSize <<< 24).toUInt32
    some (nCompact ||| if fNegative ∧ (nCompact &&& 0x007fffff) ≠ 0 then 0x00800000 else 0)
  else none

/-- `GetCompact(fNegative)`, or `none` where one of its `assert`s would fail. -/
def getCompact (a : ArithUint256) (fNegative : Bool) : Option UInt32 :=
  let nSize := (a.bits + 7) / 8
  let (nCompact, nSize) := normalizeCompact (getCompactMantissa a nSize) nSize
  packCompact nCompact nSize fNegative

/-! ### The compact form in arithmetic -/

/-- The exponent `GetCompact` chooses: one more than the number of whole bytes below the top
bit, so that the top byte of the mantissa has its top bit clear; `0` for zero. -/
def compactExponent (x : ℕ) : ℕ := if x = 0 then 0 else Nat.size x / 8 + 1

/-- The mantissa `GetCompact` chooses: the number scaled to `compactExponent x` bytes, of which
the top three are kept. -/
def compactMantissa (x : ℕ) : ℕ := x * 2 ^ 24 / 2 ^ (8 * compactExponent x)

/-- What a compact form keeps of `x`: `x` with the bytes below its mantissa cleared. -/
def compactRound (x : ℕ) : ℕ :=
  x / 256 ^ (compactExponent x - 3) * 256 ^ (compactExponent x - 3)

section Arithmetic

variable {x x' : ℕ}

theorem compactExponent_of_pos (hx : 0 < x) : compactExponent x = Nat.size x / 8 + 1 :=
  if_neg (by omega)

theorem two_pow_pred_size_le (hx : 0 < x) : 2 ^ (Nat.size x - 1) ≤ x :=
  Nat.lt_size.mp (by have := Nat.size_pos.mpr hx; omega)

theorem compactMantissa_lt (x : ℕ) : compactMantissa x < 2 ^ 23 := by
  rcases Nat.eq_zero_or_pos x with rfl | hx
  · simp [compactMantissa]
  rw [compactMantissa, compactExponent_of_pos hx, Nat.div_lt_iff_lt_mul (by positivity)]
  calc x * 2 ^ 24 < 2 ^ Nat.size x * 2 ^ 24 :=
        Nat.mul_lt_mul_of_pos_right (Nat.lt_size_self x) (by positivity)
    _ ≤ 2 ^ 23 * 2 ^ (8 * (Nat.size x / 8 + 1)) := by
        rw [← pow_add, ← pow_add]
        exact Nat.pow_le_pow_right (by norm_num) (by omega)

theorem compactExponent_le (hx : x < 2 ^ 256) : compactExponent x ≤ 33 := by
  unfold compactExponent
  have := Nat.size_le.mpr hx
  split_ifs <;> omega

/-- A 256-bit number needs the 33rd exponent only with a mantissa of two bytes. -/
theorem compactMantissa_le_of_exponent (hx : x < 2 ^ 256) (h : 32 < compactExponent x) :
    compactMantissa x ≤ 0xffff := by
  have he : compactExponent x = 33 := le_antisymm (compactExponent_le hx) h
  have hlt : x * 2 ^ 24 / 2 ^ (8 * 33) < 2 ^ 16 := by
    rw [Nat.div_lt_iff_lt_mul (by positivity), ← pow_add]
    calc x * 2 ^ 24 < 2 ^ 256 * 2 ^ 24 := Nat.mul_lt_mul_of_pos_right hx (by positivity)
      _ = 2 ^ (16 + 8 * 33) := by rw [← pow_add]
  rw [compactMantissa, he]
  have h16 : (2 : ℕ) ^ 16 = 0xffff + 1 := by norm_num
  omega

/-- Scaling by `2 ^ 24 / 2 ^ (8 * s)` is a multiplication for `s ≤ 3`. -/
theorem mul_two_pow_24_div_of_le (x : ℕ) {s : ℕ} (h : s ≤ 3) :
    x * 2 ^ 24 / 2 ^ (8 * s) = x * 256 ^ (3 - s) := by
  rw [show (256 : ℕ) = 2 ^ 8 by norm_num, ← pow_mul, show 24 = 8 * s + 8 * (3 - s) by omega,
    pow_add, ← Nat.mul_assoc, Nat.mul_comm x, Nat.mul_assoc,
    Nat.mul_div_cancel_left _ (by positivity)]

/-- Scaling by `2 ^ 24 / 2 ^ (8 * s)` is a floor division for `3 ≤ s`. -/
theorem mul_two_pow_24_div_of_ge (x : ℕ) {s : ℕ} (h : 3 ≤ s) :
    x * 2 ^ 24 / 2 ^ (8 * s) = x / 256 ^ (s - 3) := by
  rw [show (256 : ℕ) = 2 ^ 8 by norm_num, ← pow_mul, show 8 * s = 8 * (s - 3) + 24 by omega,
    pow_add, Nat.mul_div_mul_right _ _ (by positivity)]

theorem mul_two_pow_24_div_lt {s : ℕ} (h : x < 2 ^ (8 * s)) :
    x * 2 ^ 24 / 2 ^ (8 * s) < 2 ^ 24 := by
  rw [Nat.div_lt_iff_lt_mul (by positivity), Nat.mul_comm (2 ^ 24)]
  exact Nat.mul_lt_mul_of_pos_right h (by positivity)

theorem compactMantissa_eq_mul (h : compactExponent x ≤ 3) :
    compactMantissa x = x * 256 ^ (3 - compactExponent x) :=
  mul_two_pow_24_div_of_le x h

theorem compactMantissa_eq_div (h : 3 ≤ compactExponent x) :
    compactMantissa x = x / 256 ^ (compactExponent x - 3) :=
  mul_two_pow_24_div_of_ge x h

/-- The exponent and mantissa of `x` from the byte length `n` of `x`: the top three bytes below
byte `n`, with one byte dropped to a larger exponent when their top bit is set. -/
theorem compact_eq_normalize (x : ℕ) :
    (compactMantissa x, compactExponent x) =
      if 2 ^ 23 ≤ x * 2 ^ 24 / 2 ^ (8 * ((Nat.size x + 7) / 8))
      then (x * 2 ^ 24 / 2 ^ (8 * ((Nat.size x + 7) / 8)) / 256, (Nat.size x + 7) / 8 + 1)
      else (x * 2 ^ 24 / 2 ^ (8 * ((Nat.size x + 7) / 8)), (Nat.size x + 7) / 8) := by
  rcases Nat.eq_zero_or_pos x with rfl | hx
  · simp [compactMantissa, compactExponent]
  set n := (Nat.size x + 7) / 8 with hn
  have hB := Nat.size_pos.mpr hx
  -- the top bit of the three bytes is set exactly when `x` fills its `n` bytes
  have hbump : 2 ^ 23 ≤ x * 2 ^ 24 / 2 ^ (8 * n) ↔ 8 * n ≤ Nat.size x := by
    have hpow : 2 ^ 23 * 2 ^ (8 * n) = 2 ^ (8 * n - 1) * 2 ^ 24 := by
      rw [← pow_add, ← pow_add]
      congr 1
      omega
    rw [Nat.le_div_iff_mul_le (by positivity), hpow,
      Nat.mul_le_mul_right_iff (by positivity), ← Nat.lt_size]
    omega
  by_cases h : 8 * n ≤ Nat.size x
  · have he : compactExponent x = n + 1 := by rw [compactExponent_of_pos hx]; omega
    rw [if_pos (hbump.mpr h), compactMantissa, he, Nat.div_div_eq_div_mul, Nat.mul_add,
      pow_add]
    rfl
  · have he : compactExponent x = n := by rw [compactExponent_of_pos hx]; omega
    rw [if_neg (mt hbump.mp h), compactMantissa, he]

theorem compactRound_of_le (h : compactExponent x ≤ 3) : compactRound x = x := by
  simp [compactRound, show compactExponent x - 3 = 0 by omega]

theorem compactRound_le (x : ℕ) : compactRound x ≤ x := Nat.div_mul_le_self _ _

/-- Rounding keeps the top bit: the cleared bytes all lie below it. -/
theorem two_pow_pred_size_le_compactRound (hx : 0 < x) :
    2 ^ (Nat.size x - 1) ≤ compactRound x := by
  have hk : 8 * (compactExponent x - 3) ≤ Nat.size x - 1 := by
    rw [compactExponent_of_pos hx]
    have := Nat.size_pos.mpr hx
    omega
  have hpow : 2 ^ (Nat.size x - 1) =
      2 ^ (Nat.size x - 1 - 8 * (compactExponent x - 3)) * 256 ^ (compactExponent x - 3) := by
    rw [show (256 : ℕ) = 2 ^ 8 by norm_num, ← pow_mul, ← pow_add]
    congr 1
    omega
  rw [hpow, compactRound]
  apply Nat.mul_le_mul_right
  rw [Nat.le_div_iff_mul_le (by positivity), ← hpow]
  exact two_pow_pred_size_le hx

theorem size_compactRound (x : ℕ) : Nat.size (compactRound x) = Nat.size x := by
  rcases Nat.eq_zero_or_pos x with rfl | hx
  · simp [compactRound]
  apply le_antisymm (Nat.size_le_size (compactRound_le x))
  have := Nat.lt_size.mpr (two_pow_pred_size_le_compactRound hx)
  have := Nat.size_pos.mpr hx
  omega

theorem compactRound_pos (hx : 0 < x) : 0 < compactRound x :=
  Nat.size_pos.mp (by rw [size_compactRound]; exact Nat.size_pos.mpr hx)

theorem compactExponent_compactRound (x : ℕ) :
    compactExponent (compactRound x) = compactExponent x := by
  rcases Nat.eq_zero_or_pos x with rfl | hx
  · simp [compactRound]
  rw [compactExponent_of_pos hx, compactExponent_of_pos (compactRound_pos hx),
    size_compactRound]

theorem compactMantissa_compactRound (x : ℕ) :
    compactMantissa (compactRound x) = compactMantissa x := by
  rcases le_total (compactExponent x) 3 with h | h
  · rw [compactRound_of_le h]
  have h' : 3 ≤ compactExponent (compactRound x) := by rwa [compactExponent_compactRound]
  rw [compactMantissa_eq_div h, compactMantissa_eq_div h', compactExponent_compactRound,
    compactRound, Nat.mul_div_cancel _ (by positivity)]

theorem compactExponent_mono (h : x ≤ x') : compactExponent x ≤ compactExponent x' := by
  unfold compactExponent
  have := Nat.size_le_size h
  split_ifs <;> omega

/-- Rounding to the compact form is monotone: within one exponent it is a floor, and a larger
exponent only comes with a larger top bit. -/
theorem compactRound_mono (h : x ≤ x') : compactRound x ≤ compactRound x' := by
  rcases (compactExponent_mono h).eq_or_lt with he | he
  · unfold compactRound
    rw [he]
    exact Nat.mul_le_mul_right _ (Nat.div_le_div_right h)
  rcases Nat.eq_zero_or_pos x with rfl | hx
  · simp [compactRound]
  have hx' : 0 < x' := by omega
  have hsize : Nat.size x ≤ Nat.size x' - 1 := by
    rw [compactExponent_of_pos hx, compactExponent_of_pos hx'] at he
    omega
  apply le_of_lt
  calc compactRound x ≤ x := compactRound_le x
    _ < 2 ^ Nat.size x := Nat.lt_size_self x
    _ ≤ 2 ^ (Nat.size x' - 1) := Nat.pow_le_pow_right (by norm_num) hsize
    _ ≤ compactRound x' := two_pow_pred_size_le_compactRound hx'

end Arithmetic

/-! ### `GetCompact`, stage by stage -/

private theorem and_two_pow_mul_eq_zero {x k : ℕ} (hx : x < 2 ^ k) (y : ℕ) :
    x &&& 2 ^ k * y = 0 := by
  apply Nat.eq_of_testBit_eq
  intro i
  rw [Nat.testBit_and, Nat.mul_comm, Nat.testBit_mul_two_pow, Nat.zero_testBit]
  by_cases hi : k ≤ i
  · rw [Nat.testBit_lt_two_pow (lt_of_lt_of_le hx (Nat.pow_le_pow_right (by norm_num) hi))]
    rfl
  · simp [hi]

namespace BaseUint

theorem toNat_getCompactMantissa (a : ArithUint256) {nSize : ℕ}
    (h : Nat.size a.toNat ≤ 8 * nSize) :
    (getCompactMantissa a nSize).toNat = a.toNat * 2 ^ 24 / 2 ^ (8 * nSize) := by
  have hlt := mul_two_pow_24_div_lt (Nat.size_le.mp h)
  have h24 : (2 : ℕ) ^ 24 < 2 ^ 32 := by norm_num
  unfold getCompactMantissa
  split_ifs with hn
  · rw [mul_two_pow_24_div_of_le _ hn] at hlt ⊢
    have hx : a.toNat < 2 ^ 64 := lt_of_le_of_lt (Nat.le_mul_of_pos_right _ (by positivity))
      (lt_trans hlt (by norm_num))
    rw [getLow64_eq (by norm_num), UInt32.toNat_ofNat', Nat.shiftLeft_eq, pow_mul,
      Nat.mod_eq_of_lt hx, show (2 : ℕ) ^ 8 = 256 by norm_num,
      Nat.mod_eq_of_lt (lt_trans hlt (by norm_num)), Nat.mod_eq_of_lt (lt_trans hlt h24)]
  · rw [mul_two_pow_24_div_of_ge _ (by omega)] at hlt ⊢
    rw [getLow64_eq (by norm_num), toNat_shiftRightAssign, UInt32.toNat_ofNat', pow_mul,
      show (2 : ℕ) ^ 8 = 256 by norm_num, Nat.mod_eq_of_lt (lt_trans hlt (by norm_num)),
      Nat.mod_eq_of_lt (lt_trans hlt h24)]

end BaseUint

/-- The sign bit of a compact word is bit `23`: set exactly when its low three bytes are at
least `2 ^ 23`. -/
theorem and_800000_ne_zero_iff (c : UInt32) :
    c &&& 0x00800000 ≠ 0 ↔ 2 ^ 23 ≤ c.toNat % 2 ^ 24 := by
  rw [Ne, ← UInt32.toNat_inj, UInt32.toNat_and, show (0x00800000 : UInt32).toNat = 2 ^ 23 from rfl,
    Nat.and_two_pow, UInt32.toNat_zero,
    show c.toNat.testBit 23 = (c.toNat % 2 ^ 24).testBit 23 by rw [Nat.testBit_mod_two_pow]; rfl]
  have hlt : c.toNat % 2 ^ 24 < 2 ^ (23 + 1) := Nat.mod_lt _ (by positivity)
  constructor
  · intro h
    by_contra hge
    rw [Nat.testBit_lt_two_pow (not_le.mp hge)] at h
    simp at h
  · intro h
    rw [Nat.testBit_of_two_pow_le_and_two_pow_add_one_gt h hlt]
    simp

theorem normalizeCompact_eq {c : UInt32} (n : ℕ) (hc : c.toNat < 2 ^ 24) :
    ((normalizeCompact c n).1.toNat, (normalizeCompact c n).2) =
      if 2 ^ 23 ≤ c.toNat then (c.toNat / 256, n + 1) else (c.toNat, n) := by
  have hbit : c &&& 0x00800000 ≠ 0 ↔ 2 ^ 23 ≤ c.toNat := by
    rw [and_800000_ne_zero_iff, Nat.mod_eq_of_lt hc]
  unfold normalizeCompact
  by_cases h : 2 ^ 23 ≤ c.toNat
  · rw [if_pos (hbit.mpr h), if_pos h, UInt32.toNat_shiftRight,
      show (8 : UInt32).toNat % 32 = 8 from rfl, Nat.shiftRight_eq_div_pow]
  · rw [if_neg (mt hbit.mp h), if_neg h]

/-- The asserts of `GetCompact` hold for a 23-bit mantissa and an exponent below `256`, and the
result packs the mantissa, the sign (only for a nonzero mantissa) and the exponent. -/
theorem packCompact_eq {c : UInt32} {n : ℕ} (fNegative : Bool) (hc : c.toNat < 2 ^ 23)
    (hn : n < 256) :
    packCompact c n fNegative = some (UInt32.ofNat
      (c.toNat + (if fNegative ∧ c.toNat ≠ 0 then 2 ^ 23 else 0) + n * 2 ^ 24)) := by
  have hmask : c &&& ~~~0x007fffff = 0 := by
    rw [← UInt32.toNat_inj, UInt32.toNat_and,
      show (~~~0x007fffff : UInt32).toNat = 2 ^ 23 * 511 from rfl]
    exact and_two_pow_mul_eq_zero hc 511
  have hexp : ((n <<< 24).toUInt32).toNat = 2 ^ 24 * n := by
    rw [Nat.toUInt32, UInt32.toNat_ofNat', Nat.shiftLeft_eq, Nat.mod_eq_of_lt (by omega),
      Nat.mul_comm]
  have hor : (c ||| (n <<< 24).toUInt32).toNat = 2 ^ 24 * n + c.toNat := by
    rw [UInt32.toNat_or, hexp, Nat.or_comm,
      Nat.two_pow_add_eq_or_of_lt (lt_trans hc (by norm_num))]
  have hlow : (c ||| (n <<< 24).toUInt32) &&& 0x007fffff ≠ 0 ↔ c.toNat ≠ 0 := by
    rw [Ne, ← UInt32.toNat_inj, UInt32.toNat_and, hor, UInt32.toNat_zero,
      show (0x007fffff : UInt32).toNat = 2 ^ 23 - 1 from rfl, Nat.and_two_pow_sub_one_eq_mod]
    omega
  unfold packCompact
  rw [if_pos ⟨hmask, hn⟩]
  apply congrArg some
  apply UInt32.toNat_inj.mp
  rw [UInt32.toNat_or, hor, UInt32.toNat_ofNat']
  by_cases hf : fNegative = true ∧ c.toNat ≠ 0
  · rw [if_pos ⟨hf.1, hlow.mpr hf.2⟩, if_pos hf, show (0x00800000 : UInt32).toNat = 2 ^ 23 from rfl,
      Nat.two_pow_add_eq_or_of_lt (lt_trans hc (by norm_num)), Nat.or_assoc,
      Nat.or_two_pow_eq_add_of_lt hc, ← Nat.two_pow_add_eq_or_of_lt (by omega),
      Nat.mod_eq_of_lt (by omega)]
    omega
  · rw [if_neg (fun h => hf ⟨h.1, hlow.mp h.2⟩), if_neg hf]
    rw [UInt32.toNat_zero, Nat.or_zero, Nat.mod_eq_of_lt (by omega)]
    omega

/-- `GetCompact` packs the mantissa and the exponent of the compact form, and never fails its
asserts. -/
theorem getCompact_eq (a : ArithUint256) (fNegative : Bool) :
    getCompact a fNegative = some (UInt32.ofNat (compactMantissa a.toNat +
      (if fNegative ∧ compactMantissa a.toNat ≠ 0 then 2 ^ 23 else 0) +
      compactExponent a.toNat * 2 ^ 24)) := by
  have hsize : Nat.size a.toNat ≤ 8 * ((Nat.size a.toNat + 7) / 8) := by omega
  have hm0 := BaseUint.toNat_getCompactMantissa a hsize
  have hnorm := normalizeCompact_eq ((Nat.size a.toNat + 7) / 8)
    (hm0 ▸ mul_two_pow_24_div_lt (Nat.size_le.mp hsize))
  rw [hm0, ← compact_eq_normalize, Prod.mk.injEq] at hnorm
  obtain ⟨hcm, hne⟩ := hnorm
  have hE := compactExponent_le a.toNat_lt
  unfold getCompact
  rw [BaseUint.bits_eq_size]
  dsimp only
  rcases hc : normalizeCompact (getCompactMantissa a ((Nat.size a.toNat + 7) / 8))
    ((Nat.size a.toNat + 7) / 8) with ⟨c, n⟩
  rw [hc] at hcm hne
  dsimp only at hcm hne
  rw [packCompact_eq fNegative (by rw [hcm]; exact compactMantissa_lt _) (by omega), hcm, hne]

/-! ### `SetCompact` -/

private theorem uint32_bne_zero (x : UInt32) : (x != 0) = (x.toNat != 0) := by
  rw [Bool.eq_iff_iff, bne_iff_ne, bne_iff_ne, Ne, Ne, ← UInt32.toNat_inj, UInt32.toNat_zero]

private theorem uint32_decide_lt (x y : UInt32) : decide (x < y) = decide (x.toNat < y.toNat) := by
  simp [UInt32.lt_iff_toNat_lt]

/-- The exponent byte of a compact word. -/
theorem toNat_shiftRight_24 {c : UInt32} {l e : ℕ} (hl : l < 2 ^ 24)
    (hc : c.toNat = l + e * 2 ^ 24) : (c >>> 24).toNat = e := by
  rw [UInt32.toNat_shiftRight, show (24 : UInt32).toNat % 32 = 24 from rfl,
    Nat.shiftRight_eq_div_pow, hc]
  omega

/-- `SetCompact` on a word with exponent `e`, a sign and a 23-bit mantissa `m`: the word it keeps
is `m`, shifted right on the small-size path, and the target is that word at byte `e - 3`. -/
theorem setCompact_eq {c : UInt32} {m e : ℕ} (neg : Bool) (hm : m < 2 ^ 23) (he : e < 256)
    (hc : c.toNat = m + (if neg then 2 ^ 23 else 0) + e * 2 ^ 24) :
    let w := if e ≤ 3 then m / 256 ^ (3 - e) else m
    (setCompact c).1.toNat = w * 256 ^ (e - 3) % 2 ^ 256 ∧
    (setCompact c).2.1 = (w != 0 && neg) ∧
    (setCompact c).2.2 = (w != 0 && (decide (34 < e) || decide (0xff < w) && decide (33 < e) ||
      decide (0xffff < w) && decide (32 < e))) := by
  intro w
  have hs : (if neg then 2 ^ 23 else 0) ≤ 2 ^ 23 := by split <;> omega
  have hlow : c.toNat % 2 ^ 24 = m + (if neg then 2 ^ 23 else 0) := by
    rw [hc]
    omega
  have hsize : (c >>> 24).toNat = e :=
    toNat_shiftRight_24 (l := m + (if neg then 2 ^ 23 else 0)) (by omega) hc
  have hword : (c &&& 0x007fffff).toNat = m := by
    rw [UInt32.toNat_and, show (0x007fffff : UInt32).toNat = 2 ^ 23 - 1 from rfl,
      Nat.and_two_pow_sub_one_eq_mod, hc]
    split <;> omega
  have hsign : ((c &&& 0x00800000) != 0) = neg := by
    have hbit := and_800000_ne_zero_iff c
    rw [hlow] at hbit
    cases neg with
    | false =>
      have : c &&& 0x00800000 = 0 := not_not.mp (mt hbit.mp (by simp; omega))
      simp [this]
    | true =>
      have : c &&& 0x00800000 ≠ 0 := hbit.mpr (by simp)
      simpa using this
  -- the word `SetCompact` keeps, on either path
  have hw : (if e ≤ 3 then (c &&& 0x007fffff) >>> (8 * (3 - e)).toUInt32
      else c &&& 0x007fffff).toNat = w := by
    split_ifs with hle
    · rw [UInt32.toNat_shiftRight, hword, Nat.toUInt32, UInt32.toNat_ofNat',
        Nat.mod_eq_of_lt (by omega), Nat.mod_eq_of_lt (by omega), Nat.shiftRight_eq_div_pow,
        pow_mul, show (2 : ℕ) ^ 8 = 256 by norm_num]
      exact (if_pos hle).symm
    · exact hword.trans (if_neg hle).symm
  have hwlt : w < 2 ^ 23 := by
    simp only [w]
    split_ifs
    · exact lt_of_le_of_lt (Nat.div_le_self _ _) hm
    · exact hm
  simp only [setCompact, hsize]
  generalize (if e ≤ 3 then (c &&& 0x007fffff) >>> (8 * (3 - e)).toUInt32
    else c &&& 0x007fffff) = W at hw ⊢
  refine ⟨?_, ?_, ?_⟩
  · by_cases hle : e ≤ 3
    · rw [if_pos hle, BaseUint.toNat_ofUInt64 (by norm_num), hw, show e - 3 = 0 by omega,
        pow_zero, Nat.mul_one, Nat.mod_eq_of_lt (by omega), Nat.mod_eq_of_lt (by omega)]
    · rw [if_neg hle, BaseUint.toNat_shiftLeftAssign, BaseUint.toNat_ofUInt64 (by norm_num), hw,
        Nat.mod_eq_of_lt (show w < 2 ^ 64 by omega), pow_mul, show (2 : ℕ) ^ 8 = 256 by norm_num]
  · rw [hsign, uint32_bne_zero, hw]
  · rw [uint32_bne_zero, uint32_decide_lt, uint32_decide_lt, hw]
    rfl

/-! ### The round trip -/

/-- `SetCompact` of what `GetCompact` returns: `x` rounded to its compact form, with neither flag
set. -/
theorem setCompact_of_getCompact {x : ArithUint256} {c : UInt32}
    (h : getCompact x false = some c) :
    (setCompact c).1.toNat = compactRound x.toNat ∧ (setCompact c).2.1 = false ∧
      (setCompact c).2.2 = false ∧ (c >>> 24).toNat = compactExponent x.toNat := by
  rw [getCompact_eq] at h
  have hM := compactMantissa_lt x.toNat
  have hE := compactExponent_le x.toNat_lt
  have hc : c.toNat = compactMantissa x.toNat + (if false then 2 ^ 23 else 0) +
      compactExponent x.toNat * 2 ^ 24 := by
    rw [← Option.some.inj h, UInt32.toNat_ofNat', Nat.mod_eq_of_lt (by simp; omega)]
    simp
  obtain ⟨hval, hneg, hovf⟩ := setCompact_eq false hM (by omega) hc
  -- the word `SetCompact` keeps, moved to byte `e - 3`, is the rounded value
  have hw : (if compactExponent x.toNat ≤ 3
      then compactMantissa x.toNat / 256 ^ (3 - compactExponent x.toNat)
      else compactMantissa x.toNat) * 256 ^ (compactExponent x.toNat - 3) =
      compactRound x.toNat := by
    split_ifs with hle
    · rw [compactMantissa_eq_mul hle, Nat.mul_div_cancel _ (by positivity),
        compactRound_of_le hle, show compactExponent x.toNat - 3 = 0 by omega, pow_zero,
        Nat.mul_one]
    · rw [compactMantissa_eq_div (by omega)]
      rfl
  refine ⟨?_, ?_, ?_, toNat_shiftRight_24 (by simp; omega) hc⟩
  · rw [hval, hw, Nat.mod_eq_of_lt (lt_of_le_of_lt (compactRound_le _) x.toNat_lt)]
  · rw [hneg, Bool.and_false]
  · rw [hovf]
    by_cases h32 : 32 < compactExponent x.toNat
    · have hM' := compactMantissa_le_of_exponent x.toNat_lt h32
      simp [show ¬ compactExponent x.toNat ≤ 3 by omega]
      omega
    · simp [show ¬ 34 < compactExponent x.toNat by omega,
        show ¬ 33 < compactExponent x.toNat by omega, h32]

theorem compact_roundtrip :
    (∀ x : ArithUint256, ∃ c, getCompact x false = some c ∧
      (setCompact c).2.1 = false ∧ (setCompact c).2.2 = false ∧
      (setCompact c).1.toNat =
        x.toNat / 256 ^ ((c >>> 24).toNat - 3) * 256 ^ ((c >>> 24).toNat - 3) ∧
      (setCompact c).1.le x = true ∧ getCompact (setCompact c).1 false = some c) ∧
    (∀ x x' : ArithUint256, ∀ c c' : UInt32, x.le x' = true → getCompact x false = some c →
      getCompact x' false = some c' → (setCompact c).1.le (setCompact c').1 = true) := by
  refine ⟨fun x => ?_, fun x x' c c' hle hc hc' => ?_⟩
  · obtain ⟨c, hc⟩ : ∃ c, getCompact x false = some c := ⟨_, getCompact_eq x false⟩
    obtain ⟨hval, hneg, hovf, hexp⟩ := setCompact_of_getCompact hc
    refine ⟨c, hc, hneg, hovf, by rw [hval, hexp]; rfl, ?_, ?_⟩
    · rw [BaseUint.le_iff, hval]
      exact compactRound_le _
    · rw [getCompact_eq, hval, compactMantissa_compactRound, compactExponent_compactRound,
        ← getCompact_eq, hc]
  · obtain ⟨hval, -⟩ := setCompact_of_getCompact hc
    obtain ⟨hval', -⟩ := setCompact_of_getCompact hc'
    rw [BaseUint.le_iff, hval, hval']
    exact compactRound_mono ((BaseUint.le_iff x x').mp hle)

theorem compact_roundtrip_one_two :
    (setCompact 0x01010000).1.le (setCompact 0x01020000).1 = true :=
  compact_roundtrip.2 (BaseUint.ofUInt64 1) (BaseUint.ofUInt64 2) 0x01010000 0x01020000
    (by decide) (by decide) (by decide)

end BitcoinCash
