import BitcoinCash.Bytes.SignMagnitude

/-!
# Script numbers

`CScriptNum` (`script/script.h`, `script/script.cpp`) stores an `int64_t` and converts it to and
from the byte vectors of the script stack: sign-magnitude, little-endian, with the sign in the top
bit of the last byte. After Upgrade8 the range is `[INT64_MIN + 1, INT64_MAX]` and the encodings
have at most eight bytes.

Integers are modelled by `ℤ`, with `int64Min` and `int64Max` the bounds of `int64_t`; the
`uint64_t` and `int64_t` words of the decoder are their bit patterns in `ℕ`.
-/

namespace BitcoinCash

open Bytes

/-- `std::numeric_limits<int64_t>::min()`. -/
def int64Min : ℤ := -2 ^ 63

/-- `std::numeric_limits<int64_t>::max()`. -/
def int64Max : ℤ := 2 ^ 63 - 1

/-- `ScriptIntBase::valid64BitRange`: every `int64_t` except `INT64_MIN`. -/
def valid64BitRange (x : ℤ) : Bool := x != int64Min

/-- The `int64_t` with the given 64-bit pattern (two's complement). -/
def int64OfBits (x : ℕ) : ℤ := if x < 2 ^ 63 then x else (x : ℤ) - 2 ^ 64

/-- The `uint64_t` bitwise complement `~x`. -/
def uint64Complement (x : ℕ) : ℕ := 2 ^ 64 - (x + 1)

theorem int64OfBits_mem {x : ℕ} (h : x < 2 ^ 64) :
    int64Min ≤ int64OfBits x ∧ int64OfBits x ≤ int64Max := by
  unfold int64OfBits int64Min int64Max
  split_ifs <;> omega

theorem int64OfBits_of_lt {x : ℕ} (h : x < 2 ^ 63) : int64OfBits x = x := by
  unfold int64OfBits
  rw [if_pos h]

namespace CScriptNum

/-- `CScriptNum::MAXIMUM_ELEMENT_SIZE_32_BIT`. -/
def maximumElementSize32Bit : ℕ := 4

/-- `CScriptNum::MAXIMUM_ELEMENT_SIZE_64_BIT`. -/
def maximumElementSize64Bit : ℕ := 8

/-- The `while (absvalue)` loop of `serialize`: push the low byte and shift right by eight. The
first argument bounds the iterations; a `uint64_t` needs at most eight. -/
def pushMagnitude : ℕ → ℕ → List UInt8
  | 0, _ => []
  | fuel + 1, absvalue =>
    if absvalue = 0 then [] else
      UInt8.ofNat (absvalue &&& 0xff) :: pushMagnitude fuel (absvalue >>> 8)

/-- `CScriptNum::serialize`. -/
def serialize (value : ℤ) : List UInt8 :=
  if value = 0 then [] else
  let neg := decide (value < 0)
  -- `-value` is guarded against `INT64_MIN`, whose `uint64_t` pattern is `2 ^ 63`
  let absvalue : ℕ :=
    if neg && valid64BitRange value then (-value).toNat else (value % 2 ^ 64).toNat
  let result := pushMagnitude 8 absvalue
  match result.getLast? with
  | none => result
  | some msb =>
    if msb &&& 0x80 ≠ 0 then result ++ [if neg then 0x80 else 0]
    else if neg then result.dropLast ++ [msb ||| 0x80]
    else result

/-- `CScriptNum::IsMinimallyEncoded`. -/
def isMinimallyEncoded (vch : List UInt8) (maxIntegerSize : ℕ) : Bool :=
  if vch.length > maxIntegerSize then false else
  match vch.getLast? with
  | none => true
  | some back =>
    if back &&& 0x7f = 0 then
      -- the exception for a sign byte after a byte with its top bit set (`0xff00`, `0xff80`)
      !(vch.length ≤ 1 || vch.getD (vch.length - 2) 0 &&& 0x80 = 0)
    else true

/-- The loop `result |= int64_t(vch[i]) << 8 * i` of `set_vch`, from byte position `i`. -/
def accumulate (result i : ℕ) : List UInt8 → ℕ
  | [] => result
  | b :: bs => accumulate (result ||| b.toNat <<< (8 * i)) (i + 1) bs

/-- `CScriptNum::set_vch`, for vectors of at most eight bytes. -/
def setVch (vch : List UInt8) : ℤ :=
  match vch.getLast? with
  | none => 0
  | some back =>
    let result := accumulate 0 0 vch
    if back &&& 0x80 ≠ 0 then
      -int64OfBits (result &&& uint64Complement (0x80 <<< (8 * (vch.length - 1))))
    else int64OfBits result

/-- `CScriptNum::fromBytes`: the size checks, the optional minimality check, then `set_vch`. -/
def fromBytes (vch : List UInt8) (fRequireMinimal : Bool) (maxIntegerSize : ℕ) :
    Except String ℤ :=
  if maxIntegerSize > maximumElementSize64Bit then
    .error "maxIntegerSize cannot be greater than 8"
  else if vch.length > maxIntegerSize then .error "script number overflow"
  else if fRequireMinimal && !isMinimallyEncoded vch maxIntegerSize then
    .error "non-minimally encoded script number"
  else .ok (setVch vch)

example : serialize 255 = [0xff, 0x00] := by decide
example : serialize (-255) = [0xff, 0x80] := by decide
example : setVch [0xff, 0x80] = -255 := by decide

/-! ### The encoder -/

@[simp] theorem pushMagnitude_zero_right (fuel : ℕ) : pushMagnitude fuel 0 = [] := by
  cases fuel <;> rfl

theorem length_pushMagnitude_le (fuel a : ℕ) : (pushMagnitude fuel a).length ≤ fuel := by
  induction fuel generalizing a with
  | zero => simp [pushMagnitude]
  | succ fuel ih =>
    unfold pushMagnitude
    split_ifs
    · simp
    · simpa using ih (a >>> 8)

/-- Every value serializes to at most nine bytes: eight of magnitude and a sign byte. -/
theorem length_serialize_le (value : ℤ) : (serialize value).length ≤ 9 := by
  unfold serialize
  split_ifs
  · simp
  dsimp only
  generalize hres : pushMagnitude 8 _ = result
  have h8 : result.length ≤ 8 := hres ▸ length_pushMagnitude_le 8 _
  split
  · omega
  · -- a sign byte is appended, or the sign is set in the last byte
    have happend : ∀ x : UInt8, (result ++ [x]).length ≤ 9 := by simp; omega
    have hset : ∀ x : UInt8, (result.dropLast ++ [x]).length ≤ 9 := by simp; omega
    split_ifs <;> first | exact happend _ | exact hset _ | omega

/-- The magnitude loop stores a non-zero value below `256 ^ fuel` as little-endian bytes whose
last byte is non-zero. -/
theorem pushMagnitude_spec {fuel a : ℕ} (ha : 0 < a) (hlt : a < 256 ^ fuel) :
    ∃ init msb, pushMagnitude fuel a = init ++ [msb] ∧ 0 < msb.toNat ∧
      leValue init + 256 ^ init.length * msb.toNat = a ∧ init.length < fuel := by
  induction fuel generalizing a with
  | zero => simp at hlt; omega
  | succ fuel ih =>
    have hbyte : (UInt8.ofNat (a &&& 0xff)).toNat = a % 256 := toNat_ofNat_and_ff a
    have hshift : a >>> 8 = a / 256 := by simp [Nat.shiftRight_eq_div_pow]
    simp only [pushMagnitude, Nat.ne_of_gt ha, if_false, hshift]
    by_cases hsmall : a / 256 = 0
    · refine ⟨[], UInt8.ofNat (a &&& 0xff), by simp [hsmall], by rw [hbyte]; omega,
        by rw [leValue_nil, List.length_nil, pow_zero, one_mul, zero_add, hbyte]; omega, by simp⟩
    · have hq : a / 256 < 256 ^ fuel := by
        rw [pow_succ] at hlt
        omega
      obtain ⟨init, msb, heq, hmsb, hval, hlen⟩ := ih (Nat.pos_of_ne_zero hsmall) hq
      refine ⟨UInt8.ofNat (a &&& 0xff) :: init, msb, by simp [heq], hmsb, ?_, by simp; omega⟩
      rw [List.length_cons, leValue_cons, hbyte, pow_succ]
      calc a % 256 + 256 * leValue init + 256 ^ init.length * 256 * msb.toNat
          = a % 256 + 256 * (leValue init + 256 ^ init.length * msb.toNat) := by ring
        _ = a := by rw [hval]; omega

/-- The `absvalue` of `serialize` is the absolute value on the range. -/
theorem absvalue_eq_natAbs {value : ℤ} (hmin : int64Min < value) (hmax : value ≤ int64Max) :
    (if decide (value < 0) && valid64BitRange value then (-value).toNat
      else (value % 2 ^ 64).toNat) = value.natAbs := by
  have hvalid : valid64BitRange value = true := by
    simp [valid64BitRange]
    exact hmin.ne'
  unfold int64Max at hmax
  rcases lt_or_ge value 0 with hneg | hpos
  · simp [hneg, hvalid]
    omega
  · have : ¬ value < 0 := not_lt.mpr hpos
    simp only [this, decide_false, Bool.false_and, Bool.false_eq_true, if_false]
    rw [Int.emod_eq_of_lt hpos (by omega)]
    omega

/-- On the range, `serialize` produces a minimal string of at most eight bytes that denotes its
input. -/
theorem serialize_spec {value : ℤ} (hmin : int64Min < value) (hmax : value ≤ int64Max) :
    IsMinimal (serialize value) ∧ smValue (serialize value) = value ∧
      (serialize value).length ≤ 8 := by
  by_cases hzero : value = 0
  · subst hzero
    simp [serialize]
  have habs : 0 < value.natAbs := Int.natAbs_pos.mpr hzero
  have hlt : value.natAbs < 2 ^ 63 := by
    unfold int64Min int64Max at *
    omega
  have h8 : value.natAbs < 256 ^ 8 := by omega
  obtain ⟨init, msb, heq, hmsb, hval, hlen⟩ := pushMagnitude_spec habs h8
  have hmsb_lt : msb.toNat < 256 := msb.toNat_lt
  unfold serialize
  rw [if_neg hzero]
  dsimp only
  rw [absvalue_eq_natAbs hmin hmax, heq]
  simp only [List.getLast?_append, List.getLast?_singleton, Option.some_or,
    List.dropLast_concat, ne_eq, and_80_eq_zero_iff, not_lt]
  by_cases htop : 128 ≤ msb.toNat
  · -- a sign byte follows the last magnitude byte
    have hshort : init.length < 7 := by
      by_contra hlong
      have h7 : 256 ^ 7 ≤ 256 ^ init.length := Nat.pow_le_pow_right (by norm_num) (by omega)
      have : 256 ^ 7 * 128 ≤ 256 ^ init.length * msb.toNat := Nat.mul_le_mul h7 htop
      omega
    rw [if_pos htop]
    refine ⟨?_, ?_, by simp; omega⟩
    · rw [isMinimal_append_singleton_iff]
      intro _
      exact ⟨msb, by simp, htop⟩
    · rcases lt_or_gt_of_ne hzero with hneg | hpos
      · have hsign : (0x80 : UInt8).toNat = 128 := rfl
        simp only [hneg, decide_true, if_true]
        rw [smValue_append_singleton, leValue_append_singleton, hval, hsign, if_pos le_rfl]
        omega
      · have hsign : (0 : UInt8).toNat = 0 := rfl
        simp only [not_lt.mpr hpos.le, decide_false, Bool.false_eq_true, if_false]
        rw [smValue_append_singleton, leValue_append_singleton, hval, hsign, if_neg (by omega)]
        omega
  · -- the sign goes into the top bit of the last magnitude byte
    have hmod : msb.toNat % 128 = msb.toNat := Nat.mod_eq_of_lt (by omega)
    rw [if_neg htop]
    rcases lt_or_gt_of_ne hzero with hneg | hpos
    · have hor : (msb ||| 0x80).toNat = msb.toNat + 128 := by rw [toNat_or_80, hmod]
      simp only [hneg, decide_true, if_true]
      refine ⟨?_, ?_, by simp; omega⟩
      · rw [isMinimal_append_singleton_iff, hor]
        omega
      · rw [smValue_append_singleton, hor, if_pos (by omega), Nat.add_mod_right, hmod, hval]
        omega
    · simp only [not_lt.mpr hpos.le, decide_false, Bool.false_eq_true, if_false]
      refine ⟨?_, ?_, by simp; omega⟩
      · rw [isMinimal_append_singleton_iff, hmod]
        omega
      · rw [smValue_append_singleton, hmod, if_neg htop, hval]
        omega

/-! ### The decoder and the minimality test -/

/-- The OR loop of `set_vch` adds each byte at its position, as long as the accumulator has no
bit at or above the current position. -/
theorem accumulate_eq (l : List UInt8) {result i : ℕ} (hr : result < 256 ^ i) :
    accumulate result i l = result + 256 ^ i * leValue l := by
  induction l generalizing result i with
  | nil => simp [accumulate]
  | cons b bs ih =>
    have hb : b.toNat < 256 := b.toNat_lt
    have hr' : result < 2 ^ (8 * i) := by rwa [pow_mul]
    have hnext : result + 256 ^ i * b.toNat < 256 ^ (i + 1) := by
      rw [pow_succ]
      nlinarith
    rw [accumulate, or_shiftLeft_eq_add hr', ih hnext, leValue_cons, pow_succ]
    ring

/-- Clearing the sign bit of the little-endian value leaves the magnitude. -/
private theorem clear_sign_eq_magnitude (init : List UInt8) (back : UInt8)
    (hlen : init.length < 8) :
    leValue (init ++ [back]) &&& uint64Complement (0x80 <<< (8 * (init ++ [back]).length - 8))
      = magnitude (init ++ [back]) := by
  have hlen' : 8 * (init ++ [back]).length - 8 = 8 * init.length := by
    simp only [List.length_append, List.length_singleton]
    omega
  have hbit : (0x80 : ℕ) <<< (8 * init.length) = 2 ^ (8 * init.length + 7) := by
    rw [Nat.shiftLeft_eq, pow_add]
    norm_num
    ring
  have hsplit : (2 : ℕ) ^ (8 * init.length + 7) = 256 ^ init.length * 128 := by
    rw [pow_add, pow_mul]
    norm_num
  have hx : leValue (init ++ [back]) < 2 ^ (8 * init.length + 7 + 1) := by
    have hlt := leValue_lt (init ++ [back])
    rw [List.length_append, List.length_singleton, pow_succ] at hlt
    rw [pow_succ, hsplit]
    omega
  rw [hlen', hbit, uint64Complement, land_complement_two_pow hx (by omega), hsplit,
    magnitude_append_singleton, leValue_append_singleton]
  exact add_mul_mod_mul (leValue_lt init) _ _

/-- On at most eight bytes `set_vch` reads the sign-magnitude value. -/
theorem setVch_eq_smValue {vch : List UInt8} (hlen : vch.length ≤ 8) :
    setVch vch = smValue vch := by
  rcases vch.eq_nil_or_concat with rfl | ⟨init, back, rfl⟩
  · rfl
  rw [List.concat_eq_append] at hlen ⊢
  have hk : init.length < 8 := by simp at hlen; omega
  have hacc : accumulate 0 0 (init ++ [back]) = leValue (init ++ [back]) := by
    simpa using accumulate_eq (init ++ [back]) (show 0 < 256 ^ 0 by norm_num)
  have hmag := magnitude_lt (show init ++ [back] ≠ [] by simp)
  have hpow : 128 * 256 ^ ((init ++ [back]).length - 1) ≤ 2 ^ 63 := by
    have : 256 ^ ((init ++ [back]).length - 1) ≤ 256 ^ 7 :=
      Nat.pow_le_pow_right (by norm_num) (by simp; omega)
    omega
  unfold setVch
  simp only [List.getLast?_append, List.getLast?_singleton, Option.some_or, hacc]
  by_cases hsign : back &&& 0x80 ≠ 0
  · have hsign' : 128 ≤ back.toNat := (and_80_ne_zero_iff back).mp hsign
    rw [if_pos hsign, show 8 * ((init ++ [back]).length - 1) = 8 * (init ++ [back]).length - 8
      by simp only [List.length_append, List.length_singleton]; omega,
      clear_sign_eq_magnitude init back hk, int64OfBits_of_lt (by omega), smValue,
      isNegative_append_singleton, decide_eq_true hsign']
    rfl
  · have hsign' : back.toNat < 128 := (and_80_eq_zero_iff back).mp (not_not.mp hsign)
    have hval : leValue (init ++ [back]) = magnitude (init ++ [back]) := by
      rw [leValue_eq_magnitude_add, isNegative_append_singleton, decide_eq_false (by omega)]
      rfl
    rw [if_neg hsign, hval, int64OfBits_of_lt (by omega), smValue, isNegative_append_singleton,
      decide_eq_false (by omega)]
    rfl

/-- A number read from at most eight bytes is below `2^63` in absolute value. -/
theorem natAbs_lt_of_fromBytes {vch : List UInt8} {fRequireMinimal : Bool}
    {maxIntegerSize : ℕ} {v : ℤ} (h : fromBytes vch fRequireMinimal maxIntegerSize = .ok v) :
    v.natAbs < 2 ^ 63 := by
  unfold fromBytes at h
  split_ifs at h with hmax hlen
  -- only the last branch reads a number
  rw [Except.ok.injEq] at h
  subst h
  have hlen8 : vch.length ≤ 8 := by unfold maximumElementSize64Bit at hmax; omega
  rw [setVch_eq_smValue hlen8, natAbs_smValue]
  rcases eq_or_ne vch [] with rfl | hne
  · simp [magnitude]
  calc magnitude vch < 128 * 256 ^ (vch.length - 1) := magnitude_lt hne
    _ ≤ 128 * 256 ^ 7 := by gcongr <;> omega
    _ = 2 ^ 63 := by norm_num

/-- `IsMinimallyEncoded` is the size bound together with `Bytes.IsMinimal`. -/
theorem isMinimallyEncoded_iff (vch : List UInt8) (maxIntegerSize : ℕ) :
    isMinimallyEncoded vch maxIntegerSize = true ↔
      vch.length ≤ maxIntegerSize ∧ IsMinimal vch := by
  unfold isMinimallyEncoded
  by_cases hsize : vch.length > maxIntegerSize
  · simp [hsize]
  rw [if_neg hsize]
  simp only [Nat.not_lt.mp hsize, true_and]
  rcases vch.eq_nil_or_concat with rfl | ⟨init, back, rfl⟩
  · simp
  rw [List.concat_eq_append, isMinimal_append_singleton_iff]
  have hlow : back &&& 0x7f = 0 ↔ back.toNat % 128 = 0 := by
    rw [← UInt8.toNat_inj, toNat_and_7f]
    rfl
  simp only [List.getLast?_append, List.getLast?_singleton, Option.some_or]
  by_cases hb : back.toNat % 128 = 0
  · rw [if_pos (hlow.mpr hb)]
    simp only [hb, forall_const]
    rcases init.eq_nil_or_concat with rfl | ⟨init', c, rfl⟩
    · simp
    · rw [List.concat_eq_append]
      simp [and_80_eq_zero_iff]
  · rw [if_neg (fun h => hb (hlow.mp h))]
    simp [hb]

/-! ### Encoding is a bijection -/

/-- `CScriptNum` encoding is a bijection between `[INT64_MIN + 1, INT64_MAX]` and the minimally
encoded vectors of at most eight bytes: every value of the range serializes to a minimal vector
of at most eight bytes that the checked decoder reads back, and every minimal vector within a
size limit of at most eight bytes decodes to a value other than `INT64_MIN` that serializes back
to it. -/
theorem isMinimallyEncoded_serialize {v : ℤ} (hmin : int64Min < v) (hmax : v ≤ int64Max) :
    isMinimallyEncoded (serialize v) 8 = true := by
  obtain ⟨hminimal, -, hlen⟩ := serialize_spec hmin hmax
  exact (isMinimallyEncoded_iff _ _).mpr ⟨hlen, hminimal⟩

/-- A number of the range is read back from its encoding at eight bytes, whether minimality is
required or not. -/
theorem fromBytes_serialize {v : ℤ} (hmin : int64Min < v) (hmax : v ≤ int64Max)
    (fRequireMinimal : Bool) : fromBytes (serialize v) fRequireMinimal 8 = .ok v := by
  obtain ⟨-, hval, hlen⟩ := serialize_spec hmin hmax
  simp [fromBytes, maximumElementSize64Bit, isMinimallyEncoded_serialize hmin hmax,
    Nat.not_lt.mpr hlen, setVch_eq_smValue hlen, hval]

theorem serialize_bijection :
    (∀ v : ℤ, int64Min < v → v ≤ int64Max →
      (serialize v).length ≤ 8 ∧ isMinimallyEncoded (serialize v) 8 = true ∧
        fromBytes (serialize v) true 8 = .ok v) ∧
    (∀ (vch : List UInt8) (maxIntegerSize : ℕ), maxIntegerSize ≤ 8 →
      vch.length ≤ maxIntegerSize → isMinimallyEncoded vch maxIntegerSize = true →
        setVch vch ≠ int64Min ∧ serialize (setVch vch) = vch) := by
  refine ⟨fun v hmin hmax => ?_, fun vch n hn hlen hminimal => ?_⟩
  · obtain ⟨-, -, hlen⟩ := serialize_spec hmin hmax
    exact ⟨hlen, isMinimallyEncoded_serialize hmin hmax, fromBytes_serialize hmin hmax true⟩
  · have hmin : IsMinimal vch := ((isMinimallyEncoded_iff vch n).mp hminimal).2
    have h8 : vch.length ≤ 8 := by omega
    rw [setVch_eq_smValue h8]
    -- the value lies strictly inside the `int64_t` range
    have hbound : (smValue vch).natAbs < 2 ^ 63 := by
      rw [natAbs_smValue]
      rcases vch.eq_nil_or_concat with rfl | ⟨init, back, rfl⟩
      · simp
      have hmag := magnitude_lt (show init.concat back ≠ [] by simp)
      have : 256 ^ ((init.concat back).length - 1) ≤ 256 ^ 7 :=
        Nat.pow_le_pow_right (by norm_num) (by omega)
      omega
    have hlo : int64Min < smValue vch := by unfold int64Min; omega
    have hhi : smValue vch ≤ int64Max := by unfold int64Max; omega
    refine ⟨hlo.ne', ?_⟩
    obtain ⟨hmin', hval', -⟩ := serialize_spec hlo hhi
    exact eq_of_smValue_eq hmin' hmin hval'

/-- `serialize_bijection` at `-255`, whose encoding `0xff80` needs the sign-byte exception. -/
theorem serialize_bijection_at_neg_255 :
    ((serialize (-255)).length ≤ 8 ∧ isMinimallyEncoded (serialize (-255)) 8 = true ∧
      fromBytes (serialize (-255)) true 8 = .ok (-255)) ∧
    (setVch [0xff, 0x80] ≠ int64Min ∧ serialize (setVch [0xff, 0x80]) = [0xff, 0x80]) :=
  ⟨serialize_bijection.1 (-255) (by unfold int64Min; norm_num) (by unfold int64Max; norm_num),
    serialize_bijection.2 [0xff, 0x80] 8 le_rfl (by decide) (by decide)⟩

end CScriptNum

end BitcoinCash
