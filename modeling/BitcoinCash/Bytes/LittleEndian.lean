import Mathlib.Data.Nat.Bitwise
import Mathlib.Tactic.Ring

/-!
# Little-endian byte strings

Byte strings are lists of `UInt8`, least significant byte first. This file gives the natural
number a byte string denotes, the fixed-width encoding of a natural, and the facts about single
bytes that the serializers test bit by bit: the sign bit `0x80`, the low seven bits `0x7f`.
-/

namespace BitcoinCash.Bytes

/-! ### The value of a byte string -/

/-- The natural with the given little-endian bytes. -/
def leValue : List UInt8 → ℕ
  | [] => 0
  | b :: bs => b.toNat + 256 * leValue bs

@[simp] theorem leValue_nil : leValue [] = 0 := rfl

@[simp] theorem leValue_cons (b : UInt8) (bs : List UInt8) :
    leValue (b :: bs) = b.toNat + 256 * leValue bs := rfl

theorem leValue_append (l₁ l₂ : List UInt8) :
    leValue (l₁ ++ l₂) = leValue l₁ + 256 ^ l₁.length * leValue l₂ := by
  induction l₁ with
  | nil => simp
  | cons b bs ih =>
    rw [List.cons_append, leValue_cons, leValue_cons, ih, List.length_cons, pow_succ]
    ring

theorem leValue_append_singleton (l : List UInt8) (b : UInt8) :
    leValue (l ++ [b]) = leValue l + 256 ^ l.length * b.toNat := by
  simp [leValue_append]

theorem leValue_lt (l : List UInt8) : leValue l < 256 ^ l.length := by
  induction l with
  | nil => simp
  | cons b bs ih =>
    have hb : b.toNat < 256 := b.toNat_lt
    rw [leValue_cons, List.length_cons, pow_succ]
    omega

/-- Two byte strings of one length with one value are equal. -/
theorem eq_of_leValue_eq {l₁ l₂ : List UInt8} (hlen : l₁.length = l₂.length)
    (hval : leValue l₁ = leValue l₂) : l₁ = l₂ := by
  induction l₁ generalizing l₂ with
  | nil => simpa [eq_comm] using hlen
  | cons b bs ih =>
    cases l₂ with
    | nil => simp at hlen
    | cons c cs =>
      have hb : b.toNat < 256 := b.toNat_lt
      have hc : c.toNat < 256 := c.toNat_lt
      simp only [leValue_cons] at hval
      have hbc : b.toNat = c.toNat := by omega
      have htail : leValue bs = leValue cs := by omega
      rw [UInt8.toNat_inj.mp hbc, ih (by simpa using hlen) htail]

/-! ### Fixed-width encoding -/

/-- The `w` little-endian bytes of `n`; bits above `8 * w` are dropped. -/
def leBytes : ℕ → ℕ → List UInt8
  | 0, _ => []
  | w + 1, n => UInt8.ofNat n :: leBytes w (n / 256)

@[simp] theorem leBytes_zero (n : ℕ) : leBytes 0 n = [] := rfl

@[simp] theorem leBytes_succ (w n : ℕ) :
    leBytes (w + 1) n = UInt8.ofNat n :: leBytes w (n / 256) := rfl

@[simp] theorem length_leBytes (w n : ℕ) : (leBytes w n).length = w := by
  induction w generalizing n with
  | zero => rfl
  | succ w ih => simp [ih]

theorem leValue_leBytes (w n : ℕ) : leValue (leBytes w n) = n % 256 ^ w := by
  induction w generalizing n with
  | zero => simp [Nat.mod_one]
  | succ w ih =>
    have hb : (UInt8.ofNat n).toNat = n % 256 := UInt8.toNat_ofNat'
    rw [leBytes_succ, leValue_cons, ih, hb, pow_succ', Nat.mod_mul]

theorem leValue_leBytes_of_lt {w n : ℕ} (h : n < 256 ^ w) : leValue (leBytes w n) = n := by
  rw [leValue_leBytes, Nat.mod_eq_of_lt h]

theorem leBytes_leValue (l : List UInt8) : leBytes l.length (leValue l) = l := by
  apply eq_of_leValue_eq (length_leBytes _ _)
  exact leValue_leBytes_of_lt (leValue_lt l)

/-! ### Bits of one byte -/

theorem toNat_and_7f (b : UInt8) : (b &&& 0x7f).toNat = b.toNat % 128 := by
  rw [UInt8.toNat_and]
  exact Nat.and_two_pow_sub_one_eq_mod b.toNat 7

private theorem and_128_ne_zero_iff_of_lt :
    ∀ i : Fin 256, (i.val &&& 128 ≠ 0) ↔ 128 ≤ i.val := by
  decide +kernel

/-- The sign bit of a byte is set exactly when the byte is at least `0x80`. -/
theorem and_80_ne_zero_iff (b : UInt8) : b &&& 0x80 ≠ 0 ↔ 128 ≤ b.toNat := by
  rw [ne_eq, ← UInt8.toNat_inj, UInt8.toNat_and]
  exact and_128_ne_zero_iff_of_lt ⟨b.toNat, b.toNat_lt⟩

theorem and_80_eq_zero_iff (b : UInt8) : b &&& 0x80 = 0 ↔ b.toNat < 128 := by
  rw [← not_iff_not, ← ne_eq, and_80_ne_zero_iff, not_lt]

private theorem or_128_of_lt : ∀ i : Fin 256, i.val ||| 128 = i.val % 128 + 128 := by
  decide +kernel

theorem toNat_or_80 (b : UInt8) : (b ||| 0x80).toNat = b.toNat % 128 + 128 := by
  rw [UInt8.toNat_or]
  exact or_128_of_lt ⟨b.toNat, b.toNat_lt⟩

theorem toNat_ofNat_and_ff (n : ℕ) : (UInt8.ofNat (n &&& 0xff)).toNat = n % 256 := by
  rw [UInt8.toNat_ofNat', Nat.and_two_pow_sub_one_eq_mod n 8]
  omega

/-! ### Words -/

/-- Clearing bit `p` of a word below `2 ^ (p + 1)`, by a mask that is the complement of `2 ^ p`
within `w` bits, keeps the bits below `p`. -/
theorem land_complement_two_pow {x p w : ℕ} (hx : x < 2 ^ (p + 1)) (hp : p < w) :
    x &&& (2 ^ w - (2 ^ p + 1)) = x % 2 ^ p := by
  have hpw : 2 ^ p < 2 ^ w := Nat.pow_lt_pow_right (by norm_num) hp
  apply Nat.eq_of_testBit_eq
  intro i
  rw [Nat.testBit_land, Nat.testBit_two_pow_sub_succ hpw, Nat.testBit_two_pow,
    Nat.testBit_mod_two_pow]
  rcases Nat.lt_trichotomy i p with hi | rfl | hi
  · have hiw : i < w := by omega
    simp [hi, hiw, Nat.ne_of_gt hi]
  · simp
  · have hxi : x.testBit i = false :=
      Nat.testBit_lt_two_pow (lt_of_lt_of_le hx (Nat.pow_le_pow_right (by norm_num) hi))
    simp [hxi, Nat.not_lt.mpr hi.le]

/-- OR-ing bytes into disjoint byte positions of an accumulator adds them. -/
theorem or_shiftLeft_eq_add {r i : ℕ} (hr : r < 2 ^ (8 * i)) (b : UInt8) :
    r ||| b.toNat <<< (8 * i) = r + 256 ^ i * b.toNat := by
  rw [Nat.or_comm, ← Nat.shiftLeft_add_eq_or_of_lt hr, Nat.shiftLeft_eq, pow_mul]
  ring

/-- Reducing a two-digit number `a + c * b` (with `a < c`) modulo `c * m` reduces its high
digit modulo `m`. -/
theorem add_mul_mod_mul {a c : ℕ} (ha : a < c) (b m : ℕ) :
    (a + c * b) % (c * m) = a + c * (b % m) := by
  have hc : 0 < c := by omega
  rw [Nat.mod_mul, Nat.add_mul_mod_self_left, Nat.mod_eq_of_lt ha, Nat.add_mul_div_left _ _ hc,
    Nat.div_eq_of_lt ha, zero_add]

end BitcoinCash.Bytes
