import Mathlib.Data.Nat.Digits.Lemmas

/-!
# Numbers in a radix

A base conversion reads a number as the big-endian digits of one radix and writes it as the
digits of another. This file holds what such a conversion needs of the numbers themselves:

* the value of big-endian digits, accumulated one digit at a time as `n ↦ b * n + d`
  (`foldl_mul_add`), which only grows (`le_foldl_mul_add`), and whose digits they are when the
  first is not zero (`digits_ofDigits_reverse`);
* how multiplying by `m` and adding `c` acts on the lowest digit and on the rest, the carry
  (`mul_add_mod`, `mul_add_div`);
* the estimate of the output length: when `b ^ q ≤ c ^ p`, every number below `b ^ m` has at
  most `p * m / q + 1` digits in base `c` (`pow_le_pow_mul_div_add_one`).

Digit lists are little-endian, as in `Nat.digits` and `Nat.ofDigits`.
-/

namespace Radix

/-- Accumulating the big-endian digits `L` after `n` shifts `n` up by `L.length` digits. -/
theorem foldl_mul_add (b n : ℕ) (L : List ℕ) :
    L.foldl (fun n d => b * n + d) n = n * b ^ L.length + Nat.ofDigits b L.reverse := by
  induction L generalizing n with
  | nil => simp
  | cons d L ih =>
    rw [List.foldl_cons, ih, List.length_cons, Nat.ofDigits_reverse_cons, pow_succ]
    ring

theorem le_foldl_mul_add {b : ℕ} (hb : 0 < b) (n : ℕ) (L : List ℕ) :
    n ≤ L.foldl (fun n d => b * n + d) n := by
  rw [foldl_mul_add]
  exact le_add_right (Nat.le_mul_of_pos_right n (Nat.pow_pos hb))

/-- Big-endian digits with no leading zero are the digits of their value. -/
theorem digits_ofDigits_reverse {b : ℕ} (hb : 1 < b) {L : List ℕ} (hL : ∀ d ∈ L, d < b)
    (hhead : L.head? ≠ some 0) : Nat.digits b (Nat.ofDigits b L.reverse) = L.reverse := by
  refine Nat.digits_ofDigits b hb L.reverse (fun d hd => hL d (List.mem_reverse.mp hd)) ?_
  intro hne h0
  rw [List.getLast_reverse] at h0
  exact hhead (by rw [List.head?_eq_some_head (List.reverse_ne_nil_iff.mp hne), h0])

/-- Big-endian, the digits of a number start with a digit that is not zero. -/
theorem dropWhile_digits_reverse (b v : ℕ) :
    (Nat.digits b v).reverse.dropWhile (· = 0) = (Nat.digits b v).reverse := by
  rcases Nat.eq_zero_or_pos v with rfl | hv
  · rw [Nat.digits_zero]
    rfl
  · have hne : Nat.digits b v ≠ [] := Nat.digits_ne_nil_iff_ne_zero.mpr hv.ne'
    rw [← List.dropLast_append_getLast hne, List.reverse_append, List.reverse_singleton,
      List.singleton_append, List.dropWhile_cons_of_neg]
    simpa using Nat.getLast_digit_ne_zero b hv.ne'

/-- The lowest digit of `m * v + c` comes from `c` and the lowest digit of `v`. -/
theorem mul_add_mod (b m v c : ℕ) : (m * v + c) % b = (c + m * (v % b)) % b := by
  conv_lhs => rw [← Nat.mod_add_div v b]
  rw [show m * (v % b + b * (v / b)) + c = (c + m * (v % b)) + b * (m * (v / b)) by ring,
    Nat.add_mul_mod_self_left]

/-- The digits of `m * v + c` above the lowest are `m` times those of `v` plus the carry. -/
theorem mul_add_div {b : ℕ} (hb : 0 < b) (m v c : ℕ) :
    (m * v + c) / b = m * (v / b) + (c + m * (v % b)) / b := by
  conv_lhs => rw [← Nat.mod_add_div v b]
  rw [show m * (v % b + b * (v / b)) + c = (c + m * (v % b)) + b * (m * (v / b)) by ring,
    Nat.add_mul_div_left _ _ hb, Nat.add_comm]

/-- When `b ^ q ≤ c ^ p`, the `m`-digit numbers of base `b` have at most `p * m / q + 1` digits
in base `c`: raised to the power `q`, both sides compare as `b ^ q` and `c ^ p` do. -/
theorem pow_le_pow_mul_div_add_one {b c p q : ℕ} (hq : 0 < q) (hc : 0 < c)
    (hbc : b ^ q ≤ c ^ p) (m : ℕ) : b ^ m ≤ c ^ (p * m / q + 1) := by
  have hpow : (b ^ m) ^ q ≤ (c ^ (p * m / q + 1)) ^ q :=
    calc (b ^ m) ^ q = (b ^ q) ^ m := by rw [← pow_mul, ← pow_mul, Nat.mul_comm]
      _ ≤ (c ^ p) ^ m := Nat.pow_le_pow_left hbc m
      _ = c ^ (p * m) := by rw [← pow_mul]
      _ ≤ c ^ (q * (p * m / q + 1)) :=
          Nat.pow_le_pow_right hc (Nat.lt_mul_div_succ (p * m) hq).le
      _ = (c ^ (p * m / q + 1)) ^ q := by rw [← pow_mul, Nat.mul_comm]
  exact (Nat.pow_le_pow_iff_left hq.ne').mp hpow

end Radix
