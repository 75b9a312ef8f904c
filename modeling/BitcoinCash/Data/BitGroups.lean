import Mathlib.Data.Nat.Digits.Defs

/-!
# Numbers written in groups of bits

A list of `b`-bit digits, most significant first, spells the number `value b ds`: the bits of its
digits one after the other. Regrouping the same bits into digits of another width keeps that
number, up to zero bits after the last group. This file has what a loop that regroups bits needs
about such numbers: a digit appended shifts the number, `n` digits make a number of `b * n` bits,
equal lengths and numbers give equal digits, and the bits of a number split into a top group and
the bits below it.
-/

namespace BitGroups

/-- The number whose `b`-bit digits, most significant first, are `ds`. -/
def value (b : ℕ) (ds : List ℕ) : ℕ := Nat.ofDigits (2 ^ b) ds.reverse

@[simp] theorem value_nil (b : ℕ) : value b [] = 0 := rfl

@[simp] theorem value_append_singleton (b : ℕ) (ds : List ℕ) (d : ℕ) :
    value b (ds ++ [d]) = value b ds * 2 ^ b + d := by
  rw [value, value, List.reverse_append, List.reverse_singleton, List.singleton_append,
    Nat.ofDigits_cons, Nat.add_comm, Nat.mul_comm]

/-- Digits of one width and one length are determined by their number. -/
theorem eq_of_value_eq {b : ℕ} (hb : 0 < b) {ds es : List ℕ} (hlen : ds.length = es.length)
    (hds : ∀ d ∈ ds, d < 2 ^ b) (hes : ∀ e ∈ es, e < 2 ^ b) (h : value b ds = value b es) :
    ds = es := by
  have hrev := Nat.ofDigits_inj_of_len_eq (Nat.one_lt_two_pow hb.ne')
    (by rw [List.length_reverse, List.length_reverse, hlen])
    (fun d hd => hds d (List.mem_reverse.mp hd)) (fun e he => hes e (List.mem_reverse.mp he)) h
  exact List.reverse_inj.mp hrev

/-- The low `k + t` bits of `a` are its `t`-bit group above bit `k`, then its low `k` bits. -/
theorem mod_two_pow_add (a k t : ℕ) :
    a % 2 ^ (k + t) = a / 2 ^ k % 2 ^ t * 2 ^ k + a % 2 ^ k := by
  rw [Nat.pow_add, Nat.mod_mul, Nat.add_comm, Nat.mul_comm]

/-- A group of `f` bits put in below a number keeps the number's low bits above it. -/
theorem shift_add_mod {f x : ℕ} (hx : x < 2 ^ f) (a k : ℕ) :
    (a * 2 ^ f + x) % 2 ^ (k + f) = a % 2 ^ k * 2 ^ f + x := by
  have hpos : 0 < 2 ^ f := Nat.two_pow_pos f
  rw [Nat.add_comm k, Nat.pow_add, Nat.mod_mul, Nat.mul_comm a, Nat.mul_add_mod,
    Nat.mod_eq_of_lt hx, Nat.mul_add_div hpos, Nat.div_eq_of_lt hx, Nat.add_zero, Nat.add_comm,
    Nat.mul_comm]

/-- The low `b` bits of a number shifted up by `t - b` bits, cut to `t` bits. -/
theorem mul_two_pow_sub_mod {b t : ℕ} (hbt : b ≤ t) (a : ℕ) :
    a * 2 ^ (t - b) % 2 ^ t = a % 2 ^ b * 2 ^ (t - b) := by
  have ht : 2 ^ t = 2 ^ b * 2 ^ (t - b) := by rw [← Nat.pow_add, Nat.add_sub_cancel' hbt]
  rw [ht]
  exact Nat.mul_mod_mul_right _ _ _

/-- A multiple of `2 ^ p` plus fewer than `2 ^ p` is that multiple only with nothing added. -/
theorem eq_of_mul_two_pow_add_eq {x y a p : ℕ} (ha : a < 2 ^ p)
    (h : x * 2 ^ p + a = y * 2 ^ p) : a = 0 ∧ x = y := by
  have hmod := congrArg (· % 2 ^ p) h
  simp only [Nat.mul_add_mod_self_right, Nat.mul_mod_left, Nat.mod_eq_of_lt ha] at hmod
  subst hmod
  exact ⟨rfl, Nat.eq_of_mul_eq_mul_right (Nat.two_pow_pos p) h⟩

/-- Two numbers of groups of `t` with fewer than `t` bits left over, the same number, have as many
groups. -/
theorem eq_of_mul_add_eq {t a b p q : ℕ} (hp : p < t) (hq : q < t)
    (h : t * a + p = t * b + q) : a = b := by
  by_contra hne
  rcases Nat.lt_or_gt_of_ne hne with hab | hab
  · have hle := Nat.mul_le_mul_left t (Nat.succ_le_of_lt hab)
    rw [Nat.mul_succ] at hle
    omega
  · have hle := Nat.mul_le_mul_left t (Nat.succ_le_of_lt hab)
    rw [Nat.mul_succ] at hle
    omega

end BitGroups
