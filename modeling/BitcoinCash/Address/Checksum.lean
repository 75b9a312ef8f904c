import BitcoinCash.Address.CashAddr
import BitcoinCash.Algebra.BinaryField
import Mathlib.Data.List.GetD
import Mathlib.Tactic.LinearCombination

/-!
# `PolyMod` computes a remainder over GF(32)

The checksum of `cashaddr.cpp` is a BCH code over GF(32) = GF(2)[a] / (a^5 + a^3 + 1), whose
element `{n}` has the bits of `n` as coordinates on `1, a, …, a^4`. The 40-bit state of
`PolyMod` holds eight such coefficients, five bits each: after the values `v` it is the
remainder modulo the generator
`g(x) = x^8 + {19}x^7 + {3}x^6 + {25}x^5 + {11}x^4 + {25}x^3 + {3}x^2 + {19}x + {1}`
of `x^|v| + Σ v_i x^(|v|-1-i)`. One step multiplies by `x` and adds the value; the coefficient
`c0` that leaves at `x^8` comes back as `{c0} (g(x) - x^8)`, which the five constants of the code
add bit by bit of `c0`.

Since `g(0) = {1}`, a step from a nonzero state with the value zero gives a nonzero state. An
error confined to eight consecutive values adds its own nonzero packing to the state, and the
values after it never cancel it: `VerifyChecksum` detects every such error.
-/

namespace BitcoinCash

namespace CashAddr

open Polynomial BinaryField

/-! ### The field and the generator -/

/-- GF(32) = GF(2)[a] / (a^5 + a^3 + 1), `9 = 0b01001` the bits of `a^3 + 1`. -/
abbrev GF32 := BinQuot 5 9

/-- `{n}`: the element of GF(32) with the low five bits of `n` as coordinates. -/
noncomputable def gf (n : ℕ) : GF32 := ofBits 5 9 n

instance : Nontrivial GF32 := nontrivial (by omega)

/-- The generator `g(x)` of the code. -/
noncomputable def generator : GF32[X] :=
  X ^ 8 + C (gf 19) * X ^ 7 + C (gf 3) * X ^ 6 + C (gf 25) * X ^ 5 + C (gf 11) * X ^ 4 +
    C (gf 25) * X ^ 3 + C (gf 3) * X ^ 2 + C (gf 19) * X + C (gf 1)

/-- The polynomial of a 40-bit state: its 5-bit group `i` is the coefficient of `x^i`. -/
noncomputable def unpack (c : ℕ) : GF32[X] :=
  ∑ i ∈ Finset.range 8, C (gf (c / 32 ^ i % 32)) * X ^ i

/-- `x^|v| + Σ v_i x^(|v|-1-i)`: the leading `1` of the state `1`, then the values, highest
degree first. -/
noncomputable def checksumPoly (v : List UInt8) : GF32[X] :=
  X ^ v.length + ∑ i ∈ Finset.range v.length, C (gf (v.getD i 0).toNat) * X ^ (v.length - 1 - i)

theorem gf_xor (a b : ℕ) : gf (a ^^^ b) = gf a + gf b :=
  ofBits_xor a b

theorem gf_inj {a b : ℕ} (ha : a < 32) (hb : b < 32) : gf a = gf b ↔ a = b :=
  ofBits_inj ha hb

theorem gf_mul (a b : ℕ) : gf (mul 5 9 a b) = gf a * gf b :=
  ofBits_mul (by omega) a b

theorem coeff_unpack (c n : ℕ) :
    (unpack c).coeff n = if n < 8 then gf (c / 32 ^ n % 32) else 0 := by
  simp only [unpack, finsetSum_coeff, coeff_C_mul_X_pow, Finset.sum_ite_eq, Finset.mem_range]

theorem degree_unpack_lt (c : ℕ) : (unpack c).degree < 8 := by
  refine (degree_lt_iff_coeff_zero _ 8).mpr fun n hn => ?_
  rw [coeff_unpack, if_neg (by omega)]

theorem unpack_one : unpack 1 = 1 := by
  ext n
  rw [coeff_unpack, coeff_one]
  rcases Nat.eq_zero_or_pos n with rfl | hn
  · exact ofBits_one (by omega)
  · have h : 1 / 32 ^ n = 0 := Nat.div_eq_of_lt (Nat.one_lt_pow (by omega) (by omega))
    simp [h, Nat.ne_of_gt hn, gf]

/-- The coefficients of `g(x)` below `x^8`, packed as a state: `PolyMod`'s first constant. -/
theorem generator_eq : generator = X ^ 8 + unpack 0x98f2bc8e61 := by
  simp only [unpack, Finset.sum_range_succ, Finset.sum_range_zero]
  norm_num [generator]
  ring

theorem degree_generator : generator.degree = 8 := by
  rw [generator_eq, degree_add_eq_left_of_degree_lt (by rw [degree_X_pow]; exact degree_unpack_lt _),
    degree_X_pow]
  rfl

theorem generator_monic : generator.Monic := by
  rw [generator_eq]
  exact monic_X_pow_add (degree_unpack_lt _)

/-! ### One step -/

/-- The 5-bit groups of a xor are the xors of the groups. -/
theorem group_xor (x y n : ℕ) :
    (x ^^^ y) / 32 ^ n % 32 = x / 32 ^ n % 32 ^^^ y / 32 ^ n % 32 := by
  rw [show 32 ^ n = 2 ^ (5 * n) by rw [pow_mul]; rfl, show (32 : ℕ) = 2 ^ 5 from rfl,
    Nat.xor_div_two_pow, Nat.xor_mod_two_pow]

/-- The groups of the shifted state and the value: each group moves up by one, and the value
is the new lowest group. -/
theorem group_shift (x : ℕ) {d : ℕ} (hd : d < 32) {n : ℕ} (hn : n < 8) :
    x % 2 ^ 35 * 32 / 32 ^ n % 32 ^^^ d / 32 ^ n % 32 =
      if n = 0 then d else x / 32 ^ (n - 1) % 32 := by
  rcases n with _ | k
  · have h₁ : x % 2 ^ 35 * 32 / 32 ^ 0 % 32 = 0 := by omega
    have h₂ : d / 32 ^ 0 % 32 = d := by omega
    rw [h₁, h₂, Nat.zero_xor, if_pos rfl]
  · have h₂ : d / 32 ^ (k + 1) % 32 = 0 := by
      rw [Nat.div_eq_of_lt (Nat.lt_of_lt_of_le hd (Nat.le_self_pow (by omega) 32)), Nat.zero_mod]
    -- below `x^8` the groups of `x % 2^35` are those of `x`
    have hsplit : (2 : ℕ) ^ 35 = 32 ^ k * 32 ^ (7 - k) := by
      rw [← pow_add, show k + (7 - k) = 7 by omega]
      rfl
    have h₁ : x % 2 ^ 35 * 32 / 32 ^ (k + 1) % 32 = x / 32 ^ k % 32 := by
      rw [pow_succ 32 k, Nat.mul_div_mul_right _ _ (by norm_num : 0 < 32), hsplit,
        Nat.mod_mul_right_div_self,
        Nat.mod_mod_of_dvd _ (dvd_pow_self 32 (by omega : 7 - k ≠ 0))]
    rw [h₁, h₂, Nat.xor_zero, if_neg (Nat.succ_ne_zero k), Nat.add_sub_cancel]

/-- The five constants of `PolyMod`: group `n` of what the top value `k` adds is `{k}` times the
coefficient of `x^n` in `g(x)`. -/
theorem reduceNat_group : ∀ k < 32, ∀ n < 8,
    reduceNat k / 32 ^ n % 32 = mul 5 9 (0x98f2bc8e61 / 32 ^ n % 32) k := by
  decide

theorem group_polyModStep {c : UInt64} (hc : c.toNat < 2 ^ 40) {d : UInt8} (hd : d.toNat < 32)
    {n : ℕ} (hn : n < 8) :
    (polyModStep c d).toNat / 32 ^ n % 32 =
      (if n = 0 then d.toNat else c.toNat / 32 ^ (n - 1) % 32) ^^^
        mul 5 9 (0x98f2bc8e61 / 32 ^ n % 32) (c.toNat / 2 ^ 35) := by
  rw [toNat_polyModStep, group_xor, group_xor, group_shift _ hd hn,
    reduceNat_group _ (by omega) n hn]

/-- **One step of `PolyMod`** multiplies by `x`, adds the value and takes away `{c0} g(x)`, `c0`
the coefficient that reached `x^8`. -/
theorem unpack_polyModStep {c : UInt64} (hc : c.toNat < 2 ^ 40) {d : UInt8} (hd : d.toNat < 32) :
    unpack (polyModStep c d).toNat =
      X * unpack c.toNat + C (gf d.toNat) + C (gf (c.toNat / 2 ^ 35)) * generator := by
  ext n
  rw [coeff_add, coeff_add, coeff_C, coeff_C_mul, generator_eq, coeff_add, coeff_X_pow,
    coeff_unpack, coeff_unpack]
  rcases Nat.lt_or_ge n 8 with hn | hn
  · have h8 : n ≠ 8 := by omega
    rw [if_pos hn, if_pos hn, group_polyModStep hc hd hn, gf_xor, gf_mul, if_neg h8, zero_add]
    cases n with
    | zero =>
      rw [coeff_X_mul_zero, if_pos rfl, if_pos rfl]
      ring
    | succ k =>
      rw [coeff_X_mul, coeff_unpack, if_pos (by omega : k < 8), if_neg (Nat.succ_ne_zero k),
        if_neg (Nat.succ_ne_zero k), Nat.add_sub_cancel]
      ring
  · obtain ⟨k, rfl⟩ : ∃ k, n = k + 1 := ⟨n - 1, by omega⟩
    rw [if_neg (by omega : ¬k + 1 < 8), if_neg (Nat.succ_ne_zero k),
      if_neg (by omega : ¬k + 1 < 8), add_zero, add_zero, coeff_X_mul, coeff_unpack]
    rcases Nat.lt_or_ge k 8 with hk | hk
    · -- at `x^8` the top coefficient and `{c0}` times the leading `1` of `g(x)` cancel
      obtain rfl : k = 7 := by omega
      have htop : c.toNat / 32 ^ 7 % 32 = c.toNat / 2 ^ 35 := by
        rw [show (32 : ℕ) ^ 7 = 2 ^ 35 by norm_num]
        omega
      rw [if_pos hk, if_pos rfl, htop, mul_one, add_self]
    · rw [if_neg (by omega : ¬k < 8), if_neg (by omega : k + 1 ≠ 8), mul_zero, add_zero]

/-! ### The run -/

theorem checksumPoly_nil : checksumPoly [] = 1 := by
  rw [checksumPoly, List.length_nil, pow_zero, Finset.sum_range_zero, add_zero]

/-- One more value: multiply by `x` and add it. -/
theorem checksumPoly_append (v : List UInt8) (d : UInt8) :
    checksumPoly (v ++ [d]) = X * checksumPoly v + C (gf d.toNat) := by
  have hlast : (v ++ [d]).getD v.length 0 = d := by
    rw [List.getD_append_right _ _ _ _ le_rfl, Nat.sub_self, List.getD_cons_zero]
  have hterm : ∀ i ∈ Finset.range v.length,
      C (gf ((v ++ [d]).getD i 0).toNat) * X ^ (v.length + 1 - 1 - i) =
        X * (C (gf (v.getD i 0).toNat) * X ^ (v.length - 1 - i)) := by
    intro i hi
    rw [Finset.mem_range] at hi
    rw [List.getD_append _ _ _ _ hi, show v.length + 1 - 1 - i = v.length - 1 - i + 1 by omega,
      pow_succ']
    ring
  rw [checksumPoly, checksumPoly, List.length_append, List.length_singleton,
    Finset.sum_range_succ, Finset.sum_congr rfl hterm, hlast, Nat.add_sub_cancel, Nat.sub_self,
    pow_zero, mul_one,
    mul_add, Finset.mul_sum, pow_succ', add_assoc]

/-- The remainder after one more coefficient, given the remainder before it. -/
theorem modByMonic_X_mul_add {R : Type*} [CommRing R] [Nontrivial R] {g : R[X]} (hg : g.Monic)
    (P : R[X]) (e t : R) {r : R[X]} (hr : r = X * (P %ₘ g) + C e + C t * g)
    (hdeg : r.degree < g.degree) : (X * P + C e) %ₘ g = r := by
  rw [← (modByMonic_eq_self_iff hg).mpr hdeg]
  refine modByMonic_eq_of_dvd_sub hg ⟨X * (P /ₘ g) - C t, ?_⟩
  rw [hr]
  linear_combination (-X) * modByMonic_add_div P g

theorem foldl_polyModStep_one_lt (v : List UInt8) (hv : ∀ x ∈ v, x.toNat < 32) :
    (v.foldl polyModStep 1).toNat < 2 ^ 40 := by
  cases v with
  | nil => decide
  | cons x xs => exact foldl_polyModStep_lt (List.cons_ne_nil x xs) hv 1

/-- **The state of `PolyMod` after the values is the remainder** of their polynomial modulo
`g(x)`: by induction on the values from the end, one `unpack_polyModStep` each. -/
theorem unpack_foldl_polyModStep (v : List UInt8) (hv : ∀ x ∈ v, x.toNat < 32) :
    unpack (v.foldl polyModStep 1).toNat = checksumPoly v %ₘ generator := by
  induction v using List.reverseRecOn with
  | nil =>
    rw [List.foldl_nil, checksumPoly_nil, (modByMonic_eq_self_iff generator_monic).mpr
      (by rw [degree_generator, degree_one]; decide)]
    exact unpack_one
  | append_singleton v d ih =>
    have hv' : ∀ x ∈ v, x.toNat < 32 := fun x hx => hv x (List.mem_append_left _ hx)
    have hd : d.toNat < 32 := hv d (List.mem_append_right _ (List.mem_singleton_self d))
    rw [List.foldl_append, List.foldl_cons, List.foldl_nil, checksumPoly_append]
    refine (modByMonic_X_mul_add generator_monic _ _
      (gf ((v.foldl polyModStep 1).toNat / 2 ^ 35)) ?_ ?_).symm
    · rw [unpack_polyModStep (foldl_polyModStep_one_lt v hv') hd, ih hv']
    · rw [degree_generator]
      exact degree_unpack_lt _

/-- A 40-bit state is determined by its polynomial. -/
theorem unpack_inj {c c' : ℕ} (hc : c < 2 ^ 40) (hc' : c' < 2 ^ 40) :
    unpack c = unpack c' ↔ c = c' := by
  refine ⟨fun h => ?_, congrArg _⟩
  have hgroup : ∀ n < 8, c / 32 ^ n % 32 = c' / 32 ^ n % 32 := by
    intro n hn
    have hn' := congrArg (coeff · n) h
    simp only [coeff_unpack, if_pos hn] at hn'
    exact (gf_inj (Nat.mod_lt _ (by norm_num)) (Nat.mod_lt _ (by norm_num))).mp hn'
  have h₀ := hgroup 0 (by norm_num)
  have h₁ := hgroup 1 (by norm_num)
  have h₂ := hgroup 2 (by norm_num)
  have h₃ := hgroup 3 (by norm_num)
  have h₄ := hgroup 4 (by norm_num)
  have h₅ := hgroup 5 (by norm_num)
  have h₆ := hgroup 6 (by norm_num)
  have h₇ := hgroup 7 (by norm_num)
  norm_num at h₀ h₁ h₂ h₃ h₄ h₅ h₆ h₇ hc hc'
  omega

/-! ### Errors in a window of eight values -/

theorem foldl_polyModStep_zeros {zs : List UInt8} (hz : ∀ z ∈ zs, z = 0) :
    zs.foldl polyModStep 0 = 0 := by
  induction zs with
  | nil => rfl
  | cons z zs ih =>
    rw [List.foldl_cons, hz z List.mem_cons_self, show polyModStep 0 0 = 0 by decide]
    exact ih fun x hx => hz x (List.mem_cons_of_mem _ hx)

/-- The lowest group of what the top value adds is the top value itself: `g(0) = {1}`. -/
theorem reduceNat_mod_32 : ∀ k < 32, reduceNat k % 32 = k := by
  decide

/-- `x` is invertible modulo `g(x)`: the value zero takes a nonzero state to a nonzero state. -/
theorem polyModStep_ne_zero {c : UInt64} (hc : c.toNat < 2 ^ 40) (h : c ≠ 0) :
    polyModStep c 0 ≠ 0 := by
  intro h0
  have hnat := congrArg UInt64.toNat h0
  rw [toNat_polyModStep, UInt8.toNat_zero, Nat.xor_zero, UInt64.toNat_zero] at hnat
  have heq : c.toNat % 2 ^ 35 * 32 = reduceNat (c.toNat / 2 ^ 35) := by
    have h' := Nat.xor_xor_cancel_left (c.toNat % 2 ^ 35 * 32) (reduceNat (c.toNat / 2 ^ 35))
    rwa [hnat, Nat.xor_zero] at h'
  -- the lowest group: the top value is zero, and then so is the rest
  have htop : c.toNat / 2 ^ 35 = 0 := by
    rw [← reduceNat_mod_32 (c.toNat / 2 ^ 35) (by omega), ← heq]
    omega
  rw [htop, reduceNat_zero] at heq
  exact h (UInt64.toNat_inj.mp (by rw [UInt64.toNat_zero]; omega))

theorem foldl_polyModStep_zeros_ne_zero {zs : List UInt8} (hz : ∀ z ∈ zs, z = 0) {c : UInt64}
    (hc : c.toNat < 2 ^ 40) (h : c ≠ 0) : zs.foldl polyModStep c ≠ 0 := by
  induction zs generalizing c with
  | nil => exact h
  | cons z zs ih =>
    rw [List.foldl_cons, hz z List.mem_cons_self]
    exact ih (fun x hx => hz x (List.mem_cons_of_mem _ hx)) (polyModStep_lt c (by decide))
      (polyModStep_ne_zero hc h)

/-- Packing 5-bit values is positive as soon as one of them is. -/
theorem foldl_pack_pos {zs : List UInt8} {a : ℕ} (h : 0 < a ∨ ∃ z ∈ zs, z ≠ 0) :
    0 < zs.foldl (fun a z => a * 32 + z.toNat) a := by
  induction zs generalizing a with
  | nil => simpa using h
  | cons z zs ih =>
    rw [List.foldl_cons]
    refine ih ?_
    by_cases hz : z = 0
    · rcases h with ha | ⟨y, hy, hy0⟩
      · exact Or.inl (by omega)
      · rcases List.mem_cons.mp hy with rfl | hy
        · exact absurd hz hy0
        · exact Or.inr ⟨y, hy, hy0⟩
    · have : z.toNat ≠ 0 := fun h0 => hz (UInt8.toNat_inj.mp h0)
      exact Or.inl (by omega)

/-- **An error confined to eight consecutive values changes the state**: from the zero state,
the values before the window leave it zero, the window packs to a nonzero state, and the values
after it keep it nonzero. -/
theorem foldl_polyModStep_window {e : List UInt8} (he : ∀ z ∈ e, z.toNat < 32) {k : ℕ}
    (hout : ∀ i z, i < k ∨ k + 8 ≤ i → e[i]? = some z → z = 0) (hne : ∃ z ∈ e, z ≠ 0) :
    e.foldl polyModStep 0 ≠ 0 := by
  set w := (e.drop k).take 8 with hw
  have hsplit : e = e.take k ++ (w ++ e.drop (k + 8)) := by
    rw [hw, ← List.drop_drop, List.take_append_drop, List.take_append_drop]
  have hbefore : ∀ z ∈ e.take k, z = 0 := by
    intro z hz
    obtain ⟨i, hi⟩ := List.mem_iff_getElem?.mp hz
    rw [List.getElem?_take] at hi
    split_ifs at hi with hik
    exact hout i z (Or.inl hik) hi
  have hafter : ∀ z ∈ e.drop (k + 8), z = 0 := by
    intro z hz
    obtain ⟨i, hi⟩ := List.mem_iff_getElem?.mp hz
    rw [List.getElem?_drop] at hi
    exact hout _ z (Or.inr (by omega)) hi
  have hwne : ∃ z ∈ w, z ≠ 0 := by
    obtain ⟨z, hz, hz0⟩ := hne
    obtain ⟨i, hi⟩ := List.mem_iff_getElem?.mp hz
    have hik : k ≤ i ∧ i < k + 8 := by
      by_contra hout'
      exact hz0 (hout i z (by omega) hi)
    refine ⟨z, List.mem_iff_getElem?.mpr ⟨i - k, ?_⟩, hz0⟩
    rw [hw, List.getElem?_take, if_pos (by omega), List.getElem?_drop,
      Nat.add_sub_cancel' hik.1, hi]
  have hw32 : ∀ z ∈ w, z.toNat < 32 := fun z hz =>
    he z (List.mem_of_mem_drop (List.mem_of_mem_take hz))
  have hwlen : w.length ≤ 8 := by
    rw [hw, List.length_take]
    omega
  -- the window from the zero state is its own packing, which is nonzero
  have hpack : (w.foldl polyModStep 0).toNat = w.foldl (fun a z => a * 32 + z.toNat) 0 :=
    toNat_foldl_polyModStep_of_lt hw32 hwlen (Nat.pow_pos (by norm_num))
  have hwstate : w.foldl polyModStep 0 ≠ 0 := by
    intro h0
    have := foldl_pack_pos (a := 0) (Or.inr hwne)
    rw [← hpack, h0, UInt64.toNat_zero] at this
    exact Nat.lt_irrefl 0 this
  have hwne' : w ≠ [] := by
    rintro hnil
    obtain ⟨z, hz, -⟩ := hwne
    rw [hnil] at hz
    exact List.not_mem_nil hz
  rw [hsplit, List.foldl_append, foldl_polyModStep_zeros hbefore, List.foldl_append]
  exact foldl_polyModStep_zeros_ne_zero hafter (foldl_polyModStep_lt hwne' hw32 0) hwstate

theorem zipWith_xor_xor_cancel :
    ∀ {a b : List UInt8}, a.length = b.length →
      List.zipWith (· ^^^ ·) (List.zipWith (· ^^^ ·) a b) a = b
  | [], [], _ => rfl
  | x :: a, y :: b, h => by
    rw [List.zipWith_cons_cons, List.zipWith_cons_cons,
      zipWith_xor_xor_cancel (Nat.succ_inj.mp h), UInt8.xor_comm x y, UInt8.xor_assoc,
      UInt8.xor_self, UInt8.xor_zero]
  | [], _ :: _, h => absurd h (by simp)
  | _ :: _, [], h => absurd h (by simp)

/-- **`VerifyChecksum` detects every error within eight consecutive values**: a valid list of
values, changed only at positions `k, …, k + 7`, fails the checksum. -/
theorem verifyChecksum_window {pfx values values' : List UInt8}
    (hvalid : verifyChecksum pfx values = true) (hv : ∀ x ∈ values, x.toNat < 32)
    (hv' : ∀ x ∈ values', x.toNat < 32) (hlen : values'.length = values.length)
    (hne : values' ≠ values) {k : ℕ} (hwin : ∀ i, i < k ∨ k + 8 ≤ i → values'[i]? = values[i]?) :
    verifyChecksum pfx values' = false := by
  set e := List.zipWith (· ^^^ ·) values values' with he
  have he32 : ∀ z ∈ e, z.toNat < 32 := by
    intro z hz
    obtain ⟨i, hi⟩ := List.mem_iff_getElem?.mp hz
    obtain ⟨x, y, hx, hy, rfl⟩ := List.getElem?_zipWith_eq_some.mp hi
    rw [UInt8.toNat_xor]
    exact Nat.xor_lt_two_pow (n := 5) (hv x (List.mem_of_getElem? hx))
      (hv' y (List.mem_of_getElem? hy))
  have hout : ∀ i z, i < k ∨ k + 8 ≤ i → e[i]? = some z → z = 0 := by
    intro i z hik hi
    obtain ⟨x, y, hx, hy, rfl⟩ := List.getElem?_zipWith_eq_some.mp hi
    rw [hwin i hik, hx] at hy
    rw [Option.some.inj hy, UInt8.xor_self]
  have hene : ∃ z ∈ e, z ≠ 0 := by
    by_contra hsome
    have hall : ∀ z ∈ e, z = 0 := fun z hz => by_contra fun h0 => hsome ⟨z, hz, h0⟩
    refine hne (List.ext_getElem? fun i => ?_)
    rcases Nat.lt_or_ge i values.length with hi | hi
    · obtain ⟨x, hx⟩ : ∃ x, values[i]? = some x := ⟨_, List.getElem?_eq_getElem hi⟩
      obtain ⟨y, hy⟩ : ∃ y, values'[i]? = some y := ⟨_, List.getElem?_eq_getElem (by omega)⟩
      have hei : e[i]? = some (x ^^^ y) := List.getElem?_zipWith_eq_some.mpr ⟨x, y, hx, hy, rfl⟩
      rw [hx, hy, UInt8.xor_eq_zero_iff.mp (hall _ (List.mem_of_getElem? hei))]
    · rw [List.getElem?_eq_none hi, List.getElem?_eq_none (by omega)]
  -- by linearity the state after `values'` is that after `values`, xor that of the error
  have hsplit : (expandPrefix pfx ++ values').foldl polyModStep 1 =
      (List.replicate (expandPrefix pfx).length 0 ++ e).foldl polyModStep 0 ^^^
        (expandPrefix pfx ++ values).foldl polyModStep 1 := by
    have hl : (List.replicate (expandPrefix pfx).length (0 : UInt8) ++ e).length =
        (expandPrefix pfx ++ values).length := by
      rw [List.length_append, List.length_append, List.length_replicate, he, List.length_zipWith,
        hlen, Nat.min_self]
    have h := foldl_polyModStep_xor hl 0 1
    rwa [List.zipWith_append (List.length_replicate ..), zipWith_replicate_zero_xor rfl, he,
      zipWith_xor_xor_cancel hlen.symm, UInt64.zero_xor] at h
  have herr : (List.replicate (expandPrefix pfx).length 0 ++ e).foldl polyModStep 0 ≠ 0 := by
    rw [List.foldl_append, foldl_polyModStep_zeros fun z hz => List.eq_of_mem_replicate hz]
    exact foldl_polyModStep_window he32 hout hene
  have hone : (expandPrefix pfx ++ values).foldl polyModStep 1 = 1 := by
    rwa [verifyChecksum, polyMod, beq_iff_eq, UInt64.xor_eq_zero_iff] at hvalid
  rw [verifyChecksum, polyMod, hsplit, hone, UInt64.xor_assoc, UInt64.xor_self, UInt64.xor_zero]
  exact beq_false_of_ne herr

theorem polyMod_bch_checksum :
    (∀ v : List UInt8, (∀ x ∈ v, x.toNat < 32) →
      (polyMod v ^^^ 1).toNat < 2 ^ 40 ∧
        ∀ c < 2 ^ 40, unpack c = checksumPoly v %ₘ generator ↔ c = (polyMod v ^^^ 1).toNat) ∧
    ∀ pfx values values' : List UInt8, verifyChecksum pfx values = true →
      (∀ x ∈ values, x.toNat < 32) → (∀ x ∈ values', x.toNat < 32) →
      values'.length = values.length → values' ≠ values →
      (∃ k, ∀ i, i < k ∨ k + 8 ≤ i → values'[i]? = values[i]?) →
      verifyChecksum pfx values' = false := by
  refine ⟨fun v hv => ?_, fun pfx values values' hvalid hv hv' hlen hne ⟨k, hwin⟩ =>
    verifyChecksum_window hvalid hv hv' hlen hne hwin⟩
  have hstate : polyMod v ^^^ 1 = v.foldl polyModStep 1 := by
    rw [polyMod, UInt64.xor_assoc, UInt64.xor_self, UInt64.xor_zero]
  have hlt := foldl_polyModStep_one_lt v hv
  rw [hstate]
  refine ⟨hlt, fun c hc => ?_⟩
  rw [← unpack_foldl_polyModStep v hv]
  exact unpack_inj hc hlt

set_option maxRecDepth 20000 in
/-- The test vector `p:gpf8m4h7`, with its first value changed from `8` to `9`. -/
theorem polyMod_bch_checksum_gpf8m4h7 :
    verifyChecksum [112] [9, 1, 9, 7, 27, 21, 23, 30] = false := by
  have hwin : ∀ i, i < 0 ∨ 0 + 8 ≤ i →
      ([9, 1, 9, 7, 27, 21, 23, 30] : List UInt8)[i]? = ([8, 1, 9, 7, 27, 21, 23, 30] : List UInt8)[i]? := by
    intro i hi
    have h8 : 8 ≤ i := by omega
    rw [List.getElem?_eq_none (by simpa using h8), List.getElem?_eq_none (by simpa using h8)]
  exact polyMod_bch_checksum.2 [112] [8, 1, 9, 7, 27, 21, 23, 30] [9, 1, 9, 7, 27, 21, 23, 30]
    (by decide +kernel) (by decide) (by decide) rfl (by decide) ⟨0, hwin⟩

end CashAddr

end BitcoinCash
