import BitcoinCash.Coins.Coin

/-!
# Amount compression

`CompressAmount` (`compressor.cpp`) writes an amount of satoshis as a smaller number for the
coins database. It strips up to nine trailing decimal zeros, counting them in `e`; below nine
it also drops the last digit `d` left, which is then not zero, and writes what remains, `n`, as
`1 + 10 * (9 * n + d - 1) + e`; with nine zeros stripped it writes `1 + 10 * (n - 1) + 9`.
`DecompressAmount` reads `e` and `d` back from the last digit and the remainder by nine. Both
compute in `uint64_t`.

The code of a nonzero amount is the pair of the amount with its trailing zeros stripped and
their number, in a normal form: fewer than nine zeros leave a last digit that is not zero
(`eq_of_mul_pow_ten_eq`). `amountCode` is that code in `ℕ` and `decompressedValue` the value
`n * 10 ^ e` `DecompressAmount` computes from a code in `ℕ`; they are inverse on normal forms
(`decompressedValue_amountCode`, `amountCode_of_decompressedValue`), and the machine functions
compute them wherever nothing wraps.
-/

namespace BitcoinCash

/-! ### The source functions -/

/-- The loop `while (((n % 10) == 0) && e < 9) { n /= 10; e++; }` of `CompressAmount`, run
for at most `k = 9 - e` more iterations. -/
def stripZeros (n : UInt64) (e : ℕ) : ℕ → UInt64 × ℕ
  | 0 => (n, e)
  | k + 1 => if n % 10 = 0 then stripZeros (n / 10) (e + 1) k else (n, e)

/-- `CompressAmount`: `amt / SATOSHI` is the `int64_t` number of satoshis, read as a
`uint64_t`. -/
def compressAmount (amt : Int64) : UInt64 :=
  let n := amt.toUInt64
  if n = 0 then 0
  else
    let (n, e) := stripZeros n 0 9
    if e < 9 then
      let d := n % 10
      let n := n / 10
      1 + (n * 9 + d - 1) * 10 + UInt64.ofNat e
    else 1 + (n - 1) * 10 + 9

/-- The loop `while (e) { n *= 10; e--; }` of `DecompressAmount`. -/
def mulPow10 : ℕ → UInt64 → UInt64
  | 0, n => n
  | e + 1, n => mulPow10 e (n * 10)

/-- `DecompressAmount`: `int64_t(n) * SATOSHI` reads the `uint64_t` result as an amount. -/
def decompressAmount (x : UInt64) : Int64 :=
  if x = 0 then 0
  else
    let x := x - 1
    let e := (x % 10).toNat
    let x := x / 10
    let n :=
      if e < 9 then
        let d := x % 9 + 1
        let x := x / 9
        x * 10 + d
      else x + 1
    (mulPow10 e n).toInt64

/-! ### The code in `ℕ` -/

/-- The code `CompressAmount` writes for the stripped amount `n` and its `e` stripped zeros. -/
def amountCode (n e : ℕ) : ℕ :=
  if e < 9 then 1 + (n / 10 * 9 + n % 10 - 1) * 10 + e else 1 + (n - 1) * 10 + 9

/-- The value `n * 10 ^ e` that `DecompressAmount` computes from the code `x`, in `ℕ`. -/
def decompressedValue (x : ℕ) : ℕ :=
  if x = 0 then 0
  else
    let e := (x - 1) % 10
    let q := (x - 1) / 10
    (if e < 9 then q / 9 * 10 + (q % 9 + 1) else q + 1) * 10 ^ e

/-- Stripping zeros is unique: two ways of writing a number as `m * 10 ^ j` with `j ≤ K`, each
with a last digit that is not zero unless `j = K`, are the same. -/
theorem eq_of_mul_pow_ten_eq {m m' j j' K : ℕ} (hj : j ≤ K) (hj' : j' ≤ K)
    (hd : m % 10 ≠ 0 ∨ j = K) (hd' : m' % 10 ≠ 0 ∨ j' = K) (h : m * 10 ^ j = m' * 10 ^ j') :
    m = m' ∧ j = j' := by
  -- more zeros on one side would leave a last digit zero on the other
  have hlt : ∀ {a b i i' : ℕ}, i < i' → a * 10 ^ i = b * 10 ^ i' → a % 10 = 0 := by
    intro a b i i' hii' hab
    have ha : a = b * 10 ^ (i' - i - 1) * 10 := by
      have hpow : 10 ^ i' = 10 ^ (i' - i - 1) * 10 * 10 ^ i := by
        rw [← pow_succ, ← pow_add]
        congr 1
        omega
      rw [hpow, ← mul_assoc, ← mul_assoc] at hab
      exact (Nat.eq_of_mul_eq_mul_right (by positivity) hab)
    rw [ha, Nat.mul_mod_left]
  rcases Nat.lt_trichotomy j j' with hlt' | rfl | hgt
  · exact absurd (hlt hlt' h) (hd.resolve_right (by omega))
  · exact ⟨Nat.eq_of_mul_eq_mul_right (by positivity) h, rfl⟩
  · exact absurd (hlt hgt h.symm) (hd'.resolve_right (by omega))

theorem decompressedValue_amountCode {n e : ℕ} (hn : 0 < n) (he : e ≤ 9)
    (hd : n % 10 ≠ 0 ∨ e = 9) : decompressedValue (amountCode n e) = n * 10 ^ e := by
  rw [amountCode]
  split_ifs with he9
  · -- the last digit `d` and the rest `n / 10` come back from the remainder and quotient by 9
    have hd' : n % 10 ≠ 0 := hd.resolve_right (by omega)
    have hq : (n / 10 * 9 + n % 10 - 1) / 9 * 10 + ((n / 10 * 9 + n % 10 - 1) % 9 + 1) = n := by
      omega
    rw [decompressedValue, if_neg (by omega)]
    dsimp only
    rw [show (1 + (n / 10 * 9 + n % 10 - 1) * 10 + e - 1) % 10 = e by omega,
      show (1 + (n / 10 * 9 + n % 10 - 1) * 10 + e - 1) / 10 = n / 10 * 9 + n % 10 - 1 by omega,
      if_pos he9, hq]
  · rw [decompressedValue, if_neg (by omega)]
    dsimp only
    rw [show (1 + (n - 1) * 10 + 9 - 1) % 10 = 9 by omega,
      show (1 + (n - 1) * 10 + 9 - 1) / 10 = n - 1 by omega, if_neg (by omega),
      show e = 9 by omega, Nat.sub_add_cancel hn]

/-- Every nonzero code is the code of the normal form its value is computed from. -/
theorem amountCode_of_decompressedValue {x : ℕ} (hx : x ≠ 0) :
    ∃ n e, decompressedValue x = n * 10 ^ e ∧ 0 < n ∧ e ≤ 9 ∧ (n % 10 ≠ 0 ∨ e = 9) ∧
      amountCode n e = x := by
  rw [decompressedValue, if_neg hx]
  dsimp only
  split_ifs with he
  · refine ⟨_, _, rfl, by omega, by omega, .inl (by omega), ?_⟩
    rw [amountCode, if_pos he]
    omega
  · refine ⟨_, _, rfl, by omega, by omega, .inr (by omega), ?_⟩
    rw [amountCode, if_neg (by omega)]
    omega

/-! ### The machine functions compute the code and the value -/

/-- The loop strips `j ≤ k` zeros and stops at a last digit that is not zero or after `k`. -/
theorem stripZeros_spec (n : UInt64) (e k : ℕ) :
    ∃ j ≤ k, (stripZeros n e k).2 = e + j ∧ n.toNat = (stripZeros n e k).1.toNat * 10 ^ j ∧
      ((stripZeros n e k).1.toNat % 10 ≠ 0 ∨ j = k) := by
  induction k generalizing n e with
  | zero => exact ⟨0, le_rfl, rfl, by simp [stripZeros], .inr rfl⟩
  | succ k ih =>
    rw [stripZeros]
    split_ifs with hzero
    · -- one zero stripped here, the others by the rest of the loop
      have hzero' : n.toNat % 10 = 0 := by simpa [← UInt64.toNat_inj] using hzero
      obtain ⟨j, hj, he, hn, hd⟩ := ih (n / 10) (e + 1)
      refine ⟨j + 1, by omega, by omega, ?_, hd.imp_right (by omega)⟩
      rw [UInt64.toNat_div] at hn
      rw [pow_succ, ← mul_assoc, ← hn]
      simp only [UInt64.toNat_ofNat, Nat.reducePow, Nat.reduceMod]
      omega
    · refine ⟨0, by omega, rfl, by simp, .inl ?_⟩
      simpa [← UInt64.toNat_inj] using hzero

theorem toNat_mulPow10 (e : ℕ) (n : UInt64) : (mulPow10 e n).toNat = n.toNat * 10 ^ e % 2 ^ 64 := by
  induction e generalizing n with
  | zero => simp [mulPow10, Nat.mod_eq_of_lt n.toNat_lt]
  | succ e ih =>
    have h10 : (10 : UInt64).toNat = 10 := rfl
    rw [mulPow10, ih, UInt64.toNat_mul, Nat.mod_mul_mod, h10, pow_succ' 10 e, mul_assoc]

/-- `CompressAmount` computes `amountCode` of the stripped amount when the code fits in
`uint64_t`. -/
theorem toNat_compressAmount {amt : Int64} (h0 : amt.toUInt64 ≠ 0)
    (hfit : amountCode (stripZeros amt.toUInt64 0 9).1.toNat (stripZeros amt.toUInt64 0 9).2 <
      2 ^ 64) :
    (compressAmount amt).toNat =
      amountCode (stripZeros amt.toUInt64 0 9).1.toNat (stripZeros amt.toUInt64 0 9).2 := by
  obtain ⟨j, hj, he, hn, hd⟩ := stripZeros_spec amt.toUInt64 0 9
  rw [compressAmount, if_neg h0]
  generalize stripZeros amt.toUInt64 0 9 = p at he hn hd hfit ⊢
  obtain ⟨m, e⟩ := p
  dsimp only at he hn hd hfit ⊢
  have hm : 0 < m.toNat := by
    rcases Nat.eq_zero_or_pos m.toNat with hz | hz
    · exact absurd (UInt64.toNat_inj.mp (by simp [hn, hz])) h0
    · exact hz
  have hmlt := m.toNat_lt
  rw [amountCode] at hfit ⊢
  split_ifs at hfit ⊢ with he9
  · -- the dropped digit is not zero, so `9 * n + d - 1` does not wrap
    have hd' : m.toNat % 10 ≠ 0 := hd.resolve_right (by omega)
    have hsub : (1 : UInt64) ≤ m / 10 * 9 + m % 10 := by
      rw [UInt64.le_iff_toNat_le, UInt64.toNat_add, UInt64.toNat_mul, UInt64.toNat_div,
        UInt64.toNat_mod]
      simp only [UInt64.toNat_ofNat, Nat.reducePow, Nat.reduceMod]
      omega
    rw [UInt64.toNat_add, UInt64.toNat_add, UInt64.toNat_mul, UInt64.toNat_sub_of_le _ _ hsub,
      UInt64.toNat_add, UInt64.toNat_mul, UInt64.toNat_div, UInt64.toNat_mod, UInt64.toNat_ofNat']
    simp only [UInt64.toNat_ofNat, Nat.reducePow, Nat.reduceMod]
    omega
  · have hsub : (1 : UInt64) ≤ m := by
      rw [UInt64.le_iff_toNat_le, UInt64.toNat_one]
      omega
    rw [UInt64.toNat_add, UInt64.toNat_add, UInt64.toNat_mul, UInt64.toNat_sub_of_le _ _ hsub]
    simp only [UInt64.toNat_ofNat, Nat.reducePow, Nat.reduceMod]
    omega

/-- `DecompressAmount` computes `decompressedValue`, modulo `2 ^ 64`. -/
theorem toNat_decompressAmount (x : UInt64) :
    (decompressAmount x).toUInt64.toNat = decompressedValue x.toNat % 2 ^ 64 := by
  have hx := x.toNat_lt
  rw [decompressAmount, decompressedValue]
  by_cases h0 : x = 0
  · subst h0
    rfl
  have h0' : x.toNat ≠ 0 := fun h => h0 (UInt64.toNat_inj.mp (by simp [h]))
  have hsub : (1 : UInt64) ≤ x := by
    rw [UInt64.le_iff_toNat_le]
    simp only [UInt64.toNat_one]
    omega
  rw [if_neg h0, if_neg h0']
  dsimp only
  rw [UInt64.toInt64, Int64.toUInt64, toNat_mulPow10, UInt64.toNat_mod,
    UInt64.toNat_sub_of_le _ _ hsub]
  simp only [UInt64.toNat_ofNat, Nat.reducePow, Nat.reduceMod]
  split_ifs with he
  · rw [UInt64.toNat_add, UInt64.toNat_mul, UInt64.toNat_div, UInt64.toNat_add,
      UInt64.toNat_mod, UInt64.toNat_div, UInt64.toNat_sub_of_le _ _ hsub]
    simp only [UInt64.toNat_ofNat, Nat.reducePow, Nat.reduceMod]
    congr 2
    omega
  · rw [UInt64.toNat_add, UInt64.toNat_div, UInt64.toNat_sub_of_le _ _ hsub]
    simp only [UInt64.toNat_ofNat, Nat.reducePow, Nat.reduceMod]
    congr 2
    omega

/-! ### Round trips -/

/-- An amount below `2 ^ 63` whose code is given back by `DecompressAmount`: the code's value
is the amount. -/
theorem decompressAmount_eq_of_value {x : UInt64} {a : Int64} (ha : 0 ≤ a.toInt)
    (h : decompressedValue x.toNat = a.toInt.toNat) : decompressAmount x = a := by
  rw [← Int64.toInt64_toUInt64 a, ← Int64.toInt64_toUInt64 (decompressAmount x)]
  congr 1
  apply UInt64.toNat_inj.mp
  rw [toNat_decompressAmount, h, Int64.toNat_toUInt64_of_le (Int64.le_iff_toInt_le.mpr ha)]
  exact Nat.mod_eq_of_lt (lt_trans (Int64.toNatClampNeg_lt a) (by norm_num))

/-- Every amount in `[0, MAX_MONEY]` is given back by its code. -/
theorem decompressAmount_compressAmount {a : Int64} (h0 : 0 ≤ a.toInt) (hmax : a.toInt ≤ maxMoney) :
    decompressAmount (compressAmount a) = a := by
  have hmax' : a.toInt.toNat ≤ 21000000 * 100000000 := by rw [maxMoney] at hmax; omega
  have hN : a.toUInt64.toNat = a.toInt.toNat :=
    Int64.toNat_toUInt64_of_le (Int64.le_iff_toInt_le.mpr h0)
  by_cases hz : a.toUInt64 = 0
  · -- the amount zero has the code zero
    apply decompressAmount_eq_of_value h0
    rw [compressAmount, if_pos hz, ← hN, hz]
    rfl
  · obtain ⟨j, hj, he, hn, hd⟩ := stripZeros_spec a.toUInt64 0 9
    have hm : 0 < (stripZeros a.toUInt64 0 9).1.toNat := by
      rcases Nat.eq_zero_or_pos (stripZeros a.toUInt64 0 9).1.toNat with h | h
      · exact absurd (UInt64.toNat_inj.mp (by simp [hn, h])) hz
      · exact h
    have hfit : amountCode (stripZeros a.toUInt64 0 9).1.toNat (stripZeros a.toUInt64 0 9).2 <
        2 ^ 64 := by
      have hle : (stripZeros a.toUInt64 0 9).1.toNat ≤ a.toInt.toNat := by
        rw [← hN, hn]
        exact Nat.le_mul_of_pos_right _ (by positivity)
      rw [amountCode]
      split_ifs <;> omega
    apply decompressAmount_eq_of_value h0
    rw [toNat_compressAmount hz hfit, he, zero_add,
      decompressedValue_amountCode hm hj (hd.imp_right id), ← hn, hN]

/-- Every code whose value is below `2 ^ 63` is the code of its value. -/
theorem compressAmount_decompressAmount {x : UInt64} (hx : decompressedValue x.toNat < 2 ^ 63) :
    compressAmount (decompressAmount x) = x := by
  by_cases hz : x = 0
  · subst hz
    rfl
  -- the value of a nonzero code is a normal form, which `CompressAmount` strips back
  have hx0 : x.toNat ≠ 0 := fun h => hz (UInt64.toNat_inj.mp (by simp [h]))
  obtain ⟨n, e, hv, hn, he, hd, hcode⟩ := amountCode_of_decompressedValue hx0
  have hV : (decompressAmount x).toUInt64.toNat = n * 10 ^ e := by
    rw [toNat_decompressAmount, Nat.mod_eq_of_lt (by omega), hv]
  have hz' : (decompressAmount x).toUInt64 ≠ 0 := by
    intro h
    rw [h, UInt64.toNat_zero] at hV
    exact absurd hV.symm (Nat.pos_iff_ne_zero.mp (by positivity))
  obtain ⟨j, hj, he', hm, hd'⟩ := stripZeros_spec (decompressAmount x).toUInt64 0 9
  obtain ⟨hmn, rfl⟩ := eq_of_mul_pow_ten_eq hj he hd' hd (hm.symm.trans hV)
  have hfit : amountCode (stripZeros (decompressAmount x).toUInt64 0 9).1.toNat
      (stripZeros (decompressAmount x).toUInt64 0 9).2 < 2 ^ 64 := by
    rw [he', zero_add, hmn, hcode]
    exact x.toNat_lt
  apply UInt64.toNat_inj.mp
  rw [toNat_compressAmount hz' hfit, he', zero_add, hmn, hcode]

theorem compressAmount_roundtrip :
    (∀ a : Int64, 0 ≤ a.toInt → a.toInt ≤ maxMoney → decompressAmount (compressAmount a) = a) ∧
    (∀ x : UInt64, decompressedValue x.toNat < 2 ^ 63 →
      compressAmount (decompressAmount x) = x) ∧
    (∀ x y : UInt64, decompressedValue x.toNat < 2 ^ 63 → decompressedValue y.toNat < 2 ^ 63 →
      decompressAmount x = decompressAmount y → x = y) := by
  refine ⟨fun a h0 hmax => decompressAmount_compressAmount h0 hmax,
    fun x hx => compressAmount_decompressAmount hx, fun x y hx hy hxy => ?_⟩
  -- the code of an amount is the one `CompressAmount` writes for it
  rw [← compressAmount_decompressAmount hx, ← compressAmount_decompressAmount hy, hxy]

/-- One `COIN` has the code 9, and the code 9 is one `COIN`. -/
theorem compressAmount_roundtrip_coin :
    decompressAmount (compressAmount 100000000) = 100000000 ∧
      compressAmount (decompressAmount 9) = 9 ∧ decompressedValue 9 < 2 ^ 63 :=
  ⟨compressAmount_roundtrip.1 100000000 (by decide) (by decide),
    compressAmount_roundtrip.2.1 9 (by decide), by decide⟩

example : compressAmount 100000000 = 9 := by decide

end BitcoinCash
