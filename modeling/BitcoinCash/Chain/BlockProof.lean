import BitcoinCash.Arith.BaseUintArith

/-!
# The work of a block

`GetBlockProof` (`chain.cpp`) turns the compact target `nBits` of a block into the expected number
of hashes to meet it, `2 ^ 256 / (target + 1)`. It cannot hold `2 ^ 256` in an `arith_uint256`,
so it computes `~target / (target + 1) + 1`: `~target` is `2 ^ 256 - 1 - target`, and adding the
divisor to the dividend adds one to the quotient. A target that `SetCompact` reports negative or
overflowing, or a zero target, has no work.

The division needs `target + 1` not to wrap to `0`. It does not: a target that `SetCompact`
returns without its overflow flag is at most `0xffff * 256 ^ 30`, far below `2 ^ 256 - 1`.
-/

namespace BitcoinCash

/-- `GetBlockProof(block)` on `block.nBits`: `SetCompact`, then `0` for a negative, overflowing
or zero target, and `~bnTarget / (bnTarget + 1) + 1` otherwise. The division is `operator/=`,
which throws on a zero divisor. -/
def getBlockProof (nBits : UInt32) : Except String ArithUint256 :=
  let compact := setCompact nBits
  let bnTarget := compact.1
  let fNegative := compact.2.1
  let fOverflow := compact.2.2
  if fNegative || fOverflow || bnTarget.equalTo 0 then pure (BaseUint.ofUInt64 0)
  else do
    let q ← bnTarget.complement.divAssign (bnTarget.addAssign (BaseUint.ofUInt64 1))
    pure (q.addAssign (BaseUint.ofUInt64 1))

/-! ### The targets `SetCompact` returns -/

/-- Every compact word is a 23-bit mantissa, the sign bit `0x00800000` and an exponent byte. -/
theorem exists_compact_fields (c : UInt32) : ∃ (m e : ℕ) (neg : Bool), m < 2 ^ 23 ∧ e < 256 ∧
    c.toNat = m + (if neg then 2 ^ 23 else 0) + e * 2 ^ 24 := by
  have hc := c.toNat_lt
  refine ⟨c.toNat % 2 ^ 23, c.toNat / 2 ^ 24, decide (c.toNat / 2 ^ 23 % 2 = 1), by omega,
    by omega, ?_⟩
  by_cases hbit : c.toNat / 2 ^ 23 % 2 = 1
  · rw [decide_eq_true hbit, if_pos rfl]
    omega
  · rw [decide_eq_false hbit, if_neg Bool.false_ne_true]
    omega

/-- Without the overflow flag, a target leaves room for one more: the word `w` at byte `e - 3` is
below `2 ^ 23` up to byte `29`, below `2 ^ 16` at byte `30` and below `2 ^ 8` at byte `31`. -/
theorem toNat_setCompact_add_one_lt {c : UInt32} (h : (setCompact c).2.2 = false) :
    (setCompact c).1.toNat + 1 < 2 ^ 256 := by
  obtain ⟨m, e, neg, hm, he, hc⟩ := exists_compact_fields c
  obtain ⟨hval, -, hovf⟩ := setCompact_eq neg hm he hc
  set w := if e ≤ 3 then m / 256 ^ (3 - e) else m with hw
  have hwlt : w < 2 ^ 23 := by
    rw [hw]
    split_ifs
    · exact lt_of_le_of_lt (Nat.div_le_self _ _) hm
    · exact hm
  rw [hovf] at h
  have hle : w * 256 ^ (e - 3) % 2 ^ 256 ≤ w * 256 ^ (e - 3) := Nat.mod_le _ _
  rw [hval]
  by_cases hw0 : w = 0
  · rw [hw0, Nat.zero_mul, Nat.zero_mod]
    norm_num
  · -- the flag is clear, so each of its three conditions fails
    rw [show (w != 0) = true from bne_iff_ne.mpr hw0, Bool.true_and] at h
    simp only [Bool.or_eq_false_iff, Bool.and_eq_false_iff, decide_eq_false_iff_not,
      not_lt] at h
    obtain ⟨⟨he34, h33⟩, h32⟩ := h
    rcases (show e ≤ 32 ∨ e = 33 ∨ e = 34 by omega) with he32 | rfl | rfl
    · calc w * 256 ^ (e - 3) % 2 ^ 256 + 1 ≤ (2 ^ 23 - 1) * 256 ^ 29 + 1 := by
            gcongr
            calc w * 256 ^ (e - 3) % 2 ^ 256 ≤ w * 256 ^ (e - 3) := hle
              _ ≤ (2 ^ 23 - 1) * 256 ^ 29 :=
                Nat.mul_le_mul (by omega) (Nat.pow_le_pow_right (by norm_num) (by omega))
        _ < 2 ^ 256 := by norm_num
    · have hw16 : w ≤ 0xffff := by omega
      calc w * 256 ^ (33 - 3) % 2 ^ 256 + 1 ≤ 0xffff * 256 ^ 30 + 1 := by
            gcongr
            exact hle.trans (Nat.mul_le_mul_right _ hw16)
        _ < 2 ^ 256 := by norm_num
    · have hw8 : w ≤ 0xff := by omega
      calc w * 256 ^ (34 - 3) % 2 ^ 256 + 1 ≤ 0xff * 256 ^ 31 + 1 := by
            gcongr
            exact hle.trans (Nat.mul_le_mul_right _ hw8)
        _ < 2 ^ 256 := by norm_num

/-! ### The division -/

/-- Adding the divisor to the dividend adds one to the quotient: for `t + 1 ≤ N`,
`(N - 1 - t) / (t + 1) + 1 = N / (t + 1)`. -/
theorem two_pow_sub_div_add_one {N t : ℕ} (ht : t + 1 ≤ N) :
    (N - 1 - t) / (t + 1) + 1 = N / (t + 1) := by
  rw [← Nat.add_div_right _ (Nat.succ_pos t), show N - 1 - t + (t + 1) = N by omega]

theorem toNat_ofUInt64_one : (BaseUint.ofUInt64 1 : ArithUint256).toNat = 1 := by
  rw [BaseUint.toNat_ofUInt64 (by norm_num)]
  rfl

/-- `x + 1` in `arith_uint256`, when it fits. -/
theorem toNat_addAssign_one {x : ArithUint256} (hx : x.toNat + 1 < 2 ^ 256) :
    (x.addAssign (BaseUint.ofUInt64 1)).toNat = x.toNat + 1 := by
  rw [BaseUint.toNat_addAssign, toNat_ofUInt64_one, Nat.mod_eq_of_lt hx]

theorem getBlockProof_eq :
    ∀ nBits : UInt32,
      ((setCompact nBits).2.1 = false ∧ (setCompact nBits).2.2 = false ∧
          (setCompact nBits).1.toNat ≠ 0 →
        (setCompact nBits).1.toNat + 1 < 2 ^ 256 ∧
        ((setCompact nBits).1.addAssign (BaseUint.ofUInt64 1)).toNat =
          (setCompact nBits).1.toNat + 1 ∧
        ∃ work, getBlockProof nBits = .ok work ∧
          work.toNat = 2 ^ 256 / ((setCompact nBits).1.toNat + 1)) ∧
      (¬((setCompact nBits).2.1 = false ∧ (setCompact nBits).2.2 = false ∧
          (setCompact nBits).1.toNat ≠ 0) →
        getBlockProof nBits = .ok (BaseUint.ofUInt64 0)) := by
  intro nBits
  have hpow : (2 : ℕ) ^ (32 * 8) = 2 ^ 256 := by norm_num
  constructor
  · rintro ⟨hneg, hovf, ht0⟩
    have hlt := toNat_setCompact_add_one_lt hovf
    have hd := toNat_addAssign_one hlt
    have heq : (setCompact nBits).1.equalTo 0 = false := Bool.eq_false_iff.mpr fun h =>
      ht0 ((BaseUint.equalTo_iff (by norm_num) _ (by norm_num)).mp h)
    -- the divisor `bnTarget + 1` is nonzero, so `operator/=` returns the floor quotient
    obtain ⟨q, hq, hqv⟩ := BaseUint.divAssign_eq_ok (setCompact nBits).1.complement
      (show 0 < ((setCompact nBits).1.addAssign (BaseUint.ofUInt64 1)).toNat by omega)
    rw [BaseUint.toNat_complement, hd, hpow] at hqv
    have hqlt : q.toNat + 1 < 2 ^ 256 := by
      have := Nat.div_le_self (2 ^ 256 - 1 - (setCompact nBits).1.toNat)
        ((setCompact nBits).1.toNat + 1)
      omega
    refine ⟨hlt, hd, q.addAssign (BaseUint.ofUInt64 1), ?_, ?_⟩
    · rw [getBlockProof, hneg, hovf, heq, hq]
      rfl
    · rw [toNat_addAssign_one hqlt, hqv]
      exact two_pow_sub_div_add_one hlt.le
  · intro hbad
    have hcond : ((setCompact nBits).2.1 || (setCompact nBits).2.2 ||
        (setCompact nBits).1.equalTo 0) = true := by
      rw [Bool.or_eq_true, Bool.or_eq_true, BaseUint.equalTo_iff (by norm_num) _ (by norm_num)]
      by_contra hgood
      rw [not_or, not_or] at hgood
      exact hbad ⟨Bool.eq_false_iff.mpr hgood.1.1, Bool.eq_false_iff.mpr hgood.1.2, hgood.2⟩
    rw [getBlockProof, if_pos hcond]
    rfl

theorem getBlockProof_eq_genesis_bits :
    (setCompact 0x1d00ffff).2.1 = false ∧ (setCompact 0x1d00ffff).2.2 = false ∧
      (setCompact 0x1d00ffff).1.toNat ≠ 0 ∧
      ∃ work, getBlockProof 0x1d00ffff = .ok work ∧
        work.toNat = 2 ^ 256 / ((setCompact 0x1d00ffff).1.toNat + 1) := by
  have hgood : (setCompact 0x1d00ffff).2.1 = false ∧ (setCompact 0x1d00ffff).2.2 = false ∧
      (setCompact 0x1d00ffff).1.toNat ≠ 0 := by decide
  exact ⟨hgood.1, hgood.2.1, hgood.2.2, ((getBlockProof_eq 0x1d00ffff).1 hgood).2.2⟩

end BitcoinCash
