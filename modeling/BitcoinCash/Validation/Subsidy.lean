import BitcoinCash.Data.EpochSum
import BitcoinCash.Coins.Coin

/-!
# The block subsidy

`GetBlockSubsidy` pays 50 `COIN` at first and halves the amount, by a right shift of the number
of satoshis, every `nSubsidyHalvingInterval` blocks; from 64 halvings on, where the shift is
undefined, it pays nothing. What it pays in halving epoch `k` is `50 * COIN / 2 ^ k`, rounded
down (`getBlockSubsidy_eq_epochSubsidy`), which is already `0` from epoch 33 on: the guard at 64
changes no value. The subsidy is then a quantity constant over epochs (`EpochSum`), and summed
over any number of heights it is at most the interval times 9999999989 satoshis, which stays
within `MAX_MONEY` for an interval of at most 210000 blocks.
-/

namespace BitcoinCash

/-- `COIN`, in satoshis. -/
def coin : ℤ := 100000000

/-- `GetBlockSubsidy(nHeight, consensusParams)`, for heights `nHeight ≥ 0`, where `int` division
is the floor, and with amounts in satoshis, so that `/ SATOSHI` and `* SATOSHI` drop out. -/
def getBlockSubsidy (nHeight nSubsidyHalvingInterval : ℕ) : ℤ :=
  let halvings := nHeight / nSubsidyHalvingInterval
  -- Force block reward to zero when right shift is undefined.
  if halvings ≥ 64 then 0
  else
    let nSubsidy := 50 * coin
    nSubsidy >>> halvings

/-- What a block of halving epoch `k` is paid: 50 `COIN` halved `k` times, rounding down. -/
def epochSubsidy (k : ℕ) : ℤ := ((5000000000 / 2 ^ k : ℕ) : ℤ)

section Epochs

theorem epochSubsidy_nonneg (k : ℕ) : 0 ≤ epochSubsidy k := Int.natCast_nonneg _

theorem epochSubsidy_le (k : ℕ) : epochSubsidy k ≤ 50 * coin := by
  rw [epochSubsidy, coin]
  exact_mod_cast Nat.div_le_self 5000000000 (2 ^ k)

theorem epochSubsidy_succ (k : ℕ) : epochSubsidy (k + 1) = epochSubsidy k / 2 := by
  rw [epochSubsidy, epochSubsidy, pow_succ, ← Nat.div_div_eq_div_mul, Int.natCast_ediv]
  rfl

/-- 50 `COIN` is below `2 ^ 33`: from 33 halvings on nothing is left. -/
theorem epochSubsidy_eq_zero {k : ℕ} (hk : 33 ≤ k) : epochSubsidy k = 0 := by
  have hlt : 5000000000 < 2 ^ k :=
    lt_of_lt_of_le (by omega : 5000000000 < 2 ^ 33) (Nat.pow_le_pow_right (by omega) hk)
  rw [epochSubsidy, Nat.div_eq_of_lt hlt, Nat.cast_zero]

/-- One block of each epoch until nothing is left is paid 9999999989 satoshis. -/
theorem sum_epochSubsidy : ∑ k ∈ Finset.range 33, epochSubsidy k = 9999999989 := by
  decide

end Epochs

section Subsidy

variable {nSubsidyHalvingInterval : ℕ}

/-- The subsidy of a block is the subsidy of its halving epoch: the right shift is the division
by `2 ^ halvings`, and the guard at 64 halvings returns what the division gives there too. -/
theorem getBlockSubsidy_eq_epochSubsidy (nHeight nSubsidyHalvingInterval : ℕ) :
    getBlockSubsidy nHeight nSubsidyHalvingInterval =
      epochSubsidy (nHeight / nSubsidyHalvingInterval) := by
  rw [getBlockSubsidy]
  split_ifs with hhalvings
  · exact (epochSubsidy_eq_zero (by omega)).symm
  · rw [coin, Int.shiftRight_eq_div_pow, epochSubsidy, ← Int.ofNat_ediv_ofNat]
    rfl

/-- One interval later the subsidy is halved, rounding down. -/
theorem getBlockSubsidy_add (hpos : 0 < nSubsidyHalvingInterval) (nHeight : ℕ) :
    getBlockSubsidy (nHeight + nSubsidyHalvingInterval) nSubsidyHalvingInterval =
      getBlockSubsidy nHeight nSubsidyHalvingInterval / 2 := by
  rw [getBlockSubsidy_eq_epochSubsidy, getBlockSubsidy_eq_epochSubsidy, Nat.add_div_right _ hpos,
    epochSubsidy_succ]

/-- Summed over any number of heights, the subsidy is at most the interval times 9999999989
satoshis. -/
theorem sum_getBlockSubsidy_le (hpos : 0 < nSubsidyHalvingInterval) (n : ℕ) :
    ∑ h ∈ Finset.range n, getBlockSubsidy h nSubsidyHalvingInterval ≤
      nSubsidyHalvingInterval * 9999999989 := by
  have hle := EpochSum.sum_range_div_le hpos epochSubsidy_nonneg
    (fun _ hk => epochSubsidy_eq_zero hk) n
  rw [sum_epochSubsidy, nsmul_eq_mul] at hle
  simpa only [getBlockSubsidy_eq_epochSubsidy] using hle

/-- From 33 intervals on, the subsidy summed over the heights is the interval times 9999999989
satoshis. -/
theorem sum_getBlockSubsidy_eq (hpos : 0 < nSubsidyHalvingInterval) {n : ℕ}
    (hn : 33 * nSubsidyHalvingInterval ≤ n) :
    ∑ h ∈ Finset.range n, getBlockSubsidy h nSubsidyHalvingInterval =
      nSubsidyHalvingInterval * 9999999989 := by
  have heq := EpochSum.sum_range_div_eq hpos (fun _ hk => epochSubsidy_eq_zero hk)
    (show nSubsidyHalvingInterval * 33 ≤ n by rw [Nat.mul_comm]; exact hn)
  rw [sum_epochSubsidy, nsmul_eq_mul] at heq
  simpa only [getBlockSubsidy_eq_epochSubsidy] using heq

end Subsidy

/-- The block subsidy never exceeds the money supply, for every halving interval of at least one
and at most 210000 blocks: summed over the heights below any `n` it is at most `MAX_MONEY`; each
block is paid at most 50 `COIN`, one interval later half of it, rounding down, and nothing from
64 halvings on. With the main-net interval, the sum reaches 2099999997690000 satoshis. -/
theorem getBlockSubsidy_within_maxMoney (nSubsidyHalvingInterval : ℕ)
    (hpos : 1 ≤ nSubsidyHalvingInterval) (hle : nSubsidyHalvingInterval ≤ 210000) :
    (∀ n, ∑ h ∈ Finset.range n, getBlockSubsidy h nSubsidyHalvingInterval ≤ maxMoney) ∧
    (∀ nHeight, 0 ≤ getBlockSubsidy nHeight nSubsidyHalvingInterval ∧
      getBlockSubsidy nHeight nSubsidyHalvingInterval ≤ 50 * coin) ∧
    (∀ nHeight, getBlockSubsidy (nHeight + nSubsidyHalvingInterval) nSubsidyHalvingInterval =
      getBlockSubsidy nHeight nSubsidyHalvingInterval / 2) ∧
    (∀ nHeight, 64 ≤ nHeight / nSubsidyHalvingInterval →
      getBlockSubsidy nHeight nSubsidyHalvingInterval = 0) ∧
    ∀ n, 64 * 210000 ≤ n → ∑ h ∈ Finset.range n, getBlockSubsidy h 210000 = 2099999997690000 := by
  refine ⟨fun n => ?_, fun nHeight => ?_, getBlockSubsidy_add hpos, fun nHeight hhalvings => ?_,
    fun n hn => ?_⟩
  · have hsum := sum_getBlockSubsidy_le hpos n
    rw [maxMoney]
    omega
  · rw [getBlockSubsidy_eq_epochSubsidy]
    exact ⟨epochSubsidy_nonneg _, epochSubsidy_le _⟩
  · rw [getBlockSubsidy_eq_epochSubsidy, epochSubsidy_eq_zero (by omega)]
  · rw [sum_getBlockSubsidy_eq (by omega) (by omega)]
    rfl

theorem getBlockSubsidy_within_maxMoney_regtest :
    (1 ≤ 150 ∧ 150 ≤ 210000) ∧
      ∀ n, ∑ h ∈ Finset.range n, getBlockSubsidy h 150 ≤ maxMoney :=
  ⟨⟨by omega, by omega⟩, (getBlockSubsidy_within_maxMoney 150 (by omega) (by omega)).1⟩

end BitcoinCash
