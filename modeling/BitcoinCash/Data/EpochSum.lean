import Mathlib.Algebra.Order.BigOperators.Group.Finset

/-!
# Sums of a quantity that is constant over epochs

A quantity paid at every height `h` that depends only on the epoch `h / I`, for epochs of a fixed
length `I`, sums over the first `m` epochs to `I` times the sum of its values per epoch
(`sum_range_mul_div`). When the values per epoch vanish from epoch `N` on, the sum over any
number of heights from `I * N` on is `I` times the sum of the first `N` values
(`sum_range_div_eq`), and, the values being nonnegative, the sum over fewer heights is at most
that (`sum_range_div_le`).
-/

namespace EpochSum

open Finset

variable {M : Type*} [AddCommMonoid M] {f : ℕ → M} {I N : ℕ}

/-- The heights of the first `m` epochs of length `I` pay `I` times each epoch's value. -/
theorem sum_range_mul_div (f : ℕ → M) (I : ℕ) :
    ∀ m, ∑ h ∈ range (I * m), f (h / I) = I • ∑ k ∈ range m, f k
  | 0 => by rw [Nat.mul_zero, range_zero, sum_empty, sum_empty, nsmul_zero]
  | m + 1 => by
    -- the epoch `m` is the heights `I * m + x` with `x < I`
    have hepoch : ∀ x ∈ range I, f ((I * m + x) / I) = f m := by
      intro x hx
      have hx : x < I := mem_range.mp hx
      rw [Nat.mul_add_div (Nat.zero_lt_of_lt hx), Nat.div_eq_of_lt hx, Nat.add_zero]
    rw [Nat.mul_succ, sum_range_add, sum_range_mul_div f I m, sum_congr rfl hepoch, sum_const,
      card_range, sum_range_succ, nsmul_add]

/-- From height `I * N` on, when the values vanish from epoch `N` on, the heights pay `I` times
the values of the first `N` epochs. -/
theorem sum_range_div_eq (hI : 0 < I) (hzero : ∀ k, N ≤ k → f k = 0) {n : ℕ} (hn : I * N ≤ n) :
    ∑ h ∈ range n, f (h / I) = I • ∑ k ∈ range N, f k := by
  rw [← sum_range_mul_div f I N]
  refine (sum_subset (range_subset_range.mpr hn) fun h _ hh => hzero _ ?_).symm
  -- a height past the first `N` epochs is in a later epoch
  rw [mem_range, not_lt] at hh
  exact (Nat.le_div_iff_mul_le hI).mpr (by rw [Nat.mul_comm]; exact hh)

section Ordered

variable [PartialOrder M] [IsOrderedAddMonoid M]

/-- Nonnegative values that vanish from `N` on sum, over any range, to at most their first `N`. -/
theorem sum_range_le_of_eq_zero (hf : ∀ k, 0 ≤ f k) (hzero : ∀ k, N ≤ k → f k = 0) (m : ℕ) :
    ∑ k ∈ range m, f k ≤ ∑ k ∈ range N, f k := by
  rcases le_total m N with hmN | hNm
  · exact sum_le_sum_of_subset_of_nonneg (range_subset_range.mpr hmN) fun k _ _ => hf k
  · refine le_of_eq (sum_subset (range_subset_range.mpr hNm) fun k _ hk => hzero k ?_).symm
    rwa [mem_range, not_lt] at hk

/-- Over any number of heights, nonnegative values that vanish from epoch `N` on pay at most `I`
times the values of the first `N` epochs. -/
theorem sum_range_div_le (hI : 0 < I) (hf : ∀ k, 0 ≤ f k) (hzero : ∀ k, N ≤ k → f k = 0)
    (n : ℕ) : ∑ h ∈ range n, f (h / I) ≤ I • ∑ k ∈ range N, f k :=
  calc ∑ h ∈ range n, f (h / I)
      ≤ ∑ h ∈ range (I * n), f (h / I) :=
        sum_le_sum_of_subset_of_nonneg (range_subset_range.mpr (Nat.le_mul_of_pos_left n hI))
          fun _ _ _ => hf _
    _ = I • ∑ k ∈ range n, f k := sum_range_mul_div f I n
    _ ≤ I • ∑ k ∈ range N, f k := nsmul_le_nsmul_right (sum_range_le_of_eq_zero hf hzero n) I

end Ordered

end EpochSum
