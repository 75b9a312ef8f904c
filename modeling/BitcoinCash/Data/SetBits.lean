import Mathlib.Data.Nat.Bitwise

/-!
# The set bits of a number, in increasing order

`setBitsFrom v w k` lists the positions `i` with `k ≤ i < w` at which `v` has a set bit. A loop
that scans for the next set bit from `k` stops at the head of that list, and from one past it
the list is the tail (`setBitsFrom_eq_cons`); when the list is empty and `v` has no bit from `w`
on, no bit of `v` from `k` on is set (`testBit_of_setBitsFrom_eq_nil`). So a loop that takes the
set bits one after the other walks down the list.
-/

namespace SetBits

/-- The positions `i` with `k ≤ i < w` at which `v` has a set bit, in increasing order. -/
def setBitsFrom (v w k : ℕ) : List ℕ := (List.range' k (w - k)).filter fun i => v.testBit i

variable {v w : ℕ}

theorem setBitsFrom_of_le {k : ℕ} (h : w ≤ k) : setBitsFrom v w k = [] := by
  rw [setBitsFrom, Nat.sub_eq_zero_of_le h, List.range'_zero, List.filter_nil]

/-- One step of the scan: the bit at `k`, then the bits from `k + 1`. -/
theorem setBitsFrom_of_lt {k : ℕ} (h : k < w) :
    setBitsFrom v w k =
      if v.testBit k then k :: setBitsFrom v w (k + 1) else setBitsFrom v w (k + 1) := by
  have hlen : w - k = w - (k + 1) + 1 := by omega
  rw [setBitsFrom, hlen, List.range'_succ, List.filter_cons]
  rfl

theorem mem_setBitsFrom {k j : ℕ} : j ∈ setBitsFrom v w k ↔ k ≤ j ∧ j < w ∧ v.testBit j := by
  rw [setBitsFrom, List.mem_filter, List.mem_range'_1]
  constructor
  · rintro ⟨⟨hk, hw⟩, hbit⟩
    exact ⟨hk, by omega, hbit⟩
  · rintro ⟨hk, hw, hbit⟩
    exact ⟨⟨hk, by omega⟩, hbit⟩

/-- The head of the list is the first set bit from `k`, and the tail the bits after it. -/
theorem setBitsFrom_eq_cons {k j : ℕ} {l : List ℕ} (h : setBitsFrom v w k = j :: l) :
    k ≤ j ∧ j < w ∧ v.testBit j ∧ (∀ m, k ≤ m → m < j → v.testBit m = false) ∧
      setBitsFrom v w (j + 1) = l := by
  -- induction on the number of positions left to scan
  suffices hscan : ∀ d k, w - k = d → setBitsFrom v w k = j :: l →
      k ≤ j ∧ j < w ∧ v.testBit j ∧ (∀ m, k ≤ m → m < j → v.testBit m = false) ∧
        setBitsFrom v w (j + 1) = l from hscan _ k rfl h
  intro d
  induction d with
  | zero =>
    intro k hd h
    rw [setBitsFrom_of_le (by omega)] at h
    cases h
  | succ d ih =>
    intro k hd h
    rw [setBitsFrom_of_lt (by omega)] at h
    by_cases hbit : v.testBit k
    · -- the scan stops at `k`
      rw [if_pos hbit, List.cons.injEq] at h
      obtain ⟨rfl, rfl⟩ := h
      exact ⟨le_rfl, by omega, hbit, fun m hm hmj => absurd hmj (Nat.not_lt.mpr hm), rfl⟩
    · -- the scan goes on past `k`
      rw [if_neg hbit] at h
      obtain ⟨hk, hw, hj, hbelow, hrest⟩ := ih (k + 1) (by omega) h
      refine ⟨by omega, hw, hj, fun m hm hmj => ?_, hrest⟩
      rcases Nat.eq_or_lt_of_le hm with rfl | hlt
      · exact Bool.eq_false_iff.mpr hbit
      · exact hbelow m hlt hmj

/-- When no set bit is listed from `k` and `v` has none from `w` on, `v` has none from `k` on. -/
theorem testBit_of_setBitsFrom_eq_nil {k : ℕ} (h : setBitsFrom v w k = []) (hv : v < 2 ^ w)
    {m : ℕ} (hm : k ≤ m) : v.testBit m = false := by
  by_cases hmw : m < w
  · rw [Bool.eq_false_iff]
    intro hbit
    have hmem : m ∈ setBitsFrom v w k := mem_setBitsFrom.mpr ⟨hm, hmw, hbit⟩
    rw [h] at hmem
    cases hmem
  · exact Nat.testBit_lt_two_pow (lt_of_lt_of_le hv (Nat.pow_le_pow_right Nat.two_pos (by omega)))

end SetBits
