import Mathlib.Data.List.Sort

/-!
# The median of a list

`median d l` sorts `l` and reads the element at index `l.length / 2`, the upper median, or `d`
when `l` is empty. Whether a value `m` is at most the median is a matter of counting: at most
`l.length / 2` elements lie below `m` (`le_median_iff`). Hence dropping at most one element of a
list and adding one that is not below its median does not lower the median
(`median_le_median_cons`).
-/

namespace Median

variable {α : Type*} [LinearOrder α]

/-- The element at index `l.length / 2` of `l` sorted, or `d` for the empty list. -/
def median (d : α) (l : List α) : α := (l.mergeSort (· ≤ ·)).getD (l.length / 2) d

/-- In a sorted list, `m` is at most the element at index `i` exactly when at most `i` elements lie
below `m`. -/
theorem countP_lt_le_iff {S : List α} (hS : S.Pairwise (· ≤ ·)) {i : ℕ} (hi : i < S.length)
    (m : α) : S.countP (fun a => decide (a < m)) ≤ i ↔ m ≤ S[i] := by
  rw [List.pairwise_iff_getElem] at hS
  constructor
  · -- were `S[i]` below `m`, so would be the `i + 1` elements up to it
    intro hcount
    by_contra hlt
    rw [not_le] at hlt
    have htake : (S.take (i + 1)).countP (fun a => decide (a < m)) = i + 1 := by
      rw [List.countP_eq_length.mpr, List.length_take, min_eq_left hi]
      intro a ha
      obtain ⟨j, hj, rfl⟩ := List.getElem_of_mem ha
      rw [List.length_take] at hj
      rw [List.getElem_take, decide_eq_true_eq]
      rcases Nat.lt_or_ge j i with hji | hji
      · exact lt_of_le_of_lt (hS j i (by omega) hi hji) hlt
      · obtain rfl : j = i := by omega
        exact hlt
    have hle : (S.take (i + 1)).countP (fun a => decide (a < m)) ≤
        S.countP (fun a => decide (a < m)) := (List.take_sublist (i + 1) S).countP_le
    omega
  · -- the elements from index `i` on are not below `m`
    intro hle
    have hdrop : (S.drop i).countP (fun a => decide (a < m)) = 0 := by
      rw [List.countP_eq_zero]
      intro a ha
      obtain ⟨j, hj, rfl⟩ := List.getElem_of_mem ha
      rw [List.length_drop] at hj
      rw [List.getElem_drop, decide_eq_true_eq, not_lt]
      rcases Nat.eq_zero_or_pos j with rfl | hj0
      · simpa using hle
      · exact le_trans hle (hS i (i + j) hi (by omega) (by omega))
    have htake := (S.take i).countP_le_length (p := fun a => decide (a < m))
    rw [← List.take_append_drop i S, List.countP_append, hdrop, Nat.add_zero]
    rw [List.length_take] at htake
    omega

/-- A lower bound of the median is one below which at most half of the list lies. -/
theorem le_median_iff (d : α) {l : List α} (hl : l ≠ []) (m : α) :
    m ≤ median d l ↔ l.countP (fun a => decide (a < m)) ≤ l.length / 2 := by
  have hperm := List.mergeSort_perm l (fun a b => decide (a ≤ b))
  have hi : l.length / 2 < (l.mergeSort fun a b => decide (a ≤ b)).length := by
    rw [hperm.length_eq]
    exact Nat.div_lt_self (List.length_pos_of_ne_nil hl) (by omega)
  rw [median, List.getD_eq_getElem?_getD, List.getElem?_eq_getElem hi, Option.getD_some,
    ← hperm.countP_eq,
    countP_lt_le_iff (List.pairwise_mergeSort' _ l) hi]

/-- Dropping at most one element of a nonempty list and adding one that is not below its median
does not lower the median. -/
theorem median_le_median_cons (d : α) {l l₀ : List α} (hl : l ≠ []) (hsub : l₀.Sublist l)
    (hlen : l.length ≤ l₀.length + 1) {x : α} (hx : median d l ≤ x) :
    median d l ≤ median d (x :: l₀) := by
  set m := median d l
  have hcount := (le_median_iff d hl m).mp le_rfl
  have hsubcount : l₀.countP (fun a => decide (a < m)) ≤ l.countP (fun a => decide (a < m)) :=
    hsub.countP_le
  rw [le_median_iff d (List.cons_ne_nil x l₀), List.countP_cons, if_neg (by simpa using hx),
    List.length_cons]
  omega

end Median
