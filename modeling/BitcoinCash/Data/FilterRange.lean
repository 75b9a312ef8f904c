import Mathlib.Data.List.Basic
import Mathlib.Data.List.GetD
import Mathlib.Data.List.Nodup

/-!
# The positions of a range that satisfy a test, in increasing order

`filterFrom p w k` lists the positions `i` with `k ≤ i < w` for which `p i` holds. A loop that
scans from `k` for the next such position stops at the head of that list, and from one past it
the list is the tail (`filterFrom_eq_cons`). So a loop that takes the positions one after the
other walks down the list. Over the positions of a list `l`, the whole range lists as many
positions as `l` has entries passing the test (`length_filterFrom_getD`).
-/

namespace FilterRange

/-- The positions `i` with `k ≤ i < w` for which `p i` holds, in increasing order. -/
def filterFrom (p : ℕ → Bool) (w k : ℕ) : List ℕ := (List.range' k (w - k)).filter p

variable {p : ℕ → Bool} {w : ℕ}

theorem filterFrom_of_le {k : ℕ} (h : w ≤ k) : filterFrom p w k = [] := by
  rw [filterFrom, Nat.sub_eq_zero_of_le h, List.range'_zero, List.filter_nil]

/-- One step of the scan: the position `k`, then the positions from `k + 1`. -/
theorem filterFrom_of_lt {k : ℕ} (h : k < w) :
    filterFrom p w k = if p k then k :: filterFrom p w (k + 1) else filterFrom p w (k + 1) := by
  have hlen : w - k = w - (k + 1) + 1 := by omega
  rw [filterFrom, hlen, List.range'_succ, List.filter_cons]
  rfl

theorem mem_filterFrom {k j : ℕ} : j ∈ filterFrom p w k ↔ k ≤ j ∧ j < w ∧ p j := by
  rw [filterFrom, List.mem_filter, List.mem_range'_1]
  constructor
  · rintro ⟨⟨hk, hw⟩, hp⟩
    exact ⟨hk, by omega, hp⟩
  · rintro ⟨hk, hw, hp⟩
    exact ⟨⟨hk, by omega⟩, hp⟩

theorem nodup_filterFrom {k : ℕ} : (filterFrom p w k).Nodup :=
  List.Nodup.filter _ List.nodup_range'

/-- Tests that agree on the range list the same positions. -/
theorem filterFrom_congr {q : ℕ → Bool} {k : ℕ} (h : ∀ j, k ≤ j → j < w → p j = q j) :
    filterFrom p w k = filterFrom q w k := by
  rw [filterFrom, filterFrom]
  refine List.filter_congr fun j hj => ?_
  rw [List.mem_range'_1] at hj
  exact h j hj.1 (by omega)

/-- The head of the list is the first position from `k` that passes, and the tail the positions
after it. -/
theorem filterFrom_eq_cons {k j : ℕ} {l : List ℕ} (h : filterFrom p w k = j :: l) :
    k ≤ j ∧ j < w ∧ p j ∧ (∀ m, k ≤ m → m < j → p m = false) ∧ filterFrom p w (j + 1) = l := by
  -- induction on the number of positions left to scan
  suffices hscan : ∀ d k, w - k = d → filterFrom p w k = j :: l →
      k ≤ j ∧ j < w ∧ p j ∧ (∀ m, k ≤ m → m < j → p m = false) ∧
        filterFrom p w (j + 1) = l from hscan _ k rfl h
  intro d
  induction d with
  | zero =>
    intro k hd h
    rw [filterFrom_of_le (by omega)] at h
    cases h
  | succ d ih =>
    intro k hd h
    rw [filterFrom_of_lt (by omega)] at h
    by_cases hk : p k
    · -- the scan stops at `k`
      rw [if_pos hk, List.cons.injEq] at h
      obtain ⟨rfl, rfl⟩ := h
      exact ⟨Nat.le_refl _, by omega, hk, fun m hm hmj => absurd hmj (Nat.not_lt.mpr hm), rfl⟩
    · -- the scan goes on past `k`
      rw [if_neg hk] at h
      obtain ⟨hkj, hw, hj, hbelow, hrest⟩ := ih (k + 1) (by omega) h
      refine ⟨by omega, hw, hj, fun m hm hmj => ?_, hrest⟩
      rcases Nat.eq_or_lt_of_le hm with rfl | hlt
      · exact Bool.eq_false_iff.mpr hk
      · exact hbelow m hlt hmj

/-- A list read back position by position. -/
theorem map_getD_range {α : Type*} (l : List α) (d : α) :
    (List.range l.length).map (fun j => l.getD j d) = l := by
  refine List.ext_getElem (by rw [List.length_map, List.length_range]) fun j h₁ h₂ => ?_
  rw [List.getElem_map, List.getElem_range, List.getD_eq_getElem l d h₂]

/-- Over the positions of a list, the range lists one position per entry that passes. -/
theorem length_filterFrom_getD {α : Type*} (q : α → Bool) (l : List α) (d : α) :
    (filterFrom (fun j => q (l.getD j d)) l.length 0).length = l.countP q := by
  calc (filterFrom (fun j => q (l.getD j d)) l.length 0).length
      = (List.range l.length).countP (fun j => q (l.getD j d)) := by
        rw [filterFrom, Nat.sub_zero, List.range_eq_range', List.countP_eq_length_filter]
    _ = ((List.range l.length).map (fun j => l.getD j d)).countP q := by
        rw [List.countP_map]
        rfl
    _ = l.countP q := by rw [map_getD_range]

end FilterRange
