import Mathlib.Data.Fintype.Card

/-!
# Lists that index their elements

A container that must pick an element at random, and remove any element in constant time, keeps
its elements in a vector without repetition and records in each element its position there. An
element leaves by being swapped with the last one and popped. This file holds what such an index
needs: `Indexes l pos` says that `l` lists, once each, exactly the elements that have a position,
each at its position; a fresh element is appended (`Indexes.append`), two positions are swapped
(`Indexes.swap`), and the last element is popped (`Indexes.pop`).

It also holds how the number of points of a finite type that satisfy a predicate changes when
the predicate changes at one point (`card_filter_update`), the bookkeeping of a reference count.
-/

namespace PositionIndex

variable {α : Type} [DecidableEq α]

/-- `l` lists, without repetition, exactly the elements that have a position, each at its
position. -/
structure Indexes (l : List α) (pos : α → Option ℕ) : Prop where
  nodup : l.Nodup
  mem_iff : ∀ x, x ∈ l ↔ (pos x).isSome
  getElem?_pos : ∀ x i, pos x = some i → l[i]? = some x

namespace Indexes

variable {l : List α} {pos : α → Option ℕ}

theorem pos_lt (h : Indexes l pos) {x : α} {i : ℕ} (hx : pos x = some i) : i < l.length :=
  (List.getElem?_eq_some_iff.mp (h.getElem?_pos x i hx)).1

/-- The element at a position of the list has that position. -/
theorem pos_getElem (h : Indexes l pos) {i : ℕ} (hi : i < l.length) : pos l[i] = some i := by
  obtain ⟨j, hj⟩ := Option.isSome_iff_exists.mp ((h.mem_iff l[i]).mp (List.getElem_mem hi))
  have hj' := h.getElem?_pos _ _ hj
  rw [List.getElem?_eq_getElem (h.pos_lt hj), Option.some_inj] at hj'
  rw [hj, (List.Nodup.getElem_inj_iff h.nodup).mp hj']

/-- Appending an element that has no position, at the position after the last. -/
theorem append (h : Indexes l pos) {x : α} (hx : pos x = none) :
    Indexes (l ++ [x]) (Function.update pos x (some l.length)) := by
  have hxl : x ∉ l := fun hm => by simpa [hx] using (h.mem_iff x).mp hm
  refine ⟨List.nodup_append.mpr ⟨h.nodup, List.nodup_singleton x, ?_⟩, fun y => ?_, fun y i hy => ?_⟩
  · intro a ha b hb
    rw [List.mem_singleton] at hb
    subst hb
    rintro rfl
    exact hxl ha
  · by_cases hyx : y = x
    · subst hyx
      simp
    · rw [Function.update_of_ne hyx, List.mem_append, List.mem_singleton, or_iff_left hyx,
        h.mem_iff y]
  · by_cases hyx : y = x
    · subst hyx
      rw [Function.update_self, Option.some_inj] at hy
      rw [← hy, List.getElem?_concat_length]
    · rw [Function.update_of_ne hyx] at hy
      rw [List.getElem?_append_left (h.pos_lt hy), h.getElem?_pos y i hy]

/-- Swapping the elements at two positions, which exchange their positions. -/
theorem swap (h : Indexes l pos) {i j : ℕ} (hi : i < l.length) (hj : j < l.length) :
    Indexes ((l.set i l[j]).set j l[i])
      (Function.update (Function.update pos l[i] (some j)) l[j] (some i)) := by
  have hperm := List.set_set_perm hi hj
  refine ⟨hperm.nodup_iff.mpr h.nodup, fun y => ?_, fun y k hy => ?_⟩
  · rw [hperm.mem_iff, h.mem_iff]
    by_cases hyj : y = l[j]
    · subst hyj
      rw [Function.update_self, h.pos_getElem hj]
      rfl
    · by_cases hyi : y = l[i]
      · subst hyi
        rw [Function.update_of_ne hyj, Function.update_self, h.pos_getElem hi]
        rfl
      · rw [Function.update_of_ne hyj, Function.update_of_ne hyi]
  · by_cases hyj : y = l[j]
    · subst hyj
      rw [Function.update_self, Option.some_inj] at hy
      subst hy
      by_cases hij : i = j
      · subst hij
        rw [List.getElem?_set_self (by simpa using hi)]
      · rw [List.getElem?_set_ne (Ne.symm hij), List.getElem?_set_self hi]
    · by_cases hyi : y = l[i]
      · subst hyi
        rw [Function.update_of_ne hyj, Function.update_self, Option.some_inj] at hy
        subst hy
        rw [List.getElem?_set_self (by simpa using hj)]
      · rw [Function.update_of_ne hyj, Function.update_of_ne hyi] at hy
        -- `y` is elsewhere, at a position the swap leaves alone
        have hk := h.getElem?_pos y k hy
        have hki : k ≠ i := fun hki => hyi (by
          rw [hki, List.getElem?_eq_getElem hi, Option.some_inj] at hk
          exact hk.symm)
        have hkj : k ≠ j := fun hkj => hyj (by
          rw [hkj, List.getElem?_eq_getElem hj, Option.some_inj] at hk
          exact hk.symm)
        rw [List.getElem?_set_ne (Ne.symm hkj), List.getElem?_set_ne (Ne.symm hki), hk]

/-- The element at the last position is the last one. -/
theorem dropLast_append_of_last (h : Indexes l pos) {x : α} (hx : pos x = some (l.length - 1)) :
    l.dropLast ++ [x] = l := by
  have hne : l ≠ [] := fun hl => by simpa [hl] using h.pos_lt hx
  have hlast : l.getLast hne = x := by
    have hx' := h.getElem?_pos x _ hx
    rw [List.getElem?_eq_getElem (h.pos_lt hx), Option.some_inj] at hx'
    rw [List.getLast_eq_getElem, hx']
  rw [← hlast]
  exact List.dropLast_concat_getLast hne

/-- Popping the last element. -/
theorem pop (h : Indexes l pos) {x : α} (hx : pos x = some (l.length - 1)) :
    Indexes l.dropLast (Function.update pos x none) := by
  have hl := (h.dropLast_append_of_last hx).symm
  have hnd : (l.dropLast ++ [x]).Nodup := hl ▸ h.nodup
  have hxd : x ∉ l.dropLast := fun hxm =>
    (List.nodup_append.mp hnd).2.2 x hxm x (List.mem_singleton_self x) rfl
  refine ⟨(List.nodup_append.mp hnd).1, fun y => ?_, fun y i hy => ?_⟩
  · by_cases hyx : y = x
    · subst hyx
      simp [hxd]
    · rw [Function.update_of_ne hyx, ← h.mem_iff y]
      conv_rhs => rw [hl]
      rw [List.mem_append, List.mem_singleton, or_iff_left hyx]
  · by_cases hyx : y = x
    · subst hyx
      simp at hy
    · rw [Function.update_of_ne hyx] at hy
      have hyi := h.getElem?_pos y i hy
      rw [hl, List.getElem?_append] at hyi
      split_ifs at hyi with hi
      · exact hyi
      · -- the one position past the popped list holds `x`
        have hi' : i = l.dropLast.length := by
          have := h.pos_lt hy
          rw [List.length_dropLast] at hi ⊢
          omega
        subst hi'
        simp at hyi
        exact absurd hyi.symm hyx

end Indexes

/-- Changing a predicate at one element of a list without repetition changes the number of
elements that satisfy it by what it does there. -/
theorem countP_update {l : List α} (hl : l.Nodup) {x : α} (hx : x ∈ l) {p q : α → Bool}
    (h : ∀ y, y ≠ x → p y = q y) :
    (l.countP q : ℤ) + (if p x then 1 else 0) = l.countP p + (if q x then 1 else 0) := by
  have hsplit : ∀ r : α → Bool, l.countP r = (l.erase x).countP r + if r x then 1 else 0 :=
    fun r => by rw [(List.perm_cons_erase hx).countP_eq r, List.countP_cons]
  have hoff : (l.erase x).countP q = (l.erase x).countP p :=
    List.countP_congr fun y hy => by rw [h y ((List.Nodup.mem_erase_iff hl).mp hy).1]
  rw [hsplit q, hsplit p, hoff]
  split_ifs <;> simp

end PositionIndex

section CardFilter

variable {α : Type} [Fintype α] [DecidableEq α]

/-- Changing a predicate at one point changes the number of points that satisfy it by what it
does there. -/
theorem card_filter_update {p q : α → Prop} [DecidablePred p] [DecidablePred q] (b : α)
    (h : ∀ x, x ≠ b → (p x ↔ q x)) :
    ((Finset.univ.filter q).card : ℤ) + (if p b then 1 else 0) =
      (Finset.univ.filter p).card + (if q b then 1 else 0) := by
  have hsplit : ∀ (r : α → Prop) [DecidablePred r], (Finset.univ.filter r).card =
      ((Finset.univ.erase b).filter r).card + if r b then 1 else 0 := by
    intro r _
    rw [← Finset.insert_erase (Finset.mem_univ b), Finset.filter_insert,
      Finset.erase_insert (Finset.notMem_erase b _)]
    split_ifs with hr
    · rw [Finset.card_insert_of_notMem (by simp)]
    · rfl
  have hoff : (Finset.univ.erase b).filter q = (Finset.univ.erase b).filter p :=
    Finset.filter_congr fun x hx => (h x (Finset.ne_of_mem_erase hx)).symm
  rw [hsplit q, hsplit p, hoff]
  split_ifs <;> simp

end CardFilter
