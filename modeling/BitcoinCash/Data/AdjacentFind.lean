import Mathlib.Data.List.Nodup

/-!
# Duplicates found next to each other after sorting

`std::adjacent_find(first, last, pred)` returns the first position whose element and the next
one satisfy `pred`, or `last` when there is none; `AdjacentFind.hasAdjacent` is whether it finds
one. In a list sorted by a relation under which two elements related both ways are equal,
equal elements stand next to each other, so comparing neighbours for equality finds a duplicate
exactly when there is one. Sorting by `List.mergeSort` keeps the elements, so the test on the
sorted list decides whether the list sorted has duplicates.
-/

namespace AdjacentFind

variable {α : Type*}

/-- `std::adjacent_find(first, last, pred) != last`: some element and the next satisfy
`pred`. -/
def hasAdjacent (pred : α → α → Bool) : List α → Bool
  | a :: b :: rest => pred a b || hasAdjacent pred (b :: rest)
  | _ => false

variable [DecidableEq α]

/-- Neighbours in a list without duplicates differ. -/
theorem hasAdjacent_eq_false_of_nodup : ∀ {l : List α}, l.Nodup → hasAdjacent (· == ·) l = false
  | [], _ => rfl
  | [_], _ => rfl
  | a :: b :: rest, hl => by
    have hab : a ≠ b := fun h => (List.nodup_cons.mp hl).1 (h ▸ List.mem_cons_self)
    rw [hasAdjacent, beq_false_of_ne hab, Bool.false_or]
    exact hasAdjacent_eq_false_of_nodup hl.of_cons

/-- A list sorted by a relation under which two elements related both ways are equal, with no
equal neighbours, has no duplicates: an element met again further on would be related both
ways to the element after it. -/
theorem nodup_of_hasAdjacent_eq_false {le : α → α → Prop}
    (hanti : ∀ a b, le a b → le b a → a = b) :
    ∀ {l : List α}, l.Pairwise le → hasAdjacent (· == ·) l = false → l.Nodup
  | [], _, _ => List.nodup_nil
  | [_], _, _ => List.nodup_singleton _
  | a :: b :: rest, hl, h => by
    rw [hasAdjacent, Bool.or_eq_false_iff, beq_eq_false_iff_ne] at h
    refine List.nodup_cons.mpr ⟨fun hmem => ?_, nodup_of_hasAdjacent_eq_false hanti hl.of_cons h.2⟩
    rcases List.mem_cons.mp hmem with hab | hrest
    · exact h.1 hab
    · have hab := List.rel_of_pairwise_cons hl List.mem_cons_self
      have hba := List.rel_of_pairwise_cons hl.of_cons hrest
      exact h.1 (hanti a b hab hba)

theorem hasAdjacent_eq_false_iff_nodup {le : α → α → Prop}
    (hanti : ∀ a b, le a b → le b a → a = b) {l : List α} (hl : l.Pairwise le) :
    hasAdjacent (· == ·) l = false ↔ l.Nodup :=
  ⟨nodup_of_hasAdjacent_eq_false hanti hl, hasAdjacent_eq_false_of_nodup⟩

/-- **Sort, then compare neighbours.** With a comparison that is transitive, total and
antisymmetric, no equal neighbours in the sorted list means no duplicates in the list. -/
theorem hasAdjacent_mergeSort_eq_false_iff {le : α → α → Bool}
    (htrans : ∀ a b c, le a b → le b c → le a c) (htotal : ∀ a b, le a b || le b a)
    (hanti : ∀ a b, le a b → le b a → a = b) (l : List α) :
    hasAdjacent (· == ·) (l.mergeSort le) = false ↔ l.Nodup := by
  rw [@hasAdjacent_eq_false_iff_nodup α _ (fun a b => le a b = true) hanti _
    (List.pairwise_mergeSort htrans htotal l)]
  exact (List.mergeSort_perm l le).nodup_iff

end AdjacentFind
