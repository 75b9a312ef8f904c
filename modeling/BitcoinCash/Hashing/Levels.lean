import Mathlib.Data.Nat.Notation
import Mathlib.Logic.Function.Basic
import Mathlib.Data.Set.Defs

/-!
# Levels of the trees of an injective pairing

A pairing `H : α → α → α` builds complete binary trees over a set `Leaf` of leaves. When `H` is
injective and none of its values is a leaf, as for a hash function without collisions whose
inputs and outputs are kept apart, a value is the root of trees of one height only: a leaf is no
node, and two equal nodes have equal children.
-/

namespace PairHash

variable {α : Type*} (H : α → α → α) (Leaf : Set α)

/-- `x` is the root of a complete binary tree of height `k` whose leaves lie in `Leaf`. -/
def IsLevel : ℕ → α → Prop
  | 0, x => x ∈ Leaf
  | k + 1, x => ∃ a b, H a b = x ∧ IsLevel k a ∧ IsLevel k b

variable {H Leaf}

@[simp] theorem isLevel_zero {x : α} : IsLevel H Leaf 0 x ↔ x ∈ Leaf := Iff.rfl

theorem isLevel_succ {k : ℕ} {a b : α} (ha : IsLevel H Leaf k a) (hb : IsLevel H Leaf k b) :
    IsLevel H Leaf (k + 1) (H a b) :=
  ⟨a, b, rfl, ha, hb⟩

/-- Without collisions, and with no node a leaf, a value has at most one height. -/
theorem IsLevel.unique (hinj : Function.Injective2 H) (hdisj : ∀ a b, H a b ∉ Leaf) {j k : ℕ}
    {x : α} (hj : IsLevel H Leaf j x) (hk : IsLevel H Leaf k x) : j = k := by
  induction j generalizing k x with
  | zero =>
    cases k with
    | zero => rfl
    | succ k =>
      obtain ⟨a, b, rfl, -⟩ := hk
      exact absurd hj (hdisj a b)
  | succ j ih =>
    obtain ⟨a, b, rfl, ha, -⟩ := hj
    cases k with
    | zero => exact absurd hk (hdisj a b)
    | succ k =>
      obtain ⟨c, d, heq, hc, -⟩ := hk
      -- equal nodes have equal left children, which then have equal heights
      obtain ⟨rfl, -⟩ := hinj heq
      rw [ih ha hc]

end PairHash
