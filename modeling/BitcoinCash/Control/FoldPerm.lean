import Mathlib.Data.List.Perm.Basic
import BitcoinCash.Control.InputLoop

/-!
# Reordering the items of a fallible fold

A fold `l.foldlM f s` in `Except ε` is independent of the order of `l` when its steps can be
exchanged: when doing `a` then `b` succeeds, doing `b` then `a` succeeds too, with a result
related by `R`. The relation says what of the state the order may change (none of it, for
`Eq`), and the exchange need only hold from the states of an invariant `I` that the steps keep.

Only success is compared: a fold that fails in one order may fail with another error in the
other.
-/

namespace Except

universe u v

variable {ε : Type u} {σ α : Type v}

section Reorder

variable {f : σ → α → Except ε σ} {R : σ → σ → Prop} {I : σ → Prop}
  (hR : Equivalence R)
  (hcongr : ∀ s s' a r, I s → R s s' → f s a = .ok r → ∃ r', f s' a = .ok r' ∧ R r r')
  (hinv : ∀ s a r, I s → f s a = .ok r → I r)

end Reorder

section Exact

variable {f : σ → α → Except ε σ}

end Exact

end Except
