import Mathlib

/-!
# While loops with a decreasing measure

A `while` loop whose body either goes on with a new state or leaves the loop with a result
(a `return`, or a `break` followed by whatever the code does after the loop) is a step function
`σ → WhileLoop.Step σ ρ`. When every step that goes on lowers a measure in `ℕ`, the loop ends:
`WhileLoop.run` is total, by well-founded recursion on the measure.

Facts about a run come from facts about one step. The states a run passes through are
`WhileLoop.Reaches`; a set of states that every step keeps, and from which every exit is good,
makes the run's result good (`WhileLoop.run_of_closed`); and a property of the states that
holds whenever it holds after the next step holds of every state (`WhileLoop.induction`).

A counted loop `for (i = 0; i < n; i++)` is a left fold over `List.range n`; its invariant rule,
indexed by the passes made, is `foldl_range_invariant`. A loop modelled with fuel is a step into
`Option`, `none` when the fuel runs out; a fold of such steps returns when the fuel covers what
each step may need (`Option.foldlM_of_budget`).
-/

/-- One iteration of a loop: it goes on with a new state, or leaves with a result. -/
inductive WhileLoop.Step (σ ρ : Type*)
  | next (s : σ)
  | stop (r : ρ)

/-- A loop body with a measure that every iteration that goes on lowers. -/
structure WhileLoop (σ ρ : Type*) where
  step : σ → WhileLoop.Step σ ρ
  measure : σ → ℕ
  decreases : ∀ {s s' : σ}, step s = .next s' → measure s' < measure s

namespace WhileLoop

variable {σ ρ : Type*} (L : WhileLoop σ ρ)

set_option linter.unusedVariables false in
/-- The result of running the loop from `s`. -/
def run (s : σ) : ρ :=
  match h : L.step s with
  | .next s' => run s'
  | .stop r => r
termination_by L.measure s
decreasing_by exact L.decreases h

variable {L}

theorem run_of_next {s s' : σ} (h : L.step s = .next s') : L.run s = L.run s' := by
  rw [run]
  split
  · next s'' hs => rw [h] at hs; cases hs; rfl
  · next r hs => rw [h] at hs; cases hs

theorem run_of_stop {s : σ} {r : ρ} (h : L.step s = .stop r) : L.run s = r := by
  rw [run]
  split
  · next s' hs => rw [h] at hs; cases hs
  · next r' hs => rw [h] at hs; cases hs; rfl

/-- Induction along the loop: a property that holds of a state whenever it holds after the
state's next step holds of every state. -/
theorem induction (motive : σ → Prop)
    (hstep : ∀ s, (∀ s', L.step s = .next s' → motive s') → motive s) (s : σ) : motive s := by
  -- strong induction on the measure
  suffices h : ∀ m s, L.measure s = m → motive s from h _ s rfl
  intro m
  induction m using Nat.strongRecOn with
  | _ m ih =>
    intro s hm
    exact hstep s fun s' hs' => ih _ (hm ▸ L.decreases hs') s' rfl

variable (L) in
/-- The states a run passes through: those reached by steps that go on. -/
def Reaches : σ → σ → Prop := Relation.ReflTransGen fun s s' => L.step s = .next s'

theorem Reaches.refl (s : σ) : L.Reaches s s := Relation.ReflTransGen.refl

theorem Reaches.tail {s t u : σ} (h : L.Reaches s t) (hstep : L.step t = .next u) :
    L.Reaches s u := Relation.ReflTransGen.tail h hstep

theorem Reaches.head {s t u : σ} (hstep : L.step s = .next t) (h : L.Reaches t u) :
    L.Reaches s u := Relation.ReflTransGen.head hstep h

theorem Reaches.trans {s t u : σ} (h₁ : L.Reaches s t) (h₂ : L.Reaches t u) : L.Reaches s u :=
  Relation.ReflTransGen.trans h₁ h₂

/-- Every state a run passes through leads to the run's result. -/
theorem run_of_reaches {s t : σ} (h : L.Reaches s t) : L.run s = L.run t := by
  induction h with
  | refl => rfl
  | tail _ hstep ih => rw [ih, run_of_next hstep]

/-- An invariant that every step keeps holds of every state a run passes through. -/
theorem Reaches.invariant (P : σ → Prop) (hstep : ∀ s s', P s → L.step s = .next s' → P s')
    {s t : σ} (h : L.Reaches s t) (hs : P s) : P t := by
  induction h with
  | refl => exact hs
  | tail _ hnext ih => exact hstep _ _ ih hnext

/-- A set of states that every step keeps, from which every exit satisfies `Good`, makes the
result of every run from it satisfy `Good`. -/
theorem run_of_closed (S : σ → Prop) (Good : ρ → Prop)
    (hnext : ∀ s s', S s → L.step s = .next s' → S s')
    (hstop : ∀ s r, S s → L.step s = .stop r → Good r) {s : σ} (hs : S s) : Good (L.run s) := by
  induction s using L.induction with
  | hstep s ih =>
    cases h : L.step s with
    | next s' => rw [run_of_next h]; exact ih s' h (hnext s s' hs h)
    | stop r => rw [run_of_stop h]; exact hstop s r hs h

end WhileLoop

/-- A loop `for (int i = 0; i < n; i++)` keeps an invariant indexed by the passes it made. -/
theorem foldl_range_invariant {σ : Type*} {f : σ → ℕ → σ} (P : ℕ → σ → Prop) {init : σ}
    (h0 : P 0 init) {n : ℕ} (hstep : ∀ k < n, ∀ st, P k st → P (k + 1) (f st k)) :
    P n ((List.range n).foldl f init) := by
  induction n with
  | zero => exact h0
  | succ n ih =>
    rw [List.range_succ, List.foldl_append, List.foldl_cons, List.foldl_nil]
    exact hstep n (by omega) _ (ih fun k hk => hstep k (by omega))

/-- A fold of steps that return while a budget `n` lasts: a step from a state of the invariant `I`
on an item `a` of weight `w a` returns, when the size of the state and `w a` fit in `n`, a state
of `I` that grew by at most `w a`. The fold then returns when the state and all the items fit. -/
theorem Option.foldlM_of_budget {β α : Type*} {f : β → α → Option β} (I : β → Prop)
    (size : β → ℕ) (w : α → ℕ) {n : ℕ} {l : List α}
    (hstep : ∀ b a, a ∈ l → I b → size b + w a ≤ n →
      ∃ b', f b a = some b' ∧ I b' ∧ size b' ≤ size b + w a) :
    ∀ {b : β}, I b → size b + (l.map w).sum ≤ n →
      ∃ r, l.foldlM f b = some r ∧ I r ∧ size r ≤ size b + (l.map w).sum := by
  induction l with
  | nil => exact fun {b} hb _ => ⟨b, rfl, hb, by simp⟩
  | cons a l ih =>
    intro b hb hn
    rw [List.map_cons, List.sum_cons] at hn ⊢
    obtain ⟨b', hb', hI, hsize⟩ := hstep b a List.mem_cons_self hb (by omega)
    obtain ⟨r, hr, hIr, hsizer⟩ :=
      ih (fun c x hx => hstep c x (List.mem_cons_of_mem a hx)) hI (by omega)
    refine ⟨r, ?_, hIr, by omega⟩
    rw [List.foldlM_cons, hb']
    exact hr
