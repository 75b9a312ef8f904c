import Mathlib.Data.List.Basic

/-!
# Fallible computations and loops that consume their input

Programs that may fail are functions into `Except ε`; this file collects the rules for
reasoning about them: how a successful `bind` splits, and how an invariant of each iteration
becomes an invariant of a loop.

The loops are those of a decoder: `while (pc < end) { ... }`, where every iteration reads at
least one item of the input, so the loop terminates. `InputLoop` packages such a step with the
proof that it consumes, and `InputLoop.run` runs it until the input is exhausted or a step
fails. Facts about a run come from facts about one step through `InputLoop.Reaches`, the
states a run passes through.
-/

namespace Except

universe u v

variable {ε : Type u} {α β : Type v}

@[simp] theorem throw_eq_error (e : ε) : (throw e : Except ε α) = .error e := rfl

@[simp] theorem pure_eq_ok (a : α) : (pure a : Except ε α) = .ok a := rfl

@[simp] theorem bind_ok' (a : α) (f : α → Except ε β) : (Except.ok a >>= f) = f a := rfl

@[simp] theorem bind_error' (e : ε) (f : α → Except ε β) :
    (Except.error e >>= f) = Except.error e := rfl

@[simp] theorem map_ok' (f : α → β) (a : α) : (f <$> Except.ok a : Except ε β) = .ok (f a) :=
  rfl

/-- A computation whose `isOk` evaluates to `true` succeeds: how a run on a fixed input, decided
by evaluation, becomes an equation. -/
theorem exists_eq_ok_of_isOk {x : Except ε α} (h : x.isOk = true) : ∃ a, x = .ok a := by
  cases x with
  | ok a => exact ⟨a, rfl⟩
  | error e => cases h

/-- A guard that throws succeeds only when it does not fire. -/
theorem ite_throw_eq_ok {c : Prop} [Decidable c] {e : ε} {x : Except ε α} {a : α} :
    (if c then throw e else x) = .ok a ↔ ¬c ∧ x = .ok a := by
  by_cases hc : c <;> simp [hc]

/-- A successful `bind` is a successful first computation followed by a successful
continuation. -/
theorem bind_eq_ok {x : Except ε α} {f : α → Except ε β} {b : β} :
    (x >>= f) = .ok b ↔ ∃ a, x = .ok a ∧ f a = .ok b := by
  cases x <;> simp

/-- A failed `bind` failed in the first computation or in the continuation. -/
theorem bind_eq_error {x : Except ε α} {f : α → Except ε β} {e : ε} :
    (x >>= f) = .error e ↔ x = .error e ∨ ∃ a, x = .ok a ∧ f a = .error e := by
  cases x <;> simp

/-- An invariant of a fallible fold, indexed by the number of items folded: a fold over `l`
from a value satisfying `P i` returns one satisfying `P (i + l.length)`. -/
theorem foldlM_invariant {f : β → α → Except ε β} (P : ℕ → β → Prop) {l : List α}
    (hstep : ∀ i b a b', a ∈ l → P i b → f b a = .ok b' → P (i + 1) b') :
    ∀ {i : ℕ} {b r : β}, P i b → l.foldlM f b = .ok r → P (i + l.length) r := by
  induction l with
  | nil =>
    intro i b r hb h
    simp only [List.foldlM_nil, pure, Except.pure, Except.ok.injEq] at h
    exact h ▸ hb
  | cons a l ih =>
    intro i b r hb h
    rw [List.foldlM_cons, bind_eq_ok] at h
    obtain ⟨b', hb', hrest⟩ := h
    have hrest := ih (fun j c x c' hx => hstep j c x c' (List.mem_cons_of_mem a hx))
      (hstep i b a b' List.mem_cons_self hb hb') hrest
    rwa [List.length_cons, ← Nat.add_assoc, Nat.add_right_comm]

/-- A fold fails only where a step on an item of the list fails. -/
theorem foldlM_error {f : β → α → Except ε β} {E : ε → Prop} {l : List α}
    (herror : ∀ b a e, a ∈ l → f b a = .error e → E e) :
    ∀ {b : β} {e : ε}, l.foldlM f b = .error e → E e := by
  induction l with
  | nil =>
    intro b e h
    simp [pure, Except.pure] at h
  | cons a l ih =>
    intro b e h
    rw [List.foldlM_cons, bind_eq_error] at h
    rcases h with h | ⟨b', -, hrest⟩
    · exact herror b a e List.mem_cons_self h
    · exact ih (fun c x e' hx => herror c x e' (List.mem_cons_of_mem a hx)) hrest

/-- `allM` fails only where a test of an item of the list fails. -/
theorem allM_error {p : α → Except ε Bool} {E : ε → Prop} {l : List α}
    (herror : ∀ a e, a ∈ l → p a = .error e → E e) :
    ∀ {e : ε}, l.allM p = .error e → E e := by
  induction l with
  | nil =>
    intro e h
    simp [List.allM, pure, Except.pure] at h
  | cons a l ih =>
    intro e h
    simp only [List.allM, bind_eq_error] at h
    rcases h with h | ⟨b, -, hrest⟩
    · exact herror a e List.mem_cons_self h
    · cases b
      · simp [pure, Except.pure] at hrest
      · exact ih (fun x e' hx => herror x e' (List.mem_cons_of_mem a hx)) hrest

/-- A fold succeeds when each step succeeds from every state of an invariant, indexed by the
items folded so far; the result then satisfies the invariant for the whole list. -/
theorem foldlM_ok_invariant {f : β → α → Except ε β} (P : List α → β → Prop) {l : List α}
    (hstep : ∀ done b a, P done b → ∃ b', f b a = .ok b' ∧ P (done ++ [a]) b') {b : β}
    (hb : P [] b) : ∃ r, l.foldlM f b = .ok r ∧ P l r := by
  -- the items folded before `l` are a parameter of the induction
  suffices h : ∀ {done : List α} {b : β}, P done b → ∃ r, l.foldlM f b = .ok r ∧ P (done ++ l) r
    from h hb
  induction l with
  | nil =>
    intro done b hb
    exact ⟨b, rfl, by rwa [List.append_nil]⟩
  | cons a l ih =>
    intro done b hb
    obtain ⟨b', hb', hP⟩ := hstep done b a hb
    obtain ⟨r, hr, hPr⟩ := ih hP
    refine ⟨r, ?_, by rwa [List.append_assoc, List.singleton_append] at hPr⟩
    rw [List.foldlM_cons, hb', bind_ok', hr]

/-- `allM` returns `true` exactly when every test of an item returns `true`. -/
theorem allM_eq_ok_true {p : α → Except ε Bool} {l : List α} :
    l.allM p = .ok true ↔ ∀ a ∈ l, p a = .ok true := by
  induction l with
  | nil => simp [List.allM]
  | cons a l ih =>
    simp only [List.allM, List.forall_mem_cons, ← ih]
    rcases p a with e | _ | _ <;> simp

/-- `allM` succeeds when every test of an item succeeds. -/
theorem allM_ok {p : α → Except ε Bool} {l : List α} (h : ∀ a ∈ l, ∃ b, p a = .ok b) :
    ∃ b, l.allM p = .ok b := by
  induction l with
  | nil => exact ⟨true, rfl⟩
  | cons a l ih =>
    obtain ⟨b, hb⟩ := h a List.mem_cons_self
    cases b
    · exact ⟨false, by simp [List.allM, hb]⟩
    · obtain ⟨b', hb'⟩ := ih (fun x hx => h x (List.mem_cons_of_mem a hx))
      exact ⟨b', by simp [List.allM, hb, hb']⟩

/-- `anyM` succeeds when every test of an item succeeds. -/
theorem anyM_ok {p : α → Except ε Bool} {l : List α} (h : ∀ a ∈ l, ∃ b, p a = .ok b) :
    ∃ b, l.anyM p = .ok b := by
  induction l with
  | nil => exact ⟨false, rfl⟩
  | cons a l ih =>
    obtain ⟨b, hb⟩ := h a List.mem_cons_self
    cases b
    · obtain ⟨b', hb'⟩ := ih (fun x hx => h x (List.mem_cons_of_mem a hx))
      exact ⟨b', by simp [List.anyM, hb, hb']⟩
    · exact ⟨true, by simp [List.anyM, hb]⟩

end Except

/-- A loop body over an input of items of type `ι` and a state of type `σ` that reads at least
one item whenever it succeeds. -/
structure InputLoop (σ ι ε : Type*) where
  /-- One iteration: the new state and the rest of the input, or a failure. -/
  step : σ → List ι → Except ε (σ × List ι)
  /-- Every successful iteration consumes input. -/
  consumes : ∀ {s : σ} {l : List ι} {r : σ × List ι}, step s l = .ok r → r.2.length < l.length

namespace InputLoop

variable {σ ι ε : Type*} (L : InputLoop σ ι ε)

/-- `while (pc < end) step`: iterate until the input is exhausted or an iteration fails. -/
def run (s : σ) (l : List ι) : Except ε σ :=
  if l.isEmpty then .ok s
  else
    match h : L.step s l with
    | .error e => .error e
    | .ok (s', l') =>
      have : l'.length < l.length := L.consumes h
      run s' l'
termination_by l.length

theorem run_nil (s : σ) : L.run s [] = .ok s := by
  rw [run]
  rfl

theorem run_of_ne_nil {s : σ} {l : List ι} (hl : l ≠ []) :
    L.run s l = match L.step s l with
      | .error e => .error e
      | .ok (s', l') => L.run s' l' := by
  rw [run, if_neg (by simpa using hl)]
  split <;> rename_i h <;> simp only [h]

/-- The states a run passes through, with the input left at each. -/
inductive Reaches : σ → List ι → σ → List ι → Prop
  | refl (s : σ) (l : List ι) : Reaches s l s l
  | step {s s' t : σ} {l l' r : List ι} :
      l ≠ [] → L.step s l = .ok (s', l') → Reaches s' l' t r → Reaches s l t r

variable {L}

/-- A run that returns passes through its final state with the input exhausted. -/
theorem run_eq_ok {s t : σ} {l : List ι} (h : L.run s l = .ok t) : L.Reaches s l t [] := by
  induction s, l using run.induct L with
  | case1 s l hl =>
    have hnil : l = [] := List.isEmpty_iff.mp hl
    subst hnil
    rw [run_nil, Except.ok.injEq] at h
    exact h ▸ .refl s []
  | case2 s l hl e hstep =>
    rw [run_of_ne_nil L (by simpa using hl), hstep] at h
    simp at h
  | case3 s l hl s' l' hstep _ ih =>
    rw [run_of_ne_nil L (by simpa using hl), hstep] at h
    exact .step (by simpa using hl) hstep (ih h)

/-- A run that fails fails at a step of a state it reaches. -/
theorem run_eq_error {s : σ} {l : List ι} {e : ε} (h : L.run s l = .error e) :
    ∃ s' l', L.Reaches s l s' l' ∧ l' ≠ [] ∧ L.step s' l' = .error e := by
  induction s, l using run.induct L with
  | case1 s l hl =>
    have hnil : l = [] := List.isEmpty_iff.mp hl
    subst hnil
    simp [run_nil] at h
  | case2 s l hl e' hstep =>
    rw [run_of_ne_nil L (by simpa using hl), hstep] at h
    simp only [Except.error.injEq] at h
    subst h
    exact ⟨s, l, .refl s l, by simpa using hl, hstep⟩
  | case3 s l hl s' l' hstep _ ih =>
    rw [run_of_ne_nil L (by simpa using hl), hstep] at h
    obtain ⟨t, r, hreach, hr, hfail⟩ := ih h
    exact ⟨t, r, .step (by simpa using hl) hstep hreach, hr, hfail⟩

/-- An invariant of the state and the input that every step keeps holds of every reachable
state. -/
theorem Reaches.invariant (P : σ → List ι → Prop)
    (hstep : ∀ s l s' l', l ≠ [] → P s l → L.step s l = .ok (s', l') → P s' l')
    {s t : σ} {l r : List ι} (hreach : L.Reaches s l t r) (hs : P s l) : P t r := by
  induction hreach with
  | refl => exact hs
  | step hl hst _ ih => exact ih (hstep _ _ _ _ hl hs hst)

end InputLoop
