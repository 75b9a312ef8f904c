import Mathlib.Data.List.Forall2

/-!
# Greedy matching of a sequence into a subsequence

`run check ss ks` matches the items of `ss`, in order, to items of `ks`, in order: it tries the
first item of `ss` against the first of `ks`; a success moves on in both lists, a failure only
in `ks`, and the match gives up with `false` as soon as more items of `ss` remain than of `ks`.
The checks may fail, in `Except ε`.

A match exists when `ss` is related pointwise to a subsequence of `ks`, which is
`List.SublistForall₂`. The greedy choice loses nothing: when the first items match, any match of
`s :: ss` into `ks` gives one of `ss` into the rest (`sublistForall₂_of_cons`), so taking the
first key is never wrong. Hence `run` returns `true` exactly when a match exists
(`run_eq_ok`), provided it returns; it does when every check does (`run_ok`); and it consults
the checks only on items of its two lists (`run_congr`), each item of `ks` at most once, since
every call consumes one.

For lists of indices, a match is a strictly increasing map of the first indices into the second
(`sublistForall₂_range'_iff`).
-/

namespace GreedyMatch

open List

variable {α β ε : Type*}

/-! ### Matches -/

section Matches

variable {R : α → β → Prop}

theorem not_sublistForall₂_cons_nil {s : α} {ss : List α} : ¬SublistForall₂ R (s :: ss) [] := by
  rintro (_ | _)

/-- A match of `s :: ss` drops to a match of `ss`: the item matched to `s` is free. -/
theorem sublistForall₂_of_cons {s : α} {ss : List α} {ks : List β}
    (h : SublistForall₂ R (s :: ss) ks) : SublistForall₂ R ss ks := by
  induction ks with
  | nil => exact absurd h not_sublistForall₂_cons_nil
  | cons k ks ih =>
    rcases h with _ | ⟨-, hrest⟩ | ⟨hrest⟩
    · exact .cons_right hrest
    · exact .cons_right (ih hrest)

theorem length_le_of_sublistForall₂ {ss : List α} {ks : List β} (h : SublistForall₂ R ss ks) :
    ss.length ≤ ks.length := by
  induction h with
  | nil => exact Nat.zero_le _
  | cons _ _ ih => exact Nat.succ_le_succ ih
  | cons_right _ ih => exact Nat.le_succ_of_le ih

/-- The first item of `ks` either is matched to `s` or is skipped. -/
theorem sublistForall₂_cons_cons_iff {s : α} {ss : List α} {k : β} {ks : List β} :
    SublistForall₂ R (s :: ss) (k :: ks) ↔
      (R s k ∧ SublistForall₂ R ss ks) ∨ SublistForall₂ R (s :: ss) ks := by
  constructor
  · rintro (_ | ⟨hsk, hrest⟩ | ⟨hrest⟩)
    · exact .inl ⟨hsk, hrest⟩
    · exact .inr hrest
  · rintro (⟨hsk, hrest⟩ | hrest)
    · exact .cons hsk hrest
    · exact .cons_right hrest

/-- When `s` matches `k`, taking `k` for `s` is as good as any other choice. -/
theorem sublistForall₂_cons_cons_iff_of_rel {s : α} {ss : List α} {k : β} {ks : List β}
    (hsk : R s k) : SublistForall₂ R (s :: ss) (k :: ks) ↔ SublistForall₂ R ss ks := by
  rw [sublistForall₂_cons_cons_iff]
  exact ⟨fun h => h.elim And.right sublistForall₂_of_cons, fun h => .inl ⟨hsk, h⟩⟩

theorem sublistForall₂_cons_cons_iff_of_not_rel {s : α} {ss : List α} {k : β} {ks : List β}
    (hsk : ¬R s k) : SublistForall₂ R (s :: ss) (k :: ks) ↔ SublistForall₂ R (s :: ss) ks := by
  rw [sublistForall₂_cons_cons_iff]
  exact ⟨fun h => h.elim (fun h' => absurd h'.1 hsk) id, .inr⟩

end Matches

/-! ### The greedy match -/

/-- `ss` matched greedily into `ks`, giving up once more items of `ss` than of `ks` remain. -/
def run (check : α → β → Except ε Bool) : List α → List β → Except ε Bool
  | [], _ => .ok true
  | _ :: _, [] => .ok false
  | s :: ss, k :: ks =>
    match check s k with
    | .error e => .error e
    | .ok ok =>
      let rest := if ok then ss else s :: ss
      if rest.length > ks.length then .ok false else run check rest ks

section Run

variable (check : α → β → Except ε Bool)

/-- The relation the checks decide: `check s k` succeeds with `true`. -/
def Passes (s : α) (k : β) : Prop := check s k = .ok true

/-- One round: the items left after checking `s` against `k`, and `run` on the rest. -/
theorem run_cons_cons_of_ok {s : α} {ss : List α} {k : β} {ks : List β} {ok : Bool}
    (hcheck : check s k = .ok ok) :
    run check (s :: ss) (k :: ks) =
      let rest := if ok then ss else s :: ss
      if rest.length > ks.length then .ok false else run check rest ks := by
  rw [run, hcheck]

/-- The items left after a round are matched into the rest of `ks` exactly when `s :: ss` is
matched into `k :: ks`. -/
theorem sublistForall₂_rest_iff {s : α} {ss : List α} {k : β} {ks : List β} {ok : Bool}
    (hcheck : check s k = .ok ok) :
    SublistForall₂ (Passes check) (if ok then ss else s :: ss) ks ↔
      SublistForall₂ (Passes check) (s :: ss) (k :: ks) := by
  cases ok
  · have hfail : ¬Passes check s k := by
      rw [Passes, hcheck]
      exact fun h => Bool.false_ne_true (Except.ok.inj h)
    rw [sublistForall₂_cons_cons_iff_of_not_rel hfail]
    rfl
  · rw [sublistForall₂_cons_cons_iff_of_rel (R := Passes check) hcheck]
    rfl

/-- When the greedy match returns, it returns whether `ss` matches a subsequence of `ks`. -/
theorem run_eq_ok {ss : List α} {ks : List β} {b : Bool} (h : run check ss ks = .ok b) :
    (b = true ↔ SublistForall₂ (Passes check) ss ks) := by
  induction ks generalizing ss with
  | nil =>
    cases ss with
    | nil =>
      rw [run, Except.ok.injEq] at h
      exact ⟨fun _ => .nil, fun _ => h.symm⟩
    | cons s ss =>
      rw [run, Except.ok.injEq] at h
      exact ⟨fun hb => absurd (h.trans hb) Bool.false_ne_true,
        fun hm => absurd hm not_sublistForall₂_cons_nil⟩
  | cons k ks ih =>
    cases ss with
    | nil =>
      rw [run, Except.ok.injEq] at h
      exact ⟨fun _ => .nil, fun _ => h.symm⟩
    | cons s ss =>
      cases hcheck : check s k with
      | error e => rw [run, hcheck] at h; cases h
      | ok ok =>
        rw [run_cons_cons_of_ok check hcheck] at h
        rw [← sublistForall₂_rest_iff check hcheck]
        generalize (if ok = true then ss else s :: ss) = rest at h ⊢
        by_cases hlong : rest.length > ks.length
        · -- early exit: too few items of `ks` are left for a match
          rw [if_pos hlong, Except.ok.injEq] at h
          subst h
          exact ⟨fun hb => absurd hb Bool.false_ne_true,
            fun hm => absurd (length_le_of_sublistForall₂ hm) (Nat.not_le.mpr hlong)⟩
        · rw [if_neg hlong] at h
          exact ih h

/-- The items left after a round are items of `s :: ss`. -/
theorem mem_of_mem_rest {s : α} {ss : List α} (ok : Bool) :
    ∀ s' ∈ (if ok = true then ss else s :: ss), s' ∈ s :: ss := by
  split_ifs
  · exact fun s' hs' => mem_cons_of_mem s hs'
  · exact fun s' hs' => hs'

/-- When every check of an item of `ss` against an item of `ks` returns, so does the match. -/
theorem run_ok {ss : List α} {ks : List β} (hok : ∀ s ∈ ss, ∀ k ∈ ks, ∃ b, check s k = .ok b) :
    ∃ b, run check ss ks = .ok b := by
  induction ks generalizing ss with
  | nil =>
    cases ss with
    | nil => exact ⟨true, rfl⟩
    | cons s ss => exact ⟨false, rfl⟩
  | cons k ks ih =>
    cases ss with
    | nil => exact ⟨true, rfl⟩
    | cons s ss =>
      obtain ⟨ok, hcheck⟩ := hok s mem_cons_self k mem_cons_self
      rw [run_cons_cons_of_ok check hcheck]
      -- the items left are items of `s :: ss`
      have hsub := @mem_of_mem_rest _ s ss ok
      generalize (if ok = true then ss else s :: ss) = rest at hsub ⊢
      by_cases hlong : rest.length > ks.length
      · exact ⟨false, if_pos hlong⟩
      · rw [if_neg hlong]
        exact ih fun s' hs' k' hk' => hok s' (hsub s' hs') k' (mem_cons_of_mem k hk')

/-- The match consults `check` only on an item of `ss` and an item of `ks`. -/
theorem run_congr {check' : α → β → Except ε Bool} {ss : List α} {ks : List β}
    (hagree : ∀ s ∈ ss, ∀ k ∈ ks, check s k = check' s k) :
    run check ss ks = run check' ss ks := by
  induction ks generalizing ss with
  | nil =>
    cases ss with
    | nil => rfl
    | cons s ss => rfl
  | cons k ks ih =>
    cases ss with
    | nil => rfl
    | cons s ss =>
      rw [run, run, ← hagree s mem_cons_self k mem_cons_self]
      cases check s k with
      | error e => rfl
      | ok ok =>
        have hsub := @mem_of_mem_rest _ s ss ok
        dsimp only
        generalize (if ok = true then ss else s :: ss) = rest at hsub ⊢
        rw [ih fun s' hs' k' hk' => hagree s' (hsub s' hs') k' (mem_cons_of_mem k hk')]

/-- At most one check for each item of `ks` decides the match: any check that agrees with
`check` on some `ks.length` pairs gives the same result. -/
theorem run_determined_by_checks (ss : List α) (ks : List β) :
    ∃ P : List (α × β), P.length ≤ ks.length ∧
      ∀ check' : α → β → Except ε Bool, (∀ p ∈ P, check' p.1 p.2 = check p.1 p.2) →
        run check' ss ks = run check ss ks := by
  induction ks generalizing ss with
  | nil =>
    refine ⟨[], Nat.le_refl _, fun check' _ => ?_⟩
    cases ss with
    | nil => rfl
    | cons s ss => rfl
  | cons k ks ih =>
    cases ss with
    | nil => exact ⟨[], Nat.zero_le _, fun _ _ => rfl⟩
    | cons s ss =>
      cases hcheck : check s k with
      | error e =>
        -- the first check fails: it alone decides
        refine ⟨[(s, k)], Nat.succ_le_succ (Nat.zero_le _), fun check' hagree => ?_⟩
        have h' : check' s k = .error e := by rw [hagree (s, k) mem_cons_self, hcheck]
        rw [run, run, h', hcheck]
      | ok ok =>
        -- the first check, then the checks that decide the rest
        obtain ⟨P, hP, hdet⟩ := ih (if ok = true then ss else s :: ss)
        refine ⟨(s, k) :: P, Nat.succ_le_succ hP, fun check' hagree => ?_⟩
        have h' : check' s k = .ok ok := by rw [hagree (s, k) mem_cons_self, hcheck]
        rw [run_cons_cons_of_ok check' h', run_cons_cons_of_ok check hcheck]
        dsimp only
        rw [hdet check' fun p hp => hagree p (mem_cons_of_mem _ hp)]

end Run

/-! ### Matches of index ranges -/

section Ranges

variable {R : ℕ → ℕ → Prop}

/-- A strictly increasing map of the indices `a, …, a + n - 1` into `b, …, b + m - 1` along which
`R` holds. -/
def StrictMatch (R : ℕ → ℕ → Prop) (a n b m : ℕ) : Prop :=
  ∃ f : ℕ → ℕ, (∀ i < n, f i < m ∧ R (a + i) (b + f i)) ∧ ∀ i j, i < j → j < n → f i < f j

theorem strictMatch_zero_left (a b m : ℕ) : StrictMatch R a 0 b m :=
  ⟨id, fun i hi => absurd hi (Nat.not_lt_zero i), fun _ _ _ hj => absurd hj (Nat.not_lt_zero _)⟩

theorem not_strictMatch_zero_right {a b n : ℕ} : ¬StrictMatch R a (n + 1) b 0 := by
  rintro ⟨f, hf, -⟩
  exact Nat.not_lt_zero _ (hf 0 (Nat.zero_lt_succ n)).1

/-- `a` sent to `b`, and a match of the rest one further on. -/
theorem StrictMatch.cons {a b n m : ℕ} (hab : R a b) (h : StrictMatch R (a + 1) n (b + 1) m) :
    StrictMatch R a (n + 1) b (m + 1) := by
  obtain ⟨g, hg, hmono⟩ := h
  refine ⟨fun i => if i = 0 then 0 else g (i - 1) + 1, fun i hi => ?_, fun i j hij hj => ?_⟩
  · rcases i with _ | i
    · exact ⟨Nat.zero_lt_succ m, hab⟩
    · obtain ⟨hlt, hrel⟩ := hg i (by omega)
      have hidx : a + (i + 1) = a + 1 + i := by omega
      have hkey : b + (g i + 1) = b + 1 + g i := by omega
      simp only [Nat.add_one_ne_zero, if_false, Nat.add_sub_cancel]
      exact ⟨by omega, by rw [hidx, hkey]; exact hrel⟩
  · rcases j with _ | j
    · omega
    · rcases i with _ | i
      · simp
      · have := hmono i j (by omega) (by omega)
        simp only [Nat.add_one_ne_zero, if_false, Nat.add_sub_cancel]
        omega

/-- A match that skips `b`. -/
theorem StrictMatch.skip {a b n m : ℕ} (h : StrictMatch R a n (b + 1) m) :
    StrictMatch R a n b (m + 1) := by
  obtain ⟨g, hg, hmono⟩ := h
  refine ⟨fun i => g i + 1, fun i hi => ?_, fun i j hij hj => Nat.succ_lt_succ (hmono i j hij hj)⟩
  obtain ⟨hlt, hrel⟩ := hg i hi
  have hkey : b + (g i + 1) = b + 1 + g i := by omega
  exact ⟨Nat.succ_lt_succ hlt, by rw [hkey]; exact hrel⟩

/-- A match either sends `a` to `b` or skips `b`. -/
theorem StrictMatch.uncons {a b n m : ℕ} (h : StrictMatch R a (n + 1) b (m + 1)) :
    (R a b ∧ StrictMatch R (a + 1) n (b + 1) m) ∨ StrictMatch R a (n + 1) (b + 1) m := by
  obtain ⟨f, hf, hmono⟩ := h
  by_cases h0 : f 0 = 0
  · -- every later index goes further than `b`
    have hpos : ∀ i, i < n → 0 < f (i + 1) := fun i hi => by
      have := hmono 0 (i + 1) (Nat.zero_lt_succ i) (by omega)
      omega
    have hab : R a b := by simpa [h0] using (hf 0 (Nat.zero_lt_succ n)).2
    refine .inl ⟨hab, fun i => f (i + 1) - 1, fun i hi => ?_, fun i j hij hj => ?_⟩ <;> beta_reduce
    · obtain ⟨hlt, hrel⟩ := hf (i + 1) (by omega)
      have := hpos i hi
      have hidx : a + 1 + i = a + (i + 1) := by omega
      have hkey : b + 1 + (f (i + 1) - 1) = b + f (i + 1) := by omega
      exact ⟨by omega, by rw [hidx, hkey]; exact hrel⟩
    · have := hmono (i + 1) (j + 1) (by omega) (by omega)
      have := hpos i (by omega)
      omega
  · -- no index goes to `b`
    have hpos : ∀ i, i < n + 1 → 0 < f i := fun i hin => by
      rcases i with _ | i
      · omega
      · have := hmono 0 (i + 1) (Nat.zero_lt_succ i) hin
        omega
    refine .inr ⟨fun i => f i - 1, fun i hi => ?_, fun i j hij hj => ?_⟩ <;> beta_reduce
    · obtain ⟨hlt, hrel⟩ := hf i hi
      have := hpos i hi
      have hkey : b + 1 + (f i - 1) = b + f i := by omega
      exact ⟨by omega, by rw [hkey]; exact hrel⟩
    · have := hmono i j hij hj
      have := hpos i (by omega)
      omega

/-- Indices `a, …, a + n - 1` match into `b, …, b + m - 1` exactly when a strictly increasing map
sends them there along `R`. -/
theorem sublistForall₂_range'_iff {a b n m : ℕ} :
    SublistForall₂ R (range' a n) (range' b m) ↔ StrictMatch R a n b m := by
  induction m generalizing a b n with
  | zero =>
    cases n with
    | zero => exact ⟨fun _ => strictMatch_zero_left a b 0, fun _ => .nil⟩
    | succ n =>
      exact ⟨fun h => absurd h not_sublistForall₂_cons_nil,
        fun h => absurd h not_strictMatch_zero_right⟩
  | succ m ih =>
    cases n with
    | zero => exact ⟨fun _ => strictMatch_zero_left a b (m + 1), fun _ => .nil⟩
    | succ n =>
      rw [range'_succ, range'_succ, sublistForall₂_cons_cons_iff, ← range'_succ, ih, ih]
      constructor
      · rintro (⟨hab, h⟩ | h)
        · exact h.cons hab
        · exact h.skip
      · exact StrictMatch.uncons

end Ranges

end GreedyMatch
