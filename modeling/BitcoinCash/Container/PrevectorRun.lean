import BitcoinCash.Container.Prevector

/-!
# Runs of prevector operations

`prevector_tests.cpp` applies the same operations to a `prevector<N, T>` and to a
`std::vector<T>` and compares the two after each one. This file models such runs on a store of
prevectors, one for each name, next to a store of `std::vector`s given by their elements, and
shows that the prevectors keep holding the vectors' elements in the layout of `prevector.h`.

`std::vector` is modelled by its list of elements (`Op.applyVector`). Positions, counts and
ranges are those a caller passes; a position out of range or a `pop_back` on an empty vector is
undefined for both containers, so `Op.Valid` excludes them. The size fields are `uint32_t`, and
the growth `n + (n >> 1)` and the `int32_t` distance of `insert(pos, first, last)` wrap long
before `std::vector` runs out of room, so a run is `Admissible` when every vector keeps fewer
than `2 ^ 31 - N` elements. Without that bound the refinement fails: `ofCount_size_wraps`.
-/

namespace BitcoinCash

namespace Prevector

/-- The operations a run applies, each to the prevector or vector `x` of a store (and `y` for
the operations on two objects). -/
inductive Op (ι T : Type)
  /-- `prevector(first, last)`. -/
  | ofRange (x : ι) (values : List T)
  /-- `prevector(n)`. -/
  | ofCount (x : ι) (n : ℕ)
  /-- `prevector(n, value)`. -/
  | ofFill (x : ι) (n : ℕ) (value : T)
  | assign (x : ι) (n : ℕ) (value : T)
  /-- `assign(first, last)`. -/
  | assignRange (x : ι) (values : List T)
  | resize (x : ι) (n : ℕ)
  /-- `resize_uninitialized(n)`, then the new elements set to `values`. -/
  | resizeUninitialized (x : ι) (n : ℕ) (values : List T)
  | reserve (x : ι) (n : ℕ)
  | shrinkToFit (x : ι)
  | clear (x : ι)
  | insert (x : ι) (pos : ℕ) (value : T)
  /-- `insert(pos, count, value)`. -/
  | insertFill (x : ι) (pos count : ℕ) (value : T)
  /-- `insert(pos, first, last)`. -/
  | insertRange (x : ι) (pos : ℕ) (values : List T)
  /-- `erase(pos)`. -/
  | erase (x : ι) (pos : ℕ)
  /-- `erase(first, last)`. -/
  | eraseRange (x : ι) (first last : ℕ)
  | pushBack (x : ι) (value : T)
  | emplaceBack (x : ι) (value : T)
  | popBack (x : ι)
  /-- `x[pos] = value`. -/
  | update (x : ι) (pos : ℕ) (value : T)
  /-- `x.swap(y)`. -/
  | swap (x y : ι)
  /-- `x` constructed as `prevector(y)`. -/
  | copyConstruct (x y : ι)
  /-- `x = y`. -/
  | copyAssign (x y : ι)
  /-- `x` constructed as `prevector(std::move(y))`. -/
  | moveConstruct (x y : ι)
  /-- `x = std::move(y)` and then `y.clear()`, as `prevector_tester::move` does: `std::vector`
  leaves a moved-from object unspecified, and the test clears it before it uses it again. -/
  | moveAssign (x y : ι)

variable {ι T : Type} [DecidableEq ι]

/-- The preconditions the caller of an operation keeps: positions inside the vector, a
non-empty vector to pop, as many new values as `resize_uninitialized` adds, a `size_type`
capacity, and a new object to move into. -/
def Op.Valid (v : ι → List T) : Op ι T → Prop
  | .resizeUninitialized x n values => values.length = n - (v x).length
  | .reserve _ n => n < 2 ^ 32
  | .insert x pos _ => pos ≤ (v x).length
  | .insertFill x pos _ _ => pos ≤ (v x).length
  | .insertRange x pos _ => pos ≤ (v x).length
  | .erase x pos => pos < (v x).length
  | .eraseRange x first last => first ≤ last ∧ last ≤ (v x).length
  | .popBack x => 0 < (v x).length
  | .update x pos _ => pos < (v x).length
  | .moveConstruct x y => x ≠ y
  | _ => True

instance (v : ι → List T) (op : Op ι T) : Decidable (op.Valid v) := by
  cases op <;> unfold Op.Valid <;> infer_instance

section Store

variable (N : ℕ)

/-- Every vector has fewer than `2 ^ 31 - N` elements. -/
def Bounded (v : ι → List T) : Prop := ∀ x, N + (v x).length < 2 ^ 31

instance [Fintype ι] (v : ι → List T) : Decidable (Bounded N v) :=
  inferInstanceAs (Decidable (∀ x, N + (v x).length < 2 ^ 31))

/-- Every prevector of the store holds the vector of the same name. -/
def StoreRefines (s : ι → Prevector T) (v : ι → List T) : Prop := ∀ x, Refines N (s x) (v x)

variable {N} {s : ι → Prevector T} {v : ι → List T}

theorem StoreRefines.update (hR : StoreRefines N s v) {x : ι} {q : Prevector T} {w : List T}
    (hq : Refines N q w) : StoreRefines N (Function.update s x q) (Function.update v x w) := by
  intro z
  by_cases hz : z = x
  · subst hz
    rw [Function.update_self, Function.update_self]
    exact hq
  · rw [Function.update_of_ne hz, Function.update_of_ne hz]
    exact hR z

/-- An operation that replaces one prevector by one holding `w`. -/
theorem StoreRefines.map_update (hR : StoreRefines N s v) {x : ι} {o : Option (Prevector T)}
    {w : List T} (h : ∃ q, o = some q ∧ Refines N q w) :
    ∃ s', o.map (Function.update s x) = some s' ∧ StoreRefines N s' (Function.update v x w) := by
  obtain ⟨q, hq, hRq⟩ := h
  exact ⟨_, by rw [hq, Option.map_some], hR.update hRq⟩

/-- An operation that keeps the elements of one prevector. -/
theorem StoreRefines.map_update_same (hR : StoreRefines N s v) {x : ι}
    {o : Option (Prevector T)} (h : ∃ q, o = some q ∧ Refines N q (v x)) :
    ∃ s', o.map (Function.update s x) = some s' ∧ StoreRefines N s' v := by
  have := hR.map_update (x := x) h
  rwa [Function.update_eq_self] at this

theorem Bounded.of_update {x : ι} {w : List T} (h : Bounded N (Function.update v x w)) :
    N + w.length < 2 ^ 31 := by
  have hx := h x
  rwa [Function.update_self] at hx

end Store

variable [Inhabited T] (N : ℕ)

/-- An operation on a store of prevectors; `none` where the code has undefined behaviour. -/
def Op.apply (s : ι → Prevector T) : Op ι T → Option (ι → Prevector T)
  | .ofRange x values => (Prevector.ofRange N (values.map some)).map (Function.update s x)
  | .ofCount x n => (Prevector.ofCount N n).map (Function.update s x)
  | .ofFill x n value => (Prevector.ofFill N n value).map (Function.update s x)
  | .assign x n value => ((s x).assign N n value).map (Function.update s x)
  | .assignRange x values => ((s x).assignRange N (values.map some)).map (Function.update s x)
  | .resize x n => ((s x).resize N n).map (Function.update s x)
  | .resizeUninitialized x n values =>
    (((s x).resizeUninitialized N n).bind fun q => q.setEach N ((s x).size N) values).map
      (Function.update s x)
  | .reserve x n => ((s x).reserve N n).map (Function.update s x)
  | .shrinkToFit x => ((s x).shrinkToFit N).map (Function.update s x)
  | .clear x => ((s x).clear N).map (Function.update s x)
  | .insert x pos value => ((s x).insert N pos value).map (Function.update s x)
  | .insertFill x pos count value =>
    ((s x).insertFill N pos count value).map (Function.update s x)
  | .insertRange x pos values =>
    ((s x).insertRange N pos (values.map some)).map (Function.update s x)
  | .erase x pos => ((s x).erase N pos (pos + 1)).map (Function.update s x)
  | .eraseRange x first last => ((s x).erase N first last).map (Function.update s x)
  | .pushBack x value => ((s x).pushBack N value).map (Function.update s x)
  | .emplaceBack x value => ((s x).emplaceBack N value).map (Function.update s x)
  | .popBack x => ((s x).popBack N).map (Function.update s x)
  | .update x pos value => ((s x).setAt N pos value).map (Function.update s x)
  -- `swap` exchanges the unions and the sizes
  | .swap x y => some (Function.update (Function.update s x (s y)) y (s x))
  | .copyConstruct x y => (Prevector.copy N (s y)).map (Function.update s x)
  -- `operator=` returns at once on self-assignment
  | .copyAssign x y =>
    if x = y then some s else ((s x).copyAssign N (s y)).map (Function.update s x)
  -- the new object starts empty and swaps with `y`
  | .moveConstruct x y =>
    some (Function.update (Function.update s y (Prevector.empty N)) x (s y))
  | .moveAssign x y =>
    let s := Function.update (Function.update s x (s y)) y (s x)
    ((s y).clear N).map (Function.update s y)

/-- The same operation on a store of `std::vector`s. -/
def Op.applyVector (v : ι → List T) : Op ι T → ι → List T
  | .ofRange x values => Function.update v x values
  | .ofCount x n => Function.update v x (List.replicate n default)
  | .ofFill x n value => Function.update v x (List.replicate n value)
  | .assign x n value => Function.update v x (List.replicate n value)
  | .assignRange x values => Function.update v x values
  | .resize x n =>
    Function.update v x ((v x).take n ++ List.replicate (n - (v x).length) default)
  | .resizeUninitialized x n values => Function.update v x ((v x).take n ++ values)
  | .reserve _ _ => v
  | .shrinkToFit _ => v
  | .clear x => Function.update v x []
  | .insert x pos value => Function.update v x ((v x).take pos ++ [value] ++ (v x).drop pos)
  | .insertFill x pos count value =>
    Function.update v x ((v x).take pos ++ List.replicate count value ++ (v x).drop pos)
  | .insertRange x pos values =>
    Function.update v x ((v x).take pos ++ values ++ (v x).drop pos)
  | .erase x pos => Function.update v x ((v x).eraseIdx pos)
  | .eraseRange x first last => Function.update v x ((v x).take first ++ (v x).drop last)
  | .pushBack x value => Function.update v x (v x ++ [value])
  | .emplaceBack x value => Function.update v x (v x ++ [value])
  | .popBack x => Function.update v x (v x).dropLast
  | .update x pos value => Function.update v x ((v x).set pos value)
  | .swap x y => Function.update (Function.update v x (v y)) y (v x)
  | .copyConstruct x y => Function.update v x (v y)
  | .copyAssign x y => Function.update v x (v y)
  | .moveConstruct x y => Function.update (Function.update v y []) x (v y)
  | .moveAssign x y => Function.update (Function.update v x (v y)) y []

/-- A run of operations on a store of prevectors. -/
def run (s : ι → Prevector T) : List (Op ι T) → Option (ι → Prevector T)
  | [] => some s
  | op :: ops => (op.apply N s).bind fun s => run s ops

/-- The same run on `std::vector`s. -/
def runVector (v : ι → List T) (ops : List (Op ι T)) : ι → List T :=
  ops.foldl Op.applyVector v

/-- Every operation of the run is valid where it is applied, and leaves the vectors bounded. -/
def Admissible : (ι → List T) → List (Op ι T) → Prop
  | _, [] => True
  | v, op :: ops => op.Valid v ∧ Bounded N (op.applyVector v) ∧ Admissible (op.applyVector v) ops

instance decidableAdmissible [Fintype ι] : (v : ι → List T) → (ops : List (Op ι T)) →
    Decidable (Admissible N v ops)
  | _, [] => isTrue trivial
  | v, op :: ops =>
    haveI := decidableAdmissible (op.applyVector v) ops
    inferInstanceAs (Decidable (_ ∧ _ ∧ _))

variable {N} {s : ι → Prevector T} {v : ι → List T}

/-- One valid operation that leaves the vectors bounded keeps every prevector a refinement of
its vector. -/
theorem Op.apply_refines {op : Op ι T} (hR : StoreRefines N s v) (hb : Bounded N v)
    (hvalid : op.Valid v) (hb' : Bounded N (op.applyVector v)) :
    ∃ s', op.apply N s = some s' ∧ StoreRefines N s' (op.applyVector v) := by
  cases op with
  | ofRange x values => exact hR.map_update (ofRange_spec values hb'.of_update)
  | ofCount x n =>
    have h := hb'.of_update
    rw [List.length_replicate] at h
    exact hR.map_update (ofCount_spec h)
  | ofFill x n value =>
    have h := hb'.of_update
    rw [List.length_replicate] at h
    exact hR.map_update (ofFill_spec value h)
  | assign x n value =>
    have h := hb'.of_update
    rw [List.length_replicate] at h
    exact hR.map_update ((hR x).assign_spec h (hb x))
  | assignRange x values => exact hR.map_update ((hR x).assignRange_spec hb'.of_update (hb x))
  | resize x n =>
    have h := hb'.of_update
    simp only [List.length_append, List.length_take, List.length_replicate] at h
    exact hR.map_update ((hR x).resize_spec (by omega) (hb x))
  | resizeUninitialized x n values =>
    have h := hb'.of_update
    have hx := hb x
    rw [Op.Valid] at hvalid
    simp only [List.length_append, List.length_take] at h
    exact hR.map_update ((hR x).resizeUninitialized_spec hvalid (by omega) hx)
  | reserve x n =>
    obtain ⟨q, hq, hRq, -⟩ := (hR x).reserve_spec hvalid (hb x)
    exact hR.map_update_same ⟨q, hq, hRq⟩
  | shrinkToFit x =>
    obtain ⟨q, hq, hRq, -⟩ := (hR x).shrinkToFit_spec (hb x)
    exact hR.map_update_same ⟨q, hq, hRq⟩
  | clear x => exact hR.map_update ((hR x).clear_spec (hb x))
  | insert x pos value =>
    have h := hb'.of_update
    simp only [List.length_append, List.length_take, List.length_drop,
      List.length_singleton] at h
    rw [Op.Valid] at hvalid
    exact hR.map_update ((hR x).insert_spec hvalid (by omega))
  | insertFill x pos count value =>
    have h := hb'.of_update
    simp only [List.length_append, List.length_take, List.length_drop,
      List.length_replicate] at h
    rw [Op.Valid] at hvalid
    exact hR.map_update ((hR x).insertFill_spec hvalid (by omega))
  | insertRange x pos values =>
    have h := hb'.of_update
    simp only [List.length_append, List.length_take, List.length_drop] at h
    rw [Op.Valid] at hvalid
    rw [Op.apply, Op.applyVector]
    exact hR.map_update ((hR x).insertRange_spec hvalid (by omega))
  | erase x pos =>
    rw [Op.Valid] at hvalid
    rw [Op.apply, Op.applyVector, List.eraseIdx_eq_take_drop_succ]
    exact hR.map_update ((hR x).erase_spec (Nat.le_succ pos) hvalid)
  | eraseRange x first last =>
    obtain ⟨hfirst, hlast⟩ := hvalid
    exact hR.map_update ((hR x).erase_spec hfirst hlast)
  | pushBack x value =>
    have h := hb'.of_update
    rw [List.length_append, List.length_singleton] at h
    exact hR.map_update ((hR x).pushBack_spec h)
  | emplaceBack x value =>
    have h := hb'.of_update
    rw [List.length_append, List.length_singleton] at h
    exact hR.map_update ((hR x).emplaceBack_spec h)
  | popBack x =>
    rw [Op.Valid] at hvalid
    exact hR.map_update ((hR x).popBack_spec (List.length_pos_iff.mp hvalid))
  | update x pos value =>
    rw [Op.Valid] at hvalid
    exact hR.map_update ((hR x).setAt_spec hvalid)
  | swap x y => exact ⟨_, rfl, (hR.update (hR y)).update (hR x)⟩
  | copyConstruct x y => exact hR.map_update ((hR y).copy_spec (hb y))
  | copyAssign x y =>
    by_cases hxy : x = y
    · subst hxy
      refine ⟨s, by rw [Op.apply, if_pos rfl], ?_⟩
      rw [Op.applyVector, Function.update_eq_self]
      exact hR
    · rw [Op.apply, if_neg hxy]
      exact hR.map_update ((hR x).copyAssign_spec (hR y) (hb y) (hb x))
  | moveConstruct x y => exact ⟨_, rfl, (hR.update refines_empty).update (hR y)⟩
  | moveAssign x y =>
    -- after the swap `y` holds the old `x`, which `clear` then empties
    have hswap := (hR.update (x := x) (hR y)).update (x := y) (hR x)
    have hy : N + (Function.update (Function.update v x (v y)) y (v x) y).length < 2 ^ 31 := by
      rw [Function.update_self]
      exact hb x
    have := hswap.map_update (x := y) ((hswap y).clear_spec hy)
    rwa [Function.update_idem] at this

/-- **Run refinement.** From a store in which every prevector holds its vector, an admissible run
never reaches undefined behaviour and keeps every prevector holding its vector. -/
theorem run_refines {ops : List (Op ι T)} (hR : StoreRefines N s v) (hb : Bounded N v)
    (hadm : Admissible N v ops) :
    ∃ s', run N s ops = some s' ∧ StoreRefines N s' (runVector v ops) := by
  -- induction on the run, carrying the refinement and the bound from one operation to the next
  induction ops generalizing s v with
  | nil => exact ⟨s, rfl, hR⟩
  | cons op ops ih =>
    obtain ⟨hvalid, hb', hadm'⟩ := hadm
    obtain ⟨s1, hs1, hR1⟩ := Op.apply_refines hR hb hvalid hb'
    obtain ⟨s', hs', hR'⟩ := ih hR1 hb' hadm'
    exact ⟨s', by rw [run, hs1, Option.bind_some, hs'], hR'⟩

/-- From new objects, every admissible run keeps each prevector holding the elements of the
`std::vector` given the same operations, with `size()` their number, in the layout of
`prevector.h`. -/
theorem prevector_refines_vector (hN : N < 2 ^ 31) (ops : List (Op ι T))
    (hadm : Admissible N (fun _ => []) ops) :
    ∃ s, run N (fun _ => empty N) ops = some s ∧
      StoreRefines N s (runVector (fun _ => []) ops) :=
  run_refines (fun _ => refines_empty) (fun _ => hN) hadm

theorem prevector_refines_vector_tester :
    (2 : ℕ) < 2 ^ 31 ∧
      Admissible 2 (fun _ : Bool => ([] : List ℕ))
        [.pushBack true 1, .pushBack true 2, .pushBack true 3, .insert true 1 9,
          .swap true false, .erase false 0, .moveAssign true false] ∧
      ∃ s, run 2 (fun _ => empty 2) [Op.pushBack true 1, .pushBack true 2, .pushBack true 3,
          .insert true 1 9, .swap true false, .erase false 0, .moveAssign true false] = some s ∧
        StoreRefines 2 s (runVector (fun _ => []) [Op.pushBack true 1, .pushBack true 2,
          .pushBack true 3, .insert true 1 9, .swap true false, .erase false 0,
          .moveAssign true false]) :=
  ⟨by decide, by decide, prevector_refines_vector (by decide) _ (by decide)⟩

/-! ### Without the bound -/

/-- `prevector(n)` for `n` past the object allocates a block of `n` slots and adds `n` to
`_size = N + 1` in `uint32_t`. -/
theorem ofCount_rawSize {n : ℕ} (hN : N < n) (hn : n < 2 ^ 32) (hN31 : N < 2 ^ 31) :
    ∃ q : Prevector T, ofCount N n = some q ∧ q.rawSize = wrapAdd (N + 1) n := by
  obtain ⟨q, hq, hRq, hcap⟩ := (refines_empty (N := N) (T := T)).changeCapacity_spec (c := n)
    (Nat.zero_le n) hn (by rw [List.length_nil]; omega)
  rw [Nat.max_eq_left (Nat.le_of_lt hN)] at hcap
  -- a block of more than `N` slots makes the prevector indirect
  have hind : N < q.rawSize := by
    by_cases h : q.rawSize ≤ N
    · rw [capacity_of_le h] at hcap
      omega
    · exact Nat.lt_of_not_le h
  have hraw := hRq.rawSize_eq hind
  have hlen := hRq.length_buffer
  have hfits : 0 + (List.replicate (n - 0) (some (default : T))).length ≤
      (q.buffer (q.region N)).length := by
    rw [List.length_replicate, hlen, hcap]
    omega
  have hempty : (empty N : Prevector T).size N = 0 := size_of_le (Nat.zero_le N)
  rw [ofCount, resize]
  dsimp only
  rw [hempty, if_neg (by omega), if_neg (by omega), Option.bind_eq_bind,
    capacity_of_le (p := empty N) (Nat.zero_le N), if_pos hN, hq, Option.bind_some,
    write_eq_some hfits, Option.bind_some]
  refine ⟨_, rfl, ?_⟩
  dsimp only
  rw [rawSize_setBuffer, hraw, List.length_nil, Nat.zero_add, Nat.sub_zero]

/-- At `N = 1`, `prevector(2 ^ 32 - 1)` wraps `_size` around to `1`: the prevector is direct with
one element where the vector has `2 ^ 32 - 1`. -/
theorem ofCount_size_wraps :
    ∃ s, run 1 (fun _ : Unit => (empty 1 : Prevector ℕ)) [.ofCount () (2 ^ 32 - 1)] = some s ∧
      (s ()).size 1 = 1 ∧
      (runVector (fun _ : Unit => ([] : List ℕ)) [.ofCount () (2 ^ 32 - 1)] ()).length =
        2 ^ 32 - 1 := by
  obtain ⟨q, hq, hraw⟩ :=
    ofCount_rawSize (N := 1) (T := ℕ) (n := 2 ^ 32 - 1) (by omega) (by omega) (by omega)
  have hwrap : wrapAdd (1 + 1) (2 ^ 32 - 1) = 1 := by decide
  have hdirect : q.rawSize ≤ 1 := by
    rw [hraw, hwrap]
  refine ⟨Function.update (fun _ => empty 1) () q, ?_, ?_, ?_⟩
  · rw [run, Op.apply, hq, Option.map_some, Option.bind_some, run]
  · rw [Function.update_self, size_of_le hdirect, hraw, hwrap]
  · rw [runVector, List.foldl_cons, List.foldl_nil, Op.applyVector, Function.update_self,
      List.length_replicate]

end Prevector

end BitcoinCash
