import Mathlib.Data.List.Basic
import Mathlib.Tactic.Linarith

/-!
# The condition stack of the script interpreter

`EvalScript` keeps one boolean per open `OP_IF`: whether the enclosing branch executes. Only two
facts about that stack are ever observed, whether it is empty and whether it holds a `false`, so
`ConditionStack` (`script/interpreter.cpp`) does not store it: it keeps the size of the implied
stack and the position of its first `false`, both as `uint32_t`, with `NO_FALSE` for "no false".

This file proves that the optimised stack refines the plain `std::vector<bool>` it stands for,
along every run of `push_back`, `pop_back` and `toggle_top` in which the last two only meet a
non-empty stack (as `EvalScript` guarantees through its `empty()` checks) and fewer than
`2 ^ 32 - 1` values are pushed.
-/

namespace BitcoinCash

/-- `ConditionStack::NO_FALSE`, the `uint32_t` maximum. -/
def noFalse : UInt32 := 0xffffffff

/-- `ConditionStack`: the size of the implied stack of booleans and the position of its first
`false`, or `noFalse` when every value is `true`. -/
structure ConditionStack where
  /-- `m_stack_size`. -/
  mStackSize : UInt32 := 0
  /-- `m_first_false_pos`. -/
  mFirstFalsePos : UInt32 := noFalse
  deriving DecidableEq, Repr

namespace ConditionStack

/-- `ConditionStack::empty`. -/
def empty (c : ConditionStack) : Bool := c.mStackSize == 0

/-- `ConditionStack::all_true`. -/
def allTrue (c : ConditionStack) : Bool := c.mFirstFalsePos == noFalse

/-- `ConditionStack::push_back`. -/
def pushBack (c : ConditionStack) (f : Bool) : ConditionStack :=
  -- a false pushed onto an all-true stack becomes the first false, at the current size
  let pos := if c.mFirstFalsePos == noFalse && !f then c.mStackSize else c.mFirstFalsePos
  { mStackSize := c.mStackSize + 1, mFirstFalsePos := pos }

/-- `ConditionStack::pop_back`. -/
def popBack (c : ConditionStack) : ConditionStack :=
  let size := c.mStackSize - 1
  { mStackSize := size,
    mFirstFalsePos := if c.mFirstFalsePos == size then noFalse else c.mFirstFalsePos }

/-- `ConditionStack::toggle_top`. -/
def toggleTop (c : ConditionStack) : ConditionStack :=
  if c.mFirstFalsePos == noFalse then { c with mFirstFalsePos := c.mStackSize - 1 }
  else if c.mFirstFalsePos == c.mStackSize - 1 then { c with mFirstFalsePos := noFalse }
  -- toggling a value above the first false is unobservable
  else c

/-! ### Runs against the plain vector -/

/-- The three modifiers of the condition stack. -/
inductive Op where
  | pushBack (f : Bool)
  | popBack
  | toggleTop
  deriving DecidableEq, Repr

/-- One operation on the optimised stack. -/
def apply (c : ConditionStack) : Op → ConditionStack
  | .pushBack f => c.pushBack f
  | .popBack => c.popBack
  | .toggleTop => c.toggleTop

/-- One operation on the `std::vector<bool>` the stack stands for. -/
def applyVector (v : List Bool) : Op → List Bool
  | .pushBack f => v ++ [f]
  | .popBack => v.dropLast
  | .toggleTop => v.dropLast ++ v.getLast?.toList.map (!·)

/-- A run of operations on the optimised stack. -/
def run (c : ConditionStack) (ops : List Op) : ConditionStack := ops.foldl apply c

/-- The same run on the vector. -/
def runVector (v : List Bool) (ops : List Op) : List Bool := ops.foldl applyVector v

/-- `pop_back` and `toggle_top` only meet a non-empty stack along the run. -/
def Admissible : List Bool → List Op → Prop
  | _, [] => True
  | v, op :: ops => ((op = .popBack ∨ op = .toggleTop) → v ≠ []) ∧
      Admissible (applyVector v op) ops

/-- The number of `push_back` operations of a run. -/
def pushCount (ops : List Op) : ℕ := ops.countP fun op => op matches .pushBack _

/-- The position of the first `false` of the vector, or `2 ^ 32 - 1` when there is none. -/
def firstFalsePos (v : List Bool) : ℕ := if false ∈ v then v.idxOf false else 2 ^ 32 - 1

/-- The simulation relation: the size is the vector's length, the position is that of its first
`false`, and the vector is short enough that no position collides with `NO_FALSE`. -/
structure Refines (c : ConditionStack) (v : List Bool) : Prop where
  size_eq : c.mStackSize.toNat = v.length
  length_lt : v.length < 2 ^ 32
  pos_eq : c.mFirstFalsePos.toNat = firstFalsePos v

/-! ### `uint32_t` arithmetic of the summary -/

theorem toNat_noFalse : noFalse.toNat = 2 ^ 32 - 1 := rfl

theorem beq_eq_decide_toNat (a b : UInt32) : (a == b) = decide (a.toNat = b.toNat) := by
  rw [Bool.eq_iff_iff, beq_iff_eq, decide_eq_true_iff, UInt32.toNat_inj]

theorem toNat_add_one {a : UInt32} (h : a.toNat + 1 < 2 ^ 32) : (a + 1).toNat = a.toNat + 1 := by
  rw [UInt32.toNat_add]
  simp only [UInt32.toNat_one]
  omega

theorem toNat_sub_one {a : UInt32} (h : 0 < a.toNat) : (a - 1).toNat = a.toNat - 1 := by
  have := a.toNat_lt
  rw [UInt32.toNat_sub]
  simp only [UInt32.toNat_one]
  omega

/-! ### The position of the first false -/

theorem firstFalsePos_of_mem {v : List Bool} (hv : false ∈ v) : firstFalsePos v = v.idxOf false :=
  if_pos hv

theorem firstFalsePos_of_not_mem {v : List Bool} (hv : false ∉ v) :
    firstFalsePos v = 2 ^ 32 - 1 :=
  if_neg hv

theorem firstFalsePos_lt_length {v : List Bool} (hv : false ∈ v) : firstFalsePos v < v.length := by
  rw [firstFalsePos_of_mem hv]
  exact List.idxOf_lt_length_of_mem hv

theorem firstFalsePos_append_of_mem {v : List Bool} (hv : false ∈ v) (b : Bool) :
    firstFalsePos (v ++ [b]) = firstFalsePos v := by
  rw [firstFalsePos_of_mem hv, firstFalsePos_of_mem (List.mem_append_left _ hv),
    List.idxOf_append_of_mem hv]

theorem firstFalsePos_append_false_of_not_mem {v : List Bool} (hv : false ∉ v) :
    firstFalsePos (v ++ [false]) = v.length := by
  rw [firstFalsePos_of_mem (by simp), List.idxOf_append_of_notMem hv]
  simp

theorem firstFalsePos_append_true_of_not_mem {v : List Bool} (hv : false ∉ v) :
    firstFalsePos (v ++ [true]) = 2 ^ 32 - 1 :=
  firstFalsePos_of_not_mem (by simpa using hv)

/-! ### One operation keeps the simulation -/

variable {c : ConditionStack} {v : List Bool}

/-- Under the simulation `NO_FALSE` means that the vector holds no `false`. -/
theorem Refines.pos_eq_noFalse_iff (h : Refines c v) :
    c.mFirstFalsePos = noFalse ↔ false ∉ v := by
  rw [← UInt32.toNat_inj, h.pos_eq, toNat_noFalse]
  by_cases hv : false ∈ v
  · have := firstFalsePos_lt_length hv
    have := h.length_lt
    simp only [hv, not_true_eq_false, iff_false]
    omega
  · simp [hv, firstFalsePos_of_not_mem hv]

/-- The two observations agree with the vector. -/
theorem Refines.empty_eq (h : Refines c v) : c.empty = v.isEmpty := by
  rw [empty, beq_eq_decide_toNat, h.size_eq]
  cases v <;> simp

theorem Refines.allTrue_eq (h : Refines c v) : c.allTrue = decide (false ∉ v) := by
  rw [allTrue, Bool.eq_iff_iff, beq_iff_eq, h.pos_eq_noFalse_iff, decide_eq_true_iff]

theorem refines_pushBack (h : Refines c v) (hroom : v.length + 1 < 2 ^ 32) (f : Bool) :
    Refines (c.pushBack f) (v ++ [f]) := by
  have hsize : (c.mStackSize + 1).toNat = v.length + 1 := by
    rw [toNat_add_one (by rw [h.size_eq]; exact hroom), h.size_eq]
  refine ⟨by simpa [pushBack] using hsize, by simpa using hroom, ?_⟩
  simp only [pushBack]
  by_cases hv : false ∈ v
  · have hne : (c.mFirstFalsePos == noFalse) = false := by
      simpa [h.pos_eq_noFalse_iff] using hv
    rw [hne, Bool.false_and, if_neg Bool.false_ne_true, h.pos_eq,
      firstFalsePos_append_of_mem hv]
  · have heq : (c.mFirstFalsePos == noFalse) = true := by
      simpa [h.pos_eq_noFalse_iff] using hv
    cases f with
    | false =>
      rw [heq, firstFalsePos_append_false_of_not_mem hv, h.size_eq.symm]
      rfl
    | true =>
      simp only [heq, Bool.not_true, Bool.and_false, Bool.false_eq_true, if_false]
      rw [firstFalsePos_append_true_of_not_mem hv, h.pos_eq, firstFalsePos_of_not_mem hv]

theorem refines_popBack (h : Refines c v) (hne : v ≠ []) : Refines c.popBack v.dropLast := by
  obtain ⟨w, b, rfl⟩ := (v.eq_nil_or_concat).resolve_left hne
  rw [List.concat_eq_append] at h ⊢
  have hlen := h.length_lt
  simp only [List.length_append, List.length_singleton] at hlen
  have hsize : (c.mStackSize - 1).toNat = w.length := by
    rw [toNat_sub_one (by rw [h.size_eq]; simp), h.size_eq]
    simp
  refine ⟨by simpa [popBack] using hsize, by simp; omega, ?_⟩
  simp only [popBack, List.dropLast_concat, beq_eq_decide_toNat, hsize, h.pos_eq]
  by_cases hw : false ∈ w
  · -- the first false lies below the popped value
    have hlt := firstFalsePos_lt_length hw
    rw [firstFalsePos_append_of_mem hw, decide_eq_false (by omega), if_neg Bool.false_ne_true,
      h.pos_eq, firstFalsePos_append_of_mem hw]
  · cases b with
    | false =>
      rw [firstFalsePos_append_false_of_not_mem hw, decide_eq_true rfl, if_pos rfl, toNat_noFalse,
        firstFalsePos_of_not_mem hw]
    | true =>
      rw [firstFalsePos_append_true_of_not_mem hw, decide_eq_false (by omega),
        if_neg Bool.false_ne_true, h.pos_eq, firstFalsePos_append_true_of_not_mem hw,
        firstFalsePos_of_not_mem hw]

theorem refines_toggleTop (h : Refines c v) (hne : v ≠ []) :
    Refines c.toggleTop (v.dropLast ++ v.getLast?.toList.map (!·)) := by
  obtain ⟨w, b, rfl⟩ := (v.eq_nil_or_concat).resolve_left hne
  rw [List.concat_eq_append] at h ⊢
  simp only [List.dropLast_concat, List.getLast?_concat, Option.toList_some, List.map_cons,
    List.map_nil]
  have hlen := h.length_lt
  simp only [List.length_append, List.length_singleton] at hlen
  have hsize : (c.mStackSize - 1).toNat = w.length := by
    rw [toNat_sub_one (by rw [h.size_eq]; simp), h.size_eq]
    simp
  have hsame : ∀ pos : UInt32, pos.toNat = firstFalsePos (w ++ [!b]) →
      Refines { c with mFirstFalsePos := pos } (w ++ [!b]) := fun pos hpos =>
    ⟨by simpa using h.size_eq, by simpa using h.length_lt, hpos⟩
  unfold toggleTop
  by_cases hw : false ∈ w
  · -- the first false lies below the top: toggling is unobservable
    have hlt := firstFalsePos_lt_length hw
    have hpos := h.pos_eq
    rw [firstFalsePos_append_of_mem hw] at hpos
    have hnf : (c.mFirstFalsePos == noFalse) = false := by
      simp [h.pos_eq_noFalse_iff, hw]
    rw [hnf, if_neg Bool.false_ne_true, beq_eq_decide_toNat, hsize, hpos,
      decide_eq_false (by omega), if_neg Bool.false_ne_true]
    exact ⟨h.size_eq.trans (by simp), by simpa using h.length_lt,
      hpos.trans (firstFalsePos_append_of_mem hw _).symm⟩
  · cases b with
    | false =>
      -- the top is the first false and becomes true
      have hnf : (c.mFirstFalsePos == noFalse) = false := by
        simp [h.pos_eq_noFalse_iff]
      have hpos := h.pos_eq
      rw [firstFalsePos_append_false_of_not_mem hw] at hpos
      rw [hnf, if_neg Bool.false_ne_true, beq_eq_decide_toNat, hsize, hpos, decide_eq_true rfl,
        if_pos rfl]
      exact hsame noFalse (by rw [toNat_noFalse]; exact
        (firstFalsePos_append_true_of_not_mem hw).symm)
    | true =>
      -- an all-true stack gets its first false on top
      have hnf : (c.mFirstFalsePos == noFalse) = true := by
        simpa [h.pos_eq_noFalse_iff] using hw
      rw [hnf, if_pos rfl]
      exact hsame _ (by rw [hsize]; exact (firstFalsePos_append_false_of_not_mem hw).symm)

/-! ### Runs keep the simulation -/

theorem refines_apply (h : Refines c v) {op : Op}
    (hne : (op = .popBack ∨ op = .toggleTop) → v ≠ [])
    (hroom : ∀ f, op = .pushBack f → v.length + 1 < 2 ^ 32) :
    Refines (c.apply op) (applyVector v op) := by
  cases op with
  | pushBack f => exact refines_pushBack h (hroom f rfl) f
  | popBack => exact refines_popBack h (hne (Or.inl rfl))
  | toggleTop => exact refines_toggleTop h (hne (Or.inr rfl))

/-- An operation uses up one push of the budget when it grows the vector. -/
theorem length_applyVector_toggleTop (v : List Bool) :
    (applyVector v .toggleTop).length = v.length := by
  rcases v.eq_nil_or_concat with rfl | ⟨w, b, rfl⟩ <;> simp [applyVector]

theorem length_applyVector_add_pushCount_le (v : List Bool) (op : Op) (ops : List Op) :
    (applyVector v op).length + pushCount ops ≤ v.length + pushCount (op :: ops) := by
  cases op with
  | pushBack f => simp [applyVector, pushCount]; omega
  | popBack => simp [applyVector, pushCount]
  | toggleTop => simp [length_applyVector_toggleTop, pushCount]

/-- The simulation holds along every admissible run whose pushes fit the `uint32_t` budget. -/
theorem refines_run (ops : List Op) :
    ∀ {c v}, Refines c v → Admissible v ops → v.length + pushCount ops < 2 ^ 32 →
      Refines (run c ops) (runVector v ops) := by
  induction ops with
  | nil => intro c v h _ _; exact h
  | cons op ops ih =>
    intro c v h hadm hbudget
    have hroom : ∀ f, op = .pushBack f → v.length + 1 < 2 ^ 32 := by
      rintro f rfl
      simp [pushCount] at hbudget
      omega
    exact ih (refines_apply h hadm.1 hroom) hadm.2
      (lt_of_le_of_lt (length_applyVector_add_pushCount_le v op ops) hbudget)

theorem admissible_take (ops : List Op) :
    ∀ {v} (k : ℕ), Admissible v ops → Admissible v (ops.take k) := by
  induction ops with
  | nil => intro v k _; simp [Admissible]
  | cons op ops ih =>
    intro v k hadm
    cases k with
    | zero => simp [Admissible]
    | succ k => exact ⟨hadm.1, ih k hadm.2⟩

theorem refines_empty : Refines {} [] := ⟨rfl, by norm_num, rfl⟩

/-- The optimised `ConditionStack` refines a `std::vector<bool>`: along every run of
`push_back`, `pop_back` and `toggle_top` from the empty stack in which the last two meet a
non-empty stack and fewer than `2 ^ 32 - 1` values are pushed, after every operation `empty()`
says whether the vector is empty and `all_true()` whether it holds no `false`. -/
theorem empty_allTrue_eq_vector (ops : List Op) (hadm : Admissible [] ops)
    (hpush : pushCount ops < 2 ^ 32 - 1) (k : ℕ) :
    (run {} (ops.take k)).empty = (runVector [] (ops.take k)).isEmpty ∧
      (run {} (ops.take k)).allTrue = decide (false ∉ runVector [] (ops.take k)) := by
  have hcount : pushCount (ops.take k) ≤ pushCount ops :=
    (List.take_sublist k ops).countP_le
  have h := refines_run (ops.take k) refines_empty (admissible_take ops k hadm)
    (by simp only [List.length_nil, zero_add]; omega)
  exact ⟨h.empty_eq, h.allTrue_eq⟩

/-- `empty_allTrue_eq_vector` on `IF … ELSE` nested in an outer `IF`, after the `ELSE`. -/
theorem empty_allTrue_eq_vector_nested_else :
    let ops := [Op.pushBack true, .pushBack false, .toggleTop, .popBack]
    Admissible [] ops ∧ pushCount ops < 2 ^ 32 - 1 ∧
      (run {} (ops.take 3)).empty = (runVector [] (ops.take 3)).isEmpty ∧
      (run {} (ops.take 3)).allTrue = decide (false ∉ runVector [] (ops.take 3)) := by
  intro ops
  have hadm : Admissible [] ops := by simp [ops, Admissible, applyVector]
  have hpush : pushCount ops < 2 ^ 32 - 1 := by simp [ops, pushCount]
  exact ⟨hadm, hpush, empty_allTrue_eq_vector ops hadm hpush 3⟩

end ConditionStack

end BitcoinCash
