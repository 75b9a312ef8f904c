import Mathlib.Data.List.Basic

/-!
# Buffers of slots

An allocated buffer of `n` elements is a list of `n` slots. The memory functions of C write a run
of slots: `memcpy`, `memmove` and `std::fill_n` all *overwrite* the slots from an offset on with
a list of values, and `memmove` reads its source before it writes, so that the two runs may
overlap. An access outside the buffer is undefined behaviour; `read` and `write` return `none`
there. `realloc` keeps the first slots of a buffer and appends fresh ones.

A vector kept in the first slots of a buffer is changed by these writes in the ways a vector is:
an insertion opens a gap by moving the tail, an erasure closes one, a push writes past the end.
The lemmas below say so for a buffer whose first slots hold a list `ys`.
-/

namespace Slots

variable {α : Type*}

/-- `buf` with its slots from `off` on overwritten by `xs`. -/
def overwrite (buf : List α) (off : ℕ) (xs : List α) : List α :=
  buf.take off ++ xs ++ buf.drop (off + xs.length)

/-- The `count` slots from `off`, if they lie inside the buffer. -/
def read (buf : List α) (off count : ℕ) : Option (List α) :=
  if off + count ≤ buf.length then some ((buf.drop off).take count) else none

/-- Write `xs` from `off`, if the slots lie inside the buffer. -/
def write (buf : List α) (off : ℕ) (xs : List α) : Option (List α) :=
  if off + xs.length ≤ buf.length then some (overwrite buf off xs) else none

/-- `memmove`: copy `count` slots from `src` to `dst` as if through a temporary buffer. -/
def move (buf : List α) (dst src count : ℕ) : Option (List α) :=
  (read buf src count).bind (write buf dst)

/-- `realloc` to `n` slots: the first slots are kept and new ones hold `fill`. -/
def resize (buf : List α) (n : ℕ) (fill : α) : List α :=
  buf.take n ++ List.replicate (n - buf.length) fill

variable {buf xs ys : List α} {off : ℕ}

theorem length_overwrite (h : off + xs.length ≤ buf.length) :
    (overwrite buf off xs).length = buf.length := by
  simp only [overwrite, List.length_append, List.length_take, List.length_drop]
  omega

/-- The slots of an overwritten buffer: `xs` inside the run, the old slots around it. -/
theorem getElem?_overwrite (h : off + xs.length ≤ buf.length) (i : ℕ) :
    (overwrite buf off xs)[i]? =
      if i < off then buf[i]? else if i < off + xs.length then xs[i - off]? else buf[i]? := by
  have htake : (buf.take off).length = off := by simp only [List.length_take]; omega
  rw [overwrite, List.append_assoc]
  split_ifs with h₁ h₂
  · rw [List.getElem?_append_left (by omega), List.getElem?_take_of_lt h₁]
  · rw [List.getElem?_append_right (by omega), htake, List.getElem?_append_left (by omega)]
  · rw [List.getElem?_append_right (by omega), htake, List.getElem?_append_right (by omega),
      List.getElem?_drop]
    congr 1
    omega

theorem read_eq_some {count : ℕ} (h : off + count ≤ buf.length) :
    read buf off count = some ((buf.drop off).take count) := if_pos h

theorem write_eq_some (h : off + xs.length ≤ buf.length) :
    write buf off xs = some (overwrite buf off xs) := if_pos h

theorem move_eq_some {dst src count : ℕ} (hsrc : src + count ≤ buf.length)
    (hdst : dst + count ≤ buf.length) :
    move buf dst src count = some (overwrite buf dst ((buf.drop src).take count)) := by
  have hlen : ((buf.drop src).take count).length = count := by
    simp only [List.length_take, List.length_drop]
    omega
  rw [move, read_eq_some hsrc, Option.bind_some, write_eq_some (by rw [hlen]; exact hdst)]

theorem length_resize (buf : List α) (n : ℕ) (fill : α) : (resize buf n fill).length = n := by
  simp only [resize, List.length_append, List.length_take, List.length_replicate]
  omega

/-- `realloc` keeps the slots below both sizes. -/
theorem take_resize {n k : ℕ} (fill : α) (hk : k ≤ n) (hbuf : k ≤ buf.length) :
    (resize buf n fill).take k = buf.take k := by
  rw [resize, List.take_append_of_le_length (by simp only [List.length_take]; omega),
    List.take_take, Nat.min_eq_left hk]

/-- The slots of a resized buffer: the old ones below the old size, `fill` up to the new one. -/
theorem getElem?_resize (buf : List α) (n : ℕ) (fill : α) (i : ℕ) :
    (resize buf n fill)[i]? = if i < n then some (buf.getD i fill) else none := by
  rw [resize, List.getElem?_append, List.length_take]
  split_ifs with hlt hi hi
  · rw [List.getElem?_take_of_lt hi, List.getD_eq_getElem?_getD,
      List.getElem?_eq_getElem (by omega)]
    rfl
  · omega
  · rw [List.getElem?_replicate, if_pos (by omega), List.getD_eq_getElem?_getD,
      List.getElem?_eq_none (by omega)]
    rfl
  · rw [List.getElem?_replicate, if_neg (by omega)]

/-- The first slots of a buffer, slot by slot. -/
theorem take_eq_iff {n : ℕ} (hn : n ≤ buf.length) :
    buf.take n = ys ↔ ys.length = n ∧ ∀ i < n, buf[i]? = ys[i]? := by
  constructor
  · rintro rfl
    refine ⟨by simp only [List.length_take]; omega, fun i hi => ?_⟩
    rw [List.getElem?_take_of_lt hi]
  · rintro ⟨hlen, h⟩
    apply List.ext_getElem?
    intro i
    by_cases hi : i < n
    · rw [List.getElem?_take_of_lt hi, h i hi]
    · rw [List.getElem?_eq_none (by simp only [List.length_take]; omega),
        List.getElem?_eq_none (by omega)]

theorem getElem?_of_take_eq {n i : ℕ} (h : buf.take n = ys) (hi : i < n) : buf[i]? = ys[i]? := by
  rw [← h, List.getElem?_take_of_lt hi]

/-- A write from the first slot puts `xs` first, as `memcpy` into a new block does. -/
theorem take_overwrite_zero (buf xs : List α) : (overwrite buf 0 xs).take xs.length = xs := by
  rw [overwrite, List.take_zero, List.nil_append, List.take_left]

/-- A write past the elements appends to them. -/
theorem take_append (hys : buf.take ys.length = ys)
    (hcap : ys.length + xs.length ≤ buf.length) :
    (overwrite buf ys.length xs).take (ys.length + xs.length) = ys ++ xs := by
  rw [take_eq_iff (by rw [length_overwrite hcap]; exact hcap)]
  refine ⟨List.length_append, fun i hi => ?_⟩
  rw [getElem?_overwrite hcap, List.getElem?_append]
  split_ifs with h₁
  · exact getElem?_of_take_eq hys h₁
  · rfl

/-- Moving the elements from `pos` on up by `xs.length` slots and writing `xs` into the gap
inserts `xs` at `pos`. -/
theorem take_insert {pos : ℕ} (hys : buf.take ys.length = ys) (hpos : pos ≤ ys.length)
    (hcap : ys.length + xs.length ≤ buf.length) :
    (overwrite (overwrite buf (pos + xs.length) ((buf.drop pos).take (ys.length - pos))) pos
      xs).take (ys.length + xs.length) = ys.take pos ++ xs ++ ys.drop pos := by
  have htail : ((buf.drop pos).take (ys.length - pos)).length = ys.length - pos := by
    simp only [List.length_take, List.length_drop]
    omega
  have h₁ : pos + xs.length + ((buf.drop pos).take (ys.length - pos)).length ≤ buf.length := by
    omega
  have h₂ : pos + xs.length ≤
      (overwrite buf (pos + xs.length) ((buf.drop pos).take (ys.length - pos))).length := by
    rw [length_overwrite h₁]
    omega
  rw [take_eq_iff (by rw [length_overwrite h₂, length_overwrite h₁]; exact hcap)]
  refine ⟨by simp only [List.length_append, List.length_take, List.length_drop]; omega,
    fun i hi => ?_⟩
  have hpre : (ys.take pos).length = pos := by
    simp only [List.length_take]
    omega
  rw [getElem?_overwrite h₂, getElem?_overwrite h₁, htail, List.getElem?_append,
    List.getElem?_append, List.length_append, hpre]
  by_cases hlo : i < pos
  · -- below the insertion point nothing moves
    rw [if_pos hlo, if_pos (by omega), if_pos (by omega), if_pos hlo, List.getElem?_take_of_lt hlo]
    exact getElem?_of_take_eq hys (by omega)
  · by_cases hmid : i < pos + xs.length
    · rw [if_neg hlo, if_pos hmid, if_pos (by omega), if_neg hlo]
    · -- the moved elements
      rw [if_neg hlo, if_neg hmid, if_neg (by omega), if_pos (by omega), if_neg (by omega),
        List.getElem?_take_of_lt (by omega), List.getElem?_drop, List.getElem?_drop,
        getElem?_of_take_eq hys (by omega)]

/-- Moving the elements from `last` on down to `first` erases the ones in between. -/
theorem take_erase {first last : ℕ} (hys : buf.take ys.length = ys) (hfirst : first ≤ last)
    (hlast : last ≤ ys.length) (hbuf : ys.length ≤ buf.length) :
    (overwrite buf first ((buf.drop last).take (ys.length - last))).take
      (ys.length - (last - first)) = ys.take first ++ ys.drop last := by
  have htail : ((buf.drop last).take (ys.length - last)).length = ys.length - last := by
    simp only [List.length_take, List.length_drop]
    omega
  have h₁ : first + ((buf.drop last).take (ys.length - last)).length ≤ buf.length := by omega
  rw [take_eq_iff (by rw [length_overwrite h₁]; omega)]
  refine ⟨by simp only [List.length_append, List.length_take, List.length_drop]; omega,
    fun i hi => ?_⟩
  have hpre : (ys.take first).length = first := by
    simp only [List.length_take]
    omega
  rw [getElem?_overwrite h₁, htail, List.getElem?_append, hpre]
  by_cases hlo : i < first
  · rw [if_pos hlo, if_pos hlo, List.getElem?_take_of_lt hlo]
    exact getElem?_of_take_eq hys (by omega)
  · rw [if_neg hlo, if_pos (by omega), if_neg hlo, List.getElem?_take_of_lt (by omega),
      List.getElem?_drop, List.getElem?_drop, getElem?_of_take_eq hys (by omega)]

/-- Writing nothing leaves the buffer. -/
@[simp] theorem overwrite_nil (buf : List α) (off : ℕ) : overwrite buf off [] = buf := by
  rw [overwrite, List.append_nil, List.length_nil, Nat.add_zero, List.take_append_drop]

/-- Two writes of adjacent runs are one write of both. -/
theorem overwrite_append (h : off + xs.length + ys.length ≤ buf.length) :
    overwrite (overwrite buf off xs) (off + xs.length) ys = overwrite buf off (xs ++ ys) := by
  have h₁ : off + xs.length ≤ buf.length := by omega
  have h₂ : off + xs.length + ys.length ≤ (overwrite buf off xs).length := by
    rw [length_overwrite h₁]
    exact h
  have h₃ : off + (xs ++ ys).length ≤ buf.length := by
    rw [List.length_append]
    omega
  apply List.ext_getElem?
  intro i
  rw [getElem?_overwrite h₂, getElem?_overwrite h₁, getElem?_overwrite h₃, List.length_append,
    List.getElem?_append]
  by_cases hlo : i < off
  · rw [if_pos (by omega), if_pos hlo, if_pos hlo]
  · by_cases hx : i < off + xs.length
    · rw [if_pos hx, if_neg hlo, if_pos hx, if_neg hlo, if_pos (by omega), if_pos (by omega)]
    · by_cases hy : i < off + xs.length + ys.length
      · -- inside the second run
        rw [if_neg hx, if_pos hy, if_neg hlo, if_pos (by omega), if_neg (by omega)]
        congr 1
        omega
      · rw [if_neg hx, if_neg hy, if_neg hlo, if_neg hx, if_neg hlo, if_neg (by omega)]

/-- Writing one slot among the elements replaces that element. -/
theorem take_set {pos : ℕ} {x : α} (hys : buf.take ys.length = ys) (hpos : pos < ys.length)
    (hbuf : ys.length ≤ buf.length) : (overwrite buf pos [x]).take ys.length = ys.set pos x := by
  have h₁ : pos + [x].length ≤ buf.length := by
    rw [List.length_singleton]
    omega
  rw [take_eq_iff (by rw [length_overwrite h₁]; exact hbuf)]
  refine ⟨List.length_set, fun i hi => ?_⟩
  rw [getElem?_overwrite h₁, List.getElem?_set, List.length_singleton]
  by_cases hlo : i < pos
  · rw [if_pos hlo, if_neg (by omega)]
    exact getElem?_of_take_eq hys hi
  · by_cases heq : i = pos
    · rw [if_neg hlo, if_pos (by omega), if_pos heq.symm, if_pos hpos, heq, Nat.sub_self]
      rfl
    · rw [if_neg hlo, if_neg (by omega), if_neg (Ne.symm heq)]
      exact getElem?_of_take_eq hys hi

end Slots
