import Mathlib
import BitcoinCash.Memory.Slots

/-!
# `prevector`

`prevector<N, T>` (`prevector.h`) replaces `std::vector<T>` for short vectors: it keeps up to
`N` elements inside the object and moves them to the heap beyond that. The one size field
`_size` says where the elements are. At most `N` means *direct*: `_size` elements in the array
`_union.direct` of `N` slots. More means *indirect*: `_size - N - 1` elements in the block
`_union.indirect` of `_union.capacity` slots.

The model keeps the two members of the union apart. This is faithful as long as the code reads
only the member it wrote last, which `Refines` shows of every run. A slot is `none` until an
element is written to it, and allocation always succeeds. An access outside an allocated buffer
is undefined behaviour, and the operation returns `none` there. `Size` is `uint32_t` and
`difference_type` is `int32_t`, so their arithmetic wraps modulo `2 ^ 32`.
-/

namespace BitcoinCash

/-- `uint32_t` addition, the arithmetic of `Size`. -/
def wrapAdd (a b : ℕ) : ℕ := (a + b) % 2 ^ 32

/-- `uint32_t` subtraction. -/
def wrapSub (a b : ℕ) : ℕ := (a + (2 ^ 32 - b % 2 ^ 32)) % 2 ^ 32

/-- The `int32_t` value of a distance, the `difference_type` of a prevector. -/
def toDiff (n : ℕ) : ℤ := ((n + 2 ^ 31) % 2 ^ 32 : ℕ) - (2 ^ 31 : ℤ)

/-- Where `item_ptr` points: into the object or into the heap block. -/
inductive Region
  | direct
  | indirect
  deriving DecidableEq, Repr

/-- The fields of a `prevector<N, T>`. -/
structure Prevector (T : Type) where
  /-- `_size`. -/
  rawSize : ℕ
  /-- `_union.direct`, `N` slots. -/
  direct : List (Option T)
  /-- The block `_union.indirect` points to. -/
  indirect : List (Option T)
  /-- `_union.capacity`. -/
  indirectCapacity : ℕ

namespace Prevector

variable {T : Type} (N : ℕ)

/-- `prevector()`: `_size = 0` and the union zeroed, which holds no element. -/
def empty : Prevector T := ⟨0, List.replicate N none, [], 0⟩

/-- `is_direct()`. -/
def isDirect (p : Prevector T) : Bool := p.rawSize ≤ N

/-- `size()`: `_size` exceeds `N` only on the heap, so the subtraction does not wrap. -/
def size (p : Prevector T) : ℕ := if p.isDirect N then p.rawSize else p.rawSize - N - 1

/-- `capacity()`. -/
def capacity (p : Prevector T) : ℕ := if p.isDirect N then N else p.indirectCapacity

/-- The region `item_ptr` points into. -/
def region (p : Prevector T) : Region := if p.isDirect N then .direct else .indirect

/-- The slots of a region. -/
def buffer (p : Prevector T) : Region → List (Option T)
  | .direct => p.direct
  | .indirect => p.indirect

/-- The prevector with the slots of a region replaced. -/
def setBuffer (p : Prevector T) : Region → List (Option T) → Prevector T
  | .direct, b => { p with direct := b }
  | .indirect, b => { p with indirect := b }

/-- Read `count` slots of a region from `off`. -/
def read (p : Prevector T) (r : Region) (off count : ℕ) : Option (List (Option T)) :=
  Slots.read (p.buffer r) off count

/-- Write slots of a region from `off`: `fill` or `memcpy` into the storage. -/
def write (p : Prevector T) (r : Region) (off : ℕ) (xs : List (Option T)) :
    Option (Prevector T) :=
  (Slots.write (p.buffer r) off xs).map (p.setBuffer r)

/-- `memmove` within a region. -/
def move (p : Prevector T) (r : Region) (dst src count : ℕ) : Option (Prevector T) :=
  (Slots.move (p.buffer r) dst src count).map (p.setBuffer r)

/-- `change_capacity(new_capacity)`. -/
def changeCapacity (p : Prevector T) (newCapacity : ℕ) : Option (Prevector T) :=
  if newCapacity ≤ N then
    if p.isDirect N then some p
    else do
      -- the elements move back into the object and the block is freed
      let xs ← p.read .indirect 0 (p.size N)
      let p ← p.write .direct 0 xs
      pure { p with rawSize := wrapSub p.rawSize (N + 1) }
  else if !p.isDirect N then
    -- `realloc` keeps the elements
    pure { p with indirect := Slots.resize p.indirect newCapacity none,
                  indirectCapacity := newCapacity }
  else do
    -- `malloc` a block of uninitialized slots and copy the elements into it
    let xs ← p.read .direct 0 (p.size N)
    let block ← Slots.write (List.replicate newCapacity none) 0 xs
    pure { p with indirect := block, indirectCapacity := newCapacity,
                  rawSize := wrapAdd p.rawSize (N + 1) }

/-- `erase(first, last)`, the iterators given by their offsets from `item_ptr(0)`. -/
def erase (p : Prevector T) (first last : ℕ) : Option (Prevector T) :=
  let r := p.region N
  let endp := p.size N
  -- `_size -= last - p`, a `difference_type` converted back to `Size`
  let p := { p with rawSize := ((p.rawSize - ((last : ℤ) - first)) % 2 ^ 32).toNat }
  -- `memmove(first, last, endp - last)`: a negative length is undefined
  if last ≤ endp then p.move r first last (endp - last) else none

/-- `resize(new_size)`; new elements are `T{}`, here `default`. -/
def resize [Inhabited T] (p : Prevector T) (newSize : ℕ) : Option (Prevector T) :=
  let curSize := p.size N
  if curSize = newSize then some p
  else if curSize > newSize then p.erase N newSize curSize
  else do
    let p ← if newSize > p.capacity N then p.changeCapacity N newSize else some p
    let increase := newSize - curSize
    let p ← p.write (p.region N) curSize (List.replicate increase (some default))
    pure { p with rawSize := wrapAdd p.rawSize increase }

/-- `reserve(new_capacity)`. -/
def reserve (p : Prevector T) (newCapacity : ℕ) : Option (Prevector T) :=
  if newCapacity > p.capacity N then p.changeCapacity N newCapacity else some p

/-- `shrink_to_fit()`. -/
def shrinkToFit (p : Prevector T) : Option (Prevector T) := p.changeCapacity N (p.size N)

/-- `clear()`. -/
def clear [Inhabited T] (p : Prevector T) : Option (Prevector T) := p.resize N 0

/-- `if (capacity() < new_size) change_capacity(new_size + (new_size >> 1))`: the growth of the
insertions and of `emplace_back`. -/
def grow (p : Prevector T) (newSize : ℕ) : Option (Prevector T) :=
  if p.capacity N < newSize then p.changeCapacity N (wrapAdd newSize (newSize >>> 1))
  else some p

/-- `insert(pos, value)`. -/
def insert (p : Prevector T) (pos : ℕ) (value : T) : Option (Prevector T) := do
  let newSize := wrapAdd (p.size N) 1
  let p ← p.grow N newSize
  -- `ptr = item_ptr(p)`
  let r := p.region N
  let p ← p.move r (pos + 1) pos (wrapSub (p.size N) pos)
  let p := { p with rawSize := wrapAdd p.rawSize 1 }
  p.write r pos [some value]

/-- `insert(pos, count, value)`. -/
def insertFill (p : Prevector T) (pos count : ℕ) (value : T) : Option (Prevector T) := do
  let newSize := wrapAdd (p.size N) count
  let p ← p.grow N newSize
  let r := p.region N
  let p ← p.move r (pos + count) pos (wrapSub (p.size N) pos)
  let p := { p with rawSize := wrapAdd p.rawSize count }
  -- `fill(item_ptr(p), count, value)`, with `item_ptr` taken after the size is updated
  p.write (p.region N) pos (List.replicate count (some value))

/-- `insert(pos, first, last)`. -/
def insertRange (p : Prevector T) (pos : ℕ) (xs : List (Option T)) : Option (Prevector T) := do
  -- `difference_type count = last - first`; added to a `Size` it is converted back
  let count := toDiff xs.length
  let newSize := wrapAdd (p.size N) (count % 2 ^ 32).toNat
  let p ← p.grow N newSize
  let r := p.region N
  -- `ptr + count` must not point before the storage
  if (pos : ℤ) + count < 0 then none
  else do
    let p ← p.move r ((pos : ℤ) + count).toNat pos (wrapSub (p.size N) pos)
    let p := { p with rawSize := wrapAdd p.rawSize (count % 2 ^ 32).toNat }
    p.write r pos xs

/-- `resize_uninitialized(new_size)`. -/
def resizeUninitialized (p : Prevector T) (newSize : ℕ) : Option (Prevector T) :=
  if p.capacity N < newSize then do
    let p ← p.changeCapacity N newSize
    pure { p with rawSize := wrapAdd p.rawSize (wrapSub newSize (p.size N)) }
  else if newSize < p.size N then p.erase N newSize (p.size N)
  else pure { p with rawSize := wrapAdd p.rawSize (wrapSub newSize (p.size N)) }

/-- `(*this)[pos] = value`. -/
def setAt (p : Prevector T) (pos : ℕ) (value : T) : Option (Prevector T) :=
  p.write (p.region N) pos [some value]

/-- `(*this)[pos + k] = values[k]` for each `k` in turn: how the elements that
`resize_uninitialized` adds are initialized. -/
def setEach (p : Prevector T) (pos : ℕ) : List T → Option (Prevector T)
  | [] => some p
  | value :: values => do
    let p ← p.setAt N pos value
    p.setEach (pos + 1) values

/-- `emplace_back(value)`. -/
def emplaceBack (p : Prevector T) (value : T) : Option (Prevector T) := do
  let newSize := wrapAdd (p.size N) 1
  let p ← p.grow N newSize
  let p ← p.write (p.region N) (p.size N) [some value]
  pure { p with rawSize := wrapAdd p.rawSize 1 }

/-- `push_back(value)`. -/
def pushBack (p : Prevector T) (value : T) : Option (Prevector T) := p.emplaceBack N value

/-- `pop_back()`: `erase(end() - 1, end())`. On an empty prevector `end() - 1` points before
the storage. -/
def popBack (p : Prevector T) : Option (Prevector T) :=
  if p.size N = 0 then none else p.erase N (p.size N - 1) (p.size N)

/-- The body of the two `assign`s: `clear()`, `if (capacity() < n) change_capacity(n)`,
`_size += n`, and the elements written from `item_ptr(0)`. -/
def assignSlots [Inhabited T] (p : Prevector T) (n : ℕ) (xs : List (Option T)) :
    Option (Prevector T) := do
  let p ← p.clear N
  let p ← if p.capacity N < n then p.changeCapacity N n else some p
  let p := { p with rawSize := wrapAdd p.rawSize n }
  p.write (p.region N) 0 xs

/-- `assign(n, val)`. -/
def assign [Inhabited T] (p : Prevector T) (n : ℕ) (val : T) : Option (Prevector T) :=
  p.assignSlots N n (List.replicate n (some val))

/-- `assign(first, last)`: `size_type n = last - first`. -/
def assignRange [Inhabited T] (p : Prevector T) (xs : List (Option T)) : Option (Prevector T) :=
  p.assignSlots N (xs.length % 2 ^ 32) xs

/-- The body of the constructors from a count and a value, from a range and from another
prevector: on a new object, `change_capacity(n)`, `_size += n`, and the elements written from
`item_ptr(0)`. -/
def construct (n : ℕ) (xs : List (Option T)) : Option (Prevector T) := do
  let p ← (empty N).changeCapacity N n
  let p := { p with rawSize := wrapAdd p.rawSize n }
  p.write (p.region N) 0 xs

/-- `prevector(n)`. -/
def ofCount [Inhabited T] (n : ℕ) : Option (Prevector T) := (empty N).resize N n

/-- `prevector(n, val)`. -/
def ofFill (n : ℕ) (val : T) : Option (Prevector T) :=
  construct N n (List.replicate n (some val))

/-- `prevector(first, last)`: `size_type n = last - first`. -/
def ofRange (xs : List (Option T)) : Option (Prevector T) := construct N (xs.length % 2 ^ 32) xs

/-- `prevector(const prevector &other)`. -/
def copy (other : Prevector T) : Option (Prevector T) := do
  let xs ← other.read (other.region N) 0 (other.size N)
  construct N (other.size N) xs

/-- `operator=(const prevector &other)` on another object: `assign(other.begin(), other.end())`. -/
def copyAssign [Inhabited T] (p other : Prevector T) : Option (Prevector T) := do
  let xs ← other.read (other.region N) 0 (other.size N)
  p.assignRange N xs

/-! ### The layout of a prevector -/

/-- The layout of a prevector with `n` elements, whatever they are: the object has `N` slots; a
direct prevector has `_size = n`, an indirect one a block of more than `N` slots; and the
`capacity()` slots `item_ptr` points into hold at least the `n` elements. -/
structure Layout (p : Prevector T) (n : ℕ) : Prop where
  length_direct : p.direct.length = N
  rawSize_lt : p.rawSize < 2 ^ 32
  size_eq : p.size N = n
  le_capacity : n ≤ p.capacity N
  length_buffer : (p.buffer (p.region N)).length = p.capacity N
  indirect : p.isDirect N = false → N < p.indirectCapacity ∧ p.indirectCapacity < 2 ^ 32

/-- `p` holds the elements `v`: its first `size()` slots are `v`. -/
structure Refines (p : Prevector T) (v : List T) : Prop extends Layout N p v.length where
  take_buffer : (p.buffer (p.region N)).take v.length = v.map some

variable {N} {p : Prevector T}

@[simp] theorem isDirect_eq_true : p.isDirect N = true ↔ p.rawSize ≤ N := by
  simp [isDirect]

@[simp] theorem isDirect_eq_false : p.isDirect N = false ↔ N < p.rawSize := by
  simp [isDirect]

theorem size_of_le (h : p.rawSize ≤ N) : p.size N = p.rawSize := by
  simp [size, h]

theorem size_of_lt (h : N < p.rawSize) : p.size N = p.rawSize - N - 1 := by
  simp [size, Nat.not_le.mpr h]

theorem capacity_of_le (h : p.rawSize ≤ N) : p.capacity N = N := by
  simp [capacity, h]

theorem capacity_of_lt (h : N < p.rawSize) : p.capacity N = p.indirectCapacity := by
  simp [capacity, Nat.not_le.mpr h]

theorem region_of_le (h : p.rawSize ≤ N) : p.region N = .direct := by
  simp [region, h]

theorem region_of_lt (h : N < p.rawSize) : p.region N = .indirect := by
  simp [region, Nat.not_le.mpr h]

/-- An indirect prevector stores its size plus `N + 1` in `_size`. -/
theorem Layout.rawSize_eq {n : ℕ} (hL : Layout N p n) (h : N < p.rawSize) :
    p.rawSize = n + N + 1 := by
  have := hL.size_eq
  rw [size_of_lt h] at this
  omega

@[simp] theorem rawSize_setBuffer (r : Region) (b : List (Option T)) :
    (p.setBuffer r b).rawSize = p.rawSize := by
  cases r <;> rfl

@[simp] theorem indirectCapacity_setBuffer (r : Region) (b : List (Option T)) :
    (p.setBuffer r b).indirectCapacity = p.indirectCapacity := by
  cases r <;> rfl

@[simp] theorem buffer_setBuffer (r : Region) (b : List (Option T)) :
    (p.setBuffer r b).buffer r = b := by
  cases r <;> rfl

@[simp] theorem setBuffer_buffer (r : Region) : p.setBuffer r (p.buffer r) = p := by
  cases r <;> rfl

@[simp] theorem setBuffer_setBuffer (r : Region) (b b' : List (Option T)) :
    (p.setBuffer r b).setBuffer r b' = p.setBuffer r b' := by
  cases r <;> rfl

@[simp] theorem size_setBuffer (r : Region) (b : List (Option T)) :
    (p.setBuffer r b).size N = p.size N := by
  simp [size, isDirect]

@[simp] theorem capacity_setBuffer (r : Region) (b : List (Option T)) :
    (p.setBuffer r b).capacity N = p.capacity N := by
  simp [capacity, isDirect]

@[simp] theorem region_setBuffer (r : Region) (b : List (Option T)) :
    (p.setBuffer r b).region N = p.region N := by
  simp [region, isDirect]

theorem write_eq_some {r : Region} {off : ℕ} {xs : List (Option T)}
    (h : off + xs.length ≤ (p.buffer r).length) :
    p.write r off xs = some (p.setBuffer r (Slots.overwrite (p.buffer r) off xs)) := by
  rw [write, Slots.write_eq_some h, Option.map_some]

theorem move_eq_some {r : Region} {dst src count : ℕ} (hsrc : src + count ≤ (p.buffer r).length)
    (hdst : dst + count ≤ (p.buffer r).length) :
    p.move r dst src count =
      some (p.setBuffer r (Slots.overwrite (p.buffer r) dst (((p.buffer r).drop src).take count))) := by
  rw [move, Slots.move_eq_some hsrc hdst, Option.map_some]

/-- Replacing the slots `item_ptr` points into by as many keeps the layout. -/
theorem Layout.setBuffer {n : ℕ} (hL : Layout N p n) {b : List (Option T)}
    (hb : b.length = (p.buffer (p.region N)).length) :
    Layout N (p.setBuffer (p.region N) b) n := by
  refine ⟨?_, by rw [rawSize_setBuffer]; exact hL.rawSize_lt, by
    rw [size_setBuffer, hL.size_eq], by rw [capacity_setBuffer]; exact hL.le_capacity, by
    rw [region_setBuffer, buffer_setBuffer, hb, hL.length_buffer, capacity_setBuffer], by
    simpa [isDirect] using hL.indirect⟩
  by_cases h : p.rawSize ≤ N
  · rw [region_of_le h] at hb ⊢
    rw [← hL.length_direct]
    exact hb
  · rw [region_of_lt (Nat.lt_of_not_le h)]
    exact hL.length_direct

theorem wrapAdd_of_lt {a b : ℕ} (h : a + b < 2 ^ 32) : wrapAdd a b = a + b :=
  Nat.mod_eq_of_lt h

theorem wrapSub_of_le {a b : ℕ} (h : b ≤ a) (ha : a < 2 ^ 32) : wrapSub a b = a - b := by
  rw [wrapSub]
  omega

theorem toDiff_of_lt {n : ℕ} (h : n < 2 ^ 31) : toDiff n = n := by
  rw [toDiff]
  omega

theorem buffer_rawSize (r : Region) (s : ℕ) :
    ({ p with rawSize := s } : Prevector T).buffer r = p.buffer r := by
  cases r <;> rfl

/-- Setting `_size` for `m` elements in the same region, when the capacity holds them, keeps the
layout. -/
theorem Layout.withRawSize {n m s : ℕ} (hL : Layout N p n) (hm : m ≤ p.capacity N)
    (hs : s = if p.rawSize ≤ N then m else m + N + 1) (hs32 : s < 2 ^ 32) :
    Layout N { p with rawSize := s } m ∧
      ({ p with rawSize := s } : Prevector T).region N = p.region N ∧
      ({ p with rawSize := s } : Prevector T).capacity N = p.capacity N := by
  have hbuf := hL.length_buffer
  by_cases h : p.rawSize ≤ N
  · -- direct: the elements stay in the object
    rw [if_pos h] at hs
    rw [capacity_of_le h] at hm
    rw [region_of_le h, capacity_of_le h] at hbuf
    have hle : ({ p with rawSize := s } : Prevector T).rawSize ≤ N := by dsimp only; omega
    refine ⟨⟨hL.length_direct, hs32, ?_, ?_, ?_, ?_⟩, ?_, ?_⟩
    · rw [size_of_le hle]
      exact hs
    · rw [capacity_of_le hle]
      exact hm
    · rw [region_of_le hle, capacity_of_le hle, buffer_rawSize]
      exact hbuf
    · intro hind
      rw [isDirect_eq_false] at hind
      omega
    · rw [region_of_le hle, region_of_le h]
    · rw [capacity_of_le hle, capacity_of_le h]
  · -- indirect: `_size` keeps the offset `N + 1`
    have hlt : N < p.rawSize := Nat.lt_of_not_le h
    rw [if_neg h] at hs
    rw [region_of_lt hlt, capacity_of_lt hlt] at hbuf
    have hgt : N < ({ p with rawSize := s } : Prevector T).rawSize := by dsimp only; omega
    refine ⟨⟨hL.length_direct, hs32, ?_, ?_, ?_, fun _ =>
      hL.indirect (isDirect_eq_false.mpr hlt)⟩, ?_, ?_⟩
    · rw [size_of_lt hgt]
      dsimp only
      omega
    · rw [capacity_of_lt hgt]
      rw [capacity_of_lt hlt] at hm
      exact hm
    · rw [region_of_lt hgt, capacity_of_lt hgt, buffer_rawSize]
      exact hbuf
    · rw [region_of_lt hgt, region_of_lt hlt]
    · rw [capacity_of_lt hgt, capacity_of_lt hlt]

/-- `_size += k`, when the capacity holds `k` more elements, adds `k` elements in place. -/
theorem Layout.addSize {n k : ℕ} (hL : Layout N p n) (hk : n + k ≤ p.capacity N)
    (hb : N + n + k < 2 ^ 31) :
    Layout N { p with rawSize := wrapAdd p.rawSize k } (n + k) ∧
      ({ p with rawSize := wrapAdd p.rawSize k } : Prevector T).region N = p.region N ∧
      ({ p with rawSize := wrapAdd p.rawSize k } : Prevector T).capacity N = p.capacity N := by
  have hsize := hL.size_eq
  refine hL.withRawSize hk ?_ (by rw [wrapAdd]; omega)
  split_ifs with h
  · rw [size_of_le h] at hsize
    rw [wrapAdd_of_lt (by omega)]
    omega
  · rw [size_of_lt (Nat.lt_of_not_le h)] at hsize
    rw [wrapAdd_of_lt (by omega)]
    omega

/-- `_size -= last - first` drops `last - first` of the elements. -/
theorem Layout.subSize {n first last : ℕ} (hL : Layout N p n) (hfirst : first ≤ last)
    (hlast : last - first ≤ n) :
    Layout N { p with rawSize := ((p.rawSize - ((last : ℤ) - first)) % 2 ^ 32).toNat }
        (n - (last - first)) ∧
      ({ p with rawSize := ((p.rawSize - ((last : ℤ) - first)) % 2 ^ 32).toNat } :
        Prevector T).region N = p.region N ∧
      ({ p with rawSize := ((p.rawSize - ((last : ℤ) - first)) % 2 ^ 32).toNat } :
        Prevector T).capacity N = p.capacity N := by
  have hsize := hL.size_eq
  have hraw := hL.rawSize_lt
  refine hL.withRawSize (Nat.le_trans (Nat.sub_le n _) hL.le_capacity) ?_ (by omega)
  split_ifs with h
  · rw [size_of_le h] at hsize
    omega
  · rw [size_of_lt (Nat.lt_of_not_le h)] at hsize
    omega

/-! ### The operations on one prevector -/

variable {v : List T}

theorem Refines.of_layout {n : ℕ} (hL : Layout N p n) (hn : v.length = n)
    (htake : (p.buffer (p.region N)).take n = v.map some) : Refines N p v := by
  subst hn
  exact ⟨hL, htake⟩

/-- A direct prevector holding `v`. -/
theorem Refines.of_direct (hdirect : p.direct.length = N) (hraw : p.rawSize = v.length)
    (hN : v.length ≤ N) (hraw32 : p.rawSize < 2 ^ 32) (htake : p.direct.take v.length = v.map some) :
    Refines N p v := by
  have h : p.rawSize ≤ N := hraw ▸ hN
  refine ⟨⟨hdirect, hraw32, by rw [size_of_le h, hraw], by rw [capacity_of_le h]; exact hN,
    by rw [region_of_le h, capacity_of_le h]; exact hdirect, fun hind => ?_⟩, ?_⟩
  · rw [isDirect_eq_false] at hind
    omega
  · rw [region_of_le h]
    exact htake

/-- An indirect prevector holding `v`. -/
theorem Refines.of_indirect (hdirect : p.direct.length = N) (hraw : p.rawSize = v.length + N + 1)
    (hraw32 : p.rawSize < 2 ^ 32) (hcap : N < p.indirectCapacity)
    (hcap32 : p.indirectCapacity < 2 ^ 32) (hv : v.length ≤ p.indirectCapacity)
    (hblock : p.indirect.length = p.indirectCapacity)
    (htake : p.indirect.take v.length = v.map some) : Refines N p v := by
  have h : N < p.rawSize := by omega
  refine ⟨⟨hdirect, hraw32, by rw [size_of_lt h]; omega, by rw [capacity_of_lt h]; exact hv,
    by rw [region_of_lt h, capacity_of_lt h]; exact hblock, fun _ => ⟨hcap, hcap32⟩⟩, ?_⟩
  rw [region_of_lt h]
  exact htake

/-- A new prevector holds no element. -/
theorem refines_empty : Refines N (empty N : Prevector T) [] :=
  Refines.of_direct List.length_replicate rfl (Nat.zero_le N) (Nat.two_pow_pos 32) rfl

/-- The first `size()` slots, as `Slots` states what a buffer holds. -/
theorem Refines.take_buffer' (hR : Refines N p v) :
    (p.buffer (p.region N)).take (v.map some).length = v.map some := by
  rw [List.length_map]
  exact hR.take_buffer

/-- The elements, as `begin()` to `end()` reads them. -/
theorem Refines.read_eq (hR : Refines N p v) :
    p.read (p.region N) 0 (p.size N) = some (v.map some) := by
  have hlen := hR.length_buffer
  have hcap := hR.le_capacity
  rw [read, hR.size_eq, Slots.read_eq_some (by omega), List.drop_zero, hR.take_buffer]

/-- `erase(first, last)` of a range of elements removes them. -/
theorem Refines.erase_spec {first last : ℕ} (hR : Refines N p v) (hfirst : first ≤ last)
    (hlast : last ≤ v.length) :
    ∃ q, p.erase N first last = some q ∧ Refines N q (v.take first ++ v.drop last) := by
  have hlen := hR.length_buffer
  have hcap := hR.le_capacity
  obtain ⟨hL', hr', -⟩ := hR.toLayout.subSize hfirst (by omega)
  have hbuf := buffer_rawSize (p := p) (p.region N)
    ((p.rawSize - ((last : ℤ) - first)) % 2 ^ 32).toNat
  rw [erase, hR.size_eq, if_pos hlast]
  generalize ({ p with rawSize := ((p.rawSize - ((last : ℤ) - first)) % 2 ^ 32).toNat } :
    Prevector T) = q at hL' hr' hbuf ⊢
  rw [move_eq_some (by rw [hbuf]; omega) (by rw [hbuf]; omega), hbuf]
  refine ⟨_, rfl, ?_⟩
  -- the tail moved down over the erased elements
  have htake := Slots.take_erase hR.take_buffer' hfirst (by rw [List.length_map]; exact hlast)
    (by rw [List.length_map, hlen]; exact hcap)
  have hn : (v.take first ++ v.drop last).length = v.length - (last - first) := by
    simp only [List.length_append, List.length_take, List.length_drop]
    omega
  have hrun : first + ((p.buffer (p.region N)).drop last |>.take (v.length - last)).length ≤
      (p.buffer (p.region N)).length := by
    simp only [List.length_take, List.length_drop]
    omega
  rw [← hr'] at htake hrun ⊢
  refine Refines.of_layout (hL'.setBuffer ?_) hn ?_
  · rw [Slots.length_overwrite hrun, hr', hbuf]
  · rw [region_setBuffer, buffer_setBuffer]
    simpa [List.map_take, List.map_drop] using htake

/-- `change_capacity(c)`, for a capacity that holds the elements, keeps them: in the object when
`c ≤ N`, in a block of `c` slots otherwise. -/
theorem Refines.changeCapacity_spec {c : ℕ} (hR : Refines N p v) (hc : v.length ≤ c)
    (hc32 : c < 2 ^ 32) (hb : N + v.length < 2 ^ 31) :
    ∃ q, p.changeCapacity N c = some q ∧ Refines N q v ∧ q.capacity N = max c N := by
  have hlen := hR.length_buffer
  have htake := hR.take_buffer
  have hdirect := hR.length_direct
  have hmap : (v.map some).length = v.length := List.length_map _
  by_cases h : p.rawSize ≤ N
  · have hraw : p.rawSize = v.length := by rw [← hR.size_eq, size_of_le h]
    rw [region_of_le h, capacity_of_le h] at hlen
    rw [region_of_le h] at htake
    by_cases hcN : c ≤ N
    · -- direct and staying so: nothing to do
      refine ⟨p, by rw [changeCapacity, if_pos hcN, if_pos (isDirect_eq_true.mpr h)], hR, ?_⟩
      rw [capacity_of_le h, Nat.max_eq_right hcN]
    · -- into a new block of `c` slots
      have hread := hR.read_eq
      rw [region_of_le h] at hread
      have hfits : 0 + (v.map some).length ≤ (List.replicate c (none : Option T)).length := by
        rw [hmap, List.length_replicate]
        omega
      refine ⟨_, by rw [changeCapacity, if_neg hcN, if_neg (by simpa using h), Option.bind_eq_bind,
        hread, Option.bind_some, Slots.write_eq_some hfits, Option.bind_some]; rfl, ?_, ?_⟩
      · have hblock : (Slots.overwrite (List.replicate c none) 0 (v.map some)).length = c := by
          rw [Slots.length_overwrite hfits, List.length_replicate]
        refine Refines.of_indirect hdirect ?_ ?_ (by dsimp only; omega) hc32 hc hblock ?_
        · dsimp only
          rw [hraw, wrapAdd_of_lt (by omega)]
          omega
        · dsimp only
          rw [wrapAdd]
          omega
        · have := Slots.take_overwrite_zero (List.replicate c none) (v.map some)
          rwa [hmap] at this
      · have hgt : N < wrapAdd p.rawSize (N + 1) := by rw [wrapAdd_of_lt (by omega)]; omega
        rw [capacity_of_lt hgt, Nat.max_eq_left (by omega)]
  · have hlt : N < p.rawSize := Nat.lt_of_not_le h
    have hraw := hR.rawSize_eq hlt
    obtain ⟨hcap, hcap32⟩ := hR.indirect (isDirect_eq_false.mpr hlt)
    rw [region_of_lt hlt, capacity_of_lt hlt] at hlen
    rw [region_of_lt hlt] at htake
    have hv : v.length ≤ p.indirectCapacity := by
      have := hR.le_capacity
      rwa [capacity_of_lt hlt] at this
    by_cases hcN : c ≤ N
    · -- back into the object, and the block is freed
      have hread := hR.read_eq
      rw [region_of_lt hlt] at hread
      have hfits : 0 + (v.map some).length ≤ (p.buffer .direct).length := by
        rw [hmap, buffer, hdirect]
        omega
      have hsub : wrapSub p.rawSize (N + 1) = v.length := by
        rw [wrapSub_of_le (by omega) hR.rawSize_lt]
        omega
      refine ⟨_, by rw [changeCapacity, if_pos hcN, if_neg (by simpa using hlt),
        Option.bind_eq_bind, hread, Option.bind_some, write_eq_some hfits, Option.bind_eq_bind,
        Option.bind_some]; rfl, ?_, ?_⟩
      · refine Refines.of_direct ?_ (by rw [rawSize_setBuffer]; exact hsub) (by omega)
          (by dsimp only; rw [rawSize_setBuffer, hsub]; omega) ?_
        · exact (Slots.length_overwrite hfits).trans hdirect
        · have := Slots.take_overwrite_zero (p.buffer .direct) (v.map some)
          rwa [hmap] at this
      · have hle : ({ p.setBuffer .direct (Slots.overwrite (p.buffer .direct) 0 (v.map some)) with
            rawSize := wrapSub (p.setBuffer .direct
              (Slots.overwrite (p.buffer .direct) 0 (v.map some))).rawSize (N + 1) } :
              Prevector T).rawSize ≤ N := by
          dsimp only
          rw [rawSize_setBuffer, hsub]
          omega
        rw [capacity_of_le hle, Nat.max_eq_right hcN]
    · -- `realloc` to `c` slots
      refine ⟨_, by rw [changeCapacity, if_neg hcN, if_pos (by simpa using hlt)]; rfl, ?_, ?_⟩
      · have hind : p.indirect.length = p.indirectCapacity := hlen
        refine Refines.of_indirect hdirect hraw hR.rawSize_lt (by dsimp only; omega) hc32 hc
          (Slots.length_resize _ _ _) ?_
        dsimp only
        rw [Slots.take_resize none hc (by omega)]
        exact htake
      · have hgt : N <
            ({ p with indirect := Slots.resize p.indirect c none, indirectCapacity := c } :
              Prevector T).rawSize := hlt
        rw [capacity_of_lt hgt, Nat.max_eq_left (by omega)]

/-- The growth before an insertion, `change_capacity(n + (n >> 1))` when `n` does not fit, leaves
room for `n` elements. -/
theorem Refines.grow_spec {n : ℕ} (hR : Refines N p v) (hn : v.length ≤ n) (hb : N + n < 2 ^ 31) :
    ∃ q, p.grow N n = some q ∧ Refines N q v ∧ n ≤ q.capacity N := by
  by_cases h : p.capacity N < n
  · have hw : wrapAdd n (n >>> 1) = n + n / 2 := by
      rw [Nat.shiftRight_eq_div_pow, wrapAdd_of_lt (by omega)]
    obtain ⟨q, hq, hRq, hcap⟩ :=
      hR.changeCapacity_spec (c := wrapAdd n (n >>> 1)) (by rw [hw]; omega) (by rw [hw]; omega) (by omega)
    refine ⟨q, by rw [grow, if_pos h, hq], hRq, ?_⟩
    rw [hcap, hw]
    omega
  · exact ⟨p, by rw [grow, if_neg h], hR, by omega⟩

/-- The common end of the three `insert`s, once the capacity holds `k` more elements:
`memmove(ptr + k, ptr, (size() - p) * sizeof(T))`, `_size += k`, and the `k` new elements written
from `ptr`. -/
theorem Refines.openGap_spec {pos k : ℕ} {ys : List T} (hR : Refines N p v) (hpos : pos ≤ v.length)
    (hk : ys.length = k) (hcap : v.length + k ≤ p.capacity N) (hb : N + v.length + k < 2 ^ 31) :
    ∃ q, p.move (p.region N) (pos + k) pos (wrapSub (p.size N) pos) = some q ∧
      ({ q with rawSize := wrapAdd q.rawSize k } : Prevector T).region N = p.region N ∧
      ∃ q', ({ q with rawSize := wrapAdd q.rawSize k } : Prevector T).write (p.region N) pos
        (ys.map some) = some q' ∧ Refines N q' (v.take pos ++ ys ++ v.drop pos) := by
  have hlen := hR.length_buffer
  have hsub : wrapSub (p.size N) pos = v.length - pos := by
    rw [hR.size_eq, wrapSub_of_le hpos (by omega)]
  rw [hsub, move_eq_some (by omega) (by omega)]
  refine ⟨_, rfl, ?_⟩
  -- the tail moved up by `k` slots, in a buffer of the same length
  have hrun : pos + k + (((p.buffer (p.region N)).drop pos).take (v.length - pos)).length ≤
      (p.buffer (p.region N)).length := by
    simp only [List.length_take, List.length_drop]
    omega
  have hL1 := hR.toLayout.setBuffer (Slots.length_overwrite hrun)
  obtain ⟨hL2, hr2, -⟩ := hL1.addSize (k := k) (by rw [capacity_setBuffer]; omega) (by omega)
  rw [region_setBuffer] at hr2
  have hbuf2 := buffer_rawSize (p := p.setBuffer (p.region N) (Slots.overwrite
    (p.buffer (p.region N)) (pos + k) (((p.buffer (p.region N)).drop pos).take (v.length - pos))))
    (p.region N) (wrapAdd p.rawSize k)
  rw [buffer_setBuffer] at hbuf2
  simp only [rawSize_setBuffer] at hL2 hr2 ⊢
  refine ⟨hr2, ?_⟩
  generalize ({ p.setBuffer (p.region N) (Slots.overwrite (p.buffer (p.region N)) (pos + k)
    (((p.buffer (p.region N)).drop pos).take (v.length - pos))) with
      rawSize := wrapAdd p.rawSize k } : Prevector T) = q at hL2 hr2 hbuf2 ⊢
  have hfits : pos + (ys.map some).length ≤ (q.buffer (p.region N)).length := by
    rw [hbuf2, Slots.length_overwrite hrun, List.length_map]
    omega
  rw [write_eq_some hfits, hbuf2, ← hr2]
  refine ⟨_, rfl, ?_⟩
  -- the new elements fill the gap
  have hcap' : (v.map some).length + (ys.map some).length ≤ (p.buffer (p.region N)).length := by
    rw [List.length_map, List.length_map, hlen]
    omega
  have htake := Slots.take_insert hR.take_buffer' (Nat.le_trans hpos (Nat.le_of_eq (List.length_map _).symm)) hcap'
  have hn : (v.take pos ++ ys ++ v.drop pos).length = v.length + k := by
    simp only [List.length_append, List.length_take, List.length_drop]
    omega
  refine Refines.of_layout (hL2.setBuffer ?_) hn ?_
  · rw [hbuf2] at hfits
    rw [hr2, hbuf2]
    exact Slots.length_overwrite hfits
  · rw [region_setBuffer, buffer_setBuffer, hr2]
    simpa [List.map_take, List.map_drop, hk] using htake

/-- `insert(pos, value)` puts `value` before the element at `pos`, or at the end. -/
theorem Refines.insert_spec {pos : ℕ} {value : T} (hR : Refines N p v) (hpos : pos ≤ v.length)
    (hb : N + (v.length + 1) < 2 ^ 31) :
    ∃ q, p.insert N pos value = some q ∧ Refines N q (v.take pos ++ [value] ++ v.drop pos) := by
  have hsize : wrapAdd (p.size N) 1 = v.length + 1 := by
    rw [hR.size_eq, wrapAdd_of_lt (by omega)]
  obtain ⟨q, hq, hRq, hcap⟩ := hR.grow_spec (n := v.length + 1) (by omega) hb
  obtain ⟨q1, hmove, -, q2, hwrite, hR2⟩ :=
    hRq.openGap_spec (k := 1) hpos (List.length_singleton : [value].length = 1) (by omega) (by omega)
  refine ⟨q2, ?_, hR2⟩
  rw [insert, hsize, Option.bind_eq_bind, hq, Option.bind_some]
  dsimp only
  rw [hmove, Option.bind_some]
  exact hwrite

/-- `insert(pos, count, value)` puts `count` copies of `value` before the element at `pos`. -/
theorem Refines.insertFill_spec {pos count : ℕ} {value : T} (hR : Refines N p v)
    (hpos : pos ≤ v.length) (hb : N + (v.length + count) < 2 ^ 31) :
    ∃ q, p.insertFill N pos count value = some q ∧
      Refines N q (v.take pos ++ List.replicate count value ++ v.drop pos) := by
  have hsize : wrapAdd (p.size N) count = v.length + count := by
    rw [hR.size_eq, wrapAdd_of_lt (by omega)]
  obtain ⟨q, hq, hRq, hcap⟩ := hR.grow_spec (n := v.length + count) (by omega) hb
  obtain ⟨q1, hmove, hr, q2, hwrite, hR2⟩ := hRq.openGap_spec hpos
    (List.length_replicate : (List.replicate count value).length = count) (by omega) (by omega)
  refine ⟨q2, ?_, hR2⟩
  rw [insertFill, hsize, Option.bind_eq_bind, hq, Option.bind_some]
  dsimp only
  rw [hmove, Option.bind_some, hr, ← List.map_replicate]
  exact hwrite

/-- `insert(pos, first, last)` puts the range before the element at `pos`. -/
theorem Refines.insertRange_spec {pos : ℕ} {ys : List T} (hR : Refines N p v)
    (hpos : pos ≤ v.length) (hb : N + (v.length + ys.length) < 2 ^ 31) :
    ∃ q, p.insertRange N pos (ys.map some) = some q ∧
      Refines N q (v.take pos ++ ys ++ v.drop pos) := by
  -- the distance `last - first` is a small `difference_type`
  have hcount : toDiff (ys.map some).length = ys.length := by
    rw [List.length_map, toDiff_of_lt (by omega)]
  have hmod : ((ys.length : ℤ) % 2 ^ 32).toNat = ys.length := by omega
  have hdst : ((pos : ℤ) + ys.length).toNat = pos + ys.length := by omega
  have hsize : wrapAdd (p.size N) ys.length = v.length + ys.length := by
    rw [hR.size_eq, wrapAdd_of_lt (by omega)]
  obtain ⟨q, hq, hRq, hcap⟩ := hR.grow_spec (n := v.length + ys.length) (by omega) hb
  obtain ⟨q1, hmove, -, q2, hwrite, hR2⟩ := hRq.openGap_spec hpos rfl (by omega) (by omega)
  refine ⟨q2, ?_, hR2⟩
  rw [insertRange]
  dsimp only
  rw [hcount, hmod, hsize, Option.bind_eq_bind, hq, Option.bind_some, if_neg (by omega), hdst, hmove, Option.bind_some]
  exact hwrite

/-- Elements written past the end and then counted, as `emplace_back` and `resize` add them. -/
theorem Refines.writeCount_spec (hR : Refines N p v) (ys : List T)
    (hcap : v.length + ys.length ≤ p.capacity N) (hb : N + v.length + ys.length < 2 ^ 31) :
    ∃ q, p.write (p.region N) v.length (ys.map some) = some q ∧
      Refines N { q with rawSize := wrapAdd q.rawSize ys.length } (v ++ ys) := by
  have hlen := hR.length_buffer
  have hfits : v.length + (ys.map some).length ≤ (p.buffer (p.region N)).length := by
    rw [List.length_map, hlen]
    exact hcap
  rw [write_eq_some hfits]
  refine ⟨_, rfl, ?_⟩
  have hL1 := hR.toLayout.setBuffer (Slots.length_overwrite hfits)
  obtain ⟨hL2, hr2, -⟩ :=
    hL1.addSize (k := ys.length) (by rw [capacity_setBuffer]; exact hcap) (by omega)
  refine Refines.of_layout hL2 List.length_append ?_
  rw [hr2, region_setBuffer, buffer_rawSize, buffer_setBuffer]
  have hcap' : (v.map some).length + (ys.map some).length ≤ (p.buffer (p.region N)).length := by
    rw [List.length_map]
    exact hfits
  simpa using Slots.take_append hR.take_buffer' hcap'

/-- Elements counted and then written past the old end, as `assign`, the constructors and
`resize_uninitialized` add them. -/
theorem Refines.countWrite_spec (hR : Refines N p v) (ys : List T)
    (hcap : v.length + ys.length ≤ p.capacity N) (hb : N + v.length + ys.length < 2 ^ 31) :
    ({ p with rawSize := wrapAdd p.rawSize ys.length } : Prevector T).region N = p.region N ∧
      ∃ q, ({ p with rawSize := wrapAdd p.rawSize ys.length } : Prevector T).write (p.region N)
        v.length (ys.map some) = some q ∧ Refines N q (v ++ ys) := by
  have hlen := hR.length_buffer
  obtain ⟨hL1, hr1, -⟩ := hR.toLayout.addSize (k := ys.length) hcap (by omega)
  have hbuf1 := buffer_rawSize (p := p) (p.region N) (wrapAdd p.rawSize ys.length)
  refine ⟨hr1, ?_⟩
  generalize ({ p with rawSize := wrapAdd p.rawSize ys.length } : Prevector T) = q at hL1 hr1 hbuf1 ⊢
  have hfits : v.length + (ys.map some).length ≤ (q.buffer (p.region N)).length := by
    rw [hbuf1, List.length_map, hlen]
    exact hcap
  rw [write_eq_some hfits, hbuf1, ← hr1]
  refine ⟨_, rfl, ?_⟩
  rw [hbuf1] at hfits
  have hcap' : (v.map some).length + (ys.map some).length ≤ (p.buffer (p.region N)).length := by
    rw [List.length_map]
    exact hfits
  refine Refines.of_layout (hL1.setBuffer ?_) List.length_append ?_
  · rw [hr1, hbuf1]
    exact Slots.length_overwrite hfits
  · rw [region_setBuffer, buffer_setBuffer, hr1]
    simpa using Slots.take_append hR.take_buffer' hcap'

/-- `emplace_back(value)` appends `value`. -/
theorem Refines.emplaceBack_spec {value : T} (hR : Refines N p v)
    (hb : N + (v.length + 1) < 2 ^ 31) :
    ∃ q, p.emplaceBack N value = some q ∧ Refines N q (v ++ [value]) := by
  have hsize : wrapAdd (p.size N) 1 = v.length + 1 := by
    rw [hR.size_eq, wrapAdd_of_lt (by omega)]
  obtain ⟨q, hq, hRq, hcap⟩ := hR.grow_spec (n := v.length + 1) (by omega) hb
  obtain ⟨q1, hwrite, hR1⟩ := hRq.writeCount_spec [value] hcap (by omega)
  simp only [List.map_cons, List.map_nil, List.length_singleton] at hwrite hR1
  refine ⟨_, ?_, hR1⟩
  rw [emplaceBack, hsize, Option.bind_eq_bind, hq, Option.bind_some, hRq.size_eq, hwrite,
    Option.bind_some]
  rfl

/-- `push_back(value)` appends `value`. -/
theorem Refines.pushBack_spec {value : T} (hR : Refines N p v)
    (hb : N + (v.length + 1) < 2 ^ 31) :
    ∃ q, p.pushBack N value = some q ∧ Refines N q (v ++ [value]) := by
  rw [pushBack]
  exact hR.emplaceBack_spec hb

/-- `pop_back()` of a non-empty prevector drops the last element. -/
theorem Refines.popBack_spec (hR : Refines N p v) (hv : v ≠ []) :
    ∃ q, p.popBack N = some q ∧ Refines N q v.dropLast := by
  have hpos : 0 < v.length := List.length_pos_iff.mpr hv
  obtain ⟨q, hq, hRq⟩ := hR.erase_spec (Nat.sub_le v.length 1) (Nat.le_refl v.length)
  refine ⟨q, by rw [popBack, hR.size_eq, if_neg (by omega), hq], ?_⟩
  rwa [List.drop_length, List.append_nil, ← List.dropLast_eq_take] at hRq

/-- `resize(n)` truncates the elements or appends `T{}`s. -/
theorem Refines.resize_spec [Inhabited T] {n : ℕ} (hR : Refines N p v) (hb : N + n < 2 ^ 31)
    (hvb : N + v.length < 2 ^ 31) :
    ∃ q, p.resize N n = some q ∧
      Refines N q (v.take n ++ List.replicate (n - v.length) default) := by
  have hsize := hR.size_eq
  rcases Nat.lt_trichotomy v.length n with hlt | heq | hgt
  · -- growing: the capacity is raised to `n` if needed, then `T{}`s are written and counted
    obtain ⟨q, hq, hRq, hcap⟩ : ∃ q, (if n > p.capacity N then p.changeCapacity N n else some p) =
        some q ∧ Refines N q v ∧ n ≤ q.capacity N := by
      by_cases hc : n > p.capacity N
      · obtain ⟨q, hq, hRq, hcap⟩ := hR.changeCapacity_spec (c := n) (by omega) (by omega) hvb
        exact ⟨q, by rw [if_pos hc, hq], hRq, by omega⟩
      · exact ⟨p, if_neg hc, hR, by omega⟩
    obtain ⟨q1, hwrite, hR1⟩ := hRq.writeCount_spec (List.replicate (n - v.length) default)
      (by rw [List.length_replicate]; omega) (by rw [List.length_replicate]; omega)
    rw [List.map_replicate] at hwrite
    rw [List.length_replicate] at hR1
    rw [List.take_of_length_le (Nat.le_of_lt hlt)]
    refine ⟨_, ?_, hR1⟩
    rw [resize]
    dsimp only
    rw [hsize, if_neg (Nat.ne_of_lt hlt), if_neg (by omega), Option.bind_eq_bind]
    -- `let p ← if ...` puts the rest of the body into both branches
    split_ifs at hq ⊢
    · rw [hq, Option.bind_some, hwrite, Option.bind_some]
      rfl
    · rw [hq, Option.bind_some, hwrite, Option.bind_some]
      rfl
  · -- the same size: nothing to do
    subst heq
    refine ⟨p, by rw [resize]; dsimp only; rw [hsize, if_pos rfl], ?_⟩
    rwa [List.take_length, Nat.sub_self, List.replicate_zero, List.append_nil]
  · -- shrinking: the elements from `n` on are erased
    obtain ⟨q, hq, hRq⟩ := hR.erase_spec (Nat.le_of_lt hgt) (Nat.le_refl v.length)
    refine ⟨q, by rw [resize]; dsimp only; rw [hsize, if_neg (Nat.ne_of_gt hgt), if_pos hgt, hq], ?_⟩
    rw [Nat.sub_eq_zero_of_le (Nat.le_of_lt hgt), List.replicate_zero, List.append_nil]
    rwa [List.drop_length, List.append_nil] at hRq

/-- `reserve(c)` keeps the elements and leaves room for `c` of them. -/
theorem Refines.reserve_spec {c : ℕ} (hR : Refines N p v) (hc32 : c < 2 ^ 32)
    (hb : N + v.length < 2 ^ 31) :
    ∃ q, p.reserve N c = some q ∧ Refines N q v ∧ c ≤ q.capacity N := by
  by_cases h : c > p.capacity N
  · obtain ⟨q, hq, hRq, hcap⟩ :=
      hR.changeCapacity_spec (Nat.le_trans hR.le_capacity (Nat.le_of_lt h)) hc32 hb
    exact ⟨q, by rw [reserve, if_pos h, hq], hRq, by omega⟩
  · exact ⟨p, by rw [reserve, if_neg h], hR, by omega⟩

/-- `shrink_to_fit()` keeps the elements, in the object when they fit there. -/
theorem Refines.shrinkToFit_spec (hR : Refines N p v) (hb : N + v.length < 2 ^ 31) :
    ∃ q, p.shrinkToFit N = some q ∧ Refines N q v ∧ q.capacity N = max v.length N := by
  obtain ⟨q, hq, hRq, hcap⟩ := hR.changeCapacity_spec (c := v.length) (Nat.le_refl _) (by omega) hb
  exact ⟨q, by rw [shrinkToFit, hR.size_eq, hq], hRq, hcap⟩

/-- `clear()` removes every element. -/
theorem Refines.clear_spec [Inhabited T] (hR : Refines N p v) (hb : N + v.length < 2 ^ 31) :
    ∃ q, p.clear N = some q ∧ Refines N q [] := by
  obtain ⟨q, hq, hRq⟩ := hR.resize_spec (n := 0) (by omega) hb
  refine ⟨q, by rw [clear, hq], ?_⟩
  rwa [List.take_zero, Nat.zero_sub, List.replicate_zero, List.append_nil] at hRq

/-- `(*this)[pos] = value` replaces the element at `pos`. -/
theorem Refines.setAt_spec {pos : ℕ} {value : T} (hR : Refines N p v) (hpos : pos < v.length) :
    ∃ q, p.setAt N pos value = some q ∧ Refines N q (v.set pos value) := by
  have hlen := hR.length_buffer
  have hcap := hR.le_capacity
  have hfits : pos + [some value].length ≤ (p.buffer (p.region N)).length := by
    rw [List.length_singleton, hlen]
    omega
  rw [setAt, write_eq_some hfits]
  refine ⟨_, rfl, Refines.of_layout (hR.toLayout.setBuffer (Slots.length_overwrite hfits))
    List.length_set ?_⟩
  have htake := Slots.take_set (x := some value) hR.take_buffer'
    (Nat.le_trans hpos (Nat.le_of_eq (List.length_map _).symm)) (by rw [List.length_map, hlen]; exact hcap)
  rw [List.length_map, ← List.map_set] at htake
  rw [region_setBuffer, buffer_setBuffer]
  exact htake

/-- Two writes of adjacent runs are one write. -/
theorem write_append {r : Region} {off : ℕ} {xs ys : List (Option T)}
    (h : off + xs.length + ys.length ≤ (p.buffer r).length) :
    (p.write r off xs).bind (fun q => q.write r (off + xs.length) ys) =
      p.write r off (xs ++ ys) := by
  have h₁ : off + xs.length ≤ (p.buffer r).length := by omega
  have h₂ : off + xs.length + ys.length ≤
      ((p.setBuffer r (Slots.overwrite (p.buffer r) off xs)).buffer r).length := by
    rw [buffer_setBuffer, Slots.length_overwrite h₁]
    exact h
  have h₃ : off + (xs ++ ys).length ≤ (p.buffer r).length := by
    rw [List.length_append]
    omega
  rw [write_eq_some h₁, Option.bind_some, write_eq_some h₂, write_eq_some h₃, buffer_setBuffer,
    setBuffer_setBuffer, Slots.overwrite_append h]

/-- The loop that initializes the elements `resize_uninitialized` added is one write. -/
theorem setEach_eq_write {pos : ℕ} {values : List T}
    (h : pos + values.length ≤ (p.buffer (p.region N)).length) :
    p.setEach N pos values = p.write (p.region N) pos (values.map some) := by
  induction values generalizing p pos with
  | nil =>
    rw [setEach, List.map_nil, write_eq_some (by simpa using h), Slots.overwrite_nil,
      setBuffer_buffer]
  | cons value values ih =>
    rw [List.length_cons] at h
    have h₁ : pos + [some value].length ≤ (p.buffer (p.region N)).length := by
      rw [List.length_singleton]
      omega
    have h₂ : pos + [some value].length + (values.map some).length ≤
        (p.buffer (p.region N)).length := by
      rw [List.length_singleton, List.length_map]
      omega
    have h₃ : pos + 1 + values.length ≤
        ((p.setBuffer (p.region N) (Slots.overwrite (p.buffer (p.region N)) pos
          [some value])).buffer ((p.setBuffer (p.region N) (Slots.overwrite
            (p.buffer (p.region N)) pos [some value])).region N)).length := by
      rw [region_setBuffer, buffer_setBuffer, Slots.length_overwrite h₁]
      omega
    -- one slot, then the rest from the next one
    rw [setEach, Option.bind_eq_bind, List.map_cons, ← List.singleton_append, ← write_append h₂,
      setAt, write_eq_some h₁, Option.bind_some, Option.bind_some, ih h₃,
      region_setBuffer]
    rfl

/-- `resize_uninitialized(n)` followed by the initialization of the new elements, as
`prevector_tester::resize_uninitialized` does it, truncates the elements or appends `values`. -/
theorem Refines.resizeUninitialized_spec {n : ℕ} {values : List T} (hR : Refines N p v)
    (hvalues : values.length = n - v.length) (hb : N + n < 2 ^ 31)
    (hvb : N + v.length < 2 ^ 31) :
    ∃ q, ((p.resizeUninitialized N n).bind fun q => q.setEach N (p.size N) values) = some q ∧
      Refines N q (v.take n ++ values) := by
  have hsize := hR.size_eq
  have hcapv := hR.le_capacity
  rw [hsize]
  by_cases hshrink : n < v.length
  · -- shrinking: `erase`, and nothing to initialize
    have hnil : values = [] := List.eq_nil_of_length_eq_zero (by omega)
    subst hnil
    obtain ⟨q, hq, hRq⟩ := hR.erase_spec (Nat.le_of_lt hshrink) (Nat.le_refl v.length)
    refine ⟨q, ?_, by rwa [List.drop_length] at hRq⟩
    rw [resizeUninitialized, if_neg (by omega), hsize, if_pos hshrink, hq, Option.bind_some,
      setEach]
  · -- growing: the new elements are counted, then written
    obtain ⟨q, hpre, hRq, hcap⟩ : ∃ q, p.resizeUninitialized N n =
        some { q with rawSize := wrapAdd q.rawSize values.length } ∧ Refines N q v ∧
        n ≤ q.capacity N := by
      by_cases hc : p.capacity N < n
      · obtain ⟨q, hq, hRq, hcap⟩ := hR.changeCapacity_spec (c := n) (by omega) (by omega) hvb
        refine ⟨q, ?_, hRq, by omega⟩
        rw [resizeUninitialized, if_pos hc, Option.bind_eq_bind, hq, Option.bind_some,
          hRq.size_eq, wrapSub_of_le (by omega) (by omega), hvalues]
        rfl
      · refine ⟨p, ?_, hR, by omega⟩
        rw [resizeUninitialized, if_neg hc, hsize, if_neg hshrink,
          wrapSub_of_le (by omega) (by omega), hvalues]
        rfl
    have hlen := hRq.length_buffer
    obtain ⟨hr, q1, hwrite, hR1⟩ := hRq.countWrite_spec values (by omega) (by omega)
    refine ⟨q1, ?_, by rwa [List.take_of_length_le (by omega)]⟩
    rw [hpre, Option.bind_some, setEach_eq_write (by rw [hr, buffer_rawSize, hlen]; omega), hr]
    exact hwrite

/-- The body of `assign`: the elements are replaced by `ys`. -/
theorem Refines.assignSlots_spec [Inhabited T] (hR : Refines N p v) (ys : List T)
    (hb : N + ys.length < 2 ^ 31) (hvb : N + v.length < 2 ^ 31) :
    ∃ q, p.assignSlots N ys.length (ys.map some) = some q ∧ Refines N q ys := by
  obtain ⟨q, hq, hRq⟩ := hR.clear_spec hvb
  obtain ⟨q1, hq1, hRq1, hcap⟩ : ∃ q1, (if q.capacity N < ys.length then
      q.changeCapacity N ys.length else some q) = some q1 ∧ Refines N q1 [] ∧
      ys.length ≤ q1.capacity N := by
    by_cases hc : q.capacity N < ys.length
    · obtain ⟨q1, hq1, hRq1, hcap⟩ := hRq.changeCapacity_spec (c := ys.length) (Nat.zero_le _)
        (by omega) (by rw [List.length_nil]; omega)
      exact ⟨q1, by rw [if_pos hc, hq1], hRq1, by omega⟩
    · exact ⟨q, if_neg hc, hRq, by omega⟩
  obtain ⟨hr, q2, hwrite, hR2⟩ := hRq1.countWrite_spec ys (by rw [List.length_nil]; omega)
    (by rw [List.length_nil]; omega)
  have hrest : ({ q1 with rawSize := wrapAdd q1.rawSize ys.length } : Prevector T).write
      (({ q1 with rawSize := wrapAdd q1.rawSize ys.length } : Prevector T).region N) 0
      (ys.map some) = some q2 := by
    rw [hr]
    exact hwrite
  refine ⟨q2, ?_, by rwa [List.nil_append] at hR2⟩
  rw [assignSlots, Option.bind_eq_bind, hq, Option.bind_some]
  dsimp only
  -- `let p ← if ...` puts the rest of the body into both branches
  split_ifs at hq1 ⊢
  · rw [hq1, Option.bind_some]
    exact hrest
  · rw [hq1, Option.bind_some]
    exact hrest

/-- `assign(n, val)` replaces the elements by `n` copies of `val`. -/
theorem Refines.assign_spec [Inhabited T] {n : ℕ} {val : T} (hR : Refines N p v)
    (hb : N + n < 2 ^ 31) (hvb : N + v.length < 2 ^ 31) :
    ∃ q, p.assign N n val = some q ∧ Refines N q (List.replicate n val) := by
  obtain ⟨q, hq, hRq⟩ :=
    hR.assignSlots_spec (List.replicate n val) (by rw [List.length_replicate]; exact hb) hvb
  rw [List.length_replicate, List.map_replicate] at hq
  exact ⟨q, by rw [assign, hq], hRq⟩

/-- `assign(first, last)` replaces the elements by the range. -/
theorem Refines.assignRange_spec [Inhabited T] {ys : List T} (hR : Refines N p v)
    (hb : N + ys.length < 2 ^ 31) (hvb : N + v.length < 2 ^ 31) :
    ∃ q, p.assignRange N (ys.map some) = some q ∧ Refines N q ys := by
  obtain ⟨q, hq, hRq⟩ := hR.assignSlots_spec ys hb hvb
  exact ⟨q, by rw [assignRange, List.length_map, Nat.mod_eq_of_lt (by omega), hq], hRq⟩

/-- The body of the constructors: a new prevector holding `ys`. -/
theorem construct_spec (ys : List T) (hb : N + ys.length < 2 ^ 31) :
    ∃ q, construct N ys.length (ys.map some) = some q ∧ Refines N q ys := by
  obtain ⟨q, hq, hRq, hcap⟩ := (refines_empty (N := N) (T := T)).changeCapacity_spec
    (c := ys.length) (Nat.zero_le _) (by omega) (by rw [List.length_nil]; omega)
  obtain ⟨hr, q1, hwrite, hR1⟩ := hRq.countWrite_spec ys (by rw [List.length_nil]; omega)
    (by rw [List.length_nil]; omega)
  refine ⟨q1, ?_, by rwa [List.nil_append] at hR1⟩
  rw [construct, Option.bind_eq_bind, hq, Option.bind_some]
  dsimp only
  rw [hr]
  exact hwrite

/-- `prevector(n, val)` holds `n` copies of `val`. -/
theorem ofFill_spec {n : ℕ} (val : T) (hb : N + n < 2 ^ 31) :
    ∃ q, ofFill N n val = some q ∧ Refines N q (List.replicate n val) := by
  obtain ⟨q, hq, hRq⟩ :=
    construct_spec (N := N) (List.replicate n val) (by rw [List.length_replicate]; exact hb)
  rw [List.length_replicate, List.map_replicate] at hq
  exact ⟨q, by rw [ofFill, hq], hRq⟩

/-- `prevector(first, last)` holds the range. -/
theorem ofRange_spec (ys : List T) (hb : N + ys.length < 2 ^ 31) :
    ∃ q, ofRange N (ys.map some) = some q ∧ Refines N q ys := by
  obtain ⟨q, hq, hRq⟩ := construct_spec (N := N) ys hb
  exact ⟨q, by rw [ofRange, List.length_map, Nat.mod_eq_of_lt (by omega), hq], hRq⟩

/-- `prevector(n)` holds `n` elements `T{}`. -/
theorem ofCount_spec [Inhabited T] {n : ℕ} (hb : N + n < 2 ^ 31) :
    ∃ q, ofCount N n = some q ∧ Refines N q (List.replicate n (default : T)) := by
  obtain ⟨q, hq, hRq⟩ := (refines_empty (N := N) (T := T)).resize_spec (n := n) hb
    (by rw [List.length_nil]; omega)
  rw [List.take_nil, List.nil_append, List.length_nil, Nat.sub_zero] at hRq
  exact ⟨q, by rw [ofCount, hq], hRq⟩

/-- `prevector(const prevector &other)` holds the elements of `other`. -/
theorem Refines.copy_spec {other : Prevector T} {w : List T} (hO : Refines N other w)
    (hb : N + w.length < 2 ^ 31) :
    ∃ q, copy N other = some q ∧ Refines N q w := by
  obtain ⟨q, hq, hRq⟩ := construct_spec (N := N) w hb
  exact ⟨q, by rw [copy, Option.bind_eq_bind, hO.read_eq, Option.bind_some, hO.size_eq, hq], hRq⟩

/-- `operator=(const prevector &other)` replaces the elements by those of `other`. -/
theorem Refines.copyAssign_spec [Inhabited T] {other : Prevector T} {w : List T}
    (hR : Refines N p v) (hO : Refines N other w) (hb : N + w.length < 2 ^ 31)
    (hvb : N + v.length < 2 ^ 31) :
    ∃ q, p.copyAssign N other = some q ∧ Refines N q w := by
  obtain ⟨q, hq, hRq⟩ := hR.assignRange_spec hb hvb
  exact ⟨q, by rw [copyAssign, Option.bind_eq_bind, hO.read_eq, Option.bind_some, hq], hRq⟩

end Prevector

end BitcoinCash
