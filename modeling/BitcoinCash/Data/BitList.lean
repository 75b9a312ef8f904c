import Mathlib.Data.Nat.Bitwise
import Mathlib.Tactic.Ring
import Mathlib.Tactic.Linarith

/-!
# Bit strings, most significant bit first

A bit stream writes the bits of each number from the most significant one down, and packs them
into bytes the same way. `bitsOf v n` is the list of the low `n` bits of `v` in that order, and
`ofBits` reads such a list back as a number (`ofBits_bitsOf`). Both turn concatenation into a
shift and an addition (`ofBits_append`, `bitsOf_add`). `bytesBits` is the bit string of a list of bytes.
-/

namespace BitList

/-- The number spelled by a list of bits, most significant first. -/
def ofBits (bs : List Bool) : ℕ := bs.foldl (fun n b => 2 * n + b.toNat) 0

/-- The low `n` bits of `v`, most significant first. -/
def bitsOf (v : ℕ) : ℕ → List Bool
  | 0 => []
  | n + 1 => v.testBit n :: bitsOf v n

/-- The bits of a list of bytes, each byte most significant bit first. -/
def bytesBits (bytes : List UInt8) : List Bool := bytes.flatMap fun b => bitsOf b.toNat 8

@[simp] theorem ofBits_nil : ofBits [] = 0 := rfl

@[simp] theorem bitsOf_zero (v : ℕ) : bitsOf v 0 = [] := rfl

theorem bitsOf_succ (v n : ℕ) : bitsOf v (n + 1) = v.testBit n :: bitsOf v n := rfl

@[simp] theorem length_bitsOf (v n : ℕ) : (bitsOf v n).length = n := by
  induction n with
  | zero => rfl
  | succ n ih => rw [bitsOf_succ, List.length_cons, ih]

/-- Folding from an accumulator `n` shifts `n` left by the length of the list. -/
private theorem foldl_bits (l : List Bool) (n : ℕ) :
    l.foldl (fun n b => 2 * n + b.toNat) n = n * 2 ^ l.length + ofBits l := by
  induction l generalizing n with
  | nil => simp
  | cons b l ih =>
    have hcons : ofBits (b :: l) = b.toNat * 2 ^ l.length + ofBits l := by
      show (b :: l).foldl (fun n b => 2 * n + b.toNat) 0 = _
      rw [List.foldl_cons, Nat.mul_zero, Nat.zero_add, ih]
    rw [List.foldl_cons, ih, hcons, List.length_cons, pow_succ]
    ring

theorem ofBits_cons (b : Bool) (l : List Bool) :
    ofBits (b :: l) = b.toNat * 2 ^ l.length + ofBits l := by
  rw [ofBits, List.foldl_cons, Nat.mul_zero, Nat.zero_add, foldl_bits]

theorem ofBits_append (l₁ l₂ : List Bool) :
    ofBits (l₁ ++ l₂) = ofBits l₁ * 2 ^ l₂.length + ofBits l₂ := by
  rw [ofBits, List.foldl_append, foldl_bits]
  rfl

theorem ofBits_lt (l : List Bool) : ofBits l < 2 ^ l.length := by
  induction l with
  | nil => simp
  | cons b l ih =>
    have hb : b.toNat ≤ 1 := Bool.toNat_le b
    rw [ofBits_cons, List.length_cons, pow_succ]
    nlinarith

/-- The bits read back are the low bits. -/
theorem ofBits_bitsOf (v n : ℕ) : ofBits (bitsOf v n) = v % 2 ^ n := by
  induction n with
  | zero => simp [Nat.mod_one]
  | succ n ih =>
    rw [bitsOf_succ, ofBits_cons, ih, length_bitsOf, Nat.toNat_testBit, Nat.mod_pow_succ]
    ring

/-- `bitsOf v n` depends only on the low `n` bits of `v`. -/
theorem bitsOf_mod (v n : ℕ) : bitsOf (v % 2 ^ n) n = bitsOf v n := by
  -- every bit read is below `n`
  have h : ∀ m ≤ n, bitsOf (v % 2 ^ n) m = bitsOf v m := by
    intro m hm
    induction m with
    | zero => rfl
    | succ m ih =>
      rw [bitsOf_succ, bitsOf_succ, ih (by omega), Nat.testBit_mod_two_pow,
        decide_eq_true (by omega), Bool.true_and]
  exact h n le_rfl

/-- The bits of `a * 2 ^ m + b`, for `b < 2 ^ m`, are those of `a`, then those of `b`. -/
theorem bitsOf_add {a b m : ℕ} (hb : b < 2 ^ m) (n : ℕ) :
    bitsOf (a * 2 ^ m + b) (n + m) = bitsOf a n ++ bitsOf b m := by
  have hlow : ∀ k ≤ m, bitsOf (a * 2 ^ m + b) k = bitsOf b k := by
    intro k hk
    induction k with
    | zero => rfl
    | succ k ih =>
      rw [bitsOf_succ, bitsOf_succ, ih (by omega), Nat.mul_comm, Nat.testBit_two_pow_mul_add _ hb,
        if_pos (by omega)]
  induction n with
  | zero => rw [Nat.zero_add, hlow m le_rfl, bitsOf_zero, List.nil_append]
  | succ n ih =>
    rw [show n + 1 + m = n + m + 1 by omega, bitsOf_succ, ih, bitsOf_succ, List.cons_append,
      Nat.mul_comm, Nat.testBit_two_pow_mul_add _ hb, if_neg (by omega),
      show n + m - m = n by omega]

/-- The `n` low bits of `v` are its `k` bits above the `n - k` lowest, then those. -/
theorem bitsOf_split {k n : ℕ} (hk : k ≤ n) (v : ℕ) :
    bitsOf v n = bitsOf (v / 2 ^ (n - k)) k ++ bitsOf v (n - k) := by
  rw [← bitsOf_mod v (n - k), ← bitsOf_add (Nat.mod_lt _ (Nat.two_pow_pos _)), Nat.div_add_mod',
    show k + (n - k) = n by omega]

/-- The top `k` of the `n` low bits of `v` are the bits of `v / 2 ^ (n - k)`. -/
theorem bitsOf_div {k n : ℕ} (hk : k ≤ n) (v : ℕ) :
    (bitsOf v n).take k = bitsOf (v / 2 ^ (n - k)) k := by
  rw [bitsOf_split hk, List.take_left' (length_bitsOf _ _)]

/-- Below its top `k` bits come the `n - k` lowest. -/
theorem bitsOf_drop {k n : ℕ} (hk : k ≤ n) (v : ℕ) : (bitsOf v n).drop k = bitsOf v (n - k) := by
  rw [bitsOf_split hk, List.drop_left' (length_bitsOf _ _)]

theorem bitsOf_zero_eq_replicate (n : ℕ) : bitsOf 0 n = List.replicate n false := by
  induction n with
  | zero => rfl
  | succ n ih => rw [bitsOf_succ, ih, Nat.zero_testBit, List.replicate_succ]

theorem bitsOf_replicate_true {n w : ℕ} (hn : n ≤ w) : bitsOf (2 ^ w - 1) n = List.replicate n true := by
  induction n with
  | zero => rfl
  | succ n ih =>
    rw [bitsOf_succ, ih (by omega), List.replicate_succ, Nat.testBit_two_pow_sub_one,
      decide_eq_true (by omega)]

@[simp] theorem bytesBits_nil : bytesBits [] = [] := rfl

theorem bytesBits_cons (b : UInt8) (bytes : List UInt8) :
    bytesBits (b :: bytes) = bitsOf b.toNat 8 ++ bytesBits bytes := by
  rw [bytesBits, List.flatMap_cons]
  rfl

theorem bytesBits_append (l₁ l₂ : List UInt8) :
    bytesBits (l₁ ++ l₂) = bytesBits l₁ ++ bytesBits l₂ := by
  rw [bytesBits, List.flatMap_append]
  rfl

@[simp] theorem length_bytesBits (bytes : List UInt8) :
    (bytesBits bytes).length = 8 * bytes.length := by
  induction bytes with
  | nil => rfl
  | cons b bytes ih =>
    rw [bytesBits_cons, List.length_append, ih, length_bitsOf, List.length_cons]
    ring

/-- Byte strings are their bits. -/
theorem bytesBits_inj {a b : List UInt8} (h : bytesBits a = bytesBits b) : a = b := by
  induction a generalizing b with
  | nil =>
    cases b with
    | nil => rfl
    | cons y b => simpa using congrArg List.length h
  | cons x a ih =>
    cases b with
    | nil => simpa using congrArg List.length h
    | cons y b =>
      rw [bytesBits_cons, bytesBits_cons] at h
      obtain ⟨hbyte, hrest⟩ := List.append_inj h (by simp)
      -- a byte is the number its eight bits spell
      have hxy : x.toNat = y.toNat := by
        have := congrArg ofBits hbyte
        rwa [ofBits_bitsOf, ofBits_bitsOf, Nat.mod_eq_of_lt x.toNat_lt,
          Nat.mod_eq_of_lt y.toNat_lt] at this
      rw [UInt8.toNat_inj.mp hxy, ih hrest]

end BitList
