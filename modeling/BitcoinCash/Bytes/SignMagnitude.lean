import BitcoinCash.Bytes.LittleEndian
import Mathlib.Tactic.Positivity
import Mathlib.Tactic.Linarith

/-!
# Sign-magnitude little-endian numbers

A byte string denotes an integer in sign-magnitude notation: the bytes are little-endian, the
top bit of the last byte is the sign, and the remaining bits are the magnitude. Every integer has
many such strings (leading zero bytes, negative zero); the *minimal* ones are those whose last
byte carries magnitude bits, or whose last byte is a pure sign byte needed because the byte
before it has its top bit set.

This file proves that minimal strings are determined by the integer they denote. Any encoder
whose outputs are minimal and denote their input is therefore a bijection onto the minimal
strings it reaches.
-/

namespace BitcoinCash.Bytes

/-- The magnitude bits of a sign-magnitude string: the little-endian value with the top bit of
the last byte cleared. -/
def magnitude (l : List UInt8) : ℕ :=
  match l.getLast? with
  | none => 0
  | some b => leValue l.dropLast + 256 ^ (l.length - 1) * (b.toNat % 128)

/-- The sign bit: the top bit of the last byte. -/
def isNegative (l : List UInt8) : Bool :=
  match l.getLast? with
  | none => false
  | some b => decide (128 ≤ b.toNat)

/-- The integer a sign-magnitude little-endian byte string denotes; the empty string is zero. -/
def smValue (l : List UInt8) : ℤ :=
  if isNegative l then -(magnitude l : ℤ) else magnitude l

/-- A string is minimal when it is empty, or its last byte has a magnitude bit, or the byte
before the last has its top bit set, so that the last byte only carries the sign. -/
def IsMinimal (l : List UInt8) : Prop :=
  ∀ b ∈ l.getLast?, b.toNat % 128 = 0 → ∃ c ∈ l.dropLast.getLast?, 128 ≤ c.toNat

instance : DecidablePred IsMinimal := fun l =>
  inferInstanceAs (Decidable (∀ b ∈ l.getLast?, _))

@[simp] theorem magnitude_nil : magnitude [] = 0 := rfl

@[simp] theorem isNegative_nil : isNegative [] = false := rfl

@[simp] theorem smValue_nil : smValue [] = 0 := rfl

@[simp] theorem isMinimal_nil : IsMinimal [] := by
  simp [IsMinimal]

@[simp] theorem magnitude_append_singleton (init : List UInt8) (b : UInt8) :
    magnitude (init ++ [b]) = leValue init + 256 ^ init.length * (b.toNat % 128) := by
  simp [magnitude]

@[simp] theorem isNegative_append_singleton (init : List UInt8) (b : UInt8) :
    isNegative (init ++ [b]) = decide (128 ≤ b.toNat) := by
  simp [isNegative]

theorem smValue_append_singleton (init : List UInt8) (b : UInt8) :
    smValue (init ++ [b]) = if 128 ≤ b.toNat then
      -((leValue init + 256 ^ init.length * (b.toNat % 128) : ℕ) : ℤ)
    else ((leValue init + 256 ^ init.length * (b.toNat % 128) : ℕ) : ℤ) := by
  simp [smValue]

theorem isMinimal_append_singleton_iff (init : List UInt8) (b : UInt8) :
    IsMinimal (init ++ [b]) ↔
      (b.toNat % 128 = 0 → ∃ c ∈ init.getLast?, 128 ≤ c.toNat) := by
  simp [IsMinimal]

/-- The raw little-endian value splits into the magnitude and the sign bit. -/
theorem leValue_eq_magnitude_add (l : List UInt8) :
    leValue l = magnitude l +
      (if isNegative l then 128 * 256 ^ (l.length - 1) else 0) := by
  rcases l.eq_nil_or_concat with rfl | ⟨init, b, rfl⟩
  · simp
  · rw [List.concat_eq_append, leValue_append_singleton, magnitude_append_singleton,
      isNegative_append_singleton, List.length_append, List.length_singleton, Nat.add_sub_cancel]
    have hb : b.toNat < 256 := b.toNat_lt
    by_cases h : 128 ≤ b.toNat
    · have hsplit : b.toNat = b.toNat % 128 + 128 := by omega
      simp only [h, decide_true, if_true]
      conv_lhs => rw [hsplit]
      ring
    · have hsplit : b.toNat % 128 = b.toNat := by omega
      simp [h, hsplit]

/-- The magnitude of `k` bytes has at most `8 * k - 1` bits. -/
theorem magnitude_lt {l : List UInt8} (hl : l ≠ []) :
    magnitude l < 128 * 256 ^ (l.length - 1) := by
  obtain ⟨init, b, rfl⟩ := (l.eq_nil_or_concat).resolve_left hl
  rw [List.concat_eq_append, magnitude_append_singleton, List.length_append,
    List.length_singleton, Nat.add_sub_cancel]
  have hinit := leValue_lt init
  have hb : b.toNat % 128 < 128 := Nat.mod_lt _ (by norm_num)
  have hstep : 256 ^ init.length * (b.toNat % 128) + 256 ^ init.length ≤
      128 * 256 ^ init.length := by
    nlinarith
  omega

/-- A non-empty minimal string has a non-zero magnitude, and one of at least two bytes has a
magnitude of at least `2 ^ (8 * (k - 1) - 1)`. -/
theorem le_magnitude_of_isMinimal {l : List UInt8} (hmin : IsMinimal l) (hl : l ≠ []) :
    1 ≤ magnitude l ∧ (2 ≤ l.length → 128 * 256 ^ (l.length - 2) ≤ magnitude l) := by
  obtain ⟨init, b, rfl⟩ := (l.eq_nil_or_concat).resolve_left hl
  rw [List.concat_eq_append] at hmin ⊢
  rw [isMinimal_append_singleton_iff] at hmin
  rw [magnitude_append_singleton, List.length_append, List.length_singleton]
  have hpos : 0 < 256 ^ init.length := by positivity
  by_cases hb : b.toNat % 128 = 0
  · obtain ⟨c, hc, hc128⟩ := hmin hb
    obtain ⟨init', rfl⟩ : ∃ init', init = init' ++ [c] := by
      rcases init.eq_nil_or_concat with rfl | ⟨init', c', rfl⟩
      · simp at hc
      · simp at hc
        exact ⟨init', by rw [hc, List.concat_eq_append]⟩
    have hc_le : 128 * 256 ^ init'.length ≤ leValue (init' ++ [c]) := by
      have hcpow : 128 * 256 ^ init'.length ≤ 256 ^ init'.length * c.toNat := by
        rw [Nat.mul_comm]
        exact Nat.mul_le_mul_left _ hc128
      rw [leValue_append_singleton]
      omega
    have hone : 1 ≤ 128 * 256 ^ init'.length := by
      have : 0 < 256 ^ init'.length := by positivity
      omega
    refine ⟨by omega, fun _ => ?_⟩
    simpa [hb] using hc_le
  · have hb1 : 1 ≤ b.toNat % 128 := Nat.one_le_iff_ne_zero.mpr hb
    have hlow : 256 ^ init.length ≤ 256 ^ init.length * (b.toNat % 128) :=
      Nat.le_mul_of_pos_right _ hb1
    refine ⟨by omega, fun h2 => ?_⟩
    obtain ⟨k, hk⟩ : ∃ k, init.length = k + 1 := ⟨init.length - 1, by omega⟩
    have hpow : 128 * 256 ^ (init.length + 1 - 2) ≤ 256 ^ init.length := by
      rw [hk, show k + 1 + 1 - 2 = k by omega, pow_succ]
      omega
    omega

@[simp] theorem natAbs_smValue (l : List UInt8) : (smValue l).natAbs = magnitude l := by
  unfold smValue
  split <;> simp

/-- A non-empty minimal string is negative exactly when its sign bit is set. -/
theorem smValue_neg_iff {l : List UInt8} (hmin : IsMinimal l) (hl : l ≠ []) :
    smValue l < 0 ↔ isNegative l = true := by
  have hpos := (le_magnitude_of_isMinimal hmin hl).1
  unfold smValue
  by_cases h : isNegative l = true
  · simp only [h, if_true, iff_true]
    omega
  · simp only [h, if_false, Bool.false_eq_true, iff_false, not_lt]
    omega

theorem smValue_eq_zero_iff {l : List UInt8} (hmin : IsMinimal l) :
    smValue l = 0 ↔ l = [] := by
  refine ⟨fun h => ?_, fun h => by simp [h]⟩
  by_contra hl
  have hpos := (le_magnitude_of_isMinimal hmin hl).1
  have habs := natAbs_smValue l
  rw [h] at habs
  simp at habs
  omega

/-- The length of a non-empty minimal string is determined by its magnitude. -/
theorem length_eq_of_magnitude_eq {l₁ l₂ : List UInt8} (h₁ : IsMinimal l₁) (h₂ : IsMinimal l₂)
    (hne₁ : l₁ ≠ []) (hne₂ : l₂ ≠ []) (hmag : magnitude l₁ = magnitude l₂) :
    l₁.length = l₂.length := by
  -- a shorter minimal string has a magnitude below every longer one's lower bound
  have shorter : ∀ {a b : List UInt8}, IsMinimal b → a ≠ [] → b ≠ [] →
      a.length < b.length → magnitude a < magnitude b := by
    intro a b hb ha hbne hlt
    have hup := magnitude_lt ha
    have hlow := (le_magnitude_of_isMinimal hb hbne).2 (by
      have : 1 ≤ a.length := List.length_pos_iff.mpr ha
      omega)
    have hpow : 256 ^ (a.length - 1) ≤ 256 ^ (b.length - 2) :=
      Nat.pow_le_pow_right (by norm_num) (by omega)
    omega
  rcases Nat.lt_trichotomy l₁.length l₂.length with hlt | heq | hgt
  · exact absurd hmag (shorter h₂ hne₁ hne₂ hlt).ne
  · exact heq
  · exact absurd hmag (shorter h₁ hne₂ hne₁ hgt).ne'

/-- Minimal sign-magnitude strings are determined by the integer they denote. -/
theorem eq_of_smValue_eq {l₁ l₂ : List UInt8} (h₁ : IsMinimal l₁) (h₂ : IsMinimal l₂)
    (hval : smValue l₁ = smValue l₂) : l₁ = l₂ := by
  by_cases hne₁ : l₁ = []
  · subst hne₁
    exact ((smValue_eq_zero_iff h₂).mp hval.symm).symm
  by_cases hne₂ : l₂ = []
  · subst hne₂
    exact (smValue_eq_zero_iff h₁).mp hval
  have hmag : magnitude l₁ = magnitude l₂ := by
    rw [← natAbs_smValue, ← natAbs_smValue, hval]
  have hlen := length_eq_of_magnitude_eq h₁ h₂ hne₁ hne₂ hmag
  have hsign : isNegative l₁ = isNegative l₂ := by
    rw [Bool.eq_iff_iff, ← smValue_neg_iff h₁ hne₁, ← smValue_neg_iff h₂ hne₂, hval]
  apply eq_of_leValue_eq hlen
  rw [leValue_eq_magnitude_add, leValue_eq_magnitude_add, hmag, hsign, hlen]

end BitcoinCash.Bytes
