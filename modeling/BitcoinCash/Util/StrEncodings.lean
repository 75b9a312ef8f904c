import Mathlib.Data.Nat.Digits.Defs
import Mathlib.Data.List.TakeWhile

/-!
# Characters and decimal strings

The character classes of `util/strencodings.h` and the decimal numbers that the money and
fixed-point code writes and reads back. Strings are lists of bytes, as `std::string` is; a C
string is the list of its bytes before the terminating zero.

A decimal string is read most significant digit first, `n ↦ 10 * n + d`; `decimalValue` is that
fold. `strprintf("%d", n)` writes `Nat.toDigits 10 n`, and reading it back gives `n`
(`decimalValue_formatDecimal`), with leading zeros changing nothing
(`decimalValue_replicate_zero_append`).
-/

namespace BitcoinCash

/-- `IsDigit`. -/
def isDigit (c : UInt8) : Bool := '0'.toUInt8 ≤ c && c ≤ '9'.toUInt8

/-- `IsSpace`: space, `'\f'` (`0x0c`), `'\n'`, `'\r'`, `'\t'` and `'\v'` (`0x0b`). -/
def isSpace (c : UInt8) : Bool :=
  c == ' '.toUInt8 || c == 0x0c || c == '\n'.toUInt8 || c == '\r'.toUInt8 || c == '\t'.toUInt8 ||
    c == 0x0b

/-- `ValidAsCString`: the string holds no zero byte, so that its C string is all of it. -/
def validAsCString (str : List UInt8) : Bool := !str.contains 0

/-- The value `c - '0'` of a digit character. -/
def digitValue (c : UInt8) : ℕ := c.toNat - 48

/-- The value of a string of decimal digits, most significant first. -/
def decimalValue (s : List UInt8) : ℕ := s.foldl (fun n c => 10 * n + digitValue c) 0

/-- `atoi64`, that is `strtoll(str, nullptr, 10)`, on a string that starts with its digits: the
value of the leading digits. Leading white space, a sign and saturation at the bounds of
`int64_t` are left out; the callers modelled here pass strings of at most ten digits. -/
def atoi64 (s : List UInt8) : ℕ := decimalValue (s.takeWhile isDigit)

/-- `strprintf("%d", n)` for `n ≥ 0`: the decimal digits, without leading zeros. -/
def formatDecimal (n : ℕ) : List UInt8 := (Nat.toDigits 10 n).map Char.toUInt8

section Digits

theorem isDigit_iff {c : UInt8} : isDigit c = true ↔ 48 ≤ c.toNat ∧ c.toNat ≤ 57 := by
  simp only [isDigit, Bool.and_eq_true, decide_eq_true_eq, UInt8.le_iff_toNat_le]
  rfl

theorem digitValue_lt {c : UInt8} (hc : isDigit c = true) : digitValue c < 10 := by
  rw [isDigit_iff] at hc
  rw [digitValue]
  omega

@[simp] theorem decimalValue_nil : decimalValue [] = 0 := rfl

/-- Folding from an accumulator `n` shifts `n` left by the length of the string. -/
private theorem foldl_decimal (t : List UInt8) (n : ℕ) :
    t.foldl (fun n c => 10 * n + digitValue c) n = n * 10 ^ t.length + decimalValue t := by
  induction t generalizing n with
  | nil => simp
  | cons c t ih =>
    have hcons : decimalValue (c :: t) = digitValue c * 10 ^ t.length + decimalValue t := by
      show (c :: t).foldl (fun n c => 10 * n + digitValue c) 0 = _
      rw [List.foldl_cons, Nat.mul_zero, Nat.zero_add, ih]
    rw [List.foldl_cons, ih, hcons, List.length_cons, pow_succ]
    ring

theorem decimalValue_cons (c : UInt8) (t : List UInt8) :
    decimalValue (c :: t) = digitValue c * 10 ^ t.length + decimalValue t := by
  rw [decimalValue, List.foldl_cons, Nat.mul_zero, Nat.zero_add, foldl_decimal]

theorem decimalValue_append (s t : List UInt8) :
    decimalValue (s ++ t) = decimalValue s * 10 ^ t.length + decimalValue t := by
  rw [decimalValue, List.foldl_append, foldl_decimal]
  rfl

theorem decimalValue_singleton (c : UInt8) : decimalValue [c] = digitValue c := by
  rw [decimalValue, List.foldl_cons, List.foldl_nil, Nat.mul_zero, Nat.zero_add]

theorem decimalValue_replicate_zero (k : ℕ) : decimalValue (List.replicate k '0'.toUInt8) = 0 := by
  induction k with
  | zero => rfl
  | succ k ih =>
    rw [List.replicate_succ', decimalValue_append, ih, decimalValue_singleton]
    rfl

/-- Leading zeros do not change the value. -/
theorem decimalValue_replicate_zero_append (k : ℕ) (s : List UInt8) :
    decimalValue (List.replicate k '0'.toUInt8 ++ s) = decimalValue s := by
  rw [decimalValue_append, decimalValue_replicate_zero, Nat.zero_mul, Nat.zero_add]

theorem decimalValue_lt (s : List UInt8) (hs : ∀ c ∈ s, isDigit c = true) :
    decimalValue s < 10 ^ s.length := by
  induction s with
  | nil => simp
  | cons c s ih =>
    have hc := digitValue_lt (hs c List.mem_cons_self)
    have hs' := ih fun d hd => hs d (List.mem_cons_of_mem c hd)
    rw [decimalValue_cons, List.length_cons, pow_succ]
    nlinarith

/-- Digits are neither white space, a point nor the zero that ends a C string. -/
theorem isDigit_classes {c : UInt8} (hc : isDigit c = true) :
    isSpace c = false ∧ c ≠ '.'.toUInt8 ∧ c ≠ 0 := by
  rw [isDigit_iff] at hc
  -- every one of those characters sits below `'0'`
  have hne : ∀ k : UInt8, k.toNat < 48 → c ≠ k := fun k hk h => by rw [h] at hc; omega
  refine ⟨?_, hne _ (by decide), hne _ (by decide)⟩
  simp only [isSpace, Bool.or_eq_false_iff, beq_eq_false_iff_ne]
  refine ⟨⟨⟨⟨⟨?_, ?_⟩, ?_⟩, ?_⟩, ?_⟩, ?_⟩ <;> exact hne _ (by decide)

theorem validAsCString_iff {str : List UInt8} : validAsCString str = true ↔ 0 ∉ str := by
  simp [validAsCString]

theorem atoi64_eq {s : List UInt8} (hs : ∀ c ∈ s, isDigit c = true) :
    atoi64 s = decimalValue s := by
  rw [atoi64, List.takeWhile_eq_self_iff.mpr hs]

end Digits

section Format

private theorem digitChar_spec : ∀ d < 10, isDigit (Nat.digitChar d).toUInt8 = true ∧
    digitValue (Nat.digitChar d).toUInt8 = d := by
  decide

theorem formatDecimal_of_lt {n : ℕ} (hn : n < 10) :
    formatDecimal n = [(Nat.digitChar n).toUInt8] := by
  rw [formatDecimal, Nat.toDigits_of_lt_base hn, List.map_singleton]

/-- From two digits on, `%d` prints the tens and then the last digit. -/
theorem formatDecimal_of_ge {n : ℕ} (hn : 10 ≤ n) :
    formatDecimal n = formatDecimal (n / 10) ++ formatDecimal (n % 10) := by
  rw [formatDecimal, formatDecimal, formatDecimal, ← List.map_append,
    Nat.toDigits_append_toDigits (by omega) (by omega) (Nat.mod_lt n (by omega)), Nat.div_add_mod]

theorem isDigit_formatDecimal (n : ℕ) : ∀ c ∈ formatDecimal n, isDigit c = true := by
  induction n using Nat.strong_induction_on with
  | _ n ih =>
    intro c hc
    rcases Nat.lt_or_ge n 10 with hn | hn
    · rw [formatDecimal_of_lt hn, List.mem_singleton] at hc
      exact hc ▸ (digitChar_spec n hn).1
    · rw [formatDecimal_of_ge hn, List.mem_append] at hc
      rcases hc with hc | hc
      · exact ih (n / 10) (by omega) c hc
      · exact ih (n % 10) (by omega) c hc

/-- `%d` is read back to the number it prints. -/
theorem decimalValue_formatDecimal (n : ℕ) : decimalValue (formatDecimal n) = n := by
  induction n using Nat.strong_induction_on with
  | _ n ih =>
    rcases Nat.lt_or_ge n 10 with hn | hn
    · rw [formatDecimal_of_lt hn, decimalValue_singleton, (digitChar_spec n hn).2]
    · have hlast := Nat.mod_lt n (show 10 > 0 by omega)
      rw [formatDecimal_of_ge hn, decimalValue_append, ih (n / 10) (by omega),
        formatDecimal_of_lt hlast, decimalValue_singleton, (digitChar_spec (n % 10) hlast).2,
        List.length_singleton, pow_one]
      omega

theorem length_formatDecimal_le {n e : ℕ} (he : 0 < e) (hn : n < 10 ^ e) :
    (formatDecimal n).length ≤ e := by
  rw [formatDecimal, List.length_map]
  exact Nat.toDigits_length 10 n e he hn

end Format

end BitcoinCash
