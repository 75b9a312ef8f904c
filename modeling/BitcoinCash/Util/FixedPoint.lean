import BitcoinCash.Util.StrEncodings
import Mathlib.Algebra.Order.Field.Power
import Mathlib.Data.Rat.Cast.Order

/-!
# Parsing fixed-point numbers

`ParseFixedPoint` of `util/strencodings.cpp` reads a number in the JSON grammar
`-?(0|[1-9][0-9]*)(\.[0-9]+)?([eE][+-]?[0-9]+)?` and returns it times `10 ^ decimals` as an
integer of absolute value at most `UPPER_BOUND = 10 ^ 18 - 1`. It reads the digits of the
mantissa into one integer, counting the trailing zeros apart (`ProcessMantissaDigit`) and
multiplying them in only when a later digit is not zero; it folds the digits after the point and
those zeros into the exponent, and multiplies the mantissa out at the end.

The grammar and the value of a number in it are stated on their own, by the parts of the
spelling (`JsonNumber`). What `ParseFixedPoint` accepts is a number of the grammar, and the
integer it returns is the number's value times `10 ^ decimals` (`parseFixedPoint_sound`). The
converse fails: whether a value is accepted depends on its spelling. The exponent is checked before the mantissa is known, so that `0e20`,
whose value is `0`, is rejected (`parseFixedPoint_zero_large_exponent`).

The counters `ptr`, `end`, `point_ofs` and `mantissa_tzeros` are natural numbers where the code
has `int`, that is, strings are shorter than `2 ^ 31` bytes; `decimals` is an integer.
-/

namespace BitcoinCash

/-- `UPPER_BOUND`: the largest integer of arbitrary decimal digits that fits in an `int64_t`. -/
def upperBound : ℤ := 1000000000000000000 - 1

/-- The loop of `ProcessMantissaDigit` that multiplies in the pending zeros and the place of the
new digit: `mantissa *= 10`, `n` times, each after the overflow check. -/
def shiftMantissa : ℕ → ℤ → Option ℤ
  | 0, mantissa => some mantissa
  | n + 1, mantissa => if mantissa > upperBound / 10 then none else shiftMantissa n (mantissa * 10)

/-- `ProcessMantissaDigit`; `none` where it returns `false`. A zero is only counted. -/
def processMantissaDigit (ch : UInt8) (mantissa : ℤ) (mantissaTzeros : ℕ) : Option (ℤ × ℕ) :=
  if ch = '0'.toUInt8 then some (mantissa, mantissaTzeros + 1)
  else do
    let mantissa ← shiftMantissa (mantissaTzeros + 1) mantissa
    pure (mantissa + digitValue ch, 0)

/-- A loop `while (ptr < end && IsDigit(val[ptr]))` over digits of the mantissa, each through
`ProcessMantissaDigit`. It counts the digits, as the loop after the point does in `point_ofs`,
and returns the rest of the string. -/
def mantissaDigits : List UInt8 → ℤ → ℕ → ℕ → Option (ℤ × ℕ × ℕ × List UInt8)
  | [], mantissa, mantissaTzeros, count => some (mantissa, mantissaTzeros, count, [])
  | ch :: rest, mantissa, mantissaTzeros, count =>
    if isDigit ch then do
      let (mantissa, mantissaTzeros) ← processMantissaDigit ch mantissa mantissaTzeros
      mantissaDigits rest mantissa mantissaTzeros (count + 1)
    else some (mantissa, mantissaTzeros, count, ch :: rest)

/-- The loop over the digits of the exponent, each after the overflow check. -/
def exponentDigits : List UInt8 → ℤ → Option (ℤ × List UInt8)
  | [], exponent => some (exponent, [])
  | ch :: rest, exponent =>
    if isDigit ch then
      if exponent > upperBound / 10 then none
      else exponentDigits rest (exponent * 10 + digitValue ch)
    else some (exponent, ch :: rest)

/-- The last loop of `ParseFixedPoint`: `mantissa *= 10`, `n` times, each after the check of
both bounds. -/
def scaleMantissa : ℕ → ℤ → Option ℤ
  | 0, mantissa => some mantissa
  | n + 1, mantissa =>
    if mantissa > upperBound / 10 ∨ mantissa < -(upperBound / 10) then none
    else scaleMantissa n (mantissa * 10)

/-- The integer part of `ParseFixedPoint`, after the sign: a single `'0'`, or digits from `'1'`
to `'9'` on; `none` for an empty string, a loose `'-'`, a missing digit or an overflow. It
returns the mantissa, its trailing zeros and the rest of the string. -/
def parseFixedPointInteger : List UInt8 → Option (ℤ × ℕ × List UInt8)
  | [] => none
  | ch :: rest =>
    -- pass single 0
    if ch = '0'.toUInt8 then some (0, 0, rest)
    else if '1'.toUInt8 ≤ ch ∧ ch ≤ '9'.toUInt8 then
      (mantissaDigits (ch :: rest) 0 0 0).map fun (mantissa, mantissaTzeros, _, rest) =>
        (mantissa, mantissaTzeros, rest)
    -- missing expected digit
    else none

/-- The fraction of `ParseFixedPoint`: after a `'.'`, at least one digit; it returns the mantissa,
its trailing zeros, `point_ofs` and the rest of the string. -/
def parseFixedPointFraction (mantissa : ℤ) (mantissaTzeros : ℕ) :
    List UInt8 → Option (ℤ × ℕ × ℕ × List UInt8)
  | [] => some (mantissa, mantissaTzeros, 0, [])
  | ch :: rest =>
    if ch = '.'.toUInt8 then
      match rest with
      | d :: ds => if isDigit d then mantissaDigits (d :: ds) mantissa mantissaTzeros 0 else none
      -- missing expected digit
      | [] => none
    else some (mantissa, mantissaTzeros, 0, ch :: rest)

/-- The sign of the exponent: an optional `'+'` or `'-'`. -/
def exponentSign : List UInt8 → Bool × List UInt8
  | [] => (false, [])
  | ch :: rest =>
    if ch = '+'.toUInt8 then (false, rest)
    else if ch = '-'.toUInt8 then (true, rest)
    else (false, ch :: rest)

/-- The exponent of `ParseFixedPoint`: after an `'e'` or `'E'` and a sign, at least one digit;
it returns the exponent, its sign and the rest of the string. -/
def parseFixedPointExponent : List UInt8 → Option (ℤ × Bool × List UInt8)
  | [] => some (0, false, [])
  | ch :: rest =>
    if ch = 'e'.toUInt8 ∨ ch = 'E'.toUInt8 then
      match exponentSign rest with
      | (sign, d :: ds) =>
        if isDigit d then (exponentDigits (d :: ds) 0).map fun (exponent, rest) =>
          (exponent, sign, rest)
        else none
      -- missing expected digit
      | (_, []) => none
    else some (0, false, ch :: rest)

/-- The sign of the mantissa: an optional `'-'`. -/
def mantissaSign : List UInt8 → Bool × List UInt8
  | [] => (false, [])
  | ch :: rest => if ch = '-'.toUInt8 then (true, rest) else (false, ch :: rest)

/-- `ParseFixedPoint(val, decimals, amount_out)`: the amount, `none` where it returns `false`. -/
def parseFixedPoint (val : List UInt8) (decimals : ℤ) : Option ℤ := do
  let (mantissaSign, s) := mantissaSign val
  let (mantissa, mantissaTzeros, s) ← parseFixedPointInteger s
  let (mantissa, mantissaTzeros, pointOfs, s) ← parseFixedPointFraction mantissa mantissaTzeros s
  let (exponent, exponentSign, s) ← parseFixedPointExponent s
  -- trailing garbage
  if s ≠ [] then none
  else
    -- finalize exponent
    let exponent := if exponentSign then -exponent else exponent
    let exponent := exponent - pointOfs + mantissaTzeros
    -- finalize mantissa
    let mantissa := if mantissaSign then -mantissa else mantissa
    -- convert to one 64-bit fixed-point value
    let exponent := exponent + decimals
    -- cannot represent values smaller than 10^-decimals
    if exponent < 0 then none
    -- cannot represent values larger than or equal to 10^(18-decimals)
    else if exponent ≥ 18 then none
    else
      let mantissa ← scaleMantissa exponent.toNat mantissa
      if mantissa > upperBound ∨ mantissa < -upperBound then none else pure mantissa

/-! ### The loops -/

section Loops

theorem shiftMantissa_eq {n : ℕ} {mantissa m : ℤ} (h : shiftMantissa n mantissa = some m) :
    m = mantissa * 10 ^ n := by
  induction n generalizing mantissa with
  | zero =>
    cases h
    rw [pow_zero, mul_one]
  | succ n ih =>
    rw [shiftMantissa] at h
    split_ifs at h
    rw [ih h, pow_succ]
    ring

theorem scaleMantissa_eq {n : ℕ} {mantissa m : ℤ} (h : scaleMantissa n mantissa = some m) :
    m = mantissa * 10 ^ n := by
  induction n generalizing mantissa with
  | zero =>
    cases h
    rw [pow_zero, mul_one]
  | succ n ih =>
    rw [scaleMantissa] at h
    split_ifs at h
    rw [ih h, pow_succ]
    ring

/-- The mantissa with its trailing zeros multiplied in grows by one digit. -/
theorem processMantissaDigit_eq {ch : UInt8} {mantissa m : ℤ}
    {mantissaTzeros t : ℕ} (h : processMantissaDigit ch mantissa mantissaTzeros = some (m, t)) :
    m * 10 ^ t = mantissa * 10 ^ mantissaTzeros * 10 + digitValue ch := by
  rw [processMantissaDigit] at h
  split_ifs at h with h0
  · cases h
    rw [h0, pow_succ, show digitValue '0'.toUInt8 = 0 from rfl, Nat.cast_zero, add_zero,
      mul_assoc]
  · obtain ⟨shifted, hshift, hm⟩ := Option.bind_eq_some_iff.mp h
    cases hm
    rw [shiftMantissa_eq hshift, pow_succ, pow_zero, mul_one, mul_assoc]

/-- The digits loop reads the longest run of digits `D`; the mantissa with its trailing zeros
multiplied in is then the value of the digits read. -/
theorem mantissaDigits_eq {s : List UInt8} {mantissa m : ℤ} {mantissaTzeros t count c : ℕ}
    {rest : List UInt8}
    (h : mantissaDigits s mantissa mantissaTzeros count = some (m, t, c, rest)) :
    ∃ D, s = D ++ rest ∧ (∀ d ∈ D, isDigit d = true) ∧
      (∀ d ∈ rest.head?, isDigit d = false) ∧ c = count + D.length ∧
      m * 10 ^ t = mantissa * 10 ^ mantissaTzeros * 10 ^ D.length + decimalValue D := by
  induction s generalizing mantissa mantissaTzeros count with
  | nil =>
    cases h
    exact ⟨[], rfl, by simp, by simp, rfl, by simp⟩
  | cons ch s ih =>
    rw [mantissaDigits] at h
    split_ifs at h with hch
    · obtain ⟨⟨m₁, t₁⟩, hdigit, hloop⟩ := Option.bind_eq_some_iff.mp h
      obtain ⟨D, rfl, hD, hrest, rfl, hval⟩ := ih hloop
      refine ⟨ch :: D, rfl, ?_, hrest, by rw [List.length_cons]; ring, ?_⟩
      · exact List.forall_mem_cons.mpr ⟨hch, hD⟩
      · rw [hval, processMantissaDigit_eq hdigit, List.length_cons, decimalValue_cons,
          pow_succ]
        push_cast
        ring
    · cases h
      exact ⟨[], rfl, by simp, by simpa using hch, rfl, by simp⟩

/-- The exponent loop reads the longest run of digits `D` and their value. -/
theorem exponentDigits_eq {s : List UInt8} {exponent e : ℤ} {rest : List UInt8}
    (h : exponentDigits s exponent = some (e, rest)) :
    ∃ D, s = D ++ rest ∧ (∀ d ∈ D, isDigit d = true) ∧
      (∀ d ∈ rest.head?, isDigit d = false) ∧
      e = exponent * 10 ^ D.length + decimalValue D := by
  induction s generalizing exponent with
  | nil =>
    cases h
    exact ⟨[], rfl, by simp, by simp, by simp⟩
  | cons ch s ih =>
    rw [exponentDigits] at h
    split_ifs at h with hch
    · obtain ⟨D, rfl, hD, hrest, rfl⟩ := ih h
      refine ⟨ch :: D, rfl, List.forall_mem_cons.mpr ⟨hch, hD⟩, hrest, ?_⟩
      rw [List.length_cons, decimalValue_cons, pow_succ]
      push_cast
      ring
    · cases h
      exact ⟨[], rfl, by simp, by simpa using hch, by simp⟩

end Loops

/-! ### The stages -/

section Stages

theorem isDigit_of_one_le {ch : UInt8} (h : '1'.toUInt8 ≤ ch ∧ ch ≤ '9'.toUInt8) :
    isDigit ch = true := by
  rw [isDigit_iff]
  rw [UInt8.le_iff_toNat_le, UInt8.le_iff_toNat_le] at h
  exact ⟨le_trans (by decide) h.1, le_trans h.2 (by decide)⟩

theorem mantissaSign_eq (val : List UInt8) :
    val = (if (mantissaSign val).1 then ['-'.toUInt8] else []) ++ (mantissaSign val).2 := by
  cases val with
  | nil => rfl
  | cons ch rest =>
    by_cases h : ch = '-'.toUInt8
    · rw [mantissaSign, if_pos h, if_pos rfl, h]
      rfl
    · rw [mantissaSign, if_neg h]
      rfl

theorem exponentSign_eq (s : List UInt8) :
    ∃ signChars, s = signChars ++ (exponentSign s).2 ∧
      (signChars = [] ∨ signChars = ['+'.toUInt8] ∨ signChars = ['-'.toUInt8]) ∧
      ((exponentSign s).1 = true ↔ signChars = ['-'.toUInt8]) := by
  cases s with
  | nil => exact ⟨[], rfl, .inl rfl, by simp [exponentSign]⟩
  | cons ch rest =>
    rw [exponentSign]
    split_ifs with hplus hminus
    · exact ⟨['+'.toUInt8], by rw [hplus]; rfl, .inr (.inl rfl), by decide⟩
    · exact ⟨['-'.toUInt8], by rw [hminus]; rfl, .inr (.inr rfl), by simp⟩
    · exact ⟨[], rfl, .inl rfl, by simp⟩

/-- The integer part is a single `'0'` or digits from a nonzero one on, and the mantissa with its
trailing zeros multiplied in is their value. -/
theorem parseFixedPointInteger_eq {s rest : List UInt8} {m : ℤ} {t : ℕ}
    (h : parseFixedPointInteger s = some (m, t, rest)) :
    ∃ I, s = I ++ rest ∧ (I = ['0'.toUInt8] ∨ ∃ c r, I = c :: r ∧
      '1'.toUInt8 ≤ c ∧ c ≤ '9'.toUInt8 ∧ ∀ d ∈ r, isDigit d = true) ∧
      m * 10 ^ t = decimalValue I := by
  cases s with
  | nil => cases h
  | cons ch s =>
    rw [parseFixedPointInteger] at h
    split_ifs at h with h0 h19
    · cases h
      exact ⟨['0'.toUInt8], by rw [h0]; rfl, .inl rfl, rfl⟩
    · obtain ⟨⟨m', t', c', rest'⟩, hloop, hm⟩ := Option.map_eq_some_iff.mp h
      cases hm
      obtain ⟨D, hs, hD, hrest, -, hval⟩ := mantissaDigits_eq hloop
      -- the loop reads the first digit at least
      cases D with
      | nil =>
        rw [List.nil_append] at hs
        subst hs
        simp [isDigit_of_one_le h19] at hrest
      | cons c r =>
        obtain ⟨rfl, rfl⟩ := List.cons_eq_cons.mp hs
        refine ⟨ch :: r, rfl, .inr ⟨ch, r, rfl, h19.1, h19.2, fun d hd => hD d
          (List.mem_cons_of_mem _ hd)⟩, ?_⟩
        rw [hval]
        simp

/-- The fraction is nothing, or a `'.'` and digits; the mantissa with its trailing zeros
multiplied in takes the digits in, and `point_ofs` counts them. -/
theorem parseFixedPointFraction_eq {mantissa m : ℤ} {mantissaTzeros t p : ℕ}
    {s rest : List UInt8}
    (h : parseFixedPointFraction mantissa mantissaTzeros s = some (m, t, p, rest)) :
    ∃ F, s = (if F = [] then [] else '.'.toUInt8 :: F) ++ rest ∧ (∀ d ∈ F, isDigit d = true) ∧
      p = F.length ∧
      m * 10 ^ t = mantissa * 10 ^ mantissaTzeros * 10 ^ F.length + decimalValue F := by
  cases s with
  | nil =>
    cases h
    exact ⟨[], rfl, by simp, rfl, by simp⟩
  | cons ch s =>
    unfold parseFixedPointFraction at h
    dsimp only at h
    split_ifs at h with hpoint
    · cases s with
      | nil => cases h
      | cons d ds =>
        dsimp only at h
        split_ifs at h with hd
        obtain ⟨D, hs, hD, hrest, rfl, hval⟩ := mantissaDigits_eq h
        -- the loop reads the first digit at least
        cases D with
        | nil =>
          rw [List.nil_append] at hs
          subst hs
          simp [hd] at hrest
        | cons c r =>
          refine ⟨c :: r, ?_, hD, by rw [Nat.zero_add], hval⟩
          rw [hpoint, if_neg (List.cons_ne_nil c r), hs]
          rfl
    · cases h
      exact ⟨[], rfl, by simp, rfl, by simp⟩

/-- The exponent is nothing, or an `'e'` or `'E'`, a sign and digits, whose value it is. -/
theorem parseFixedPointExponent_eq {s rest : List UInt8} {e : ℤ} {sign : Bool}
    (h : parseFixedPointExponent s = some (e, sign, rest)) :
    ∃ mark signChars E, s = (if E = [] then [] else mark :: signChars ++ E) ++ rest ∧
      (mark = 'e'.toUInt8 ∨ mark = 'E'.toUInt8) ∧
      (signChars = [] ∨ signChars = ['+'.toUInt8] ∨ signChars = ['-'.toUInt8]) ∧
      (E = [] → signChars = []) ∧ (∀ d ∈ E, isDigit d = true) ∧
      e = decimalValue E ∧ (sign = true ↔ signChars = ['-'.toUInt8]) := by
  cases s with
  | nil =>
    cases h
    exact ⟨'e'.toUInt8, [], [], rfl, .inl rfl, .inl rfl, fun _ => rfl, by simp, rfl, by simp⟩
  | cons ch s =>
    rw [parseFixedPointExponent] at h
    split_ifs at h with hmark
    · obtain ⟨signChars, hs, hsignChars, hsign⟩ := exponentSign_eq s
      rcases hes : exponentSign s with ⟨sign', _ | ⟨d, ds⟩⟩
      · rw [hes] at h
        cases h
      · rw [hes] at h hs hsign
        dsimp only at h hs hsign
        split_ifs at h with hd
        obtain ⟨⟨e', rest'⟩, hloop, he⟩ := Option.map_eq_some_iff.mp h
        cases he
        obtain ⟨D, hds, hD, hrest, rfl⟩ := exponentDigits_eq hloop
        -- the loop reads the first digit at least
        cases D with
        | nil =>
          rw [List.nil_append] at hds
          subst hds
          simp [hd] at hrest
        | cons c r =>
          refine ⟨ch, signChars, c :: r, ?_, hmark, hsignChars, fun h => absurd h
            (List.cons_ne_nil c r), hD, by simp, hsign⟩
          rw [if_neg (List.cons_ne_nil c r), hs, hds]
          simp
    · cases h
      exact ⟨'e'.toUInt8, [], [], rfl, .inl rfl, .inl rfl, fun _ => rfl, by simp, rfl, by simp⟩

end Stages

/-! ### The JSON grammar -/

/-- A number of the JSON grammar, by the parts of its spelling: the sign, the digits before the
point, the digits after it (none when there is no point), and the exponent's letter, sign and
digits (no digits when there is no exponent). -/
structure JsonNumber where
  negative : Bool
  intDigits : List UInt8
  fracDigits : List UInt8
  expMark : UInt8
  expSign : List UInt8
  expDigits : List UInt8

namespace JsonNumber

/-- The parts are those of `-?(0|[1-9][0-9]*)(\.[0-9]+)?([eE][+-]?[0-9]+)?`. -/
structure Valid (n : JsonNumber) : Prop where
  intDigits_eq : n.intDigits = ['0'.toUInt8] ∨ ∃ c rest, n.intDigits = c :: rest ∧
    '1'.toUInt8 ≤ c ∧ c ≤ '9'.toUInt8 ∧ ∀ d ∈ rest, isDigit d = true
  fracDigits_digit : ∀ d ∈ n.fracDigits, isDigit d = true
  expMark_eq : n.expMark = 'e'.toUInt8 ∨ n.expMark = 'E'.toUInt8
  expSign_eq : n.expSign = [] ∨ n.expSign = ['+'.toUInt8] ∨ n.expSign = ['-'.toUInt8]
  expSign_nil : n.expDigits = [] → n.expSign = []
  expDigits_digit : ∀ d ∈ n.expDigits, isDigit d = true

/-- The spelling of the number. -/
def spell (n : JsonNumber) : List UInt8 :=
  (if n.negative then ['-'.toUInt8] else []) ++ n.intDigits ++
    (if n.fracDigits = [] then [] else '.'.toUInt8 :: n.fracDigits) ++
    (if n.expDigits = [] then [] else n.expMark :: n.expSign ++ n.expDigits)

/-- The exponent written. -/
def exponent (n : JsonNumber) : ℤ :=
  if n.expSign = ['-'.toUInt8] then -(decimalValue n.expDigits : ℤ) else decimalValue n.expDigits

/-- The value of the number. -/
def value (n : JsonNumber) : ℚ :=
  (if n.negative then -1 else 1) * (decimalValue (n.intDigits ++ n.fracDigits) : ℚ) /
    10 ^ n.fracDigits.length * 10 ^ n.exponent

end JsonNumber

/-- Powers of ten with integer exponents combine by adding the exponents. -/
theorem ten_pow_div_mul_zpow (a b : ℕ) (c d : ℤ) :
    (10 : ℚ) ^ a / 10 ^ b * 10 ^ c * 10 ^ d = 10 ^ ((a : ℤ) - b + c + d) := by
  rw [zpow_add₀ (by norm_num), zpow_add₀ (by norm_num), zpow_sub₀ (by norm_num), zpow_natCast,
    zpow_natCast]

/-- What `ParseFixedPoint` accepts is a number of the JSON grammar, and the amount it returns is
the number's value times `10 ^ decimals`, within `UPPER_BOUND`. -/
theorem parseFixedPoint_sound {val : List UInt8} {decimals x : ℤ}
    (h : parseFixedPoint val decimals = some x) :
    ∃ n : JsonNumber, n.Valid ∧ n.spell = val ∧ (x : ℚ) = n.value * 10 ^ decimals ∧
      |x| ≤ upperBound := by
  rw [parseFixedPoint] at h
  rcases hsign : mantissaSign val with ⟨negative, s⟩
  rw [hsign] at h
  dsimp only at h
  -- the stages, then the checks of the end
  obtain ⟨⟨m₁, t₁, s₁⟩, hint, h⟩ := Option.bind_eq_some_iff.mp h
  obtain ⟨⟨m₂, t₂, p, s₂⟩, hfrac, h⟩ := Option.bind_eq_some_iff.mp h
  obtain ⟨⟨e, sign, s₃⟩, hexp, h⟩ := Option.bind_eq_some_iff.mp h
  dsimp only at hfrac hexp h
  generalize hk : (if sign = true then -e else e) - p + t₂ + decimals = k at h
  generalize hm : (if negative = true then -m₂ else m₂) = m at h
  split_ifs at h with hs₃ hlow hhigh
  obtain ⟨x', hscale, h⟩ := Option.bind_eq_some_iff.mp h
  split_ifs at h with hbound
  cases h
  obtain ⟨I, rfl, hI, hIval⟩ := parseFixedPointInteger_eq hint
  obtain ⟨F, rfl, hF, rfl, hFval⟩ := parseFixedPointFraction_eq hfrac
  obtain ⟨mark, signChars, E, rfl, hmark, hsignChars, hEnil, hE, rfl, hsignIff⟩ :=
    parseFixedPointExponent_eq hexp
  obtain rfl : s₃ = [] := not_not.mp hs₃
  refine ⟨⟨negative, I, F, mark, signChars, E⟩, ⟨hI, hF, hmark, hsignChars, hEnil, hE⟩, ?_, ?_,
    ?_⟩
  · rw [mantissaSign_eq val, hsign]
    simp [JsonNumber.spell, List.append_assoc]
  · -- the mantissa with its trailing zeros is the value of all the digits
    have hdigits : (decimalValue (I ++ F) : ℤ) = m₂ * 10 ^ t₂ := by
      rw [decimalValue_append]
      push_cast
      rw [hFval, ← hIval]
    have hexponent : JsonNumber.exponent ⟨negative, I, F, mark, signChars, E⟩ =
        if sign then -(decimalValue E : ℤ) else decimalValue E := by
      rw [JsonNumber.exponent]
      simp only [← hsignIff]
    rw [scaleMantissa_eq hscale, JsonNumber.value, hexponent]
    dsimp only
    rw [show ((decimalValue (I ++ F) : ℕ) : ℚ) = ((decimalValue (I ++ F) : ℤ) : ℚ) by
      push_cast; rfl, hdigits]
    set ε : ℤ := if sign = true then -(decimalValue E : ℤ) else decimalValue E
    -- the exponent folds the point and the trailing zeros in
    have hk' : (t₂ : ℤ) - F.length + ε + decimals = k := by
      rw [← hk]
      ring
    calc ((m * 10 ^ k.toNat : ℤ) : ℚ) = (m : ℚ) * 10 ^ k := by
          push_cast
          rw [← zpow_natCast, Int.toNat_of_nonneg (not_lt.mp hlow)]
      _ = (if negative = true then -1 else 1) * (m₂ : ℚ) *
            (10 ^ t₂ / 10 ^ F.length * 10 ^ ε * 10 ^ decimals) := by
          rw [ten_pow_div_mul_zpow, hk', ← hm]
          split_ifs <;> push_cast <;> ring
      _ = _ := by
          push_cast
          ring
  · rw [abs_le]
    constructor <;> omega

theorem parseFixedPoint_sound_half :
    ∃ n : JsonNumber, n.Valid ∧ n.spell = "0.5".toList.map Char.toUInt8 ∧
      ((50000000 : ℤ) : ℚ) = n.value * 10 ^ (8 : ℤ) ∧ |(50000000 : ℤ)| ≤ upperBound :=
  parseFixedPoint_sound (by decide)

set_option maxRecDepth 20000 in
/-- `0e20` is a number of the grammar whose value is `0`, well within range, yet
`ParseFixedPoint` rejects it with 8 decimals: the exponent `28` is checked before the mantissa is
known to be zero. -/
theorem parseFixedPoint_zero_large_exponent :
    ∃ n : JsonNumber, n.Valid ∧ n.spell = "0e20".toList.map Char.toUInt8 ∧
      n.value * 10 ^ (8 : ℤ) = 0 ∧ parseFixedPoint ("0e20".toList.map Char.toUInt8) 8 = none := by
  refine ⟨⟨false, ['0'.toUInt8], [], 'e'.toUInt8, [], ['2'.toUInt8, '0'.toUInt8]⟩,
    ⟨.inl rfl, by simp, .inl rfl, .inl rfl, fun _ => rfl, by decide⟩, by decide, ?_, by decide⟩
  rw [JsonNumber.value, show decimalValue (['0'.toUInt8] ++ []) = 0 from rfl]
  simp

end BitcoinCash
