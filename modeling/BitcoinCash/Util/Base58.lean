import Mathlib
import BitcoinCash.Util.StrEncodings
import BitcoinCash.Data.Radix

/-!
# Base58

`EncodeBase58` and `DecodeBase58` of `base58.cpp` convert between bytes and base-58 text by
big-number arithmetic in a buffer: each input digit multiplies the number in the buffer by the
input radix and adds the digit, carrying from the least significant output digit up
(`mulAddLoop`). The buffers are sized by the estimates `len * 138 / 100 + 1` and
`len * 733 / 1000 + 1`, and the code asserts that no carry is left. Leading zero bytes and
leading `'1'` characters stand for each other one for one.

The buffers are modelled least significant digit first, the reverse of the code's vectors, and
hold the digits of the number read so far followed by zeros (`mulAddLoop_digitsAppend`). With the
estimates (`Radix.pow_le_pow_mul_div_add_one`) the number always fits, so that neither assertion
fails on any input; decoding inverts encoding, encoding inverts decoding on base-58 text, and
the checked forms, with any hash, round-trip. Sizes are natural numbers where the code has
`size_t`.
-/

namespace BitcoinCash

/-- `pszBase58`: all alphanumeric characters except `0`, `I`, `O` and `l`. -/
def pszBase58 : List UInt8 :=
  ['1', '2', '3', '4', '5', '6', '7', '8', '9', 'A', 'B', 'C', 'D', 'E', 'F', 'G', 'H', 'J', 'K',
    'L', 'M', 'N', 'P', 'Q', 'R', 'S', 'T', 'U', 'V', 'W', 'X', 'Y', 'Z', 'a', 'b', 'c', 'd',
    'e', 'f', 'g', 'h', 'i', 'j', 'k', 'm', 'n', 'o', 'p', 'q', 'r', 's', 't', 'u', 'v', 'w',
    'x', 'y', 'z'].map Char.toUInt8

/-- `mapBase58`: the digit of each character, `-1` for the characters that are none. -/
def mapBase58 : List Int :=
  [-1, -1, -1, -1, -1, -1, -1, -1, -1, -1, -1, -1, -1, -1, -1, -1,
  -1, -1, -1, -1, -1, -1, -1, -1, -1, -1, -1, -1, -1, -1, -1, -1,
  -1, -1, -1, -1, -1, -1, -1, -1, -1, -1, -1, -1, -1, -1, -1, -1,
  -1, 0, 1, 2, 3, 4, 5, 6, 7, 8, -1, -1, -1, -1, -1, -1,
  -1, 9, 10, 11, 12, 13, 14, 15, 16, -1, 17, 18, 19, 20, 21, -1,
  22, 23, 24, 25, 26, 27, 28, 29, 30, 31, 32, -1, -1, -1, -1, -1,
  -1, 33, 34, 35, 36, 37, 38, 39, 40, 41, 42, 43, -1, 44, 45, 46,
  47, 48, 49, 50, 51, 52, 53, 54, 55, 56, 57, -1, -1, -1, -1, -1,
  -1, -1, -1, -1, -1, -1, -1, -1, -1, -1, -1, -1, -1, -1, -1, -1,
  -1, -1, -1, -1, -1, -1, -1, -1, -1, -1, -1, -1, -1, -1, -1, -1,
  -1, -1, -1, -1, -1, -1, -1, -1, -1, -1, -1, -1, -1, -1, -1, -1,
  -1, -1, -1, -1, -1, -1, -1, -1, -1, -1, -1, -1, -1, -1, -1, -1,
  -1, -1, -1, -1, -1, -1, -1, -1, -1, -1, -1, -1, -1, -1, -1, -1,
  -1, -1, -1, -1, -1, -1, -1, -1, -1, -1, -1, -1, -1, -1, -1, -1,
  -1, -1, -1, -1, -1, -1, -1, -1, -1, -1, -1, -1, -1, -1, -1, -1,
  -1, -1, -1, -1, -1, -1, -1, -1, -1, -1, -1, -1, -1, -1, -1, -1]

/-- The text of the assertion both conversions make on the carry left after each digit. -/
def assertCarryZero : String := "assert(carry == 0)"

/-- The inner loop of `EncodeBase58` and `DecodeBase58`, on the buffer from its least significant
digit: multiply the number in it by `mult` and add `carry`, in base `base`. It goes on while a
carry is left or below the `length` digits in use, and stops at the end of the buffer; it
returns the buffer, the carry left and the number `i` of digits it went through. -/
def mulAddLoop (base mult : ℕ) : List ℕ → ℕ → ℕ → ℕ → List ℕ × ℕ × ℕ
  | [], carry, i, _ => ([], carry, i)
  | d :: ds, carry, i, length =>
    if carry ≠ 0 ∨ i < length then
      let carry := carry + mult * d
      let (ds, carry', i') := mulAddLoop base mult ds (carry / base) (i + 1) length
      (carry % base :: ds, carry', i')
    else (d :: ds, carry, i)

/-- The loop of `EncodeBase58` over the bytes after the leading zeroes, `b58 = b58 * 256 + ch`,
on the base-58 buffer and its `length`. -/
def encodeLoop : List UInt8 → List ℕ × ℕ → Except String (List ℕ × ℕ)
  | [], st => pure st
  | ch :: bytes, (b58, length) =>
    let (b58, carry, i) := mulAddLoop 58 256 b58 ch.toNat 0 length
    if carry ≠ 0 then throw assertCarryZero
    else encodeLoop bytes (b58, i)

/-- `EncodeBase58`. -/
def encodeBase58 (input : List UInt8) : Except String (List UInt8) := do
  -- Skip & count leading zeroes.
  let zeroes := (input.takeWhile (· = 0)).length
  let bytes := input.drop zeroes
  -- log(256) / log(58), rounded up.
  let size := bytes.length * 138 / 100 + 1
  let (b58, length) ← encodeLoop bytes (List.replicate size 0, 0)
  -- Skip leading zeroes in base58 result.
  let digits := ((b58.take length).reverse).dropWhile (· = 0)
  pure (List.replicate zeroes '1'.toUInt8 ++ digits.map fun d => pszBase58.getD d 0)

/-- The loop of `DecodeBase58` over the characters before a space or the end, on the base-256
buffer and its `length`; `none` where it returns `false`. -/
def decodeLoop (zeroes maxRetLen : ℕ) :
    List UInt8 → List ℕ × ℕ → Except String (Option (List ℕ × ℕ))
  | [], st => pure (some st)
  | c :: cs, (b256, length) =>
    -- Decode base58 character
    let carry := mapBase58.getD c.toNat (-1)
    if carry = -1 then pure none
    else
      let (b256, carry, i) := mulAddLoop 256 58 b256 carry.toNat 0 length
      if carry ≠ 0 then throw assertCarryZero
      else if i + zeroes > maxRetLen then pure none
      else decodeLoop zeroes maxRetLen cs (b256, i)

/-- `DecodeBase58(psz, vch, max_ret_len)` on the C string `psz`; `none` where it returns
`false`. The loop over the leading `'1'`s returns `false` as soon as their count exceeds
`max_ret_len`, which is the same as comparing their whole count. -/
def decodeBase58Psz (psz : List UInt8) (maxRetLen : ℕ) : Except String (Option (List UInt8)) :=
  -- Skip leading spaces.
  let psz := psz.dropWhile isSpace
  -- Skip and count leading '1's.
  let zeroes := (psz.takeWhile (· = '1'.toUInt8)).length
  if zeroes > maxRetLen then pure none
  else
    let psz := psz.drop zeroes
    -- log(58) / log(256), rounded up.
    let size := psz.length * 733 / 1000 + 1
    let chars := psz.takeWhile fun c => !isSpace c
    (decodeLoop zeroes maxRetLen chars (List.replicate size 0, 0)).map fun
      | none => none
      | some (b256, length) =>
        -- Skip trailing spaces.
        if (psz.drop chars.length).dropWhile isSpace ≠ [] then none
        -- Skip leading zeroes in b256.
        else some (List.replicate zeroes 0 ++ (b256.take length).reverse.map UInt8.ofNat)

/-- `DecodeBase58(str, vchRet, max_ret_len)`. -/
def decodeBase58 (str : List UInt8) (maxRetLen : ℕ) : Except String (Option (List UInt8)) :=
  if !validAsCString str then pure none else decodeBase58Psz str maxRetLen

/-! ### The alphabet -/

section Alphabet

/-- `mapBase58` reads each digit's character back as the digit. -/
theorem mapBase58_pszBase58 : ∀ d < 58, mapBase58.getD (pszBase58.getD d 0).toNat (-1) = d := by
  decide

set_option maxRecDepth 2000 in
/-- Every entry of `mapBase58` is a digit or `-1`. -/
theorem mapBase58_entries : ∀ x ∈ mapBase58, x = -1 ∨ (0 ≤ x ∧ x < 58) := by
  decide

/-- The digits' characters are neither white space nor the zero that ends a C string, and only
the digit `0` is written `'1'`. -/
theorem pszBase58_classes : ∀ d < 58, isSpace (pszBase58.getD d 0) = false ∧
    pszBase58.getD d 0 ≠ 0 ∧ (pszBase58.getD d 0 = '1'.toUInt8 ↔ d = 0) := by
  decide

end Alphabet

/-! ### The carry loop -/

section Carry

variable {base mult : ℕ}

/-- A buffer of `n + 1` digits holds the lowest digit, then `n` digits of the rest. -/
theorem digitsAppend_succ (hb : 1 < base) (n v : ℕ) :
    Nat.digitsAppend base (n + 1) v = v % base :: Nat.digitsAppend base n (v / base) := by
  rcases Nat.eq_zero_or_pos v with rfl | hv
  · simp [Nat.digitsAppend, List.replicate_succ]
  · rw [Nat.digitsAppend, Nat.digitsAppend, Nat.digits_def' hb hv, List.length_cons,
      List.cons_append, Nat.add_sub_add_right]

theorem length_digits_div (hb : 1 < base) {v : ℕ} (hv : 0 < v) :
    (base.digits (v / base)).length + 1 = (base.digits v).length := by
  rw [Nat.digits_def' hb hv, List.length_cons]

/-- The loop multiplies the number in the buffer by `mult` and adds the carry, and goes through
exactly the digits of the result, when these fit in the buffer. The counter `i` has gone
through the digits below those of `v`; the `length` digits in use reach `i` plus those of
`v`. -/
theorem mulAddLoop_digitsAppend (hb : 1 < base) (hm : 0 < mult) (n : ℕ) :
    ∀ v carry i length, max i length = i + (base.digits v).length →
      (base.digits (mult * v + carry)).length ≤ n →
      mulAddLoop base mult (Nat.digitsAppend base n v) carry i length =
        (Nat.digitsAppend base n (mult * v + carry), 0,
          i + (base.digits (mult * v + carry)).length) := by
  induction n with
  | zero =>
    intro v carry i length _ hfit
    -- no digit fits: the result and with it `v` and the carry are zero
    have hw : mult * v + carry < 1 := by
      rwa [Nat.digits_length_le_iff hb, pow_zero] at hfit
    obtain ⟨hmv, rfl⟩ : mult * v = 0 ∧ carry = 0 := by omega
    obtain rfl : v = 0 := (Nat.mul_eq_zero.mp hmv).resolve_left hm.ne'
    simp [Nat.digitsAppend, mulAddLoop]
  | succ n ih =>
    intro v carry i length hlen hfit
    rw [digitsAppend_succ hb, mulAddLoop]
    by_cases hgo : carry ≠ 0 ∨ i < length
    · -- a step: the digit written is that of the result, the carry the rest of it
      have hw : 0 < mult * v + carry := by
        rcases hgo with hc | hi
        · omega
        · have hv : 0 < v := Nat.pos_of_ne_zero fun hv => by simp [hv] at hlen; omega
          exact Nat.lt_of_lt_of_le (Nat.mul_pos hm hv) (Nat.le_add_right _ _)
      have hwlen := length_digits_div hb hw
      have hlen' : max (i + 1) length = i + 1 + (base.digits (v / base)).length := by
        rcases Nat.eq_zero_or_pos v with rfl | hv
        · simp only [Nat.zero_div, Nat.digits_zero, List.length_nil] at hlen ⊢
          omega
        · have := length_digits_div hb hv
          omega
      have hfit' : (base.digits (mult * (v / base) + (carry + mult * (v % base)) / base)).length
          ≤ n := by
        rw [← Radix.mul_add_div (by omega)]
        omega
      rw [if_pos hgo]
      dsimp only
      rw [ih _ _ _ _ hlen' hfit', ← Radix.mul_add_div (by omega), ← Radix.mul_add_mod,
        digitsAppend_succ hb n (mult * v + carry)]
      simp only [Prod.mk.injEq, true_and]
      omega
    · -- the loop stops at once: nothing is left to carry and `v` is zero
      rw [if_neg hgo]
      obtain ⟨rfl, hi⟩ : carry = 0 ∧ length ≤ i := by omega
      obtain rfl : v = 0 := by
        rw [max_eq_left hi, Nat.left_eq_add, List.length_eq_zero_iff,
          Nat.digits_eq_nil_iff_eq_zero] at hlen
        exact hlen
      rw [← digitsAppend_succ hb]
      simp

end Carry

/-! ### Values and leading runs -/

section Values

/-- The number that big-endian bytes spell. -/
def bytesValue (bytes : List UInt8) : ℕ := Nat.ofDigits 256 (bytes.map UInt8.toNat).reverse

/-- The digit of a base-58 character, as `mapBase58` gives it. -/
def base58Digit (c : UInt8) : ℕ := (mapBase58.getD c.toNat (-1)).toNat

/-- The number that a string of base-58 characters spells. -/
def base58Value (cs : List UInt8) : ℕ := Nat.ofDigits 58 (cs.map base58Digit).reverse

theorem bytesValue_lt (bytes : List UInt8) : bytesValue bytes < 256 ^ bytes.length := by
  have h := Nat.ofDigits_lt_base_pow_length (b := 256) (by norm_num)
    (l := (bytes.map UInt8.toNat).reverse) (by simp [UInt8.toNat_lt_size])
  rwa [List.length_reverse, List.length_map] at h

/-- Leading zero bytes do not change the value. -/
theorem bytesValue_replicate_append (k : ℕ) (bytes : List UInt8) :
    bytesValue (List.replicate k 0 ++ bytes) = bytesValue bytes := by
  rw [bytesValue, List.map_append, List.reverse_append, List.map_replicate, List.reverse_replicate,
    UInt8.toNat_zero, Nat.ofDigits_append_replicate_zero, bytesValue]

/-- A list is its leading run of `a`s, then the rest. -/
theorem replicate_append_drop_takeWhile {α : Type*} [DecidableEq α] (a : α) (l : List α) :
    List.replicate (l.takeWhile (· = a)).length a ++ l.drop (l.takeWhile (· = a)).length = l := by
  induction l with
  | nil => rfl
  | cons x l ih =>
    by_cases hx : x = a
    · subst hx
      rw [List.takeWhile_cons_of_pos (by simp), List.length_cons, List.replicate_succ,
        List.drop_succ_cons, List.cons_append, ih]
    · rw [List.takeWhile_cons_of_neg (by simpa using hx)]
      rfl

/-- The leading run of `a`s of `k` copies of `a` before a list that does not start with `a`. -/
theorem length_takeWhile_replicate_append {α : Type*} [DecidableEq α] (a : α) (k : ℕ)
    {l : List α} (hl : l.head? ≠ some a) :
    ((List.replicate k a ++ l).takeWhile (· = a)).length = k := by
  rw [List.takeWhile_append_of_pos (by simp [List.mem_replicate]), List.length_append,
    List.length_replicate]
  cases l with
  | nil => rfl
  | cons x l =>
    rw [List.takeWhile_cons_of_neg (by simpa using hl)]
    rfl

end Values

/-! ### Encoding -/

section Encode

/-- Each byte multiplies the number in the buffer by 256 and adds the byte: while the result fits
in the buffer, the assertion holds. -/
theorem encodeLoop_spec (size : ℕ) (bytes : List UInt8) :
    ∀ v, (bytes.map UInt8.toNat).foldl (fun n d => 256 * n + d) v < 58 ^ size →
      encodeLoop bytes (Nat.digitsAppend 58 size v, (Nat.digits 58 v).length) =
        .ok (Nat.digitsAppend 58 size ((bytes.map UInt8.toNat).foldl (fun n d => 256 * n + d) v),
          (Nat.digits 58 ((bytes.map UInt8.toNat).foldl (fun n d => 256 * n + d) v)).length) := by
  induction bytes with
  | nil => intro v _; rfl
  | cons ch bytes ih =>
    intro v hfit
    rw [List.map_cons, List.foldl_cons] at hfit ⊢
    have hw : 256 * v + ch.toNat < 58 ^ size :=
      lt_of_le_of_lt (Radix.le_foldl_mul_add (by norm_num) _ _) hfit
    rw [encodeLoop, mulAddLoop_digitsAppend (by norm_num) (by norm_num) size v ch.toNat 0 _
      (by simp) ((Nat.digits_length_le_iff (by norm_num) _).mpr hw), Nat.zero_add]
    exact ih _ hfit

/-- `len * 138 / 100 + 1` base-58 digits hold every number of `len` bytes. -/
theorem bytes_lt_encodeSize (len : ℕ) : 256 ^ len ≤ 58 ^ (len * 138 / 100 + 1) := by
  rw [Nat.mul_comm]
  exact Radix.pow_le_pow_mul_div_add_one (by norm_num) (by norm_num) (by norm_num) len

/-- `EncodeBase58` writes a `'1'` for each leading zero byte, then the base-58 digits of the
number, and never trips its assertion. -/
theorem encodeBase58_eq (input : List UInt8) :
    encodeBase58 input = .ok (List.replicate (input.takeWhile (· = 0)).length '1'.toUInt8 ++
      (Nat.digits 58 (bytesValue input)).reverse.map fun d => pszBase58.getD d 0) := by
  rw [encodeBase58]
  set bytes := input.drop (input.takeWhile (· = 0)).length
  have hvalue : bytesValue input = bytesValue bytes := by
    conv_lhs => rw [← replicate_append_drop_takeWhile 0 input]
    rw [bytesValue_replicate_append]
  have hfold : (bytes.map UInt8.toNat).foldl (fun n d => 256 * n + d) 0 = bytesValue bytes := by
    rw [Radix.foldl_mul_add, Nat.zero_mul, Nat.zero_add, bytesValue]
  have hfit : bytesValue bytes < 58 ^ (bytes.length * 138 / 100 + 1) :=
    lt_of_lt_of_le (bytesValue_lt bytes) (bytes_lt_encodeSize bytes.length)
  have hloop := encodeLoop_spec (bytes.length * 138 / 100 + 1) bytes 0 (by rwa [hfold])
  rw [hfold, Nat.digitsAppend, Nat.digits_zero, List.length_nil, List.nil_append,
    Nat.sub_zero] at hloop
  rw [hloop]
  simp only [bind, Except.bind, pure, Except.pure]
  rw [Nat.digitsAppend, List.take_left' rfl, Radix.dropWhile_digits_reverse, hvalue]

end Encode

/-! ### Decoding -/

section Decode

theorem mapBase58_getD (i : ℕ) :
    mapBase58.getD i (-1) = -1 ∨ (0 ≤ mapBase58.getD i (-1) ∧ mapBase58.getD i (-1) < 58) := by
  rw [List.getD_eq_getElem?_getD]
  cases h : mapBase58[i]? with
  | none => exact .inl rfl
  | some x => exact mapBase58_entries x (List.mem_of_getElem? h)

/-- A character that `mapBase58` maps has the digit `base58Digit` gives. -/
theorem base58Digit_spec {c : UInt8} (hc : mapBase58.getD c.toNat (-1) ≠ -1) :
    (base58Digit c : ℤ) = mapBase58.getD c.toNat (-1) ∧ base58Digit c < 58 := by
  rcases mapBase58_getD c.toNat with h | ⟨h0, h58⟩
  · exact absurd h hc
  · rw [base58Digit]
    omega

theorem base58Digit_pszBase58 {d : ℕ} (hd : d < 58) : base58Digit (pszBase58.getD d 0) = d := by
  rw [base58Digit, mapBase58_pszBase58 d hd, Int.toNat_natCast]

/-- The characters of `pszBase58`, one for each digit. -/
theorem exists_of_mem_pszBase58 {c : UInt8} (hc : c ∈ pszBase58) :
    ∃ d < 58, pszBase58.getD d 0 = c := by
  obtain ⟨d, hd, rfl⟩ := List.getElem_of_mem hc
  exact ⟨d, hd, by rw [List.getD_eq_getElem?_getD, List.getElem?_eq_getElem hd, Option.getD_some]⟩

/-- What decoding needs of a base-58 character. -/
theorem mem_pszBase58_spec {c : UInt8} (hc : c ∈ pszBase58) :
    isSpace c = false ∧ c ≠ 0 ∧ mapBase58.getD c.toNat (-1) ≠ -1 ∧
      pszBase58.getD (base58Digit c) 0 = c ∧ (base58Digit c = 0 ↔ c = '1'.toUInt8) := by
  obtain ⟨d, hd, rfl⟩ := exists_of_mem_pszBase58 hc
  obtain ⟨hspace, hzero, hone⟩ := pszBase58_classes d hd
  refine ⟨hspace, hzero, by rw [mapBase58_pszBase58 d hd]; omega, ?_, ?_⟩
  · rw [base58Digit_pszBase58 hd]
  · rw [base58Digit_pszBase58 hd, hone]

theorem dropWhile_of_forall_false {α : Type*} {p : α → Bool} {l : List α}
    (h : ∀ c ∈ l, p c = false) : l.dropWhile p = l := by
  cases l with
  | nil => rfl
  | cons x l => exact List.dropWhile_cons_of_neg (by simp [h x List.mem_cons_self])

/-- Each character multiplies the number in the buffer by 58 and adds its digit. While the
result fits in the buffer, the assertion holds; the loop stops at the first character that is
not a digit, and at the first digit after which the result is too long. -/
theorem decodeLoop_spec (zeroes maxRetLen size : ℕ) (cs : List UInt8) :
    ∀ u, (u + 1) * 58 ^ cs.length ≤ 256 ^ size →
      (Nat.digits 256 u).length + zeroes ≤ maxRetLen →
      decodeLoop zeroes maxRetLen cs (Nat.digitsAppend 256 size u, (Nat.digits 256 u).length) =
        .ok (if (∀ c ∈ cs, mapBase58.getD c.toNat (-1) ≠ -1) ∧
            (Nat.digits 256 ((cs.map base58Digit).foldl (fun n d => 58 * n + d) u)).length +
              zeroes ≤ maxRetLen
          then some (Nat.digitsAppend 256 size
              ((cs.map base58Digit).foldl (fun n d => 58 * n + d) u),
            (Nat.digits 256 ((cs.map base58Digit).foldl (fun n d => 58 * n + d) u)).length)
          else none) := by
  induction cs with
  | nil =>
    intro u _ hu
    rw [List.map_nil, List.foldl_nil, if_pos ⟨fun _ h => absurd h List.not_mem_nil, hu⟩]
    rfl
  | cons c cs ih =>
    intro u hfit hu
    rw [List.length_cons] at hfit
    rw [decodeLoop]
    by_cases hc : mapBase58.getD c.toNat (-1) = -1
    · rw [if_pos hc, if_neg fun h => h.1 c List.mem_cons_self hc]
      rfl
    · have hd := (base58Digit_spec hc).2
      have h58 : 58 ≤ 58 ^ (cs.length + 1) := Nat.le_self_pow (by omega) 58
      have hw : 58 * u + base58Digit c < 256 ^ size :=
        calc 58 * u + base58Digit c < 58 * (u + 1) := by omega
          _ ≤ (u + 1) * 58 ^ (cs.length + 1) := by
            rw [Nat.mul_comm]
            exact Nat.mul_le_mul_left _ h58
          _ ≤ 256 ^ size := hfit
      have hfit' : (58 * u + base58Digit c + 1) * 58 ^ cs.length ≤ 256 ^ size :=
        calc (58 * u + base58Digit c + 1) * 58 ^ cs.length ≤ (58 * (u + 1)) * 58 ^ cs.length :=
              Nat.mul_le_mul_right _ (by omega)
          _ = (u + 1) * 58 ^ (cs.length + 1) := by ring
          _ ≤ 256 ^ size := hfit
      rw [if_neg hc]
      dsimp only
      rw [show (mapBase58.getD c.toNat (-1)).toNat = base58Digit c from rfl,
        mulAddLoop_digitsAppend (by norm_num) (by norm_num) size u _ 0 _ (by simp)
          ((Nat.digits_length_le_iff (by norm_num) _).mpr hw)]
      dsimp only
      rw [Nat.zero_add, List.map_cons, List.foldl_cons]
      -- the whole string is at least as long as its prefix
      have hmono := Nat.le_length_digits_le 256 _ _
        (Radix.le_foldl_mul_add (b := 58) (by norm_num) (58 * u + base58Digit c)
          (cs.map base58Digit))
      by_cases hlen : (Nat.digits 256 (58 * u + base58Digit c)).length + zeroes > maxRetLen
      · rw [if_neg (by simp), if_pos hlen, if_neg (fun h => by omega)]
        rfl
      · rw [if_neg (by simp), if_neg hlen, ih _ hfit' (by omega)]
        simp only [List.forall_mem_cons, ne_eq, hc, not_false_eq_true, true_and]

/-- `len * 733 / 1000 + 1` bytes hold every number of `len` base-58 digits. -/
theorem chars_lt_decodeSize (len : ℕ) : 58 ^ len ≤ 256 ^ (len * 733 / 1000 + 1) := by
  -- split the exponents so that the powers are evaluated
  have hpow : 58 ^ 1000 ≤ 256 ^ 733 := by
    rw [show 1000 = 250 * 4 from rfl, pow_mul 58 250 4, show 733 = 244 * 3 + 1 from rfl,
      pow_succ 256 (244 * 3), pow_mul 256 244 3]
    norm_num
  rw [Nat.mul_comm]
  exact Radix.pow_le_pow_mul_div_add_one (by norm_num) (by norm_num) hpow len

/-- `DecodeBase58` on a C string: after the spaces and the `'1'`s, the characters up to the next
space must be base-58 digits, and only spaces may follow them; the result is a zero byte for
each `'1'`, then the bytes of the number that the digits spell, if there are at most
`max_ret_len` in all. No input trips the assertion. -/
theorem decodeBase58Psz_eq (psz : List UInt8) (maxRetLen : ℕ) :
    decodeBase58Psz psz maxRetLen =
      let zeroes := ((psz.dropWhile isSpace).takeWhile (· = '1'.toUInt8)).length
      let rest := (psz.dropWhile isSpace).drop zeroes
      let chars := rest.takeWhile fun c => !isSpace c
      .ok (if (∀ c ∈ chars, mapBase58.getD c.toNat (-1) ≠ -1) ∧
          (Nat.digits 256 (base58Value chars)).length + zeroes ≤ maxRetLen ∧
          (rest.drop chars.length).dropWhile isSpace = []
        then some (List.replicate zeroes 0 ++
          (Nat.digits 256 (base58Value chars)).reverse.map UInt8.ofNat)
        else none) := by
  rw [decodeBase58Psz]
  dsimp only
  set zeroes := ((psz.dropWhile isSpace).takeWhile (· = '1'.toUInt8)).length
  set rest := (psz.dropWhile isSpace).drop zeroes
  set chars := rest.takeWhile fun c => !isSpace c
  by_cases hz : zeroes > maxRetLen
  · rw [if_pos hz, if_neg fun h => by omega]
    rfl
  have hfold : (chars.map base58Digit).foldl (fun n d => 58 * n + d) 0 = base58Value chars := by
    rw [Radix.foldl_mul_add, Nat.zero_mul, Nat.zero_add, base58Value]
  have hfit : (0 + 1) * 58 ^ chars.length ≤ 256 ^ (rest.length * 733 / 1000 + 1) := by
    rw [Nat.zero_add, Nat.one_mul]
    exact le_trans (Nat.pow_le_pow_right (by norm_num) (List.takeWhile_sublist _).length_le)
      (chars_lt_decodeSize rest.length)
  have hloop := decodeLoop_spec zeroes maxRetLen _ chars 0 hfit (by simp; omega)
  rw [hfold, Nat.digitsAppend, Nat.digits_zero, List.length_nil, List.nil_append,
    Nat.sub_zero] at hloop
  rw [if_neg hz, hloop]
  -- the loop's verdict, then the check of what follows the digits
  by_cases hdigits : (∀ c ∈ chars, mapBase58.getD c.toNat (-1) ≠ -1) ∧
      (Nat.digits 256 (base58Value chars)).length + zeroes ≤ maxRetLen
  · rw [if_pos hdigits]
    by_cases htail : (rest.drop chars.length).dropWhile isSpace = []
    · rw [if_pos ⟨hdigits.1, hdigits.2, htail⟩]
      simp only [Except.map, htail, ne_eq, not_true_eq_false, if_false, Nat.digitsAppend,
        List.take_left' rfl]
    · rw [if_neg fun h => htail h.2.2]
      simp only [Except.map, htail, ne_eq, not_false_eq_true, if_true]
  · rw [if_neg hdigits, if_neg fun h => hdigits ⟨h.1, h.2.1⟩]
    rfl

end Decode

/-! ### Round trips -/

section RoundTrip

/-- After its leading run of `a`s, a list does not start with `a`. -/
theorem head?_drop_length_takeWhile {α : Type*} [DecidableEq α] (a : α) (l : List α) :
    (l.drop (l.takeWhile (· = a)).length).head? ≠ some a := by
  induction l with
  | nil => simp
  | cons x l ih =>
    by_cases hx : x = a
    · subst hx
      rwa [List.takeWhile_cons_of_pos (by simp), List.length_cons, List.drop_succ_cons]
    · rw [List.takeWhile_cons_of_neg (by simpa using hx)]
      simpa using hx

/-- The last of the digits of a number, its leading digit, is a digit that is not zero. -/
theorem getLast?_digits {b : ℕ} (hb : 1 < b) {v d : ℕ} (h : (Nat.digits b v).getLast? = some d) :
    0 < d ∧ d < b := by
  have hne : Nat.digits b v ≠ [] := fun hnil => by simp [hnil] at h
  rw [List.getLast?_eq_some_getLast hne, Option.some.injEq] at h
  subst h
  exact ⟨Nat.pos_of_ne_zero (Nat.getLast_digit_ne_zero b
      (Nat.digits_ne_nil_iff_ne_zero.mp hne)),
    Nat.digits_lt_base hb (List.getLast_mem hne)⟩

theorem head?_bytes_ne_zero (v : ℕ) :
    ((Nat.digits 256 v).reverse.map UInt8.ofNat).head? ≠ some 0 := by
  rw [List.head?_map, List.head?_reverse]
  cases h : (Nat.digits 256 v).getLast? with
  | none => simp
  | some d =>
    obtain ⟨hd0, hd⟩ := getLast?_digits (by norm_num) h
    intro heq
    have := congrArg UInt8.toNat (Option.some.inj heq)
    rw [UInt8.toNat_ofNat_of_lt' hd, UInt8.toNat_zero] at this
    omega

theorem head?_base58_ne_one (v : ℕ) :
    ((Nat.digits 58 v).reverse.map fun d => pszBase58.getD d 0).head? ≠ some '1'.toUInt8 := by
  rw [List.head?_map, List.head?_reverse]
  cases h : (Nat.digits 58 v).getLast? with
  | none => simp
  | some d =>
    obtain ⟨hd0, hd⟩ := getLast?_digits (by norm_num) h
    intro heq
    have := ((pszBase58_classes d hd).2.2.mp (Option.some.inj heq))
    omega

theorem getD_mem_pszBase58 {d : ℕ} (hd : d < 58) : pszBase58.getD d 0 ∈ pszBase58 := by
  rw [List.getD_eq_getElem?_getD, List.getElem?_eq_getElem hd, Option.getD_some]
  exact List.getElem_mem hd

/-- Bytes that do not start with a zero are the digits of their value. -/
theorem digits_bytesValue {bytes : List UInt8} (hb : bytes.head? ≠ some 0) :
    Nat.digits 256 (bytesValue bytes) = (bytes.map UInt8.toNat).reverse := by
  refine Radix.digits_ofDigits_reverse (by norm_num) (by simp [UInt8.toNat_lt_size]) ?_
  rw [List.head?_map]
  cases bytes with
  | nil => simp
  | cons b bytes =>
    intro h
    apply hb
    simp only [List.head?_cons, Option.map_some, Option.some.injEq] at h ⊢
    exact UInt8.toNat_inj.mp h

/-- The bytes of a number's base-256 digits spell the number. -/
theorem bytesValue_digits (v : ℕ) :
    bytesValue ((Nat.digits 256 v).reverse.map UInt8.ofNat) = v := by
  have hmap : ((Nat.digits 256 v).reverse.map UInt8.ofNat).map UInt8.toNat =
      (Nat.digits 256 v).reverse := by
    rw [List.map_map]
    conv_rhs => rw [← List.map_id (Nat.digits 256 v).reverse]
    exact List.map_congr_left fun d hd =>
      UInt8.toNat_ofNat_of_lt' (Nat.digits_lt_base (by norm_num) (List.mem_reverse.mp hd))
  rw [bytesValue, hmap, List.reverse_reverse, Nat.ofDigits_digits]

/-- The characters of a number's base-58 digits spell the number. -/
theorem base58Value_digits (v : ℕ) :
    base58Value ((Nat.digits 58 v).reverse.map fun d => pszBase58.getD d 0) = v := by
  have hmap : ((Nat.digits 58 v).reverse.map fun d => pszBase58.getD d 0).map base58Digit =
      (Nat.digits 58 v).reverse := by
    rw [List.map_map]
    conv_rhs => rw [← List.map_id (Nat.digits 58 v).reverse]
    exact List.map_congr_left fun d hd =>
      base58Digit_pszBase58 (Nat.digits_lt_base (by norm_num) (List.mem_reverse.mp hd))
  rw [base58Value, hmap, List.reverse_reverse, Nat.ofDigits_digits]

/-- Base-58 characters that do not start with `'1'` are the digits of their value. -/
theorem digits_base58Value {cs : List UInt8} (hs : ∀ c ∈ cs, c ∈ pszBase58)
    (hhead : cs.head? ≠ some '1'.toUInt8) :
    Nat.digits 58 (base58Value cs) = (cs.map base58Digit).reverse := by
  refine Radix.digits_ofDigits_reverse (by norm_num) ?_ ?_
  · intro d hd
    obtain ⟨c, hc, rfl⟩ := List.mem_map.mp hd
    exact (base58Digit_spec (mem_pszBase58_spec (hs c hc)).2.2.1).2
  · rw [List.head?_map]
    cases cs with
    | nil => simp
    | cons c cs =>
      intro h
      apply hhead
      simp only [List.head?_cons, Option.map_some, Option.some.injEq] at h ⊢
      exact (mem_pszBase58_spec (hs c List.mem_cons_self)).2.2.2.2.mp h

theorem map_base58Digit {cs : List UInt8} (hs : ∀ c ∈ cs, c ∈ pszBase58) :
    (cs.map base58Digit).map (fun d => pszBase58.getD d 0) = cs := by
  rw [List.map_map]
  conv_rhs => rw [← List.map_id cs]
  exact List.map_congr_left fun c hc => (mem_pszBase58_spec (hs c hc)).2.2.2.1

/-- A base-58 string decodes to a zero byte for each leading `'1'`, then the bytes of the number
that the rest spells, when these fit. -/
theorem decodeBase58_of_base58 (zeroes : ℕ) {rest : List UInt8}
    (hrest : ∀ c ∈ rest, c ∈ pszBase58) (hhead : rest.head? ≠ some '1'.toUInt8)
    (maxRetLen : ℕ) :
    decodeBase58 (List.replicate zeroes '1'.toUInt8 ++ rest) maxRetLen =
      .ok (if (Nat.digits 256 (base58Value rest)).length + zeroes ≤ maxRetLen
        then some (List.replicate zeroes 0 ++
          (Nat.digits 256 (base58Value rest)).reverse.map UInt8.ofNat)
        else none) := by
  have hs : ∀ c ∈ List.replicate zeroes '1'.toUInt8 ++ rest, c ∈ pszBase58 := by
    intro c hc
    rcases List.mem_append.mp hc with h1 | h
    · rw [List.eq_of_mem_replicate h1]
      decide
    · exact hrest c h
  have hvalid : validAsCString (List.replicate zeroes '1'.toUInt8 ++ rest) = true :=
    validAsCString_iff.mpr fun h0 => (mem_pszBase58_spec (hs 0 h0)).2.1 rfl
  have hdigits : ∀ c ∈ rest, mapBase58.getD c.toNat (-1) ≠ -1 := fun c hc =>
    (mem_pszBase58_spec (hrest c hc)).2.2.1
  rw [decodeBase58, hvalid, Bool.not_true, if_neg Bool.false_ne_true, decodeBase58Psz_eq]
  dsimp only
  rw [dropWhile_of_forall_false fun c hc => (mem_pszBase58_spec (hs c hc)).1,
    length_takeWhile_replicate_append _ _ hhead, List.drop_left' List.length_replicate,
    List.takeWhile_eq_self_iff.mpr fun c hc => by simp [(mem_pszBase58_spec (hrest c hc)).1],
    List.drop_length, List.dropWhile_nil]
  simp only [and_true, and_iff_right hdigits]

/-- Decoding inverts encoding, for every limit at least the length of the input. -/
theorem decodeBase58_encodeBase58 {v : List UInt8} {maxRetLen : ℕ} (h : v.length ≤ maxRetLen) :
    (encodeBase58 v >>= fun s => decodeBase58 s maxRetLen) = .ok (some v) := by
  have hsplit := replicate_append_drop_takeWhile 0 v
  have hdigits := digits_bytesValue (head?_drop_length_takeWhile 0 v)
  set zeroes := (v.takeWhile (· = 0)).length
  set bytes := v.drop zeroes
  have hvalue : bytesValue v = bytesValue bytes := by
    conv_lhs => rw [← hsplit]
    rw [bytesValue_replicate_append]
  -- the bytes after the zeroes fit in the rest of the limit
  have hfit : (Nat.digits 256 (bytesValue bytes)).length + zeroes ≤ maxRetLen := by
    have hlen := congrArg List.length hsplit
    rw [List.length_append, List.length_replicate] at hlen
    rw [hdigits, List.length_reverse, List.length_map]
    omega
  have hbytes : bytes.map (UInt8.ofNat ∘ UInt8.toNat) = bytes := by
    conv_rhs => rw [← List.map_id bytes]
    exact List.map_congr_left fun b _ => UInt8.ofNat_toNat
  rw [encodeBase58_eq]
  show decodeBase58 _ maxRetLen = _
  rw [decodeBase58_of_base58 zeroes (fun c hc => ?_) (head?_base58_ne_one _), base58Value_digits,
    hvalue, if_pos hfit, hdigits, List.reverse_reverse, List.map_map, hbytes, hsplit]
  obtain ⟨d, hd, rfl⟩ := List.mem_map.mp hc
  exact getD_mem_pszBase58 (Nat.digits_lt_base (by norm_num) (List.mem_reverse.mp hd))

/-- On strings of base-58 characters, encoding inverts decoding. -/
theorem encodeBase58_of_decodeBase58 {s : List UInt8} (hs : ∀ c ∈ s, c ∈ pszBase58)
    {maxRetLen : ℕ} {v : List UInt8} (h : decodeBase58 s maxRetLen = .ok (some v)) :
    encodeBase58 v = .ok s := by
  set zeroes := (s.takeWhile (· = '1'.toUInt8)).length
  set rest := s.drop zeroes
  have hsplit := replicate_append_drop_takeWhile '1'.toUInt8 s
  have hrest : ∀ c ∈ rest, c ∈ pszBase58 := fun c hc => hs c (List.mem_of_mem_drop hc)
  have hhead := head?_drop_length_takeWhile '1'.toUInt8 s
  rw [← hsplit, decodeBase58_of_base58 zeroes hrest hhead] at h
  split_ifs at h
  · cases h
    rw [encodeBase58_eq, length_takeWhile_replicate_append _ _ (head?_bytes_ne_zero _),
      bytesValue_replicate_append, bytesValue_digits, digits_base58Value hrest hhead,
      List.reverse_reverse, map_base58Digit hrest, hsplit]
  · cases h

/-- No input trips the assertion of `DecodeBase58`. -/
theorem decodeBase58_ok (str : List UInt8) (maxRetLen : ℕ) :
    ∃ r, decodeBase58 str maxRetLen = .ok r := by
  rw [decodeBase58]
  split
  · exact ⟨none, rfl⟩
  · exact ⟨_, decodeBase58Psz_eq str maxRetLen⟩

end RoundTrip

section Check

variable (hash : List UInt8 → Vector UInt8 32)

/-- `EncodeBase58Check`: the input, then the first four bytes of its hash. -/
def encodeBase58Check (vchIn : List UInt8) : Except String (List UInt8) :=
  encodeBase58 (vchIn ++ (hash vchIn).toList.take 4)

/-- `DecodeBase58Check(psz, vchRet, max_ret_len)`: four more bytes may be decoded, up to the
largest `size_t`; they must be the first four of the hash of the others. -/
def decodeBase58CheckPsz (psz : List UInt8) (maxRetLen : ℕ) :
    Except String (Option (List UInt8)) :=
  (decodeBase58Psz psz (if maxRetLen > 2 ^ 64 - 1 - 4 then 2 ^ 64 - 1 else maxRetLen + 4)).map
    fun
    | none => none
    | some vchRet =>
      if vchRet.length < 4 then none
      -- re-calculate the checksum, ensure it matches the included 4-byte checksum
      else if (hash (vchRet.take (vchRet.length - 4))).toList.take 4 ≠
          vchRet.drop (vchRet.length - 4) then none
      else some (vchRet.take (vchRet.length - 4))

/-- `DecodeBase58Check(str, vchRet, max_ret_len)`. -/
def decodeBase58Check (str : List UInt8) (maxRetLen : ℕ) : Except String (Option (List UInt8)) :=
  if !validAsCString str then pure none else decodeBase58CheckPsz hash str maxRetLen

/-- With any hash, checked decoding inverts checked encoding, for every limit at least the length
of the input; the input with its four check bytes is a vector, whose length is a `size_t`. -/
theorem decodeBase58Check_encodeBase58Check {v : List UInt8} {maxRetLen : ℕ}
    (h : v.length ≤ maxRetLen) (hv : v.length + 4 < 2 ^ 64) :
    (encodeBase58Check hash v >>= fun s => decodeBase58Check hash s maxRetLen) = .ok (some v) := by
  have hw : (v ++ (hash v).toList.take 4).length = v.length + 4 := by simp
  obtain ⟨s, hs⟩ : ∃ s, encodeBase58 (v ++ (hash v).toList.take 4) = .ok s :=
    ⟨_, encodeBase58_eq _⟩
  -- `DecodeBase58` is allowed the four check bytes
  have hround := @decodeBase58_encodeBase58 (v ++ (hash v).toList.take 4)
    (if maxRetLen > 2 ^ 64 - 1 - 4 then 2 ^ 64 - 1 else maxRetLen + 4) (by split_ifs <;> omega)
  rw [hs] at hround
  change decodeBase58 s _ = _ at hround
  have hvalid : validAsCString s = true := by
    by_contra hnot
    rw [decodeBase58, if_pos (by simpa using hnot)] at hround
    cases hround
  rw [decodeBase58, if_neg (by simp [hvalid])] at hround
  rw [encodeBase58Check, hs]
  show decodeBase58Check hash s maxRetLen = _
  rw [decodeBase58Check, if_neg (by simp [hvalid]), decodeBase58CheckPsz, hround]
  simp only [Except.map, hw, Nat.add_sub_cancel, List.take_left' rfl, List.drop_left' rfl, ne_eq,
    not_true_eq_false, if_false]
  rw [if_neg (by omega)]

end Check

/-- Base58 round-trips and its buffers are large enough: encoding never trips its assertion, and
decoding its output with a limit of at least the input's length gives the input back; decoding
never trips its assertion, and on strings of base-58 characters encoding gives back what was
decoded; and, with any hash, checked decoding inverts checked encoding. -/
theorem base58_roundtrip :
    (∀ v, ∃ s, encodeBase58 v = .ok s) ∧
    (∀ v maxRetLen, v.length ≤ maxRetLen →
      (encodeBase58 v >>= fun s => decodeBase58 s maxRetLen) = .ok (some v)) ∧
    (∀ s maxRetLen, (∃ r, decodeBase58 s maxRetLen = .ok r) ∧
      ((∀ c ∈ s, c ∈ pszBase58) →
        ∀ v, decodeBase58 s maxRetLen = .ok (some v) → encodeBase58 v = .ok s)) ∧
    (∀ (hash : List UInt8 → Vector UInt8 32) v maxRetLen, v.length ≤ maxRetLen →
      v.length + 4 < 2 ^ 64 →
      (encodeBase58Check hash v >>= fun s => decodeBase58Check hash s maxRetLen) =
        .ok (some v)) :=
  ⟨fun v => ⟨_, encodeBase58_eq v⟩,
    fun _ _ h => decodeBase58_encodeBase58 h,
    fun s maxRetLen => ⟨decodeBase58_ok s maxRetLen,
      fun hs _ h => encodeBase58_of_decodeBase58 hs h⟩,
    fun hash _ _ h hv => decodeBase58Check_encodeBase58Check hash h hv⟩

/-- Two zero bytes and a byte come back through a limit of three. -/
theorem base58_roundtrip_leading_zeros :
    [0, 0, 1].length ≤ 3 ∧
      (encodeBase58 [0, 0, 1] >>= fun s => decodeBase58 s 3) = .ok (some [0, 0, 1]) :=
  ⟨by decide, base58_roundtrip.2.1 [0, 0, 1] 3 (by decide)⟩

end BitcoinCash
