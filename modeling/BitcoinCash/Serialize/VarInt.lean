import BitcoinCash.Serialize.Stream
import Mathlib.Tactic.Positivity
import Mathlib.Tactic.Linarith

/-!
# VarInt

The MSB base-128 integers of `serialize.h`. Each byte carries seven bits of the number, high
digits first; the top bit of a byte says that another follows; and one is subtracted from every
digit but the last, so that every integer has exactly one encoding. `WriteVarInt` generates the
digits from the low end into `tmp` and writes them in reverse; `ReadVarInt<I>` accumulates them
into an `I`, throwing when the value would not fit.

The unsigned type `I` is given by its width `bits`; its values are the naturals below
`2 ^ bits`.
-/

namespace BitcoinCash

open Bytes

/-- `GetSizeOfVarInt`. -/
def getSizeOfVarInt (n : ℕ) : ℕ :=
  if n ≤ 0x7f then 1 else getSizeOfVarInt ((n >>> 7) - 1) + 1
termination_by n
decreasing_by
  rw [Nat.shiftRight_eq_div_pow]
  omega

/-- The digit loop of `WriteVarInt`: `tmp[len], tmp[len + 1], …`, each digit but `tmp[0]` with
the continuation bit. -/
def varIntTmp (n len : ℕ) : List UInt8 :=
  let byte := UInt8.ofNat ((n &&& 0x7f) ||| if len ≠ 0 then 0x80 else 0x00)
  if n ≤ 0x7f then [byte] else byte :: varIntTmp ((n >>> 7) - 1) (len + 1)
termination_by n
decreasing_by
  rw [Nat.shiftRight_eq_div_pow]
  omega

/-- `WriteVarInt`: the digits are written from the last one generated down to `tmp[0]`. -/
def writeVarInt (n : ℕ) : List UInt8 := (varIntTmp n 0).reverse

/-- The maximum of the unsigned type of `bits` bits. -/
def maxOf (bits : ℕ) : ℕ := 2 ^ bits - 1

/-- The text of the exception for a value that does not fit. -/
def varIntTooLarge : String := "ReadVarInt(): size too large"

/-- The loop of `ReadVarInt<I>` with accumulator `n`, over the unread bytes. -/
def readVarIntLoop (bits n : ℕ) : List UInt8 → Except String (ℕ × List UInt8)
  | [] => .error endOfData
  | chData :: rest =>
    if n > maxOf bits >>> 7 then .error varIntTooLarge else
    -- `n = (n << 7) | (chData & 0x7F)`, an assignment to `I`
    let n := (n <<< 7 ||| (chData &&& 0x7f).toNat) % 2 ^ bits
    if chData &&& 0x80 = 0 then .ok (n, rest)
    else if n = maxOf bits then .error varIntTooLarge
    else readVarIntLoop bits (n + 1) rest

/-- `ReadVarInt<I>` for the unsigned type of `bits` bits. -/
def readVarInt (bits : ℕ) : Reader ℕ := fun s => readVarIntLoop bits 0 s

/-- The number a byte string denotes, read from its front up to the first byte without the
continuation bit, with `acc` the value of the digits before: the formula of the comment on
VarInts in `serialize.h`, with no bound. -/
def varIntValue (acc : ℕ) : List UInt8 → Option (ℕ × List UInt8)
  | [] => none
  | b :: rest =>
    if b.toNat < 128 then some (acc * 128 + b.toNat % 128, rest)
    else varIntValue (acc * 128 + b.toNat % 128 + 1) rest

example : writeVarInt 255 = [0x80, 0x7f] := by simp [writeVarInt, varIntTmp]
example : writeVarInt 16384 = [0xff, 0x00] := by simp [writeVarInt, varIntTmp]

/-! ### The writer's recursion -/

theorem ofNat_and_7f_or_80 (n : ℕ) :
    UInt8.ofNat ((n &&& 0x7f) ||| 0x80) = UInt8.ofNat (n &&& 0x7f) ||| 0x80 := by
  apply UInt8.toNat_inj.mp
  have hlow : n &&& 0x7f < 128 := by
    rw [Nat.and_two_pow_sub_one_eq_mod n 7]
    omega
  rw [toNat_or_80, UInt8.toNat_ofNat', UInt8.toNat_ofNat',
    Nat.mod_eq_of_lt (show n &&& 0x7f < 2 ^ 8 by omega), Nat.mod_eq_of_lt hlow,
    Nat.or_comm, show (0x80 : ℕ) = 2 ^ 7 * 1 by rfl, ← Nat.two_pow_add_eq_or_of_lt hlow]
  omega

@[simp] theorem or_80_or_80 (b : UInt8) : b ||| 0x80 ||| 0x80 = b ||| 0x80 := by
  rw [UInt8.or_assoc, UInt8.or_self]

/-- Every digit after `tmp[0]` carries the continuation bit. -/
theorem varIntTmp_succ (n k : ℕ) :
    varIntTmp n (k + 1) = (varIntTmp n 0).map (· ||| 0x80) := by
  induction n using Nat.strong_induction_on generalizing k with
  | _ n ih =>
    conv_lhs => rw [varIntTmp]
    conv_rhs => rw [varIntTmp]
    simp only [ne_eq, Nat.add_one_ne_zero, not_false_eq_true, if_true, not_true_eq_false,
      if_false, Nat.or_zero, ofNat_and_7f_or_80]
    by_cases hn : n ≤ 0x7f
    · simp [hn]
    · have hlt : (n >>> 7) - 1 < n := by rw [Nat.shiftRight_eq_div_pow]; omega
      simp only [hn, if_false, List.map_cons, ih _ hlt (k + 1), ih _ hlt 0, List.map_map]
      congr 2
      funext b
      simp

/-- `WriteVarInt` writes the encoding of `n / 128 - 1` with every continuation bit set, then the
low digit. -/
theorem writeVarInt_eq (n : ℕ) :
    writeVarInt n = if n ≤ 0x7f then [UInt8.ofNat n]
      else (writeVarInt (n / 128 - 1)).map (· ||| 0x80) ++ [UInt8.ofNat (n % 128)] := by
  have hlow : n &&& 0x7f = n % 128 := Nat.and_two_pow_sub_one_eq_mod n 7
  conv_lhs => rw [writeVarInt, varIntTmp]
  simp only [ne_eq, not_true_eq_false, if_false, Nat.or_zero, hlow]
  by_cases hn : n ≤ 0x7f
  · rw [if_pos hn, if_pos hn, Nat.mod_eq_of_lt (by omega)]
    rfl
  · rw [if_neg hn, if_neg hn, List.reverse_cons, varIntTmp_succ, writeVarInt,
      Nat.shiftRight_eq_div_pow, List.map_reverse]

theorem length_writeVarInt (n : ℕ) : (writeVarInt n).length = getSizeOfVarInt n := by
  induction n using Nat.strong_induction_on with
  | _ n ih =>
    rw [writeVarInt_eq, getSizeOfVarInt]
    by_cases hn : n ≤ 0x7f
    · simp [hn]
    · have hlt : n / 128 - 1 < n := by omega
      simp only [hn, if_false, List.length_append, List.length_map, ih _ hlt,
        Nat.shiftRight_eq_div_pow, List.length_singleton]

/-! ### Every number has exactly one encoding -/

/-- The bytes that precede the last digit when the digits before it are worth `acc`: nothing
for `acc = 0`, else the encoding of `acc - 1` with every continuation bit set. -/
def contPrefix : ℕ → List UInt8
  | 0 => []
  | m + 1 => (writeVarInt m).map (· ||| 0x80)

@[simp] theorem map_or_80_contPrefix (acc : ℕ) :
    (contPrefix acc).map (· ||| 0x80) = contPrefix acc := by
  cases acc with
  | zero => rfl
  | succ m =>
    simp only [contPrefix, List.map_map]
    congr 1
    funext b
    simp

theorem toNat_ofNat_of_lt_256 {d : ℕ} (hd : d < 256) : (UInt8.ofNat d).toNat = d := by
  rw [UInt8.toNat_ofNat']
  omega

/-- The encoding of `acc * 128 + d`, for a last digit `d`, is `contPrefix acc` then `d`. -/
theorem writeVarInt_mul_add (acc : ℕ) {d : ℕ} (hd : d < 128) :
    writeVarInt (acc * 128 + d) = contPrefix acc ++ [UInt8.ofNat d] := by
  rw [writeVarInt_eq]
  cases acc with
  | zero => simp [contPrefix]; omega
  | succ m =>
    rw [if_neg (by omega), contPrefix]
    congr 4
    · omega
    · omega

/-- Reading the continuation-flagged encoding of `m` leaves the accumulator at `m + 1`. -/
theorem varIntValue_contPrefix (m : ℕ) (s : List UInt8) :
    varIntValue 0 ((writeVarInt m).map (· ||| 0x80) ++ s) = varIntValue (m + 1) s := by
  induction m using Nat.strong_induction_on generalizing s with
  | _ m ih =>
    have hlast : ∀ d < 128, (UInt8.ofNat d ||| 0x80).toNat = d + 128 := fun d hd => by
      rw [toNat_or_80, toNat_ofNat_of_lt_256 (by omega), Nat.mod_eq_of_lt hd]
    rw [writeVarInt_eq]
    by_cases hm : m ≤ 0x7f
    · rw [if_pos hm, List.map_singleton, List.singleton_append, varIntValue,
        hlast m (by omega), if_neg (by omega)]
      congr 1
      omega
    · rw [if_neg hm, List.map_append, List.map_map, List.map_singleton, List.append_assoc,
        List.singleton_append]
      have hflag : ((· ||| 0x80) ∘ (· ||| 0x80) : UInt8 → UInt8) = (· ||| 0x80) := by
        funext b
        simp
      rw [hflag, ih _ (by omega), varIntValue, hlast _ (Nat.mod_lt _ (by norm_num)),
        if_neg (by omega)]
      congr 1
      omega

/-- Every number is denoted by its encoding, whatever follows it. -/
theorem varIntValue_writeVarInt (n : ℕ) (rest : List UInt8) :
    varIntValue 0 (writeVarInt n ++ rest) = some (n, rest) := by
  obtain ⟨acc, d, hd, rfl⟩ : ∃ acc d, d < 128 ∧ n = acc * 128 + d :=
    ⟨n / 128, n % 128, Nat.mod_lt _ (by norm_num), by omega⟩
  rw [writeVarInt_mul_add acc hd, List.append_assoc, List.singleton_append]
  cases acc with
  | zero =>
    simp [contPrefix, varIntValue, toNat_ofNat_of_lt_256 (show d < 256 by omega), hd]
  | succ m =>
    rw [contPrefix, varIntValue_contPrefix, varIntValue, toNat_ofNat_of_lt_256 (by omega),
      if_pos hd, Nat.mod_eq_of_lt hd]

/-- Whatever denotes a number, read after digits worth `acc`, completes `contPrefix acc` to the
number's encoding: no two byte strings denote the same number. -/
theorem contPrefix_append_of_varIntValue (s : List UInt8) :
    ∀ {acc v rest}, varIntValue acc s = some (v, rest) →
      contPrefix acc ++ s = writeVarInt v ++ rest := by
  induction s with
  | nil => intro acc v rest h; cases h
  | cons b s ih =>
    intro acc v rest h
    have hb := b.toNat_lt
    have hbyte : UInt8.ofNat (b.toNat % 128) ||| 0x80 = b ↔ 128 ≤ b.toNat := by
      rw [← UInt8.toNat_inj, toNat_or_80, toNat_ofNat_of_lt_256 (by omega)]
      omega
    rw [varIntValue] at h
    by_cases hlast : b.toNat < 128
    · -- the last digit
      rw [if_pos hlast] at h
      cases h
      rw [writeVarInt_mul_add acc (Nat.mod_lt _ (by norm_num)), List.append_assoc,
        List.singleton_append, Nat.mod_eq_of_lt hlast, UInt8.ofNat_toNat]
    · -- a continuation digit joins the prefix
      rw [if_neg hlast] at h
      rw [← ih h, contPrefix, writeVarInt_mul_add acc (Nat.mod_lt _ (by norm_num)),
        List.map_append, map_or_80_contPrefix, List.map_singleton, hbyte.mpr (by omega),
        List.append_assoc, List.singleton_append]

/-- What denotes a number is the number's encoding. -/
theorem eq_writeVarInt_of_varIntValue {s rest : List UInt8} {v : ℕ}
    (h : varIntValue 0 s = some (v, rest)) : s = writeVarInt v ++ rest := by
  simpa [contPrefix] using contPrefix_append_of_varIntValue s h

/-! ### The reader computes the denoted value or throws -/

theorem mul_le_of_varIntValue (s : List UInt8) :
    ∀ {acc v rest}, varIntValue acc s = some (v, rest) → acc * 128 ≤ v := by
  induction s with
  | nil => intro acc v rest h; cases h
  | cons b s ih =>
    intro acc v rest h
    rw [varIntValue] at h
    split_ifs at h
    · cases h
      omega
    · have hnext := ih h
      calc acc * 128 ≤ acc * 128 + b.toNat % 128 + 1 := by omega
        _ ≤ (acc * 128 + b.toNat % 128 + 1) * 128 := Nat.le_mul_of_pos_right _ (by norm_num)
        _ ≤ v := hnext

section Bounded

variable {bits : ℕ}

theorem maxOf_lt_mul_of_shiftRight_lt {acc : ℕ} (h : maxOf bits >>> 7 < acc) :
    maxOf bits < acc * 128 := by
  rw [Nat.shiftRight_eq_div_pow] at h
  omega

/-- With at least seven bits, the digit shifted into an accumulator at most `maxOf bits >>> 7`
neither wraps nor exceeds the maximum. -/
theorem shift_or_digit (hbits : 7 ≤ bits) {acc : ℕ} (hacc : acc ≤ maxOf bits >>> 7) {d : ℕ}
    (hd : d < 128) :
    (acc <<< 7 ||| d) % 2 ^ bits = acc * 128 + d ∧ acc * 128 + d ≤ maxOf bits := by
  have hpow : 2 ^ bits = 128 * 2 ^ (bits - 7) := by
    rw [show (128 : ℕ) = 2 ^ 7 by rfl, ← pow_add]
    congr 1
    omega
  have hpos : 0 < 2 ^ (bits - 7) := by positivity
  rw [Nat.shiftRight_eq_div_pow, maxOf] at hacc
  have hle : acc * 128 + d ≤ maxOf bits := by
    rw [maxOf]
    have : (2 ^ bits - 1) / 2 ^ 7 = 2 ^ (bits - 7) - 1 := by omega
    rw [this] at hacc
    omega
  refine ⟨?_, hle⟩
  rw [← Nat.shiftLeft_add_eq_or_of_lt (show d < 2 ^ 7 by omega), Nat.shiftLeft_eq,
    Nat.mod_eq_of_lt (by unfold maxOf at hle; omega)]

/-- On a stream that denotes `v`, the loop of `ReadVarInt<I>` returns `v`, or throws
"size too large" when `v` exceeds the maximum of `I`. -/
theorem readVarIntLoop_of_varIntValue (hbits : 7 ≤ bits) (s : List UInt8) :
    ∀ {acc v rest}, acc ≤ maxOf bits → varIntValue acc s = some (v, rest) →
      readVarIntLoop bits acc s =
        if maxOf bits < v then .error varIntTooLarge else .ok (v, rest) := by
  induction s with
  | nil => intro acc v rest _ h; cases h
  | cons b s ih =>
    intro acc v rest hacc h
    have hv := mul_le_of_varIntValue _ h
    rw [readVarIntLoop]
    by_cases hover : acc > maxOf bits >>> 7
    · -- the next shift would overflow: so does the denoted value
      rw [if_pos hover, if_pos (lt_of_lt_of_le (maxOf_lt_mul_of_shiftRight_lt hover) hv)]
    rw [if_neg hover]
    obtain ⟨hstep, hle⟩ := shift_or_digit hbits (not_lt.mp hover) (Nat.mod_lt b.toNat
      (show 0 < 128 by norm_num))
    simp only [toNat_and_7f, hstep]
    rw [varIntValue] at h
    by_cases hlast : b.toNat < 128
    · rw [if_pos ((and_80_eq_zero_iff b).mpr hlast)]
      rw [if_pos hlast] at h
      cases h
      rw [if_neg (by omega)]
    · rw [if_neg (fun h0 => hlast ((and_80_eq_zero_iff b).mp h0))]
      rw [if_neg hlast] at h
      have hv' := mul_le_of_varIntValue _ h
      by_cases hmax : acc * 128 + b.toNat % 128 = maxOf bits
      · -- incrementing would overflow: the denoted value is larger still
        rw [if_pos hmax, if_pos (by nlinarith)]
      · rw [if_neg hmax]
        exact ih (by omega) h

/-- Whatever the loop of `ReadVarInt<I>` returns is the value the stream denotes. -/
theorem varIntValue_of_readVarIntLoop (hbits : 7 ≤ bits) (s : List UInt8) :
    ∀ {acc n rest}, acc ≤ maxOf bits → readVarIntLoop bits acc s = .ok (n, rest) →
      varIntValue acc s = some (n, rest) := by
  induction s with
  | nil => intro acc n rest _ h; cases h
  | cons b s ih =>
    intro acc n rest hacc h
    rw [readVarIntLoop] at h
    by_cases hover : acc > maxOf bits >>> 7
    · rw [if_pos hover] at h
      cases h
    rw [if_neg hover] at h
    obtain ⟨hstep, hle⟩ := shift_or_digit hbits (not_lt.mp hover) (Nat.mod_lt b.toNat
      (show 0 < 128 by norm_num))
    simp only [toNat_and_7f, hstep] at h
    rw [varIntValue]
    by_cases hlast : b.toNat < 128
    · rw [if_pos ((and_80_eq_zero_iff b).mpr hlast)] at h
      cases h
      rw [if_pos hlast]
    · rw [if_neg (fun h0 => hlast ((and_80_eq_zero_iff b).mp h0))] at h
      by_cases hmax : acc * 128 + b.toNat % 128 = maxOf bits
      · rw [if_pos hmax] at h
        cases h
      · rw [if_neg hmax] at h
        rw [if_neg hlast]
        exact ih (by omega) h

end Bounded

theorem readVarInt_run (bits : ℕ) (s : List UInt8) :
    (readVarInt bits).run s = readVarIntLoop bits 0 s := rfl

/-- `ReadVarInt<I>` reads back `WriteVarInt(n)` for every value `n` of `I`. -/
theorem readVarInt_run_writeVarInt {bits : ℕ} (hbits : 7 ≤ bits) {n : ℕ} (hn : n < 2 ^ bits)
    (rest : List UInt8) : (readVarInt bits).run (writeVarInt n ++ rest) = .ok (n, rest) := by
  rw [readVarInt_run, readVarIntLoop_of_varIntValue hbits _ (Nat.zero_le _)
    (varIntValue_writeVarInt n rest), if_neg (by unfold maxOf; omega)]

/-- VarInt encoding is a bijection between the values of an unsigned type `I` of at least seven
bits (`uint32_t`, `uint64_t`) and their canonical byte strings: `ReadVarInt<I>` reads back
`WriteVarInt(n)`, consuming exactly `GetSizeOfVarInt(n)` bytes; every stream it accepts starts
with `WriteVarInt` of the value read; and on a stream that denotes a value it throws
"size too large" exactly when that value exceeds the maximum of `I`. -/
theorem varInt_roundtrip {bits : ℕ} (hbits : 7 ≤ bits) :
    (∀ n, n < 2 ^ bits → ∀ rest,
      (readVarInt bits).run (writeVarInt n ++ rest) = .ok (n, rest) ∧
        (writeVarInt n).length = getSizeOfVarInt n) ∧
    (∀ s n rest, (readVarInt bits).run s = .ok (n, rest) → s = writeVarInt n ++ rest) ∧
    (∀ s v rest, varIntValue 0 s = some (v, rest) →
      ((readVarInt bits).run s = .error varIntTooLarge ↔ maxOf bits < v)) := by
  refine ⟨fun n hn rest => ⟨readVarInt_run_writeVarInt hbits hn rest, length_writeVarInt n⟩,
    fun s n rest h => ?_, fun s v rest h => ?_⟩
  · rw [readVarInt_run] at h
    exact eq_writeVarInt_of_varIntValue
      (varIntValue_of_readVarIntLoop hbits s (Nat.zero_le _) h)
  · rw [readVarInt_run, readVarIntLoop_of_varIntValue hbits s (Nat.zero_le _) h]
    by_cases hv : maxOf bits < v
    · simp [hv]
    · simp [hv]

/-- `varInt_roundtrip` for `uint32_t` at `300`, a two-byte encoding. -/
theorem varInt_roundtrip_uint32 :
    7 ≤ 32 ∧ (readVarInt 32).run (writeVarInt 300 ++ []) = .ok (300, []) ∧
      (writeVarInt 300).length = getSizeOfVarInt 300 :=
  ⟨by norm_num, (varInt_roundtrip (by norm_num)).1 300 (by norm_num) []⟩

end BitcoinCash
