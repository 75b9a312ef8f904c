import Mathlib.Data.Nat.Bitwise
import Mathlib.Data.List.Basic

/-!
# CashAddr strings

`cashaddr.cpp` writes a prefix and a payload of 5-bit values as the string
`prefix:payloadchecksum`, each value as one character of `CHARSET`, and reads such strings back
in either case, with or without their prefix. The checksum makes the polynomial over GF(32) of
the prefix, the payload and the checksum divisible by the generator `g(x)` of a BCH code, up to
the constant `1`; `PolyMod` computes the remainder one value at a time.

Strings are lists of bytes, as `std::string` is. `Decode` reports a rejected string by the empty
pair; the model returns `none` only where the code has undefined behaviour, and `Encode` reads
past `CHARSET` for a value above `32`.
-/

namespace BitcoinCash

namespace CashAddr

/-- `CHARSET`, with the zero that ends the C string. -/
def charset : List UInt8 :=
  ['q', 'p', 'z', 'r', 'y', '9', 'x', '8', 'g', 'f', '2', 't', 'v', 'd', 'w', '0',
    's', '3', 'j', 'n', '5', '4', 'k', 'h', 'c', 'e', '6', 'm', 'u', 'a', '7', 'l'].map
    Char.toUInt8 ++ [0]

/-- `CHARSET_REV`. -/
def charsetRev : List Int8 :=
  [-1, -1, -1, -1, -1, -1, -1, -1, -1, -1, -1, -1, -1, -1, -1, -1,
    -1, -1, -1, -1, -1, -1, -1, -1, -1, -1, -1, -1, -1, -1, -1, -1,
    -1, -1, -1, -1, -1, -1, -1, -1, -1, -1, -1, -1, -1, -1, -1, -1,
    15, -1, 10, 17, 21, 20, 26, 30, 7, 5, -1, -1, -1, -1, -1, -1,
    -1, 29, -1, 24, 13, 25, 9, 8, 23, -1, 18, 22, 31, 27, 19, -1,
    1, 0, 3, 16, 11, 28, 12, 14, 6, 4, 2, -1, -1, -1, -1, -1,
    -1, 29, -1, 24, 13, 25, 9, 8, 23, -1, 18, 22, 31, 27, 19, -1,
    1, 0, 3, 16, 11, 28, 12, 14, 6, 4, 2, -1, -1, -1, -1, -1]

/-- One iteration of the loop of `PolyMod`: `c(x)` becomes `c(x) * x + d` modulo `g(x)`. -/
def polyModStep (c : UInt64) (d : UInt8) : UInt64 :=
  let c0 : UInt8 := (c >>> 35).toUInt8
  let c := ((c &&& 0x07ffffffff) <<< 5) ^^^ d.toUInt64
  -- for each set bit `n` of `c0`, `{2^n} k(x)` with `k(x) = x^6 mod g(x)`
  let c := if c0 &&& 0x01 != 0 then c ^^^ 0x98f2bc8e61 else c
  let c := if c0 &&& 0x02 != 0 then c ^^^ 0x79b76d99e2 else c
  let c := if c0 &&& 0x04 != 0 then c ^^^ 0xf33e5fb3c4 else c
  let c := if c0 &&& 0x08 != 0 then c ^^^ 0xae2eabe2a8 else c
  if c0 &&& 0x10 != 0 then c ^^^ 0x1e4f43e470 else c

/-- `PolyMod`. -/
def polyMod (v : List UInt8) : UInt64 := v.foldl polyModStep 1 ^^^ 1

/-- `LowerCase`. -/
def lowerCase (c : UInt8) : UInt8 := c ||| 0x20

/-- `ExpandPrefix`. -/
def expandPrefix (pfx : List UInt8) : List UInt8 := pfx.map (· &&& 0x1f) ++ [0]

/-- `VerifyChecksum`. -/
def verifyChecksum (pfx payload : List UInt8) : Bool :=
  polyMod (expandPrefix pfx ++ payload) == 0

/-- `CreateChecksum`: the eight 5-bit groups of `PolyMod` of the payload followed by eight
zeros. -/
def createChecksum (pfx payload : List UInt8) : List UInt8 :=
  let enc := expandPrefix pfx ++ payload ++ List.replicate 8 0
  let mod := polyMod enc
  (List.range 8).map fun i => ((mod >>> (5 * (7 - i)).toUInt64) &&& 0x1f).toUInt8

/-- `cashaddr::Encode`; `CHARSET[c]` past the end of the C string is undefined. -/
def encode (pfx payload : List UInt8) : Option (List UInt8) :=
  let checksum := createChecksum pfx payload
  let combined := payload ++ checksum
  (combined.mapM fun c => charset[c.toNat]?).map fun chars => pfx ++ [':'.toUInt8] ++ chars

/-- `c >= 'a' && c <= 'z'`. -/
def isLower (c : UInt8) : Bool := 'a'.toUInt8 ≤ c && c ≤ 'z'.toUInt8

/-- `c >= 'A' && c <= 'Z'`. -/
def isUpper (c : UInt8) : Bool := 'A'.toUInt8 ≤ c && c ≤ 'Z'.toUInt8

/-- `c >= '0' && c <= '9'`. -/
def isDigit (c : UInt8) : Bool := '0'.toUInt8 ≤ c && c ≤ '9'.toUInt8

/-- `ToLower` of `util/strencodings.h`. -/
def toLower (c : UInt8) : UInt8 := if isUpper c then c - 'A'.toUInt8 + 'a'.toUInt8 else c

/-- `ToUpper` of `util/strencodings.h`. -/
def toUpper (c : UInt8) : UInt8 := if isLower c then c - 'a'.toUInt8 + 'A'.toUInt8 else c

/-- The flags of the first loop of `Decode`. -/
structure ScanState where
  lower : Bool
  upper : Bool
  hasNumber : Bool
  prefixSize : ℕ
  deriving DecidableEq, Repr

/-- One character of the first loop of `Decode`; `none` is the early `return {}`. -/
def scanChar (st : ScanState) (i : ℕ) (c : UInt8) : Option ScanState :=
  if isLower c then some { st with lower := true }
  else if isUpper c then some { st with upper := true }
  else if isDigit c then some { st with hasNumber := true }
  else if c = ':'.toUInt8 then
    -- the separator cannot be first, follow a number or come twice
    if st.hasNumber || i == 0 || st.prefixSize != 0 then none
    else some { st with prefixSize := i }
  else none

/-- The first loop of `Decode`, from position `i`. -/
def scan : ScanState → ℕ → List UInt8 → Option ScanState
  | st, _, [] => some st
  | st, i, c :: cs => (scanChar st i c).bind fun st => scan st (i + 1) cs

/-- The value of a character of the data part: `none` for an invalid one. -/
def decodeValue (c : UInt8) : Option UInt8 :=
  if c > 127 then none
  else
    let r := charsetRev.getD c.toNat (-1)
    if r = -1 then none else some r.toUInt8

/-- `cashaddr::Decode`. A rejected string gives the empty pair. -/
def decode (str defaultPrefix : List UInt8) : Option (List UInt8 × List UInt8) :=
  match scan ⟨false, false, false, 0⟩ 0 str with
  | none => some ([], [])
  | some st =>
    if st.upper && st.lower then some ([], [])
    else
      let pfx := if st.prefixSize = 0 then defaultPrefix
        else (str.take st.prefixSize).map lowerCase
      -- the separator is not a value
      let prefixSize := if st.prefixSize = 0 then 0 else st.prefixSize + 1
      match (str.drop prefixSize).mapM decodeValue with
      | none => some ([], [])
      | some values =>
        if !verifyChecksum pfx values then some ([], [])
        -- `values.end() - 8` points before the first value
        else if values.length < 8 then none
        else some (pfx, values.take (values.length - 8))

/-- `c:qvdy2z3` has seven values and its checksum verifies, so `Decode`, called as
`DecodeCashAddrContent` calls it with the main network's prefix, builds the payload from
`values.end() - 8`, before the first value. -/
theorem decode_short_data_verifies :
    decode ("c:qvdy2z3".toList.map Char.toUInt8) ("bitcoincash".toList.map Char.toUInt8) =
      none := by
  decide +kernel

/-! ### `PolyMod` is linear over GF(2) -/

/-- The multiples of `k(x)` that the top value `c0` adds, as a number. -/
def reduceNat (k : ℕ) : ℕ :=
  (if k.testBit 0 then 0x98f2bc8e61 else 0) ^^^ (if k.testBit 1 then 0x79b76d99e2 else 0) ^^^
    (if k.testBit 2 then 0xf33e5fb3c4 else 0) ^^^ (if k.testBit 3 then 0xae2eabe2a8 else 0) ^^^
    (if k.testBit 4 then 0x1e4f43e470 else 0)

/-- Xor-ing a constant under a condition. -/
theorem ite_xor (b : Bool) (x g : UInt64) :
    (if b = true then x ^^^ g else x) = x ^^^ (if b = true then g else 0) := by
  cases b <;> simp

/-- A bit of the `uint8_t` top value `c0`. -/
theorem and_two_pow_ne_zero (x : UInt8) {m : UInt8} {j : ℕ} (hm : m.toNat = 2 ^ j) :
    (x &&& m != 0) = x.toNat.testBit j := by
  rw [Bool.eq_iff_iff, bne_iff_ne, ne_eq, ← UInt8.toNat_inj, UInt8.toNat_and, hm,
    UInt8.toNat_zero, Nat.and_two_pow]
  cases x.toNat.testBit j <;> simp

theorem testBit_c0 (c : UInt64) {j : ℕ} (hj : j < 8) :
    ((c >>> 35).toUInt8).toNat.testBit j = (c.toNat / 2 ^ 35).testBit j := by
  rw [UInt64.toNat_toUInt8, UInt64.toNat_shiftRight, Nat.testBit_mod_two_pow,
    Nat.shiftRight_eq_div_pow]
  simp [hj]

/-- The step of `PolyMod` on numbers. -/
theorem toNat_polyModStep (c : UInt64) (d : UInt8) :
    (polyModStep c d).toNat =
      c.toNat % 2 ^ 35 * 32 ^^^ d.toNat ^^^ reduceNat (c.toNat / 2 ^ 35) := by
  have hlow : ((c &&& 0x07ffffffff) <<< 5).toNat = c.toNat % 2 ^ 35 * 32 := by
    have hmask : c.toNat &&& (0x07ffffffff : UInt64).toNat = c.toNat % 2 ^ 35 :=
      Nat.and_two_pow_sub_one_eq_mod c.toNat 35
    have hfive : (5 : UInt64).toNat % 64 = 5 := rfl
    have hlt : c.toNat % 2 ^ 35 < 2 ^ 35 := Nat.mod_lt _ (Nat.two_pow_pos 35)
    rw [UInt64.toNat_shiftLeft, UInt64.toNat_and, hmask, hfive, Nat.shiftLeft_eq]
    omega
  simp only [polyModStep, ite_xor, UInt64.toNat_xor, hlow, UInt8.toNat_toUInt64,
    and_two_pow_ne_zero (m := 0x01) (j := 0) _ rfl,
    and_two_pow_ne_zero (m := 0x02) (j := 1) _ rfl,
    and_two_pow_ne_zero (m := 0x04) (j := 2) _ rfl,
    and_two_pow_ne_zero (m := 0x08) (j := 3) _ rfl,
    and_two_pow_ne_zero (m := 0x10) (j := 4) _ rfl,
    testBit_c0 c (by omega : 0 < 8), testBit_c0 c (by omega : 1 < 8),
    testBit_c0 c (by omega : 2 < 8), testBit_c0 c (by omega : 3 < 8),
    testBit_c0 c (by omega : 4 < 8), apply_ite UInt64.toNat, UInt64.toNat_zero, reduceNat,
    Nat.xor_assoc]
  rfl

/-- A condition xor-ed in. -/
theorem ite_xor_xor (a b : Bool) (g : ℕ) :
    (if (a ^^ b) = true then g else 0) = (if a = true then g else 0) ^^^ (if b = true then g else 0) := by
  cases a <;> cases b <;> simp

theorem reduceNat_xor (k k' : ℕ) : reduceNat (k ^^^ k') = reduceNat k ^^^ reduceNat k' := by
  simp only [reduceNat, Nat.testBit_xor, ite_xor_xor]
  ac_rfl

theorem mul_32_xor (x y : ℕ) : (x ^^^ y) * 32 = x * 32 ^^^ y * 32 := by
  rw [← Nat.shiftLeft_eq x 5, ← Nat.shiftLeft_eq y 5, ← Nat.shiftLeft_eq (x ^^^ y) 5,
    Nat.shiftLeft_xor_distrib]

/-- **One step of `PolyMod` is linear over GF(2)**, in the state and the value together. -/
theorem polyModStep_xor (c c' : UInt64) (d d' : UInt8) :
    polyModStep (c ^^^ c') (d ^^^ d') = polyModStep c d ^^^ polyModStep c' d' := by
  rw [← UInt64.toNat_inj, UInt64.toNat_xor, toNat_polyModStep, toNat_polyModStep,
    toNat_polyModStep, UInt64.toNat_xor, UInt8.toNat_xor, Nat.xor_mod_two_pow, mul_32_xor,
    Nat.xor_div_two_pow, reduceNat_xor]
  ac_rfl

theorem mul_32_xor_of_lt (x : ℕ) {d : ℕ} (hd : d < 32) : x * 32 ^^^ d = x * 32 + d := by
  have hd' : d < 2 ^ 5 := hd
  apply Nat.eq_of_testBit_eq
  intro j
  rw [Nat.testBit_xor, Nat.mul_comm, show 32 = 2 ^ 5 from rfl, Nat.testBit_two_pow_mul_add _ hd',
    Nat.testBit_two_pow_mul]
  by_cases hj : j < 5
  · have h5 : ¬5 ≤ j := Nat.not_le.mpr hj
    simp [h5]
  · -- above the low five bits only `x` has bits
    have hdj : d.testBit j = false := Nat.testBit_lt_two_pow
      (Nat.lt_of_lt_of_le hd' (Nat.pow_le_pow_right (by omega) (by omega)))
    simp [hj, hdj, Nat.le_of_not_lt hj]

@[simp] theorem reduceNat_zero : reduceNat 0 = 0 := by
  simp [reduceNat]

theorem ite_lt_two_pow_40 (b : Bool) {g : ℕ} (hg : g < 2 ^ 40) :
    (if b = true then g else 0) < 2 ^ 40 := by
  cases b
  · simp
  · simpa using hg

theorem reduceNat_lt (k : ℕ) : reduceNat k < 2 ^ 40 := by
  unfold reduceNat
  refine Nat.xor_lt_two_pow (Nat.xor_lt_two_pow (Nat.xor_lt_two_pow (Nat.xor_lt_two_pow
    (ite_lt_two_pow_40 _ ?_) (ite_lt_two_pow_40 _ ?_)) (ite_lt_two_pow_40 _ ?_))
    (ite_lt_two_pow_40 _ ?_)) (ite_lt_two_pow_40 _ ?_) <;> omega

/-- `PolyMod` keeps 40 bits, the eight 5-bit coefficients of a remainder modulo `g(x)`. -/
theorem polyModStep_lt (c : UInt64) {d : UInt8} (hd : d.toNat < 32) :
    (polyModStep c d).toNat < 2 ^ 40 := by
  have hlow : c.toNat % 2 ^ 35 * 32 < 2 ^ 40 := by
    have := Nat.mod_lt c.toNat (Nat.two_pow_pos 35)
    omega
  rw [toNat_polyModStep]
  exact Nat.xor_lt_two_pow (Nat.xor_lt_two_pow hlow (by omega)) (reduceNat_lt _)

/-- Below `x^7` nothing is reduced: the step appends `d` as one more 5-bit digit. -/
theorem toNat_polyModStep_of_lt {c : UInt64} {d : UInt8} (hc : c.toNat < 2 ^ 35)
    (hd : d.toNat < 32) : (polyModStep c d).toNat = c.toNat * 32 + d.toNat := by
  rw [toNat_polyModStep, Nat.mod_eq_of_lt hc, Nat.div_eq_of_lt hc, reduceNat_zero, Nat.xor_zero,
    mul_32_xor_of_lt _ hd]

theorem foldl_polyModStep_xor {ds ds' : List UInt8} (h : ds.length = ds'.length) (c c' : UInt64) :
    (List.zipWith (· ^^^ ·) ds ds').foldl polyModStep (c ^^^ c') =
      ds.foldl polyModStep c ^^^ ds'.foldl polyModStep c' := by
  -- induction on the two lists together, one step of `polyModStep_xor` each
  induction ds generalizing ds' c c' with
  | nil =>
    rw [List.length_nil, eq_comm, List.length_eq_zero_iff] at h
    subst h
    rfl
  | cons d ds ih =>
    cases ds' with
    | nil => simp at h
    | cons d' ds' =>
      rw [List.length_cons, List.length_cons, Nat.succ_inj] at h
      rw [List.zipWith_cons_cons, List.foldl_cons, polyModStep_xor, ih h, List.foldl_cons,
        List.foldl_cons]

theorem zipWith_replicate_zero_xor {cs : List UInt8} {n : ℕ} (h : cs.length = n) :
    List.zipWith (· ^^^ ·) (List.replicate n 0) cs = cs := by
  induction cs generalizing n with
  | nil => simp
  | cons c cs ih =>
    subst h
    rw [List.length_cons, List.replicate_succ, List.zipWith_cons_cons, UInt8.zero_xor, ih rfl]

/-- From a small state, the fold appends the values as 5-bit digits. -/
theorem toNat_foldl_polyModStep_of_lt {zs : List UInt8} (hzs : ∀ z ∈ zs, z.toNat < 32)
    (hlen : zs.length ≤ 8) {c : UInt64} (hc : c.toNat < 32 ^ (8 - zs.length)) :
    (zs.foldl polyModStep c).toNat = zs.foldl (fun a z => a * 32 + z.toNat) c.toNat := by
  induction zs generalizing c with
  | nil => rfl
  | cons z zs ih =>
    have hz := hzs z List.mem_cons_self
    rw [List.length_cons] at hlen hc
    have hpow : 32 ^ (8 - zs.length) = 32 ^ (8 - (zs.length + 1)) * 32 := by
      rw [← Nat.pow_succ]
      congr 1
      omega
    have hc35 : c.toNat < 2 ^ 35 := by
      have : 32 ^ (8 - (zs.length + 1)) ≤ 32 ^ 7 := Nat.pow_le_pow_right (by omega) (by omega)
      omega
    have hstep := toNat_polyModStep_of_lt hc35 hz
    simp only [List.foldl_cons]
    rw [← hstep]
    exact ih (fun z hz => hzs z (List.mem_cons_of_mem _ hz)) (by omega) (by rw [hstep, hpow]; omega)

/-- The 5-bit group `i` of `mod`, as `CreateChecksum` extracts it. -/
theorem toNat_checksumValue (m : UInt64) {i : ℕ} (hi : i < 8) :
    (((m >>> (5 * (7 - i)).toUInt64) &&& 0x1f).toUInt8).toNat = m.toNat / 32 ^ (7 - i) % 32 := by
  have hshift : (5 * (7 - i)).toUInt64.toNat % 64 = 5 * (7 - i) := by
    rw [show (5 * (7 - i)).toUInt64 = UInt64.ofNat (5 * (7 - i)) from rfl, UInt64.toNat_ofNat']
    omega
  have hmask : (0x1f : UInt64).toNat = 2 ^ 5 - 1 := rfl
  have hlt : m.toNat / 32 ^ (7 - i) % 32 < 2 ^ 8 := by omega
  rw [UInt64.toNat_toUInt8, UInt64.toNat_and, UInt64.toNat_shiftRight, hshift, hmask,
    Nat.and_two_pow_sub_one_eq_mod, Nat.shiftRight_eq_div_pow, Nat.pow_mul]
  exact Nat.mod_eq_of_lt hlt

theorem eq_of_length_eq_eight {cs : List UInt8} (h : cs.length = 8) :
    ∃ c₀ c₁ c₂ c₃ c₄ c₅ c₆ c₇, cs = [c₀, c₁, c₂, c₃, c₄, c₅, c₆, c₇] := by
  match cs, h with
  | [c₀, c₁, c₂, c₃, c₄, c₅, c₆, c₇], _ => exact ⟨c₀, c₁, c₂, c₃, c₄, c₅, c₆, c₇, rfl⟩

/-- Eight 5-bit values are the groups of a 40-bit number exactly when they pack to it. -/
theorem checksumValues_eq_iff {m : UInt64} (hm : m.toNat < 2 ^ 40) {cs : List UInt8}
    (hcs : cs.length = 8) (hcs32 : ∀ z ∈ cs, z.toNat < 32) :
    (List.range 8).map (fun i => ((m >>> (5 * (7 - i)).toUInt64) &&& 0x1f).toUInt8) = cs ↔
      cs.foldl (fun a z => a * 32 + z.toNat) 0 = m.toNat := by
  obtain ⟨c₀, c₁, c₂, c₃, c₄, c₅, c₆, c₇, rfl⟩ := eq_of_length_eq_eight hcs
  simp only [List.mem_cons, List.not_mem_nil, or_false, forall_eq_or_imp, forall_eq] at hcs32
  obtain ⟨h₀, h₁, h₂, h₃, h₄, h₅, h₆, h₇⟩ := hcs32
  simp only [List.range_succ, List.range_zero, List.nil_append, List.cons_append, List.map_cons,
    List.map_nil, List.cons.injEq, List.foldl_cons, List.foldl_nil, and_true, ← UInt8.toNat_inj,
    toNat_checksumValue m (by omega : 0 < 8), toNat_checksumValue m (by omega : 1 < 8),
    toNat_checksumValue m (by omega : 2 < 8), toNat_checksumValue m (by omega : 3 < 8),
    toNat_checksumValue m (by omega : 4 < 8), toNat_checksumValue m (by omega : 5 < 8),
    toNat_checksumValue m (by omega : 6 < 8), toNat_checksumValue m (by omega : 7 < 8)]
  simp only [Nat.reduceSub, Nat.reducePow, Nat.div_one, Nat.zero_mul, Nat.zero_add]
  constructor
  · rintro ⟨e₀, e₁, e₂, e₃, e₄, e₅, e₆, e₇⟩
    omega
  · intro h
    omega

theorem foldl_polyModStep_lt {ds : List UInt8} (hne : ds ≠ []) (hds : ∀ d ∈ ds, d.toNat < 32)
    (c : UInt64) : (ds.foldl polyModStep c).toNat < 2 ^ 40 := by
  induction ds generalizing c with
  | nil => contradiction
  | cons d ds ih =>
    rw [List.foldl_cons]
    cases ds with
    | nil => exact polyModStep_lt c (hds d List.mem_cons_self)
    | cons d' ds =>
      exact ih (List.cons_ne_nil _ _) (fun x hx => hds x (List.mem_cons_of_mem _ hx)) _

theorem xor_eq_iff {a b c : UInt64} : a ^^^ b = c ↔ b = a ^^^ c := by
  constructor
  · rintro rfl
    rw [← UInt64.xor_assoc, UInt64.xor_self, UInt64.zero_xor]
  · rintro rfl
    rw [← UInt64.xor_assoc, UInt64.xor_self, UInt64.zero_xor]

/-! ### The checksum -/

/-- **Eight 5-bit values verify after a payload exactly when they are its checksum.** By
linearity the state after them is the state after eight zeros, xor their packed value; the
checksum is that packed value which brings the state to `1`. -/
theorem verifyChecksum_append_iff {pfx payload cs : List UInt8} (hcs : cs.length = 8)
    (hcs32 : ∀ z ∈ cs, z.toNat < 32) :
    verifyChecksum pfx (payload ++ cs) = true ↔ createChecksum pfx payload = cs := by
  -- `X` is the state after the prefix and the payload
  generalize hX : (expandPrefix pfx ++ payload).foldl polyModStep 1 = X
  have hsplit : cs.foldl polyModStep X =
      (List.replicate 8 0).foldl polyModStep X ^^^ cs.foldl polyModStep 0 := by
    have hlen : (List.replicate 8 (0 : UInt8)).length = cs.length := by
      rw [List.length_replicate, hcs]
    have := foldl_polyModStep_xor hlen X 0
    rwa [zipWith_replicate_zero_xor hcs, UInt64.xor_zero] at this
  have hpack : (cs.foldl polyModStep 0).toNat = cs.foldl (fun a z => a * 32 + z.toNat) 0 :=
    toNat_foldl_polyModStep_of_lt hcs32 (by omega) (by rw [hcs]; exact Nat.one_pos)
  have hmod : polyMod (expandPrefix pfx ++ payload ++ List.replicate 8 0) =
      (List.replicate 8 0).foldl polyModStep X ^^^ 1 := by
    rw [polyMod, List.foldl_append, hX]
  have hlt : ((List.replicate 8 (0 : UInt8)).foldl polyModStep X ^^^ 1).toNat < 2 ^ 40 := by
    rw [UInt64.toNat_xor]
    exact Nat.xor_lt_two_pow (foldl_polyModStep_lt (by simp)
      (fun d hd => by rw [List.eq_of_mem_replicate hd]; decide) X) (by decide)
  rw [verifyChecksum, createChecksum, hmod, checksumValues_eq_iff hlt hcs hcs32, ← hpack, UInt64.toNat_inj, polyMod,
    ← List.append_assoc, List.foldl_append, hX, hsplit, beq_iff_eq, UInt64.xor_eq_zero_iff,
    xor_eq_iff]

/-! ### Characters -/

/-- A letter or a digit: what the first loop of `Decode` accepts besides the separator. -/
def isAlnum (c : UInt8) : Bool := isLower c || isUpper c || isDigit c

/-- `CHARSET[c]`. -/
def charsetAt (c : UInt8) : UInt8 := charset.getD c.toNat 0

theorem isLower_iff {c : UInt8} : isLower c = true ↔ 97 ≤ c.toNat ∧ c.toNat ≤ 122 := by
  simp only [isLower, Bool.and_eq_true, decide_eq_true_eq, UInt8.le_iff_toNat_le]
  rfl

theorem isUpper_iff {c : UInt8} : isUpper c = true ↔ 65 ≤ c.toNat ∧ c.toNat ≤ 90 := by
  simp only [isUpper, Bool.and_eq_true, decide_eq_true_eq, UInt8.le_iff_toNat_le]
  rfl

theorem isDigit_iff {c : UInt8} : isDigit c = true ↔ 48 ≤ c.toNat ∧ c.toNat ≤ 57 := by
  simp only [isDigit, Bool.and_eq_true, decide_eq_true_eq, UInt8.le_iff_toNat_le]
  rfl

/-- A letter or a digit is in exactly one of the three classes. -/
theorem classes_of_isAlnum {c : UInt8} (hc : isAlnum c = true) :
    isLower c = true ∧ isUpper c = false ∧ isDigit c = false ∨
      isLower c = false ∧ isUpper c = true ∧ isDigit c = false ∨
      isLower c = false ∧ isUpper c = false ∧ isDigit c = true := by
  simp only [isAlnum, Bool.or_eq_true] at hc
  simp only [← Bool.not_eq_true, isLower_iff, isUpper_iff, isDigit_iff] at hc ⊢
  omega

theorem isUpper_eq_false_of_isLower {c : UInt8} (h : isLower c = true) : isUpper c = false := by
  rw [Bool.eq_false_iff]
  intro h'
  rw [isLower_iff] at h
  rw [isUpper_iff] at h'
  omega

theorem isLower_eq_false_of_isUpper {c : UInt8} (h : isUpper c = true) : isLower c = false := by
  rw [Bool.eq_false_iff]
  intro h'
  rw [isUpper_iff] at h
  rw [isLower_iff] at h'
  omega

theorem lt_128_of_isAlnum {c : UInt8} (hc : isAlnum c = true ∨ c = ':'.toUInt8) :
    c.toNat < 128 := by
  rcases hc with hc | rfl
  · rw [isAlnum, Bool.or_eq_true, Bool.or_eq_true, isLower_iff, isUpper_iff, isDigit_iff] at hc
    omega
  · exact Nat.lt_of_sub_eq_succ rfl

/-- The characters of `CHARSET` are lower case letters and digits, and `CHARSET_REV` reads them
back in either case. -/
theorem charset_table : ∀ n < 32, (let ch := charset.getD n 0
    (isLower ch || isDigit ch) && !isUpper ch && decodeValue ch == some n.toUInt8 &&
      (isUpper (toUpper ch) || isDigit (toUpper ch)) && !isLower (toUpper ch) &&
      decodeValue (toUpper ch) == some n.toUInt8) = true := by
  decide

theorem charsetAt_spec {x : UInt8} (hx : x.toNat < 32) :
    (isLower (charsetAt x) || isDigit (charsetAt x)) = true ∧ isUpper (charsetAt x) = false ∧
      decodeValue (charsetAt x) = some x ∧
      (isUpper (toUpper (charsetAt x)) || isDigit (toUpper (charsetAt x))) = true ∧
      isLower (toUpper (charsetAt x)) = false ∧ decodeValue (toUpper (charsetAt x)) = some x := by
  have h := charset_table x.toNat hx
  simp only [Bool.and_eq_true, Bool.not_eq_true', beq_iff_eq, UInt8.ofNat_toNat] at h
  obtain ⟨⟨⟨⟨⟨h₁, h₂⟩, h₃⟩, h₄⟩, h₅⟩, h₆⟩ := h
  exact ⟨h₁, h₂, h₃, h₄, h₅, h₆⟩

/-- `CHARSET_REV` reads a character as the value whose character in `CHARSET` is its lower
case. -/
theorem charsetRev_table : ∀ n < 128, (decodeValue n.toUInt8).all (fun r =>
    decide (r.toNat < 32) && charsetAt r == toLower n.toUInt8) = true := by
  decide

theorem decodeValue_eq_some {c r : UInt8} (h : decodeValue c = some r) :
    r.toNat < 32 ∧ charsetAt r = toLower c := by
  have hc : c.toNat < 128 := by
    -- above `127` the table is not read
    apply Nat.lt_of_not_le
    intro hc
    have hgt : c > 127 := by
      rw [gt_iff_lt, UInt8.lt_iff_toNat_lt]
      exact hc
    rw [decodeValue, if_pos hgt] at h
    contradiction
  have ht := charsetRev_table c.toNat hc
  simpa only [UInt8.ofNat_toNat, h, Option.all_some, Bool.and_eq_true, decide_eq_true_eq,
    beq_iff_eq] using ht

/-- On lower case letters `LowerCase` is the identity and undoes `ToUpper`; on the characters
`Decode` accepts it is `ToLower`. -/
theorem case_table : ∀ n < 128, (let c := n.toUInt8
    (!isLower c || lowerCase c == c && isUpper (toUpper c) && lowerCase (toUpper c) == c) &&
      (!(isAlnum c || c == ':'.toUInt8) || lowerCase c == toLower c)) = true := by
  decide

theorem lowerCase_of_isLower {c : UInt8} (hc : isLower c = true) :
    lowerCase c = c ∧ isUpper (toUpper c) = true ∧ lowerCase (toUpper c) = c := by
  have hlt : c.toNat < 128 := lt_128_of_isAlnum (Or.inl (by rw [isAlnum, hc]; rfl))
  have h := case_table c.toNat hlt
  simp only [UInt8.ofNat_toNat, hc, Bool.not_true, Bool.false_or, Bool.and_eq_true, beq_iff_eq] at h
  obtain ⟨⟨⟨h₁, h₂⟩, h₃⟩, -⟩ := h
  exact ⟨h₁, h₂, h₃⟩

theorem lowerCase_eq_toLower {c : UInt8} (hc : isAlnum c = true ∨ c = ':'.toUInt8) :
    lowerCase c = toLower c := by
  have h := case_table c.toNat (lt_128_of_isAlnum hc)
  have hc' : (isAlnum c || c == ':'.toUInt8) = true := by
    rcases hc with hc | rfl
    · rw [hc, Bool.true_or]
    · rw [beq_self_eq_true, Bool.or_true]
  simp only [UInt8.ofNat_toNat, hc', Bool.not_true, Bool.false_or, Bool.and_eq_true, beq_iff_eq] at h
  exact h.2

/-! ### The first loop of `Decode` -/

/-- A letter or a digit sets the flag of its class. -/
theorem scanChar_of_isAlnum {c : UInt8} (hc : isAlnum c = true) (st : ScanState) (i : ℕ) :
    scanChar st i c = some
      { st with
        lower := st.lower || isLower c
        upper := st.upper || isUpper c
        hasNumber := st.hasNumber || isDigit c } := by
  rcases classes_of_isAlnum hc with ⟨hL, hU, hD⟩ | ⟨hL, hU, hD⟩ | ⟨hL, hU, hD⟩ <;>
    simp [scanChar, hL, hU, hD]

theorem scanChar_colon (st : ScanState) (i : ℕ) :
    scanChar st i ':'.toUInt8 = if st.hasNumber || i == 0 || st.prefixSize != 0 then none
      else some { st with prefixSize := i } := rfl

theorem scan_append (st : ScanState) (i : ℕ) (l l' : List UInt8) :
    scan st i (l ++ l') = (scan st i l).bind fun st => scan st (i + l.length) l' := by
  induction l generalizing st i with
  | nil => rfl
  | cons c l ih =>
    rw [List.cons_append, scan, scan, Option.bind_assoc]
    congr 1
    funext st'
    rw [ih, List.length_cons, Nat.add_right_comm, Nat.add_assoc]

/-- Over letters and digits the loop only collects the classes it has seen. -/
theorem scan_of_isAlnum {l : List UInt8} (hl : ∀ c ∈ l, isAlnum c = true) (st : ScanState)
    (i : ℕ) :
    scan st i l = some
      { st with
        lower := st.lower || l.any isLower
        upper := st.upper || l.any isUpper
        hasNumber := st.hasNumber || l.any isDigit } := by
  induction l generalizing st i with
  | nil => simp [scan]
  | cons c l ih =>
    rw [List.forall_mem_cons] at hl
    rw [scan, scanChar_of_isAlnum hl.1, Option.bind_some, ih hl.2]
    simp only [List.any_cons, Bool.or_assoc]

/-- The loop on a prefix of letters, the separator and a data part of letters and digits. -/
theorem scan_prefixed {pfx data : List UInt8} (hpfx : pfx ≠ [])
    (hp : ∀ c ∈ pfx, isLower c = true ∨ isUpper c = true) (hd : ∀ c ∈ data, isAlnum c = true) :
    scan ⟨false, false, false, 0⟩ 0 (pfx ++ [':'.toUInt8] ++ data) =
      some ⟨pfx.any isLower || data.any isLower, pfx.any isUpper || data.any isUpper,
        data.any isDigit, pfx.length⟩ := by
  have hpA : ∀ c ∈ pfx, isAlnum c = true := fun c hc => by
    rcases hp c hc with h | h <;> simp [isAlnum, h]
  -- no digit before the separator
  have hnum : pfx.any isDigit = false := by
    rw [List.any_eq_false]
    intro c hc
    rcases classes_of_isAlnum (hpA c hc) with ⟨-, -, hD⟩ | ⟨-, -, hD⟩ | ⟨hL, hU, -⟩
    · exact Bool.eq_false_iff.mp hD
    · exact Bool.eq_false_iff.mp hD
    · rcases hp c hc with h | h
      · exact absurd h (Bool.eq_false_iff.mp hL)
      · exact absurd h (Bool.eq_false_iff.mp hU)
  have hlen : pfx.length ≠ 0 := fun h => hpfx (List.length_eq_zero_iff.mp h)
  rw [scan_append, scan_append, scan_of_isAlnum hpA, Option.bind_some]
  simp [scan, scanChar_colon, hnum, hlen, scan_of_isAlnum hd]

/-- One accepted character: a letter or a digit, or the first separator, past position `0`. -/
theorem scanChar_eq_some {st st' : ScanState} {i : ℕ} {c : UInt8}
    (h : scanChar st i c = some st') :
    isAlnum c = true ∧ c ≠ ':'.toUInt8 ∧ st'.prefixSize = st.prefixSize ∨
      c = ':'.toUInt8 ∧ st.prefixSize = 0 ∧ i ≠ 0 ∧ st'.prefixSize = i := by
  rw [scanChar] at h
  split_ifs at h with hL hU hD hcolon hbad <;> cases h
  -- a letter or a digit is not the separator
  · exact Or.inl ⟨by simp [isAlnum, hL], fun h => absurd (h ▸ hL) (by decide), rfl⟩
  · exact Or.inl ⟨by simp [isAlnum, hU], fun h => absurd (h ▸ hU) (by decide), rfl⟩
  · exact Or.inl ⟨by simp [isAlnum, hD], fun h => absurd (h ▸ hD) (by decide), rfl⟩
  · simp only [Bool.or_eq_true, beq_iff_eq, bne_iff_ne, ne_eq, not_or, not_not] at hbad
    exact Or.inr ⟨hcolon, hbad.2, hbad.1.2, rfl⟩

/-- **What the first loop of `Decode` accepts.** Every character is a letter, a digit or the
separator, and the recorded prefix size is either unchanged, with no separator read, or the
position of the one separator the loop has read. -/
theorem scan_eq_some {st st' : ScanState} {i : ℕ} {l : List UInt8} (h : scan st i l = some st') :
    (∀ c ∈ l, isAlnum c = true ∨ c = ':'.toUInt8) ∧
      (st'.prefixSize = st.prefixSize ∧ ':'.toUInt8 ∉ l ∨
        st.prefixSize = 0 ∧ i ≤ st'.prefixSize ∧ st'.prefixSize ≠ 0 ∧
          l[st'.prefixSize - i]? = some ':'.toUInt8) := by
  induction l generalizing st i with
  | nil =>
    cases h
    exact ⟨fun _ h => absurd h List.not_mem_nil, Or.inl ⟨rfl, List.not_mem_nil⟩⟩
  | cons c l ih =>
    rw [scan, Option.bind_eq_some_iff] at h
    obtain ⟨st₁, hc, hl⟩ := h
    obtain ⟨hall, hps⟩ := ih hl
    refine ⟨List.forall_mem_cons.mpr ⟨?_, hall⟩, ?_⟩
    · rcases scanChar_eq_some hc with ⟨hA, -⟩ | ⟨hcolon, -⟩
      · exact Or.inl hA
      · exact Or.inr hcolon
    rcases scanChar_eq_some hc with ⟨-, hne, hps₁⟩ | ⟨rfl, hps₀, hi, hps₁⟩
    · -- a letter or a digit: the separator, if any, is in the rest
      rcases hps with ⟨heq, hnot⟩ | ⟨h₀, hle, hne', hget⟩
      · exact Or.inl ⟨heq.trans hps₁, by simp [hne.symm, hnot]⟩
      · refine Or.inr ⟨hps₁ ▸ h₀, by omega, hne', ?_⟩
        rw [show st'.prefixSize - i = st'.prefixSize - (i + 1) + 1 by omega,
          List.getElem?_cons_succ, hget]
    · -- the separator at position `i`
      rcases hps with ⟨heq, -⟩ | ⟨h₀, -⟩
      · refine Or.inr ⟨hps₀, by omega, by omega, ?_⟩
        rw [heq, hps₁, Nat.sub_self, List.getElem?_cons_zero]
      · omega

/-! ### `mapM` into `Option` -/

section MapM

variable {α β γ : Type}

theorem mapM_eq_some_map {f : α → Option β} {g : α → β} {l : List α}
    (h : ∀ x ∈ l, f x = some (g x)) : l.mapM f = some (l.map g) := by
  induction l with
  | nil => rfl
  | cons x l ih =>
    rw [List.forall_mem_cons] at h
    rw [List.mapM_cons, h.1, ih h.2]
    rfl

/-- A left inverse maps a list back through `mapM`. -/
theorem mapM_map_eq_some {f : α → β} {g : β → Option α} {l : List α}
    (h : ∀ x ∈ l, g (f x) = some x) : (l.map f).mapM g = some l := by
  have h' : ∀ x ∈ l, (g ∘ f) x = some (id x) := h
  rw [List.mapM_map, mapM_eq_some_map h', List.map_id]

theorem map_eq_of_mapM_eq_some {f : α → Option β} {g : β → γ} {k : α → γ}
    (hf : ∀ x y, f x = some y → g y = k x) {l : List α} {ys : List β}
    (h : l.mapM f = some ys) : ys.map g = l.map k := by
  induction l generalizing ys with
  | nil =>
    cases h
    rfl
  | cons x l ih =>
    rw [List.mapM_cons, Option.bind_eq_bind, Option.bind_eq_some_iff] at h
    obtain ⟨y, hy, h⟩ := h
    rw [Option.bind_eq_bind, Option.bind_eq_some_iff] at h
    obtain ⟨ys', hys', h⟩ := h
    cases h
    rw [List.map_cons, List.map_cons, hf x y hy, ih hys']

theorem forall_mem_of_mapM_eq_some {f : α → Option β} {P : β → Prop}
    (hf : ∀ x y, f x = some y → P y) {l : List α} {ys : List β} (h : l.mapM f = some ys) :
    ∀ y ∈ ys, P y := by
  induction l generalizing ys with
  | nil =>
    cases h
    exact fun _ h => absurd h List.not_mem_nil
  | cons x l ih =>
    rw [List.mapM_cons, Option.bind_eq_bind, Option.bind_eq_some_iff] at h
    obtain ⟨y, hy, h⟩ := h
    rw [Option.bind_eq_bind, Option.bind_eq_some_iff] at h
    obtain ⟨ys', hys', h⟩ := h
    cases h
    exact List.forall_mem_cons.mpr ⟨hf x y hy, ih hys'⟩

end MapM

/-! ### `Decode` -/

/-- The path of `Decode` that returns a prefix and the values before the checksum. -/
theorem decode_of_scan {str d p values : List UInt8} {st : ScanState}
    (hscan : scan ⟨false, false, false, 0⟩ 0 str = some st) (hcase : (st.upper && st.lower) = false)
    (hpfx : (if st.prefixSize = 0 then d else (str.take st.prefixSize).map lowerCase) = p)
    (hvalues : (str.drop (if st.prefixSize = 0 then 0 else st.prefixSize + 1)).mapM decodeValue =
      some values)
    (hverify : verifyChecksum p values = true) (hlen : 8 ≤ values.length) :
    decode str d = some (p, values.take (values.length - 8)) := by
  rw [decode, hscan]
  dsimp only
  rw [hcase, hvalues, hpfx]
  simp [hverify, Nat.not_lt.mpr hlen]

/-- Every rejection of `Decode` returns the empty pair, so any other result comes from the path
of `decode_of_scan`. -/
theorem decode_eq_some {str d p v : List UInt8} (h : decode str d = some (p, v))
    (hp : (p, v) ≠ ([], [])) :
    ∃ st values, scan ⟨false, false, false, 0⟩ 0 str = some st ∧ (st.upper && st.lower) = false ∧
      (if st.prefixSize = 0 then d else (str.take st.prefixSize).map lowerCase) = p ∧
      (str.drop (if st.prefixSize = 0 then 0 else st.prefixSize + 1)).mapM decodeValue =
        some values ∧
      verifyChecksum p values = true ∧ 8 ≤ values.length ∧ values.take (values.length - 8) = v := by
  have hrej : some ([], []) ≠ some (p, v) := fun h => hp (Option.some.inj h).symm
  rw [decode] at h
  split at h
  · exact absurd h hrej
  · rename_i st hscan
    dsimp only at h
    by_cases hcase : (st.upper && st.lower) = true
    · rw [if_pos hcase] at h
      exact absurd h hrej
    rw [if_neg hcase] at h
    cases hvalues : (str.drop (if st.prefixSize = 0 then 0 else st.prefixSize + 1)).mapM
      decodeValue with
    | none =>
      rw [hvalues] at h
      exact absurd h hrej
    | some values =>
      rw [hvalues] at h
      dsimp only at h
      by_cases hverify : verifyChecksum (if st.prefixSize = 0 then d
        else (str.take st.prefixSize).map lowerCase) values = true
      · by_cases hlen : values.length < 8
        · rw [if_neg (by simpa using hverify), if_pos hlen] at h
          contradiction
        · rw [if_neg (by simpa using hverify), if_neg hlen] at h
          injection h with h
          cases h
          exact ⟨st, values, hscan, by simpa using hcase, rfl, hvalues, hverify,
            Nat.le_of_not_lt hlen, rfl⟩
      · rw [if_pos (by simpa using hverify)] at h
        exact absurd h hrej

/-- The values `Decode` returns are 5-bit values. -/
theorem decode_values_lt {str d p v : List UInt8} (h : decode str d = some (p, v))
    (hp : (p, v) ≠ ([], [])) : ∀ x ∈ v, x.toNat < 32 := by
  obtain ⟨st, values, -, -, -, hvalues, -, -, rfl⟩ := decode_eq_some h hp
  intro x hx
  exact forall_mem_of_mapM_eq_some (fun _ _ h => (decodeValue_eq_some h).1) hvalues x
    (List.mem_of_mem_take hx)

/-! ### `Encode` -/

theorem length_createChecksum (pfx payload : List UInt8) :
    (createChecksum pfx payload).length = 8 := by
  simp only [createChecksum, List.length_map, List.length_range]

theorem createChecksum_lt (pfx payload : List UInt8) :
    ∀ z ∈ createChecksum pfx payload, z.toNat < 32 := by
  intro z hz
  simp only [createChecksum, List.mem_map, List.mem_range] at hz
  obtain ⟨i, hi, rfl⟩ := hz
  rw [toNat_checksumValue _ hi]
  exact Nat.mod_lt _ (by omega)

theorem getElem?_charset {c : UInt8} (hc : c.toNat < 32) : charset[c.toNat]? = some (charsetAt c) := by
  have hlen : c.toNat < charset.length := by
    rw [show charset.length = 33 from rfl]
    omega
  rw [charsetAt, List.getD_eq_getElem?_getD, List.getElem?_eq_getElem hlen, Option.getD_some]

/-- `Encode` writes the prefix, the separator and the character of each value of the payload and
its checksum. -/
theorem encode_eq_some {pfx payload : List UInt8} (hpay : ∀ x ∈ payload, x.toNat < 32) :
    encode pfx payload =
      some (pfx ++ [':'.toUInt8] ++ (payload ++ createChecksum pfx payload).map charsetAt) := by
  have hvals : ∀ x ∈ payload ++ createChecksum pfx payload, x.toNat < 32 := by
    intro x hx
    rcases List.mem_append.mp hx with hx | hx
    · exact hpay x hx
    · exact createChecksum_lt pfx payload x hx
  rw [encode, mapM_eq_some_map fun x hx => getElem?_charset (hvals x hx), Option.map_some]

/-! ### Round trips -/

/-- `Decode` returns a payload from a string whose values are the payload and its checksum. -/
theorem decode_of_values {str d pfx payload : List UInt8} {st : ScanState}
    (hscan : scan ⟨false, false, false, 0⟩ 0 str = some st) (hcase : (st.upper && st.lower) = false)
    (hpfx : (if st.prefixSize = 0 then d else (str.take st.prefixSize).map lowerCase) = pfx)
    (hvalues : (str.drop (if st.prefixSize = 0 then 0 else st.prefixSize + 1)).mapM decodeValue =
      some (payload ++ createChecksum pfx payload)) :
    decode str d = some (pfx, payload) := by
  have hlen := length_createChecksum pfx payload
  have h := decode_of_scan hscan hcase hpfx hvalues
    ((verifyChecksum_append_iff hlen (createChecksum_lt pfx payload)).mpr rfl)
    (by rw [List.length_append]; omega)
  rwa [List.length_append, hlen, Nat.add_sub_cancel, List.take_left] at h

/-- **`Decode` reads back what `Encode` writes**, in either case, and without its prefix when the
default prefix is that prefix. -/
theorem decode_encode {pfx payload : List UInt8} (hpfx : pfx ≠ [])
    (hlow : ∀ c ∈ pfx, isLower c = true) (hpay : ∀ x ∈ payload, x.toNat < 32) (d : List UInt8) :
    let data := (payload ++ createChecksum pfx payload).map charsetAt
    decode (pfx ++ [':'.toUInt8] ++ data) d = some (pfx, payload) ∧
      decode ((pfx ++ [':'.toUInt8] ++ data).map toUpper) d = some (pfx, payload) ∧
      decode data pfx = some (pfx, payload) := by
  intro data
  have hvals : ∀ x ∈ payload ++ createChecksum pfx payload, x.toNat < 32 := by
    intro x hx
    rcases List.mem_append.mp hx with hx | hx
    · exact hpay x hx
    · exact createChecksum_lt pfx payload x hx
  -- the characters of the data part, in lower and in upper case
  have hdata : ∀ c ∈ data, isAlnum c = true ∧ isUpper c = false := by
    intro c hc
    obtain ⟨x, hx, rfl⟩ := List.mem_map.mp hc
    obtain ⟨h₁, h₂, -⟩ := charsetAt_spec (hvals x hx)
    rw [Bool.or_eq_true] at h₁
    exact ⟨by rcases h₁ with h | h <;> simp [isAlnum, h], h₂⟩
  have hdataU : ∀ c ∈ data.map toUpper, isAlnum c = true ∧ isLower c = false := by
    intro c hc
    obtain ⟨x, hx, rfl⟩ := List.mem_map.mp (List.map_map ▸ hc)
    obtain ⟨-, -, -, h₁, h₂, -⟩ := charsetAt_spec (hvals x hx)
    rw [Bool.or_eq_true] at h₁
    exact ⟨by rcases h₁ with h | h <;> simp [isAlnum, h], h₂⟩
  have hvalues : data.mapM decodeValue = some (payload ++ createChecksum pfx payload) :=
    mapM_map_eq_some fun x hx => (charsetAt_spec (hvals x hx)).2.2.1
  have hvaluesU :
      (data.map toUpper).mapM decodeValue = some (payload ++ createChecksum pfx payload) := by
    rw [List.map_map]
    exact mapM_map_eq_some fun x hx => (charsetAt_spec (hvals x hx)).2.2.2.2.2
  have hlen : pfx.length ≠ 0 := fun h => hpfx (List.length_eq_zero_iff.mp h)
  have hsep : ∀ l : List UInt8, (l ++ [':'.toUInt8]).length = l.length + 1 := fun l => by
    rw [List.length_append, List.length_singleton]
  refine ⟨?_, ?_, ?_⟩
  · -- lower case: the prefix reads as itself
    have hupper : (pfx.any isUpper || data.any isUpper) = false := by
      rw [Bool.or_eq_false_iff, List.any_eq_false, List.any_eq_false]
      exact ⟨fun c hc => Bool.eq_false_iff.mp (isUpper_eq_false_of_isLower (hlow c hc)),
        fun c hc => Bool.eq_false_iff.mp (hdata c hc).2⟩
    refine decode_of_values (scan_prefixed hpfx (fun c hc => Or.inl (hlow c hc))
      (fun c hc => (hdata c hc).1)) ?_ ?_ ?_
    · simp only [hupper, Bool.false_and]
    · dsimp only
      rw [if_neg hlen, List.append_assoc, List.take_left]
      exact (List.map_congr_left fun c hc => (lowerCase_of_isLower (hlow c hc)).1).trans
        (List.map_id _)
    · dsimp only
      rw [if_neg hlen, List.drop_left' (hsep pfx), hvalues]
  · -- upper case: `LowerCase` undoes `ToUpper` on the prefix
    have hmap : (pfx ++ [':'.toUInt8] ++ data).map toUpper =
        pfx.map toUpper ++ [':'.toUInt8] ++ data.map toUpper := by
      rw [List.map_append, List.map_append, List.map_singleton]
      rfl
    have hpfxU : pfx.map toUpper ≠ [] := fun h => hpfx (List.map_eq_nil_iff.mp h)
    have hupU : ∀ c ∈ pfx.map toUpper, isUpper c = true := by
      intro c hc
      obtain ⟨x, hx, rfl⟩ := List.mem_map.mp hc
      exact (lowerCase_of_isLower (hlow x hx)).2.1
    have hlower : ((pfx.map toUpper).any isLower || (data.map toUpper).any isLower) = false := by
      rw [Bool.or_eq_false_iff, List.any_eq_false, List.any_eq_false]
      exact ⟨fun c hc => Bool.eq_false_iff.mp (isLower_eq_false_of_isUpper (hupU c hc)),
        fun c hc => Bool.eq_false_iff.mp (hdataU c hc).2⟩
    have hlenU : (pfx.map toUpper).length ≠ 0 := by
      rw [List.length_map]
      exact hlen
    rw [hmap]
    refine decode_of_values (scan_prefixed hpfxU (fun c hc => Or.inr (hupU c hc))
      (fun c hc => (hdataU c hc).1)) ?_ ?_ ?_
    · simp only [hlower, Bool.and_false]
    · dsimp only
      rw [if_neg hlenU, List.append_assoc, List.take_left, List.map_map]
      exact (List.map_congr_left fun c hc => (lowerCase_of_isLower (hlow c hc)).2.2).trans
        (List.map_id _)
    · dsimp only
      rw [if_neg hlenU, List.drop_left' (hsep _), hvaluesU]
  · -- the data part alone: no separator, so the default prefix
    have hupper : data.any isUpper = false := by
      rw [List.any_eq_false]
      exact fun c hc => Bool.eq_false_iff.mp (hdata c hc).2
    refine decode_of_values (scan_of_isAlnum (fun c hc => (hdata c hc).1) _ 0) ?_ ?_ ?_
    · simp only [hupper, Bool.or_false, Bool.false_and]
    · rw [if_pos rfl]
    · rw [if_pos rfl, List.drop_zero, hvalues]

/-- **What `Decode` accepts, `Encode` writes back** in lower case: the whole string where it had a
prefix, and after the default prefix and the separator where it had none. -/
theorem encode_of_decode {str d p v : List UInt8} (h : decode str d = some (p, v))
    (hp : (p, v) ≠ ([], [])) :
    (':'.toUInt8 ∈ str → encode p v = some (str.map toLower)) ∧
      (':'.toUInt8 ∉ str → encode p v = some (p ++ [':'.toUInt8] ++ str.map toLower)) := by
  obtain ⟨st, values, hscan, -, hpfx, hvalues, hverify, hlen, hv⟩ := decode_eq_some h hp
  -- the values are the payload and eight more, which verify as its checksum
  have hvals : ∀ x ∈ values, x.toNat < 32 :=
    forall_mem_of_mapM_eq_some (fun _ _ h => (decodeValue_eq_some h).1) hvalues
  have hsplit : v ++ values.drop (values.length - 8) = values := by
    rw [← hv, List.take_append_drop]
  have hcslen : (values.drop (values.length - 8)).length = 8 := by
    rw [List.length_drop]
    omega
  have hcs : createChecksum p v = values.drop (values.length - 8) :=
    (verifyChecksum_append_iff hcslen fun z hz => hvals z (List.mem_of_mem_drop hz)).mp
      (by rw [hsplit]; exact hverify)
  have hpay : ∀ x ∈ v, x.toNat < 32 := fun x hx => hvals x (hsplit ▸ List.mem_append_left _ hx)
  have hchars := map_eq_of_mapM_eq_some (fun _ _ h => (decodeValue_eq_some h).2) hvalues
  have henc : encode p v = some (p ++ [':'.toUInt8] ++
      (str.drop (if st.prefixSize = 0 then 0 else st.prefixSize + 1)).map toLower) := by
    rw [encode_eq_some hpay, hcs, hsplit, hchars]
  obtain ⟨hacc, hps⟩ := scan_eq_some hscan
  rcases hps with ⟨hps, hnot⟩ | ⟨-, -, hne, hget⟩
  · -- no separator: the default prefix
    rw [if_pos hps, List.drop_zero] at henc
    exact ⟨fun h => absurd h hnot, fun _ => henc⟩
  · -- the prefix is `LowerCase` of the characters before the separator
    rw [Nat.sub_zero] at hget
    rw [if_neg hne] at henc hpfx
    refine ⟨fun _ => ?_, fun h => absurd (List.mem_of_getElem? hget) h⟩
    obtain ⟨hlt, hcolon⟩ := List.getElem?_eq_some_iff.mp hget
    have hlow : (str.take st.prefixSize).map lowerCase = (str.take st.prefixSize).map toLower :=
      List.map_congr_left fun c hc => lowerCase_eq_toLower (hacc c (List.mem_of_mem_take hc))
    have hstr : str = str.take st.prefixSize ++ ':'.toUInt8 :: str.drop (st.prefixSize + 1) := by
      rw [← hcolon, ← List.drop_eq_getElem_cons hlt, List.take_append_drop]
    rw [henc, ← hpfx, hlow]
    conv_rhs => rw [hstr]
    rw [List.map_append, List.map_cons, List.append_assoc, List.singleton_append]
    rfl

/-- CashAddr strings round-trip through `Encode` and `Decode`, in either case and without the
prefix, and `Decode` accepts only what `Encode` writes, up to case and the default prefix. -/
theorem cashaddr_roundtrip :
    (∀ pfx payload d : List UInt8, pfx ≠ [] → (∀ c ∈ pfx, isLower c = true) →
      (∀ x ∈ payload, x.toNat < 32) →
      ∃ str, encode pfx payload = some str ∧ decode str d = some (pfx, payload) ∧
        decode (str.map toUpper) d = some (pfx, payload) ∧
        decode (str.drop (pfx.length + 1)) pfx = some (pfx, payload)) ∧
    (∀ str d p v : List UInt8, decode str d = some (p, v) → p ≠ [] →
      (':'.toUInt8 ∈ str → encode p v = some (str.map toLower)) ∧
      (':'.toUInt8 ∉ str → encode p v = some (p ++ [':'.toUInt8] ++ str.map toLower))) := by
  refine ⟨fun pfx payload d hpfx hlow hpay => ?_, fun _ _ _ _ h hp =>
    encode_of_decode h fun h' => hp (congrArg Prod.fst h')⟩
  obtain ⟨hlower, hupper, hdata⟩ := decode_encode hpfx hlow hpay d
  have hdrop : (pfx ++ [':'.toUInt8] ++ (payload ++ createChecksum pfx payload).map charsetAt).drop
      (pfx.length + 1) = (payload ++ createChecksum pfx payload).map charsetAt := by
    rw [List.drop_left']
    rw [List.length_append, List.length_singleton]
  exact ⟨_, encode_eq_some hpay, hlower, hupper, by rw [hdrop]; exact hdata⟩

set_option maxRecDepth 20000 in
/-- The test vectors `p:gpf8m4h7` and `PREFIX:X64NX6HZ` of `cashaddr_tests.cpp`. -/
theorem cashaddr_roundtrip_testvectors :
    (∃ str, encode ("p".toList.map Char.toUInt8) [] = some str ∧
      decode str [] = some ("p".toList.map Char.toUInt8, []) ∧
      decode (str.map toUpper) [] = some ("p".toList.map Char.toUInt8, []) ∧
      decode (str.drop (1 + 1)) ("p".toList.map Char.toUInt8) =
        some ("p".toList.map Char.toUInt8, [])) ∧
    (':'.toUInt8 ∈ "PREFIX:X64NX6HZ".toList.map Char.toUInt8 →
      encode ("prefix".toList.map Char.toUInt8) [] =
        some (("PREFIX:X64NX6HZ".toList.map Char.toUInt8).map toLower)) :=
  ⟨cashaddr_roundtrip.1 _ [] [] (by decide) (by decide) (by decide),
    (cashaddr_roundtrip.2 _ [] _ [] (by decide +kernel) (by decide)).1⟩

end CashAddr

end BitcoinCash
