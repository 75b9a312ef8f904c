import Mathlib
import BitcoinCash.Util.ConvertBits

/-!
# Base64 and Base32

`EncodeBase64` and `EncodeBase32` of `util/strencodings.cpp` cut the input's bits into groups of
six or five with `ConvertBits<8, 6, true>` or `ConvertBits<8, 5, true>`, write the alphabet's
character of each group and add `'='` up to a multiple of four or eight characters (Base32 only
when `pad`). `DecodeBase64` and `DecodeBase32` read a C string: the characters their table gives a
value, converted back by `ConvertBits<6, 8, false>` or `ConvertBits<5, 8, false>`, then only `'='`.
The result is valid when the conversion is, the length is a multiple of the group and fewer than a
group of `'='` follow.

The two pairs differ only in the alphabet, the table, the widths and the group, so they are one
encoder and one decoder applied to a `Code`. Decoding an encoding gives the input back, valid
(`decodeBase_encodeBase`), for every `Code` whose table reads its alphabet back (`Code.Valid`).
-/

namespace BitcoinCash

namespace BaseEncoding

open ConvertBits

/-- The alphabet, the decoding table (`-1` for a character that is none), the widths of the
encoder's `ConvertBits` and the characters of a padded group. -/
structure Code where
  alphabet : List UInt8
  table : UInt8 → ℤ
  widths : Widths
  group : ℕ

/-- The character `'='`. -/
def padChar : UInt8 := '='.toUInt8

/-- `EncodeBase64(input)` and `EncodeBase32(input, pad)`: the character of each value `ConvertBits`
writes, then, with `pad`, as many `'='` as `while (str.size() % group)` adds. -/
def encodeBase (c : Code) (pad : Bool) (input : List UInt8) : List UInt8 :=
  let str := (convertBits c.widths true input).1.map fun v => c.alphabet.getD v.toNat 0
  if pad then str ++ List.replicate ((c.group - str.length % c.group) % c.group) padChar else str

/-- `DecodeBase64(p, pfInvalid)` and `DecodeBase32(p, pfInvalid)`: the bytes, and
`!*pfInvalid`. -/
def decodeBase (c : Code) (p : List UInt8) : List UInt8 × Bool :=
  -- the C string `p` ends at its first zero byte
  let s := p.takeWhile (· ≠ 0)
  let chars := s.takeWhile (c.table · ≠ -1)
  let (ret, valid) := convertBits c.widths.swap false (chars.map fun ch => (c.table ch).toNat.toUInt8)
  let rest := s.drop chars.length
  (ret, valid && rest.all (· = padChar) && s.length % c.group = 0 && rest.length < c.group)

/-- `pbase64`. -/
def pbase64 : List UInt8 :=
  "ABCDEFGHIJKLMNOPQRSTUVWXYZabcdefghijklmnopqrstuvwxyz0123456789+/".toList.map Char.toUInt8

/-- `decode64_table`: `'A'` to `'Z'` are `0` to `25`, `'a'` to `'z'` are `26` to `51`, `'0'` to
`'9'` are `52` to `61`, `'+'` is `62`, `'/'` is `63`, every other byte `-1`. -/
def decode64Table (ch : UInt8) : ℤ :=
  if 65 ≤ ch ∧ ch ≤ 90 then ch.toNat - 65
  else if 97 ≤ ch ∧ ch ≤ 122 then ch.toNat - 71
  else if 48 ≤ ch ∧ ch ≤ 57 then ch.toNat + 4
  else if ch = 43 then 62
  else if ch = 47 then 63
  else -1

theorem eight_pos : 0 < 8 := by decide

theorem six_pos : 0 < 6 := by decide

theorem eight_add_six_le : 8 + 6 ≤ 64 := by decide

def base64 : Code := ⟨pbase64, decode64Table, ⟨8, 6, eight_pos, six_pos, eight_add_six_le⟩, 4⟩

/-- `EncodeBase64(input)`. -/
def encodeBase64 (input : List UInt8) : List UInt8 := encodeBase base64 true input

/-- `DecodeBase64(p, pfInvalid)`. -/
def decodeBase64 (p : List UInt8) : List UInt8 × Bool := decodeBase base64 p

/-- `pbase32`. -/
def pbase32 : List UInt8 := "abcdefghijklmnopqrstuvwxyz234567".toList.map Char.toUInt8

/-- `decode32_table`: `'A'` to `'Z'` and `'a'` to `'z'` are both `0` to `25`, `'2'` to `'7'` are
`26` to `31`, every other byte `-1`. -/
def decode32Table (ch : UInt8) : ℤ :=
  if 65 ≤ ch ∧ ch ≤ 90 then ch.toNat - 65
  else if 97 ≤ ch ∧ ch ≤ 122 then ch.toNat - 97
  else if 50 ≤ ch ∧ ch ≤ 55 then ch.toNat - 24
  else -1

theorem five_pos : 0 < 5 := by decide

theorem eight_add_five_le : 8 + 5 ≤ 64 := by decide

def base32 : Code := ⟨pbase32, decode32Table, ⟨8, 5, eight_pos, five_pos, eight_add_five_le⟩, 8⟩

/-- `EncodeBase32(input, pad)`. -/
def encodeBase32 (input : List UInt8) (pad : Bool) : List UInt8 := encodeBase base32 pad input

/-- `DecodeBase32(p, pfInvalid)`. -/
def decodeBase32 (p : List UInt8) : List UInt8 × Bool := decodeBase base32 p

/-! ### Decoding an encoding -/

/-- The `'='` the encoder adds complete a group. -/
theorem add_pad_mod {g : ℕ} (hg : 0 < g) (a : ℕ) : (a + (g - a % g) % g) % g = 0 := by
  rw [← Nat.mod_add_mod]
  rcases Nat.eq_zero_or_pos (a % g) with h | h
  · rw [h, Nat.sub_zero, Nat.mod_self, Nat.zero_add, Nat.zero_mod]
  · rw [Nat.mod_eq_of_lt (by omega : g - a % g < g), Nat.add_sub_cancel' (Nat.mod_lt a hg).le,
      Nat.mod_self]

/-- What makes a `Code` round-trip: bytes in, groups of at most eight bits out, the character of
each group read back as that group, and neither `'='` nor the zero byte read as one. -/
structure Code.Valid (c : Code) : Prop where
  frombits_eq : c.widths.frombits = 8
  tobits_le : c.widths.tobits ≤ 8
  group_pos : 0 < c.group
  table_alphabet : ∀ v < 2 ^ c.widths.tobits, c.table (c.alphabet.getD v 0) = v
  table_pad : c.table padChar = -1
  table_zero : c.table 0 = -1

section Laws

variable {c : Code}

/-- The decoder on characters the table reads followed by `k` times `'='`: the conversion of their
values, valid when it is and the padding completes a group. -/
theorem decodeBase_append_replicate (hc : c.Valid) {chars : List UInt8}
    (hchars : ∀ ch ∈ chars, c.table ch ≠ -1) (k : ℕ) :
    decodeBase c (chars ++ List.replicate k padChar) =
      let r := convertBits c.widths.swap false (chars.map fun ch => (c.table ch).toNat.toUInt8)
      (r.1, r.2 && (chars.length + k) % c.group = 0 && k < c.group) := by
  have hnz : ∀ ch ∈ chars ++ List.replicate k padChar, ch ≠ 0 := by
    intro ch hch h0
    rcases List.mem_append.mp hch with h | h
    · exact hchars ch h (h0 ▸ hc.table_zero)
    · rw [List.eq_of_mem_replicate h] at h0
      exact absurd h0 (by decide)
  have htake : (chars ++ List.replicate k padChar).takeWhile (c.table · ≠ -1) = chars := by
    rw [List.takeWhile_append_of_pos (by simpa using hchars), List.takeWhile_replicate,
      hc.table_pad]
    simp
  have hs : (chars ++ List.replicate k padChar).takeWhile (· ≠ 0) =
      chars ++ List.replicate k padChar :=
    List.takeWhile_eq_self_iff.mpr (by simpa using hnz)
  rw [decodeBase, hs, htake]
  simp

/-- The table reads the encoder's characters back as the values `ConvertBits` wrote. -/
theorem table_values (hc : c.Valid) (input : List UInt8) :
    ((convertBits c.widths true input).1.map fun v => c.alphabet.getD v.toNat 0).map
        (fun ch => (c.table ch).toNat.toUInt8) = (convertBits c.widths true input).1 ∧
      ∀ v ∈ (convertBits c.widths true input).1, c.table (c.alphabet.getD v.toNat 0) ≠ -1 := by
  have hin : ∀ x ∈ input, x.toNat < 2 ^ c.widths.frombits := fun x _ => hc.frombits_eq ▸ x.toNat_lt
  obtain ⟨ys, -, hys, hlt, -⟩ := convertBits_true c.widths hc.tobits_le hin
  rw [hys]
  have hval : ∀ v ∈ ys, c.table (c.alphabet.getD v.toNat 0) = v.toNat :=
    fun v hv => hc.table_alphabet _ (hlt v hv)
  refine ⟨?_, fun v hv => by rw [hval v hv]; omega⟩
  rw [List.map_map]
  conv_rhs => rw [← List.map_id ys]
  refine List.map_congr_left fun v hv => ?_
  rw [Function.comp_apply, hval v hv, id, Int.toNat_natCast]
  exact UInt8.ofNat_toNat

/-- **Decoding an encoding** gives the input back, and finds it valid. -/
theorem decodeBase_encodeBase (hc : c.Valid) (input : List UInt8) :
    decodeBase c (encodeBase c true input) = (input, true) := by
  obtain ⟨hvals, hread⟩ := table_values hc input
  rw [encodeBase, if_pos rfl, decodeBase_append_replicate hc (by simpa using hread), hvals,
    convertBits_swap_convertBits c.widths (by rw [hc.frombits_eq]) (hc.frombits_eq ▸ hc.tobits_le)
      fun x _ => hc.frombits_eq ▸ x.toNat_lt]
  simp [add_pad_mod hc.group_pos, Nat.mod_lt _ hc.group_pos]

end Laws

set_option maxRecDepth 4000 in
theorem base64_valid : base64.Valid :=
  ⟨rfl, by decide, by decide, by decide, by decide, by decide⟩

set_option maxRecDepth 4000 in
theorem base32_valid : base32.Valid :=
  ⟨rfl, by decide, by decide, by decide, by decide, by decide⟩

theorem base64_base32_roundtrip :
    (∀ input, decodeBase64 (encodeBase64 input) = (input, true)) ∧
      ∀ input, decodeBase32 (encodeBase32 input true) = (input, true) :=
  ⟨decodeBase_encodeBase base64_valid, decodeBase_encodeBase base32_valid⟩

end BaseEncoding

end BitcoinCash
