import BitcoinCash.Script.Script

/-!
# What `MinimallyEncode` computes

`CScriptNum::MinimallyEncode` rewrites a stack element in place into the minimal encoding of the
number it denotes: it finds the last byte with magnitude bits and moves the sign byte into it,
or just after it when its top bit is taken, or empties the element when every magnitude bit is
zero. Here the number of a byte string is its sign-magnitude little-endian value
`Bytes.smValue`, unbounded, and minimality is `Bytes.IsMinimal`.

The trimming loop keeps one invariant: what it returns at position `i` is minimal and denotes
the first `i` bytes followed by the sign byte (`trimTo_spec`). One arithmetic fact carries every
step of it: a magnitude byte below `0x80` followed by a pure sign byte denotes what the two
merged by `|||` do (`smValue_append_sign`).
-/

namespace BitcoinCash

open Bytes

namespace CScriptNum

/-! ### Sign bytes -/

theorem and_7f_eq_zero_iff (b : UInt8) : b &&& 0x7f = 0 ↔ b.toNat % 128 = 0 := by
  rw [← UInt8.toNat_inj, toNat_and_7f, UInt8.toNat_zero]

/-- A pure sign byte, `0x00` or `0x80`, merged into a byte below `0x80` adds its bit. -/
theorem toNat_or_sign {d last : UInt8} (hd : d.toNat < 128) (hlast : last.toNat % 128 = 0) :
    (d ||| last).toNat = d.toNat + last.toNat := by
  have hlt := last.toNat_lt
  rcases (by omega : last.toNat = 0 ∨ last.toNat = 128) with h | h
  · obtain rfl : last = 0 := UInt8.toNat_inj.mp h
    simp
  · obtain rfl : last = 0x80 := UInt8.toNat_inj.mp h
    rw [toNat_or_80, h]
    omega

/-- A sign byte after a magnitude byte below `0x80` denotes what the two merged do. -/
theorem smValue_append_sign (init : List UInt8) {d last : UInt8} (hd : d.toNat < 128)
    (hlast : last.toNat % 128 = 0) :
    smValue (init ++ [d, last]) = smValue (init ++ [d ||| last]) := by
  have hor := toNat_or_sign hd hlast
  have hlt := last.toNat_lt
  have hlow : (d ||| last).toNat % 128 = d.toNat := by omega
  have hsign : 128 ≤ (d ||| last).toNat ↔ 128 ≤ last.toNat := by omega
  rw [show init ++ [d, last] = init ++ [d] ++ [last] by simp, smValue_append_singleton,
    smValue_append_singleton, leValue_append_singleton, hlast, hlow]
  simp only [hsign, Nat.mul_zero, Nat.add_zero]

theorem smValue_sign_byte {last : UInt8} (hlast : last.toNat % 128 = 0) : smValue [last] = 0 := by
  have h := smValue_append_singleton [] last
  simp only [List.nil_append, hlast] at h
  simp [h]

/-! ### The trimming loop -/

theorem take_add_one_eq {l : List UInt8} {i : ℕ} (hi : i < l.length) :
    l.take (i + 1) = l.take i ++ [l.getD i 0] := by
  rw [List.take_add_one, List.getD_eq_getElem?_getD, List.getElem?_eq_getElem hi]
  rfl

theorem take_set_add_one {l : List UInt8} {i : ℕ} (hi : i < l.length) (x : UInt8) :
    (l.set i x).take (i + 1) = l.take i ++ [x] := by
  rw [List.take_add_one, List.take_set_of_le (Nat.le_refl i), List.getElem?_set_self hi]
  rfl

/-- The loop invariant of `MinimallyEncode`: from position `i` down, the loop returns a minimal
string that denotes the first `i` bytes followed by the sign byte `last`. -/
theorem trimTo_spec (data : ValType) {last : UInt8} (hlast : last.toNat % 128 = 0) :
    ∀ i < data.length, IsMinimal (trimTo data last i) ∧
      smValue (trimTo data last i) = smValue (data.take i ++ [last]) := by
  intro i hi
  induction i with
  | zero =>
    rw [trimTo, List.take_zero, List.nil_append, smValue_sign_byte hlast]
    exact ⟨isMinimal_nil, smValue_nil⟩
  | succ i ih =>
    have hi' : i < data.length := by omega
    have htake := take_add_one_eq hi'
    rw [trimTo]
    by_cases hd : data.getD i 0 = 0
    · -- a zero byte: the loop goes on below it
      rw [if_neg (not_not.mpr hd)]
      obtain ⟨hmin, hval⟩ := ih hi'
      refine ⟨hmin, ?_⟩
      rw [hval, htake, hd, List.append_assoc, List.singleton_append,
        smValue_append_sign _ (by simp) hlast, UInt8.zero_or]
    rw [if_pos hd]
    by_cases hsgn : data.getD i 0 &&& 0x80 ≠ 0
    · -- its top bit is taken: the sign byte stays after it
      rw [if_pos hsgn, take_set_add_one hi, htake]
      refine ⟨?_, rfl⟩
      rw [isMinimal_append_singleton_iff]
      exact fun _ => ⟨data.getD i 0, by simp, (and_80_ne_zero_iff _).mp hsgn⟩
    · -- the sign bit moves into it
      have hlow : (data.getD i 0).toNat < 128 := (and_80_eq_zero_iff _).mp (not_not.mp hsgn)
      rw [if_neg hsgn, take_set_add_one hi', htake, List.append_assoc, List.singleton_append,
        smValue_append_sign _ hlow hlast]
      refine ⟨?_, rfl⟩
      rw [isMinimal_append_singleton_iff]
      intro h0
      have hor := toNat_or_sign hlow hlast
      have hlt := last.toNat_lt
      have hzero : (data.getD i 0).toNat = 0 := by omega
      exact absurd (UInt8.toNat_inj.mp hzero) hd

/-! ### `MinimallyEncode` -/

/-- Everything `MinimallyEncode` does, case by case of its source: the result is minimal and
denotes the operand's number, the operand is kept when the flag is `false`, and the flag is set
exactly when the operand fails `IsMinimallyEncoded` at its own size. -/
theorem minimallyEncode_spec (data : ValType) :
    IsMinimal (minimallyEncode data).2 ∧ smValue (minimallyEncode data).2 = smValue data ∧
      ((minimallyEncode data).1 = false → (minimallyEncode data).2 = data) ∧
      (minimallyEncode data).1 = !isMinimallyEncoded data data.length := by
  rcases data.eq_nil_or_concat with rfl | ⟨init, last, rfl⟩
  · simp [minimallyEncode, isMinimallyEncoded]
  rw [List.concat_eq_append]
  by_cases hmag : last &&& 0x7f ≠ 0
  · -- the last byte carries magnitude bits
    have heq : minimallyEncode (init ++ [last]) = (false, init ++ [last]) := by
      simp [minimallyEncode, hmag]
    rw [heq, isMinimal_append_singleton_iff]
    refine ⟨fun h => absurd ((and_7f_eq_zero_iff last).mpr h) hmag, rfl, fun _ => rfl, ?_⟩
    simp [isMinimallyEncoded, hmag]
  have hlast : last.toNat % 128 = 0 := (and_7f_eq_zero_iff last).mp (not_not.mp hmag)
  rcases init.eq_nil_or_concat with rfl | ⟨init, c, rfl⟩
  · -- one byte without magnitude bits: zero, the empty vector
    have heq : minimallyEncode [last] = (true, []) := by simp [minimallyEncode, hmag]
    rw [List.nil_append, heq, smValue_sign_byte hlast]
    refine ⟨isMinimal_nil, smValue_nil, by simp, ?_⟩
    simp [isMinimallyEncoded, not_not.mp hmag]
  rw [List.concat_eq_append]
  have hc : (init ++ [c] ++ [last]).getD ((init ++ [c] ++ [last]).length - 2) 0 = c := by simp
  by_cases hsgn : c &&& 0x80 ≠ 0
  · -- the byte before has its top bit set: the sign byte is needed
    have heq : minimallyEncode (init ++ [c] ++ [last]) = (false, init ++ [c] ++ [last]) := by
      simp [minimallyEncode, hmag, hsgn]
    rw [heq, isMinimal_append_singleton_iff]
    refine ⟨fun _ => ⟨c, by simp, (and_80_ne_zero_iff c).mp hsgn⟩, rfl, fun _ => rfl, ?_⟩
    simp only [isMinimallyEncoded, List.getLast?_append, List.getLast?_singleton, Option.some_or,
      hc, not_not.mp hmag, hsgn]
    simp
  · -- trim: `trimTo` from the byte before the sign byte
    have heq : minimallyEncode (init ++ [c] ++ [last]) =
        (true, trimTo (init ++ [c] ++ [last]) last (init.length + 1)) := by
      simp [minimallyEncode, hmag, not_not.mp hsgn]
    obtain ⟨hmin, hval⟩ := trimTo_spec (init ++ [c] ++ [last]) hlast (init.length + 1) (by simp)
    have hinit : (init ++ [c] ++ [last]).take (init.length + 1) = init ++ [c] :=
      List.take_left' (by simp)
    rw [hinit] at hval
    rw [heq]
    refine ⟨hmin, hval, by simp, ?_⟩
    simp only [isMinimallyEncoded, List.getLast?_append, List.getLast?_singleton, Option.some_or,
      hc, not_not.mp hmag, not_not.mp hsgn]
    simp

/-- `MinimallyEncode` leaves a minimal operand as it is. -/
theorem minimallyEncode_of_isMinimal {data : ValType} (h : IsMinimal data) :
    minimallyEncode data = (false, data) := by
  obtain ⟨-, -, hkeep, hflag⟩ := minimallyEncode_spec data
  have hmin : isMinimallyEncoded data data.length = true :=
    (isMinimallyEncoded_iff data data.length).mpr ⟨Nat.le_refl _, h⟩
  rw [hmin, Bool.not_true] at hflag
  exact Prod.ext hflag (hkeep hflag)

/-- `MinimallyEncode` leaves a minimal encoding of the number the operand denotes, the empty
vector for every zero and negative zero, never lengthens its operand, reports a change exactly
when the operand was not minimally encoded, and is idempotent. -/
theorem minimallyEncode_normalizes (data : ValType) :
    isMinimallyEncoded (minimallyEncode data).2 (minimallyEncode data).2.length = true ∧
      smValue (minimallyEncode data).2 = smValue data ∧
      (smValue data = 0 → (minimallyEncode data).2 = []) ∧
      (minimallyEncode data).2.length ≤ data.length ∧
      (minimallyEncode data).1 = !isMinimallyEncoded data data.length ∧
      minimallyEncode (minimallyEncode data).2 = (false, (minimallyEncode data).2) := by
  obtain ⟨hmin, hval, -, hflag⟩ := minimallyEncode_spec data
  refine ⟨(isMinimallyEncoded_iff _ _).mpr ⟨Nat.le_refl _, hmin⟩, hval, fun h0 => ?_,
    length_minimallyEncode data, hflag, minimallyEncode_of_isMinimal hmin⟩
  exact (smValue_eq_zero_iff hmin).mp (hval.trans h0)

end CScriptNum

end BitcoinCash
