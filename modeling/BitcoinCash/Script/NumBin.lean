import BitcoinCash.Script.Safety
import BitcoinCash.Script.MinimalEncoding

/-!
# `OP_NUM2BIN` and `OP_BIN2NUM`

`OP_NUM2BIN` writes the number below the top of the stack in as many bytes as the top asks for:
it minimally encodes the element, fails when that encoding is longer than the size, and pads it
otherwise, moving the sign bit from the last byte of the encoding to a new last byte with zero
bytes between. `OP_BIN2NUM` minimally encodes its operand and checks the result is a number.

The padding keeps the sign-magnitude value (`num2BinPad_spec`), so the two opcodes are inverse
conversions: after `OP_NUM2BIN`, `OP_BIN2NUM` gives back the minimal encoding of the original
element, which is the only minimal string with its value (`Bytes.eq_of_smValue_eq`).
-/

namespace BitcoinCash

open Bytes CScriptNum

/-! ### The padding keeps the value -/

theorem toNat_and_80 (b : UInt8) : (b &&& 0x80).toNat = if 128 ≤ b.toNat then 128 else 0 := by
  have hval : (b &&& 0x80).toNat = (b.toNat.testBit 7).toNat * 128 := by
    rw [UInt8.toNat_and]
    exact Nat.and_two_pow b.toNat 7
  split_ifs with h
  · have hne : (b &&& 0x80).toNat ≠ 0 := fun h0 =>
      (and_80_ne_zero_iff b).mpr h (UInt8.toNat_inj.mp (by rw [h0]; rfl))
    cases hb : b.toNat.testBit 7 <;> simp_all
  · rw [(and_80_eq_zero_iff b).mpr (by omega)]
    rfl

@[simp] theorem leValue_replicate_zero (k : ℕ) : leValue (List.replicate k 0) = 0 := by
  induction k with
  | zero => rfl
  | succ k ih => simp [List.replicate_succ, ih]

/-- Zero bytes after the top of a string do not change its value. -/
theorem leValue_append_replicate_zero (l : List UInt8) (k : ℕ) :
    leValue (l ++ List.replicate k 0) = leValue l := by
  rw [leValue_append, leValue_replicate_zero, Nat.mul_zero, Nat.add_zero]

/-- The padding of `OP_NUM2BIN` reaches the requested size and keeps the number. -/
theorem num2BinPad_spec {rawnum : ValType} {size : ℕ} (hlt : rawnum.length < size) :
    (num2BinPad rawnum size).length = size ∧ smValue (num2BinPad rawnum size) = smValue rawnum := by
  refine ⟨length_num2BinPad hlt, ?_⟩
  rcases rawnum.eq_nil_or_concat with rfl | ⟨init, back, rfl⟩
  · -- zero: zero bytes and a clear sign byte
    simp only [num2BinPad, List.getLast?_nil]
    rw [smValue_append_singleton]
    simp
  · -- the sign bit of the last byte moves to the new last byte
    rw [List.concat_eq_append]
    have hset : (init ++ [back]).set ((init ++ [back]).length - 1) (back &&& 0x7f) =
        init ++ [back &&& 0x7f] := by
      simp [List.set_append_right]
    simp only [num2BinPad, List.getLast?_append, List.getLast?_singleton, Option.some_or, hset]
    rw [smValue_append_singleton, smValue_append_singleton, leValue_append_replicate_zero,
      leValue_append_singleton, toNat_and_7f, toNat_and_80]
    by_cases h : 128 ≤ back.toNat <;> simp [h]

/-! ### The two bodies -/

section Bodies

variable (env : EvalEnv) (m : Machine)

/-- `OP_NUM2BIN` with a size `s` in range: the error of an encoding longer than `s`, or the
encoding itself when it has `s` bytes, or its padding to `s` bytes. -/
theorem evalNum2Bin_eq {sElem x : ValType} {rest : List ValType} {s : ℤ}
    (hsize : scriptNum sElem env.fRequireMinimal env.maxIntegerSize = .ok s) (hs : 0 ≤ s ∧ s ≤ 520) :
    evalNum2Bin env { m with stack := sElem :: x :: rest } =
      if s.toNat < (minimallyEncode x).2.length then .error (.scriptError .impossibleEncoding)
      else .ok { m with stack := (if (minimallyEncode x).2.length = s.toNat then
        (minimallyEncode x).2 else num2BinPad (minimallyEncode x).2 s.toNat) :: rest } := by
  have hmod : (s % 2 ^ 64).toNat = s.toNat := by rw [Int.emod_eq_of_lt hs.1 (by omega)]
  have hle : ¬s.toNat > maxScriptElementSize := by
    rw [maxScriptElementSize]
    omega
  simp only [evalNum2Bin, List.length_cons, stacktop_cons_neg_one, Except.bind_ok', hsize, hmod,
    if_neg hle, popstack_cons, setStacktop_cons_neg_one, Except.pure_eq_ok]
  split_ifs <;> first | omega | rfl

/-- `OP_BIN2NUM`: the minimal encoding of the top element, which must be short enough to be a
number. -/
theorem evalBin2Num_eq {y : ValType} {rest : List ValType} :
    evalBin2Num env { m with stack := y :: rest } =
      if (minimallyEncode y).2.length ≤ env.maxIntegerSize then
        .ok { m with stack := (minimallyEncode y).2 :: rest }
      else .error (.scriptError env.invalidNumberRangeError) := by
  have hmin := (minimallyEncode_spec y).1
  have hcheck : isMinimallyEncoded (minimallyEncode y).2 env.maxIntegerSize =
      decide ((minimallyEncode y).2.length ≤ env.maxIntegerSize) := by
    rw [Bool.eq_iff_iff, isMinimallyEncoded_iff, decide_eq_true_iff]
    exact ⟨And.left, fun h => ⟨h, hmin⟩⟩
  simp only [evalBin2Num, List.length_cons, stacktop_cons_neg_one, setStacktop_cons_neg_one,
    Except.bind_ok', hcheck]
  split_ifs <;> simp_all

end Bodies

/-- What `OP_NUM2BIN` writes minimally encodes back to the minimal encoding of its operand. -/
theorem minimallyEncode_num2Bin {x : ValType} {size : ℕ} (hle : (minimallyEncode x).2.length ≤ size) :
    let y := if (minimallyEncode x).2.length = size then (minimallyEncode x).2
      else num2BinPad (minimallyEncode x).2 size
    y.length = size ∧ smValue y = smValue x ∧ (minimallyEncode y).2 = (minimallyEncode x).2 := by
  intro y
  obtain ⟨hmin, hval, -⟩ := minimallyEncode_spec x
  have hy : y.length = size ∧ smValue y = smValue (minimallyEncode x).2 := by
    by_cases heq : (minimallyEncode x).2.length = size
    · have hy : y = (minimallyEncode x).2 := if_pos heq
      rw [hy]
      exact ⟨heq, rfl⟩
    · have hy : y = num2BinPad (minimallyEncode x).2 size := if_neg heq
      rw [hy]
      exact num2BinPad_spec (by omega)
  obtain ⟨hminy, hvaly, -⟩ := minimallyEncode_spec y
  refine ⟨hy.1, hy.2.trans hval, eq_of_smValue_eq hminy hmin ?_⟩
  rw [hvaly, hy.2]

/-- `OP_NUM2BIN` and `OP_BIN2NUM` are inverse conversions: with a size `s` between `0` and
`MAX_SCRIPT_ELEMENT_SIZE`, `OP_NUM2BIN` fails with `IMPOSSIBLE_ENCODING` exactly when the
minimal encoding of the operand is longer than `s`; otherwise it writes `s` bytes with the
operand's value, from which `OP_BIN2NUM` gives back the minimal encoding of the operand,
failing exactly when that encoding is longer than `maxIntegerSize`. -/
theorem num2Bin_bin2Num (env : EvalEnv) (m : Machine) {sElem x : ValType} {rest : List ValType}
    {s : ℤ} (hsize : scriptNum sElem env.fRequireMinimal env.maxIntegerSize = .ok s)
    (hs : 0 ≤ s ∧ s ≤ 520) :
    (evalNum2Bin env { m with stack := sElem :: x :: rest } =
        .error (.scriptError .impossibleEncoding) ↔ s < (minimallyEncode x).2.length) ∧
      ((minimallyEncode x).2.length ≤ s →
        ∃ y, evalNum2Bin env { m with stack := sElem :: x :: rest } =
            .ok { m with stack := y :: rest } ∧
          y.length = s ∧ smValue y = smValue x ∧
          evalBin2Num env { m with stack := y :: rest } =
            if (minimallyEncode x).2.length ≤ env.maxIntegerSize then
              .ok { m with stack := (minimallyEncode x).2 :: rest }
            else .error (.scriptError env.invalidNumberRangeError)) := by
  rw [evalNum2Bin_eq env m hsize hs]
  refine ⟨?_, fun hle => ?_⟩
  · by_cases hlt : s.toNat < (minimallyEncode x).2.length
    · rw [if_pos hlt]
      exact ⟨fun _ => by omega, fun _ => rfl⟩
    · rw [if_neg hlt]
      exact ⟨fun h => (by cases h), fun h => by omega⟩
  · obtain ⟨hlen, hval, hback⟩ := minimallyEncode_num2Bin
      (by omega : (minimallyEncode x).2.length ≤ s.toNat)
    refine ⟨_, if_neg (by omega), by omega, hval, ?_⟩
    rw [evalBin2Num_eq, hback]

/-- Minus one in two bytes, `0x01 0x80`, and back. -/
theorem num2Bin_bin2Num_minus_one :
    (evalNum2Bin default (⟨[[2], [0x81]], [], {}, [], 0, 0⟩ : Machine) =
        .error (.scriptError .impossibleEncoding) ↔
        (2 : ℤ) < (minimallyEncode [0x81]).2.length) ∧
      ((minimallyEncode [0x81]).2.length ≤ (2 : ℤ) →
        ∃ y, evalNum2Bin default (⟨[[2], [0x81]], [], {}, [], 0, 0⟩ : Machine) =
            .ok (⟨[y], [], {}, [], 0, 0⟩ : Machine) ∧
          y.length = (2 : ℤ) ∧ smValue y = smValue [0x81] ∧
          evalBin2Num default (⟨[y], [], {}, [], 0, 0⟩ : Machine) =
            if (minimallyEncode [0x81]).2.length ≤ (default : EvalEnv).maxIntegerSize then
              .ok (⟨[(minimallyEncode [0x81]).2], [], {}, [], 0, 0⟩ : Machine)
            else .error (.scriptError (default : EvalEnv).invalidNumberRangeError)) :=
  num2Bin_bin2Num default (⟨[], [], {}, [], 0, 0⟩ : Machine) (by decide) ⟨by decide, by decide⟩

end BitcoinCash
