import BitcoinCash.Script.Script

/-!
# Data pushes read back by the script parser

`CScript::operator<<(const std::vector<uint8_t> &)` writes the push of `b`: a direct push when
`b` is shorter than `OP_PUSHDATA1`, else `OP_PUSHDATA1`, `OP_PUSHDATA2` or `OP_PUSHDATA4` followed
by the size in one, two or four little-endian bytes, and then the bytes of `b`. `GetScriptOp`
reads the size field back with the same width, so one call reads the whole push and stops at its
end (`getScriptOp_pushData`).

A decoded instruction does not look past its own bytes: what follows it in the script changes
only what is left after it (`getScriptOp_append`). So a push appended to a script that parses
completely is read, after the instructions of that script, as one more instruction
(`getScriptOps_append`).
-/

namespace BitcoinCash

open Bytes

/-! ### Decoding ahead of appended bytes -/

/-- A size field of width `w` read from a script with bytes after it. -/
theorem readField_append {pc rest suffix : List UInt8} {w n : ℕ}
    (h : (if pc.length < w then none else some (leValue (pc.take w), pc.drop w)) =
      some (n, rest)) :
    (if (pc ++ suffix).length < w then none
      else some (leValue ((pc ++ suffix).take w), (pc ++ suffix).drop w)) =
      some (n, rest ++ suffix) := by
  by_cases hw : pc.length < w
  · rw [if_pos hw] at h
    cases h
  rw [if_neg hw, Option.some.injEq, Prod.mk.injEq] at h
  obtain ⟨rfl, rfl⟩ := h
  have hw' : ¬(pc ++ suffix).length < w := by
    rw [List.length_append]
    omega
  rw [if_neg hw', List.take_append_of_le_length (by omega),
    List.drop_append_of_le_length (by omega)]

theorem readPushSize_append {opcode : UInt8} {pc rest : List UInt8} {n : ℕ}
    (h : readPushSize opcode pc = some (n, rest)) (suffix : List UInt8) :
    readPushSize opcode (pc ++ suffix) = some (n, rest ++ suffix) := by
  unfold readPushSize at h ⊢
  by_cases h1 : opcode < opPushData1
  · -- a direct push has no size field
    rw [if_pos h1, Option.some.injEq, Prod.mk.injEq] at h
    obtain ⟨rfl, rfl⟩ := h
    rw [if_pos h1]
  rw [if_neg h1] at h ⊢
  by_cases h2 : opcode = opPushData1
  · rw [if_pos h2] at h ⊢
    exact readField_append h
  rw [if_neg h2] at h ⊢
  by_cases h4 : opcode = opPushData2
  · rw [if_pos h4] at h ⊢
    exact readField_append h
  rw [if_neg h4] at h ⊢
  exact readField_append h

/-- An instruction decodes the same with bytes after it: the bytes are left after it. -/
theorem getScriptOp_append {pc rest : List UInt8} {opcode : UInt8} {data : ValType}
    (h : getScriptOp pc = some (opcode, data, rest)) (suffix : List UInt8) :
    getScriptOp (pc ++ suffix) = some (opcode, data, rest ++ suffix) := by
  cases pc with
  | nil => simp [getScriptOp] at h
  | cons b bs =>
    rw [List.cons_append]
    simp only [getScriptOp] at h ⊢
    by_cases hpush : b ≤ opPushData4
    · rw [if_pos hpush] at h ⊢
      -- the size field and the operand both lie in `bs`
      cases hsize : readPushSize b bs with
      | none =>
        rw [hsize] at h
        cases h
      | some r =>
        obtain ⟨nSize, after⟩ := r
        rw [hsize] at h
        rw [readPushSize_append hsize suffix]
        dsimp only at h ⊢
        by_cases hlt : after.length < nSize
        · rw [if_pos hlt] at h
          cases h
        rw [if_neg hlt, Option.some.injEq, Prod.mk.injEq, Prod.mk.injEq] at h
        obtain ⟨rfl, rfl, rfl⟩ := h
        have hlt' : ¬(after ++ suffix).length < nSize := by
          rw [List.length_append]
          omega
        rw [if_neg hlt', List.take_append_of_le_length (by omega),
          List.drop_append_of_le_length (by omega)]
    · rw [if_neg hpush, Option.some.injEq, Prod.mk.injEq, Prod.mk.injEq] at h
      obtain ⟨rfl, rfl, rfl⟩ := h
      rw [if_neg hpush]

set_option linter.unusedVariables false in
/-- The loop `while (pc < end) GetOp(pc, opcode, vch)` of the walkers of a script, up to its end:
the instructions of a script that parses completely, `none` where one does not decode. -/
def getScriptOps (pc : List UInt8) : Option (List (UInt8 × ValType)) :=
  match h : getScriptOp pc with
  | none => if pc.isEmpty then some [] else none
  | some (opcode, data, rest) => (getScriptOps rest).map (List.cons (opcode, data))
termination_by pc.length
decreasing_by exact getScriptOp_length_lt h

theorem getScriptOps_nil : getScriptOps [] = some [] := by
  rw [getScriptOps.eq_def]
  rfl

theorem getScriptOps_of_getScriptOp {pc rest : List UInt8} {opcode : UInt8} {data : ValType}
    (h : getScriptOp pc = some (opcode, data, rest)) :
    getScriptOps pc = (getScriptOps rest).map (List.cons (opcode, data)) := by
  rw [getScriptOps]
  split <;> simp_all

/-- Bytes after a script that parses completely are read after its instructions. -/
theorem getScriptOps_append {p : List UInt8} {ops : List (UInt8 × ValType)}
    (hp : getScriptOps p = some ops) (suffix : List UInt8) :
    getScriptOps (p ++ suffix) = (getScriptOps suffix).map (ops ++ ·) := by
  fun_induction getScriptOps p generalizing ops with
  | case1 pc hnone hempty =>
    -- only the empty script has no instruction
    rw [List.isEmpty_iff.mp hempty, Option.some.injEq] at *
    subst hp
    simp
  | case2 pc hnone hempty => cases hp
  | case3 pc opcode data rest hop ih =>
    obtain ⟨ops', hrest, rfl⟩ := Option.map_eq_some_iff.mp hp
    rw [getScriptOps_of_getScriptOp (getScriptOp_append hop suffix), ih hrest, Option.map_map]
    rfl

/-! ### A push reads back -/

/-- A size field written in `w` little-endian bytes reads back. -/
theorem readField_leBytes {w n : ℕ} (hn : n < 256 ^ w) (b : List UInt8) :
    (if (leBytes w n ++ b).length < w then none
      else some (leValue ((leBytes w n ++ b).take w), (leBytes w n ++ b).drop w)) =
      some (n, b) := by
  have hlen : ¬(leBytes w n ++ b).length < w := by
    rw [List.length_append, length_leBytes]
    omega
  rw [if_neg hlen, List.take_left' (length_leBytes w n), List.drop_left' (length_leBytes w n),
    leValue_leBytes_of_lt hn]

/-- A push instruction whose size field reads back the size of its operand. -/
theorem getScriptOp_push {opcode : UInt8} {field b : List UInt8} (hop : opcode ≤ opPushData4)
    (hsize : readPushSize opcode (field ++ b) = some (b.length, b)) :
    getScriptOp (opcode :: (field ++ b)) = some (opcode, b, []) := by
  simp only [getScriptOp, if_pos hop, hsize, Nat.lt_irrefl, if_false, List.take_length,
    List.drop_length]

/-- The opcode of a direct push is its size. -/
theorem toNat_ofNat_size {n : ℕ} (h : n < opPushData1.toNat) : (UInt8.ofNat n).toNat = n := by
  rw [UInt8.toNat_ofNat']
  exact Nat.mod_eq_of_lt (Nat.lt_trans h (by decide))

/-- The push `CScript::operator<<` writes is one instruction of its opcode, a size field that
reads back the size of `b`, and `b`. -/
theorem pushData_eq (b : ValType) (hb : b.length < 2 ^ 32) :
    ∃ field, pushData b = (pushData b).headD 0 :: (field ++ b) ∧
      (pushData b).headD 0 ≤ opPushData4 ∧
      readPushSize ((pushData b).headD 0) (field ++ b) = some (b.length, b) := by
  unfold pushData
  split_ifs with h1 h2 h3
  · -- a direct push: the opcode is the size
    have hop := toNat_ofNat_size h1
    rw [List.singleton_append, List.headD_cons]
    refine ⟨[], rfl, ?_, ?_⟩
    · rw [UInt8.le_iff_toNat_le, hop]
      exact Nat.le_of_lt (Nat.lt_trans h1 (by decide))
    · rw [readPushSize, if_pos (UInt8.lt_iff_toNat_lt.mpr (by rw [hop]; exact h1)),
        hop, List.nil_append]
  · -- `OP_PUSHDATA1` and one size byte
    rw [List.cons_append, List.headD_cons]
    refine ⟨leBytes 1 b.length, rfl, by decide, ?_⟩
    rw [readPushSize, if_neg (by decide), if_pos rfl]
    exact readField_leBytes (by omega) b
  · -- `OP_PUSHDATA2` and two size bytes
    rw [List.cons_append, List.headD_cons]
    refine ⟨leBytes 2 b.length, rfl, by decide, ?_⟩
    rw [readPushSize, if_neg (by decide), if_neg (by decide), if_pos rfl]
    exact readField_leBytes (by omega) b
  · -- `OP_PUSHDATA4` and four size bytes
    rw [List.cons_append, List.headD_cons]
    refine ⟨leBytes 4 b.length, rfl, by decide, ?_⟩
    rw [readPushSize, if_neg (by decide), if_neg (by decide), if_neg (by decide)]
    exact readField_leBytes (by omega) b

/-- A push of fewer than `2 ^ 32` bytes is one instruction with the pushed bytes as its data,
after which nothing is left. -/
theorem getScriptOp_pushData (b : ValType) (hb : b.length < 2 ^ 32) :
    getScriptOp (pushData b) = some ((pushData b).headD 0, b, []) := by
  obtain ⟨field, hpush, hop, hsize⟩ := pushData_eq b hb
  rw [hpush]
  exact getScriptOp_push hop hsize

/-- The opcode `CScript::operator<<` writes passes `CheckMinimalPush`, except for one byte `1` …
`16` or `0x81`, which `OP_1` … `OP_16` and `OP_1NEGATE` push without data. -/
theorem checkMinimalPush_pushData (b : ValType) :
    checkMinimalPush b ((pushData b).headD 0) = true ↔
      ¬(b.length = 1 ∧ ((1 ≤ b.getD 0 0 ∧ b.getD 0 0 ≤ 16) ∨ b.getD 0 0 = 0x81)) := by
  unfold pushData
  split_ifs with h1 h2 h3
  · -- a direct push: `OP_0` for no data, else the size itself
    rw [List.singleton_append, List.headD_cons, checkMinimalPush]
    by_cases h0 : b.length = 0
    · rw [if_pos h0, h0]
      simp [op0]
    rw [if_neg h0]
    by_cases hsmall : b.length = 1 ∧ 1 ≤ b.getD 0 0 ∧ b.getD 0 0 ≤ 16
    · rw [if_pos hsmall]
      exact ⟨fun h => absurd h Bool.false_ne_true, fun h => absurd ⟨hsmall.1, .inl hsmall.2⟩ h⟩
    rw [if_neg hsmall]
    by_cases hneg : b.length = 1 ∧ b.getD 0 0 = 0x81
    · rw [if_pos hneg]
      exact ⟨fun h => absurd h Bool.false_ne_true, fun h => absurd ⟨hneg.1, .inr hneg.2⟩ h⟩
    have h75 : b.length ≤ 75 := by
      rw [opPushData1] at h1
      exact Nat.le_of_lt_succ h1
    rw [if_neg hneg, if_pos h75, toNat_ofNat_size h1, beq_self_eq_true]
    tauto
  -- the pushes with a size field carry at least `OP_PUSHDATA1` bytes
  all_goals
    have h76 : 76 ≤ b.length := by
      rw [opPushData1] at h1
      exact Nat.le_of_not_lt h1
    rw [List.cons_append, List.headD_cons, checkMinimalPush, if_neg (by omega), if_neg (by omega),
      if_neg (by omega), if_neg (by omega)]
  · rw [if_pos h2]
    simp only [beq_self_eq_true, true_iff]
    omega
  · rw [if_neg h2, if_pos h3]
    simp only [beq_self_eq_true, true_iff]
    omega
  · rw [if_neg h2, if_neg h3]
    simp only [true_iff]
    omega

/-- A push of fewer than `2 ^ 32` bytes appended by `CScript::operator<<` to a script that parses
completely reads back: from the end of the script, one call of `GetScriptOp` returns the pushed
bytes as its data and leaves nothing after them, the whole script reads as its instructions
followed by that one, and the opcode written passes `CheckMinimalPush` unless the bytes are one
byte `1` … `16` or `0x81`. -/
theorem pushData_roundtrip {p b : List UInt8} {ops : List (UInt8 × ValType)}
    (hb : b.length < 2 ^ 32) (hp : getScriptOps p = some ops) :
    getScriptOp (pushData b) = some ((pushData b).headD 0, b, []) ∧
      getScriptOps (p ++ pushData b) = some (ops ++ [((pushData b).headD 0, b)]) ∧
      (checkMinimalPush b ((pushData b).headD 0) = true ↔
        ¬(b.length = 1 ∧ ((1 ≤ b.getD 0 0 ∧ b.getD 0 0 ≤ 16) ∨ b.getD 0 0 = 0x81))) := by
  have hop := getScriptOp_pushData b hb
  refine ⟨hop, ?_, checkMinimalPush_pushData b⟩
  rw [getScriptOps_append hp, getScriptOps_of_getScriptOp hop, getScriptOps_nil]
  rfl

/-- Three bytes pushed after `OP_1`. -/
theorem pushData_roundtrip_after_op1 :
    getScriptOp (pushData [1, 2, 3]) = some ((pushData [1, 2, 3]).headD 0, [1, 2, 3], []) ∧
      getScriptOps ([op1] ++ pushData [1, 2, 3]) =
        some ([(op1, [])] ++ [((pushData [1, 2, 3]).headD 0, [1, 2, 3])]) ∧
      (checkMinimalPush [1, 2, 3] ((pushData [1, 2, 3]).headD 0) = true ↔
        ¬(([1, 2, 3] : ValType).length = 1 ∧
          ((1 ≤ ([1, 2, 3] : ValType).getD 0 0 ∧ ([1, 2, 3] : ValType).getD 0 0 ≤ 16) ∨
            ([1, 2, 3] : ValType).getD 0 0 = 0x81))) := by
  have hop : getScriptOp [op1] = some (op1, [], []) := rfl
  have hp : getScriptOps [op1] = some [(op1, [])] := by
    rw [getScriptOps_of_getScriptOp hop, getScriptOps_nil]
    rfl
  exact @pushData_roundtrip [op1] [1, 2, 3] [(op1, [])] (by decide) hp

end BitcoinCash
