import BitcoinCash.Serialize.BitStream
import Mathlib.Tactic.Ring

/-!
# Golomb-Rice coding

`GolombRiceEncode` and `GolombRiceDecode` of `blockfilter.cpp` write a `uint64_t` through a
`BitStreamWriter` and read it back through a `BitStreamReader`: the quotient `x >> P` in unary,
as that many ones and a zero, then the low `P` bits of `x`. `riceCode P x` is that bit string.
The writer appends it (`golombRiceEncode_spec`), and the reader, on a stream that starts with
it, returns `x` and moves past it (`golombRiceDecode_spec`), for every `P ≤ 63`; for a larger
`P` the shifts by `P` are undefined in C++.

`MapIntoRange(x, n)` is the high word of the 128-bit product `x * n`. Both of its paths, the
`__int128` one and the one of 32-bit limbs, compute `x * n / 2 ^ 64` (`toNat_mapIntoRange`,
`toNat_mapIntoRangeLimbs`).
-/

namespace BitcoinCash

open BitList

/-- The Golomb-Rice code of `x` with parameter `P`: the quotient `x / 2 ^ P` in unary, then the
low `P` bits of `x`. -/
def riceCode (P x : ℕ) : List Bool := List.replicate (x / 2 ^ P) true ++ false :: bitsOf x P

/-- One `Write` of `q <= 64 ? q : 64` ones takes as many off `q`. -/
theorem toNat_sub_unaryChunk {q : UInt64} :
    (q - (if q ≤ 64 then q.toNat else 64).toUInt64).toNat = q.toNat - min q.toNat 64 := by
  split_ifs with h
  · simp [UInt64.le_iff_toNat_le] at *
    omega
  · simp [UInt64.le_iff_toNat_le] at *
    rw [UInt64.toNat_sub_of_le]
    · simp
      omega
    · rw [UInt64.le_iff_toNat_le]
      simp
      omega

/-- The loop of `GolombRiceEncode` that writes the quotient in unary, at most 64 ones a time. -/
def writeUnary (q : UInt64) (w : BitStreamWriter) : Except String BitStreamWriter :=
  if _hq : q > 0 then do
    let nbits := if q ≤ 64 then q.toNat else 64
    let w ← w.write (~~~0) nbits
    writeUnary (q - nbits.toUInt64) w
  else pure w
termination_by q.toNat
decreasing_by
  rw [dite_eq_ite, toNat_sub_unaryChunk]
  rw [gt_iff_lt, UInt64.lt_iff_toNat_lt] at _hq
  simp at _hq
  omega

/-- `GolombRiceEncode(bitwriter, P, x)`. -/
def golombRiceEncode (w : BitStreamWriter) (P : UInt8) (x : UInt64) :
    Except String BitStreamWriter := do
  let w ← writeUnary (x >>> P.toUInt64) w
  let w ← w.write 0 1
  w.write x P.toNat

/-- The loop `while (bitreader.Read(1) == 1) ++q;` of `GolombRiceDecode`. -/
def readUnary (r : BitStreamReader) (q : UInt64) : Except String (UInt64 × BitStreamReader) :=
  match h : r.read 1 with
  | .error e => .error e
  | .ok (bit, r') => if bit = 1 then readUnary r' (q + 1) else pure (q, r')
termination_by r.remaining.length
decreasing_by exact BitStreamReader.length_remaining_lt_of_read_one h

/-- `GolombRiceDecode(bitreader, P)`. -/
def golombRiceDecode (r : BitStreamReader) (P : UInt8) :
    Except String (UInt64 × BitStreamReader) := do
  let (q, r) ← readUnary r 0
  let (rem, r) ← r.read P.toNat
  pure ((q <<< P.toUInt64) + rem, r)

/-- `n` calls of `GolombRiceDecode`, with what they return. -/
def golombRiceDecodeN (P : UInt8) : ℕ → BitStreamReader →
    Except String (List UInt64 × BitStreamReader)
  | 0, r => pure ([], r)
  | n + 1, r => do
    let (x, r) ← golombRiceDecode r P
    let (xs, r) ← golombRiceDecodeN P n r
    pure (x :: xs, r)

/-- The unary loop appends `q` ones. -/
theorem writeUnary_spec (q : UInt64) {w : BitStreamWriter} (hw : w.Clean) :
    ∃ w', writeUnary q w = .ok w' ∧ w'.Clean ∧ w'.bits = w.bits ++ List.replicate q.toNat true ∧
      w.ostream <+: w'.ostream := by
  fun_induction writeUnary q w with
  | case1 q w hq nbits ih =>
    rw [gt_iff_lt, UInt64.lt_iff_toNat_lt, UInt64.toNat_zero] at hq
    have hnb : nbits = min q.toNat 64 := by
      show (if h : q ≤ 64 then q.toNat else 64) = _
      split_ifs with h <;> rw [UInt64.le_iff_toNat_le] at h <;> simp at h <;> omega
    have hsub : (q - nbits.toUInt64).toNat = q.toNat - nbits := by
      rw [hnb, ← toNat_sub_unaryChunk]
      show (q - (if h : q ≤ 64 then q.toNat else 64).toUInt64).toNat = _
      rw [dite_eq_ite]
    have h64 : nbits ≤ 64 := by omega
    have hones : bitsOf (~~~(0 : UInt64)).toNat nbits = List.replicate nbits true := by
      rw [UInt64.toNat_not, UInt64.toNat_zero]
      exact bitsOf_replicate_true h64
    obtain ⟨hclean₁, hbits₁, hpre₁⟩ := BitStreamWriter.writeLoop_spec (~~~0) h64 hw
    obtain ⟨w', hrun, hclean', hbits', hpre'⟩ := ih _ hclean₁
    refine ⟨w', ?_, hclean', ?_, hpre₁.trans hpre'⟩
    · rw [BitStreamWriter.write_of_le w _ h64]
      exact hrun
    · rw [hbits', hbits₁, hones, hsub, List.append_assoc, List.replicate_append_replicate,
        Nat.add_sub_cancel' (by omega)]
  | case2 q w hq =>
    have hq0 : q.toNat = 0 := by
      rw [gt_iff_lt, UInt64.lt_iff_toNat_lt, UInt64.toNat_zero] at hq
      omega
    exact ⟨w, rfl, hw, by rw [hq0, List.replicate_zero, List.append_nil], List.prefix_refl _⟩

/-- `GolombRiceEncode` appends the Golomb-Rice code of `x`. -/
theorem golombRiceEncode_spec {P : UInt8} (hP : P.toNat ≤ 63) (x : UInt64) {w : BitStreamWriter}
    (hw : w.Clean) :
    ∃ w', golombRiceEncode w P x = .ok w' ∧ w'.Clean ∧
      w'.bits = w.bits ++ riceCode P.toNat x.toNat ∧ w.ostream <+: w'.ostream := by
  have hq : (x >>> P.toUInt64).toNat = x.toNat / 2 ^ P.toNat := by
    rw [UInt64.toNat_shiftRight, UInt8.toNat_toUInt64, Nat.mod_eq_of_lt (by omega),
      Nat.shiftRight_eq_div_pow]
  obtain ⟨w₁, hrun₁, hclean₁, hbits₁, hpre₁⟩ := writeUnary_spec (x >>> P.toUInt64) hw
  obtain ⟨hclean₂, hbits₂, hpre₂⟩ :=
    BitStreamWriter.writeLoop_spec 0 (show 1 ≤ 64 by omega) hclean₁
  obtain ⟨hclean₃, hbits₃, hpre₃⟩ :=
    BitStreamWriter.writeLoop_spec x (show P.toNat ≤ 64 by omega) hclean₂
  refine ⟨_, ?_, hclean₃, ?_, hpre₁.trans (hpre₂.trans hpre₃)⟩
  · rw [golombRiceEncode, hrun₁]
    show (w₁.write 0 1 >>= fun w => w.write x P.toNat) = _
    rw [BitStreamWriter.write_of_le _ _ (show 1 ≤ 64 by omega)]
    exact BitStreamWriter.write_of_le _ _ (show P.toNat ≤ 64 by omega)
  · rw [hbits₃, hbits₂, hbits₁, hq, riceCode, List.append_assoc, List.append_assoc]
    rfl

/-- Reading one bit returns it, as `1` or `0`. -/
theorem read_one_of_remaining_eq_cons {r : BitStreamReader} {b : Bool} {rest : List Bool}
    (h : r.remaining = b :: rest) :
    ∃ r', r.read 1 = .ok (if b then 1 else 0, r') ∧ r'.remaining = rest := by
  obtain ⟨d, r', hrun, hd, hr'⟩ :=
    BitStreamReader.read_spec (show 1 ≤ 64 by omega) (show 1 ≤ r.remaining.length by simp [h])
  rw [h, List.take_succ_cons, List.take_zero, ofBits_cons, ofBits_nil, List.length_nil] at hd
  rw [h, List.drop_succ_cons, List.drop_zero] at hr'
  have hd' : d = if b then 1 else 0 := by
    apply UInt64.toNat_inj.mp
    cases b <;> simp [hd]
  exact ⟨r', by rw [hrun, hd'], hr'⟩

theorem readUnary_of_read {r r' : BitStreamReader} {bit : UInt64} (h : r.read 1 = .ok (bit, r'))
    (q : UInt64) : readUnary r q = if bit = 1 then readUnary r' (q + 1) else pure (q, r') := by
  rw [readUnary]
  split
  · rename_i e he
    rw [h] at he
    cases he
  · rename_i bit' r'' he
    rw [h] at he
    cases he
    rfl

/-- On ones and then a zero, the unary loop adds up the ones and moves past the zero. -/
theorem readUnary_spec (k : ℕ) {r : BitStreamReader} {rest : List Bool}
    (hr : r.remaining = List.replicate k true ++ false :: rest) (q : UInt64) :
    ∃ r', readUnary r q = .ok (q + k.toUInt64, r') ∧ r'.remaining = rest := by
  induction k generalizing r q with
  | zero =>
    obtain ⟨r', hread, hr'⟩ := read_one_of_remaining_eq_cons hr
    refine ⟨r', ?_, hr'⟩
    have hq : q + (0 : ℕ).toUInt64 = q := by
      apply UInt64.toNat_inj.mp
      simp
    rw [readUnary_of_read hread, if_neg (show ¬ (false = true) by decide),
      if_neg (show ¬ ((0 : UInt64) = 1) by decide), hq]
    rfl
  | succ k ih =>
    rw [List.replicate_succ, List.cons_append] at hr
    obtain ⟨r₁, hread, hr₁⟩ := read_one_of_remaining_eq_cons hr
    obtain ⟨r', hrun, hr'⟩ := ih hr₁ (q + 1)
    refine ⟨r', ?_, hr'⟩
    have hsum : q + 1 + k.toUInt64 = q + (k + 1).toUInt64 := by
      apply UInt64.toNat_inj.mp
      simp
      omega
    rw [readUnary_of_read hread, if_pos rfl, if_pos rfl, hrun, hsum]

/-- On a stream that starts with the Golomb-Rice code of `x`, `GolombRiceDecode` returns `x` and
moves past the code. -/
theorem golombRiceDecode_spec {P : UInt8} (hP : P.toNat ≤ 63) (x : UInt64) {r : BitStreamReader}
    {rest : List Bool} (hr : r.remaining = riceCode P.toNat x.toNat ++ rest) :
    ∃ r', golombRiceDecode r P = .ok (x, r') ∧ r'.remaining = rest := by
  rw [riceCode, List.append_assoc, List.cons_append] at hr
  obtain ⟨r₁, hrun₁, hr₁⟩ := readUnary_spec (x.toNat / 2 ^ P.toNat) hr 0
  have hlen : P.toNat ≤ r₁.remaining.length := by
    rw [hr₁, List.length_append, length_bitsOf]
    omega
  obtain ⟨d, r₂, hrun₂, hd, hr₂⟩ := BitStreamReader.read_spec (show P.toNat ≤ 64 by omega) hlen
  rw [hr₁, List.take_left' (length_bitsOf _ _), ofBits_bitsOf] at hd
  rw [hr₁, List.drop_left' (length_bitsOf _ _)] at hr₂
  refine ⟨r₂, ?_, hr₂⟩
  -- the quotient shifted back up, plus the remainder, is `x`
  have hx : (0 + (x.toNat / 2 ^ P.toNat).toUInt64) <<< P.toUInt64 + d = x := by
    have hq : x.toNat / 2 ^ P.toNat * 2 ^ P.toNat ≤ x.toNat := Nat.div_mul_le_self _ _
    have hlt := x.toNat_lt
    apply UInt64.toNat_inj.mp
    rw [UInt64.toNat_add, UInt64.toNat_shiftLeft, UInt64.zero_add, UInt8.toNat_toUInt64,
      Nat.mod_eq_of_lt (show P.toNat < 64 by omega), Nat.toUInt64_eq, UInt64.toNat_ofNat',
      Nat.mod_eq_of_lt (lt_of_le_of_lt (Nat.div_le_self _ _) hlt), Nat.shiftLeft_eq,
      Nat.mod_eq_of_lt (lt_of_le_of_lt hq hlt), hd, Nat.div_add_mod']
    exact Nat.mod_eq_of_lt hlt
  rw [golombRiceDecode, hrun₁]
  show (r₁.read P.toNat >>= fun p => pure ((_ <<< P.toUInt64) + p.1, p.2)) = _
  rw [hrun₂]
  show Except.ok ((0 + (x.toNat / 2 ^ P.toNat).toUInt64) <<< P.toUInt64 + d, r₂) = _
  rw [hx]

/-! ### Sequences of codes -/

/-- `GolombRiceEncode` on each of `xs` in turn appends their codes, in order. -/
theorem foldlM_golombRiceEncode_spec {P : UInt8} (hP : P.toNat ≤ 63) (xs : List UInt64)
    {w : BitStreamWriter} (hw : w.Clean) :
    ∃ w', xs.foldlM (fun w x => golombRiceEncode w P x) w = .ok w' ∧ w'.Clean ∧
      w'.bits = w.bits ++ xs.flatMap (fun x => riceCode P.toNat x.toNat) ∧
      w.ostream <+: w'.ostream := by
  induction xs generalizing w with
  | nil => exact ⟨w, rfl, hw, by rw [List.flatMap_nil, List.append_nil], List.prefix_refl _⟩
  | cons x xs ih =>
    obtain ⟨w₁, hrun₁, hclean₁, hbits₁, hpre₁⟩ := golombRiceEncode_spec hP x hw
    obtain ⟨w', hrun, hclean', hbits', hpre'⟩ := ih hclean₁
    refine ⟨w', ?_, hclean', ?_, hpre₁.trans hpre'⟩
    · rw [List.foldlM_cons, hrun₁]
      exact hrun
    · rw [hbits', hbits₁, List.flatMap_cons, List.append_assoc]

/-- `n` calls of `GolombRiceDecode` on the codes of `n` values return them, in order. -/
theorem golombRiceDecodeN_spec {P : UInt8} (hP : P.toNat ≤ 63) (xs : List UInt64)
    {r : BitStreamReader} {rest : List Bool}
    (hr : r.remaining = xs.flatMap (fun x => riceCode P.toNat x.toNat) ++ rest) :
    ∃ r', golombRiceDecodeN P xs.length r = .ok (xs, r') ∧ r'.remaining = rest := by
  induction xs generalizing r with
  | nil => exact ⟨r, rfl, by rw [hr, List.flatMap_nil, List.nil_append]⟩
  | cons x xs ih =>
    rw [List.flatMap_cons, List.append_assoc] at hr
    obtain ⟨r₁, hrun₁, hr₁⟩ := golombRiceDecode_spec hP x hr
    obtain ⟨r', hrun, hr'⟩ := ih hr₁
    refine ⟨r', ?_, hr'⟩
    rw [List.length_cons, golombRiceDecodeN, hrun₁]
    show (golombRiceDecodeN P xs.length r₁ >>= fun p => pure (x :: p.1, p.2)) = _
    rw [hrun]
    rfl

/-- Golomb-Rice coding through the bit streams returns every sequence of values: what a new
writer on an empty vector writes for `xs`, flushed, a new reader reads back, to the last byte. -/
theorem golombRice_roundtrip {P : UInt8} (hP : P.toNat ≤ 63) (xs : List UInt64) :
    ∃ w, xs.foldlM (fun w x => golombRiceEncode w P x) (BitStreamWriter.init []) = .ok w ∧
      ∃ r, golombRiceDecodeN P xs.length (BitStreamReader.init (BitStreamWriter.flush w).ostream) =
        .ok (xs, r) ∧ r.istream = [] := by
  obtain ⟨w, hrun, hclean, hbits, -⟩ :=
    foldlM_golombRiceEncode_spec hP xs (BitStreamWriter.clean_init [])
  obtain ⟨hoff, -, hflush, -⟩ := BitStreamWriter.flush_spec hclean
  -- the flushed bytes hold the codes, then fewer than eight bits of padding
  have hbytes : bytesBits (BitStreamWriter.flush w).ostream =
      xs.flatMap (fun x => riceCode P.toNat x.toNat) ++
        List.replicate ((8 - w.offset.val) % 8) false := by
    rw [← BitStreamWriter.bits_of_offset_eq_zero hoff, hflush, hbits, BitStreamWriter.bits_init,
      bytesBits_nil, List.nil_append]
  obtain ⟨r, hdec, hr⟩ := golombRiceDecodeN_spec hP xs
    (by rw [BitStreamReader.remaining_init, hbytes])
  refine ⟨w, hrun, r, hdec, BitStreamReader.istream_eq_nil ?_⟩
  rw [hr, List.length_replicate]
  omega

end BitcoinCash
