import BitcoinCash.Data.BitList

/-!
# Bit streams

`BitStreamWriter` and `BitStreamReader` of `streams.h` write and read numbers of up to 64 bits,
most significant bit first, packed into bytes from the high bit down. The writer keeps the bits of
an incomplete byte in `m_buffer`, of which `m_offset` high bits are used, and writes the byte out
when all eight are; `Flush` writes out an incomplete byte padded with zeros. The reader takes a new
byte from its stream whenever all eight bits of its buffer are read.

Each is modelled as it computes, with `UInt64` and `UInt8` shifts, and refines a list of bits: the
writer the bits written so far (`BitStreamWriter.bits`), to which `Write(data, nbits)` appends
the low `nbits` bits of `data` (`BitStreamWriter.writeLoop_spec`); the reader the bits not yet
read (`BitStreamReader.remaining`), of which `Read(nbits)` takes the first `nbits` and returns
their number (`BitStreamReader.readLoop_spec`).
-/

namespace BitcoinCash

open BitList

/-- The text of the exception `VectorReader::read` throws past the end of its data. -/
def vectorReaderEndOfData : String := "VectorReader::read(): end of data"

/-- The text of the exception `Read` and `Write` throw for more than 64 bits; a negative count,
which they refuse too, is not modelled. -/
def nbitsOutOfRange : String := "nbits must be between 0 and 64"

/-- `BitStreamWriter` over a `CVectorWriter`: the bytes of the vector, `m_buffer`, and `m_offset`,
the number of high bits of `m_buffer` already written. `m_offset` reaching `8` flushes the buffer,
so that it is below `8` between calls. -/
structure BitStreamWriter where
  ostream : List UInt8
  buffer : UInt8
  offset : Fin 8

namespace BitStreamWriter

/-- A new writer on a stream that holds `ostream`. -/
def init (ostream : List UInt8) : BitStreamWriter := ⟨ostream, 0, 0⟩

/-- `Flush()`: write out the incomplete byte, padded with zeros. -/
def flush (w : BitStreamWriter) : BitStreamWriter :=
  if w.offset = 0 then w else ⟨w.ostream ++ [w.buffer], 0, 0⟩

/-- The loop of `Write(data, nbits)`: put the next `min(8 - m_offset, nbits)` bits of the low
`nbits` bits of `data` into the buffer, and flush it once it is full. -/
def writeLoop (data : UInt64) (nbits : ℕ) (w : BitStreamWriter) : BitStreamWriter :=
  if _hn : nbits = 0 then w
  else
    let bits := min (8 - w.offset.val) nbits
    let buffer := w.buffer |||
      ((data <<< (64 - nbits).toUInt64) >>> (64 - 8 + w.offset.val).toUInt64).toUInt8
    let w' : BitStreamWriter :=
      if h : w.offset.val + bits < 8 then ⟨w.ostream, buffer, ⟨w.offset.val + bits, h⟩⟩
      -- `m_offset == 8`: `Flush()`
      else ⟨w.ostream ++ [buffer], 0, 0⟩
    writeLoop data (nbits - bits) w'
termination_by nbits
decreasing_by omega

/-- `Write(data, nbits)`. -/
def write (w : BitStreamWriter) (data : UInt64) (nbits : ℕ) : Except String BitStreamWriter :=
  if nbits > 64 then throw nbitsOutOfRange else pure (writeLoop data nbits w)

/-- The bits written so far: those of the stream, then the `m_offset` high bits of the buffer. -/
def bits (w : BitStreamWriter) : List Bool :=
  bytesBits w.ostream ++ bitsOf (w.buffer.toNat / 2 ^ (8 - w.offset.val)) w.offset.val

/-- The bits of the buffer below `m_offset` are clear. -/
def Clean (w : BitStreamWriter) : Prop := w.buffer.toNat % 2 ^ (8 - w.offset.val) = 0

theorem clean_init (ostream : List UInt8) : Clean (init ostream) := rfl

@[simp] theorem bits_init (ostream : List UInt8) : (init ostream).bits = bytesBits ostream := by
  simp [bits, init]

/-- What one iteration of `Write` puts into the buffer: the next `bits` bits of the value,
placed below the `m_offset` bits already there. -/
theorem toNat_chunk (data : UInt64) {nbits o : ℕ} (hn0 : 0 < nbits) (hn : nbits ≤ 64) (ho : o < 8) :
    (((data <<< (64 - nbits).toUInt64) >>> (64 - 8 + o).toUInt64).toUInt8).toNat =
      data.toNat % 2 ^ nbits / 2 ^ (nbits - min (8 - o) nbits) *
        2 ^ (8 - o - min (8 - o) nbits) := by
  have hs1 : ((64 - nbits).toUInt64).toNat = 64 - nbits := by simp; omega
  have hs2 : ((64 - 8 + o).toUInt64).toNat = 56 + o := by simp; omega
  -- the shift left keeps the low `nbits` bits, at the top of the word
  have hshl : (data <<< (64 - nbits).toUInt64).toNat = data.toNat % 2 ^ nbits * 2 ^ (64 - nbits) := by
    rw [UInt64.toNat_shiftLeft, hs1, Nat.mod_eq_of_lt (show 64 - nbits < 64 by omega),
      Nat.shiftLeft_eq,
      show 2 ^ 64 = 2 ^ nbits * 2 ^ (64 - nbits) by rw [← pow_add]; congr 1; omega,
      Nat.mul_mod_mul_right]
  have hv := Nat.mod_lt data.toNat (Nat.two_pow_pos nbits)
  set v := data.toNat % 2 ^ nbits
  rw [UInt64.toNat_toUInt8, UInt64.toNat_shiftRight, hs2,
    Nat.mod_eq_of_lt (show 56 + o < 64 by omega), hshl, Nat.shiftRight_eq_div_pow]
  rcases Nat.lt_or_ge nbits (8 - o) with hlt | hle
  · -- the whole value, shifted up to its place in the byte
    rw [min_eq_right hlt.le, Nat.sub_self, pow_zero, Nat.div_one,
      show 64 - nbits = (56 + o) + (8 - o - nbits) by omega, pow_add, ← Nat.mul_assoc,
      Nat.mul_right_comm, Nat.mul_div_cancel _ (Nat.two_pow_pos _)]
    refine Nat.mod_eq_of_lt (lt_of_lt_of_le (b := 2 ^ nbits * 2 ^ (8 - o - nbits)) ?_ ?_)
    · exact Nat.mul_lt_mul_of_pos_right hv (Nat.two_pow_pos _)
    · rw [← pow_add]
      exact Nat.pow_le_pow_right (by omega) (by omega)
  · -- a full remainder of the byte: the top `8 - o` bits of the value
    rw [min_eq_left hle, Nat.sub_self, pow_zero, Nat.mul_one,
      show 56 + o = (64 - nbits) + (nbits - (8 - o)) by omega, pow_add,
      Nat.mul_comm (2 ^ (64 - nbits)), Nat.mul_div_mul_right _ _ (Nat.two_pow_pos _)]
    refine Nat.mod_eq_of_lt (lt_of_lt_of_le (Nat.div_lt_of_lt_mul ?_) (Nat.pow_le_pow_right
      (by omega) (show 8 - o ≤ 8 by omega)))
    rw [← pow_add, show nbits - (8 - o) + (8 - o) = nbits by omega]
    exact hv

/-- Or-ing a chunk below the bits already in a clean buffer adds it. -/
theorem toNat_or_of_clean {w : BitStreamWriter} (hw : Clean w) {c : UInt8}
    (hc : c.toNat < 2 ^ (8 - w.offset.val)) :
    (w.buffer ||| c).toNat =
      w.buffer.toNat / 2 ^ (8 - w.offset.val) * 2 ^ (8 - w.offset.val) + c.toNat := by
  obtain ⟨B, hB⟩ : ∃ B, w.buffer.toNat = B * 2 ^ (8 - w.offset.val) :=
    ⟨_, (Nat.div_mul_cancel (Nat.dvd_of_mod_eq_zero hw)).symm⟩
  rw [UInt8.toNat_or, hB, Nat.mul_div_cancel _ (Nat.two_pow_pos _), ← Nat.shiftLeft_eq,
    Nat.shiftLeft_add_eq_or_of_lt hc]

/-- `Write(data, nbits)` appends the low `nbits` bits of `data` and keeps the buffer clean; the
bytes already written stay. The induction follows the loop: each iteration moves the next bits
of the value into the buffer. -/
theorem writeLoop_spec (data : UInt64) {nbits : ℕ} (hn : nbits ≤ 64) {w : BitStreamWriter}
    (hw : Clean w) :
    Clean (writeLoop data nbits w) ∧
      (writeLoop data nbits w).bits = w.bits ++ bitsOf data.toNat nbits ∧
      w.ostream <+: (writeLoop data nbits w).ostream := by
  fun_induction writeLoop data nbits w with
  | case1 w =>
    exact ⟨hw, by rw [bitsOf_zero, List.append_nil], List.prefix_refl _⟩
  | case2 nbits w hn0 bits buffer w' ih =>
    have ho := w.offset.isLt
    set o := w.offset.val
    have hb : bits = min (8 - o) nbits := rfl
    -- the next `bits` bits of the value, `V`, placed below the `o` bits of the buffer
    have hchunk := toNat_chunk data (Nat.pos_of_ne_zero hn0) hn ho
    rw [← hb] at hchunk
    set V := data.toNat % 2 ^ nbits / 2 ^ (nbits - bits) with hVdef
    have hV : V < 2 ^ bits := by
      refine Nat.div_lt_of_lt_mul ?_
      rw [← pow_add, show nbits - bits + bits = nbits by omega]
      exact Nat.mod_lt _ (Nat.two_pow_pos _)
    have hpow : 2 ^ (8 - o) = 2 ^ bits * 2 ^ (8 - o - bits) := by
      rw [← pow_add]
      congr 1
      omega
    have hchunk_lt : (((data <<< (64 - nbits).toUInt64) >>> (64 - 8 + o).toUInt64).toUInt8).toNat <
        2 ^ (8 - o) := by
      rw [hchunk, hpow]
      exact Nat.mul_lt_mul_of_pos_right hV (Nat.two_pow_pos _)
    set B := w.buffer.toNat / 2 ^ (8 - o)
    have hbuf : buffer.toNat = (B * 2 ^ bits + V) * 2 ^ (8 - o - bits) := by
      have hor : buffer.toNat = B * 2 ^ (8 - o) + V * 2 ^ (8 - o - bits) := by
        show (w.buffer ||| _).toNat = _
        rw [toNat_or_of_clean hw hchunk_lt, hchunk]
      rw [hor, hpow]
      ring
    -- the bits written: those of the buffer, then the next `bits` of the value
    have happend : bitsOf (B * 2 ^ bits + V) (o + bits) =
        bitsOf B o ++ (bitsOf data.toNat nbits).take bits := by
      rw [bitsOf_add hV, ← bitsOf_mod data.toNat nbits, bitsOf_div (by omega)]
    have hw' : Clean w' ∧ w'.bits = w.bits ++ (bitsOf data.toNat nbits).take bits ∧
        w.ostream <+: w'.ostream := by
      by_cases hlt : o + bits < 8
      · have hdiv : buffer.toNat / 2 ^ (8 - (o + bits)) = B * 2 ^ bits + V := by
          rw [hbuf, show 8 - (o + bits) = 8 - o - bits by omega,
            Nat.mul_div_cancel _ (Nat.two_pow_pos _)]
        rw [show w' = ⟨w.ostream, buffer, ⟨o + bits, hlt⟩⟩ from dif_pos hlt]
        refine ⟨?_, ?_, ?_⟩
        · show buffer.toNat % 2 ^ (8 - (o + bits)) = 0
          rw [hbuf, show 8 - (o + bits) = 8 - o - bits by omega, Nat.mul_mod_left]
        · show bytesBits w.ostream ++ bitsOf (buffer.toNat / 2 ^ (8 - (o + bits))) (o + bits) = _
          rw [hdiv, happend, BitStreamWriter.bits, List.append_assoc]
        · exact List.prefix_refl _
      · have hfull : o + bits = 8 := by omega
        have hlast : buffer.toNat = B * 2 ^ bits + V := by
          rw [hbuf, show 8 - o - bits = 0 by omega, pow_zero, Nat.mul_one]
        rw [show w' = ⟨w.ostream ++ [buffer], 0, 0⟩ from dif_neg hlt]
        refine ⟨rfl, ?_, List.prefix_append _ _⟩
        show bytesBits (w.ostream ++ [buffer]) ++ bitsOf (0 / 2 ^ 8) 0 = _
        rw [bitsOf_zero, List.append_nil, bytesBits_append, bytesBits_cons, bytesBits_nil,
          List.append_nil, ← hfull, hlast, happend, BitStreamWriter.bits, List.append_assoc]
    obtain ⟨hclean', hbits', hpre'⟩ := hw'
    obtain ⟨hclean, hbits, hpre⟩ := ih (by omega) hclean'
    refine ⟨hclean, ?_, hpre'.trans hpre⟩
    rw [hbits, hbits', List.append_assoc, ← bitsOf_drop (show bits ≤ nbits by omega),
      List.take_append_drop]

theorem bits_of_offset_eq_zero {w : BitStreamWriter} (h : w.offset = 0) :
    w.bits = bytesBits w.ostream := by
  rw [BitStreamWriter.bits, h, Fin.val_zero, bitsOf_zero, List.append_nil]

/-- `Flush()` pads the bits written with zeros up to a whole byte, and empties the buffer. -/
theorem flush_spec {w : BitStreamWriter} (hw : Clean w) :
    (flush w).offset = 0 ∧ Clean (flush w) ∧
      (flush w).bits = w.bits ++ List.replicate ((8 - w.offset.val) % 8) false ∧
      w.ostream <+: (flush w).ostream := by
  rw [flush]
  split_ifs with h0
  · -- nothing to pad
    have hmod : (8 - w.offset.val) % 8 = 0 := by rw [h0, Fin.val_zero]
    exact ⟨h0, hw, by rw [hmod, List.replicate_zero, List.append_nil], List.prefix_refl _⟩
  · have ho := w.offset.isLt
    have hpos : 0 < w.offset.val := Nat.pos_of_ne_zero (fun h => h0 (Fin.ext h))
    obtain ⟨B, hB⟩ : ∃ B, w.buffer.toNat = B * 2 ^ (8 - w.offset.val) + 0 :=
      ⟨_, by rw [Nat.add_zero, Nat.div_mul_cancel (Nat.dvd_of_mod_eq_zero hw)]⟩
    -- the buffer's byte is its `offset` bits followed by the zeros below them
    have hbyte : bitsOf w.buffer.toNat 8 =
        bitsOf B w.offset.val ++ List.replicate (8 - w.offset.val) false := by
      rw [hB, ← bitsOf_zero_eq_replicate, ← bitsOf_add (Nat.two_pow_pos _),
        Nat.add_sub_cancel' ho.le]
    refine ⟨rfl, rfl, ?_, List.prefix_append _ _⟩
    rw [bits_of_offset_eq_zero rfl, bytesBits_append, bytesBits_cons, bytesBits_nil,
      List.append_nil, hbyte, BitStreamWriter.bits, List.append_assoc, hB, Nat.add_zero,
      Nat.mul_div_cancel _ (Nat.two_pow_pos _), Nat.mod_eq_of_lt (show 8 - w.offset.val < 8 by omega)]

theorem write_of_le (w : BitStreamWriter) (data : UInt64) {nbits : ℕ} (h : nbits ≤ 64) :
    w.write data nbits = .ok (writeLoop data nbits w) := by
  rw [write, if_neg (by omega)]
  rfl

end BitStreamWriter

/-- `BitStreamReader` over a `VectorReader`: the bytes the stream has not delivered, `m_buffer`,
and `m_offset`, the number of high bits of `m_buffer` already read, `8` when a new byte is
needed. -/
structure BitStreamReader where
  istream : List UInt8
  buffer : UInt8
  offset : Fin 9

namespace BitStreamReader

/-- A new reader on a stream that holds `istream`: `m_buffer{0}`, `m_offset{8}`. -/
def init (istream : List UInt8) : BitStreamReader := ⟨istream, 0, 8⟩

/-- `if (m_offset == 8) { m_istream >> m_buffer; m_offset = 0; }`: the stream, the buffer, and an
offset with a bit left to read. -/
def refill (r : BitStreamReader) : Except String (List UInt8 × UInt8 × Fin 8) :=
  if h : r.offset.val < 8 then pure (r.istream, r.buffer, ⟨r.offset.val, h⟩)
  else
    match r.istream with
    | [] => throw vectorReaderEndOfData
    | b :: rest => pure (rest, b, 0)

/-- The loop of `Read(nbits)`: shift the next `min(8 - m_offset, nbits)` bits of the buffer into
the low bits of `data`. -/
def readLoop (nbits : ℕ) (r : BitStreamReader) (data : UInt64) :
    Except String (UInt64 × BitStreamReader) :=
  if _hn : nbits = 0 then pure (data, r)
  else
    match refill r with
    | .error e => .error e
    | .ok (istream, buffer, offset) =>
      let bits := min (8 - offset.val) nbits
      let data := (data <<< bits.toUInt64) |||
        ((buffer <<< offset.val.toUInt8) >>> (8 - bits).toUInt8).toUInt64
      readLoop (nbits - bits) ⟨istream, buffer, ⟨offset.val + bits, by omega⟩⟩ data
termination_by nbits
decreasing_by omega

/-- `Read(nbits)`. -/
def read (r : BitStreamReader) (nbits : ℕ) : Except String (UInt64 × BitStreamReader) :=
  if nbits > 64 then throw nbitsOutOfRange else readLoop nbits r 0

/-- The bits not read yet: the `8 - m_offset` low bits of the buffer, then those of the
stream. -/
def remaining (r : BitStreamReader) : List Bool :=
  bitsOf r.buffer.toNat (8 - r.offset.val) ++ bytesBits r.istream

@[simp] theorem remaining_init (istream : List UInt8) :
    (init istream).remaining = bytesBits istream := rfl

theorem length_remaining (r : BitStreamReader) :
    r.remaining.length = 8 - r.offset.val + 8 * r.istream.length := by
  rw [remaining, List.length_append, length_bitsOf, length_bytesBits]

/-- Taking a new byte into the buffer leaves the bits to read as they are. -/
theorem remaining_of_refill {r : BitStreamReader} {istream : List UInt8} {buffer : UInt8}
    {offset : Fin 8} (h : refill r = .ok (istream, buffer, offset)) :
    bitsOf buffer.toNat (8 - offset.val) ++ bytesBits istream = r.remaining := by
  unfold refill at h
  split_ifs at h with ho
  · cases h
    rfl
  · have h8 : r.offset.val = 8 := by omega
    rw [remaining, h8, Nat.sub_self, bitsOf_zero, List.nil_append]
    split at h
    · cases h
    · rename_i b rest hs
      cases h
      rw [hs, bytesBits_cons]
      rfl

/-- The stream runs out exactly when no bit is left. -/
theorem refill_eq_error {r : BitStreamReader} {e : String} (h : refill r = .error e) :
    r.remaining = [] ∧ e = vectorReaderEndOfData := by
  unfold refill at h
  split_ifs at h with ho
  · cases h
  · have h8 : r.offset.val = 8 := by omega
    split at h
    · rename_i hs
      cases h
      rw [remaining, h8, hs, Nat.sub_self, bitsOf_zero, bytesBits_nil, List.append_nil]
      exact ⟨rfl, rfl⟩
    · cases h

/-- What one iteration of `Read` takes from the buffer: the next `bits` of the bits left in it. -/
theorem toNat_readChunk (buffer : UInt8) {o bits : ℕ} (ho : o < 8) (hb0 : 0 < bits)
    (hb : bits ≤ 8 - o) :
    ((buffer <<< o.toUInt8) >>> (8 - bits).toUInt8).toNat =
      ofBits ((bitsOf buffer.toNat (8 - o)).take bits) := by
  have hs1 : (o.toUInt8).toNat % 8 = o := by simp; omega
  have hs2 : ((8 - bits).toUInt8).toNat % 8 = 8 - bits := by simp; omega
  have hv := Nat.mod_lt buffer.toNat (Nat.two_pow_pos (8 - o))
  -- shifting left by `o` drops the bits already read, and keeps the others in place
  have hshl : (buffer <<< o.toUInt8).toNat = buffer.toNat % 2 ^ (8 - o) * 2 ^ o := by
    rw [UInt8.toNat_shiftLeft, hs1, Nat.shiftLeft_eq,
      show 2 ^ 8 = 2 ^ (8 - o) * 2 ^ o by rw [← pow_add]; congr 1; omega,
      Nat.mul_mod_mul_right]
  have hlt : buffer.toNat % 2 ^ (8 - o) / 2 ^ (8 - o - bits) < 2 ^ bits := by
    refine Nat.div_lt_of_lt_mul ?_
    rw [← pow_add, show 8 - o - bits + bits = 8 - o by omega]
    exact hv
  rw [UInt8.toNat_shiftRight, hs2, hshl, Nat.shiftRight_eq_div_pow,
    show 8 - bits = (8 - o - bits) + o by omega, pow_add,
    Nat.mul_div_mul_right _ _ (Nat.two_pow_pos _), ← bitsOf_mod buffer.toNat (8 - o),
    bitsOf_div hb, ofBits_bitsOf, Nat.mod_eq_of_lt hlt]

/-- Shifting `data` left by `k ≤ 8` and or-ing in a chunk below `2 ^ k` appends the chunk. -/
theorem toNat_shiftLeft_or (data : UInt64) {k : ℕ} (hk : k ≤ 8) {c : UInt8}
    (hc : c.toNat < 2 ^ k) :
    ((data <<< k.toUInt64) ||| c.toUInt64).toNat = (data.toNat * 2 ^ k + c.toNat) % 2 ^ 64 := by
  have hs : (k.toUInt64).toNat % 64 = k := by simp; omega
  have h64 : 2 ^ 64 = 2 ^ (64 - k) * 2 ^ k := by rw [← pow_add]; congr 1; omega
  set M := 2 ^ (64 - k)
  have hr : data.toNat % M * 2 ^ k + c.toNat < M * 2 ^ k :=
    calc data.toNat % M * 2 ^ k + c.toNat < (data.toNat % M + 1) * 2 ^ k := by
          rw [Nat.succ_mul]
          omega
      _ ≤ M * 2 ^ k := Nat.mul_le_mul_right _ (Nat.mod_lt _ (Nat.two_pow_pos _))
  -- the shift keeps the low `64 - k` bits of `data`, with room for the chunk below them
  have hsum : (data.toNat * 2 ^ k + c.toNat) % 2 ^ 64 = data.toNat % M * 2 ^ k + c.toNat := by
    have hsplit : data.toNat * 2 ^ k + c.toNat =
        M * 2 ^ k * (data.toNat / M) + (data.toNat % M * 2 ^ k + c.toNat) := by
      conv_lhs => rw [← Nat.div_add_mod data.toNat M]
      ring
    rw [h64, hsplit, Nat.mul_add_mod, Nat.mod_eq_of_lt hr]
  rw [UInt64.toNat_or, UInt64.toNat_shiftLeft, hs, UInt8.toNat_toUInt64, Nat.shiftLeft_eq, h64,
    Nat.mul_mod_mul_right, ← Nat.shiftLeft_eq, ← Nat.shiftLeft_add_eq_or_of_lt hc,
    Nat.shiftLeft_eq, ← h64, hsum]
/-- Reducing the accumulator before shifting it on changes nothing modulo `m`. -/
private theorem mod_mul_add_mod (x y z m : ℕ) : (x % m * y + z) % m = (x * y + z) % m := by
  rw [Nat.add_mod, Nat.mul_mod, Nat.mod_mod, ← Nat.mul_mod, ← Nat.add_mod]

/-- `Read`'s loop, given enough bits, takes the next `nbits` of them and shifts them into the low
bits of `data`. The induction follows the loop: each iteration takes the next `bits` bits of the
buffer, after a new byte is read into it if none is left. -/
theorem readLoop_spec {nbits : ℕ} {r : BitStreamReader} (data : UInt64)
    (hn : nbits ≤ r.remaining.length) :
    ∃ d r', readLoop nbits r data = .ok (d, r') ∧
      d.toNat = (data.toNat * 2 ^ nbits + ofBits (r.remaining.take nbits)) % 2 ^ 64 ∧
      r'.remaining = r.remaining.drop nbits := by
  fun_induction readLoop nbits r data with
  | case1 r data =>
    refine ⟨data, r, rfl, ?_, rfl⟩
    rw [pow_zero, Nat.mul_one, List.take_zero, ofBits_nil, Nat.add_zero,
      Nat.mod_eq_of_lt data.toNat_lt]
  | case2 nbits r data hn0 e hrefill =>
    rw [(refill_eq_error hrefill).1, List.length_nil] at hn
    omega
  | case3 nbits r data hn0 istream buffer offset hrefill bits data' ih =>
    have ho := offset.isLt
    have hb : bits = min (8 - offset.val) nbits := rfl
    have hrem := remaining_of_refill hrefill
    -- the bits this iteration takes all lie in the buffer
    have hinbuf : bits ≤ (bitsOf buffer.toNat (8 - offset.val)).length := by
      rw [length_bitsOf]
      omega
    have hchunk := toNat_readChunk buffer ho (show 0 < bits by omega) (show bits ≤ 8 - offset.val by omega)
    have hchunk_lt : ((buffer <<< offset.val.toUInt8) >>> (8 - bits).toUInt8).toNat < 2 ^ bits := by
      rw [hchunk]
      exact lt_of_lt_of_le (ofBits_lt _) (Nat.pow_le_pow_right (by omega) (List.length_take_le _ _))
    have hdata : data'.toNat =
        (data.toNat * 2 ^ bits + ofBits (r.remaining.take bits)) % 2 ^ 64 := by
      rw [← hrem, List.take_append_of_le_length hinbuf, ← hchunk]
      exact toNat_shiftLeft_or data (by omega) hchunk_lt
    have hrem' : ∀ h, (BitStreamReader.mk istream buffer ⟨offset.val + bits, h⟩).remaining =
        r.remaining.drop bits := by
      intro h
      rw [← hrem, List.drop_append_of_le_length hinbuf, bitsOf_drop (by omega), remaining,
        Nat.sub_add_eq]
    rw [hrem'] at ih
    have hlen : nbits - bits ≤ (r.remaining.drop bits).length := by
      rw [List.length_drop]
      omega
    obtain ⟨d, r', hrun, hd, hr'⟩ := ih hlen
    refine ⟨d, r', hrun, ?_, ?_⟩
    · -- the bits of this iteration, then those of the rest of the loop
      have hsplit : r.remaining.take nbits =
          r.remaining.take bits ++ (r.remaining.drop bits).take (nbits - bits) := by
        rw [← List.take_add, Nat.add_sub_cancel' (by omega)]
      rw [hd, hdata, mod_mul_add_mod, hsplit, ofBits_append, List.length_take,
        min_eq_left hlen]
      congr 1
      rw [show 2 ^ nbits = 2 ^ bits * 2 ^ (nbits - bits) by
        rw [← pow_add, Nat.add_sub_cancel' (by omega)]]
      ring
    · rw [hr', List.drop_drop, Nat.add_sub_cancel' (by omega)]

/-- With fewer bits left than asked for, the stream runs out. -/
theorem readLoop_error {nbits : ℕ} {r : BitStreamReader} (data : UInt64)
    (hn : r.remaining.length < nbits) : readLoop nbits r data = .error vectorReaderEndOfData := by
  fun_induction readLoop nbits r data with
  | case1 r data => omega
  | case2 nbits r data hn0 e hrefill =>
    rw [(refill_eq_error hrefill).2]
  | case3 nbits r data hn0 istream buffer offset hrefill bits data' ih =>
    have hrem := remaining_of_refill hrefill
    have hlen := congrArg List.length hrem
    rw [List.length_append, length_bitsOf] at hlen
    have hb : bits = min (8 - offset.val) nbits := rfl
    refine ih ?_
    show (bitsOf buffer.toNat (8 - (offset.val + bits)) ++ bytesBits istream).length < nbits - bits
    rw [List.length_append, length_bitsOf]
    omega

/-- `Read(nbits)` returns the number of the next `nbits` bits and moves past them. -/
theorem read_spec {nbits : ℕ} (h64 : nbits ≤ 64) {r : BitStreamReader}
    (hn : nbits ≤ r.remaining.length) :
    ∃ d r', r.read nbits = .ok (d, r') ∧ d.toNat = ofBits (r.remaining.take nbits) ∧
      r'.remaining = r.remaining.drop nbits := by
  obtain ⟨d, r', hrun, hd, hr'⟩ := readLoop_spec 0 hn
  refine ⟨d, r', by rw [read, if_neg (by omega), hrun], ?_, hr'⟩
  have hlt : ofBits (r.remaining.take nbits) < 2 ^ 64 :=
    lt_of_lt_of_le (ofBits_lt _)
      (Nat.pow_le_pow_right (by omega) ((List.length_take_le _ _).trans h64))
  rw [hd, UInt64.toNat_zero, Nat.zero_mul, Nat.zero_add, Nat.mod_eq_of_lt hlt]

theorem read_error {nbits : ℕ} (h64 : nbits ≤ 64) {r : BitStreamReader}
    (hn : r.remaining.length < nbits) : r.read nbits = .error vectorReaderEndOfData := by
  rw [read, if_neg (by omega), readLoop_error 0 hn]

/-- A read of one bit that succeeds moves past one bit. -/
theorem length_remaining_lt_of_read_one {r r' : BitStreamReader} {bit : UInt64}
    (h : r.read 1 = .ok (bit, r')) : r'.remaining.length < r.remaining.length := by
  by_cases hlen : 1 ≤ r.remaining.length
  · obtain ⟨d, r'', hrun, -, hr''⟩ := read_spec (by omega) hlen
    rw [hrun] at h
    cases h
    rw [hr'', List.length_drop]
    omega
  · rw [read_error (by omega) (by omega)] at h
    cases h

/-- With fewer than eight bits left, the stream has delivered all its bytes. -/
theorem istream_eq_nil {r : BitStreamReader} (h : r.remaining.length < 8) : r.istream = [] := by
  rw [length_remaining] at h
  exact List.eq_nil_of_length_eq_zero (by omega)

end BitStreamReader

end BitcoinCash
