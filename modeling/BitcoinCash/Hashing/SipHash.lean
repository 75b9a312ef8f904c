import BitcoinCash.Bytes.LittleEndian

/-!
# SipHash-2-4

`crypto/siphash.cpp`: the incremental hasher `CSipHasher`, which takes bytes and aligned 64-bit
words in any chunks, and `SipHashUint256` and `SipHashUint256Extra`, written out for a hash and
for a hash with a 32-bit index. `sipHash24` is SipHash-2-4 of a message as the SipHash paper
defines it: its 8-byte little-endian words, then a last word of its remaining bytes with its
length modulo 256 in the top byte, each absorbed with two rounds, then four rounds.

After any chunks the hasher holds the words written so far absorbed and the remaining bytes
pending (`Holds`), so every way of feeding a message gives its hash, and the two specialised
routines are the hasher on 32 and on 36 bytes.
-/

namespace BitcoinCash.SipHash

open Bytes

/-- The state words `v[0]` … `v[3]`. -/
structure SipState where
  v0 : UInt64
  v1 : UInt64
  v2 : UInt64
  v3 : UInt64

/-- `ROTL`. -/
def rotl (x b : UInt64) : UInt64 := (x <<< b) ||| (x >>> (64 - b))

/-- `SIPROUND`. -/
def sipRound (s : SipState) : SipState :=
  let v0 := s.v0 + s.v1
  let v1 := rotl s.v1 13 ^^^ v0
  let v0 := rotl v0 32
  let v2 := s.v2 + s.v3
  let v3 := rotl s.v3 16 ^^^ v2
  let v0 := v0 + v3
  let v3 := rotl v3 21 ^^^ v0
  let v2 := v2 + v1
  let v1 := rotl v1 17 ^^^ v2
  ⟨v0, v1, rotl v2 32, v3⟩

/-- Absorbing one word `m`: `v3 ^= m; SIPROUND; SIPROUND; v0 ^= m`. -/
def compress (s : SipState) (m : UInt64) : SipState :=
  let s := sipRound (sipRound { s with v3 := s.v3 ^^^ m })
  { s with v0 := s.v0 ^^^ m }

/-- The end of `Finalize`: `v2 ^= 0xFF`, four rounds, and the xor of the four words. -/
def finish (s : SipState) : UInt64 :=
  let s := sipRound (sipRound (sipRound (sipRound { s with v2 := s.v2 ^^^ 0xFF })))
  s.v0 ^^^ s.v1 ^^^ s.v2 ^^^ s.v3

/-- The state the constructor sets up from the keys `k0`, `k1`. -/
def initState (k0 k1 : UInt64) : SipState :=
  ⟨0x736f6d6570736575 ^^^ k0, 0x646f72616e646f6d ^^^ k1, 0x6c7967656e657261 ^^^ k0,
    0x7465646279746573 ^^^ k1⟩

/-! ### The hasher -/

/-- `CSipHasher`: the state, the bytes `tmp` of the word being filled, and the number `count` of
bytes written (an `int`, which messages shorter than `2 ^ 31` bytes keep from overflowing). -/
structure CSipHasher where
  v : SipState
  tmp : UInt64
  count : ℕ

namespace CSipHasher

/-- `CSipHasher(k0, k1)`. -/
def init (k0 k1 : UInt64) : CSipHasher := ⟨initState k0 k1, 0, 0⟩

/-- One pass of the loop of `Write(const uint8_t *, size_t)`. -/
def writeByte (h : CSipHasher) (b : UInt8) : CSipHasher :=
  let t := h.tmp ||| b.toUInt64 <<< (8 * (h.count % 8)).toUInt64
  if (h.count + 1) % 8 = 0 then ⟨compress h.v t, 0, h.count + 1⟩ else ⟨h.v, t, h.count + 1⟩

/-- `Write(const uint8_t *data, size_t size)`. -/
def write (h : CSipHasher) (data : List UInt8) : CSipHasher := data.foldl writeByte h

/-- `Write(uint64_t data)`, which asserts `count % 8 == 0`; `none` where the assertion fails. -/
def writeU64 (h : CSipHasher) (data : UInt64) : Option CSipHasher :=
  if h.count % 8 = 0 then some ⟨compress h.v data, h.tmp, h.count + 8⟩ else none

/-- `Finalize`. -/
def finalize (h : CSipHasher) : UInt64 :=
  finish (compress h.v (h.tmp ||| h.count.toUInt64 <<< 56))

end CSipHasher

/-- A piece of input to the hasher: bytes, or a word given to `Write(uint64_t)`, which stands for
its eight little-endian bytes. -/
inductive SipInput where
  | bytes (data : List UInt8)
  | word (data : UInt64)

/-- The bytes an input stands for. -/
def SipInput.toBytes : SipInput → List UInt8
  | .bytes data => data
  | .word data => leBytes 8 data.toNat

/-- The hasher fed a sequence of inputs; `none` where an assertion fails. -/
def feed (h : CSipHasher) : List SipInput → Option CSipHasher
  | [] => some h
  | .bytes data :: ins => feed (h.write data) ins
  | .word data :: ins => (h.writeU64 data).bind (feed · ins)

/-- Every word of a sequence of inputs comes at an offset that is a multiple of 8, counting from
`off`. -/
def Aligned : ℕ → List SipInput → Prop
  | _, [] => True
  | off, .bytes data :: ins => Aligned (off + data.length) ins
  | off, .word _ :: ins => off % 8 = 0 ∧ Aligned (off + 8) ins

/-! ### The specialised routines -/

/-- `base_blob::GetUint64(pos)`. -/
def getUint64 (val : Vector UInt8 32) (pos : ℕ) : UInt64 :=
  let p := fun i => (val.toList.getD (pos * 8 + i) 0).toUInt64
  p 0 ||| p 1 <<< 8 ||| p 2 <<< 16 ||| p 3 <<< 24 ||| p 4 <<< 32 ||| p 5 <<< 40 |||
    p 6 <<< 48 ||| p 7 <<< 56

/-- The four words of a `uint256` absorbed, as `SipHashUint256` and `SipHashUint256Extra` both
begin. -/
def absorbUint256 (k0 k1 : UInt64) (val : Vector UInt8 32) : SipState :=
  compress (compress (compress (compress (initState k0 k1) (getUint64 val 0)) (getUint64 val 1))
    (getUint64 val 2)) (getUint64 val 3)

/-- `SipHashUint256`. -/
def sipHashUint256 (k0 k1 : UInt64) (val : Vector UInt8 32) : UInt64 :=
  finish (compress (absorbUint256 k0 k1 val) ((4 : UInt64) <<< 59))

/-- `SipHashUint256Extra`. -/
def sipHashUint256Extra (k0 k1 : UInt64) (val : Vector UInt8 32) (extra : UInt32) : UInt64 :=
  finish (compress (absorbUint256 k0 k1 val) ((36 : UInt64) <<< 56 ||| extra.toUInt64))

/-! ### SipHash-2-4 -/

/-- The little-endian word of at most eight bytes. -/
def leWord (bs : List UInt8) : UInt64 := UInt64.ofNat (leValue bs)

/-- The first `n` words of `m` absorbed into `s`. -/
def sipAbsorb (s : SipState) (m : List UInt8) : ℕ → SipState
  | 0 => s
  | n + 1 => compress (sipAbsorb s m n) (leWord ((m.drop (8 * n)).take 8))

/-- SipHash-2-4 of `m` with the keys `k0`, `k1`; the shift keeps the length modulo 256. -/
def sipHash24 (k0 k1 : UInt64) (m : List UInt8) : UInt64 :=
  finish (compress (sipAbsorb (initState k0 k1) m (m.length / 8))
    (leWord (m.drop (8 * (m.length / 8))) ||| m.length.toUInt64 <<< 56))

/-- Appending a byte to fewer than eight ORs it in above them. -/
theorem leWord_concat {r : List UInt8} (hr : r.length < 8) (b : UInt8) :
    leWord (r ++ [b]) = leWord r ||| b.toUInt64 <<< (8 * r.length).toUInt64 := by
  apply UInt64.toNat_inj.mp
  -- the new byte lands above the bits of `r`, all below bit 64
  have hval : leValue r < 2 ^ (8 * r.length) := by
    rw [pow_mul]
    exact leValue_lt r
  have hpow : 2 ^ (8 * r.length) * 256 ≤ 2 ^ 64 := by
    rw [show (256 : ℕ) = 2 ^ 8 from rfl, ← pow_add]
    exact Nat.pow_le_pow_right (by norm_num) (by omega)
  have hbyte : b.toNat * 2 ^ (8 * r.length) ≤ 255 * 2 ^ (8 * r.length) :=
    Nat.mul_le_mul_right _ (by have := b.toNat_lt; omega)
  have h256 : (256 : ℕ) ^ r.length = 2 ^ (8 * r.length) := by rw [pow_mul]; rfl
  have hs : 8 * r.length % 2 ^ 64 % 64 = 8 * r.length := by omega
  simp only [leWord, UInt64.toNat_or, UInt64.toNat_ofNat', UInt64.toNat_shiftLeft,
    UInt8.toNat_toUInt64, leValue_append_singleton, Nat.toUInt64_eq, UInt64.toNat_ofNat', hs]
  rw [h256, Nat.mul_comm (2 ^ (8 * r.length)) b.toNat,
    Nat.mod_eq_of_lt (a := leValue r + _) (by omega), Nat.mod_eq_of_lt (a := leValue r) (by omega),
    Nat.mod_eq_of_lt (a := b.toNat <<< (8 * r.length)) (by rw [Nat.shiftLeft_eq]; omega),
    or_shiftLeft_eq_add hval, h256, Nat.mul_comm b.toNat]

/-! ### The hasher holds what it was written -/

theorem sipAbsorb_append (s : SipState) {m : List UInt8} (l : List UInt8) {n : ℕ}
    (hn : 8 * n ≤ m.length) : sipAbsorb s (m ++ l) n = sipAbsorb s m n := by
  induction n with
  | zero => rfl
  | succ n ih =>
    have hword : ((m ++ l).drop (8 * n)).take 8 = (m.drop (8 * n)).take 8 := by
      rw [List.drop_append_of_le_length (by omega),
        List.take_append_of_le_length (by simp; omega)]
    rw [sipAbsorb, sipAbsorb, ih (by omega), hword]

/-- The hasher `h` has been written `m` from the state `s`: the full words of `m` are absorbed,
`tmp` holds the bytes after them and `count` is the length of `m`. -/
structure Holds (s : SipState) (m : List UInt8) (h : CSipHasher) : Prop where
  v_eq : h.v = sipAbsorb s m (m.length / 8)
  tmp_eq : h.tmp = leWord (m.drop (8 * (m.length / 8)))
  count_eq : h.count = m.length

theorem holds_init (k0 k1 : UInt64) : Holds (initState k0 k1) [] (CSipHasher.init k0 k1) :=
  ⟨rfl, rfl, rfl⟩

theorem holds_writeByte {s : SipState} {m : List UInt8} {h : CSipHasher} (hh : Holds s m h)
    (b : UInt8) : Holds s (m ++ [b]) (h.writeByte b) := by
  obtain ⟨hv, ht, hc⟩ := hh
  have hrest : (m.drop (8 * (m.length / 8))).length = h.count % 8 := by
    simp only [List.length_drop, hc]
    omega
  -- the byte joins the pending ones
  have hword : h.tmp ||| b.toUInt64 <<< (8 * (h.count % 8)).toUInt64 =
      leWord (m.drop (8 * (m.length / 8)) ++ [b]) := by
    rw [leWord_concat (by omega), ht, hrest]
  have hdrop : (m ++ [b]).drop (8 * (m.length / 8)) = m.drop (8 * (m.length / 8)) ++ [b] :=
    List.drop_append_of_le_length (by omega)
  unfold CSipHasher.writeByte
  rw [hword]
  split_ifs with hfull
  · -- the word is full: it is absorbed and nothing is pending
    have hk : (m ++ [b]).length / 8 = m.length / 8 + 1 := by simp; omega
    refine ⟨?_, ?_, by simp [hc]⟩
    · rw [hk, sipAbsorb, sipAbsorb_append _ _ (by omega), ← hv, hdrop,
        List.take_of_length_le (by simp; omega)]
    · have hnil : (m ++ [b]).drop (8 * (m.length / 8 + 1)) = [] :=
        List.drop_of_length_le (by simp; omega)
      rw [hk, hnil]
      rfl
  · have hk : (m ++ [b]).length / 8 = m.length / 8 := by simp; omega
    exact ⟨by rw [hk, sipAbsorb_append _ _ (by omega), hv], by rw [hk, hdrop], by simp [hc]⟩

theorem holds_write {s : SipState} {m : List UInt8} {h : CSipHasher} (hh : Holds s m h)
    (data : List UInt8) : Holds s (m ++ data) (h.write data) := by
  induction data generalizing m h with
  | nil => simpa [CSipHasher.write] using hh
  | cons b data ih =>
    have := ih (holds_writeByte hh b)
    rwa [List.append_assoc, List.singleton_append] at this

/-- `Write(uint64_t)` at a multiple of 8 writes the word's eight little-endian bytes. -/
theorem holds_writeU64 {s : SipState} {m : List UInt8} {h : CSipHasher} (hh : Holds s m h)
    (hm : m.length % 8 = 0) (w : UInt64) :
    ∃ h', h.writeU64 w = some h' ∧ Holds s (m ++ leBytes 8 w.toNat) h' := by
  obtain ⟨hv, ht, hc⟩ := hh
  have hbytes : leWord (leBytes 8 w.toNat) = w := by
    rw [leWord, leValue_leBytes_of_lt (by have := w.toNat_lt; norm_num at this ⊢; omega),
      UInt64.ofNat_toNat]
  have hk : (m ++ leBytes 8 w.toNat).length / 8 = m.length / 8 + 1 := by
    simp only [List.length_append, length_leBytes]
    omega
  have hal : h.count % 8 = 0 := by rw [hc]; exact hm
  refine ⟨_, if_pos hal, ?_, ?_, ?_⟩
  · rw [hk, sipAbsorb, sipAbsorb_append _ _ (by omega), ← hv,
      List.drop_append_of_le_length (by omega), List.drop_of_length_le (by omega),
      List.nil_append, List.take_of_length_le (by simp), hbytes]
  · rw [ht, hk, List.drop_of_length_le (by omega), List.drop_of_length_le (by simp; omega)]
  · simp [hc]

theorem feed_holds {s : SipState} {m : List UInt8} {h : CSipHasher} (hh : Holds s m h)
    {ins : List SipInput} (hins : Aligned m.length ins) :
    ∃ h', feed h ins = some h' ∧ Holds s (m ++ ins.flatMap SipInput.toBytes) h' := by
  induction ins generalizing m h with
  | nil => exact ⟨h, rfl, by simpa using hh⟩
  | cons i ins ih =>
    cases i with
    | bytes data =>
      obtain ⟨h', hfeed, hh'⟩ := ih (holds_write hh data) (by simpa [Aligned] using hins)
      exact ⟨h', hfeed, by simpa [SipInput.toBytes] using hh'⟩
    | word w =>
      obtain ⟨hal, hins⟩ := hins
      obtain ⟨h₁, hw, hh₁⟩ := holds_writeU64 hh hal w
      obtain ⟨h', hfeed, hh'⟩ := ih hh₁ (by simpa using hins)
      refine ⟨h', by rw [feed, hw]; exact hfeed, by simpa [SipInput.toBytes] using hh'⟩

theorem finalize_holds {k0 k1 : UInt64} {m : List UInt8} {h : CSipHasher}
    (hh : Holds (initState k0 k1) m h) : h.finalize = sipHash24 k0 k1 m := by
  rw [CSipHasher.finalize, sipHash24, hh.v_eq, hh.tmp_eq, hh.count_eq]

/-! ### The specialised routines -/

theorem leWord_eight (b0 b1 b2 b3 b4 b5 b6 b7 : UInt8) :
    leWord [b0, b1, b2, b3, b4, b5, b6, b7] =
      b0.toUInt64 ||| b1.toUInt64 <<< 8 ||| b2.toUInt64 <<< 16 ||| b3.toUInt64 <<< 24 |||
        b4.toUInt64 <<< 32 ||| b5.toUInt64 <<< 40 ||| b6.toUInt64 <<< 48 ||| b7.toUInt64 <<< 56 := by
  show leWord ([] ++ [b0] ++ [b1] ++ [b2] ++ [b3] ++ [b4] ++ [b5] ++ [b6] ++ [b7]) = _
  simp (disch := simp) only [leWord_concat]
  simp [leWord]

theorem getUint64_eq (val : Vector UInt8 32) {pos : ℕ} (hpos : pos < 4) :
    getUint64 val pos = leWord ((val.toList.drop (8 * pos)).take 8) := by
  obtain ⟨⟨l⟩, hl⟩ := val
  match l, hl, pos, hpos with
  | [a0, a1, a2, a3, a4, a5, a6, a7, a8, a9, a10, a11, a12, a13, a14, a15, a16, a17, a18, a19,
      a20, a21, a22, a23, a24, a25, a26, a27, a28, a29, a30, a31], _, p, hp =>
    match p, hp with
    | 0, _ | 1, _ | 2, _ | 3, _ => simp [getUint64, leWord_eight]

/-- The first part of both specialised routines absorbs the four words of the hash. -/
theorem absorbUint256_eq (k0 k1 : UInt64) (val : Vector UInt8 32) :
    absorbUint256 k0 k1 val = sipAbsorb (initState k0 k1) val.toList 4 := by
  simp only [absorbUint256, sipAbsorb, getUint64_eq val (show 0 < 4 by decide),
    getUint64_eq val (show 1 < 4 by decide), getUint64_eq val (show 2 < 4 by decide),
    getUint64_eq val (show 3 < 4 by decide)]

theorem sipHashUint256_eq (k0 k1 : UInt64) (val : Vector UInt8 32) :
    sipHashUint256 k0 k1 val = sipHash24 k0 k1 val.toList := by
  have hlen : val.toList.length = 32 := by simp
  have hlast : leWord (val.toList.drop (8 * (32 / 8))) ||| (32 : ℕ).toUInt64 <<< 56 =
      (4 : UInt64) <<< 59 := by
    rw [List.drop_of_length_le (by simp)]
    decide
  rw [sipHashUint256, sipHash24, hlen, hlast, absorbUint256_eq]

theorem leWord_leBytes_four (e : UInt32) : leWord (leBytes 4 e.toNat) = e.toUInt64 := by
  apply UInt64.toNat_inj.mp
  rw [leWord, leValue_leBytes_of_lt (by have := e.toNat_lt; norm_num at this ⊢; omega)]
  simp

theorem sipHashUint256Extra_eq (k0 k1 : UInt64) (val : Vector UInt8 32) (extra : UInt32) :
    sipHashUint256Extra k0 k1 val extra = sipHash24 k0 k1 (val.toList ++ leBytes 4 extra.toNat) := by
  have hlen : (val.toList ++ leBytes 4 extra.toNat).length = 36 := by simp
  have hlast : leWord ((val.toList ++ leBytes 4 extra.toNat).drop (8 * (36 / 8))) |||
      (36 : ℕ).toUInt64 <<< 56 = (36 : UInt64) <<< 56 ||| extra.toUInt64 := by
    rw [List.drop_append_of_le_length (by simp), List.drop_of_length_le (by simp),
      List.nil_append, leWord_leBytes_four, UInt64.or_comm]
    rfl
  rw [sipHashUint256Extra, sipHash24, hlen, hlast, sipAbsorb_append _ _ (by simp),
    absorbUint256_eq]

/-! ### Any chunking -/

/-- Every way of feeding a message to `CSipHasher`, in byte chunks and aligned words, finalizes
to SipHash-2-4 of the message, and `SipHashUint256` and `SipHashUint256Extra` are the hasher on the
hash and on the hash followed by the index. -/
theorem sipHasher_chunking_agrees :
    (∀ (k0 k1 : UInt64) (ins : List SipInput), Aligned 0 ins →
      ∃ h, feed (CSipHasher.init k0 k1) ins = some h ∧
        h.finalize = sipHash24 k0 k1 (ins.flatMap SipInput.toBytes)) ∧
    (∀ (k0 k1 : UInt64) (val : Vector UInt8 32) (extra : UInt32),
      sipHashUint256 k0 k1 val = ((CSipHasher.init k0 k1).write val.toList).finalize ∧
      sipHashUint256Extra k0 k1 val extra =
        (((CSipHasher.init k0 k1).write val.toList).write (leBytes 4 extra.toNat)).finalize) := by
  refine ⟨fun k0 k1 ins hins => ?_, fun k0 k1 val extra => ?_⟩
  · obtain ⟨h, hfeed, hh⟩ := feed_holds (holds_init k0 k1) hins
    exact ⟨h, hfeed, by simpa using finalize_holds hh⟩
  · have hval := holds_write (holds_init k0 k1) val.toList
    rw [List.nil_append] at hval
    rw [sipHashUint256_eq, sipHashUint256Extra_eq, finalize_holds hval,
      finalize_holds (holds_write hval _)]
    exact ⟨rfl, rfl⟩

/-- Three bytes, five more that complete a word, an aligned word and a last byte. -/
theorem sipHasher_chunking_agrees_mixed :
    let ins : List SipInput := [.bytes [1, 2, 3], .bytes [4, 5, 6, 7, 8], .word 42, .bytes [9]]
    Aligned 0 ins ∧ ∃ h, feed (CSipHasher.init 0 1) ins = some h ∧
      h.finalize = sipHash24 0 1 (ins.flatMap SipInput.toBytes) :=
  have hins : Aligned 0 [.bytes [1, 2, 3], .bytes [4, 5, 6, 7, 8], .word 42, .bytes [9]] :=
    ⟨rfl, trivial⟩
  ⟨hins, sipHasher_chunking_agrees.1 0 1 _ hins⟩

end BitcoinCash.SipHash
