import BitcoinCash.Bytes.LittleEndian

/-!
# Byte streams

The serializers of `serialize.h` read from and write to a stream. A stream being read is
modelled by the bytes it has not delivered yet; reading past its end throws, with the text of
`CDataStream::read` (`streams.h`). A stream being written is the list of bytes written.

The reads `ser_readdata8/16/32/64` return the little-endian value of the next one, two, four or
eight bytes; the writes `ser_writedata8/16/32/64` emit the low bytes of their argument.
-/

namespace BitcoinCash

open Bytes

/-- A deserializer: reads from the unread bytes of a stream and may throw
`std::ios_base::failure`, whose text is kept. -/
abbrev Reader (α : Type) := StateT (List UInt8) (Except String) α

/-- The text of the exception thrown by `CDataStream::read` past the end of the stream. -/
def endOfData : String := "CDataStream::read(): end of data"

/-- Read `n` bytes: `CDataStream::read`. -/
def readBytes (n : ℕ) : Reader (List UInt8) := fun s =>
  if s.length < n then .error endOfData else .ok (s.take n, s.drop n)

/-- `ser_readdata8`. -/
def serReaddata8 : Reader UInt8 := fun s =>
  match s with
  | [] => .error endOfData
  | b :: rest => .ok (b, rest)

/-- `ser_readdata16`, `ser_readdata32`, `ser_readdata64`: the little-endian value of the next
`width` bytes. -/
def serReaddata (width : ℕ) : Reader ℕ := do
  let bytes ← readBytes width
  pure (leValue bytes)

/-- `ser_readdata16`. -/
def serReaddata16 : Reader ℕ := serReaddata 2

/-- `ser_readdata32`. -/
def serReaddata32 : Reader ℕ := serReaddata 4

/-- `ser_readdata64`. -/
def serReaddata64 : Reader ℕ := serReaddata 8

/-- `ser_writedata8`: the low byte. -/
def serWritedata8 (obj : ℕ) : List UInt8 := [UInt8.ofNat obj]

/-- `ser_writedata16`, `ser_writedata32`, `ser_writedata64`: the low `width` bytes,
little-endian. -/
def serWritedata (width obj : ℕ) : List UInt8 := leBytes width obj

/-- `ser_writedata16`. -/
def serWritedata16 (obj : ℕ) : List UInt8 := serWritedata 2 obj

/-- `ser_writedata32`. -/
def serWritedata32 (obj : ℕ) : List UInt8 := serWritedata 4 obj

/-- `ser_writedata64`. -/
def serWritedata64 (obj : ℕ) : List UInt8 := serWritedata 8 obj

namespace Reader

variable {α β : Type}

theorem run_bind_ok {x : Reader α} {f : α → Reader β} {s s' : List UInt8} {a : α}
    (hx : x.run s = .ok (a, s')) : (x >>= f).run s = (f a).run s' := by
  simp only [StateT.run] at hx ⊢
  change StateT.bind x f s = f a s'
  simp only [StateT.bind, hx]
  rfl

theorem run_bind_error {x : Reader α} {f : α → Reader β} {s : List UInt8} {e : String}
    (hx : x.run s = .error e) : (x >>= f).run s = .error e := by
  simp only [StateT.run] at hx ⊢
  simp [bind, StateT.bind, hx]
  rfl

/-- A sequence of reads that succeeds splits into a first read that succeeds and the rest. -/
theorem run_bind_eq_ok {x : Reader α} {f : α → Reader β} {s s' : List UInt8} {b : β}
    (h : (x >>= f).run s = .ok (b, s')) :
    ∃ a s₁, x.run s = .ok (a, s₁) ∧ (f a).run s₁ = .ok (b, s') := by
  cases hx : x.run s with
  | error e => rw [run_bind_error hx] at h; cases h
  | ok p => exact ⟨p.1, p.2, rfl, by rwa [run_bind_ok hx] at h⟩

@[simp] theorem run_pure (a : α) (s : List UInt8) : (pure a : Reader α).run s = .ok (a, s) :=
  rfl

@[simp] theorem run_throw (e : String) (s : List UInt8) :
    (throw e : Reader α).run s = .error e :=
  rfl

end Reader

@[simp] theorem serReaddata8_run_cons (b : UInt8) (rest : List UInt8) :
    serReaddata8.run (b :: rest) = .ok (b, rest) := rfl

@[simp] theorem serReaddata8_run_nil : serReaddata8.run [] = .error endOfData := rfl

theorem readBytes_run_append {n : ℕ} {l : List UInt8} (hl : l.length = n) (rest : List UInt8) :
    (readBytes n).run (l ++ rest) = .ok (l, rest) := by
  subst hl
  simp [readBytes, StateT.run]

theorem readBytes_run_of_lt {n : ℕ} {s : List UInt8} (hs : s.length < n) :
    (readBytes n).run s = .error endOfData := by
  simp [readBytes, StateT.run, hs]

/-- A read of `width` bytes from a stream of at least `width` bytes returns the value of the
first ones. -/
theorem serReaddata_run_split {width : ℕ} {s : List UInt8} (hs : width ≤ s.length) :
    (serReaddata width).run s = .ok (leValue (s.take width), s.drop width) := by
  have hsplit : s = s.take width ++ s.drop width := (List.take_append_drop width s).symm
  rw [serReaddata, hsplit, Reader.run_bind_ok (readBytes_run_append
    (by simp; omega) (s.drop width))]
  simp only [List.take_append_drop]
  rfl

theorem serReaddata_run_of_lt {width : ℕ} {s : List UInt8} (hs : s.length < width) :
    (serReaddata width).run s = .error endOfData := by
  rw [serReaddata, Reader.run_bind_error (readBytes_run_of_lt hs)]

end BitcoinCash
