import BitcoinCash.Serialize.Stream

/-!
# CompactSize

The variable-length size prefix of every serialized vector (`serialize.h`): a value below `253`
is one byte; otherwise a marker byte `253`, `254` or `255` is followed by the value in two, four
or eight little-endian bytes. The reader rejects a value that a shorter form could carry, and one
above a caller's limit.

Values are `uint64_t`, modelled by naturals below `2 ^ 64`.
-/

namespace BitcoinCash

open Bytes

/-- `GetSizeOfCompactSize`. -/
def getSizeOfCompactSize (nSize : ℕ) : ℕ :=
  if nSize < 253 then 1
  else if nSize ≤ 0xffff then 1 + 2
  else if nSize ≤ 0xffffffff then 1 + 4
  else 1 + 8

/-- `WriteCompactSize`. -/
def writeCompactSize (nSize : ℕ) : List UInt8 :=
  if nSize < 253 then serWritedata8 nSize
  else if nSize ≤ 0xffff then serWritedata8 253 ++ serWritedata16 nSize
  else if nSize ≤ 0xffffffff then serWritedata8 254 ++ serWritedata32 nSize
  else serWritedata8 255 ++ serWritedata64 nSize

/-- The text of the exception for an encoding that a shorter form could carry. -/
def nonCanonical : String := "non-canonical ReadCompactSize()"

/-- The text of the exception for a value above the limit. -/
def sizeTooLarge : String := "ReadCompactSize(): size too large"

/-- `ReadCompactSizeWithLimit`. -/
def readCompactSizeWithLimit (maxSize : ℕ) : Reader ℕ := do
  let chSize ← serReaddata8
  let nSizeRet ← (
    if chSize < 253 then pure chSize.toNat
    else if chSize = 253 then do
      let n ← serReaddata16
      if n < 253 then throw nonCanonical
      pure n
    else if chSize = 254 then do
      let n ← serReaddata32
      if n < 0x10000 then throw nonCanonical
      pure n
    else do
      let n ← serReaddata64
      if n < 0x100000000 then throw nonCanonical
      pure n)
  if nSizeRet > maxSize then throw sizeTooLarge
  pure nSizeRet

example : writeCompactSize 253 = [0xfd, 0xfd, 0x00] := by decide
example : (readCompactSizeWithLimit 1000).run [0xfd, 0xfc, 0x00] = .error nonCanonical := by
  decide

/-! ### The reader, step by step -/

/-- A marker branch of the reader: the payload of `width` bytes, rejected below `lower`. -/
theorem run_checked_payload (width lower : ℕ) (s : List UInt8) :
    ((do
        let n ← serReaddata width
        if n < lower then throw nonCanonical
        pure n : Reader ℕ)).run s =
      if s.length < width then .error endOfData
      else if leValue (s.take width) < lower then .error nonCanonical
      else .ok (leValue (s.take width), s.drop width) := by
  by_cases hs : s.length < width
  · rw [if_pos hs, Reader.run_bind_error (serReaddata_run_of_lt hs)]
  · rw [if_neg hs, Reader.run_bind_ok (serReaddata_run_split (by omega))]
    by_cases hlow : leValue (s.take width) < lower
    · simp only [hlow, ↓reduceIte, bind_pure_comp, StateT.run_map, StateT.run_throw,
        Functor.map_map]
      rfl
    · simp only [hlow, ↓reduceIte, StateT.run_pure]
      rfl

/-- An accepted payload is the little-endian encoding of a value at or above the bound. -/
theorem eq_of_run_checked_payload {width lower v : ℕ} {s s' : List UInt8}
    (h : ((do
        let n ← serReaddata width
        if n < lower then throw nonCanonical
        pure n : Reader ℕ)).run s = .ok (v, s')) :
    lower ≤ v ∧ v < 256 ^ width ∧ s = serWritedata width v ++ s' := by
  rw [run_checked_payload] at h
  split_ifs at h with hs hlow
  cases h
  have hlen : (s.take width).length = width := by simp; omega
  have hlt := leValue_lt (s.take width)
  rw [hlen] at hlt
  refine ⟨by omega, hlt, ?_⟩
  have hbytes := leBytes_leValue (s.take width)
  rw [hlen] at hbytes
  rw [serWritedata, hbytes, List.take_append_drop]

theorem run_checked_payload_write {width lower v : ℕ} (hlow : lower ≤ v) (hv : v < 256 ^ width)
    (rest : List UInt8) :
    ((do
        let n ← serReaddata width
        if n < lower then throw nonCanonical
        pure n : Reader ℕ)).run (serWritedata width v ++ rest) = .ok (v, rest) := by
  have htake : (serWritedata width v ++ rest).take width = serWritedata width v := by
    simp [serWritedata]
  have hdrop : (serWritedata width v ++ rest).drop width = rest := by simp [serWritedata]
  have hval : leValue (serWritedata width v) = v := leValue_leBytes_of_lt hv
  rw [run_checked_payload, htake, hdrop, hval, if_neg (by simp [serWritedata]),
    if_neg (by omega)]

/-- The final comparison with the limit. -/
theorem run_limit_check {x : Reader ℕ} {s s' : List UInt8} {v : ℕ} (maxSize : ℕ)
    (hx : x.run s = .ok (v, s')) :
    ((do
        let nSizeRet ← x
        if nSizeRet > maxSize then throw sizeTooLarge
        pure nSizeRet : Reader ℕ)).run s =
      if v > maxSize then .error sizeTooLarge else .ok (v, s') := by
  rw [Reader.run_bind_ok hx]
  by_cases hv : v > maxSize
  · simp only [gt_iff_lt, hv, ↓reduceIte, bind_pure_comp, StateT.run_map, StateT.run_throw,
      Functor.map_map]
    rfl
  · simp only [gt_iff_lt, hv, ↓reduceIte, StateT.run_pure]
    rfl

theorem toNat_ofNat_of_lt {n : ℕ} (h : n < 256) : (UInt8.ofNat n).toNat = n := by
  rw [UInt8.toNat_ofNat']
  omega

/-! ### The writer's branches -/

theorem writeCompactSize_of_lt {n : ℕ} (h : n < 253) : writeCompactSize n = [UInt8.ofNat n] := by
  simp [writeCompactSize, h, serWritedata8]

theorem writeCompactSize_of_le_ffff {n : ℕ} (hlo : 253 ≤ n) (hhi : n ≤ 0xffff) :
    writeCompactSize n = UInt8.ofNat 253 :: serWritedata 2 n := by
  simp [writeCompactSize, Nat.not_lt.mpr hlo, hhi, serWritedata8, serWritedata16]

theorem writeCompactSize_of_le_ffffffff {n : ℕ} (hlo : 0x10000 ≤ n) (hhi : n ≤ 0xffffffff) :
    writeCompactSize n = UInt8.ofNat 254 :: serWritedata 4 n := by
  have h1 : ¬ n < 253 := by omega
  have h2 : ¬ n ≤ 0xffff := by omega
  simp [writeCompactSize, h1, h2, hhi, serWritedata8, serWritedata32]

theorem writeCompactSize_of_gt_ffffffff {n : ℕ} (hlo : 0x100000000 ≤ n) :
    writeCompactSize n = UInt8.ofNat 255 :: serWritedata 8 n := by
  have h1 : ¬ n < 253 := by omega
  have h2 : ¬ n ≤ 0xffff := by omega
  have h3 : ¬ n ≤ 0xffffffff := by omega
  simp [writeCompactSize, h1, h2, h3, serWritedata8, serWritedata64]

theorem length_writeCompactSize (n : ℕ) : (writeCompactSize n).length = getSizeOfCompactSize n := by
  unfold writeCompactSize getSizeOfCompactSize
  split_ifs <;> simp [serWritedata8, serWritedata16, serWritedata32, serWritedata64, serWritedata]

/-! ### Dispatch on the first byte -/

section Dispatch

variable (maxSize : ℕ) (s : List UInt8)

theorem readCompactSizeWithLimit_run_of_lt {c : UInt8} (hc : c.toNat < 253) :
    (readCompactSizeWithLimit maxSize).run (c :: s) =
      if c.toNat > maxSize then .error sizeTooLarge else .ok (c.toNat, s) := by
  have hc' : c < 253 := by rw [UInt8.lt_iff_toNat_lt]; exact hc
  rw [readCompactSizeWithLimit, Reader.run_bind_ok (serReaddata8_run_cons _ _)]
  simp only [if_pos hc']
  exact run_limit_check maxSize (Reader.run_pure _ _)

/-- After a marker byte the reader reads a checked payload, then compares it with the limit. -/
theorem readCompactSizeWithLimit_run_253 :
    (readCompactSizeWithLimit maxSize).run (UInt8.ofNat 253 :: s) =
      ((do
        let nSizeRet ← (do
          let n ← serReaddata 2
          if n < 253 then throw nonCanonical
          pure n : Reader ℕ)
        if nSizeRet > maxSize then throw sizeTooLarge
        pure nSizeRet : Reader ℕ)).run s := by
  rw [readCompactSizeWithLimit, Reader.run_bind_ok (serReaddata8_run_cons _ _)]
  rw [if_neg (show ¬ (UInt8.ofNat 253 < 253) by decide),
    if_pos (show UInt8.ofNat 253 = 253 by decide)]
  rfl

theorem readCompactSizeWithLimit_run_254 :
    (readCompactSizeWithLimit maxSize).run (UInt8.ofNat 254 :: s) =
      ((do
        let nSizeRet ← (do
          let n ← serReaddata 4
          if n < 0x10000 then throw nonCanonical
          pure n : Reader ℕ)
        if nSizeRet > maxSize then throw sizeTooLarge
        pure nSizeRet : Reader ℕ)).run s := by
  rw [readCompactSizeWithLimit, Reader.run_bind_ok (serReaddata8_run_cons _ _)]
  rw [if_neg (show ¬ (UInt8.ofNat 254 < 253) by decide),
    if_neg (show ¬ (UInt8.ofNat 254 = 253) by decide),
    if_pos (show UInt8.ofNat 254 = 254 by decide)]
  rfl

theorem readCompactSizeWithLimit_run_255 :
    (readCompactSizeWithLimit maxSize).run (UInt8.ofNat 255 :: s) =
      ((do
        let nSizeRet ← (do
          let n ← serReaddata 8
          if n < 0x100000000 then throw nonCanonical
          pure n : Reader ℕ)
        if nSizeRet > maxSize then throw sizeTooLarge
        pure nSizeRet : Reader ℕ)).run s := by
  rw [readCompactSizeWithLimit, Reader.run_bind_ok (serReaddata8_run_cons _ _)]
  rw [if_neg (show ¬ (UInt8.ofNat 255 < 253) by decide),
    if_neg (show ¬ (UInt8.ofNat 255 = 253) by decide),
    if_neg (show ¬ (UInt8.ofNat 255 = 254) by decide)]
  rfl

end Dispatch

/-- Every byte is a one-byte value or one of the three markers. -/
theorem byte_cases (c : UInt8) :
    c.toNat < 253 ∨ c = UInt8.ofNat 253 ∨ c = UInt8.ofNat 254 ∨ c = UInt8.ofNat 255 := by
  have hc := c.toNat_lt
  rcases (show c.toNat < 253 ∨ c.toNat = 253 ∨ c.toNat = 254 ∨ c.toNat = 255 by omega)
    with h | h | h | h
  · exact Or.inl h
  · exact Or.inr (Or.inl (UInt8.toNat_inj.mp (by rw [h]; rfl)))
  · exact Or.inr (Or.inr (Or.inl (UInt8.toNat_inj.mp (by rw [h]; rfl))))
  · exact Or.inr (Or.inr (Or.inr (UInt8.toNat_inj.mp (by rw [h]; rfl))))

/-! ### Round trip and canonicity -/

/-- The reader reads the writer's encoding of every `uint64_t` back, and then compares it with
the limit. -/
theorem readCompactSizeWithLimit_run_write {n : ℕ} (hn : n < 2 ^ 64) (maxSize : ℕ)
    (rest : List UInt8) :
    (readCompactSizeWithLimit maxSize).run (writeCompactSize n ++ rest) =
      if n > maxSize then .error sizeTooLarge else .ok (n, rest) := by
  rcases (show n < 253 ∨ (253 ≤ n ∧ n ≤ 0xffff) ∨ (0x10000 ≤ n ∧ n ≤ 0xffffffff) ∨
      0x100000000 ≤ n by omega) with h | ⟨hlo, hhi⟩ | ⟨hlo, hhi⟩ | hlo
  · have hc : (UInt8.ofNat n).toNat = n := toNat_ofNat_of_lt (by omega)
    rw [writeCompactSize_of_lt h, List.singleton_append,
      readCompactSizeWithLimit_run_of_lt _ _ (by rw [hc]; exact h), hc]
  · rw [writeCompactSize_of_le_ffff hlo hhi, List.cons_append, readCompactSizeWithLimit_run_253,
      run_limit_check maxSize (run_checked_payload_write hlo (by norm_num; omega) rest)]
  · rw [writeCompactSize_of_le_ffffffff hlo hhi, List.cons_append,
      readCompactSizeWithLimit_run_254,
      run_limit_check maxSize (run_checked_payload_write hlo (by norm_num; omega) rest)]
  · rw [writeCompactSize_of_gt_ffffffff hlo, List.cons_append, readCompactSizeWithLimit_run_255,
      run_limit_check maxSize (run_checked_payload_write hlo (by norm_num; omega) rest)]

/-- The reader reads back the writer's encoding of every `uint64_t` within the limit. -/
theorem readCompactSizeWithLimit_write {n maxSize : ℕ} (hn : n < 2 ^ 64) (hmax : n ≤ maxSize)
    (rest : List UInt8) :
    (readCompactSizeWithLimit maxSize).run (writeCompactSize n ++ rest) = .ok (n, rest) := by
  rw [readCompactSizeWithLimit_run_write hn, if_neg (by omega)]

/-- What a marker branch accepts is the writer's encoding: the payload bound of each marker is
the writer's threshold for it. -/
private theorem eq_write_of_marker {maxSize width lower n : ℕ} {marker : UInt8}
    {s rest : List UInt8}
    (hwrite : ∀ v, lower ≤ v → v < 256 ^ width →
      writeCompactSize v = marker :: serWritedata width v)
    (h : ((do
        let nSizeRet ← (do
          let n ← serReaddata width
          if n < lower then throw nonCanonical
          pure n : Reader ℕ)
        if nSizeRet > maxSize then throw sizeTooLarge
        pure nSizeRet : Reader ℕ)).run s = .ok (n, rest)) :
    n ≤ maxSize ∧ n < 256 ^ width ∧ marker :: s = writeCompactSize n ++ rest := by
  obtain ⟨v, s₁, hp, -⟩ := Reader.run_bind_eq_ok h
  obtain ⟨hlo, hhi, rfl⟩ := eq_of_run_checked_payload hp
  rw [run_limit_check maxSize hp] at h
  split_ifs at h with hv
  cases h
  exact ⟨by omega, hhi, by rw [hwrite n hlo hhi, List.cons_append]⟩

/-- Whatever the reader accepts is the canonical encoding of its result, within the limit. -/
theorem eq_write_of_readCompactSizeWithLimit {maxSize n : ℕ} {s rest : List UInt8}
    (h : (readCompactSizeWithLimit maxSize).run s = .ok (n, rest)) :
    n ≤ maxSize ∧ n < 2 ^ 64 ∧ s = writeCompactSize n ++ rest := by
  cases s with
  | nil =>
    rw [readCompactSizeWithLimit, Reader.run_bind_error serReaddata8_run_nil] at h
    cases h
  | cons c s =>
    rcases byte_cases c with hc | rfl | rfl | rfl
    · rw [readCompactSizeWithLimit_run_of_lt _ _ hc] at h
      split_ifs at h with hmax
      cases h
      refine ⟨by omega, by omega, ?_⟩
      rw [writeCompactSize_of_lt hc, UInt8.ofNat_toNat, List.singleton_append]
    · rw [readCompactSizeWithLimit_run_253] at h
      obtain ⟨hmax, hlt, heq⟩ := eq_write_of_marker (fun v hlo hhi =>
        writeCompactSize_of_le_ffff hlo (by norm_num at hhi; omega)) h
      exact ⟨hmax, by norm_num at hlt; omega, heq⟩
    · rw [readCompactSizeWithLimit_run_254] at h
      obtain ⟨hmax, hlt, heq⟩ := eq_write_of_marker (fun v hlo hhi =>
        writeCompactSize_of_le_ffffffff hlo (by norm_num at hhi; omega)) h
      exact ⟨hmax, by norm_num at hlt; omega, heq⟩
    · rw [readCompactSizeWithLimit_run_255] at h
      exact eq_write_of_marker (fun v hlo _ => writeCompactSize_of_gt_ffffffff hlo) h

/-- CompactSize encoding is canonical and round-trips: every `uint64_t` within the limit is read
back from its encoding, consuming exactly `GetSizeOfCompactSize` bytes; every accepted stream
starts with the encoding of the value read; and the reader throws exactly on streams that do not
start with the canonical encoding of a value within the limit (non-canonical, truncated or too
large). -/
theorem compactSize_roundtrip (maxSize : ℕ) :
    (∀ n, n < 2 ^ 64 → n ≤ maxSize → ∀ rest,
      (readCompactSizeWithLimit maxSize).run (writeCompactSize n ++ rest) = .ok (n, rest) ∧
        (writeCompactSize n).length = getSizeOfCompactSize n) ∧
    (∀ s n rest, (readCompactSizeWithLimit maxSize).run s = .ok (n, rest) →
      s = writeCompactSize n ++ rest) ∧
    (∀ s, (∃ e, (readCompactSizeWithLimit maxSize).run s = .error e) ↔
      ¬ ∃ n rest, n < 2 ^ 64 ∧ n ≤ maxSize ∧ s = writeCompactSize n ++ rest) := by
  refine ⟨fun n hn hmax rest =>
      ⟨readCompactSizeWithLimit_write hn hmax rest, length_writeCompactSize n⟩,
    fun s n rest h => (eq_write_of_readCompactSizeWithLimit h).2.2, fun s => ⟨?_, ?_⟩⟩
  · rintro ⟨e, he⟩ ⟨n, rest, hn, hmax, rfl⟩
    rw [readCompactSizeWithLimit_write hn hmax rest] at he
    cases he
  · intro hnot
    cases hrun : (readCompactSizeWithLimit maxSize).run s with
    | error e => exact ⟨e, rfl⟩
    | ok p =>
      obtain ⟨hmax, hn, heq⟩ := eq_write_of_readCompactSizeWithLimit hrun
      exact absurd ⟨p.1, p.2, hn, hmax, heq⟩ hnot

/-- `compactSize_roundtrip` at `300`, a value of the three-byte form. -/
theorem compactSize_roundtrip_at_300 :
    (readCompactSizeWithLimit 1000).run (writeCompactSize 300 ++ []) = .ok (300, []) ∧
      (writeCompactSize 300).length = getSizeOfCompactSize 300 :=
  (compactSize_roundtrip 1000).1 300 (by omega) (by omega) []

/-! ### The range-checked reader -/

/-- `MAX_SIZE`, the largest size `ReadCompactSize` accepts with its range check. -/
def maxSize : ℕ := 0x02000000

/-- `ReadCompactSize(is, range_check)`: the limit is `MAX_SIZE` with the range check and the
largest `uint64_t` without it. -/
def readCompactSize (rangeCheck : Bool := true) : Reader ℕ :=
  readCompactSizeWithLimit (if rangeCheck then maxSize else 2 ^ 64 - 1)

theorem readCompactSize_eq : (readCompactSize : Reader ℕ) = readCompactSizeWithLimit maxSize :=
  rfl

/-- With its range check, the reader reads back every size up to `MAX_SIZE`. -/
theorem readCompactSize_run_write {n : ℕ} (hn : n ≤ maxSize) (rest : List UInt8) :
    (readCompactSize : Reader ℕ).run (writeCompactSize n ++ rest) = .ok (n, rest) := by
  have h64 : n < 2 ^ 64 := by
    unfold maxSize at hn
    omega
  rw [readCompactSize_eq, readCompactSizeWithLimit_write h64 hn]

/-- With its range check, the reader refuses the encoding of every size above `MAX_SIZE`. -/
theorem readCompactSize_run_write_of_gt {n : ℕ} (hn : n < 2 ^ 64) (hmax : maxSize < n)
    (rest : List UInt8) :
    (readCompactSize : Reader ℕ).run (writeCompactSize n ++ rest) = .error sizeTooLarge := by
  rw [readCompactSize_eq, readCompactSizeWithLimit_run_write hn, if_pos hmax]

end BitcoinCash
