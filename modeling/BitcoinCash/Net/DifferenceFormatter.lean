import BitcoinCash.Serialize.CompactSize

/-!
# Differentially encoded indices

`DifferenceFormatter` (`blockencodings.h`) writes a strictly increasing list of indices, such as
the indices of a `BlockTransactionsRequest`, as the gaps between them: the first value, then each
value minus the previous one minus one, each as a CompactSize. One formatter serves a whole vector
(`VectorFormatter`), and its running shift `m_shift`, a `uint64_t`, is the previous value plus
one. `Ser` throws on a value below the shift or equal to the largest `uint64_t`. `Unser` adds the
gap it reads to the shift and throws when the sum wraps around `2 ^ 64`, reaches the largest
`uint64_t`, or leaves the index type `I`. `Unser` reads each gap with the range check of
`ReadCompactSize`, so a gap above `MAX_SIZE` is rejected.

The index type `I` is any unsigned type. The model takes its largest value `iMax`
(`std::numeric_limits<I>::max()`, below `2 ^ 64`); its smallest value is `0`.
-/

namespace BitcoinCash

/-- The text of the exception both directions throw. -/
def differentialValueOverflow : String := "differential value overflow"

/-- `DifferenceFormatter`, with its running shift `m_shift`. -/
structure DifferenceFormatter where
  mShift : ℕ := 0

namespace DifferenceFormatter

/-- `Ser(s, v)`: the bytes written and the formatter after. -/
def ser (fmt : DifferenceFormatter) (v : ℕ) : Except String (List UInt8 × DifferenceFormatter) :=
  if v < fmt.mShift ∨ v ≥ 2 ^ 64 - 1 then throw differentialValueOverflow
  else pure (writeCompactSize (v - fmt.mShift), { mShift := v + 1 })

/-- `Unser(s, v)` for an index type whose largest value is `iMax`: the value read and the
formatter after. The shift wraps as a `uint64_t`. -/
def unser (iMax : ℕ) (fmt : DifferenceFormatter) : Reader (ℕ × DifferenceFormatter) := do
  let n ← readCompactSize
  let mShift := (fmt.mShift + n) % 2 ^ 64
  -- `m_shift < std::numeric_limits<I>::min()` never holds: an unsigned `I` starts at `0`
  if mShift < n ∨ mShift ≥ 2 ^ 64 - 1 ∨ mShift > iMax then throw differentialValueOverflow
  pure (mShift, { mShift := mShift + 1 })

/-- The element loop of `VectorFormatter::Ser`: `formatter.Ser(s, elem)` for each element, with
one formatter. -/
def serEach : DifferenceFormatter → List ℕ → Except String (List UInt8)
  | _, [] => pure []
  | fmt, v :: vs => do
    let (bytes, fmt) ← fmt.ser v
    let rest ← serEach fmt vs
    pure (bytes ++ rest)

/-- The element loops of `VectorFormatter::Unser`: `formatter.Unser(s, v.back())` `count` times,
with one formatter. The batches of that loop only reserve memory; the reads are these. -/
def unserEach (iMax : ℕ) : DifferenceFormatter → ℕ → Reader (List ℕ)
  | _, 0 => pure []
  | fmt, count + 1 => do
    let (v, fmt) ← fmt.unser iMax
    let vs ← unserEach iMax fmt count
    pure (v :: vs)

/-- `VectorFormatter<DifferenceFormatter>::Ser`: the size, then the elements. -/
def vectorSer (v : List ℕ) : Except String (List UInt8) := do
  let bytes ← serEach {} v
  pure (writeCompactSize v.length ++ bytes)

/-- `VectorFormatter<DifferenceFormatter>::Unser`: the size, then the elements. -/
def vectorUnser (iMax : ℕ) : Reader (List ℕ) := do
  let size ← readCompactSize
  unserEach iMax {} size

/-! ### What `Ser` writes -/

/-- The gaps `Ser` writes for `vs` from the shift `m`: each value minus the shift before it. -/
def gaps : ℕ → List ℕ → List ℕ
  | _, [] => []
  | m, v :: vs => (v - m) :: gaps (v + 1) vs

/-- `vs` is strictly increasing, starts at the shift `m` or above, and stays below the largest
`uint64_t`: the lists `Ser` accepts from the shift `m`. -/
def Acceptable (m : ℕ) (vs : List ℕ) : Prop :=
  (∀ v ∈ vs, m ≤ v) ∧ vs.Pairwise (· < ·) ∧ ∀ v ∈ vs, v < 2 ^ 64 - 1

theorem acceptable_nil (m : ℕ) : Acceptable m [] :=
  ⟨fun _ h => absurd h List.not_mem_nil, List.Pairwise.nil, fun _ h => absurd h List.not_mem_nil⟩

/-- A list is acceptable when its head is, and its tail is from the shift after the head. -/
theorem acceptable_cons {m v : ℕ} {vs : List ℕ} :
    Acceptable m (v :: vs) ↔ m ≤ v ∧ v < 2 ^ 64 - 1 ∧ Acceptable (v + 1) vs := by
  constructor
  · rintro ⟨hm, hpair, hlt⟩
    rw [List.forall_mem_cons] at hm hlt
    rw [List.pairwise_cons] at hpair
    exact ⟨hm.1, hlt.1, fun w hw => hpair.1 w hw, hpair.2, hlt.2⟩
  · rintro ⟨hm, hv, hshift, hpair, hlt⟩
    refine ⟨List.forall_mem_cons.mpr ⟨hm, fun w hw => ?_⟩,
      List.pairwise_cons.mpr ⟨fun w hw => hshift w hw, hpair⟩, List.forall_mem_cons.mpr ⟨hv, hlt⟩⟩
    have := hshift w hw
    omega

theorem ser_eq_ok {m v : ℕ} (hm : m ≤ v) (hv : v < 2 ^ 64 - 1) :
    ser ⟨m⟩ v = .ok (writeCompactSize (v - m), ⟨v + 1⟩) := by
  rw [ser, if_neg (show ¬(v < m ∨ v ≥ 2 ^ 64 - 1) by omega)]
  rfl

theorem ser_eq_error {m v : ℕ} (h : ¬(m ≤ v ∧ v < 2 ^ 64 - 1)) :
    ser ⟨m⟩ v = .error differentialValueOverflow := by
  rw [ser, if_pos (show v < m ∨ v ≥ 2 ^ 64 - 1 by omega)]
  rfl

/-- `Ser` over an acceptable list writes its gaps. -/
theorem serEach_eq_ok {m : ℕ} {vs : List ℕ} (h : Acceptable m vs) :
    serEach ⟨m⟩ vs = .ok ((gaps m vs).flatMap writeCompactSize) := by
  induction vs generalizing m with
  | nil => rfl
  | cons v vs ih =>
    obtain ⟨hm, hv, hrest⟩ := acceptable_cons.mp h
    rw [serEach, ser_eq_ok hm hv]
    simp only [bind, Except.bind, ih hrest, pure, Except.pure]
    rfl

/-- `Ser` throws on every list that is not acceptable. -/
theorem serEach_eq_error {m : ℕ} {vs : List ℕ} (h : ¬Acceptable m vs) :
    serEach ⟨m⟩ vs = .error differentialValueOverflow := by
  induction vs generalizing m with
  | nil => exact absurd (acceptable_nil m) h
  | cons v vs ih =>
    rw [acceptable_cons] at h
    by_cases hv : m ≤ v ∧ v < 2 ^ 64 - 1
    · -- the head is written, and the tail fails from the shift after it
      rw [serEach, ser_eq_ok hv.1 hv.2]
      simp only [bind, Except.bind, ih (fun hr => h ⟨hv.1, hv.2, hr⟩)]
    · rw [serEach, ser_eq_error hv]
      rfl

/-! ### What `Unser` reads -/

/-- `Unser` reads back a gap that `Ser` wrote for a value of `I`. -/
theorem unser_run_write {iMax m v : ℕ} (hm : m ≤ v) (hv : v ≤ iMax) (hv64 : v < 2 ^ 64 - 1)
    (hgap : v - m ≤ maxSize) (rest : List UInt8) :
    (unser iMax ⟨m⟩).run (writeCompactSize (v - m) ++ rest) = .ok ((v, ⟨v + 1⟩), rest) := by
  rw [unser, readCompactSize_eq,
    Reader.run_bind_ok (readCompactSizeWithLimit_write (by omega) hgap rest)]
  have hsum : (m + (v - m)) % 2 ^ 64 = v := by
    rw [Nat.add_sub_cancel' hm, Nat.mod_eq_of_lt (by omega)]
  simp only [hsum]
  rw [if_neg (by omega)]
  rfl

/-- A value `Unser` accepts from a shift below `2 ^ 64` is a value of `I` at the shift or above,
and the stream starts with the gap `Ser` writes for it. -/
theorem unser_run_eq_ok {iMax m v : ℕ} {fmt : DifferenceFormatter} {s rest : List UInt8}
    (hm : m < 2 ^ 64) (h : (unser iMax ⟨m⟩).run s = .ok ((v, fmt), rest)) :
    m ≤ v ∧ v ≤ iMax ∧ v < 2 ^ 64 - 1 ∧ v - m ≤ maxSize ∧ fmt = ⟨v + 1⟩ ∧
      s = writeCompactSize (v - m) ++ rest := by
  rw [unser, readCompactSize_eq] at h
  obtain ⟨n, s₁, hread, hcheck⟩ := Reader.run_bind_eq_ok h
  obtain ⟨hmax, hn, rfl⟩ := eq_write_of_readCompactSizeWithLimit hread
  rw [Reader.run_bind_ok hread] at h
  simp only at hcheck
  split_ifs at hcheck with hbad
  · cases hcheck
  rw [Reader.run_pure, Except.ok.injEq, Prod.mk.injEq, Prod.mk.injEq] at hcheck
  obtain ⟨⟨rfl, rfl⟩, rfl⟩ := hcheck
  -- the sum did not wrap: a wrapped sum is below the gap
  have hsum : m + n < 2 ^ 64 := by
    by_contra hwrap
    have : (m + n) % 2 ^ 64 = m + n - 2 ^ 64 := by
      rw [Nat.mod_eq_sub_mod (by omega), Nat.mod_eq_of_lt (by omega)]
    omega
  rw [Nat.mod_eq_of_lt hsum] at hbad ⊢
  refine ⟨by omega, by omega, by omega, by omega, rfl, ?_⟩
  rw [Nat.add_sub_cancel_left]

/-- `Unser` throws when the gap it reads takes the shift to the largest `uint64_t` or past
`2 ^ 64`, where the sum wraps. -/
theorem unser_run_error_of_le_add {iMax m n : ℕ} {s rest : List UInt8} (hm : m < 2 ^ 64)
    (hread : (readCompactSize : Reader ℕ).run s = .ok (n, rest)) (hwrap : 2 ^ 64 - 1 ≤ m + n) :
    (unser iMax ⟨m⟩).run s = .error differentialValueOverflow := by
  have hn : n < 2 ^ 64 := (eq_write_of_readCompactSizeWithLimit hread).2.1
  rw [unser, Reader.run_bind_ok hread]
  simp only
  rw [if_pos]
  · rfl
  · by_cases hlt : m + n < 2 ^ 64
    · rw [Nat.mod_eq_of_lt hlt]
      omega
    · have : (m + n) % 2 ^ 64 = m + n - 2 ^ 64 := by
        rw [Nat.mod_eq_sub_mod (by omega), Nat.mod_eq_of_lt (by omega)]
      omega

/-- `Unser` reads back what `Ser` wrote for an acceptable list of values of `I` whose gaps are
within `MAX_SIZE`. -/
theorem unserEach_serEach {iMax m : ℕ} {vs : List ℕ} (h : Acceptable m vs)
    (hI : ∀ v ∈ vs, v ≤ iMax) (hgaps : ∀ g ∈ gaps m vs, g ≤ maxSize) (rest : List UInt8) :
    (unserEach iMax ⟨m⟩ vs.length).run ((gaps m vs).flatMap writeCompactSize ++ rest) =
      .ok (vs, rest) := by
  induction vs generalizing m with
  | nil => rfl
  | cons v vs ih =>
    obtain ⟨hm, hv, hrest⟩ := acceptable_cons.mp h
    rw [List.forall_mem_cons] at hI
    rw [gaps, List.forall_mem_cons] at hgaps
    rw [List.length_cons, unserEach, gaps, List.flatMap_cons, List.append_assoc,
      Reader.run_bind_ok (unser_run_write hm hI.1 hv hgaps.1 _)]
    simp only
    rw [Reader.run_bind_ok (ih hrest hI.2 hgaps.2)]
    rfl

/-- Whatever `Unser` accepts from a shift below `2 ^ 64` is the encoding `Ser` writes for an
acceptable list of values of `I`, with gaps within `MAX_SIZE`. -/
theorem eq_serEach_of_unserEach {iMax m count : ℕ} {s rest : List UInt8} {vs : List ℕ}
    (hm : m < 2 ^ 64) (h : (unserEach iMax ⟨m⟩ count).run s = .ok (vs, rest)) :
    vs.length = count ∧ Acceptable m vs ∧ (∀ v ∈ vs, v ≤ iMax) ∧
      (∀ g ∈ gaps m vs, g ≤ maxSize) ∧ s = (gaps m vs).flatMap writeCompactSize ++ rest := by
  induction count generalizing m s vs with
  | zero =>
    cases h
    exact ⟨rfl, acceptable_nil m, fun _ h => absurd h List.not_mem_nil,
      fun _ h => absurd h List.not_mem_nil, rfl⟩
  | succ count ih =>
    rw [unserEach] at h
    obtain ⟨⟨v, fmt⟩, s₁, hhead, htail⟩ := Reader.run_bind_eq_ok h
    obtain ⟨hmv, hvI, hv, hgap, rfl, rfl⟩ := unser_run_eq_ok hm hhead
    obtain ⟨ws, s₂, hws, hdone⟩ := Reader.run_bind_eq_ok htail
    cases hdone
    obtain ⟨hlen, hacc, hwsI, hwsgaps, rfl⟩ := ih (by omega) hws
    refine ⟨by rw [List.length_cons, hlen], acceptable_cons.mpr ⟨hmv, hv, hacc⟩,
      List.forall_mem_cons.mpr ⟨hvI, hwsI⟩, ?_, ?_⟩
    · rw [gaps, List.forall_mem_cons]
      exact ⟨hgap, hwsgaps⟩
    · rw [gaps, List.flatMap_cons, List.append_assoc]

/-! ### Vectors -/

/-! ### Round trip -/

/-- A strictly increasing list is below a bound when its last element is. -/
theorem forall_lt_of_getLast? {vs : List ℕ} {bound : ℕ} (hpair : vs.Pairwise (· < ·))
    (hlast : ∀ v ∈ vs.getLast?, v < bound) : ∀ v ∈ vs, v < bound := by
  rcases List.eq_nil_or_concat vs with rfl | ⟨init, l, rfl⟩
  · exact fun _ h => absurd h List.not_mem_nil
  · rw [List.concat_eq_append] at hpair hlast ⊢
    have hl : l < bound := hlast l (by rw [List.getLast?_concat]; rfl)
    intro v hv
    rcases List.mem_append.mp hv with hv | hv
    · have := (List.pairwise_append.mp hpair).2.2 v hv l (List.mem_singleton_self l)
      omega
    · rw [List.mem_singleton.mp hv]
      exact hl

/-- From the shift `0`, a list of `uint64_t` values is acceptable when it is strictly increasing
and misses the largest `uint64_t`. -/
theorem acceptable_zero_iff {vs : List ℕ} (h64 : ∀ v ∈ vs, v < 2 ^ 64) :
    Acceptable 0 vs ↔ vs.Pairwise (· < ·) ∧ 2 ^ 64 - 1 ∉ vs := by
  constructor
  · rintro ⟨-, hpair, hlt⟩
    exact ⟨hpair, fun hmem => absurd (hlt _ hmem) (lt_irrefl _)⟩
  · rintro ⟨hpair, hnot⟩
    refine ⟨fun v _ => Nat.zero_le v, hpair, fun v hv => ?_⟩
    have hne : v ≠ 2 ^ 64 - 1 := fun heq => hnot (heq ▸ hv)
    have := h64 v hv
    omega

theorem differenceFormatter_roundtrip (iMax : ℕ) (hI : iMax < 2 ^ 64) :
    (∀ vs : List ℕ, (∀ v ∈ vs, v ≤ iMax) → vs.Pairwise (· < ·) →
        (∀ v ∈ vs.getLast?, v < 2 ^ 64 - 1) → (∀ g ∈ gaps 0 vs, g ≤ maxSize) →
        ∀ rest, ∃ bytes, serEach {} vs = .ok bytes ∧
          (unserEach iMax {} vs.length).run (bytes ++ rest) = .ok (vs, rest)) ∧
      (∀ vs : List ℕ, (∀ v ∈ vs, v ≤ iMax) →
        ((∃ e, serEach {} vs = .error e) ↔ ¬(vs.Pairwise (· < ·) ∧ 2 ^ 64 - 1 ∉ vs))) ∧
      (∀ count s vs rest, (unserEach iMax {} count).run s = .ok (vs, rest) →
        vs.Pairwise (· < ·) ∧ (∀ v ∈ vs, v ≤ iMax ∧ v < 2 ^ 64 - 1) ∧
          ∃ bytes, serEach {} vs = .ok bytes ∧ s = bytes ++ rest) ∧
      (∀ fmt : DifferenceFormatter, fmt.mShift < 2 ^ 64 → ∀ s n rest,
        (readCompactSize : Reader ℕ).run s = .ok (n, rest) → 2 ^ 64 - 1 ≤ fmt.mShift + n →
        (fmt.unser iMax).run s = .error differentialValueOverflow) := by
  refine ⟨fun vs hvs hpair hlast hgaps rest => ?_, fun vs hvs => ?_,
    fun count s vs rest h => ?_, ?_⟩
  · have hacc : Acceptable 0 vs :=
      ⟨fun v _ => Nat.zero_le v, hpair, forall_lt_of_getLast? hpair hlast⟩
    exact ⟨_, serEach_eq_ok hacc, unserEach_serEach hacc hvs hgaps rest⟩
  · rw [← acceptable_zero_iff (fun v hv => lt_of_le_of_lt (hvs v hv) hI)]
    constructor
    · rintro ⟨e, he⟩ hacc
      rw [serEach_eq_ok hacc] at he
      cases he
    · intro hnot
      exact ⟨_, serEach_eq_error hnot⟩
  · obtain ⟨-, hacc, hvs, -, hs⟩ := eq_serEach_of_unserEach (by omega) h
    exact ⟨hacc.2.1, fun v hv => ⟨hvs v hv, hacc.2.2 v hv⟩, _, serEach_eq_ok hacc, hs⟩
  · rintro ⟨m⟩ hm s n rest hread hwrap
    exact unser_run_error_of_le_add hm hread hwrap

/-- `differenceFormatter_roundtrip` for the `uint32_t` indices of a `BlockTransactionsRequest`. -/
theorem differenceFormatter_roundtrip_uint32 :
    2 ^ 32 - 1 < 2 ^ 64 ∧ ∃ bytes, serEach {} [1, 5, 6] = .ok bytes ∧
      (unserEach (2 ^ 32 - 1) {} 3).run (bytes ++ []) = .ok ([1, 5, 6], []) :=
  ⟨by omega, (differenceFormatter_roundtrip (2 ^ 32 - 1) (by omega)).1 [1, 5, 6]
    (by decide) (by decide) (by decide) (by decide) []⟩

end DifferenceFormatter

end BitcoinCash
