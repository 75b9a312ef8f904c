import BitcoinCash.BlockFilter.GolombRice
import BitcoinCash.Serialize.CompactSize
import BitcoinCash.Util.StrEncodings
import Mathlib.Data.List.TakeWhile
import BitcoinCash.Hashing.SipHash

/-!
# Golomb-coded set filters

A `GCSFilter` of `blockfilter.cpp` holds a set of elements as the Golomb-Rice codes of the
differences between their sorted hashes, each hash SipHash of the element mapped into `[0, N * M)`.
The filter is built from its elements or from such an encoding, which the constructor checks; an
element matches when its hash is one of the set's, and `MatchAny` merges the sorted hashes of the
queries against the decoded ones.

SipHash is a parameter here: the results hold for every function of the keys and the element.

The abstract layer is the merge itself: on sorted lists, `matchValues` finds a common element
exactly when there is one (`matchValues_iff`). The encoding refines the sorted hashes
(`EncodesValues`): the compact size of `N`, then the codes of the differences, then at most seven
bits of padding; each constructor produces or accepts it, and `MatchInternal` on it runs the
merge on the hashes (`matchInternal_of_encodesValues`).
-/

namespace BitcoinCash

open BitList

/-- `MapIntoRange(x, n)` with `__int128`: the high word of the 128-bit product `x * n`. -/
def mapIntoRange (x n : UInt64) : UInt64 := ((x.toNat * n.toNat) >>> 64).toUInt64

/-- `MapIntoRange(x, n)` without `__int128`: the high word of `x * n` assembled from the
products of the 32-bit halves of `x` and `n`. -/
def mapIntoRangeLimbs (x n : UInt64) : UInt64 :=
  let xHi := x >>> 32
  let xLo := x &&& 0xFFFFFFFF
  let nHi := n >>> 32
  let nLo := n &&& 0xFFFFFFFF
  let ac := xHi * nHi
  let ad := xHi * nLo
  let bc := xLo * nHi
  let bd := xLo * nLo
  let mid34 := (bd >>> 32) + (bc &&& 0xFFFFFFFF) + (ad &&& 0xFFFFFFFF)
  let upper64 := ac + (bc >>> 32) + (ad >>> 32) + (mid34 >>> 32)
  upper64

/-- `GCSFilter::Params`. -/
structure GCSParams where
  sipHashK0 : UInt64
  sipHashK1 : UInt64
  P : UInt8
  M : UInt32

/-- A `GCSFilter`: its parameters, `m_N`, `m_F` and `m_encoded`. -/
structure GCSFilter where
  params : GCSParams
  N : UInt32
  F : UInt64
  encoded : List UInt8

/-- The text of the exceptions the constructors throw for `2 ^ 32` elements or more. -/
def nMustBeLt : String := "N must be <2^32"

/-- The text of the exception for bytes left after the last element's code. -/
def excessData : String := "encoded_filter contains excess data"

/-- `assert(N == m_N)` of `MatchInternal`. The node aborts there; the model returns this text. -/
def assertNEqualsMN : String := "assert(N == m_N)"

/-- The inner `while (true)` of `MatchInternal`: skip the queries below `value`; stop with `true`
at one equal to it or with `false` past the last, or go on to the next value from the first query
above it. -/
def matchInner (value : UInt64) : List UInt64 → Bool ⊕ List UInt64
  | [] => .inl false
  | h :: hs =>
    if h = value then .inl true
    else if h > value then .inr (h :: hs)
    else matchInner value hs

/-- The outer loop of `MatchInternal` over the `n` codes left: decode the next value and run the
inner loop on it. -/
def matchOuter (P : UInt8) : ℕ → BitStreamReader → UInt64 → List UInt64 → Except String Bool
  | 0, _, _, _ => pure false
  | n + 1, r, value, hashes => do
    let (delta, r) ← golombRiceDecode r P
    let value := value + delta
    match matchInner value hashes with
    | .inl found => pure found
    | .inr hashes => matchOuter P n r value hashes

/-- The loop of the constructor from elements: the Golomb-Rice code of the difference of each
sorted hash from the one before. -/
def encodeValues (P : UInt8) : List UInt64 → UInt64 → BitStreamWriter →
    Except String BitStreamWriter
  | [], _, w => pure w
  | value :: values, lastValue, w => do
    let delta := value - lastValue
    let w ← golombRiceEncode w P delta
    encodeValues P values value w

/-! ### `MapIntoRange` -/

section MapIntoRange

theorem toNat_mapIntoRange (x n : UInt64) :
    (mapIntoRange x n).toNat = x.toNat * n.toNat / 2 ^ 64 := by
  have hlt : x.toNat * n.toNat / 2 ^ 64 < 2 ^ 64 :=
    Nat.div_lt_of_lt_mul (Nat.mul_lt_mul'' x.toNat_lt n.toNat_lt)
  rw [mapIntoRange, Nat.toUInt64_eq, UInt64.toNat_ofNat', Nat.shiftRight_eq_div_pow,
    Nat.mod_eq_of_lt hlt]

private theorem toNat_hi (y : UInt64) : (y >>> 32).toNat = y.toNat / 2 ^ 32 := by
  rw [UInt64.toNat_shiftRight, Nat.shiftRight_eq_div_pow]
  rfl

private theorem toNat_lo (y : UInt64) : (y &&& (0xFFFFFFFF : UInt64)).toNat = y.toNat % 2 ^ 32 := by
  rw [UInt64.toNat_and, show (0xFFFFFFFF : UInt64).toNat = 2 ^ 32 - 1 from rfl,
    Nat.and_two_pow_sub_one_eq_mod]

private theorem toNat_mul_of_lt {y z : UInt64} (hy : y.toNat < 2 ^ 32) (hz : z.toNat < 2 ^ 32) :
    (y * z).toNat = y.toNat * z.toNat := by
  rw [UInt64.toNat_mul, Nat.mod_eq_of_lt]
  calc y.toNat * z.toNat < 2 ^ 32 * 2 ^ 32 := Nat.mul_lt_mul'' hy hz
    _ = 2 ^ 64 := by norm_num

private theorem toNat_add_of_lt {y z : UInt64} (h : y.toNat + z.toNat < 2 ^ 64) :
    (y + z).toNat = y.toNat + z.toNat := by
  rw [UInt64.toNat_add, Nat.mod_eq_of_lt h]

/-- The high word of a product of two-limb numbers, limb by limb: the identity behind the
portable path of `MapIntoRange`. -/
private theorem mul_div_two_pow_64 {a b c d : ℕ} :
    (a * 2 ^ 32 + b) * (c * 2 ^ 32 + d) / 2 ^ 64 =
      a * c + b * c / 2 ^ 32 + a * d / 2 ^ 32 +
        (b * d / 2 ^ 32 + b * c % 2 ^ 32 + a * d % 2 ^ 32) / 2 ^ 32 := by
  have hexp : (a * 2 ^ 32 + b) * (c * 2 ^ 32 + d) =
      a * c * 2 ^ 64 + b * c * 2 ^ 32 + a * d * 2 ^ 32 + b * d := by ring
  rw [hexp]
  generalize a * c = ac, b * c = bc, a * d = ad, b * d = bd
  omega

theorem toNat_mapIntoRangeLimbs (x n : UInt64) :
    (mapIntoRangeLimbs x n).toNat = x.toNat * n.toNat / 2 ^ 64 := by
  have hx := x.toNat_lt
  have hn := n.toNat_lt
  set a := x.toNat / 2 ^ 32
  set b := x.toNat % 2 ^ 32
  set c := n.toNat / 2 ^ 32
  set d := n.toNat % 2 ^ 32
  have ha : a < 2 ^ 32 := Nat.div_lt_of_lt_mul (by omega)
  have hc : c < 2 ^ 32 := Nat.div_lt_of_lt_mul (by omega)
  have hb : b < 2 ^ 32 := Nat.mod_lt _ (by omega)
  have hd : d < 2 ^ 32 := Nat.mod_lt _ (by omega)
  -- the four partial products, each exact in 64 bits
  have hac : ((x >>> 32) * (n >>> 32)).toNat = a * c := by
    rw [toNat_mul_of_lt (by rw [toNat_hi]; exact ha) (by rw [toNat_hi]; exact hc), toNat_hi,
      toNat_hi]
  have had : ((x >>> 32) * (n &&& (0xFFFFFFFF : UInt64))).toNat = a * d := by
    rw [toNat_mul_of_lt (by rw [toNat_hi]; exact ha) (by rw [toNat_lo]; exact hd), toNat_hi,
      toNat_lo]
  have hbc : ((x &&& (0xFFFFFFFF : UInt64)) * (n >>> 32)).toNat = b * c := by
    rw [toNat_mul_of_lt (by rw [toNat_lo]; exact hb) (by rw [toNat_hi]; exact hc), toNat_lo,
      toNat_hi]
  have hbd : ((x &&& (0xFFFFFFFF : UInt64)) * (n &&& (0xFFFFFFFF : UInt64))).toNat = b * d := by
    rw [toNat_mul_of_lt (by rw [toNat_lo]; exact hb) (by rw [toNat_lo]; exact hd), toNat_lo,
      toNat_lo]
  have hprod : x.toNat * n.toNat = (a * 2 ^ 32 + b) * (c * 2 ^ 32 + d) := by
    rw [Nat.div_add_mod' x.toNat, Nat.div_add_mod' n.toNat]
  -- the high word fits in 64 bits, and so does every partial sum of it
  have hhigh : a * c + b * c / 2 ^ 32 + a * d / 2 ^ 32 +
      (b * d / 2 ^ 32 + b * c % 2 ^ 32 + a * d % 2 ^ 32) / 2 ^ 32 < 2 ^ 64 := by
    rw [← mul_div_two_pow_64, ← hprod]
    exact Nat.div_lt_of_lt_mul (Nat.mul_lt_mul'' hx hn)
  have hbd_hi : b * d / 2 ^ 32 < 2 ^ 32 :=
    Nat.div_lt_of_lt_mul (lt_of_lt_of_le (Nat.mul_lt_mul'' hb hd) (by norm_num))
  have hbc_lo := Nat.mod_lt (b * c) (show 0 < 2 ^ 32 by norm_num)
  have had_lo := Nat.mod_lt (a * d) (show 0 < 2 ^ 32 by norm_num)
  simp only [mapIntoRangeLimbs]
  set AC := (x >>> 32) * (n >>> 32)
  set AD := (x >>> 32) * (n &&& (0xFFFFFFFF : UInt64))
  set BC := (x &&& (0xFFFFFFFF : UInt64)) * (n >>> 32)
  set BD := (x &&& (0xFFFFFFFF : UInt64)) * (n &&& (0xFFFFFFFF : UInt64))
  -- `mid34`, then `upper64`, one addition at a time
  have hmid₁ : (BD >>> 32 + (BC &&& 0xFFFFFFFF)).toNat = b * d / 2 ^ 32 + b * c % 2 ^ 32 := by
    rw [toNat_add_of_lt] <;> rw [toNat_hi, toNat_lo, hbd, hbc]
    omega
  have hmid : (BD >>> 32 + (BC &&& 0xFFFFFFFF) + (AD &&& 0xFFFFFFFF)).toNat =
      b * d / 2 ^ 32 + b * c % 2 ^ 32 + a * d % 2 ^ 32 := by
    rw [toNat_add_of_lt] <;> rw [hmid₁, toNat_lo, had]
    omega
  have hup₁ : (AC + BC >>> 32).toNat = a * c + b * c / 2 ^ 32 := by
    rw [toNat_add_of_lt] <;> rw [hac, toNat_hi, hbc]
    omega
  have hup₂ : (AC + BC >>> 32 + AD >>> 32).toNat = a * c + b * c / 2 ^ 32 + a * d / 2 ^ 32 := by
    rw [toNat_add_of_lt] <;> rw [hup₁, toNat_hi, had]
    omega
  rw [hprod, mul_div_two_pow_64, toNat_add_of_lt] <;> rw [hup₂, toNat_hi, hmid]
  omega

/-- The two paths of `MapIntoRange` agree. -/
theorem mapIntoRangeLimbs_eq (x n : UInt64) : mapIntoRangeLimbs x n = mapIntoRange x n :=
  UInt64.toNat_inj.mp (by rw [toNat_mapIntoRangeLimbs, toNat_mapIntoRange])

end MapIntoRange

/-! ### The merge -/

section Merge

/-- The differences of each value from the one before, from `last` on. -/
def deltas : UInt64 → List UInt64 → List UInt64
  | _, [] => []
  | last, v :: vs => (v - last) :: deltas v vs

/-- The merge of `MatchInternal` on the decoded values themselves. -/
def matchValues : List UInt64 → List UInt64 → Bool
  | [], _ => false
  | v :: vs, qs =>
    match matchInner v qs with
    | .inl found => found
    | .inr qs => matchValues vs qs

private theorem gt_of_not_lt_of_ne {h v : UInt64} (hlt : ¬ h < v) (hne : h ≠ v) : v < h := by
  rw [UInt64.lt_iff_toNat_lt] at hlt ⊢
  have : h.toNat ≠ v.toNat := fun heq => hne (UInt64.toNat_inj.mp heq)
  omega

/-- The inner loop on `value` goes to the first query that is not below it. -/
theorem matchInner_eq (value : UInt64) (qs : List UInt64) :
    matchInner value qs =
      match qs.dropWhile (fun q => decide (q < value)) with
      | [] => .inl false
      | h :: t => if h = value then .inl true else .inr (h :: t) := by
  induction qs with
  | nil => rfl
  | cons h hs ih =>
    rw [matchInner, List.dropWhile_cons]
    by_cases hlt : h < value
    · have hne : h ≠ value := fun heq => UInt64.lt_irrefl _ (heq ▸ hlt)
      rw [if_pos (decide_eq_true hlt), ← ih, if_neg hne,
        if_neg (UInt64.not_lt.mpr (UInt64.le_of_lt hlt))]
    · rw [if_neg (show ¬ (decide (h < value) = true) by simpa using hlt)]
      show _ = if h = value then _ else _
      by_cases heq : h = value
      · rw [if_pos heq, if_pos heq]
      · rw [if_neg heq, if_pos (gt_of_not_lt_of_ne hlt heq), if_neg heq]

/-- On sorted values and sorted queries, the merge finds a common element exactly when there is
one. The induction is on the values; the queries the inner loop skips lie below the current
value, hence below all later ones. -/
theorem matchValues_iff {vs qs : List UInt64} (hvs : vs.Pairwise (· ≤ ·))
    (hqs : qs.Pairwise (· ≤ ·)) : matchValues vs qs = true ↔ ∃ q ∈ qs, q ∈ vs := by
  induction vs generalizing qs with
  | nil => simp [matchValues]
  | cons v vs ih =>
    obtain ⟨hv, hvs⟩ := List.pairwise_cons.mp hvs
    have hsplit := List.takeWhile_append_dropWhile (p := fun q => decide (q < v)) (l := qs)
    have hbelow : ∀ q ∈ qs.takeWhile (fun q => decide (q < v)), q < v :=
      fun q hq => of_decide_eq_true (List.mem_takeWhile_imp (p := fun q => decide (q < v)) hq)
    -- no query below `v` is a value
    have hskip : ∀ q ∈ qs.takeWhile (fun q => decide (q < v)), q ∉ v :: vs := by
      intro q hq hqv
      rcases List.mem_cons.mp hqv with rfl | hqvs
      · exact UInt64.lt_irrefl _ (hbelow q hq)
      · exact UInt64.not_lt.mpr (hv q hqvs) (hbelow q hq)
    rw [matchValues, matchInner_eq]
    cases hds : qs.dropWhile (fun q => decide (q < v)) with
    | nil =>
      rw [hds, List.append_nil] at hsplit
      simp only [Bool.false_eq_true, false_iff, not_exists, not_and]
      exact fun q hq => hskip q (by rw [hsplit]; exact hq)
    | cons h t =>
      rw [hds] at hsplit
      have hh : ¬ h < v := by
        have hnot := List.head_dropWhile_not (fun q => decide (q < v)) (l := qs)
          (by rw [hds]; exact List.cons_ne_nil h t)
        simp only [hds, List.head_cons, decide_eq_false_iff_not] at hnot
        exact hnot
      show (match (if h = v then Sum.inl true else Sum.inr (h :: t)) with
        | .inl found => found
        | .inr qs => matchValues vs qs) = true ↔ _
      by_cases hhv : h = v
      · rw [if_pos hhv]
        simp only [true_iff]
        exact ⟨h, hsplit ▸ List.mem_append_right _ List.mem_cons_self,
          hhv ▸ List.mem_cons_self⟩
      · have hvh := gt_of_not_lt_of_ne hh hhv
        have hsorted : (h :: t).Pairwise (· ≤ ·) :=
          hqs.sublist (hsplit ▸ List.sublist_append_right _ _)
        rw [if_neg hhv]
        show matchValues vs (h :: t) = true ↔ _
        rw [ih hvs hsorted]
        constructor
        · rintro ⟨q, hq, hqvs⟩
          exact ⟨q, hsplit ▸ List.mem_append_right _ hq, List.mem_cons_of_mem _ hqvs⟩
        · rintro ⟨q, hq, hqv⟩
          rw [← hsplit, List.mem_append] at hq
          rcases hq with hq | hq
          · exact absurd hqv (hskip q hq)
          · rcases List.mem_cons.mp hqv with rfl | hqvs
            · -- `q`, the current value, is not among the queries from `h` on, all above it
              have hhq : h ≤ q := by
                rcases List.mem_cons.mp hq with rfl | hqt
                · exact UInt64.le_refl _
                · exact List.rel_of_pairwise_cons hsorted hqt
              exact absurd hvh (UInt64.not_lt.mpr hhq)
            · exact ⟨q, hq, hqvs⟩

theorem matchValues_eq_decide {vs qs : List UInt64} (hvs : vs.Pairwise (· ≤ ·))
    (hqs : qs.Pairwise (· ≤ ·)) : matchValues vs qs = decide (∃ q ∈ qs, q ∈ vs) :=
  Bool.eq_iff_iff.mpr (by rw [decide_eq_true_iff]; exact matchValues_iff hvs hqs)

end Merge

/-! ### The loops on the codes of the differences -/

section Loops

/-- The constructor's loop codes the differences of the values. -/
theorem encodeValues_eq (P : UInt8) (values : List UInt64) (last : UInt64)
    (w : BitStreamWriter) :
    encodeValues P values last w =
      (deltas last values).foldlM (fun w x => golombRiceEncode w P x) w := by
  induction values generalizing last w with
  | nil => rfl
  | cons v vs ih =>
    rw [encodeValues, deltas, List.foldlM_cons]
    simp only [ih]

/-- On the codes of the differences of `values`, the outer loop of `MatchInternal` decodes the
values one by one and runs the merge on them. -/
theorem matchOuter_spec {P : UInt8} (hP : P.toNat ≤ 63) (values : List UInt64)
    {r : BitStreamReader} {rest : List Bool} {last : UInt64}
    (hr : r.remaining = (deltas last values).flatMap (fun d => riceCode P.toNat d.toNat) ++ rest)
    (qs : List UInt64) : matchOuter P values.length r last qs = .ok (matchValues values qs) := by
  induction values generalizing r last qs with
  | nil => rfl
  | cons v vs ih =>
    rw [deltas, List.flatMap_cons, List.append_assoc] at hr
    obtain ⟨r₁, hrun₁, hr₁⟩ := golombRiceDecode_spec hP (v - last) hr
    -- adding the difference to the value before gives back `v`, even past `2 ^ 64`
    have hv : last + (v - last) = v := by rw [UInt64.add_comm, UInt64.sub_add_cancel]
    rw [List.length_cons, matchOuter, hrun₁]
    show (match matchInner (last + (v - last)) qs with
      | .inl found => pure found
      | .inr hashes => matchOuter P vs.length r₁ (last + (v - last)) hashes) = _
    rw [hv, matchValues]
    cases matchInner v qs with
    | inl found => rfl
    | inr qs' => exact ih hr₁ qs'

/-- `encoded` is the compact size of the number of `values`, then the Golomb-Rice codes of the
differences of `values`, then fewer than eight bits of padding. -/
def EncodesValues (P : UInt8) (values : List UInt64) (encoded : List UInt8) : Prop :=
  ∃ tail k, k < 8 ∧ encoded = writeCompactSize values.length ++ tail ∧
    bytesBits tail =
      (deltas 0 values).flatMap (fun d => riceCode P.toNat d.toNat) ++ List.replicate k false

@[simp] theorem length_deltas (last : UInt64) (values : List UInt64) :
    (deltas last values).length = values.length := by
  induction values generalizing last with
  | nil => rfl
  | cons v vs ih => rw [deltas, List.length_cons, ih, List.length_cons]

end Loops

namespace GCSFilter

variable (sipHash : UInt64 → UInt64 → List UInt8 → UInt64)

/-- `HashToRange(element)`: SipHash of the element under the filter's keys, mapped into
`[0, m_F)`. -/
def hashToRange (filter : GCSFilter) (element : List UInt8) : UInt64 :=
  mapIntoRange (sipHash filter.params.sipHashK0 filter.params.sipHashK1 element) filter.F

/-- `BuildHashedSet(elements)`: the hashes of the elements, sorted. -/
def buildHashedSet (filter : GCSFilter) (elements : List (List UInt8)) : List UInt64 :=
  (elements.map (hashToRange sipHash filter)).mergeSort fun a b => decide (a ≤ b)

/-- `GCSFilter(params, elements)`. The writer's destructor flushes once more, which does nothing
after `Flush()`. -/
def ofElements (params : GCSParams) (elements : List (List UInt8)) : Except String GCSFilter := do
  let N := elements.length
  let mN := N.toUInt32
  if mN.toNat ≠ N then throw nMustBeLt
  let filter : GCSFilter := ⟨params, mN, mN.toUInt64 * params.M.toUInt64, []⟩
  let stream := writeCompactSize mN.toNat
  if elements.isEmpty then pure { filter with encoded := stream }
  else do
    let w ← encodeValues params.P (buildHashedSet sipHash filter elements) 0
      (BitStreamWriter.init stream)
    pure { filter with encoded := (BitStreamWriter.flush w).ostream }

/-- `GCSFilter(params, encoded_filter)`: read `N`, then check that the rest holds exactly `N`
codes. The compact size is read with `Reader`, whose end-of-data text is that of `CDataStream`
where `VectorReader`'s reads `VectorReader::read(): end of data`. -/
def ofEncoded (params : GCSParams) (encoded : List UInt8) : Except String GCSFilter := do
  let (N, rest) ← (readCompactSize : Reader ℕ).run encoded
  let mN := N.toUInt32
  if mN.toNat ≠ N then throw nMustBeLt
  let (_, r) ← golombRiceDecodeN params.P mN.toNat (BitStreamReader.init rest)
  if !r.istream.isEmpty then throw excessData
  pure ⟨params, mN, mN.toUInt64 * params.M.toUInt64, encoded⟩

/-- `MatchInternal(element_hashes, size)`, on sorted queries. -/
def matchInternal (filter : GCSFilter) (elementHashes : List UInt64) : Except String Bool := do
  let (N, rest) ← (readCompactSize : Reader ℕ).run filter.encoded
  if N ≠ filter.N.toNat then throw assertNEqualsMN
  matchOuter filter.params.P filter.N.toNat (BitStreamReader.init rest) 0 elementHashes

/-- `Match(element)`. -/
def matchElement (filter : GCSFilter) (element : List UInt8) : Except String Bool :=
  matchInternal filter [hashToRange sipHash filter element]

/-- `MatchAny(elements)`. -/
def matchAny (filter : GCSFilter) (elements : List (List UInt8)) : Except String Bool :=
  matchInternal filter (buildHashedSet sipHash filter elements)

/-! ### The sorted hashes -/

theorem buildHashedSet_sorted (filter : GCSFilter) (elements : List (List UInt8)) :
    (buildHashedSet sipHash filter elements).Pairwise (· ≤ ·) := by
  have hsorted : ((elements.map (hashToRange sipHash filter)).mergeSort
      fun a b => decide (a ≤ b)).Pairwise (fun a b => decide (a ≤ b) = true) := by
    apply List.pairwise_mergeSort
    · intro a b c hab hbc
      exact decide_eq_true (UInt64.le_trans (of_decide_eq_true hab) (of_decide_eq_true hbc))
    · intro a b
      simpa using UInt64.le_total a b
  exact hsorted.imp of_decide_eq_true

theorem mem_buildHashedSet {filter : GCSFilter} {elements : List (List UInt8)} {q : UInt64} :
    q ∈ buildHashedSet sipHash filter elements ↔
      ∃ e ∈ elements, hashToRange sipHash filter e = q := by
  rw [buildHashedSet, (List.mergeSort_perm _ _).mem_iff, List.mem_map]

@[simp] theorem length_buildHashedSet (filter : GCSFilter) (elements : List (List UInt8)) :
    (buildHashedSet sipHash filter elements).length = elements.length := by
  rw [buildHashedSet, List.length_mergeSort, List.length_map]

/-! ### The constructors -/

/-- From fewer than `2 ^ 32` elements the constructor builds the filter of their sorted
hashes. -/
theorem ofElements_spec (params : GCSParams) (hP : params.P.toNat ≤ 63)
    {elements : List (List UInt8)} (hN : elements.length < 2 ^ 32) :
    ∃ encoded, ofElements sipHash params elements = .ok ⟨params, elements.length.toUInt32,
        elements.length.toUInt32.toUInt64 * params.M.toUInt64, encoded⟩ ∧
      EncodesValues params.P (buildHashedSet sipHash ⟨params, elements.length.toUInt32,
        elements.length.toUInt32.toUInt64 * params.M.toUInt64, encoded⟩ elements) encoded := by
  have hmN : elements.length.toUInt32.toNat = elements.length := by
    rw [Nat.toUInt32_eq, UInt32.toNat_ofNat', Nat.mod_eq_of_lt hN]
  by_cases hempty : elements = []
  · subst hempty
    refine ⟨writeCompactSize 0, rfl, [], 0, by omega, ?_, ?_⟩ <;> rw [buildHashedSet, List.map_nil, List.mergeSort_nil] <;> rfl
  · obtain ⟨w, hrun, hclean, hbits, hpre⟩ := foldlM_golombRiceEncode_spec hP
      (deltas 0 (buildHashedSet sipHash ⟨params, elements.length.toUInt32,
        elements.length.toUInt32.toUInt64 * params.M.toUInt64, []⟩ elements))
      (BitStreamWriter.clean_init (writeCompactSize elements.length))
    obtain ⟨hoff, -, hflush, hpre'⟩ := BitStreamWriter.flush_spec hclean
    obtain ⟨tail, htail⟩ := hpre.trans hpre'
    refine ⟨(BitStreamWriter.flush w).ostream, ?_, tail, (8 - w.offset.val) % 8,
      Nat.mod_lt _ (by omega), ?_, ?_⟩
    · have hne : elements.isEmpty = false := List.isEmpty_eq_false_iff.mpr hempty
      simp only [ofElements, hmN, ne_eq, not_true_eq_false, if_false, hne, Bool.false_eq_true,
        encodeValues_eq, hrun]
      rfl
    · rw [length_buildHashedSet, ← htail]
      rfl
    · -- the flushed bytes after the compact size hold the codes and the padding
      have hall := hflush
      rw [BitStreamWriter.bits_of_offset_eq_zero hoff, ← htail, bytesBits_append, hbits,
        BitStreamWriter.bits_init, List.append_assoc] at hall
      exact List.append_cancel_left hall

/-- The constructor from an encoding accepts every encoding of at most `MAX_SIZE` values. -/
theorem ofEncoded_of_encodesValues {params : GCSParams} (hP : params.P.toNat ≤ 63)
    {values : List UInt64} {encoded : List UInt8} (h : EncodesValues params.P values encoded)
    (hmax : values.length ≤ maxSize) :
    ofEncoded params encoded = .ok ⟨params, values.length.toUInt32,
      values.length.toUInt32.toUInt64 * params.M.toUInt64, encoded⟩ := by
  obtain ⟨tail, k, hk, henc, hbits⟩ := h
  have hmN : values.length.toUInt32.toNat = values.length := by
    unfold maxSize at hmax
    rw [Nat.toUInt32_eq, UInt32.toNat_ofNat', Nat.mod_eq_of_lt (by omega)]
  -- the codes are read to the last one, which leaves only the padding
  obtain ⟨r, hdec, hr⟩ := golombRiceDecodeN_spec hP (deltas 0 values)
    (r := BitStreamReader.init tail) (by rw [BitStreamReader.remaining_init, hbits])
  have hist : r.istream = [] := BitStreamReader.istream_eq_nil (by rw [hr, List.length_replicate]; omega)
  rw [length_deltas] at hdec
  rw [ofEncoded, henc, readCompactSize_run_write hmax]
  simp only [bind, Except.bind, hmN, ne_eq, not_true_eq_false, if_false, hdec, hist,
    List.isEmpty_nil, Bool.not_true, Bool.false_eq_true]
  rfl

/-- With its range check, the constructor refuses the encoding of more than `MAX_SIZE`
values. -/
theorem ofEncoded_of_encodesValues_of_gt {P : UInt8} {params : GCSParams} {values : List UInt64}
    {encoded : List UInt8} (h : EncodesValues P values encoded) (hmax : maxSize < values.length)
    (h64 : values.length < 2 ^ 64) : ofEncoded params encoded = .error sizeTooLarge := by
  obtain ⟨tail, k, -, henc, -⟩ := h
  rw [ofEncoded, henc, readCompactSize_run_write_of_gt h64 hmax]
  rfl

/-! ### Matching -/

/-- On an encoding of at most `MAX_SIZE` values, `MatchInternal` runs the merge on them. -/
theorem matchInternal_of_encodesValues (filter : GCSFilter) (hP : filter.params.P.toNat ≤ 63)
    {values : List UInt64} (h : EncodesValues filter.params.P values filter.encoded)
    (hN : filter.N.toNat = values.length) (hmax : values.length ≤ maxSize) (qs : List UInt64) :
    matchInternal filter qs = .ok (matchValues values qs) := by
  obtain ⟨tail, k, hk, henc, hbits⟩ := h
  rw [matchInternal, henc, readCompactSize_run_write hmax]
  simp only [bind, Except.bind, hN, ne_eq, not_true_eq_false, if_false]
  exact matchOuter_spec hP values (by rw [BitStreamReader.remaining_init, hbits]) qs

theorem matchInternal_of_encodesValues_of_gt (filter : GCSFilter) {values : List UInt64}
    (h : EncodesValues filter.params.P values filter.encoded) (hmax : maxSize < values.length)
    (h64 : values.length < 2 ^ 64) (qs : List UInt64) :
    matchInternal filter qs = .error sizeTooLarge := by
  obtain ⟨tail, k, -, henc, -⟩ := h
  rw [matchInternal, henc, readCompactSize_run_write_of_gt h64 hmax]
  rfl

/-- On the filter of `elements`, `Match` finds exactly the hashes of the elements. -/
theorem matchElement_of_encodesValues (filter : GCSFilter) (hP : filter.params.P.toNat ≤ 63)
    {elements : List (List UInt8)}
    (h : EncodesValues filter.params.P (buildHashedSet sipHash filter elements) filter.encoded)
    (hN : filter.N.toNat = elements.length) (hmax : elements.length ≤ maxSize) (e : List UInt8) :
    matchElement sipHash filter e =
      .ok (decide (hashToRange sipHash filter e ∈ buildHashedSet sipHash filter elements)) := by
  rw [matchElement, matchInternal_of_encodesValues filter hP h (by rw [hN, length_buildHashedSet])
      (by rwa [length_buildHashedSet]),
    matchValues_eq_decide (buildHashedSet_sorted sipHash filter elements)
      (List.pairwise_singleton _ _)]
  simp only [List.mem_singleton, exists_eq_left]

/-- On the filter of `elements`, `MatchAny` finds whether a query's hash is an element's. -/
theorem matchAny_of_encodesValues (filter : GCSFilter) (hP : filter.params.P.toNat ≤ 63)
    {elements : List (List UInt8)}
    (h : EncodesValues filter.params.P (buildHashedSet sipHash filter elements) filter.encoded)
    (hN : filter.N.toNat = elements.length) (hmax : elements.length ≤ maxSize)
    (queries : List (List UInt8)) :
    matchAny sipHash filter queries = .ok (decide (∃ q ∈ buildHashedSet sipHash filter queries,
      q ∈ buildHashedSet sipHash filter elements)) := by
  rw [matchAny, matchInternal_of_encodesValues filter hP h (by rw [hN, length_buildHashedSet])
      (by rwa [length_buildHashedSet]),
    matchValues_eq_decide (buildHashedSet_sorted sipHash filter elements)
      (buildHashedSet_sorted sipHash filter queries)]

theorem ofElements_of_ge (params : GCSParams) {elements : List (List UInt8)}
    (hN : 2 ^ 32 ≤ elements.length) : ofElements sipHash params elements = .error nMustBeLt := by
  have hmN : elements.length.toUInt32.toNat ≠ elements.length := by
    rw [Nat.toUInt32_eq, UInt32.toNat_ofNat']
    have := Nat.mod_lt elements.length (show 0 < 2 ^ 32 by norm_num)
    omega
  simp only [ofElements, hmN, ne_eq, not_false_eq_true, if_true]
  rfl

/-! ### The filter of a set -/

/-- A Golomb-coded set filter of at most `MAX_SIZE` elements with `P ≤ 63`, for any SipHash and
keys: its encoding is accepted back as the same filter of as many elements, each element
matches, and `MatchAny` matches exactly when some query does. Beneath it, Golomb-Rice coding
through the bit streams gives back every sequence of values, and both paths of `MapIntoRange`
take the high word of the product. -/
theorem gcsFilter_no_false_negatives (params : GCSParams) (hP : params.P.toNat ≤ 63)
    (elements : List (List UInt8)) (hmax : elements.length ≤ maxSize) :
    (∃ filter, ofElements sipHash params elements = .ok filter ∧
      ofEncoded params filter.encoded = .ok filter ∧ filter.N.toNat = elements.length ∧
      (∀ e ∈ elements, matchElement sipHash filter e = .ok true) ∧
      ∀ queries, ∃ b, matchAny sipHash filter queries = .ok b ∧
        (b = true ↔ ∃ q ∈ queries, matchElement sipHash filter q = .ok true)) ∧
    (∀ xs : List UInt64, ∃ w,
      xs.foldlM (fun w x => golombRiceEncode w params.P x) (BitStreamWriter.init []) = .ok w ∧
      ∃ r, golombRiceDecodeN params.P xs.length
        (BitStreamReader.init (BitStreamWriter.flush w).ostream) = .ok (xs, r) ∧
        r.istream = []) ∧
    (∀ x n : UInt64, (mapIntoRange x n).toNat = x.toNat * n.toNat / 2 ^ 64 ∧
      (mapIntoRangeLimbs x n).toNat = x.toNat * n.toNat / 2 ^ 64) := by
  refine ⟨?_, fun xs => golombRice_roundtrip hP xs,
    fun x n => ⟨toNat_mapIntoRange x n, toNat_mapIntoRangeLimbs x n⟩⟩
  have hN32 : elements.length < 2 ^ 32 := by
    unfold maxSize at hmax
    omega
  have hmN : elements.length.toUInt32.toNat = elements.length := by
    rw [Nat.toUInt32_eq, UInt32.toNat_ofNat', Nat.mod_eq_of_lt hN32]
  obtain ⟨encoded, hrun, henc⟩ := ofElements_spec sipHash params hP hN32
  set filter : GCSFilter :=
    ⟨params, elements.length.toUInt32, elements.length.toUInt32.toUInt64 * params.M.toUInt64,
      encoded⟩
  have hmatch := matchElement_of_encodesValues sipHash filter hP henc hmN hmax
  refine ⟨_, hrun, ?_, hmN, fun e he => ?_, fun queries => ⟨_,
    matchAny_of_encodesValues sipHash filter hP henc hmN hmax queries, ?_⟩⟩
  · rw [ofEncoded_of_encodesValues hP henc (by rwa [length_buildHashedSet]),
      length_buildHashedSet]
  · rw [hmatch, decide_eq_true (mem_buildHashedSet sipHash |>.mpr ⟨e, he, rfl⟩)]
  · -- a query matches exactly when its hash is one of the sorted hashes of the queries
    simp only [decide_eq_true_iff, hmatch, Except.ok.injEq]
    constructor
    · rintro ⟨q, hq, hqe⟩
      obtain ⟨s, hs, rfl⟩ := (mem_buildHashedSet sipHash).mp hq
      exact ⟨s, hs, hqe⟩
    · rintro ⟨s, hs, hse⟩
      exact ⟨_, (mem_buildHashedSet sipHash).mpr ⟨s, hs, rfl⟩, hse⟩

/-- `gcsFilter_no_false_negatives` for two elements, with the parameters of the basic filter. -/
theorem gcsFilter_no_false_negatives_basic :
    ((19 : UInt8).toNat ≤ 63 ∧ [[1], [2]].length ≤ maxSize) ∧
    (∃ filter, ofElements (fun _ _ _ => 0) ⟨0, 0, 19, 784931⟩ [[1], [2]] = .ok filter ∧
      ofEncoded ⟨0, 0, 19, 784931⟩ filter.encoded = .ok filter ∧ filter.N.toNat = 2 ∧
      (∀ e ∈ [[1], [2]], matchElement (fun _ _ _ => 0) filter e = .ok true) ∧
      ∀ queries, ∃ b, matchAny (fun _ _ _ => 0) filter queries = .ok b ∧
        (b = true ↔ ∃ q ∈ queries, matchElement (fun _ _ _ => 0) filter q = .ok true)) ∧
    (∀ xs : List UInt64, ∃ w,
      xs.foldlM (fun w x => golombRiceEncode w 19 x) (BitStreamWriter.init []) = .ok w ∧
      ∃ r, golombRiceDecodeN 19 xs.length
        (BitStreamReader.init (BitStreamWriter.flush w).ostream) = .ok (xs, r) ∧
        r.istream = []) ∧
    (∀ x n : UInt64, (mapIntoRange x n).toNat = x.toNat * n.toNat / 2 ^ 64 ∧
      (mapIntoRangeLimbs x n).toNat = x.toNat * n.toNat / 2 ^ 64) :=
  ⟨⟨by decide, by decide⟩,
    gcsFilter_no_false_negatives (fun _ _ _ => 0) ⟨0, 0, 19, 784931⟩ (by decide) [[1], [2]]
      (by decide)⟩

/-- `CSipHasher(k0, k1).Write(element).Finalize()`, the hash of `GCSFilter::HashToRange`. -/
def csipHash (k0 k1 : UInt64) (element : List UInt8) : UInt64 :=
  ((SipHash.CSipHasher.init k0 k1).write element).finalize

/-- `2 ^ 25 + 1` distinct elements, the decimal strings of `0` to `2 ^ 25`, with the basic
filter's `P` and `M`, zero keys and SipHash-2-4: fewer than `2 ^ 32`, so the filter is built, but more than
`MAX_SIZE`, so that its encoding is refused and `Match` throws on each of its elements. -/
theorem gcsFilter_oversized_set_rejected :
    ((List.range (maxSize + 1)).map formatDecimal).Nodup ∧
    ((List.range (maxSize + 1)).map formatDecimal).length < 2 ^ 32 ∧
    ∃ filter, ofElements csipHash ⟨0, 0, 19, 784931⟩
        ((List.range (maxSize + 1)).map formatDecimal) = .ok filter ∧
      ofEncoded ⟨0, 0, 19, 784931⟩ filter.encoded = .error sizeTooLarge ∧
      ∀ e ∈ (List.range (maxSize + 1)).map formatDecimal,
        matchElement csipHash filter e = .error sizeTooLarge := by
  have hlen : ((List.range (maxSize + 1)).map formatDecimal).length = maxSize + 1 := by
    rw [List.length_map, List.length_range]
  have hN32 : ((List.range (maxSize + 1)).map formatDecimal).length < 2 ^ 32 := by
    rw [hlen]
    unfold maxSize
    omega
  have hinj : Function.Injective formatDecimal := fun a b h => by
    rw [← decimalValue_formatDecimal a, h, decimalValue_formatDecimal]
  obtain ⟨encoded, hrun, henc⟩ :=
    ofElements_spec csipHash ⟨0, 0, 19, 784931⟩
      (by show (19 : UInt8).toNat ≤ 63; decide) hN32
  set filter : GCSFilter := ⟨⟨0, 0, 19, 784931⟩,
    ((List.range (maxSize + 1)).map formatDecimal).length.toUInt32,
    ((List.range (maxSize + 1)).map formatDecimal).length.toUInt32.toUInt64 *
      (⟨0, 0, 19, 784931⟩ : GCSParams).M.toUInt64, encoded⟩
  have hgt : ∀ filter, maxSize <
      (buildHashedSet csipHash filter ((List.range (maxSize + 1)).map formatDecimal)).length := by
    intro filter
    rw [length_buildHashedSet, hlen]
    omega
  have h64 : ∀ filter,
      (buildHashedSet csipHash filter ((List.range (maxSize + 1)).map formatDecimal)).length <
        2 ^ 64 := by
    intro filter
    rw [length_buildHashedSet]
    omega
  refine ⟨List.Pairwise.map formatDecimal (fun _ _ hab heq => hab (hinj heq)) List.nodup_range,
    hN32, filter, hrun, ofEncoded_of_encodesValues_of_gt henc (hgt _) (h64 _), fun e _ => ?_⟩
  rw [matchElement]
  exact matchInternal_of_encodesValues_of_gt filter henc (hgt _) (h64 _) _

end GCSFilter

end BitcoinCash
