import Mathlib.Data.Nat.Bitwise
import Mathlib.Tactic.NormNum
import Mathlib.Tactic.IntervalCases

/-!
# The rolling bloom filter

`CRollingBloomFilter` (`bloom.cpp`) remembers the keys inserted most recently, in three
generations of `nEntriesPerGeneration` keys. Each position of the filter holds a 2-bit code: `0`
for unset, or the generation, `1`, `2` or `3`, that last set it. The two bits of position `P` are
bit `P & 63` of the words `data[(P >> 6) * 2]` and `data[(P >> 6) * 2 + 1]`. An insertion writes
the code of the current generation at each of its `nHashFuncs` positions. When a generation is
full the next one starts, and every position holding its code is wiped first, so a position
forgets a key only once two more generations have passed.

The constructor sizes the filter in floating point from `fpRate`; the model takes the results of
that computation, `round(logFpRate / log(0.5))` and the `uint32_t` `nFilterBits`, as given.
`RollingBloomHash` is left open as a function of the hash number, the tweak and the key. An access
to `data` past its end is undefined behaviour, and the operations return `none` there.
-/

namespace BitcoinCash

/-- `RollingBloomHash(nHashNum, nTweak, pDataToHash, nDataLen)`, on the `MurmurHash3` it calls. -/
def rollingBloomHash (murmurHash3 : UInt32 → List UInt8 → UInt32) (nHashNum nTweak : UInt32)
    (vDataToHash : List UInt8) : UInt32 :=
  murmurHash3 (nHashNum * 0xFBA4C795 + nTweak) vDataToHash

/-- `FastMod(x, n)`: `(uint64_t(x) * uint64_t(n)) >> 32`, a replacement for `x % n`. -/
def fastMod (x : UInt32) (n : ℕ) : UInt32 := ((x.toUInt64 * n.toUInt64) >>> 32).toUInt32

/-- The fields of `CRollingBloomFilter`; the `int` counters are natural numbers here. -/
structure CRollingBloomFilter where
  nEntriesPerGeneration : ℕ
  nEntriesThisGeneration : ℕ
  nGeneration : ℕ
  data : List UInt64
  nTweak : UInt32
  nHashFuncs : ℕ

namespace CRollingBloomFilter

/-- `reset()`, with `nTweak` the value `GetRand` draws: generation `1`, no entries, every word
zero. -/
def reset (f : CRollingBloomFilter) (nTweak : UInt32) : CRollingBloomFilter :=
  { f with
    nTweak := nTweak
    nEntriesThisGeneration := 0
    nGeneration := 1
    data := List.replicate f.data.length 0 }

/-- The constructor `CRollingBloomFilter(nElements, fpRate)`, then `reset()`. `roundedHashFuncs` is
`round(logFpRate / log(0.5))` and `nFilterBits` the `uint32_t` of the `ceil`, both computed from
`fpRate` in floating point; `nTweak` is what `reset()` draws. -/
def new (nElements : UInt32) (roundedHashFuncs : ℤ) (nFilterBits nTweak : UInt32) :
    CRollingBloomFilter :=
  reset
    { nHashFuncs := (max 1 (min roundedHashFuncs 50)).toNat
      nEntriesPerGeneration := ((nElements + 1) / 2).toNat
      -- set by `reset()`
      nEntriesThisGeneration := 0
      nGeneration := 1
      nTweak := 0
      data := List.replicate (((nFilterBits + 63) / 64) <<< 1).toNat 0 }
    nTweak

section Operations

-- `RollingBloomHash`, as a function of the hash number, the tweak and the key
variable (hash : UInt32 → UInt32 → List UInt8 → UInt32)

/-- One pass of the wipe loop of `insert` at `p`: the bits of the pair `p`, `p + 1` whose code is
the new generation's, the one the masks spread over a word, are cleared. -/
def wipeStep (nGenerationMask1 nGenerationMask2 : UInt64) (data : List UInt64) (p : ℕ) :
    Option (List UInt64) := do
  let p1 ← data[p]?
  let p2 ← data[p + 1]?
  let mask := (p1 ^^^ nGenerationMask1) ||| (p2 ^^^ nGenerationMask2)
  pure ((data.set p (p1 &&& mask)).set (p + 1) (p2 &&& mask))

/-- One pass `n` of the hash loop of `insert`: the code `nGeneration` written at bit `h & 0x3F` of
the words `pos & ~1` and `pos | 1`. -/
def insertHash (vKey : List UInt8) (nTweak : UInt32) (nGeneration : ℕ) (data : List UInt64)
    (n : ℕ) : Option (List UInt64) := do
  let h := hash n.toUInt32 nTweak vKey
  let bit := (h &&& 0x3F).toUInt64
  let pos := fastMod h data.length
  let d0 ← data[(pos &&& ~~~(1 : UInt32)).toNat]?
  let data := data.set (pos &&& ~~~(1 : UInt32)).toNat
    ((d0 &&& ~~~((1 : UInt64) <<< bit)) ||| ((nGeneration &&& 1).toUInt64 <<< bit))
  let d1 ← data[(pos ||| 1).toNat]?
  pure (data.set (pos ||| 1).toNat
    ((d1 &&& ~~~((1 : UInt64) <<< bit)) ||| ((nGeneration >>> 1).toUInt64 <<< bit)))

/-- `insert(vKey)`: a full generation starts the next one, `1` after `3`, wiping the positions
that hold its code; then the key's positions get the current code. -/
def insert (f : CRollingBloomFilter) (vKey : List UInt8) : Option CRollingBloomFilter := do
  let f ← if f.nEntriesThisGeneration = f.nEntriesPerGeneration then do
      let nGeneration := if f.nGeneration + 1 = 4 then 1 else f.nGeneration + 1
      let nGenerationMask1 := (0 : UInt64) - (nGeneration &&& 1).toUInt64
      let nGenerationMask2 := (0 : UInt64) - (nGeneration >>> 1).toUInt64
      -- `for (uint32_t p = 0; p < data.size(); p += 2)`
      let data ← (List.range ((f.data.length + 1) / 2)).foldlM
        (fun data i => wipeStep nGenerationMask1 nGenerationMask2 data (2 * i)) f.data
      pure { f with nEntriesThisGeneration := 0, nGeneration, data }
    else pure f
  let f := { f with nEntriesThisGeneration := f.nEntriesThisGeneration + 1 }
  let data ← (List.range f.nHashFuncs).foldlM (insertHash hash vKey f.nTweak f.nGeneration) f.data
  pure { f with data }

/-- One pass `n` of the loop of `contains`: whether bit `h & 0x3F` is set in either word of the
pair of `pos`. -/
def containsHash (f : CRollingBloomFilter) (vKey : List UInt8) (n : ℕ) : Option Bool := do
  let h := hash n.toUInt32 f.nTweak vKey
  let bit := (h &&& 0x3F).toUInt64
  let pos := fastMod h f.data.length
  let d0 ← f.data[(pos &&& ~~~(1 : UInt32)).toNat]?
  let d1 ← f.data[(pos ||| 1).toNat]?
  pure (((d0 ||| d1) >>> bit) &&& 1 != 0)

/-- `contains(vKey)`: `false` at the first position that is unset. -/
def contains (f : CRollingBloomFilter) (vKey : List UInt8) : Option Bool :=
  (List.range f.nHashFuncs).allM (containsHash hash f vKey)

/-- `insert` of each key in turn. -/
def insertAll (f : CRollingBloomFilter) (keys : List (List UInt8)) :
    Option CRollingBloomFilter :=
  keys.foldlM (insert hash) f

end Operations

/-! ### The words of a position -/

theorem toNat_shiftRight_one_shiftLeft_one (pos : UInt32) :
    ((pos >>> 1) <<< 1).toNat = pos.toNat / 2 * 2 := by
  have hlt := pos.toNat_lt
  rw [UInt32.toNat_shiftLeft, UInt32.toNat_shiftRight]
  simp only [Nat.shiftLeft_eq, Nat.shiftRight_eq_div_pow]
  simp
  omega

/-- `pos & ~1` is the even word of the pair of `pos`. -/
theorem toNat_and_not_one (pos : UInt32) : (pos &&& ~~~(1 : UInt32)).toNat = pos.toNat / 2 * 2 := by
  have h : pos &&& ~~~(1 : UInt32) = (pos >>> 1) <<< 1 := by
    apply UInt32.eq_of_toBitVec_eq
    apply BitVec.eq_of_getLsbD_eq
    intro i hi
    simp only [UInt32.toBitVec_and, UInt32.toBitVec_not, BitVec.getLsbD_and, BitVec.getLsbD_not,
      UInt32.toBitVec_one, BitVec.getLsbD_one]
    by_cases h0 : i = 0
    · simp [h0]
    · simp [hi, h0, show 1 + (i - 1) = i by omega]
  rw [h, toNat_shiftRight_one_shiftLeft_one]

/-- `pos | 1` is its odd word. -/
theorem toNat_or_one (pos : UInt32) : (pos ||| (1 : UInt32)).toNat = pos.toNat / 2 * 2 + 1 := by
  have h : pos ||| (1 : UInt32) = ((pos >>> 1) <<< 1) ||| 1 := by
    apply UInt32.eq_of_toBitVec_eq
    apply BitVec.eq_of_getLsbD_eq
    intro i hi
    simp only [UInt32.toBitVec_or, BitVec.getLsbD_or, UInt32.toBitVec_one, BitVec.getLsbD_one]
    by_cases h0 : i = 0
    · simp [h0]
    · simp [hi, h0, show 1 + (i - 1) = i by omega]
  rw [h, UInt32.toNat_or, toNat_shiftRight_one_shiftLeft_one, show (1 : UInt32).toNat = 1 from rfl,
    show pos.toNat / 2 * 2 = (pos.toNat / 2) <<< 1 by rw [Nat.shiftLeft_eq, pow_one],
    ← Nat.shiftLeft_add_eq_or_of_lt (by norm_num : 1 < 2 ^ 1)]

/-- `FastMod(x, n)` is `x * n / 2 ^ 32`: the product of two 32-bit numbers does not wrap. -/
theorem toNat_fastMod (x : UInt32) {n : ℕ} (hn : n < 2 ^ 32) :
    (fastMod x n).toNat = x.toNat * n / 2 ^ 32 := by
  have hx := x.toNat_lt
  have hprod : x.toNat * n < 2 ^ 64 :=
    calc x.toNat * n < 2 ^ 32 * 2 ^ 32 := Nat.mul_lt_mul'' hx hn
      _ = 2 ^ 64 := by norm_num
  rw [fastMod, UInt64.toNat_toUInt32, UInt64.toNat_shiftRight, UInt64.toNat_mul,
    UInt32.toNat_toUInt64, UInt64.toNat_ofNat', Nat.mod_eq_of_lt (show n < 2 ^ 64 by omega),
    Nat.mod_eq_of_lt hprod, show UInt64.toNat 32 % 64 = 32 from rfl, Nat.shiftRight_eq_div_pow]
  exact Nat.mod_eq_of_lt (Nat.div_lt_of_lt_mul (by omega))

theorem toNat_fastMod_lt (x : UInt32) {n : ℕ} (hn : n < 2 ^ 32) (hpos : 0 < n) :
    (fastMod x n).toNat < n := by
  rw [toNat_fastMod x hn, Nat.div_lt_iff_lt_mul (by positivity)]
  exact Nat.mul_lt_mul_of_pos_right x.toNat_lt hpos |>.trans_eq (Nat.mul_comm _ _)

/-! ### Bits of a word -/

/-- Bit `i` of a word. -/
def bitOf (x : UInt64) (i : ℕ) : Bool := x.toBitVec.getLsbD i

theorem bitOf_of_toNat_lt_two {x : UInt64} (hx : x.toNat < 2) {j : ℕ} (hj : 0 < j) :
    bitOf x j = false := by
  rw [bitOf, ← BitVec.testBit_toNat]
  exact Nat.testBit_eq_false_of_lt (lt_of_lt_of_le hx (Nat.le_self_pow (by omega) 2))

/-- `(d & ~(1 << b)) | (x << b)` sets bit `b` to the bit `x` and keeps the others. -/
theorem bitOf_write (d x : UInt64) {b : UInt64} (hb : b.toNat < 64) (hx : x.toNat < 2) {i : ℕ}
    (hi : i < 64) :
    bitOf ((d &&& ~~~((1 : UInt64) <<< b)) ||| (x <<< b)) i =
      if i = b.toNat then bitOf x 0 else bitOf d i := by
  by_cases hib : i = b.toNat
  · subst hib
    simp [bitOf, UInt64.toBitVec_shiftLeft, Nat.mod_eq_of_lt hb, hb]
  · by_cases hlt : i < b.toNat
    · simp [bitOf, UInt64.toBitVec_shiftLeft, Nat.mod_eq_of_lt hb, hi, hib, hlt]
    · have hx' := bitOf_of_toNat_lt_two hx (j := i - b.toNat) (by omega)
      have hlt64 : i - b.toNat < 64 := by omega
      simp only [bitOf] at hx'
      simp [hlt64] at hx'
      simp [bitOf, UInt64.toBitVec_shiftLeft, Nat.mod_eq_of_lt hb, hi, hib, hlt, hx',
        show i - b.toNat ≠ 0 by omega]

/-- A word of a pair `p`, `q` under the wipe mask: a bit survives where the pair differs from
the masks. -/
theorem bitOf_and_mask (x p q m1 m2 : UInt64) (i : ℕ) :
    bitOf (x &&& ((p ^^^ m1) ||| (q ^^^ m2))) i =
      (bitOf x i && (bitOf p i != bitOf m1 i || bitOf q i != bitOf m2 i)) := by
  simp [bitOf]

/-- `0 - uint64_t(c)` for a bit `c` is all zeros or all ones. -/
theorem bitOf_mask {c : ℕ} (hc : c < 2) {i : ℕ} (hi : i < 64) :
    bitOf ((0 : UInt64) - c.toUInt64) i = decide (c = 1) := by
  interval_cases c
  · simp [bitOf]
  · revert i
    decide

theorem bitOf_toUInt64_zero {c : ℕ} (hc : c < 2) : bitOf c.toUInt64 0 = decide (c = 1) := by
  interval_cases c <;> rfl

theorem toNat_toUInt64_lt_two {c : ℕ} (hc : c < 2) : c.toUInt64.toNat < 2 := by
  rw [UInt64.toNat_ofNat']
  omega

/-- The low bit of a generation, `nGeneration & 1`. -/
theorem and_one_lt_two (g : ℕ) : g &&& 1 < 2 :=
  Nat.lt_succ_of_le Nat.and_le_right

/-- The high bit of a generation below `4`, `nGeneration >> 1`. -/
theorem shiftRight_one_lt_two {g : ℕ} (hg : g < 4) : g >>> 1 < 2 := by
  rw [Nat.shiftRight_eq_div_pow]
  omega

/-- `(d >> b) & 1` tests bit `b`. -/
theorem shiftRight_and_one_ne_zero (d : UInt64) {b : UInt64} (hb : b.toNat < 64) :
    ((d >>> b) &&& 1 != 0) = bitOf d b.toNat := by
  have hlow : ((d >>> b) &&& 1).toNat = d.toNat >>> b.toNat % 2 := by
    rw [UInt64.toNat_and, UInt64.toNat_shiftRight, Nat.mod_eq_of_lt hb, UInt64.toNat_one,
      Nat.and_one_is_mod]
  rw [bitOf, ← BitVec.testBit_toNat, Nat.testBit, Nat.one_and_eq_mod_two, UInt64.toNat_toBitVec,
    ← hlow, Bool.eq_iff_iff, bne_iff_ne, bne_iff_ne, ne_eq, ne_eq, ← UInt64.toNat_inj,
    UInt64.toNat_zero]

/-! ### Codes -/

/-- The code of a low and a high bit: `0` for unset, else the generation `1`, `2` or `3`. -/
def pairCode (lo hi : Bool) : ℕ := lo.toNat + 2 * hi.toNat

/-- The code at slot `s = (j, b)`: bit `b` of the words `data[2 * j]` and `data[2 * j + 1]`.
Words past the end read as `0`. -/
def code (data : List UInt64) (s : ℕ × ℕ) : ℕ :=
  pairCode (bitOf (data.getD (2 * s.1) 0) s.2) (bitOf (data.getD (2 * s.1 + 1) 0) s.2)

/-- The two bits `insert` writes for generation `g` are its code. -/
theorem pairCode_bits {g : ℕ} (hg : g < 4) :
    pairCode (decide (g &&& 1 = 1)) (decide (g >>> 1 = 1)) = g := by
  interval_cases g <;> rfl

/-- The wipe clears a position exactly when it holds the code `g`. -/
theorem pairCode_wipe {g : ℕ} (hg : g < 4) (lo hi : Bool) :
    pairCode (lo && (lo != decide (g &&& 1 = 1) || hi != decide (g >>> 1 = 1)))
        (hi && (lo != decide (g &&& 1 = 1) || hi != decide (g >>> 1 = 1))) =
      if pairCode lo hi = g then 0 else pairCode lo hi := by
  interval_cases g <;> cases lo <;> cases hi <;> rfl

theorem pairCode_ne_zero_iff (lo hi : Bool) : pairCode lo hi ≠ 0 ↔ (lo || hi) = true := by
  cases lo <;> cases hi <;> decide

/-- Setting the two words of pair `j` changes the codes of that pair only. -/
theorem code_set_pair {data : List UInt64} {j : ℕ} (hj : 2 * j + 1 < data.length)
    (lo hi : UInt64) (s : ℕ × ℕ) :
    code ((data.set (2 * j) lo).set (2 * j + 1) hi) s =
      if s.1 = j then pairCode (bitOf lo s.2) (bitOf hi s.2) else code data s := by
  rw [code, code]
  split_ifs with hs
  · rw [hs, List.getD_eq_getElem?_getD, List.getD_eq_getElem?_getD,
      List.getElem?_set_ne (by omega), List.getElem?_set_self (by omega),
      List.getElem?_set_self (by rw [List.length_set]; omega)]
    rfl
  · rw [List.getD_eq_getElem?_getD, List.getD_eq_getElem?_getD, List.getElem?_set_ne (by omega),
      List.getElem?_set_ne (by omega), List.getElem?_set_ne (by omega),
      List.getElem?_set_ne (by omega), ← List.getD_eq_getElem?_getD,
      ← List.getD_eq_getElem?_getD]

theorem code_eq_getElem {data : List UInt64} {s : ℕ × ℕ} (hs : 2 * s.1 + 1 < data.length) :
    code data s = pairCode (bitOf data[2 * s.1] s.2) (bitOf data[2 * s.1 + 1] s.2) := by
  rw [code, List.getD_eq_getElem _ _ (by omega), List.getD_eq_getElem _ _ hs]

theorem code_of_length_le {data : List UInt64} {s : ℕ × ℕ} (hs : data.length ≤ 2 * s.1) :
    code data s = 0 := by
  rw [code, List.getD_eq_default _ _ hs, List.getD_eq_default _ _ (by omega)]
  simp [bitOf, pairCode]

/-! ### Slots -/

/-- A word count the loops stay within: even, nonzero, and a `uint32_t`. -/
structure GoodSize (nWords : ℕ) : Prop where
  even : nWords % 2 = 0
  pos : 0 < nWords
  lt : nWords < 2 ^ 32

/-- The words `pos & ~1` and `pos | 1` of a `pos = FastMod(h, data.size())` lie in `data`. -/
theorem pair_lt {nWords : ℕ} (hN : GoodSize nWords) (h : UInt32) :
    (fastMod h nWords &&& ~~~(1 : UInt32)).toNat = 2 * ((fastMod h nWords).toNat / 2) ∧
      (fastMod h nWords ||| 1).toNat = 2 * ((fastMod h nWords).toNat / 2) + 1 ∧
      2 * ((fastMod h nWords).toNat / 2) + 1 < nWords := by
  have hpos := toNat_fastMod_lt h hN.lt hN.pos
  have heven := hN.even
  refine ⟨?_, ?_, by omega⟩
  · rw [toNat_and_not_one, Nat.mul_comm]
  · rw [toNat_or_one, Nat.mul_comm]

theorem toNat_bit (h : UInt32) :
    (h &&& 0x3F).toUInt64.toNat = (h &&& 0x3F).toNat ∧ (h &&& 0x3F).toNat < 64 := by
  refine ⟨UInt32.toNat_toUInt64 _, ?_⟩
  rw [UInt32.toNat_and]
  exact Nat.lt_of_le_of_lt Nat.and_le_right (by decide)

section Slots

variable (hash : UInt32 → UInt32 → List UInt8 → UInt32)

/-- The slot that hash `n` of `vKey` picks among `nWords` words: pair `FastMod(h, nWords) / 2`
and bit `h & 0x3F`. -/
def slot (nTweak : UInt32) (nWords : ℕ) (vKey : List UInt8) (n : ℕ) : ℕ × ℕ :=
  ((fastMod (hash n.toUInt32 nTweak vKey) nWords).toNat / 2,
    (hash n.toUInt32 nTweak vKey &&& 0x3F).toNat)

theorem slot_snd_lt (nTweak : UInt32) (nWords : ℕ) (vKey : List UInt8) (n : ℕ) :
    (slot hash nTweak nWords vKey n).2 < 64 :=
  (toNat_bit _).2

/-- One pass of the hash loop writes the code `nGeneration` at the slot of hash `n` and nothing
else. -/
theorem insertHash_spec (vKey : List UInt8) (nTweak : UInt32) {nGeneration : ℕ}
    (hg : nGeneration < 4) {data : List UInt64} (hN : GoodSize data.length) (n : ℕ) :
    ∃ data', insertHash hash vKey nTweak nGeneration data n = some data' ∧
      data'.length = data.length ∧
      ∀ s, s.2 < 64 → code data' s =
        if s = slot hash nTweak data.length vKey n then nGeneration else code data s := by
  obtain ⟨hlo, hhi, hlt⟩ := pair_lt hN (hash n.toUInt32 nTweak vKey)
  obtain ⟨hbit, hb⟩ := toNat_bit (hash n.toUInt32 nTweak vKey)
  set j := (fastMod (hash n.toUInt32 nTweak vKey) data.length).toNat / 2 with hj
  simp only [insertHash, hlo, hhi, List.getElem?_eq_getElem (show 2 * j < data.length by omega),
    List.getElem?_set_ne (show 2 * j ≠ 2 * j + 1 by omega),
    List.getElem?_eq_getElem (show 2 * j + 1 < data.length by omega), Option.bind_eq_bind,
    Option.bind_some, Option.pure_def, Option.some.injEq, exists_eq_left', List.length_set,
    true_and]
  intro s hs
  have hlow := toNat_toUInt64_lt_two (and_one_lt_two nGeneration)
  have hhigh := toNat_toUInt64_lt_two (shiftRight_one_lt_two hg)
  rw [code_set_pair (by omega), bitOf_write _ _ (hbit ▸ hb) hlow hs,
    bitOf_write _ _ (hbit ▸ hb) hhigh hs, hbit, bitOf_toUInt64_zero (and_one_lt_two nGeneration),
    bitOf_toUInt64_zero (shiftRight_one_lt_two hg)]
  by_cases h1 : s.1 = j
  · by_cases h2 : s.2 = (hash n.toUInt32 nTweak vKey &&& 63).toNat
    · rw [if_pos h1, if_pos h2, if_pos h2, pairCode_bits hg, if_pos (Prod.ext h1 h2)]
    · rw [if_pos h1, if_neg h2, if_neg h2, if_neg (fun h => h2 (congrArg Prod.snd h)),
        code_eq_getElem (by omega)]
      simp only [h1]
  · rw [if_neg h1, if_neg (fun h => h1 (congrArg Prod.fst h))]

/-- The hash loop of `insert` writes the code at every slot of the key, and nothing else. -/
theorem foldlM_insertHash_spec (vKey : List UInt8) (nTweak : UInt32) {nGeneration : ℕ}
    (hg : nGeneration < 4) {data : List UInt64} (hN : GoodSize data.length) (nHashFuncs : ℕ) :
    ∃ data', (List.range nHashFuncs).foldlM (insertHash hash vKey nTweak nGeneration) data =
        some data' ∧ data'.length = data.length ∧
      (∀ n < nHashFuncs, code data' (slot hash nTweak data.length vKey n) = nGeneration) ∧
      ∀ s, s.2 < 64 → (∀ n < nHashFuncs, slot hash nTweak data.length vKey n ≠ s) →
        code data' s = code data s := by
  induction nHashFuncs with
  | zero => exact ⟨data, rfl, rfl, fun n hn => absurd hn (Nat.not_lt_zero n), fun _ _ _ => rfl⟩
  | succ m ih =>
    -- the loop so far, then pass `m`
    obtain ⟨data1, h1, hlen1, hset1, hkeep1⟩ := ih
    obtain ⟨data2, h2, hlen2, hcode2⟩ :=
      insertHash_spec hash vKey nTweak hg (show GoodSize data1.length by rw [hlen1]; exact hN) m
    rw [hlen1] at hcode2
    refine ⟨data2, ?_, hlen2.trans hlen1, ?_, ?_⟩
    · rw [List.range_succ, List.foldlM_append, h1]
      simp only [List.foldlM_cons, List.foldlM_nil, bind_pure]
      exact h2
    · intro n hn
      rw [hcode2 _ (slot_snd_lt hash _ _ _ _)]
      split_ifs with heq
      · rfl
      · have hnm : n ≠ m := fun h => heq (h ▸ rfl)
        exact hset1 n (by omega)
    · intro s hs hne
      rw [hcode2 s hs, if_neg (fun h => hne m (by omega) h.symm),
        hkeep1 s hs (fun n hn => hne n (by omega))]

/-- One pass of the wipe loop clears the positions of pair `i` that hold the code `g`. -/
theorem wipeStep_spec {g : ℕ} (hg : g < 4) {data : List UInt64} {i : ℕ}
    (hi : 2 * i + 1 < data.length) :
    ∃ data', wipeStep ((0 : UInt64) - (g &&& 1).toUInt64) ((0 : UInt64) - (g >>> 1).toUInt64)
        data (2 * i) = some data' ∧ data'.length = data.length ∧
      ∀ s, s.2 < 64 → code data' s = if s.1 = i ∧ code data s = g then 0 else code data s := by
  simp only [wipeStep, List.getElem?_eq_getElem (show 2 * i < data.length by omega),
    List.getElem?_eq_getElem hi, Option.bind_eq_bind, Option.bind_some, Option.pure_def,
    Option.some.injEq, exists_eq_left', List.length_set, true_and]
  intro s hs
  rw [code_set_pair hi, bitOf_and_mask, bitOf_and_mask, bitOf_mask (and_one_lt_two g) hs,
    bitOf_mask (shiftRight_one_lt_two hg) hs, pairCode_wipe hg]
  by_cases h1 : s.1 = i
  · have hc : code data s = pairCode (bitOf data[2 * i] s.2) (bitOf data[2 * i + 1] s.2) := by
      rw [code_eq_getElem (by omega)]
      simp only [h1]
    rw [if_pos h1, hc]
    simp only [h1, true_and]
  · rw [if_neg h1, if_neg (fun h => h1 h.1)]

/-- The first `m` passes of the wipe loop clear the positions of pairs below `m` that hold the
code `g`. -/
theorem foldlM_wipeStep_spec {g : ℕ} (hg : g < 4) {data : List UInt64} {m : ℕ}
    (hm : 2 * m ≤ data.length) :
    ∃ data', (List.range m).foldlM (fun data i => wipeStep ((0 : UInt64) - (g &&& 1).toUInt64)
        ((0 : UInt64) - (g >>> 1).toUInt64) data (2 * i)) data = some data' ∧
      data'.length = data.length ∧
      ∀ s, s.2 < 64 → code data' s = if s.1 < m ∧ code data s = g then 0 else code data s := by
  induction m with
  | zero => exact ⟨data, rfl, rfl, fun s _ => by rw [if_neg (fun h => Nat.not_lt_zero _ h.1)]⟩
  | succ m ih =>
    obtain ⟨data1, h1, hlen1, hcode1⟩ := ih (by omega)
    obtain ⟨data2, h2, hlen2, hcode2⟩ := wipeStep_spec hg (show 2 * m + 1 < data1.length by omega)
    refine ⟨data2, ?_, hlen2.trans hlen1, ?_⟩
    · rw [List.range_succ, List.foldlM_append, h1]
      simp only [List.foldlM_cons, List.foldlM_nil, bind_pure]
      exact h2
    · intro s hs
      rw [hcode2 s hs, hcode1 s hs]
      -- pair `m` is wiped now, the pairs below it were wiped before, the others are untouched
      split_ifs <;> omega

/-- The wipe loop clears every position that holds the code `g`. -/
theorem wipe_spec {g : ℕ} (hg : g < 4) {data : List UInt64} (heven : data.length % 2 = 0) :
    ∃ data', (List.range ((data.length + 1) / 2)).foldlM
        (fun data i => wipeStep ((0 : UInt64) - (g &&& 1).toUInt64)
          ((0 : UInt64) - (g >>> 1).toUInt64) data (2 * i)) data = some data' ∧
      data'.length = data.length ∧
      ∀ s, s.2 < 64 → code data' s = if code data s = g then 0 else code data s := by
  obtain ⟨data', h, hlen, hcode⟩ := foldlM_wipeStep_spec hg
    (show 2 * ((data.length + 1) / 2) ≤ data.length by omega)
  refine ⟨data', h, hlen, fun s hs => ?_⟩
  rw [hcode s hs]
  by_cases hlt : s.1 < (data.length + 1) / 2
  · simp only [hlt, true_and]
  · -- past the last pair every code is `0`, which the wipe leaves
    rw [code_of_length_le (by omega)]
    split_ifs <;> omega

theorem bitOf_or (x y : UInt64) (i : ℕ) : bitOf (x ||| y) i = (bitOf x i || bitOf y i) := by
  simp [bitOf]

/-- One pass of the loop of `contains` tests whether the slot of hash `n` holds a code. -/
theorem containsHash_eq (f : CRollingBloomFilter) (vKey : List UInt8) (hN : GoodSize f.data.length)
    (n : ℕ) :
    containsHash hash f vKey n =
      some (decide (code f.data (slot hash f.nTweak f.data.length vKey n) ≠ 0)) := by
  obtain ⟨hlo, hhi, hlt⟩ := pair_lt hN (hash n.toUInt32 f.nTweak vKey)
  obtain ⟨hbit, hb⟩ := toNat_bit (hash n.toUInt32 f.nTweak vKey)
  set j := (fastMod (hash n.toUInt32 f.nTweak vKey) f.data.length).toNat / 2 with hj
  simp only [containsHash, hlo, hhi, List.getElem?_eq_getElem (show 2 * j < f.data.length by omega),
    List.getElem?_eq_getElem hlt, Option.bind_eq_bind, Option.bind_some, Option.pure_def,
    Option.some.injEq]
  rw [shiftRight_and_one_ne_zero _ (hbit ▸ hb), hbit, bitOf_or, code_eq_getElem hlt]
  simp only [pairCode_ne_zero_iff, Bool.decide_eq_true]
  rfl

/-- `contains` reports whether every slot of the key holds a code. -/
theorem contains_eq (f : CRollingBloomFilter) (vKey : List UInt8) (hN : GoodSize f.data.length) :
    contains hash f vKey = some ((List.range f.nHashFuncs).all fun n =>
      decide (code f.data (slot hash f.nTweak f.data.length vKey n) ≠ 0)) := by
  rw [contains, show containsHash hash f vKey = fun n =>
      pure (decide (code f.data (slot hash f.nTweak f.data.length vKey n) ≠ 0)) from
    funext (containsHash_eq hash f vKey hN), List.allM_pure]
  rfl

theorem contains_of_code_ne_zero {f : CRollingBloomFilter} {vKey : List UInt8}
    (hN : GoodSize f.data.length)
    (h : ∀ n < f.nHashFuncs, code f.data (slot hash f.nTweak f.data.length vKey n) ≠ 0) :
    contains hash f vKey = some true := by
  rw [contains_eq hash f vKey hN, Option.some.injEq, List.all_eq_true]
  intro n hn
  exact decide_eq_true (h n (List.mem_range.mp hn))

end Slots

/-! ### Generations -/

/-- The generation `insert` starts after `g`: `g + 1`, and `1` after `3`. -/
def nextGeneration (g : ℕ) : ℕ := if g + 1 = 4 then 1 else g + 1

/-- The generation before `g`, `3` before `1`. -/
def prevGeneration (g : ℕ) : ℕ := if g = 1 then 3 else g - 1

theorem one_le_nextGeneration (g : ℕ) : 1 ≤ nextGeneration g := by
  unfold nextGeneration
  split_ifs <;> omega

theorem nextGeneration_ne_self (g : ℕ) : nextGeneration g ≠ g := by
  unfold nextGeneration
  split_ifs <;> omega

section ThreeGenerations

variable {g : ℕ} (h1 : 1 ≤ g) (h3 : g ≤ 3)
include h1 h3

theorem nextGeneration_le_three : nextGeneration g ≤ 3 := by
  unfold nextGeneration
  split_ifs <;> omega

/-- Three generations take turns, so the one that starts is neither of the two before it. -/
theorem nextGeneration_ne_prevGeneration : nextGeneration g ≠ prevGeneration g := by
  unfold nextGeneration prevGeneration
  split_ifs <;> omega

theorem prevGeneration_nextGeneration : prevGeneration (nextGeneration g) = g := by
  unfold nextGeneration prevGeneration
  split_ifs <;> omega

theorem prevGeneration_ne_zero : prevGeneration g ≠ 0 := by
  unfold prevGeneration
  split_ifs <;> omega

end ThreeGenerations

section Insert

variable (hash : UInt32 → UInt32 → List UInt8 → UInt32)

/-- `insert` within a generation: one more entry, the key's slots get the current code, and no
other position changes. -/
theorem insert_spec_of_ne {f : CRollingBloomFilter} (hN : GoodSize f.data.length)
    (hg : f.nGeneration < 4) (hne : f.nEntriesThisGeneration ≠ f.nEntriesPerGeneration)
    (vKey : List UInt8) :
    ∃ data', insert hash f vKey =
        some { f with nEntriesThisGeneration := f.nEntriesThisGeneration + 1, data := data' } ∧
      data'.length = f.data.length ∧
      (∀ n < f.nHashFuncs, code data' (slot hash f.nTweak f.data.length vKey n) = f.nGeneration) ∧
      ∀ s, s.2 < 64 → (∀ n < f.nHashFuncs, slot hash f.nTweak f.data.length vKey n ≠ s) →
        code data' s = code f.data s := by
  obtain ⟨data', h, hlen, hset, hkeep⟩ :=
    foldlM_insertHash_spec hash vKey f.nTweak hg hN f.nHashFuncs
  refine ⟨data', ?_, hlen, hset, hkeep⟩
  simp only [insert, if_neg hne, pure_bind, h]
  rfl

/-- `insert` into a full generation: the next generation starts with this key as its first
entry, the positions holding its code are wiped, and then the key's slots get that code. -/
theorem insert_spec_of_eq {f : CRollingBloomFilter} (hN : GoodSize f.data.length)
    (hg : f.nGeneration ≤ 3) (heq : f.nEntriesThisGeneration = f.nEntriesPerGeneration)
    (vKey : List UInt8) :
    ∃ data', insert hash f vKey =
        some { f with
          nEntriesThisGeneration := 1
          nGeneration := nextGeneration f.nGeneration
          data := data' } ∧
      data'.length = f.data.length ∧
      (∀ n < f.nHashFuncs, code data' (slot hash f.nTweak f.data.length vKey n) =
        nextGeneration f.nGeneration) ∧
      ∀ s, s.2 < 64 → (∀ n < f.nHashFuncs, slot hash f.nTweak f.data.length vKey n ≠ s) →
        code data' s =
          if code f.data s = nextGeneration f.nGeneration then 0 else code f.data s := by
  have hg' : nextGeneration f.nGeneration < 4 := by
    unfold nextGeneration
    split_ifs <;> omega
  obtain ⟨wiped, hw, hwlen, hwcode⟩ := wipe_spec hg' hN.even
  obtain ⟨data', h, hlen, hset, hkeep⟩ := foldlM_insertHash_spec hash vKey f.nTweak hg'
    (show GoodSize wiped.length by rw [hwlen]; exact hN) f.nHashFuncs
  rw [hwlen] at hlen hset hkeep
  refine ⟨data', ?_, hlen, hset, fun s hs hne => (hkeep s hs hne).trans (hwcode s hs)⟩
  unfold nextGeneration at hw h ⊢
  simp only [insert, if_pos heq, hw, pure_bind, Option.bind_eq_bind, Option.bind_some, h]
  rfl

end Insert

/-! ### The window of remembered keys -/

section Window

variable (hash : UInt32 → UInt32 → List UInt8 → UInt32)

/-- The code at the slot of hash `n` of `vKey`. -/
def keyCode (f : CRollingBloomFilter) (vKey : List UInt8) (n : ℕ) : ℕ :=
  code f.data (slot hash f.nTweak f.data.length vKey n)

/-- The keys `rest ++ g2 ++ g1 ++ g0` inserted so far, split by the generation that inserted
them: `g0` the current one, `g1` and `g2` the two before it, `rest` the older ones. A key of `g0`
reads the current code at all its slots, one of `g1` the current or the previous code, one of
`g2` some code. -/
structure Generations (f : CRollingBloomFilter) (rest g2 g1 g0 : List (List UInt8)) : Prop where
  size : GoodSize f.data.length
  one_le_nGeneration : 1 ≤ f.nGeneration
  nGeneration_le_three : f.nGeneration ≤ 3
  length_g0 : g0.length = f.nEntriesThisGeneration
  -- a generation followed by a newer one is full
  length_g2 : rest ≠ [] → g2.length = f.nEntriesPerGeneration
  length_g1 : rest ++ g2 ≠ [] → g1.length = f.nEntriesPerGeneration
  -- with no entries per generation, no generation ever fills after the first insert
  older_nil : f.nEntriesPerGeneration = 0 → rest ++ g2 ++ g1 = []
  code_g0 : ∀ k ∈ g0, ∀ n < f.nHashFuncs, keyCode hash f k n = f.nGeneration
  code_g1 : ∀ k ∈ g1, ∀ n < f.nHashFuncs,
    keyCode hash f k n = f.nGeneration ∨ keyCode hash f k n = prevGeneration f.nGeneration
  code_g2 : ∀ k ∈ g2, ∀ n < f.nHashFuncs, keyCode hash f k n ≠ 0

/-- A write of the code `g` at the slots `slots n`, `n < nHashFuncs`, leaves each position with
`g` or with what `c` says it held. -/
theorem code_eq_or_of_frame {data' : List UInt64} {slots : ℕ → ℕ × ℕ} {nHashFuncs g : ℕ}
    {c : ℕ × ℕ → ℕ} (hset : ∀ n < nHashFuncs, code data' (slots n) = g)
    (hkeep : ∀ s, s.2 < 64 → (∀ n < nHashFuncs, slots n ≠ s) → code data' s = c s)
    {s : ℕ × ℕ} (hs : s.2 < 64) : code data' s = g ∨ code data' s = c s := by
  by_cases h : ∃ n < nHashFuncs, slots n = s
  · obtain ⟨n, hn, rfl⟩ := h
    exact Or.inl (hset n hn)
  · exact Or.inr (hkeep s hs fun n hn he => h ⟨n, hn, he⟩)

/-- Within a generation the key joins `g0`. -/
theorem Generations.insert_of_ne {f : CRollingBloomFilter} {rest g2 g1 g0 : List (List UInt8)}
    (hG : Generations hash f rest g2 g1 g0)
    (hne : f.nEntriesThisGeneration ≠ f.nEntriesPerGeneration) (vKey : List UInt8) :
    ∃ f', insert hash f vKey = some f' ∧ f'.nEntriesPerGeneration = f.nEntriesPerGeneration ∧
      Generations hash f' rest g2 g1 (g0 ++ [vKey]) := by
  have hg3 := hG.nGeneration_le_three
  obtain ⟨data', hins, hlen, hset, hkeep⟩ := insert_spec_of_ne hash hG.size (by omega) hne vKey
  refine ⟨_, hins, rfl, ?_⟩
  -- every slot now holds the current code or what it held
  have hcode : ∀ k n, keyCode hash { f with
      nEntriesThisGeneration := f.nEntriesThisGeneration + 1
      data := data' } k n = f.nGeneration ∨
      keyCode hash { f with
        nEntriesThisGeneration := f.nEntriesThisGeneration + 1
        data := data' } k n = keyCode hash f k n := by
    intro k n
    simp only [keyCode, hlen]
    exact code_eq_or_of_frame hset hkeep (slot_snd_lt hash _ _ _ _)
  have hgen : f.nGeneration ≠ 0 := by have := hG.one_le_nGeneration; omega
  refine ⟨by simpa only [hlen] using hG.size, hG.one_le_nGeneration, hg3, ?_, hG.length_g2,
    hG.length_g1, hG.older_nil, ?_, ?_, ?_⟩
  · rw [List.length_append, hG.length_g0, List.length_singleton]
  · intro k hk n hn
    rcases List.mem_append.mp hk with hk | hk
    · rcases hcode k n with h | h
      · exact h
      · exact h.trans (hG.code_g0 k hk n hn)
    · rw [List.mem_singleton.mp hk, keyCode]
      simp only [hlen]
      exact hset n hn
  · intro k hk n hn
    rcases hcode k n with h | h
    · exact Or.inl h
    · rw [h]
      exact hG.code_g1 k hk n hn
  · intro k hk n hn
    rcases hcode k n with h | h
    · rw [h]
      exact hgen
    · rw [h]
      exact hG.code_g2 k hk n hn

/-- Into a full generation the key starts the next one: `g0` and `g1` move up a generation,
`g2` becomes old, and the wipe spares the two generations kept, whose codes differ from the new
one. -/
theorem Generations.insert_of_eq {f : CRollingBloomFilter} {rest g2 g1 g0 : List (List UInt8)}
    (hG : Generations hash f rest g2 g1 g0)
    (heq : f.nEntriesThisGeneration = f.nEntriesPerGeneration) (vKey : List UInt8) :
    ∃ f', insert hash f vKey = some f' ∧ f'.nEntriesPerGeneration = f.nEntriesPerGeneration ∧
      Generations hash f' (rest ++ g2) g1 g0 [vKey] := by
  have hg1 := hG.one_le_nGeneration
  have hg3 := hG.nGeneration_le_three
  obtain ⟨data', hins, hlen, hset, hkeep⟩ := insert_spec_of_eq hash hG.size hg3 heq vKey
  refine ⟨_, hins, rfl, ?_⟩
  set g' := nextGeneration f.nGeneration with hg'
  -- every slot now holds the new code, or what it held unless that was the new code
  have hcode : ∀ k n, keyCode hash { f with
      nEntriesThisGeneration := 1
      nGeneration := g'
      data := data' } k n = g' ∨
      keyCode hash { f with
        nEntriesThisGeneration := 1
        nGeneration := g'
        data := data' } k n =
        if keyCode hash f k n = g' then 0 else keyCode hash f k n := by
    intro k n
    simp only [keyCode, hlen]
    exact code_eq_or_of_frame hset hkeep (slot_snd_lt hash _ _ _ _)
  have hne0 : g' ≠ 0 := by have := one_le_nextGeneration f.nGeneration; omega
  refine ⟨by simpa only [hlen] using hG.size, one_le_nextGeneration _,
    nextGeneration_le_three hg1 hg3, rfl, hG.length_g1, fun _ => hG.length_g0.trans heq, ?_, ?_,
    ?_, ?_⟩
  · intro h0
    have hg0 : g0 = [] := List.length_eq_zero_iff.mp (hG.length_g0.trans (heq.trans h0))
    rw [hG.older_nil h0, hg0, List.append_nil]
  · intro k hk n hn
    rw [List.mem_singleton.mp hk, keyCode]
    simp only [hlen]
    exact hset n hn
  · -- the keys of `g0` held the old current code, which is the new previous one
    intro k hk n hn
    have hold := hG.code_g0 k hk n hn
    rcases hcode k n with h | h
    · exact Or.inl h
    · rw [h, hold, if_neg (nextGeneration_ne_self _).symm]
      exact Or.inr (prevGeneration_nextGeneration hg1 hg3).symm
  · -- the keys of `g1` held one of the two codes before the new one
    intro k hk n hn
    rcases hcode k n with h | h
    · rw [h]
      exact hne0
    · have hold : keyCode hash f k n ≠ g' := by
        rcases hG.code_g1 k hk n hn with h' | h'
        · rw [h']
          exact (nextGeneration_ne_self _).symm
        · rw [h']
          exact (nextGeneration_ne_prevGeneration hg1 hg3).symm
      rw [h, if_neg hold]
      rcases hG.code_g1 k hk n hn with h' | h'
      · rw [h']
        omega
      · rw [h']
        exact prevGeneration_ne_zero hg1 hg3

/-- The last `2 * nEntriesPerGeneration + nEntriesThisGeneration` keys inserted are those of
`g2`, `g1` and `g0`: either nothing is older, or `g2` and `g1` are full. -/
theorem Generations.mem_of_mem_drop {f : CRollingBloomFilter} {rest g2 g1 g0 : List (List UInt8)}
    (hG : Generations hash f rest g2 g1 g0) {k : List UInt8}
    (hk : k ∈ (rest ++ g2 ++ g1 ++ g0).drop ((rest ++ g2 ++ g1 ++ g0).length -
      (2 * f.nEntriesPerGeneration + f.nEntriesThisGeneration))) :
    k ∈ g2 ∨ k ∈ g1 ∨ k ∈ g0 := by
  by_cases hr : rest = []
  · subst hr
    simpa only [List.nil_append, List.mem_append, or_assoc] using List.mem_of_mem_drop hk
  · have h2 := hG.length_g2 hr
    have h1 := hG.length_g1 (by simp [hr])
    have hlen : (rest ++ g2 ++ g1 ++ g0).length -
        (2 * f.nEntriesPerGeneration + f.nEntriesThisGeneration) = rest.length := by
      simp only [List.length_append, h2, h1, hG.length_g0]
      omega
    rw [hlen, List.append_assoc, List.append_assoc, List.drop_left] at hk
    simpa only [List.mem_append] using hk

/-- With no entries per generation, every key inserted is in `g0`. -/
theorem Generations.length_g0_of_zero {f : CRollingBloomFilter}
    {rest g2 g1 g0 : List (List UInt8)} (hG : Generations hash f rest g2 g1 g0)
    (h0 : f.nEntriesPerGeneration = 0) :
    f.nEntriesThisGeneration = (rest ++ g2 ++ g1 ++ g0).length := by
  rw [hG.older_nil h0, List.nil_append, hG.length_g0]

/-- The filter after inserting `keys`: they split into generations as `Generations` says. -/
def Window (f : CRollingBloomFilter) (keys : List (List UInt8)) : Prop :=
  ∃ rest g2 g1 g0, keys = rest ++ g2 ++ g1 ++ g0 ∧ Generations hash f rest g2 g1 g0

theorem window_insert {f : CRollingBloomFilter} {keys : List (List UInt8)}
    (hW : Window hash f keys) (vKey : List UInt8) :
    ∃ f', insert hash f vKey = some f' ∧ f'.nEntriesPerGeneration = f.nEntriesPerGeneration ∧
      Window hash f' (keys ++ [vKey]) := by
  obtain ⟨rest, g2, g1, g0, rfl, hG⟩ := hW
  by_cases heq : f.nEntriesThisGeneration = f.nEntriesPerGeneration
  · obtain ⟨f', hins, hper, hG'⟩ := hG.insert_of_eq hash heq vKey
    exact ⟨f', hins, hper, rest ++ g2, g1, g0, [vKey], by simp only [List.append_assoc], hG'⟩
  · obtain ⟨f', hins, hper, hG'⟩ := hG.insert_of_ne hash heq vKey
    exact ⟨f', hins, hper, rest, g2, g1, g0 ++ [vKey], by simp only [List.append_assoc], hG'⟩

/-- Every run of inserts succeeds and keeps the window. -/
theorem window_insertAll {f : CRollingBloomFilter} {keys : List (List UInt8)}
    (hW : Window hash f keys) (ks : List (List UInt8)) :
    ∃ f', insertAll hash f ks = some f' ∧ f'.nEntriesPerGeneration = f.nEntriesPerGeneration ∧
      Window hash f' (keys ++ ks) := by
  induction ks generalizing f keys with
  | nil => exact ⟨f, rfl, rfl, by rw [List.append_nil]; exact hW⟩
  | cons k ks ih =>
    obtain ⟨f1, h1, hper1, hW1⟩ := window_insert hash hW k
    obtain ⟨f2, h2, hper2, hW2⟩ := ih hW1
    refine ⟨f2, ?_, hper2.trans hper1, ?_⟩
    · rw [insertAll, List.foldlM_cons, h1]
      exact h2
    · rwa [List.append_assoc, List.singleton_append] at hW2

/-- The filter reports every key of its window. -/
theorem window_contains {f : CRollingBloomFilter} {keys : List (List UInt8)}
    (hW : Window hash f keys) {k : List UInt8}
    (hk : k ∈ keys.drop (keys.length - (2 * f.nEntriesPerGeneration + f.nEntriesThisGeneration))) :
    contains hash f k = some true := by
  obtain ⟨rest, g2, g1, g0, rfl, hG⟩ := hW
  have hgen : f.nGeneration ≠ 0 := by have := hG.one_le_nGeneration; omega
  refine contains_of_code_ne_zero hash hG.size fun n hn => ?_
  show keyCode hash f k n ≠ 0
  rcases hG.mem_of_mem_drop hash hk with hk | hk | hk
  · exact hG.code_g2 k hk n hn
  · rcases hG.code_g1 k hk n hn with h | h
    · rw [h]
      exact hgen
    · rw [h]
      exact prevGeneration_ne_zero hG.one_le_nGeneration hG.nGeneration_le_three
  · rw [hG.code_g0 k hk n hn]
    exact hgen

theorem goodSize_new {nElements : UInt32} {roundedHashFuncs : ℤ} {nFilterBits nTweak : UInt32}
    (hdata : (new nElements roundedHashFuncs nFilterBits nTweak).data ≠ []) :
    GoodSize (new nElements roundedHashFuncs nFilterBits nTweak).data.length := by
  have hpos := List.length_pos_iff.mpr hdata
  simp only [new, reset, List.length_replicate] at hpos ⊢
  refine ⟨?_, hpos, UInt32.toNat_lt _⟩
  rw [UInt32.toNat_shiftLeft, Nat.shiftLeft_eq]
  simp only [show (1 : UInt32).toNat % 32 = 1 from rfl, pow_one]
  omega

theorem window_new {nElements : UInt32} {roundedHashFuncs : ℤ} {nFilterBits nTweak : UInt32}
    (hdata : (new nElements roundedHashFuncs nFilterBits nTweak).data ≠ []) :
    Window hash (new nElements roundedHashFuncs nFilterBits nTweak) [] :=
  ⟨[], [], [], [], rfl,
    { size := goodSize_new hdata
      one_le_nGeneration := le_refl 1
      nGeneration_le_three := show 1 ≤ 3 by decide
      length_g0 := rfl
      length_g2 := fun h => absurd rfl h
      length_g1 := fun h => absurd rfl h
      older_nil := fun _ => rfl
      code_g0 := fun _ hk => absurd hk List.not_mem_nil
      code_g1 := fun _ hk => absurd hk List.not_mem_nil
      code_g2 := fun _ hk => absurd hk List.not_mem_nil }⟩

/-- The window holds the last `nElements` keys: `nEntriesPerGeneration = (nElements + 1) / 2` in
`uint32_t`, so two generations cover `nElements`, unless `nElements + 1` wraps to `0`. -/
theorem nElements_le_window (nElements : UInt32) :
    nElements.toNat ≤ 2 * ((nElements + 1) / 2).toNat ∨ ((nElements + 1) / 2).toNat = 0 := by
  have hlt := nElements.toNat_lt
  rw [UInt32.toNat_div, UInt32.toNat_add]
  simp only [show (1 : UInt32).toNat = 1 from rfl, show (2 : UInt32).toNat = 2 from rfl]
  omega

theorem insertAll_contains_recent (nElements : UInt32) (roundedHashFuncs : ℤ)
    (nFilterBits nTweak : UInt32)
    (hdata : (new nElements roundedHashFuncs nFilterBits nTweak).data ≠ [])
    (keys : List (List UInt8)) :
    ∃ f, insertAll hash (new nElements roundedHashFuncs nFilterBits nTweak) keys = some f ∧
      (∀ k ∈ keys.drop (keys.length - nElements.toNat), contains hash f k = some true) ∧
      (∀ k ∈ keys.drop (keys.length - (2 * f.nEntriesPerGeneration + f.nEntriesThisGeneration)),
        contains hash f k = some true) ∧
      (∀ h : UInt32, (fastMod h f.data.length &&& ~~~(1 : UInt32)).toNat < f.data.length ∧
        (fastMod h f.data.length ||| 1).toNat < f.data.length) ∧
      ∀ vKey, ∃ b, contains hash f vKey = some b := by
  obtain ⟨f, hrun, hper, hW⟩ := window_insertAll hash (window_new hash hdata) keys
  rw [List.nil_append] at hW
  obtain ⟨rest, g2, g1, g0, hkeys, hG⟩ := hW
  have hper' : f.nEntriesPerGeneration = ((nElements + 1) / 2).toNat := hper
  have hwin := fun k hk => window_contains hash ⟨rest, g2, g1, g0, hkeys, hG⟩ (k := k) hk
  refine ⟨f, hrun, fun k hk => hwin k ?_, hwin, fun h => ?_,
    fun vKey => ⟨_, contains_eq hash f vKey hG.size⟩⟩
  · rcases nElements_le_window nElements with hle | h0
    · exact List.drop_subset_drop_left _ (by omega) hk
    · -- no generation ever fills, and the window is every key
      have hall := hG.length_g0_of_zero hash (hper'.trans h0)
      rw [← hkeys] at hall
      rw [hper', h0, hall, show keys.length - (2 * 0 + keys.length) = 0 by omega, List.drop_zero]
      exact List.mem_of_mem_drop hk
  · obtain ⟨hlo, hhi, hlt⟩ := pair_lt hG.size h
    omega

theorem insertAll_contains_recent_three_keys :
    (new 4 3 64 0).data ≠ [] ∧
      ∃ f, insertAll (rollingBloomHash fun seed _ => seed) (new 4 3 64 0)
          [[1], [2], [3]] = some f ∧
        ∀ k ∈ ([[1], [2], [3]] : List (List UInt8)),
          contains (rollingBloomHash fun seed _ => seed) f k = some true := by
  have hdata : (new 4 3 64 0).data ≠ [] := by decide
  obtain ⟨f, hrun, hrecent, -⟩ := insertAll_contains_recent (rollingBloomHash fun seed _ => seed)
    4 3 64 0 hdata [[1], [2], [3]]
  exact ⟨hdata, f, hrun, fun k hk => hrecent k (by simpa using hk)⟩

end Window

end CRollingBloomFilter

end BitcoinCash
