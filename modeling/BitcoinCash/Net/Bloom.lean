import Mathlib.Data.Nat.Bitwise
import BitcoinCash.Script.Machine
import BitcoinCash.Serialize.Stream
import BitcoinCash.Control.InputLoop

/-!
# Bloom filters of peers

A peer of the network that wants only the transactions relevant to it installs a
`CBloomFilter` (`bloom.cpp`) with the `filterload` message: a bit array `vData`, a number of
hash functions, a tweak of the hash seeds and update flags, every one of them chosen by the
peer and checked only by `IsWithinSizeConstraints`. It adds keys with `filteradd`; the node
tests transactions against the filter with `MatchAndInsertOutputs` and `MatchInputs`, the
first of which inserts the outpoints of matched outputs itself.

Two operations of the filter are undefined on some filters: `Hash` reduces modulo
`vData.size() * 8`, which is zero for an empty `vData`, and the bit accesses
`vData[nIndex >> 3]` read past the end for an index not below that. The model throws a
`BloomFault` there. An installed filter keeps `Valid`: an empty bit array is marked full, and
every operation returns before it hashes on a full filter.

`MurmurHash3`, the id of a transaction and the script template `Solver` finds are left open,
as the fields of a `BloomEnv`.
-/

namespace BitcoinCash

/-! ### Constants and the functions a filter calls -/

/-- `MAX_BLOOM_FILTER_SIZE`, in bytes. -/
def maxBloomFilterSize : ℕ := 36000

/-- `MAX_HASH_FUNCS`. -/
def maxHashFuncs : UInt32 := 50

/-- `BLOOM_UPDATE_ALL`. -/
def bloomUpdateAll : UInt8 := 1

/-- `BLOOM_UPDATE_P2PUBKEY_ONLY`. -/
def bloomUpdateP2PubkeyOnly : UInt8 := 2

/-- `BLOOM_UPDATE_MASK`. -/
def bloomUpdateMask : UInt8 := 3

/-- `txnouttype`: the template `Solver` recognises in a script. -/
inductive TxnOutType
  | nonstandard
  | pubkey
  | pubkeyhash
  | scripthash
  | multisig
  | nullData
  deriving DecidableEq, Repr

/-- The functions a filter calls and the model leaves open. -/
structure BloomEnv where
  /-- `MurmurHash3(nHashSeed, vDataToHash)`. -/
  murmurHash3 : UInt32 → List UInt8 → UInt32
  /-- `CTransaction::GetId()`. -/
  getId : Transaction → Vector UInt8 32
  /-- The type `Solver` returns for a script. -/
  solver : List UInt8 → TxnOutType

/-- Undefined behaviour of an operation of a filter. -/
inductive BloomFault
  /-- `% (vData.size() * 8)` in `Hash` with an empty `vData`. -/
  | moduloByZero
  /-- `vData[nIndex >> 3]` past the end of `vData`. -/
  | outOfRange
  deriving DecidableEq, Repr

/-- `stream << outpoint`: the 32 bytes of the txid, then `n` in four little-endian bytes. -/
def OutPoint.serialize (o : OutPoint) : List UInt8 :=
  o.txid.toList ++ serWritedata32 o.n.toNat

/-! ### Bits of a bit array -/

namespace CBloomFilter

/-- `1 << (7 & nIndex)`: the bit of `nIndex` within its byte. -/
def bitMask (nIndex : ℕ) : UInt8 := 1 <<< (7 &&& nIndex).toUInt8

/-- `vData[nIndex >> 3] |= (1 << (7 & nIndex))`: "Sets bit nIndex of vData". -/
def setBit (vData : List UInt8) (nIndex : ℕ) : Except BloomFault (List UInt8) :=
  match vData[nIndex >>> 3]? with
  | some b => pure (vData.set (nIndex >>> 3) (b ||| bitMask nIndex))
  | none => throw .outOfRange

/-- `vData[nIndex >> 3] & (1 << (7 & nIndex))`: "Checks bit nIndex of vData". -/
def checkBit (vData : List UInt8) (nIndex : ℕ) : Except BloomFault Bool :=
  match vData[nIndex >>> 3]? with
  | some b => pure (b &&& bitMask nIndex != 0)
  | none => throw .outOfRange

/-- Bit `n` of a bit array is set: bit `n % 8` of byte `n / 8`. -/
def IsSet (vData : List UInt8) (n : ℕ) : Prop :=
  ∃ b, vData[n >>> 3]? = some b ∧ b.toNat.testBit (n % 8) = true

theorem toNat_bitMask (n : ℕ) : (bitMask n).toNat = 2 ^ (n % 8) := by
  have h7 : 7 &&& n = n % 8 := by
    rw [Nat.and_comm]
    exact Nat.and_two_pow_sub_one_eq_mod n 3
  have hlt : n % 8 < 8 := Nat.mod_lt n (by omega)
  have hpow : 2 ^ (n % 8) < 2 ^ 8 := Nat.pow_lt_pow_right (by omega) hlt
  rw [bitMask, UInt8.toNat_shiftLeft, h7]
  simpa [Nat.one_shiftLeft, Nat.mod_eq_of_lt hlt] using hpow

/-- The mask tests bit `n % 8` of a byte. -/
theorem and_bitMask_ne_zero (b : UInt8) (n : ℕ) :
    (b &&& bitMask n != 0) = b.toNat.testBit (n % 8) := by
  rw [Bool.eq_iff_iff, bne_iff_ne, ne_eq, ← UInt8.toNat_inj, UInt8.toNat_and, toNat_bitMask,
    UInt8.toNat_zero, Nat.and_two_pow]
  cases b.toNat.testBit (n % 8) <;> simp

/-- Or-ing the mask sets bit `n % 8` and keeps the others. -/
theorem testBit_or_bitMask (b : UInt8) (n j : ℕ) :
    (b ||| bitMask n).toNat.testBit j = (b.toNat.testBit j || decide (n % 8 = j)) := by
  rw [UInt8.toNat_or, Nat.testBit_or, toNat_bitMask, Nat.testBit_two_pow]

theorem shiftRight_three_lt {vData : List UInt8} {n : ℕ} (h : n < vData.length * 8) :
    n >>> 3 < vData.length := by
  rw [Nat.shiftRight_eq_div_pow]
  omega

theorem checkBit_eq_ok_true {vData : List UInt8} {n : ℕ} :
    checkBit vData n = .ok true ↔ IsSet vData n := by
  unfold checkBit IsSet
  cases vData[n >>> 3]? with
  | none => simp
  | some b => simp [and_bitMask_ne_zero]

theorem checkBit_ok {vData : List UInt8} {n : ℕ} (h : n < vData.length * 8) :
    ∃ r, checkBit vData n = .ok r := by
  rw [checkBit, List.getElem?_eq_getElem (shiftRight_three_lt h)]
  exact ⟨_, rfl⟩

/-- Setting a bit inside the array succeeds, keeps the length and every bit set, and sets the
bit. -/
theorem setBit_spec {vData : List UInt8} {n : ℕ} (h : n < vData.length * 8) :
    ∃ v, setBit vData n = .ok v ∧ v.length = vData.length ∧ IsSet v n ∧
      ∀ m, IsSet vData m → IsSet v m := by
  have hi := shiftRight_three_lt h
  refine ⟨vData.set (n >>> 3) (vData[n >>> 3] ||| bitMask n), ?_, List.length_set, ?_, ?_⟩
  · rw [setBit, List.getElem?_eq_getElem hi]
    rfl
  · refine ⟨_, List.getElem?_set_self hi, ?_⟩
    rw [testBit_or_bitMask, decide_eq_true rfl, Bool.or_true]
  · rintro m ⟨b, hb, hbit⟩
    by_cases hm : n >>> 3 = m >>> 3
    · -- the byte of `m` is the one written: its old bits stay set
      rw [← hm, List.getElem?_eq_getElem hi, Option.some.injEq] at hb
      refine ⟨_, by rw [← hm]; exact List.getElem?_set_self hi, ?_⟩
      rw [testBit_or_bitMask, hb, hbit, Bool.true_or]
    · exact ⟨b, by rw [List.getElem?_set_ne hm]; exact hb, hbit⟩

end CBloomFilter

/-! ### The filter -/

/-- `CBloomFilter`: the bit array and the parameters of a filter. -/
structure CBloomFilter where
  vData : List UInt8
  isFull : Bool
  isEmpty : Bool
  nHashFuncs : UInt32
  nTweak : UInt32
  nFlags : UInt8
  deriving DecidableEq, Repr

namespace CBloomFilter

/-- `CBloomFilter()`: no bits, marked full, so that it matches everything. `FILTERCLEAR`
installs it. -/
def init : CBloomFilter :=
  { vData := [], isFull := true, isEmpty := false, nHashFuncs := 0, nTweak := 0, nFlags := 0 }

section Operations

variable (env : BloomEnv)

/-- `Hash(nHashNum, vDataToHash)`: the seed is computed in `uint32_t`; the remainder is below
`2 ^ 32`, so it is the `uint32_t` the function returns. -/
def hash (f : CBloomFilter) (nHashNum : UInt32) (vDataToHash : List UInt8) :
    Except BloomFault ℕ :=
  if f.vData.length * 8 = 0 then throw .moduloByZero
  else pure ((env.murmurHash3 (nHashNum * 0xFBA4C795 + f.nTweak) vDataToHash).toNat %
    (f.vData.length * 8))

/-- One pass of the loop of `insert`: set the bit of hash `i` of `vKey`. -/
def insertBit (vKey : List UInt8) (f : CBloomFilter) (i : ℕ) : Except BloomFault CBloomFilter :=
  do
  let nIndex ← f.hash env i.toUInt32 vKey
  let vData ← setBit f.vData nIndex
  pure { f with vData }

/-- `insert(vKey)`. -/
def insert (f : CBloomFilter) (vKey : List UInt8) : Except BloomFault CBloomFilter :=
  if f.isFull then pure f
  else do
    let f ← (List.range f.nHashFuncs.toNat).foldlM (insertBit env vKey) f
    pure { f with isEmpty := false }

/-- `contains(vKey)`. -/
def contains (f : CBloomFilter) (vKey : List UInt8) : Except BloomFault Bool :=
  if f.isFull then pure true
  else if f.isEmpty then pure false
  else (List.range f.nHashFuncs.toNat).allM fun i => do
    let nIndex ← f.hash env i.toUInt32 vKey
    checkBit f.vData nIndex

set_option linter.unusedVariables false in
/-- The inner `while` loops of `MatchAndInsertOutputs` and `MatchInputs`: whether the filter
contains the data of a push of `pc`, read by `GetOp` up to the end of the script or the first
instruction it cannot decode. -/
def containsScriptData (f : CBloomFilter) (pc : List UInt8) : Except BloomFault Bool :=
  match h : getScriptOp pc with
  | none => pure false
  | some (_, data, rest) =>
    if data.length ≠ 0 then do
      let found ← f.contains env data
      if found then pure true else f.containsScriptData rest
    else f.containsScriptData rest
termination_by pc.length
decreasing_by all_goals exact getScriptOp_length_lt h

/-- The body of the loop of `MatchAndInsertOutputs` over output `i`: whether the filter contains
a push of its script, the filter after inserting `COutPoint(txid, i)` when the flags ask for
it, and the keys inserted. -/
def matchOutput (txid : Vector UInt8 32) (f : CBloomFilter) (i : ℕ) (txout : TxOut) :
    Except BloomFault (Bool × CBloomFilter × List (List UInt8)) := do
  let found ← f.containsScriptData env txout.scriptPubKey
  if found then
    -- `COutPoint(txid, i)` narrows the `size_t` index to `uint32_t`
    let key := OutPoint.serialize ⟨txid, i.toUInt32⟩
    if f.nFlags &&& bloomUpdateMask = bloomUpdateAll then
      pure (true, ← f.insert env key, [key])
    else if f.nFlags &&& bloomUpdateMask = bloomUpdateP2PubkeyOnly then
      let type := env.solver txout.scriptPubKey
      if type = .pubkey ∨ type = .multisig then pure (true, ← f.insert env key, [key])
      else pure (true, f, [])
    else pure (true, f, [])
  else pure (false, f, [])

/-- The loop of `MatchAndInsertOutputs` over the outputs, with `fFound`, the filter and the
keys inserted so far. -/
def matchOutputStep (txid : Vector UInt8 32) (st : Bool × CBloomFilter × List (List UInt8))
    (out : TxOut × ℕ) : Except BloomFault (Bool × CBloomFilter × List (List UInt8)) := do
  let (found, f, keys) ← st.2.1.matchOutput env txid out.2 out.1
  pure (st.1 || found, f, st.2.2 ++ keys)

/-- `MatchAndInsertOutputs(tx)`: whether the filter matches `tx`, the filter after the
outpoints it inserted, and those outpoints' keys. -/
def matchAndInsertOutputs (f : CBloomFilter) (tx : Transaction) :
    Except BloomFault (Bool × CBloomFilter × List (List UInt8)) :=
  if f.isFull then pure (true, f, [])
  else if f.isEmpty then pure (false, f, [])
  else do
    let txid := env.getId tx
    let fFound ← f.contains env txid.toList
    tx.vout.zipIdx.foldlM (matchOutputStep env txid) (fFound, f, [])

/-- `MatchInputs(tx)`. -/
def matchInputs (f : CBloomFilter) (tx : Transaction) : Except BloomFault Bool :=
  if f.isEmpty then pure false
  else tx.vin.anyM fun txin => do
    let found ← f.contains env txin.prevout.serialize
    if found then pure true else f.containsScriptData env txin.scriptSig

end Operations

/-- `UpdateEmptyFull()`. -/
def updateEmptyFull (f : CBloomFilter) : CBloomFilter :=
  { f with isFull := f.vData.all (· == 0xff), isEmpty := f.vData.all (· == 0) }

/-- `IsWithinSizeConstraints()`. -/
def isWithinSizeConstraints (f : CBloomFilter) : Bool :=
  decide (f.vData.length ≤ maxBloomFilterSize) && decide (f.nHashFuncs ≤ maxHashFuncs)

end CBloomFilter

/-- `FILTERLOAD`: `vRecv >> filter` reads the four serialized fields into a default
`CBloomFilter`; the filter is installed, after `UpdateEmptyFull()`, when it is within the size
constraints, and refused otherwise. -/
def filterLoad (vData : List UInt8) (nHashFuncs nTweak : UInt32) (nFlags : UInt8) :
    Option CBloomFilter :=
  let filter : CBloomFilter := { CBloomFilter.init with vData, nHashFuncs, nTweak, nFlags }
  if filter.isWithinSizeConstraints then some filter.updateEmptyFull else none

/-- What is done with an installed filter: `FILTERADD`, and the tests of the node. -/
inductive FilterOp
  | filterAdd (vData : List UInt8)
  | contains (vKey : List UInt8)
  | matchAndInsertOutputs (tx : Transaction)
  | matchInputs (tx : Transaction)

namespace CBloomFilter

variable (env : BloomEnv)

/-- One operation on the installed filter: the filter afterwards and the keys inserted. -/
def step (f : CBloomFilter) : FilterOp → Except BloomFault (CBloomFilter × List (List UInt8))
  | .filterAdd vData =>
    -- an item longer than a script element is refused and the peer misbehaves
    if vData.length > maxScriptElementSize then pure (f, [])
    else do pure (← f.insert env vData, [vData])
  | .contains vKey => do
    let _ ← f.contains env vKey
    pure (f, [])
  | .matchAndInsertOutputs tx => do
    let (_, g, keys) ← f.matchAndInsertOutputs env tx
    pure (g, keys)
  | .matchInputs tx => do
    let _ ← f.matchInputs env tx
    pure (f, [])

/-- A sequence of operations on the installed filter, with every key inserted. -/
def run (f : CBloomFilter) : List FilterOp → Except BloomFault (CBloomFilter × List (List UInt8))
  | [] => pure (f, [])
  | op :: ops => do
    let (g, keys) ← f.step env op
    let (h, keys') ← g.run ops
    pure (h, keys ++ keys')

/-! ### What the operations keep -/

/-- An installed filter: an empty bit array is marked full. -/
def Valid (f : CBloomFilter) : Prop := f.vData = [] → f.isFull = true

/-- `g` is `f` with more bits set: the bit array keeps its length and every bit set, the
parameters and `isFull` are kept, and a filter that is not empty stays so. -/
structure Extends (f g : CBloomFilter) : Prop where
  length_eq : g.vData.length = f.vData.length
  isSet : ∀ n, IsSet f.vData n → IsSet g.vData n
  isFull_eq : g.isFull = f.isFull
  isEmpty_eq_false : f.isEmpty = false → g.isEmpty = false
  nHashFuncs_eq : g.nHashFuncs = f.nHashFuncs
  nTweak_eq : g.nTweak = f.nTweak
  nFlags_eq : g.nFlags = f.nFlags

variable {env} {f g k : CBloomFilter}

theorem Extends.refl (f : CBloomFilter) : Extends f f :=
  ⟨rfl, fun _ h => h, rfl, id, rfl, rfl, rfl⟩

theorem Extends.trans (h₁ : Extends f g) (h₂ : Extends g k) : Extends f k :=
  ⟨h₂.length_eq.trans h₁.length_eq, fun n hn => h₂.isSet n (h₁.isSet n hn),
    h₂.isFull_eq.trans h₁.isFull_eq, fun h => h₂.isEmpty_eq_false (h₁.isEmpty_eq_false h),
    h₂.nHashFuncs_eq.trans h₁.nHashFuncs_eq, h₂.nTweak_eq.trans h₁.nTweak_eq,
    h₂.nFlags_eq.trans h₁.nFlags_eq⟩

theorem Extends.ne_nil (h : Extends f g) (hne : f.vData ≠ []) : g.vData ≠ [] := by
  intro hg
  have hlen : f.vData.length = 0 := by rw [← h.length_eq, hg, List.length_nil]
  exact hne (List.eq_nil_of_length_eq_zero hlen)

theorem Extends.valid (hf : Valid f) (h : Extends f g) : Valid g := by
  intro hg
  rw [h.isFull_eq]
  by_contra hfull
  exact h.ne_nil (fun hf' => hfull (hf hf')) hg

/-- `Hash` reads of the filter only the length of the bit array and the tweak. -/
theorem Extends.hash_eq (h : Extends f g) : g.hash env = f.hash env := by
  funext i vKey
  simp only [hash, h.length_eq, h.nTweak_eq]

/-- `contains` reports a key exactly when the filter is full, or when it is not empty and the
bits of all the key's hashes are set. -/
theorem contains_eq_ok_true {vKey : List UInt8} :
    f.contains env vKey = .ok true ↔ f.isFull = true ∨ (f.isEmpty = false ∧
      ∀ i < f.nHashFuncs.toNat, ∃ n, f.hash env i.toUInt32 vKey = .ok n ∧ IsSet f.vData n) := by
  rw [contains]
  cases hfull : f.isFull
  · cases hempty : f.isEmpty
    · simp [Except.allM_eq_ok_true, Except.bind_eq_ok, checkBit_eq_ok_true]
    · simp
  · simp

/-- A filter that `g` extends reports fewer keys. -/
theorem Extends.contains (h : Extends f g) {vKey : List UInt8}
    (hk : f.contains env vKey = .ok true) : g.contains env vKey = .ok true := by
  rw [contains_eq_ok_true] at hk ⊢
  rcases hk with hfull | ⟨hempty, hbits⟩
  · exact .inl (h.isFull_eq.trans hfull)
  · refine .inr ⟨h.isEmpty_eq_false hempty, fun i hi => ?_⟩
    obtain ⟨n, hn, hset⟩ := hbits i (h.nHashFuncs_eq ▸ hi)
    exact ⟨n, by rw [h.hash_eq]; exact hn, h.isSet n hset⟩

variable (env) in
/-- What an operation that took `f` to `g` and inserted `keys` keeps: `g` extends `f` and
reports every key inserted. -/
def Keeps (f g : CBloomFilter) (keys : List (List UInt8)) : Prop :=
  Extends f g ∧ ∀ vKey ∈ keys, g.contains env vKey = .ok true

theorem Keeps.refl (f : CBloomFilter) : Keeps env f f [] :=
  ⟨.refl f, fun _ h => absurd h List.not_mem_nil⟩

/-- Keys reported after one operation stay reported after the next. -/
theorem Keeps.trans {keys keys' : List (List UInt8)} (h₁ : Keeps env f g keys)
    (h₂ : Keeps env g k keys') : Keeps env f k (keys ++ keys') := by
  refine ⟨h₁.1.trans h₂.1, fun vKey hk => ?_⟩
  rcases List.mem_append.mp hk with hk | hk
  · exact h₂.1.contains (h₁.2 vKey hk)
  · exact h₂.2 vKey hk

/-! ### No fault on a valid filter -/

variable (env)

theorem hash_ok (hne : f.vData ≠ []) (i : UInt32) (vKey : List UInt8) :
    ∃ n, f.hash env i vKey = .ok n ∧ n < f.vData.length * 8 := by
  have hpos : 0 < f.vData.length * 8 := by
    have := List.length_pos_of_ne_nil hne
    omega
  exact ⟨_, by rw [hash, if_neg (by omega)]; rfl, Nat.mod_lt _ hpos⟩

/-- On a valid filter `contains` hashes only a nonempty bit array, and tests bits inside it. -/
theorem contains_ok (hf : Valid f) (vKey : List UInt8) : ∃ r, f.contains env vKey = .ok r := by
  rw [contains]
  split_ifs with hfull hempty
  · exact ⟨true, rfl⟩
  · exact ⟨false, rfl⟩
  · have hne : f.vData ≠ [] := fun h => hfull (hf h)
    refine Except.allM_ok fun i _ => ?_
    obtain ⟨n, hn, hlt⟩ := hash_ok env hne i.toUInt32 vKey
    obtain ⟨r, hr⟩ := checkBit_ok hlt
    exact ⟨r, by rw [hn, Except.bind_ok', hr]⟩

/-- A pass of the loop of `insert` on a nonempty filter sets the bit of the key's hash. -/
theorem insertBit_spec (hne : f.vData ≠ []) (vKey : List UInt8) (i : ℕ) :
    ∃ g n, f.insertBit env vKey i = .ok g ∧ Extends f g ∧ g.isEmpty = f.isEmpty ∧
      f.hash env i.toUInt32 vKey = .ok n ∧ IsSet g.vData n := by
  obtain ⟨n, hn, hlt⟩ := hash_ok env hne i.toUInt32 vKey
  obtain ⟨v, hv, hlen, hset, hmono⟩ := setBit_spec hlt
  refine ⟨{ f with vData := v }, n, ?_, ⟨hlen, hmono, rfl, id, rfl, rfl, rfl⟩, rfl, hn, hset⟩
  rw [insertBit, hn, Except.bind_ok', hv, Except.bind_ok']
  rfl

/-- On a valid filter `insert` succeeds, and the filter it leaves extends the old one and
reports the key. -/
theorem insert_spec (hf : Valid f) (vKey : List UInt8) :
    ∃ g, f.insert env vKey = .ok g ∧ Keeps env f g [vKey] := by
  rw [insert]
  split_ifs with hfull
  · refine ⟨f, rfl, .refl f, fun _ h => ?_⟩
    rw [List.mem_singleton.mp h, contains, if_pos hfull]
    rfl
  · have hne : f.vData ≠ [] := fun h => hfull (hf h)
    -- the loop keeps a filter that extends `f` with the bits of the hashes passed set
    obtain ⟨g, hg, hext, -, hbits⟩ := Except.foldlM_ok_invariant
      (l := List.range f.nHashFuncs.toNat) (fun done g => Extends f g ∧ g.isEmpty = f.isEmpty ∧
        ∀ i ∈ done, ∃ n, f.hash env i.toUInt32 vKey = .ok n ∧ IsSet g.vData n)
      (fun done g i ⟨hext, hempty, hbits⟩ => by
        obtain ⟨g', n, hg', hext', hempty', hn, hset⟩ :=
          insertBit_spec env (hext.ne_nil hne) vKey i
        refine ⟨g', hg', hext.trans hext', hempty'.trans hempty, fun j hj => ?_⟩
        rcases List.mem_append.mp hj with hj | hj
        · obtain ⟨m, hm, hsetm⟩ := hbits j hj
          exact ⟨m, hm, hext'.isSet m hsetm⟩
        · rw [List.mem_singleton.mp hj]
          exact ⟨n, by rw [← hext.hash_eq]; exact hn, hset⟩)
      ⟨.refl f, rfl, fun _ h => absurd h List.not_mem_nil⟩
    -- then the filter is marked not empty, and every bit `contains` tests is set
    have hext' : Extends f { g with isEmpty := false } :=
      ⟨hext.length_eq, hext.isSet, hext.isFull_eq, fun _ => rfl, hext.nHashFuncs_eq,
        hext.nTweak_eq, hext.nFlags_eq⟩
    refine ⟨_, by rw [hg]; rfl, hext', fun _ h => ?_⟩
    rw [List.mem_singleton.mp h]
    refine contains_eq_ok_true.mpr (.inr ⟨rfl, fun i hi => ?_⟩)
    obtain ⟨n, hn, hset⟩ := hbits i (List.mem_range.mpr (hext.nHashFuncs_eq ▸ hi))
    exact ⟨n, by rw [hext'.hash_eq]; exact hn, hset⟩

/-- The scan of a script on a valid filter succeeds. -/
theorem containsScriptData_ok (hf : Valid f) (pc : List UInt8) :
    ∃ r, f.containsScriptData env pc = .ok r := by
  fun_induction containsScriptData env f pc with
  | case1 pc h => exact ⟨false, rfl⟩
  | case2 pc x data rest h hdata ih =>
    obtain ⟨found, hfound⟩ := contains_ok env hf data
    rw [hfound, Except.bind_ok']
    cases found
    · exact ih
    · exact ⟨true, rfl⟩
  | case3 pc x data rest h hdata ih => exact ih

theorem matchOutput_spec (hf : Valid f) (txid : Vector UInt8 32) (i : ℕ) (txout : TxOut) :
    ∃ found g keys, f.matchOutput env txid i txout = .ok (found, g, keys) ∧
      Keeps env f g keys := by
  obtain ⟨found, hfound⟩ := containsScriptData_ok env hf txout.scriptPubKey
  cases found
  · exact ⟨false, f, [], by rw [matchOutput, hfound, Except.bind_ok']; rfl, .refl f⟩
  · obtain ⟨g, hg, hkeeps⟩ := insert_spec env hf (OutPoint.serialize ⟨txid, i.toUInt32⟩)
    rw [matchOutput, hfound, Except.bind_ok', if_pos rfl]
    dsimp only
    -- the flags decide whether the outpoint is inserted
    split_ifs
    · exact ⟨true, g, _, by rw [hg]; rfl, hkeeps⟩
    · exact ⟨true, g, _, by rw [hg]; rfl, hkeeps⟩
    · exact ⟨true, f, [], rfl, .refl f⟩
    · exact ⟨true, f, [], rfl, .refl f⟩

theorem matchAndInsertOutputs_spec (hf : Valid f) (tx : Transaction) :
    ∃ found g keys, f.matchAndInsertOutputs env tx = .ok (found, g, keys) ∧
      Keeps env f g keys := by
  rw [matchAndInsertOutputs]
  split_ifs with hfull hempty
  · exact ⟨true, f, [], rfl, .refl f⟩
  · exact ⟨false, f, [], rfl, .refl f⟩
  · obtain ⟨fFound, hfFound⟩ := contains_ok env hf (env.getId tx).toList
    dsimp only
    rw [hfFound, Except.bind_ok']
    -- the loop over the outputs keeps the filter it starts from and the keys inserted so far
    obtain ⟨⟨found, g, keys⟩, hrun, hkeeps⟩ := Except.foldlM_ok_invariant
      (f := matchOutputStep env (env.getId tx)) (l := tx.vout.zipIdx)
      (fun _ st => Keeps env f st.2.1 st.2.2)
      (fun _ st out hst => by
        obtain ⟨found, g, keys, hg, hkeeps⟩ :=
          matchOutput_spec env (hst.1.valid hf) (env.getId tx) out.2 out.1
        exact ⟨(st.1 || found, g, st.2.2 ++ keys),
          by rw [matchOutputStep, hg, Except.bind_ok']; rfl, hst.trans hkeeps⟩)
      (b := (fFound, f, [])) (.refl f)
    exact ⟨found, g, keys, hrun, hkeeps⟩

theorem matchInputs_ok (hf : Valid f) (tx : Transaction) :
    ∃ r, f.matchInputs env tx = .ok r := by
  rw [matchInputs]
  split_ifs
  · exact ⟨false, rfl⟩
  · refine Except.anyM_ok fun txin _ => ?_
    obtain ⟨found, hfound⟩ := contains_ok env hf txin.prevout.serialize
    rw [hfound, Except.bind_ok']
    cases found
    · exact containsScriptData_ok env hf txin.scriptSig
    · exact ⟨true, rfl⟩

/-- Each operation on a valid filter succeeds and keeps the keys it inserts. -/
theorem step_spec (hf : Valid f) (op : FilterOp) :
    ∃ g keys, f.step env op = .ok (g, keys) ∧ Keeps env f g keys := by
  cases op with
  | filterAdd vData =>
    rw [step]
    split_ifs
    · exact ⟨f, [], rfl, .refl f⟩
    · obtain ⟨g, hg, hkeeps⟩ := insert_spec env hf vData
      exact ⟨g, [vData], by rw [hg]; rfl, hkeeps⟩
  | contains vKey =>
    obtain ⟨r, hr⟩ := contains_ok env hf vKey
    exact ⟨f, [], by rw [step, hr]; rfl, .refl f⟩
  | matchAndInsertOutputs tx =>
    obtain ⟨found, g, keys, hg, hkeeps⟩ := matchAndInsertOutputs_spec env hf tx
    exact ⟨g, keys, by rw [step, hg]; rfl, hkeeps⟩
  | matchInputs tx =>
    obtain ⟨r, hr⟩ := matchInputs_ok env hf tx
    exact ⟨f, [], by rw [step, hr]; rfl, .refl f⟩

/-- A run from a valid filter succeeds, and its final filter extends the first and reports
every key the run inserted. -/
theorem run_spec (hf : Valid f) (ops : List FilterOp) :
    ∃ g keys, f.run env ops = .ok (g, keys) ∧ Keeps env f g keys := by
  induction ops generalizing f with
  | nil => exact ⟨f, [], rfl, .refl f⟩
  | cons op ops ih =>
    obtain ⟨g, keys, hg, hkeeps⟩ := step_spec env hf op
    obtain ⟨k, keys', hk, hkeeps'⟩ := ih (hkeeps.1.valid hf)
    refine ⟨k, keys ++ keys', ?_, hkeeps.trans hkeeps'⟩
    rw [run, hg, Except.bind_ok']
    dsimp only
    rw [hk, Except.bind_ok']
    rfl

/-! ### Installed filters -/

theorem valid_init : Valid init := fun _ => rfl

/-- `UpdateEmptyFull()` marks an empty bit array full. -/
theorem valid_updateEmptyFull (f : CBloomFilter) : Valid f.updateEmptyFull := by
  intro h
  simp only [updateEmptyFull] at h ⊢
  rw [h, List.all_nil]

end CBloomFilter

theorem valid_of_filterLoad {vData : List UInt8} {nHashFuncs nTweak : UInt32} {nFlags : UInt8}
    {f : CBloomFilter} (h : filterLoad vData nHashFuncs nTweak nFlags = some f) : f.Valid := by
  rw [filterLoad] at h
  split_ifs at h
  rw [← Option.some.inj h]
  exact CBloomFilter.valid_updateEmptyFull _

/-- A filter a peer installs, by `filterclear` or by `filterload`, followed by any sequence of
`filteradd` messages and tests of transactions: no operation faults, so `Hash` is never
evaluated on an empty bit array, and every key inserted, by `filteradd` or as an outpoint by
`MatchAndInsertOutputs`, is reported by `contains` afterwards. -/
theorem installedFilter_run_sound (env : BloomEnv) {f : CBloomFilter}
    (hf : f = CBloomFilter.init ∨
      ∃ vData nHashFuncs nTweak nFlags, filterLoad vData nHashFuncs nTweak nFlags = some f)
    (ops : List FilterOp) :
    ∃ g keys, f.run env ops = .ok (g, keys) ∧ ∀ vKey ∈ keys, g.contains env vKey = .ok true := by
  have hvalid : f.Valid := by
    rcases hf with rfl | ⟨vData, nHashFuncs, nTweak, nFlags, h⟩
    · exact CBloomFilter.valid_init
    · exact valid_of_filterLoad h
  obtain ⟨g, keys, hrun, -, hkeys⟩ := CBloomFilter.run_spec env hvalid ops
  exact ⟨g, keys, hrun, hkeys⟩

/-- Hashing by the seed alone, and transactions of one id. -/
def seedBloomEnv : BloomEnv :=
  ⟨fun nHashSeed _ => nHashSeed, fun _ => Vector.replicate 32 0, fun _ => .nonstandard⟩

theorem installedFilter_run_sound_loaded :
    filterLoad [0, 0] 3 7 bloomUpdateAll = some
      { vData := [0, 0], isFull := false, isEmpty := true, nHashFuncs := 3, nTweak := 7,
        nFlags := bloomUpdateAll } ∧
    ∃ g keys, CBloomFilter.run seedBloomEnv
        { vData := [0, 0], isFull := false, isEmpty := true, nHashFuncs := 3, nTweak := 7,
          nFlags := bloomUpdateAll } [.filterAdd [1, 2], .contains [3]] = .ok (g, keys) ∧
      ∀ vKey ∈ keys, g.contains seedBloomEnv vKey = .ok true :=
  ⟨rfl, installedFilter_run_sound seedBloomEnv (.inr ⟨[0, 0], 3, 7, bloomUpdateAll, rfl⟩) _⟩

end BitcoinCash
