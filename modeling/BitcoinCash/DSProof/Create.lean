import BitcoinCash.Script.SignatureHash
import BitcoinCash.Coins.Coin

/-!
# Double-spend proofs: creation

A double-spend proof (`dsproof/dsproof.h`) shows that two transactions spend one outpoint. For
each of the two it keeps a `Spender`: the fields of the transaction that its signature hash
reads besides the outpoint, the script code and the amount (the version, the input's sequence,
the lock time and the three digests of the inputs and outputs), and the signature pushed by
the spending input. `DoubleSpendProof::create` (`dsproof_create.cpp`) fills one spender from each
transaction, at the first input that spends the outpoint, and orders the two by their
`hashOutputs` and then their `hashPrevOutputs` so that the proof does not depend on which
transaction was seen first.

That order decides only when the two pairs of digests differ. Two transactions that spend the
same inputs to the same outputs, differing in their lock times, say, have equal digests, and
`create` then keeps the order of its arguments (`create_argument_order`). Where the digests
differ, the proof is the same in either order, and it always passes the order check of
`DoubleSpendProof::validate` (`create_reorder`).
-/

namespace BitcoinCash

/-! ### Proofs and their serialization -/

/-- `DoubleSpendProof::Spender`. -/
structure DoubleSpendProof.Spender where
  txVersion : UInt32
  outSequence : UInt32
  lockTime : UInt32
  hashPrevOutputs : Vector UInt8 32
  hashSequence : Vector UInt8 32
  hashOutputs : Vector UInt8 32
  pushData : List ValType
  deriving DecidableEq

/-- `DoubleSpendProof`, with `m_hash`, the digest `setHash` stores. -/
structure DoubleSpendProof where
  outPoint : OutPoint
  spender1 : DoubleSpendProof.Spender
  spender2 : DoubleSpendProof.Spender
  hash : Vector UInt8 32
  deriving DecidableEq

/-- The exceptions of `create`: `std::invalid_argument` and `std::runtime_error`, with their
texts. -/
inductive DSProofException where
  | invalidArgument (what : String)
  | runtimeError (what : String)
  deriving DecidableEq

namespace DoubleSpendProof

/-- A default-constructed `Spender`: zero fields and no push. -/
def Spender.empty : Spender := ⟨0, 0, 0, uint256Zero, uint256Zero, uint256Zero, []⟩

/-- `Serialize(s, std::vector<std::vector<uint8_t>>)`. -/
def serializePushData (pushData : List ValType) : List UInt8 :=
  writeCompactSize pushData.length ++ pushData.flatMap fun v => writeCompactSize v.length ++ v

/-- The fields of one spender in `DoubleSpendProof::SERIALIZE_METHODS`. -/
def Spender.serialize (s : Spender) : List UInt8 :=
  serializeUInt32 s.txVersion ++ serializeUInt32 s.outSequence ++ serializeUInt32 s.lockTime ++
    serializeUInt256 s.hashPrevOutputs ++ serializeUInt256 s.hashSequence ++
    serializeUInt256 s.hashOutputs ++ serializePushData s.pushData

/-- `setHash`: `SerializeHash(*this)`, the digest of the outpoint and the two spenders. -/
def serializeHash (crypto : Crypto) (outPoint : OutPoint) (s1 s2 : Spender) : Vector UInt8 32 :=
  hashWriterGetHash crypto (serializeOutPoint outPoint ++ s1.serialize ++ s2.serialize)

/-- `memcmp` of two byte strings of one length: the sign of the first difference. -/
def memcmpBytes : List UInt8 → List UInt8 → ℤ
  | a :: as, b :: bs => if a < b then -1 else if b < a then 1 else memcmpBytes as bs
  | _, _ => 0

/-- `base_blob::Compare`. -/
def uint256Compare (a b : Vector UInt8 32) : ℤ := memcmpBytes a.toList b.toList

/-- The order of `create` and `validate`: `hashOutputs`, then `hashPrevOutputs`. -/
def spenderOrder (s1 s2 : Spender) : ℤ :=
  let diff := uint256Compare s1.hashOutputs s2.hashOutputs
  if diff = 0 then uint256Compare s1.hashPrevOutputs s2.hashPrevOutputs else diff

/-- The sort of `create`: the two spenders in `spenderOrder`. -/
def sortSpenders (s1 s2 : Spender) : Spender × Spender :=
  if spenderOrder s1 s2 > 0 then (s2, s1) else (s1, s2)

/-- The proof of two spenders with its hash, as `create` builds it. -/
def ofSpenders (crypto : Crypto) (outPoint : OutPoint) (ss : Spender × Spender) :
    DoubleSpendProof :=
  ⟨outPoint, ss.1, ss.2, serializeHash crypto outPoint ss.1 ss.2⟩

/-- The ordering check of `DoubleSpendProof::validate`, which finds a proof with `diff > 0`
invalid. -/
def isCanonical (p : DoubleSpendProof) : Bool := !(spenderOrder p.spender1 p.spender2 > 0)

/-- `isEmpty`: an output index above `INT32_MAX`, or a null transaction id or hash. -/
def isEmpty (p : DoubleSpendProof) : Bool :=
  p.outPoint.n.toNat > 2 ^ 31 - 1 || p.outPoint.txid == uint256Zero || p.hash == uint256Zero

/-- The checks `checkSanityOrThrow` makes of each spender's pushes. -/
def checkPushData (pushData : List ValType) : Except DSProofException Unit :=
  if pushData.length ≠ 1 then throw (.runtimeError "DSProof must contain exactly 1 pushData")
  else if (pushData.headD []).length > maxScriptElementSize then
    throw (.runtimeError "DSProof script size limit exceeded")
  else pure ()

/-- `checkSanityOrThrow`. -/
def checkSanityOrThrow (p : DoubleSpendProof) : Except DSProofException Unit := do
  if p.isEmpty then throw (.runtimeError "DSProof is empty")
  checkPushData p.spender1.pushData
  checkPushData p.spender2.pushData
  if p.spender1 = p.spender2 then throw (.runtimeError "DSProof both spenders are the same")

/-! ### `create` -/

/-- The checks both signature getters end with: a signature, whose last byte, the hash type,
has `SIGHASH_FORKID`. -/
def checkP2PKHHashType (vchRet : ValType) : Except DSProofException ValType :=
  match vchRet.getLast? with
  | none => throw (.runtimeError "scriptSig has no signature")
  | some hashType =>
    if !sigHashHasFork hashType.toUInt32 then
      throw (.runtimeError "Tx is not a Bitcoin Cash P2PKH transaction")
    else pure vchRet

/-- `getP2PKHSignature(tx, inputIndex, txOut)` with an output, and `getP2PKHSignature(scriptSig)`
without one. With an output, `extractSignature` is what the getter asks of `script/standard.cpp`
and `script/sign.cpp`: that the output pays to one public key hash and the signature
`DataFromTransaction` finds for the input. Without one, the signature is the first push of the
input's `scriptSig`. -/
def getP2PKHSignature (extractSignature : Transaction → ℕ → TxOut → Except DSProofException ValType)
    (txOut : Option TxOut) (tx : Transaction) (inputIndex : ℕ) (txin : TxIn) :
    Except DSProofException ValType :=
  match txOut with
  | some out => extractSignature tx inputIndex out >>= checkP2PKHHashType
  | none =>
    let vchRet := match getScriptOp txin.scriptSig with
      | some (_, data, _) => data
      | none => []
    checkP2PKHHashType vchRet

/-- `hashTx`: the digests of the inputs and outputs that the spender's hash type signs,
left zero where it signs none. -/
def hashTx (crypto : Crypto) (spender : Spender) (tx : Transaction) (inputIndex : ℕ) : Spender :=
  let hashType : UInt32 := ((spender.pushData.headD []).getLastD 0).toUInt32
  let spender :=
    if hashType &&& sighashAnyonecanpay = 0 then
      { spender with
        hashPrevOutputs :=
          hashWriterGetHash crypto (tx.vin.flatMap fun txin => serializeOutPoint txin.prevout) }
    else spender
  let spender :=
    if hashType &&& sighashAnyonecanpay = 0 ∧ hashType &&& 0x1f ≠ sighashSingle ∧
        hashType &&& 0x1f ≠ sighashNone then
      { spender with
        hashSequence :=
          hashWriterGetHash crypto (tx.vin.flatMap fun txin => serializeUInt32 txin.nSequence) }
    else spender
  if hashType &&& 0x1f ≠ sighashSingle ∧ hashType &&& 0x1f ≠ sighashNone then
    { spender with hashOutputs := hashWriterGetHash crypto (tx.vout.flatMap serializeTxOut) }
  else if hashType &&& 0x1f = sighashSingle then
    match tx.vout[inputIndex]? with
    | some txout => { spender with hashOutputs := hashWriterGetHash crypto (serializeTxOut txout) }
    | none => spender
  else spender

/-- The spender `create` fills from the transaction `tx`, its input `txin` at `inputIndex` and
the signature `sig`: the same statements for `s1` and `s2`. -/
def fillSpender (crypto : Crypto) (tx : Transaction) (inputIndex : ℕ) (txin : TxIn) (sig : ValType) :
    Spender :=
  hashTx crypto
    { Spender.empty with
      outSequence := txin.nSequence
      pushData := [sig]
      txVersion := tx.nVersion.toUInt32
      lockTime := tx.nLockTime }
    tx inputIndex

/-- The search loops of `create`: the first input of `tx` that spends `prevout`. -/
def findInput (tx : Transaction) (prevout : OutPoint) : Option (Fin tx.vin.length) :=
  tx.vin.findFinIdx? (·.prevout == prevout)

/-- `DoubleSpendProof::create(tx1, tx2, prevout, txOut)`; `getHash` is `CTransaction::GetHash`. -/
def create (crypto : Crypto) (getHash : Transaction → Vector UInt8 32)
    (extractSignature : Transaction → ℕ → TxOut → Except DSProofException ValType)
    (tx1 tx2 : Transaction) (prevout : OutPoint) (txOut : Option TxOut) :
    Except DSProofException DoubleSpendProof := do
  if getHash tx1 = getHash tx2 then
    throw (.invalidArgument
      "DSProof create: CTransaction arguments must point to different transactions")
  let notDoubleSpent : DSProofException :=
    .runtimeError "Transactions do not double spend each other with the specified COutPoint"
  let some inputIndex1 := findInput tx1 prevout | throw notDoubleSpent
  let some inputIndex2 := findInput tx2 prevout | throw notDoubleSpent
  let in1 := tx1.vin.get inputIndex1
  let in2 := tx2.vin.get inputIndex2
  let sig1 ← getP2PKHSignature extractSignature txOut tx1 inputIndex1 in1
  let sig2 ← getP2PKHSignature extractSignature txOut tx2 inputIndex2 in2
  let s1 := fillSpender crypto tx1 inputIndex1 in1 sig1
  let s2 := fillSpender crypto tx2 inputIndex2 in2 sig2
  -- sort the spenders so the proof stays the same whichever transaction was seen first
  let answer := ofSpenders crypto in1.prevout (sortSpenders s1 s2)
  answer.checkSanityOrThrow
  pure answer

/-! ### The order of the spenders -/

theorem memcmpBytes_swap : ∀ a b : List UInt8, memcmpBytes b a = -memcmpBytes a b
  | x :: xs, y :: ys => by
    rw [memcmpBytes, memcmpBytes]
    -- at the first difference one byte is below the other
    by_cases hyx : y < x
    · rw [if_pos hyx, if_neg (UInt8.lt_asymm hyx), if_pos hyx]
    · rw [if_neg hyx]
      by_cases hxy : x < y
      · rw [if_pos hxy, if_pos hxy]
        rfl
      · rw [if_neg hxy, if_neg hxy, if_neg hyx, memcmpBytes_swap xs ys]
  | [], _ :: _ | _ :: _, [] | [], [] => by simp [memcmpBytes]

theorem memcmpBytes_eq_zero_iff : ∀ {a b : List UInt8}, a.length = b.length →
    (memcmpBytes a b = 0 ↔ a = b)
  | x :: xs, y :: ys, hlen => by
    rw [memcmpBytes]
    by_cases hxy : x < y
    · rw [if_pos hxy, List.cons.injEq]
      constructor
      · intro h
        omega
      · rintro ⟨rfl, -⟩
        exact absurd hxy (UInt8.lt_irrefl _)
    · by_cases hyx : y < x
      · rw [if_neg hxy, if_pos hyx, List.cons.injEq]
        constructor
        · intro h
          omega
        · rintro ⟨rfl, -⟩
          exact absurd hyx (UInt8.lt_irrefl _)
      · have hxy' : x = y := UInt8.le_antisymm (UInt8.not_lt.mp hyx) (UInt8.not_lt.mp hxy)
        rw [if_neg hxy, if_neg hyx, memcmpBytes_eq_zero_iff (by simpa using hlen), hxy']
        simp
  | [], [], _ => by simp [memcmpBytes]
  | [], _ :: _, hlen | _ :: _, [], hlen => by simp at hlen

theorem spenderOrder_swap (s1 s2 : Spender) : spenderOrder s2 s1 = -spenderOrder s1 s2 := by
  simp only [spenderOrder, uint256Compare, memcmpBytes_swap s1.hashOutputs.toList,
    memcmpBytes_swap s1.hashPrevOutputs.toList]
  split_ifs <;> omega

/-- Two spenders are tied exactly when their `hashOutputs` and `hashPrevOutputs` agree. -/
theorem spenderOrder_eq_zero_iff {s1 s2 : Spender} :
    spenderOrder s1 s2 = 0 ↔
      s1.hashOutputs = s2.hashOutputs ∧ s1.hashPrevOutputs = s2.hashPrevOutputs := by
  have hout := memcmpBytes_eq_zero_iff (a := s1.hashOutputs.toList) (b := s2.hashOutputs.toList)
    (by simp)
  have hprev := memcmpBytes_eq_zero_iff (a := s1.hashPrevOutputs.toList)
    (b := s2.hashPrevOutputs.toList) (by simp)
  rw [spenderOrder, uint256Compare, uint256Compare, ← Vector.toList_inj, ← Vector.toList_inj,
    ← hout, ← hprev]
  split_ifs with h <;> simp [h]

/-- Untied spenders sort the same in either order. -/
theorem sortSpenders_comm {s1 s2 : Spender} (h : spenderOrder s1 s2 ≠ 0) :
    sortSpenders s2 s1 = sortSpenders s1 s2 := by
  have hswap := spenderOrder_swap s1 s2
  unfold sortSpenders
  split_ifs with h21 h12 h12 <;> first | rfl | omega

/-- The sort leaves the spenders in the order `validate` checks. -/
theorem sortSpenders_canonical (s1 s2 : Spender) :
    ¬spenderOrder (sortSpenders s1 s2).1 (sortSpenders s1 s2).2 > 0 := by
  have hswap := spenderOrder_swap s1 s2
  unfold sortSpenders
  split_ifs with h <;> dsimp only <;> omega

/-- A tie survives the sort. -/
theorem spenderOrder_sortSpenders (s1 s2 : Spender) :
    spenderOrder (sortSpenders s1 s2).1 (sortSpenders s1 s2).2 = 0 ↔ spenderOrder s1 s2 = 0 := by
  have hswap := spenderOrder_swap s1 s2
  unfold sortSpenders
  split_ifs with h <;> dsimp only <;> omega

/-! ### What `create` returns -/

theorem findInput_prevout {tx : Transaction} {prevout : OutPoint} {i : Fin tx.vin.length}
    (h : findInput tx prevout = some i) : (tx.vin.get i).prevout = prevout := by
  have := (List.findFinIdx?_eq_some_iff.mp h).1
  simpa using this

/-- A successful `create`: different transactions, each spending the outpoint with a signature
the getter accepts, and a proof of their sorted spenders that passes `checkSanityOrThrow`. -/
theorem create_eq_ok {crypto : Crypto} {getHash : Transaction → Vector UInt8 32}
    {extractSignature : Transaction → ℕ → TxOut → Except DSProofException ValType}
    {tx1 tx2 : Transaction} {prevout : OutPoint} {txOut : Option TxOut} {p : DoubleSpendProof} :
    create crypto getHash extractSignature tx1 tx2 prevout txOut = .ok p ↔
      getHash tx1 ≠ getHash tx2 ∧ ∃ i1 i2 sig1 sig2, findInput tx1 prevout = some i1 ∧
        findInput tx2 prevout = some i2 ∧
        getP2PKHSignature extractSignature txOut tx1 i1 (tx1.vin.get i1) = .ok sig1 ∧
        getP2PKHSignature extractSignature txOut tx2 i2 (tx2.vin.get i2) = .ok sig2 ∧
        p = ofSpenders crypto prevout (sortSpenders (fillSpender crypto tx1 i1 (tx1.vin.get i1) sig1)
          (fillSpender crypto tx2 i2 (tx2.vin.get i2) sig2)) ∧
        p.checkSanityOrThrow = .ok () := by
  rw [create]
  -- every check before the signatures either throws or passes
  by_cases hh : getHash tx1 = getHash tx2
  · simp [hh]
  cases h1 : findInput tx1 prevout with
  | none => simp [hh]
  | some i1 =>
  cases h2 : findInput tx2 prevout with
  | none => simp [hh]
  | some i2 =>
  simp only [hh, if_false, Except.bind_eq_ok]
  rw [findInput_prevout h1]
  simp only [Option.some.injEq, Except.pure_eq_ok, Except.ok.injEq, ne_eq, hh,
    not_false_eq_true, true_and]
  constructor
  · rintro ⟨sig1, hs1, sig2, hs2, u, hu, rfl⟩
    exact ⟨i1, i2, sig1, sig2, rfl, rfl, hs1, hs2, rfl, hu⟩
  · rintro ⟨_, _, sig1, sig2, rfl, rfl, hs1, hs2, rfl, hu⟩
    exact ⟨sig1, hs1, sig2, hs2, (), hu, rfl⟩

theorem create_reorder {crypto : Crypto} {getHash : Transaction → Vector UInt8 32}
    {extractSignature : Transaction → ℕ → TxOut → Except DSProofException ValType}
    {tx1 tx2 : Transaction} {prevout : OutPoint} {txOut : Option TxOut} {p : DoubleSpendProof}
    (h : create crypto getHash extractSignature tx1 tx2 prevout txOut = .ok p) :
    p.isCanonical = true ∧
      (p.spender1.hashOutputs ≠ p.spender2.hashOutputs ∨
          p.spender1.hashPrevOutputs ≠ p.spender2.hashPrevOutputs →
        create crypto getHash extractSignature tx2 tx1 prevout txOut = .ok p) := by
  obtain ⟨hh, i1, i2, sig1, sig2, h1, h2, hs1, hs2, rfl, hsane⟩ := create_eq_ok.mp h
  refine ⟨by simp [isCanonical, ofSpenders, sortSpenders_canonical], fun hne => ?_⟩
  -- untied spenders: the other order sorts to the same proof
  have htie : spenderOrder (fillSpender crypto tx1 i1 (tx1.vin.get i1) sig1)
      (fillSpender crypto tx2 i2 (tx2.vin.get i2) sig2) ≠ 0 := by
    rw [ne_eq, ← spenderOrder_sortSpenders, spenderOrder_eq_zero_iff, not_and_or]
    exact hne
  rw [create_eq_ok]
  refine ⟨Ne.symm hh, i2, i1, sig2, sig1, h2, h1, hs2, hs1, ?_, hsane⟩
  rw [sortSpenders_comm htie]

/-! ### Two spends with tied digests -/

/-- Stand-ins for the hash functions, enough to run `create`: SHA-256 of `data` is its first 32
bytes, each plus its length. -/
def exampleCrypto : Crypto where
  ripemd160 _ := Vector.replicate 20 0
  sha1 _ := Vector.replicate 20 0
  sha256 data := Vector.ofFn fun i => data.getD i.val 0 + UInt8.ofNat data.length
  checkLowS _ := true

/-- A transaction hash that tells apart the transactions below, by their lock times. -/
def exampleTxHash (tx : Transaction) : Vector UInt8 32 :=
  Vector.replicate 32 (UInt8.ofNat tx.nLockTime.toNat)

/-- The outpoint both transactions spend. -/
def examplePrevout : OutPoint := ⟨Vector.replicate 32 7, 0⟩

/-- A spend of `examplePrevout` signed `SIGHASH_ALL | SIGHASH_FORKID`, paying `value` to an
empty script, with lock time `nLockTime`. -/
def exampleSpend (value : Int64) (nLockTime : UInt32) : Transaction :=
  ⟨1, [⟨examplePrevout, [2, 0x30, 0x41], 0xffffffff⟩], [⟨value, []⟩], nLockTime⟩

/-- The production signature getter, unused without an output. -/
def exampleExtractSignature : Transaction → ℕ → TxOut → Except DSProofException ValType :=
  fun _ _ _ => throw (.runtimeError "TxOut destination is not P2PKH")

set_option maxRecDepth 20000 in
/-- Spends to different outputs: the proof is the same in either order. -/
theorem create_reorder_untied :
    ∃ p, create exampleCrypto exampleTxHash exampleExtractSignature (exampleSpend 100 0)
        (exampleSpend 90 1) examplePrevout none = .ok p ∧
      p.spender1.hashOutputs ≠ p.spender2.hashOutputs ∧ p.isCanonical = true ∧
      (p.spender1.hashOutputs ≠ p.spender2.hashOutputs ∨
          p.spender1.hashPrevOutputs ≠ p.spender2.hashPrevOutputs →
        create exampleCrypto exampleTxHash exampleExtractSignature (exampleSpend 90 1)
          (exampleSpend 100 0) examplePrevout none = .ok p) :=
  ⟨_, rfl, by decide, create_reorder rfl⟩

set_option maxRecDepth 20000 in
/-- Spends of the same outpoint to the same output with different lock times: their digests tie,
and the two orders give different proofs. -/
theorem create_argument_order :
    ∃ p1 p2, create exampleCrypto exampleTxHash exampleExtractSignature (exampleSpend 100 0)
        (exampleSpend 100 1) examplePrevout none = .ok p1 ∧
      create exampleCrypto exampleTxHash exampleExtractSignature (exampleSpend 100 1)
        (exampleSpend 100 0) examplePrevout none = .ok p2 ∧ p1 ≠ p2 :=
  ⟨_, _, rfl, rfl, by decide⟩

end DoubleSpendProof

end BitcoinCash
