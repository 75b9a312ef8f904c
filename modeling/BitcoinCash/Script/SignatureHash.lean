import BitcoinCash.Script.Push
import BitcoinCash.Script.LockTime
import BitcoinCash.Serialize.CompactSize

/-!
# Signature hashes

`SignatureHash` (`script/interpreter.cpp`) is the digest a transaction signature signs. With
`SIGHASH_FORKID` in the signature's hash type and `SCRIPT_ENABLE_SIGHASH_FORKID` in the flags it
is the BIP143-style digest: the version, the digests of the prevouts, the sequences and the
outputs (each left zero as the hash type asks), the signed input with the script code and the
amount, the lock time and the hash type. Otherwise it is the legacy digest of the transaction
as `CTransactionSignatureSerializer` writes it, with the other inputs' scripts blanked and the
script code stripped of its `OP_CODESEPARATOR`s; `SIGHASH_SINGLE` without a matching output
signs the number one instead.

Everything is written into a `CHashWriter`, whose digest is SHA-256 applied twice. The script
code is written by `SerializeScriptCode` in two passes: one counts the separators to write the
size, the other writes the gaps between them. For a script that decodes to its end, the two
agree: the size is followed by exactly the script's instructions other than `OP_CODESEPARATOR`,
push data kept whole (`serializeScriptCode_removes_codeSeparators`).
-/

namespace BitcoinCash

/-! ### Serialization into a `CHashWriter` -/

/-- `Serialize(s, uint32_t)`. -/
def serializeUInt32 (x : UInt32) : List UInt8 := serWritedata32 x.toNat

/-- `Serialize(s, int32_t)`: the same four bytes as the `uint32_t` of the same bits. -/
def serializeInt32 (x : Int32) : List UInt8 := serWritedata32 x.toUInt32.toNat

/-- `Amount::Serialize`: the `int64_t` number of satoshis. -/
def serializeAmount (x : Int64) : List UInt8 := serWritedata64 x.toUInt64.toNat

/-- `uint256::Serialize`: its 32 bytes. -/
def serializeUInt256 (x : Vector UInt8 32) : List UInt8 := x.toList

/-- `COutPoint::SERIALIZE_METHODS`. -/
def serializeOutPoint (o : OutPoint) : List UInt8 := serializeUInt256 o.txid ++ serializeUInt32 o.n

/-- `Serialize(s, const CScriptBase &)`, a `prevector` of bytes: its size, then its bytes. -/
def serializeScript (script : List UInt8) : List UInt8 := writeCompactSize script.length ++ script

/-- `CTxOut::SERIALIZE_METHODS`. -/
def serializeTxOut (o : TxOut) : List UInt8 := serializeAmount o.nValue ++ serializeScript o.scriptPubKey

/-- `CHashWriter::GetHash`: SHA-256 of SHA-256 of the bytes written. -/
def hashWriterGetHash (crypto : Crypto) (data : List UInt8) : Vector UInt8 32 :=
  crypto.sha256 (crypto.sha256 data).toList

/-- A default-constructed `uint256`: zero. -/
def uint256Zero : Vector UInt8 32 := Vector.replicate 32 0

/-- `uint256S("00…01")`, the number one, stored little-endian. -/
def uint256One : Vector UInt8 32 := Vector.ofFn fun i => if i.val = 0 then 1 else 0

/-! ### Sighash types -/

/-- `SIGHASH_ALL`. -/
def sighashAll : UInt32 := 1

/-- `SIGHASH_NONE`. -/
def sighashNone : UInt32 := 2

/-- `SIGHASH_SINGLE`. -/
def sighashSingle : UInt32 := 3

/-- `SigHashType::getBaseType`: the low five bits. -/
def sigHashBaseType (sigHash : UInt32) : UInt32 := sigHash &&& 0x1f

/-- `SigHashType::hasAnyoneCanPay`. -/
def sigHashHasAnyoneCanPay (sigHash : UInt32) : Bool := sigHash &&& sighashAnyonecanpay != 0

/-! ### `SerializeScriptCode` -/

set_option linter.unusedVariables false in
/-- The first loop of `SerializeScriptCode`: the `OP_CODESEPARATOR`s among the instructions
`GetOp` decodes before the script ends or stops decoding. -/
def countCodeSeparators (pc : List UInt8) : ℕ :=
  match h : getScriptOp pc with
  | none => 0
  | some (opcode, _, rest) =>
    (if opcode = opCodeSeparator then 1 else 0) + countCodeSeparators rest
termination_by pc.length
decreasing_by exact getScriptOp_length_lt h

/-- Where a `GetScriptOp` that fails leaves `pc`: past the opcode, and past the size field when
that is complete; at the end of an empty script. -/
def getScriptOpFailRest : List UInt8 → List UInt8
  | [] => []
  | opcode :: pc =>
    match readPushSize opcode pc with
    | none => pc
    | some (_, after) => after

set_option linter.unusedVariables false in
/-- The second loop of `SerializeScriptCode` and the write after it, from the instruction at
`it`, the bytes not yet written starting at `itBegin`: at each `OP_CODESEPARATOR` write the bytes
before it, then after the loop the bytes up to where `GetOp` stopped. -/
def writeScriptCode (itBegin it : List UInt8) : List UInt8 :=
  match h : getScriptOp it with
  | none =>
    if itBegin ≠ [] then itBegin.take (itBegin.length - (getScriptOpFailRest it).length) else []
  | some (opcode, _, rest) =>
    if opcode = opCodeSeparator then
      itBegin.take (itBegin.length - rest.length - 1) ++ writeScriptCode rest rest
    else writeScriptCode itBegin rest
termination_by it.length
decreasing_by all_goals exact getScriptOp_length_lt h

/-- `CTransactionSignatureSerializer::SerializeScriptCode`: the size without the separators,
then the script's bytes without them. -/
def serializeScriptCode (scriptCode : List UInt8) : List UInt8 :=
  writeCompactSize (scriptCode.length - countCodeSeparators scriptCode) ++
    writeScriptCode scriptCode scriptCode

/-! ### The legacy digest -/

section Legacy

variable (txTo : Transaction) (scriptCode : List UInt8) (nIn : ℕ) (sigHashType : UInt32)

/-- `CTransactionSignatureSerializer::SerializeInput`: under `ANYONECANPAY` only the signed
input; the other inputs with an empty script, and with sequence zero under `SINGLE` and
`NONE`. -/
def serializeInput (nInput : ℕ) : List UInt8 :=
  let nInput := if sigHashHasAnyoneCanPay sigHashType then nIn else nInput
  match txTo.vin[nInput]? with
  | none => []
  | some txin =>
    serializeOutPoint txin.prevout ++
      (if nInput ≠ nIn then serializeScript [] else serializeScriptCode scriptCode) ++
      (if nInput ≠ nIn ∧ (sigHashBaseType sigHashType = sighashSingle ∨
          sigHashBaseType sigHashType = sighashNone) then serWritedata32 0
        else serializeUInt32 txin.nSequence)

/-- `CTransactionSignatureSerializer::SerializeOutput`: under `SINGLE` a null output
(`nValue = -SATOSHI`, empty script) at every index but the signed input's. -/
def serializeOutput (nOutput : ℕ) : List UInt8 :=
  if sigHashBaseType sigHashType = sighashSingle ∧ nOutput ≠ nIn then
    serializeTxOut ⟨-1, []⟩
  else
    match txTo.vout[nOutput]? with
    | none => []
    | some txout => serializeTxOut txout

/-- `CTransactionSignatureSerializer::Serialize`. The callers keep the indices in range:
`nIn` is an input, and under `SINGLE` an output. -/
def serializeTxSig : List UInt8 :=
  let nInputs := if sigHashHasAnyoneCanPay sigHashType then 1 else txTo.vin.length
  let nOutputs :=
    if sigHashBaseType sigHashType = sighashNone then 0
    else if sigHashBaseType sigHashType = sighashSingle then nIn + 1
    else txTo.vout.length
  serializeInt32 txTo.nVersion ++
    writeCompactSize nInputs ++
    (List.range nInputs).flatMap (serializeInput txTo scriptCode nIn sigHashType) ++
    writeCompactSize nOutputs ++
    (List.range nOutputs).flatMap (serializeOutput txTo nIn sigHashType) ++
    serializeUInt32 txTo.nLockTime

end Legacy

/-! ### `SignatureHash` -/

/-- `GetPrevoutHash`. -/
def getPrevoutHash (crypto : Crypto) (txTo : Transaction) : Vector UInt8 32 :=
  hashWriterGetHash crypto (txTo.vin.flatMap fun txin => serializeOutPoint txin.prevout)

/-- `GetSequenceHash`. -/
def getSequenceHash (crypto : Crypto) (txTo : Transaction) : Vector UInt8 32 :=
  hashWriterGetHash crypto (txTo.vin.flatMap fun txin => serializeUInt32 txin.nSequence)

/-- `GetOutputsHash`. -/
def getOutputsHash (crypto : Crypto) (txTo : Transaction) : Vector UInt8 32 :=
  hashWriterGetHash crypto (txTo.vout.flatMap serializeTxOut)

/-- `PrecomputedTransactionData`: the three digests of a transaction that every input's
signature hash reads. -/
structure PrecomputedTransactionData where
  hashPrevouts : Vector UInt8 32
  hashSequence : Vector UInt8 32
  hashOutputs : Vector UInt8 32

/-- `PrecomputedTransactionData(txTo)`. -/
def PrecomputedTransactionData.ofTx (crypto : Crypto) (txTo : Transaction) :
    PrecomputedTransactionData :=
  ⟨getPrevoutHash crypto txTo, getSequenceHash crypto txTo, getOutputsHash crypto txTo⟩

section SignatureHash

variable (crypto : Crypto) (scriptCode : List UInt8) (txTo : Transaction) (nIn : ℕ)
  (hIn : nIn < txTo.vin.length) (sigHashType : UInt32) (amount : Int64)
  (cache : Option PrecomputedTransactionData)

/-- The `hashPrevouts` of the `FORKID` digest: zero under `ANYONECANPAY`. -/
def forkidHashPrevouts : Vector UInt8 32 :=
  if !sigHashHasAnyoneCanPay sigHashType then
    match cache with
    | some c => c.hashPrevouts
    | none => getPrevoutHash crypto txTo
  else uint256Zero

/-- The `hashSequence` of the `FORKID` digest: zero under `ANYONECANPAY`, `SINGLE` and
`NONE`. -/
def forkidHashSequence : Vector UInt8 32 :=
  if !sigHashHasAnyoneCanPay sigHashType ∧ sigHashBaseType sigHashType ≠ sighashSingle ∧
      sigHashBaseType sigHashType ≠ sighashNone then
    match cache with
    | some c => c.hashSequence
    | none => getSequenceHash crypto txTo
  else uint256Zero

/-- The `hashOutputs` of the `FORKID` digest: all outputs, or under `SINGLE` the signed
input's output if there is one, or zero. -/
def forkidHashOutputs : Vector UInt8 32 :=
  if sigHashBaseType sigHashType ≠ sighashSingle ∧ sigHashBaseType sigHashType ≠ sighashNone then
    match cache with
    | some c => c.hashOutputs
    | none => getOutputsHash crypto txTo
  else if sigHashBaseType sigHashType = sighashSingle then
    match txTo.vout[nIn]? with
    | some txout => hashWriterGetHash crypto (serializeTxOut txout)
    | none => uint256Zero
  else uint256Zero

/-- The bytes the `FORKID` branch of `SignatureHash` writes. -/
def forkidPreimage : List UInt8 :=
  serializeInt32 txTo.nVersion ++
    serializeUInt256 (forkidHashPrevouts crypto txTo sigHashType cache) ++
    serializeUInt256 (forkidHashSequence crypto txTo sigHashType cache) ++
    serializeOutPoint (txTo.vin.get ⟨nIn, hIn⟩).prevout ++
    serializeScript scriptCode ++
    serializeAmount amount ++
    serializeUInt32 (txTo.vin.get ⟨nIn, hIn⟩).nSequence ++
    serializeUInt256 (forkidHashOutputs crypto txTo nIn sigHashType cache) ++
    serializeUInt32 txTo.nLockTime ++
    serializeUInt32 sigHashType

/-- `SignatureHash(scriptCode, txTo, nIn, sigHashType, amount, cache, flags)`; its
`assert(nIn < txTo.vin.size())` is the hypothesis `hIn`. -/
def signatureHash (flags : UInt32) : Vector UInt8 32 :=
  if sigHashHasFork sigHashType ∧ hasFlag flags scriptEnableSighashForkid then
    hashWriterGetHash crypto (forkidPreimage crypto scriptCode txTo nIn hIn sigHashType amount cache)
  else if sigHashBaseType sigHashType = sighashSingle ∧ txTo.vout.length ≤ nIn then uint256One
  else
    hashWriterGetHash crypto
      (serializeTxSig txTo scriptCode nIn sigHashType ++ serializeUInt32 sigHashType)

/-- The digests `PrecomputedTransactionData` holds are those `SignatureHash` computes without
it. -/
theorem signatureHash_ofTx (flags : UInt32) :
    signatureHash crypto scriptCode txTo nIn hIn sigHashType amount
        (some (.ofTx crypto txTo)) flags =
      signatureHash crypto scriptCode txTo nIn hIn sigHashType amount none flags := rfl

end SignatureHash

/-! ### Signature checks -/

/-- The secp256k1 operations of `CPubKey` that the signature checkers call. -/
structure PubKeyOps where
  /-- `CPubKey(vchPubKey).IsValid()`. -/
  isValid : ValType → Bool
  /-- `CPubKey(vchPubKey).VerifyECDSA(hash, vchSig)`. -/
  verifyECDSA : ValType → Vector UInt8 32 → ValType → Bool
  /-- `CPubKey(vchPubKey).VerifySchnorr(hash, vchSig)`. -/
  verifySchnorr : ValType → Vector UInt8 32 → ValType → Bool

/-- `BaseSignatureChecker::VerifySignature`: a 64-byte signature is a Schnorr signature, any
other an ECDSA one. -/
def verifySignature (pk : PubKeyOps) (vchSig vchPubKey : ValType) (sighash : Vector UInt8 32) :
    Bool :=
  if vchSig.length = 64 then pk.verifySchnorr vchPubKey sighash vchSig
  else pk.verifyECDSA vchPubKey sighash vchSig

/-- `GenericTransactionSignatureChecker::CheckSig`, with the checker's `amount` and `txdata`:
the last byte of the signature is its hash type, the rest is verified against the signature
hash of the checker's input. -/
def TransactionChecker.checkSig (c : TransactionChecker) (crypto : Crypto) (pk : PubKeyOps)
    (amount : Int64) (txdata : Option PrecomputedTransactionData) (vchSigIn vchPubKey : ValType)
    (scriptCode : List UInt8) (flags : UInt32) : Bool :=
  if !pk.isValid vchPubKey then false
  else if vchSigIn = [] then false
  else
    let sigHashType := getHashType vchSigIn
    let vchSig := vchSigIn.dropLast
    verifySignature pk vchSig vchPubKey
      (signatureHash crypto scriptCode c.txTo c.nIn c.nIn_lt sigHashType amount txdata flags)

/-! ### The script code written

`scriptChunks` splits a script that decodes to its end into the bytes of its instructions;
`SerializeScriptCode` writes the chunks whose opcode is not `OP_CODESEPARATOR`. -/

set_option linter.unusedVariables false in
/-- The bytes of each instruction of a script that `GetOp` decodes to its end, in order. -/
def scriptChunks (pc : List UInt8) : Option (List (List UInt8)) :=
  match h : getScriptOp pc with
  | none => if pc.isEmpty then some [] else none
  | some (_, _, rest) => (scriptChunks rest).map (List.cons (pc.take (pc.length - rest.length)))
termination_by pc.length
decreasing_by exact getScriptOp_length_lt h

/-- The bytes of an instruction whose opcode is not `OP_CODESEPARATOR`. -/
def notCodeSeparator (chunk : List UInt8) : Bool := chunk.head? != some opCodeSeparator

/-- An instruction is its opcode and then the bytes up to what is left after it. -/
theorem getScriptOp_chunk {pc rest : List UInt8} {opcode : UInt8} {data : ValType}
    (h : getScriptOp pc = some (opcode, data, rest)) :
    ∃ body, pc.take (pc.length - rest.length) = opcode :: body ∧ pc = opcode :: body ++ rest := by
  obtain ⟨field, rfl⟩ := getScriptOp_eq_some h
  refine ⟨field ++ data, ?_, by simp⟩
  rw [show (opcode :: (field ++ data ++ rest)).length - rest.length = (field ++ data).length + 1 by
    simp; omega, List.take_succ_cons, List.take_left' rfl]

/-- `OP_CODESEPARATOR` is one byte. -/
theorem getScriptOp_codeSeparator {pc rest : List UInt8} {data : ValType}
    (h : getScriptOp pc = some (opCodeSeparator, data, rest)) : pc = opCodeSeparator :: rest := by
  cases pc with
  | nil => simp [getScriptOp] at h
  | cons b bs =>
    have hgt : ¬b ≤ opPushData4 := by
      intro hb
      simp only [getScriptOp, if_pos hb] at h
      split at h
      · cases h
      · split_ifs at h
        simp only [Option.some.injEq, Prod.mk.injEq] at h
        rw [h.1] at hb
        exact absurd hb (by decide)
    simp only [getScriptOp, if_neg hgt, Option.some.injEq, Prod.mk.injEq] at h
    rw [h.1, h.2.2]

theorem scriptChunks_of_getScriptOp {pc rest : List UInt8} {opcode : UInt8} {data : ValType}
    (h : getScriptOp pc = some (opcode, data, rest)) :
    scriptChunks pc = (scriptChunks rest).map (List.cons (pc.take (pc.length - rest.length))) := by
  rw [scriptChunks]
  split <;> simp_all

theorem scriptChunks_of_none {pc : List UInt8} (h : getScriptOp pc = none) :
    scriptChunks pc = if pc.isEmpty then some [] else none := by
  rw [scriptChunks]
  split <;> simp_all

/-- A script that decodes to its end splits into chunks, whose bytes are the script's. -/
theorem scriptChunks_of_getScriptOps {pc : List UInt8} {ops : List (UInt8 × ValType)}
    (h : getScriptOps pc = some ops) : ∃ chunks, scriptChunks pc = some chunks ∧
      pc = chunks.flatten := by
  fun_induction getScriptOps pc generalizing ops with
  | case1 pc hnone hempty =>
    rw [List.isEmpty_iff.mp hempty]
    exact ⟨[], by rw [scriptChunks_of_none (by simp [getScriptOp])]; rfl, rfl⟩
  | case2 pc hnone hempty => simp at h
  | case3 pc opcode data rest hop ih =>
    obtain ⟨ops', hops'⟩ : ∃ ops', getScriptOps rest = some ops' := by
      cases hrest : getScriptOps rest with
      | none => simp [hrest] at h
      | some ops' => exact ⟨ops', rfl⟩
    obtain ⟨chunks, hchunks, hflat⟩ := ih hops'
    obtain ⟨body, hbody, hpc⟩ := getScriptOp_chunk hop
    refine ⟨_ :: chunks, by rw [scriptChunks_of_getScriptOp hop, hchunks]; rfl, ?_⟩
    rw [List.flatten_cons, hbody, ← hflat]
    exact hpc

theorem countCodeSeparators_of_none {pc : List UInt8} (h : getScriptOp pc = none) :
    countCodeSeparators pc = 0 := by
  rw [countCodeSeparators]
  split <;> simp_all

theorem countCodeSeparators_of_getScriptOp {pc rest : List UInt8} {opcode : UInt8}
    {data : ValType} (h : getScriptOp pc = some (opcode, data, rest)) :
    countCodeSeparators pc = (if opcode = opCodeSeparator then 1 else 0) + countCodeSeparators rest := by
  rw [countCodeSeparators]
  split <;> simp_all

/-- The first loop counts the separator chunks, each one byte: the size written is the number
of bytes in the other chunks. -/
theorem length_filter_chunks {pc : List UInt8} {chunks : List (List UInt8)}
    (h : scriptChunks pc = some chunks) :
    (chunks.filter notCodeSeparator).flatten.length + countCodeSeparators pc = pc.length := by
  induction pc using scriptChunks.induct generalizing chunks with
  | case1 pc hnone hempty =>
    rw [scriptChunks_of_none hnone, if_pos hempty, Option.some.injEq] at h
    rw [← h, countCodeSeparators_of_none hnone, List.isEmpty_iff.mp hempty]
    rfl
  | case2 pc hnone hempty => simp [scriptChunks_of_none hnone, hempty] at h
  | case3 pc opcode data rest hop ih =>
    rw [scriptChunks_of_getScriptOp hop] at h
    obtain ⟨chunks', hchunks', rfl⟩ := Option.map_eq_some_iff.mp h
    have ih' := ih hchunks'
    rw [countCodeSeparators_of_getScriptOp hop]
    by_cases hsep : opcode = opCodeSeparator
    · -- a separator chunk is the one byte `OP_CODESEPARATOR`, dropped and counted
      subst hsep
      have hpc := getScriptOp_codeSeparator hop
      rw [if_pos rfl, List.filter_cons_of_neg (by rw [hpc]; simp [notCodeSeparator]), hpc]
      simp only [List.length_cons]
      omega
    · obtain ⟨body, hbody, hpc⟩ := getScriptOp_chunk hop
      rw [if_neg hsep, hbody, List.filter_cons_of_pos (by simp [notCodeSeparator, hsep]),
        List.flatten_cons, List.length_append, hpc]
      simp only [List.length_cons, List.length_append]
      omega

/-- The second loop writes the pending bytes `pre` and then the chunks of `it` that are not
separators. -/
theorem writeScriptCode_eq : ∀ (itBegin it pre : List UInt8) (chunks : List (List UInt8)),
    itBegin = pre ++ it → scriptChunks it = some chunks →
    writeScriptCode itBegin it = pre ++ (chunks.filter notCodeSeparator).flatten := by
  intro itBegin it
  fun_induction writeScriptCode itBegin it with
  | case1 itBegin it hnone hne =>
    -- the loop stops only at the end: everything pending is written
    intro pre chunks hbegin h
    rw [scriptChunks_of_none hnone] at h
    split_ifs at h with hempty
    rw [Option.some.injEq] at h
    rw [List.isEmpty_iff.mp hempty] at hbegin ⊢
    rw [← h, hbegin, List.append_nil]
    simp [getScriptOpFailRest]
  | case2 itBegin it hnone hne =>
    intro pre chunks hbegin h
    rw [scriptChunks_of_none hnone] at h
    split_ifs at h with hempty
    rw [Option.some.injEq] at h
    rw [not_not.mp hne, List.isEmpty_iff.mp hempty, List.append_nil] at hbegin
    rw [← h, ← hbegin]
    rfl
  | case3 itBegin it data rest hop ih =>
    -- the bytes before the separator are written, then the loop starts afresh after it
    intro pre chunks hbegin h
    have hit := getScriptOp_codeSeparator hop
    rw [scriptChunks_of_getScriptOp hop] at h
    obtain ⟨chunks', hchunks', rfl⟩ := Option.map_eq_some_iff.mp h
    rw [ih [] chunks' rfl hchunks', hit, List.filter_cons_of_neg (by simp [notCodeSeparator]),
      hbegin, hit, List.nil_append]
    congr 1
    rw [List.take_left']
    simp only [List.length_append, List.length_cons]
    omega
  | case4 itBegin it opcode data rest hop hsep ih =>
    intro pre chunks hbegin h
    obtain ⟨body, hbody, hit⟩ := getScriptOp_chunk hop
    rw [scriptChunks_of_getScriptOp hop] at h
    obtain ⟨chunks', hchunks', rfl⟩ := Option.map_eq_some_iff.mp h
    rw [ih (pre ++ opcode :: body) chunks' (by rw [hbegin, hit, List.append_assoc]) hchunks',
      hbody, List.filter_cons_of_pos (by simp [notCodeSeparator, hsep]), List.flatten_cons,
      List.append_assoc]

theorem serializeScriptCode_removes_codeSeparators {scriptCode : List UInt8}
    {ops : List (UInt8 × ValType)} (h : getScriptOps scriptCode = some ops) :
    ∃ chunks, scriptChunks scriptCode = some chunks ∧ scriptCode = chunks.flatten ∧
      serializeScriptCode scriptCode =
        writeCompactSize (chunks.filter notCodeSeparator).flatten.length ++
          (chunks.filter notCodeSeparator).flatten := by
  obtain ⟨chunks, hchunks, hflat⟩ := scriptChunks_of_getScriptOps h
  refine ⟨chunks, hchunks, hflat, ?_⟩
  have hlen := length_filter_chunks hchunks
  rw [serializeScriptCode, writeScriptCode_eq scriptCode scriptCode [] chunks rfl hchunks,
    List.nil_append]
  congr 2
  omega

/-- A push of the byte `0xab` between two separators: the separators are dropped, the push is
kept. -/
theorem serializeScriptCode_push_between_separators :
    getScriptOps [opCodeSeparator, 1, 0xab, opCodeSeparator, opCheckSig] =
        some [(opCodeSeparator, []), (1, [0xab]), (opCodeSeparator, []), (opCheckSig, [])] ∧
      ∃ chunks, scriptChunks [opCodeSeparator, 1, 0xab, opCodeSeparator, opCheckSig] = some chunks ∧
        [opCodeSeparator, 1, 0xab, opCodeSeparator, opCheckSig] = chunks.flatten ∧
        serializeScriptCode [opCodeSeparator, 1, 0xab, opCodeSeparator, opCheckSig] =
          writeCompactSize (chunks.filter notCodeSeparator).flatten.length ++
            (chunks.filter notCodeSeparator).flatten := by
  have h : getScriptOps [opCodeSeparator, 1, 0xab, opCodeSeparator, opCheckSig] =
      some [(opCodeSeparator, []), (1, [0xab]), (opCodeSeparator, []), (opCheckSig, [])] := by
    rw [@getScriptOps_of_getScriptOp _ [1, 0xab, opCodeSeparator, opCheckSig] opCodeSeparator [] rfl,
      @getScriptOps_of_getScriptOp _ [opCodeSeparator, opCheckSig] 1 [0xab] rfl,
      @getScriptOps_of_getScriptOp _ [opCheckSig] opCodeSeparator [] rfl,
      @getScriptOps_of_getScriptOp _ [] opCheckSig [] rfl, getScriptOps_nil]
    rfl
  exact ⟨h, serializeScriptCode_removes_codeSeparators h⟩

end BitcoinCash
