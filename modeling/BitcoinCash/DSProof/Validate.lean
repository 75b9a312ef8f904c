import BitcoinCash.DSProof.Create

/-!
# Double-spend proofs: the signature checker

`DoubleSpendProof::validate` (`dsproof_validate.cpp`) checks each spender's signature with a
`DSPSignatureChecker`, whose `CheckSig` rebuilds the digest the signature signed from the
spender's fields, the proof's outpoint, the script code and the amount of the spent coin, in the
order of the `FORKID` branch of `SignatureHash`, and whose lock-time checks pass.
-/

namespace BitcoinCash

namespace DoubleSpendProof

/-- The bytes `DSPSignatureChecker::CheckSig` writes for the spender `spender` of a proof of
`outPoint`: the hash type is the last byte of the spender's push, as an `int32_t`. -/
def dspPreimage (outPoint : OutPoint) (spender : Spender) (amount : Int64)
    (scriptCode : List UInt8) : List UInt8 :=
  serializeUInt32 spender.txVersion ++ serializeUInt256 spender.hashPrevOutputs ++
    serializeUInt256 spender.hashSequence ++ serializeOutPoint outPoint ++
    serializeScript scriptCode ++ serializeAmount amount ++ serializeUInt32 spender.outSequence ++
    serializeUInt256 spender.hashOutputs ++ serializeUInt32 spender.lockTime ++
    serializeInt32 (Int32.ofNat ((spender.pushData.headD []).getLastD 0).toNat)

/-- `DSPSignatureChecker`: the proof, the spender whose signature it checks and the amount of
the coin the proof's outpoint names. -/
structure DSPSignatureChecker where
  proof : DoubleSpendProof
  spender : Spender
  amount : Int64

/-- `DSPSignatureChecker::CheckSig`: the flags are not read. -/
def DSPSignatureChecker.checkSig (c : DSPSignatureChecker) (crypto : Crypto) (pk : PubKeyOps)
    (vchSigIn vchPubKey : ValType) (scriptCode : List UInt8) (_flags : UInt32) : Bool :=
  if !pk.isValid vchPubKey then false
  else if vchSigIn = [] then false
  else
    -- drop the hash type byte tacked on to the end of the signature
    let vchSig := vchSigIn.dropLast
    let sighash := hashWriterGetHash crypto (dspPreimage c.proof.outPoint c.spender c.amount scriptCode)
    if vchSig.length = 64 then pk.verifySchnorr vchPubKey sighash vchSig
    else pk.verifyECDSA vchPubKey sighash vchSig

/-- The checker `validate` passes to `VerifyScript`: its lock-time checks pass. -/
def DSPSignatureChecker.toBase (c : DSPSignatureChecker) (crypto : Crypto) (pk : PubKeyOps) :
    BaseSignatureChecker where
  verifySignature := verifySignature pk
  checkSig := c.checkSig crypto pk
  checkLockTime _ := true
  checkSequence _ := true

end DoubleSpendProof

end BitcoinCash
