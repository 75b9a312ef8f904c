import BitcoinCash.Script.Script

/-!
# Signature and public key encodings, and multisig bitfields

The encoding checks of `script/sigencoding.cpp`, the sighash byte of `script/sighashtype.h`,
`DecodeBitfield` of `script/bitfield.cpp` and `countBits` of `util/bitmanip.h`. Each check
either passes or names the `ScriptError` it sets, so it is modelled in `Except ScriptError`.

`CPubKey::CheckLowS` parses the signature with secp256k1; it is a parameter here.
-/

namespace BitcoinCash

open Bytes

/-! ### Sighash types -/

/-- `SIGHASH_FORKID`. -/
def sighashForkid : UInt32 := 0x40

/-- `SIGHASH_ANYONECANPAY`. -/
def sighashAnyonecanpay : UInt32 := 0x80

/-- `GetHashType`: the last byte of a signature, `0` for the empty one. -/
def getHashType (vchSig : ValType) : UInt32 :=
  match vchSig.getLast? with
  | none => 0
  | some b => b.toUInt32

/-- `SigHashType::isDefined`: the base type, the low bits without `FORKID` and `ANYONECANPAY`
read as a `uint8_t`, is `ALL`, `NONE` or `SINGLE`. -/
def sigHashIsDefined (sigHash : UInt32) : Bool :=
  let baseType := (sigHash &&& ~~~(sighashForkid ||| sighashAnyonecanpay)).toUInt8
  1 ≤ baseType && baseType ≤ 3

/-- `SigHashType::hasFork`. -/
def sigHashHasFork (sigHash : UInt32) : Bool := sigHash &&& sighashForkid != 0

/-! ### Signature encodings -/

/-- `IsValidDERSignatureEncoding`: `0x30 [total-length] 0x02 [R-length] [R] 0x02 [S-length] [S]`
with minimal positive `R` and `S`. Every index it reads lies below the size, by the checks
before it. -/
def isValidDERSignatureEncoding (sig : List UInt8) : Bool :=
  let at_ (i : ℕ) : ℕ := (sig.getD i 0).toNat
  if sig.length < 8 ∨ sig.length > 72 then false
  else if at_ 0 ≠ 0x30 then false
  else if at_ 1 ≠ sig.length - 2 then false
  else if at_ 2 ≠ 0x02 then false
  else
    let lenR := at_ 3
    if lenR = 0 then false
    else if at_ 4 &&& 0x80 ≠ 0 then false
    else if lenR > sig.length - 7 then false
    else if lenR > 1 ∧ at_ 4 = 0x00 ∧ at_ 5 &&& 0x80 = 0 then false
    else
      let startS := lenR + 4
      if at_ startS ≠ 0x02 then false
      else
        let lenS := at_ (startS + 1)
        if lenS = 0 then false
        else if at_ (startS + 2) &&& 0x80 ≠ 0 then false
        else if startS + lenS + 2 ≠ sig.length then false
        else if lenS > 1 ∧ at_ (startS + 2) = 0x00 ∧ at_ (startS + 3) &&& 0x80 = 0 then false
        else true

/-- `IsSchnorrSig`: Schnorr signatures are exactly the 64-byte ones. -/
def isSchnorrSig (sig : List UInt8) : Bool := sig.length == 64

/-- `CheckRawECDSASignatureEncoding`; `checkLowS` is `CPubKey::CheckLowS`. -/
def checkRawECDSASignatureEncoding (checkLowS : List UInt8 → Bool) (sig : List UInt8)
    (flags : UInt32) : Except ScriptError Unit :=
  if isSchnorrSig sig then throw .sigBadlength
  else if hasFlag flags (scriptVerifyDersig ||| scriptVerifyLowS ||| scriptVerifyStrictenc) &&
      !isValidDERSignatureEncoding sig then throw .sigDer
  else if hasFlag flags scriptVerifyLowS && !checkLowS sig then throw .sigHighS
  else pure ()

/-- `CheckRawSchnorrSignatureEncoding`. -/
def checkRawSchnorrSignatureEncoding (sig : List UInt8) : Except ScriptError Unit :=
  if isSchnorrSig sig then pure () else throw .sigNonschnorr

/-- `CheckRawSignatureEncoding`: 64 bytes are a Schnorr signature, anything else ECDSA. -/
def checkRawSignatureEncoding (checkLowS : List UInt8 → Bool) (sig : List UInt8)
    (flags : UInt32) : Except ScriptError Unit :=
  if isSchnorrSig sig then pure () else checkRawECDSASignatureEncoding checkLowS sig flags

/-- `CheckDataSignatureEncoding`: the empty signature passes. -/
def checkDataSignatureEncoding (checkLowS : List UInt8 → Bool) (vchSig : ValType)
    (flags : UInt32) : Except ScriptError Unit :=
  if vchSig.length = 0 then pure () else checkRawSignatureEncoding checkLowS vchSig flags

/-- `CheckSighashEncoding`. -/
def checkSighashEncoding (vchSig : ValType) (flags : UInt32) : Except ScriptError Unit :=
  if hasFlag flags scriptVerifyStrictenc then
    if !sigHashIsDefined (getHashType vchSig) then throw .sigHashtype
    else
      let usesFork := sigHashHasFork (getHashType vchSig)
      let forkEnabled := hasFlag flags scriptEnableSighashForkid
      if !forkEnabled && usesFork then throw .illegalForkid
      else if forkEnabled && !usesFork then throw .mustUseForkid
      else pure ()
  else pure ()

/-- `CheckTransactionSignatureEncodingImpl`: the raw check `fun` runs on the signature without
its sighash byte, then the sighash byte is checked. The empty signature passes. -/
def checkTransactionSignatureEncodingImpl (vchSig : ValType) (flags : UInt32)
    (fun_ : List UInt8 → UInt32 → Except ScriptError Unit) : Except ScriptError Unit :=
  if vchSig.length = 0 then pure ()
  else do
    fun_ (vchSig.take (vchSig.length - 1)) flags
    checkSighashEncoding vchSig flags

/-- `CheckTransactionSignatureEncoding`. -/
def checkTransactionSignatureEncoding (checkLowS : List UInt8 → Bool) (vchSig : ValType)
    (flags : UInt32) : Except ScriptError Unit :=
  checkTransactionSignatureEncodingImpl vchSig flags (checkRawSignatureEncoding checkLowS)

/-- `CheckTransactionECDSASignatureEncoding`. -/
def checkTransactionECDSASignatureEncoding (checkLowS : List UInt8 → Bool) (vchSig : ValType)
    (flags : UInt32) : Except ScriptError Unit :=
  checkTransactionSignatureEncodingImpl vchSig flags (checkRawECDSASignatureEncoding checkLowS)

/-- `CheckTransactionSchnorrSignatureEncoding`. -/
def checkTransactionSchnorrSignatureEncoding (vchSig : ValType) (flags : UInt32) :
    Except ScriptError Unit :=
  checkTransactionSignatureEncodingImpl vchSig flags fun sig _ =>
    checkRawSchnorrSignatureEncoding sig

/-- `IsCompressedOrUncompressedPubKey`: 33 bytes after `0x02` or `0x03`, or 65 after `0x04`. -/
def isCompressedOrUncompressedPubKey (vchPubKey : ValType) : Bool :=
  match vchPubKey.length with
  | 33 => vchPubKey.getD 0 0 == 0x02 || vchPubKey.getD 0 0 == 0x03
  | 65 => vchPubKey.getD 0 0 == 0x04
  | _ => false

/-- `CheckPubKeyEncoding`. -/
def checkPubKeyEncoding (vchPubKey : ValType) (flags : UInt32) : Except ScriptError Unit :=
  if hasFlag flags scriptVerifyStrictenc && !isCompressedOrUncompressedPubKey vchPubKey then
    throw .pubkeytype
  else pure ()

/-! ### Multisig bitfields -/

/-- `DecodeBitfield`: `vch` holds exactly `(size + 7) / 8` bytes, read little-endian, with no bit
at or above `size`. The loop `bitfield |= uint32_t(vch[i]) << (8 * i)` is `set_vch`'s, on at
most four bytes. -/
def decodeBitfield (vch : ValType) (size : ℕ) : Except ScriptError UInt32 :=
  if size > 32 then throw .invalidBitfieldSize
  else if vch.length ≠ (size + 7) / 8 then throw .invalidBitfieldSize
  else
    let bitfield : UInt32 := UInt32.ofNat (CScriptNum.accumulate 0 0 vch)
    let mask : UInt32 := (((1 : UInt64) <<< size.toUInt64) - 1).toUInt32
    if bitfield &&& mask ≠ bitfield then throw .invalidBitRange else pure bitfield

/-- `countBits`, `__builtin_popcount`: the number of set bits. -/
def countBits (v : UInt32) : ℕ := ((List.range 32).filter fun i => v.toNat.testBit i).length

/-- The mask `(uint64_t(1) << size) - 1` keeps the bits below `size`. -/
theorem toNat_bitfieldMask {size : ℕ} (h : size ≤ 32) :
    ((((1 : UInt64) <<< size.toUInt64) - 1).toUInt32).toNat = 2 ^ size - 1 := by
  have hpow : 2 ^ size ≤ 2 ^ 32 := Nat.pow_le_pow_right (by norm_num) h
  have hshift : ((1 : UInt64) <<< size.toUInt64).toNat = 2 ^ size := by
    have h64 : 2 ^ size < 18446744073709551616 := lt_of_le_of_lt hpow (by norm_num)
    simpa [UInt64.toNat_shiftLeft, Nat.mod_eq_of_lt (show size < 64 by omega),
      Nat.one_shiftLeft] using h64
  have hle : (1 : UInt64) ≤ (1 : UInt64) <<< size.toUInt64 := by
    rw [UInt64.le_iff_toNat_le, hshift]
    exact Nat.one_le_two_pow
  rw [UInt64.toNat_toUInt32, UInt64.toNat_sub_of_le _ _ hle, hshift, UInt64.toNat_one]
  omega

/-- A decoded bitfield has no bit at or above its declared size. -/
theorem decodeBitfield_lt {vch : ValType} {size : ℕ} {bits : UInt32}
    (h : decodeBitfield vch size = .ok bits) : bits.toNat < 2 ^ size := by
  unfold decodeBitfield at h
  dsimp only at h
  split_ifs at h with h32 hlen hmask
  simp only [pure, Except.pure, Except.ok.injEq] at h
  subst h
  have hsize : size ≤ 32 := by omega
  rw [not_not] at hmask
  rw [← hmask, UInt32.toNat_and, toNat_bitfieldMask hsize, Nat.and_two_pow_sub_one_eq_mod]
  exact Nat.mod_lt _ (Nat.two_pow_pos size)

end BitcoinCash
