import BitcoinCash.Validation.ConnectBlock
import BitcoinCash.Serialize.CompactSize

/-!
# Relaying a block as a compact block

The sender builds a `CBlockHeaderAndShortTxIDs` from a block (`blockencodings.cpp`): the
coinbase goes in full, prefilled at offset `0`, and every other transaction as its six-byte short
id, keyed by `FillShortTxIDSelector` from the header and a random nonce. On the wire
(`SERIALIZE_METHODS`) follow the header, the nonce, the short ids as six-byte integers
(`CustomUintFormatter<6>`) and the prefilled transactions with their offsets as CompactSize. The
reader takes the keys again from the header and the nonce it read. The receiver lays the block out
with `InitData`, asks its peer for the transactions of the slots still empty, and completes the
block with `FillBlock`.

The serializations of a header and of a transaction are outside this model: they are given as a
writer and a reader. `FillShortTxIDSelector`, a hash of the header and the nonce, is given as a
function of them.
-/

namespace BitcoinCash

open Bytes

/-! ### Formatters -/

/-- The text `CustomUintFormatter` throws for a value above its width. -/
def customUintOutOfRange : String := "CustomUintFormatter value out of range"

/-- The text a compact block of more than `2 ^ 32 - 1` transactions throws. -/
def indexesOverflowed : String := "indexes overflowed 32 bits"

/-- `CustomUintFormatter<Bytes>::Ser` of a `uint64_t`: its low `nBytes` bytes, little-endian.
A value above `MAX = 2 ^ (8 * Bytes) - 1` throws; `v < 0` never holds for an unsigned `v`. -/
def customUintSer (nBytes : ℕ) (v : UInt64) : Except String (List UInt8) :=
  if v.toNat > 2 ^ (8 * nBytes) - 1 then throw customUintOutOfRange
  else pure (leBytes nBytes v.toNat)

namespace CBlockHeaderAndShortTxIDs

/-- `Using<VectorFormatter<CustomUintFormatter<SHORTTXIDS_LENGTH>>>(shorttxids)`, written: the
size, then six bytes for each short id. -/
def serShortTxIDs (shorttxids : List UInt64) : Except String (List UInt8) := do
  let bytes ← shorttxids.mapM (customUintSer 6)
  pure (writeCompactSize shorttxids.length ++ bytes.flatten)

/-- `PrefilledTransaction` written: `COMPACTSIZE(index)`, then the transaction. -/
def serPrefilled (serTx : Transaction → List UInt8) (prefilled : PrefilledTransaction) :
    List UInt8 :=
  writeCompactSize prefilled.index.toNat ++ serTx prefilled.tx

/-- `SERIALIZE_METHODS(CBlockHeaderAndShortTxIDs)` writing the message built with `nonce`: the
header, the nonce, the short ids and the prefilled transactions, then the check that the block's
indexes fit in 32 bits. -/
def serialize (serHeader : BlockHeader → List UInt8) (serTx : Transaction → List UInt8)
    (nonce : UInt64) (cmpctblock : CBlockHeaderAndShortTxIDs) : Except String (List UInt8) := do
  let shorttxids ← serShortTxIDs cmpctblock.shorttxids
  if cmpctblock.blockTxCount > 4294967295 then throw indexesOverflowed
  pure (serHeader cmpctblock.header ++ serWritedata64 nonce.toNat ++ shorttxids ++
    writeCompactSize cmpctblock.prefilledtxn.length ++
    cmpctblock.prefilledtxn.flatMap (serPrefilled serTx))

end CBlockHeaderAndShortTxIDs

namespace CBlockHeaderAndShortTxIDs

end CBlockHeaderAndShortTxIDs

/-! ### The layout of a relayed block -/

namespace PartiallyDownloadedBlock

end PartiallyDownloadedBlock

namespace PartiallyDownloadedBlock

section Relay

variable {env : CompactBlockEnv} {cmpctblock : CBlockHeaderAndShortTxIDs} {pool : List Transaction}
  {extraTxns : List (Vector UInt8 32 × Transaction)} {vtx : List Transaction}

end Relay

/-! ### The round trip -/

end PartiallyDownloadedBlock

end BitcoinCash
