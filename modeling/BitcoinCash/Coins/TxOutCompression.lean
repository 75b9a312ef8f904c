import BitcoinCash.Coins.Compressor
import BitcoinCash.Serialize.VarInt
import Mathlib.Tactic.IntervalCases

/-!
# Script and output compression

`ScriptCompression` (`compressor.h`) writes the script of an output for the coins database.
`CompressScript` recognises three standard forms by their exact bytes: pay to a key hash and
pay to a script hash, written as a code byte `0` or `1` and the 20 bytes of the hash, and pay to
a public key, written as the 33 bytes of the compressed key, whose first byte `2` or `3` is the
code, or for an uncompressed key as the code `4` or `5` (the parity of `y`) and the 32 bytes of
`x`. Every other script is written as `VARINT(size + 6)` and its bytes. `Unser` reads the
`VARINT` back; a value below 6 is the code of a special form, whose bytes `DecompressScript`
turns back into the script. `TxOutCompression` writes the amount by `AmountCompression`,
`VARINT(CompressAmount(nValue))`, and then the script.

The uncompressed key comes back through `CPubKey::Decompress`, which asks the vendored
secp256k1 for the point with that `x` and parity. That library is not part of this model:
`CompressorKeyOps` gives `IsFullyValid` and `Decompress` as parameters, and the round trip
assumes `CompressorKeyOps.DecompressRecovers`, that the point of a fully valid key is found again
from its `x` and its parity.
-/

namespace BitcoinCash

/-! ### What the compressor uses of `CPubKey` -/

variable (P : CompressorKeyOps)

end BitcoinCash
