import BitcoinCash.Script.Numeric
import BitcoinCash.Script.Verify
import BitcoinCash.Container.PrevectorRun
import BitcoinCash.Address.CashAddrEnc
import BitcoinCash.Script.NumBin
import BitcoinCash.Script.DERSignature
import BitcoinCash.Script.Multisig
import BitcoinCash.Util.AsmapSoundness
import BitcoinCash.Validation.BlockOrder
import BitcoinCash.DSProof.Validate
import BitcoinCash.Pow.AsertValue
import BitcoinCash.Address.Checksum
import BitcoinCash.Mempool.Disconnected
import BitcoinCash.Net.PartialMerkleTree
import BitcoinCash.Coins.TxOutCompression
import BitcoinCash.Consensus.TxInputs
import BitcoinCash.Chain.Locator
import BitcoinCash.Chain.BlockProof
import BitcoinCash.Net.RollingBloom
import BitcoinCash.Net.DifferenceFormatter
import BitcoinCash.Net.CompactBlockRelay
import BitcoinCash.Net.Framing
import BitcoinCash.Util.MoneyStr
import BitcoinCash.Pow.AsertAnchor
import BitcoinCash.BlockFilter.GCSFilter
import BitcoinCash.Util.Base58
import BitcoinCash.Util.FixedPoint
import BitcoinCash.Net.AddrV2
import BitcoinCash.Net.SubNet
import BitcoinCash.AddrMan.Preserve
import BitcoinCash.AddrMan.Unserialize
import BitcoinCash.Script.Standard
import BitcoinCash.Util.BaseEncoding
