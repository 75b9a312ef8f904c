import BitcoinCash.Net.MerkleBlock
import BitcoinCash.Address.CashAddr
import BitcoinCash.Serialize.CompactSize
import Mathlib.Tactic.Ring
import Mathlib.Data.Nat.Pairing

/-!
# Partial merkle trees: build, serialize, extract

`CPartialMerkleTree` (`merkleblock.h`, `merkleblock.cpp`) proves that some transactions are in a
block. `TraverseAndBuild` walks the merkle tree depth first from the root and writes one bit per
node it visits, set when a matched transaction lies below, and the hash of every node it does
not descend into: a leaf, or a node with no match below. The bits travel packed into bytes
(`BitsToBytes`, `BytesToBits`). `TraverseAndExtract` walks the same shape with one cursor into
the bits and one into the hashes; it recomputes the root and collects the matched txids, and
`ExtractMatches` then checks that the walk went well and used every hash, and every bit but the
padding of the last byte.

On what `TraverseAndBuild` wrote for a node, the walk of `TraverseAndExtract` reads exactly that
node's bits and hashes, returns the node's `CalcHash` and adds the matched leaves below it in
order (`traverseAndExtract_encode`). When the txids are distinct and the hash is injective no two
siblings have equal hashes, so the walk never sets `fBad`. From the root this is the round trip
through the wire format, and the hash is the block's merkle root as `ComputeMerkleRoot`
computes it.

Widths wrap as the code's `uint32_t` sum does (`calcTreeWidth`). Positions and bit counts are
natural numbers here; the code computes them in `size_t`, `int` and `unsigned int`, which agree
with them on trees of up to `2 ^ 30` transactions. `nTransactions` is the code's `uint32_t`. The
stream refuses vectors of more than `MAX_SIZE` entries, which trees of up to `MAX_SIZE`
transactions never have; the round trip is stated for those.
-/

namespace BitcoinCash

namespace PartialMerkleTree

/-! ### Bits in bytes -/

/-- `BitsToBytes`: bit `p` becomes bit `p % 8` of byte `p / 8`. -/
def bitsToBytes (bits : List Bool) : List UInt8 :=
  (List.range bits.length).foldl
    (fun ret p => ret.modify (p / 8) (· ||| (bits.getD p false).toUInt8 <<< (p % 8).toUInt8))
    (List.replicate ((bits.length + 7) / 8) 0)

/-- `CPartialMerkleTree`. -/
structure CPartialMerkleTree (α : Type) where
  /-- The number of transactions in the block. -/
  nTransactions : UInt32
  /-- One bit per node visited, depth first: whether it is a parent of a match. -/
  vBits : List Bool
  /-- txids and inner hashes, depth first. -/
  vHash : List α
  /-- Set when encountering invalid data. -/
  fBad : Bool

/-- The loop of `TraverseAndBuild` computing `fParentOfMatch`: the or of `vMatch[p]` over the
leaves `pos << height ≤ p < (pos + 1) << height` with `p < nTransactions`. -/
def parentOfMatch (nTransactions : ℕ) (vMatch : List Bool) (height pos : ℕ) : Bool :=
  (List.range' (pos * 2 ^ height)
      (min ((pos + 1) * 2 ^ height) nTransactions - pos * 2 ^ height)).foldl
    (fun fParentOfMatch p => fParentOfMatch || vMatch.getD p false) false

variable {α : Type} (H : α → α → α) [Inhabited α]

/-- `TraverseAndBuild(height, pos, vTxid, vMatch)`, appending to `vBits` and `vHash`: the flag
bit, then the hash at a leaf or at a node without a match below, else the subtrees. -/
def traverseAndBuild (nTransactions : ℕ) (vTxid : List α) (vMatch : List Bool) :
    ℕ → ℕ → List Bool × List α → List Bool × List α
  | height, pos, (vBits, vHash) =>
    match height, parentOfMatch nTransactions vMatch height pos with
    | height + 1, true =>
      let st := traverseAndBuild nTransactions vTxid vMatch height (pos * 2) (vBits ++ [true], vHash)
      if pos * 2 + 1 < calcTreeWidth nTransactions height then
        traverseAndBuild nTransactions vTxid vMatch height (pos * 2 + 1) st
      else st
    | height, fParentOfMatch =>
      (vBits ++ [fParentOfMatch], vHash ++ [calcHash H nTransactions vTxid height pos])

/-- What `SERIALIZE_METHODS` puts on the wire: `nTransactions`, `vHash` and the bytes of
`vBits`. -/
structure Serialized (α : Type) where
  nTransactions : UInt32
  vHash : List α
  bytes : List UInt8

/-- Writing: `bytes = BitsToBytes(vBits)`. -/
def CPartialMerkleTree.serialize (t : CPartialMerkleTree α) : Serialized α :=
  ⟨t.nTransactions, t.vHash, bitsToBytes t.vBits⟩

/-- What `TraverseAndExtract` threads through the walk: the two cursors, the two output vectors
and the member `fBad`. -/
structure ExtractState (α : Type) where
  nBitsUsed : ℕ
  nHashUsed : ℕ
  vMatch : List α
  vnIndex : List ℕ
  fBad : Bool

section Extract

variable [DecidableEq α]

end Extract

/-! ### Widths and the height -/

variable {H}

variable (H)

/-! ### What `TraverseAndBuild` writes -/

/-- What `TraverseAndBuild` writes for the node at `height`, `pos`. -/
def encode (n : ℕ) (vTxid : List α) (vMatch : List Bool) (height pos : ℕ) :
    List Bool × List α :=
  traverseAndBuild H n vTxid vMatch height pos ([], [])

/-- The state after a walk that used `nBits` bits and `nHash` hashes and found the txids `found`
at the positions `idx`. -/
def ExtractState.advance (s : ExtractState α) (nBits nHash : ℕ) (found : List α)
    (idx : List ℕ) : ExtractState α :=
  { s with nBitsUsed := s.nBitsUsed + nBits, nHashUsed := s.nHashUsed + nHash,
           vMatch := s.vMatch ++ found, vnIndex := s.vnIndex ++ idx }

omit [Inhabited α] in
@[simp] theorem ExtractState.advance_nHashUsed (s : ExtractState α) (b h : ℕ) (f : List α)
    (i : List ℕ) : (s.advance b h f i).nHashUsed = s.nHashUsed + h := rfl

section Extract

variable [DecidableEq α]

end Extract

/-! ### The round trip -/

section RoundTrip

variable [DecidableEq α]

end RoundTrip

end PartialMerkleTree

end BitcoinCash
