import BitcoinCash.Serialize.Stream

/-!
# Receiving network messages

`CNode::ReceiveMsgBytes` takes the bytes of one `recv` and feeds them to the message at the back
of `vRecvMsg`, starting a new message when that one is complete. `CNetMessage::readHeader`
copies header bytes into the 24-byte `hdrbuf` and, once it is full, deserializes the header and
refuses an oversized one; `CNetMessage::readData` copies payload bytes into `vRecv`, which it
grows lazily, up to 256 KiB ahead and never beyond the message size. A refused header makes the
call return `false`.

The buffers are lists, and `memcpy` is a write that fails when it would run past the end of its
buffer (`ReceiveError.outOfBounds`). The `while (nBytes > 0)` loop runs on as much fuel as there
are bytes: running out of it (`ReceiveError.outOfFuel`) is an iteration that consumed nothing.
The time of receipt, `nLastRecv` and the per-command byte counts are left out.
-/

namespace BitcoinCash

/-- `CMessageHeader::HEADER_SIZE`: the magic, the command, the size and the checksum. -/
def headerSize : ℕ := 4 + 12 + 4 + 4

/-- `MAX_PROTOCOL_MESSAGE_LENGTH`. -/
def maxProtocolMessageLength : ℕ := 2 * 1024 * 1024

/-- What `ReceiveMsgBytes` reads of its `Config`. -/
structure NetConfig where
  /-- `config.GetChainParams().NetMagic()`. -/
  netMagic : List UInt8
  /-- `config.GetExcessiveBlockSize()`. -/
  excessiveBlockSize : ℕ

/-- `CMessageHeader`. -/
structure CMessageHeader where
  pchMessageStart : List UInt8
  pchCommand : List UInt8
  nMessageSize : ℕ
  pchChecksum : List UInt8
  deriving DecidableEq, Repr

/-- The bytes of a message type. -/
def msgTypeBytes (msgType : String) : List UInt8 := msgType.toList.map fun c => c.toNat.toUInt8

/-- `NetMsgType::IsBlockLike`. -/
def isBlockLike (msgType : List UInt8) : Bool :=
  msgType == msgTypeBytes "block" || msgType == msgTypeBytes "cmpctblock" ||
    msgType == msgTypeBytes "blocktxn"

namespace CMessageHeader

/-- `CMessageHeader(pchMessageStartIn)`: a zero command and checksum, and the size `-1` as a
`uint32_t`. -/
def ofMagic (pchMessageStartIn : List UInt8) : CMessageHeader :=
  ⟨pchMessageStartIn, List.replicate 12 0, 2 ^ 32 - 1, List.replicate 4 0⟩

/-- `SERIALIZE_METHODS(CMessageHeader)` reading. -/
def read : Reader CMessageHeader := do
  let pchMessageStart ← readBytes 4
  let pchCommand ← readBytes 12
  let nMessageSize ← serReaddata32
  let pchChecksum ← readBytes 4
  pure ⟨pchMessageStart, pchCommand, nMessageSize, pchChecksum⟩

/-- `GetCommand`: the command up to its first NUL. -/
def getCommand (hdr : CMessageHeader) : List UInt8 := hdr.pchCommand.takeWhile (· != 0)

/-- `IsOversized(config)`. -/
def isOversized (hdr : CMessageHeader) (config : NetConfig) : Bool :=
  -- If the message doesn't not contain a block content, check against
  -- MAX_PROTOCOL_MESSAGE_LENGTH.
  if hdr.nMessageSize > maxProtocolMessageLength && !isBlockLike hdr.getCommand then true
  -- Scale the maximum accepted size with the block size.
  else if hdr.nMessageSize > 2 * config.excessiveBlockSize then true
  else false

end CMessageHeader

/-- How a call of `ReceiveMsgBytes` fails. -/
inductive ReceiveError
  /-- `ReceiveMsgBytes` returns `false`: a header was refused. -/
  | rejected
  /-- A `memcpy` past the end of its buffer, undefined in the code. -/
  | outOfBounds
  /-- The loop ran more times than there were bytes: an iteration consumed none. -/
  | outOfFuel
  deriving DecidableEq, Repr

/-- `memcpy(&buf[pos], src, src.size())`. -/
def memcpy (buf : List UInt8) (pos : ℕ) (src : List UInt8) : Except ReceiveError (List UInt8) :=
  if pos + src.length ≤ buf.length then .ok (buf.take pos ++ src ++ buf.drop (pos + src.length))
  else .error .outOfBounds

/-- `CDataStream::resize(n)`: cut, or padded with zeros. -/
def resize (v : List UInt8) (n : ℕ) : List UInt8 := v.take n ++ List.replicate (n - v.length) 0

/-- `CNetMessage`, with the bytes written to its hasher. -/
structure CNetMessage where
  /-- Parsing header (`false`) or data (`true`). -/
  inData : Bool
  /-- Partially received header. -/
  hdrbuf : List UInt8
  /-- Complete header. -/
  hdr : CMessageHeader
  nHdrPos : ℕ
  /-- Received message data. -/
  vRecv : List UInt8
  nDataPos : ℕ
  /-- The bytes written to `hasher`, in order. -/
  hashed : List UInt8

namespace CNetMessage

/-- `CNetMessage(pchMessageStartIn, nTypeIn, nVersionIn)`. -/
def new (pchMessageStartIn : List UInt8) : CNetMessage where
  inData := false
  hdrbuf := List.replicate headerSize 0
  hdr := .ofMagic pchMessageStartIn
  nHdrPos := 0
  vRecv := []
  nDataPos := 0
  hashed := []

/-- `complete()`. -/
def complete (msg : CNetMessage) : Bool :=
  if !msg.inData then false else msg.hdr.nMessageSize == msg.nDataPos

/-- `readHeader(config, pch, nBytes)`: the message and the number of bytes handled; `-1` is
`ReceiveError.rejected`. -/
def readHeader (config : NetConfig) (msg : CNetMessage) (pch : List UInt8) :
    Except ReceiveError (CNetMessage × ℕ) := do
  -- copy data to temporary parsing buffer
  let nRemaining := headerSize - msg.nHdrPos
  let nCopy := min nRemaining pch.length
  let hdrbuf ← memcpy msg.hdrbuf msg.nHdrPos (pch.take nCopy)
  let nHdrPos := msg.nHdrPos + nCopy
  -- if header incomplete, exit
  if nHdrPos < headerSize then pure ({ msg with hdrbuf, nHdrPos }, nCopy)
  else
    -- deserialize to CMessageHeader
    match CMessageHeader.read.run hdrbuf with
    | .error _ => throw .rejected
    | .ok (hdr, _) =>
      -- Reject oversized messages
      if hdr.isOversized config then throw .rejected
      -- switch state to reading message data
      else pure ({ msg with hdrbuf, nHdrPos, hdr, inData := true }, nCopy)

/-- `readData(pch, nBytes)`: the message and the number of bytes handled. -/
def readData (msg : CNetMessage) (pch : List UInt8) : Except ReceiveError (CNetMessage × ℕ) := do
  let nRemaining := msg.hdr.nMessageSize - msg.nDataPos
  let nCopy := min nRemaining pch.length
  let vRecv :=
    if msg.vRecv.length < msg.nDataPos + nCopy then
      -- Allocate up to 256 KiB ahead, but never more than the total message size.
      resize msg.vRecv (min msg.hdr.nMessageSize (msg.nDataPos + nCopy + 256 * 1024))
    else msg.vRecv
  let hashed := msg.hashed ++ pch.take nCopy
  let vRecv ← memcpy vRecv msg.nDataPos (pch.take nCopy)
  pure ({ msg with vRecv, nDataPos := msg.nDataPos + nCopy, hashed }, nCopy)

/-- The block `// Absorb network data.`: `readHeader` while the header is read, else
`readData`. -/
def absorb (config : NetConfig) (msg : CNetMessage) (pch : List UInt8) :
    Except ReceiveError (CNetMessage × ℕ) :=
  if !msg.inData then msg.readHeader config pch else msg.readData pch

/-- `IsOversizedMessage(config, msg)`. -/
def isOversizedMessage (config : NetConfig) (msg : CNetMessage) : Bool :=
  -- Header only, cannot be oversized.
  if !msg.inData then false else msg.hdr.isOversized config

end CNetMessage

/-- `if (vRecvMsg.empty() || vRecvMsg.back().complete()) vRecvMsg.push_back(...)`, then
`vRecvMsg.back()`: the messages before the current one, and the current one. -/
def currentMessage (netMagic : List UInt8) (vRecvMsg : List CNetMessage) :
    List CNetMessage × CNetMessage :=
  match vRecvMsg.getLast? with
  | none => ([], .new netMagic)
  | some msg => if msg.complete then (vRecvMsg, .new netMagic) else (vRecvMsg.dropLast, msg)

/-- The loop of `ReceiveMsgBytes` over the bytes left, with the messages and `complete`. -/
def receiveLoop (config : NetConfig) :
    ℕ → List CNetMessage → List UInt8 → Bool → Except ReceiveError (List CNetMessage × Bool)
  | _, vRecvMsg, [], complete => pure (vRecvMsg, complete)
  | 0, _, _ :: _, _ => throw .outOfFuel
  | fuel + 1, vRecvMsg, b :: bs, complete => do
    -- Get current incomplete message, or create a new one.
    let (front, msg) := currentMessage config.netMagic vRecvMsg
    let (msg, handled) ← msg.absorb config (b :: bs)
    if msg.isOversizedMessage config then throw .rejected
    else receiveLoop config fuel (front ++ [msg]) ((b :: bs).drop handled) (complete || msg.complete)

/-- What `ReceiveMsgBytes` reads and writes of a `CNode`. -/
structure CNode where
  vRecvMsg : List CNetMessage
  nRecvBytes : ℕ

/-- `CNode::ReceiveMsgBytes(config, pch, nBytes, complete)`: `.ok` is `true`, with the node and
`complete`; `ReceiveError.rejected` is `false`. -/
def CNode.receiveMsgBytes (config : NetConfig) (node : CNode) (pch : List UInt8) :
    Except ReceiveError (CNode × Bool) := do
  let nRecvBytes := node.nRecvBytes + pch.length
  let (vRecvMsg, complete) ← receiveLoop config pch.length node.vRecvMsg pch false
  pure ({ vRecvMsg, nRecvBytes }, complete)

/-! ### Buffers -/

section Buffers

variable {buf src : List UInt8} {pos : ℕ}

theorem memcpy_of_le (h : pos + src.length ≤ buf.length) :
    memcpy buf pos src = .ok (buf.take pos ++ src ++ buf.drop (pos + src.length)) :=
  if_pos h

theorem length_memcpy_write (h : pos ≤ buf.length) (h' : pos + src.length ≤ buf.length) :
    (buf.take pos ++ src ++ buf.drop (pos + src.length)).length = buf.length := by
  simp only [List.length_append, List.length_take, List.length_drop]
  omega

/-- After the copy, the buffer up to its end is what was there before it, then the source. -/
theorem take_memcpy_write (h : pos ≤ buf.length) :
    (buf.take pos ++ src ++ buf.drop (pos + src.length)).take (pos + src.length) =
      buf.take pos ++ src := by
  have hlen : (buf.take pos ++ src).length = pos + src.length := by
    rw [List.length_append, List.length_take, Nat.min_eq_left h]
  rw [List.take_append_of_le_length (by rw [hlen]), ← hlen, List.take_length]

theorem length_resize (v : List UInt8) (n : ℕ) : (resize v n).length = n := by
  simp only [resize, List.length_append, List.length_take, List.length_replicate]
  omega

/-- Growing a buffer keeps what it held. -/
theorem take_resize {v : List UInt8} {k n : ℕ} (hk : k ≤ v.length) (hn : k ≤ n) :
    (resize v n).take k = v.take k := by
  rw [resize, List.take_append_of_le_length (by rw [List.length_take]; omega), List.take_take,
    Nat.min_eq_left hn]

end Buffers

/-! ### The invariant of a message -/

/-- What holds of every message of `vRecvMsg`: the header buffer is full size and, while the
header is read, not yet full; the payload position is within the message and the buffer; an
accepted header is not oversized; and the hasher has seen exactly the payload received. -/
structure CNetMessage.Valid (config : NetConfig) (msg : CNetMessage) : Prop where
  length_hdrbuf : msg.hdrbuf.length = headerSize
  nHdrPos_lt : msg.inData = false → msg.nHdrPos < headerSize
  nDataPos_zero : msg.inData = false → msg.nDataPos = 0
  not_oversized : msg.inData = true → msg.hdr.isOversized config = false
  nDataPos_le : msg.nDataPos ≤ msg.hdr.nMessageSize
  nDataPos_le_length : msg.nDataPos ≤ msg.vRecv.length
  hashed_eq : msg.hashed = msg.vRecv.take msg.nDataPos

namespace CNetMessage

variable {config : NetConfig} {msg : CNetMessage}

theorem valid_new (config : NetConfig) (pchMessageStartIn : List UInt8) :
    (new pchMessageStartIn).Valid config where
  length_hdrbuf := List.length_replicate
  nHdrPos_lt _ := show 0 < headerSize by decide
  nDataPos_zero _ := rfl
  not_oversized h := by cases h
  nDataPos_le := Nat.zero_le _
  nDataPos_le_length := Nat.le_refl 0
  hashed_eq := rfl

/-- A valid message past its header, not complete, still expects payload. -/
theorem Valid.nDataPos_lt (hv : msg.Valid config) (hin : msg.inData = true)
    (hc : msg.complete = false) : msg.nDataPos < msg.hdr.nMessageSize := by
  rw [complete, hin, Bool.not_true, if_neg Bool.false_ne_true, beq_eq_false_iff_ne] at hc
  exact Nat.lt_of_le_of_ne hv.nDataPos_le (Ne.symm hc)

/-- A valid message is never refused by `IsOversizedMessage`. -/
theorem Valid.isOversizedMessage_eq_false (hv : msg.Valid config) :
    msg.isOversizedMessage config = false := by
  rw [isOversizedMessage]
  cases hin : msg.inData
  · rfl
  · exact hv.not_oversized hin

end CNetMessage

end BitcoinCash
