import BitcoinCash.Net.NetMessage
import BitcoinCash.Control.InputLoop

/-!
# Message framing does not depend on how the stream is cut

What `ReceiveMsgBytes` makes of a byte stream is stated here one byte at a time: each byte goes
to the last message while that one is not complete, and to a new message otherwise; in a message
the first `HEADER_SIZE` bytes make the header, which is then accepted or refused, and the next
ones are its payload. `pushByte` is that step on the frames of the messages (`Frame`), and
framing a stream is a fold of it, so it does not see how the stream is cut into calls.

`ReceiveMsgBytes` copies as many bytes at once as the current message still takes. Each copy
frames its bytes as `pushByte` does (`readHeader_agrees`, `readData_agrees`), so one call frames
its bytes as the fold does (`receiveMsgBytes_agrees`), from every state whose messages keep
`CNetMessage.Valid`. Feeding the chunks of a stream in successive calls therefore leaves the same
frames as one call on the whole stream, and the same outcome (`receiveMsgBytes_chunking`).
-/

namespace BitcoinCash

/-- What a message has received: header bytes, or an accepted header and payload bytes. -/
inductive Frame
  | header (bytes : List UInt8)
  | body (hdr : CMessageHeader) (payload : List UInt8)
  deriving DecidableEq, Repr

/-- The frame a full header makes: no payload yet, once the header is read and accepted. -/
def acceptHeader (config : NetConfig) (bytes : List UInt8) : Option Frame :=
  match CMessageHeader.read.run bytes with
  | .ok (hdr, _) => if hdr.isOversized config then none else some (.body hdr [])
  | .error _ => none

namespace Frame

/-- A message is complete once its payload has the size its header gives. -/
def complete : Frame → Bool
  | header _ => false
  | body hdr payload => hdr.nMessageSize == payload.length

/-- One more byte of a message that is not complete. -/
def push (config : NetConfig) : Frame → UInt8 → Option Frame
  | header bytes, b =>
    if bytes.length + 1 < headerSize then some (header (bytes ++ [b]))
    else acceptHeader config (bytes ++ [b])
  | body hdr payload, b => some (body hdr (payload ++ [b]))

end Frame

/-- The frames before the message the next byte goes to, and that message: the last one while it
is not complete, else a new one. -/
def openFrame (frames : List Frame) : List Frame × Frame :=
  match frames.getLast? with
  | none => ([], .header [])
  | some f => if f.complete then (frames, .header []) else (frames.dropLast, f)

/-- The framing of one more byte; `none` once a header is refused. -/
def pushByte (config : NetConfig) (frames : List Frame) (b : UInt8) : Option (List Frame) :=
  ((openFrame frames).2.push config b).map fun f => (openFrame frames).1 ++ [f]

/-- The frame of a message: its header bytes, or its header and the payload in `vRecv`. -/
def CNetMessage.frame (msg : CNetMessage) : Frame :=
  if msg.inData then .body msg.hdr (msg.vRecv.take msg.nDataPos)
  else .header (msg.hdrbuf.take msg.nHdrPos)

/-- Successive calls of `ReceiveMsgBytes`, one for each chunk, until one returns `false`. -/
def CNode.feedChunks (config : NetConfig) (node : CNode) :
    List (List UInt8) → Except ReceiveError CNode
  | [] => pure node
  | pch :: chunks => do
    let (node, _) ← node.receiveMsgBytes config pch
    node.feedChunks config chunks

/-- What a node has received: the frames of its messages, whether the last one is complete, and
the number of bytes. -/
def CNode.received (node : CNode) : List Frame × Option Bool × ℕ :=
  (node.vRecvMsg.map CNetMessage.frame, node.vRecvMsg.getLast?.map CNetMessage.complete,
    node.nRecvBytes)

/-! ### Framing one byte at a time -/

section Framing

variable {config : NetConfig} {pre : List Frame} {f : Frame}

theorem openFrame_append (hf : f.complete = false) (pre : List Frame) :
    openFrame (pre ++ [f]) = (pre, f) := by
  rw [openFrame, List.getLast?_concat]
  dsimp only
  rw [hf, if_neg Bool.false_ne_true, List.dropLast_concat]

theorem complete_openFrame (frames : List Frame) : (openFrame frames).2.complete = false := by
  rw [openFrame]
  split
  · rfl
  · split_ifs with hf
    · rfl
    · exact Bool.eq_false_iff.mpr hf

theorem pushByte_append (hf : f.complete = false) (b : UInt8) :
    pushByte config (pre ++ [f]) b = (f.push config b).map fun f => pre ++ [f] := by
  rw [pushByte, openFrame_append hf]

/-- Bytes go to the message `openFrame` names. -/
theorem foldlM_openFrame (frames : List Frame) {bs : List UInt8} (hbs : bs ≠ []) :
    bs.foldlM (pushByte config) frames =
      bs.foldlM (pushByte config) ((openFrame frames).1 ++ [(openFrame frames).2]) := by
  obtain ⟨b, bs, rfl⟩ := List.exists_cons_of_ne_nil hbs
  rw [List.foldlM_cons, List.foldlM_cons, pushByte_append (complete_openFrame frames)]
  rfl

/-- Header bytes that leave the header short are appended to it. -/
theorem foldlM_header (pre : List Frame) :
    ∀ (bs bytes : List UInt8), bytes.length + bs.length < headerSize →
      bs.foldlM (pushByte config) (pre ++ [.header bytes]) = some (pre ++ [.header (bytes ++ bs)])
  | [], bytes, _ => by rw [List.foldlM_nil, List.append_nil]; rfl
  | b :: bs, bytes, hlen => by
    rw [List.length_cons] at hlen
    rw [List.foldlM_cons, pushByte_append rfl, Frame.push, if_pos (by omega), Option.map_some,
      Option.bind_eq_bind, Option.bind_some, foldlM_header pre bs (bytes ++ [b])
        (by rw [List.length_append, List.length_singleton]; omega), List.append_assoc,
      List.singleton_append]

/-- The bytes that fill the header make it, accepted or refused. -/
theorem foldlM_header_full (pre : List Frame) {bs bytes : List UInt8}
    (hlen : bytes.length + bs.length = headerSize) (hbs : bs ≠ []) :
    bs.foldlM (pushByte config) (pre ++ [.header bytes]) =
      (acceptHeader config (bytes ++ bs)).map fun f => pre ++ [f] := by
  obtain ⟨bs, b, rfl⟩ := (List.eq_nil_or_concat bs).resolve_left hbs
  rw [List.concat_eq_append, List.length_append, List.length_singleton] at hlen
  rw [List.concat_eq_append]
  rw [List.foldlM_append, foldlM_header pre bs bytes (by omega), Option.bind_eq_bind,
    Option.bind_some]
  simp only [List.foldlM_cons, List.foldlM_nil, bind_pure]
  rw [pushByte_append rfl, Frame.push, if_neg (by rw [List.length_append]; omega),
    List.append_assoc]

/-- Payload bytes that the message still takes are appended to it. -/
theorem foldlM_body (pre : List Frame) (hdr : CMessageHeader) :
    ∀ (bs payload : List UInt8), payload.length + bs.length ≤ hdr.nMessageSize →
      bs.foldlM (pushByte config) (pre ++ [.body hdr payload]) =
        some (pre ++ [.body hdr (payload ++ bs)])
  | [], payload, _ => by rw [List.foldlM_nil, List.append_nil]; rfl
  | b :: bs, payload, hlen => by
    rw [List.length_cons] at hlen
    -- the message is not complete before the byte
    have hopen : (Frame.body hdr payload).complete = false := by
      rw [Frame.complete, beq_eq_false_iff_ne]
      omega
    rw [List.foldlM_cons, pushByte_append hopen, Frame.push, Option.map_some, Option.bind_eq_bind,
      Option.bind_some, foldlM_body pre hdr bs (payload ++ [b])
        (by rw [List.length_append, List.length_singleton]; omega), List.append_assoc,
      List.singleton_append]

end Framing

/-! ### The messages of the code and their frames -/

namespace CNetMessage

variable {config : NetConfig} {msg : CNetMessage}

theorem frame_of_inData_false (hin : msg.inData = false) :
    msg.frame = .header (msg.hdrbuf.take msg.nHdrPos) := by
  rw [frame, hin]
  rfl

theorem frame_of_inData_true (hin : msg.inData = true) :
    msg.frame = .body msg.hdr (msg.vRecv.take msg.nDataPos) := by
  rw [frame, hin]
  rfl

theorem Valid.complete_eq (hv : msg.Valid config) : msg.complete = msg.frame.complete := by
  rw [complete, frame]
  cases msg.inData with
  | false => rfl
  | true =>
    show (msg.hdr.nMessageSize == msg.nDataPos) =
      (Frame.body msg.hdr (msg.vRecv.take msg.nDataPos)).complete
    rw [Frame.complete, List.length_take, Nat.min_eq_left hv.nDataPos_le_length]

end CNetMessage

/-- The current message of the code is valid, not complete, and the one `openFrame` names. -/
theorem currentMessage_agrees {config : NetConfig} {msgs : List CNetMessage}
    (hv : ∀ m ∈ msgs, m.Valid config) :
    (∀ m ∈ (currentMessage config.netMagic msgs).1, m.Valid config) ∧
      (currentMessage config.netMagic msgs).2.Valid config ∧
      (currentMessage config.netMagic msgs).2.complete = false ∧
      ((currentMessage config.netMagic msgs).1.map CNetMessage.frame,
        (currentMessage config.netMagic msgs).2.frame) = openFrame (msgs.map CNetMessage.frame) := by
  rw [currentMessage, openFrame, List.getLast?_map]
  cases hlast : msgs.getLast? with
  | none =>
    refine ⟨(fun _ h => nomatch h), CNetMessage.valid_new config _, rfl, rfl⟩
  | some msg =>
    have hmsg : msg.Valid config := hv msg (List.mem_of_getLast? hlast)
    dsimp only [Option.map_some]
    rw [← hmsg.complete_eq]
    cases hc : msg.complete
    · -- the last message is still open
      refine ⟨fun m hm => hv m (List.dropLast_subset _ hm), hmsg, hc, ?_⟩
      rw [if_neg Bool.false_ne_true, if_neg Bool.false_ne_true, List.map_dropLast]
    · refine ⟨hv, CNetMessage.valid_new config _, rfl, ?_⟩
      rw [if_pos rfl, if_pos rfl]
      rfl

/-- One copy into a message agrees with framing the bytes it takes: it takes at least one byte and
at most all of them, and either the message of the code stays valid and frames as the bytes do,
or the code and the framing both refuse. -/
def CopyAgrees (config : NetConfig) (pre : List Frame) (msg : CNetMessage) (pch : List UInt8)
    (r : Except ReceiveError (CNetMessage × ℕ)) : Prop :=
  ∃ handled, 0 < handled ∧ handled ≤ pch.length ∧
    ((∃ msg', r = .ok (msg', handled) ∧ msg'.Valid config ∧
        (pch.take handled).foldlM (pushByte config) (pre ++ [msg.frame]) =
          some (pre ++ [msg'.frame])) ∨
      (r = .error .rejected ∧ (pch.take handled).foldlM (pushByte config) (pre ++ [msg.frame]) = none))

namespace CNetMessage

variable {config : NetConfig} {msg : CNetMessage}

/-- `readHeader` copies header bytes as framing them does, and refuses what framing refuses. -/
theorem readHeader_agrees (hv : msg.Valid config) (hin : msg.inData = false) (pre : List Frame)
    {pch : List UInt8} (hpch : pch ≠ []) : CopyAgrees config pre msg pch (msg.readHeader config pch) := by
  have hlt := hv.nHdrPos_lt hin
  have hbytes : (msg.hdrbuf.take msg.nHdrPos).length = msg.nHdrPos := by
    rw [List.length_take, hv.length_hdrbuf]
    omega
  -- at least one byte is copied, as the header is not full
  set nCopy := min (headerSize - msg.nHdrPos) pch.length with hnCopy
  have hpos : 0 < nCopy := by
    have := List.length_pos_of_ne_nil hpch
    omega
  have hsrc : (pch.take nCopy).length = nCopy := by
    rw [List.length_take]
    omega
  have hfit : msg.nHdrPos + (pch.take nCopy).length ≤ msg.hdrbuf.length := by
    rw [hsrc, hv.length_hdrbuf]
    omega
  have hbuf : (msg.hdrbuf.take msg.nHdrPos ++ pch.take nCopy ++
      msg.hdrbuf.drop (msg.nHdrPos + (pch.take nCopy).length)).take (msg.nHdrPos + nCopy) =
        msg.hdrbuf.take msg.nHdrPos ++ pch.take nCopy := by
    have h := @take_memcpy_write msg.hdrbuf (pch.take nCopy) msg.nHdrPos (by omega)
    rw [hsrc] at h ⊢
    exact h
  refine ⟨nCopy, hpos, Nat.min_le_right _ _, ?_⟩
  rw [readHeader]
  dsimp only
  rw [memcpy_of_le hfit, Except.bind_ok']
  by_cases hfull : msg.nHdrPos + nCopy < headerSize
  · -- the header is still short
    rw [if_pos hfull]
    refine .inl ⟨_, rfl, ⟨(length_memcpy_write (by omega) hfit).trans hv.length_hdrbuf,
      fun _ => hfull, hv.nDataPos_zero, hv.not_oversized, hv.nDataPos_le, hv.nDataPos_le_length,
      hv.hashed_eq⟩, ?_⟩
    rw [frame_of_inData_false hin, foldlM_header pre _ _ (by rw [hbytes, hsrc]; omega)]
    simp only [frame, hin, Bool.false_eq_true, if_false]
    rw [hbuf]
  · -- the header is full: it is read, then accepted or refused
    have hdrop : msg.hdrbuf.drop (msg.nHdrPos + (pch.take nCopy).length) = [] :=
      List.drop_eq_nil_of_le (by rw [hsrc, hv.length_hdrbuf]; omega)
    rw [if_neg hfull, hdrop, List.append_nil, frame_of_inData_false hin,
      foldlM_header_full pre (by rw [hbytes, hsrc]; omega) (List.ne_nil_of_length_pos
        (by rw [hsrc]; exact hpos)), acceptHeader]
    rcases hread : CMessageHeader.read.run (msg.hdrbuf.take msg.nHdrPos ++ pch.take nCopy) with
      _ | ⟨hdr, rest⟩
    · exact .inr ⟨rfl, rfl⟩
    · dsimp only
      cases hover : hdr.isOversized config
      · have hlen : (msg.hdrbuf.take msg.nHdrPos ++ pch.take nCopy).length = headerSize := by
          rw [List.length_append, hbytes, hsrc]
          omega
        refine .inl ⟨_, rfl, ⟨hlen, (fun h => nomatch h), (fun h => nomatch h), fun _ => hover, ?_,
          hv.nDataPos_le_length, hv.hashed_eq⟩, ?_⟩
        · show msg.nDataPos ≤ hdr.nMessageSize
          rw [hv.nDataPos_zero hin]
          exact Nat.zero_le _
        · simp only [frame, if_true, Bool.false_eq_true, if_false, Option.map_some]
          rw [hv.nDataPos_zero hin, List.take_zero]
      · exact .inr ⟨rfl, rfl⟩

/-- `readData` copies payload bytes as framing them does, within `vRecv`. -/
theorem readData_agrees (hv : msg.Valid config) (hin : msg.inData = true)
    (hc : msg.complete = false) (pre : List Frame) {pch : List UInt8} (hpch : pch ≠ []) :
    CopyAgrees config pre msg pch (msg.readData pch) := by
  have hlt := hv.nDataPos_lt hin hc
  -- at least one byte is copied, as the payload is not complete
  set nCopy := min (msg.hdr.nMessageSize - msg.nDataPos) pch.length with hnCopy
  have hpos : 0 < nCopy := by
    have := List.length_pos_of_ne_nil hpch
    omega
  have hsrc : (pch.take nCopy).length = nCopy := by
    rw [List.length_take]
    omega
  -- the buffer, grown if it must be, has room for the copy and keeps what it held
  set vRecv := if msg.vRecv.length < msg.nDataPos + nCopy then
      resize msg.vRecv (min msg.hdr.nMessageSize (msg.nDataPos + nCopy + 256 * 1024))
    else msg.vRecv with hvRecv
  have hroom : msg.nDataPos + nCopy ≤ vRecv.length := by
    rw [hvRecv]
    split_ifs
    · rw [length_resize]
      omega
    · omega
  have hkeep : vRecv.take msg.nDataPos = msg.vRecv.take msg.nDataPos := by
    rw [hvRecv]
    split_ifs
    · exact take_resize hv.nDataPos_le_length (by omega)
    · rfl
  have hfit : msg.nDataPos + (pch.take nCopy).length ≤ vRecv.length := by
    rw [hsrc]
    exact hroom
  have hbuf : (vRecv.take msg.nDataPos ++ pch.take nCopy ++
      vRecv.drop (msg.nDataPos + (pch.take nCopy).length)).take (msg.nDataPos + nCopy) =
        msg.vRecv.take msg.nDataPos ++ pch.take nCopy := by
    have h := @take_memcpy_write vRecv (pch.take nCopy) msg.nDataPos (by omega)
    rw [hsrc] at h
    rw [hsrc, h, hkeep]
  refine ⟨nCopy, hpos, Nat.min_le_right _ _, .inl ?_⟩
  rw [readData, memcpy_of_le hfit, Except.bind_ok']
  refine ⟨_, rfl, ⟨hv.length_hdrbuf, (fun h => nomatch hin.symm.trans h),
    (fun h => nomatch hin.symm.trans h), hv.not_oversized,
    show msg.nDataPos + nCopy ≤ msg.hdr.nMessageSize by omega, ?_, ?_⟩, ?_⟩
  · show msg.nDataPos + nCopy ≤ _
    rw [length_memcpy_write (by omega) hfit]
    exact hroom
  · show msg.hashed ++ pch.take nCopy = _
    rw [hbuf, hv.hashed_eq]
  · rw [frame_of_inData_true hin, foldlM_body pre msg.hdr _ _ (by
      rw [List.length_take, Nat.min_eq_left hv.nDataPos_le_length, hsrc]; omega)]
    simp only [frame, hin, if_true]
    rw [hbuf]

/-- Each pass of the loop copies at least one byte into a valid message that is not complete, as
framing them does. -/
theorem absorb_agrees (hv : msg.Valid config) (hc : msg.complete = false) (pre : List Frame)
    {pch : List UInt8} (hpch : pch ≠ []) : CopyAgrees config pre msg pch (msg.absorb config pch) := by
  rw [absorb]
  cases hin : msg.inData
  · exact readHeader_agrees hv hin pre hpch
  · exact readData_agrees hv hin hc pre hpch

end CNetMessage

/-! ### Calls of `ReceiveMsgBytes` -/

/-- The loop of `ReceiveMsgBytes`, with at least as much fuel as bytes, frames its bytes as the
fold of `pushByte` does from the frames of its messages: it refuses exactly when the fold does,
and otherwise leaves valid messages whose frames the fold gives. -/
theorem receiveLoop_agrees (config : NetConfig) :
    ∀ (fuel : ℕ) (msgs : List CNetMessage) (pch : List UInt8) (complete : Bool),
      (∀ m ∈ msgs, m.Valid config) → pch.length ≤ fuel →
      (receiveLoop config fuel msgs pch complete = .error .rejected ∧
          pch.foldlM (pushByte config) (msgs.map CNetMessage.frame) = none) ∨
        ∃ msgs' complete', receiveLoop config fuel msgs pch complete = .ok (msgs', complete') ∧
          (∀ m ∈ msgs', m.Valid config) ∧
          pch.foldlM (pushByte config) (msgs.map CNetMessage.frame) =
            some (msgs'.map CNetMessage.frame)
  | fuel, msgs, [], complete, hv, _ => .inr ⟨msgs, complete, by cases fuel <;> rfl, hv, rfl⟩
  | 0, _, _ :: _, _, _, hfuel => absurd hfuel (by rw [List.length_cons]; omega)
  | fuel + 1, msgs, b :: bs, complete, hv, hfuel => by
    rcases hcur : currentMessage config.netMagic msgs with ⟨front, msg⟩
    have hagree := currentMessage_agrees hv
    rw [hcur] at hagree
    obtain ⟨hfront, hmsg, hc, hframes⟩ := hagree
    -- the bytes go to the current message, as they go to the frame `openFrame` names
    have hfold : (b :: bs).foldlM (pushByte config) (msgs.map CNetMessage.frame) =
        (b :: bs).foldlM (pushByte config) (front.map CNetMessage.frame ++ [msg.frame]) := by
      rw [foldlM_openFrame _ (List.cons_ne_nil b bs), ← hframes]
    obtain ⟨handled, hpos, hle, hcopy⟩ :=
      CNetMessage.absorb_agrees hmsg hc (front.map CNetMessage.frame) (List.cons_ne_nil b bs)
    have hsplit : (b :: bs).foldlM (pushByte config) (front.map CNetMessage.frame ++ [msg.frame]) =
        ((b :: bs).take handled).foldlM (pushByte config)
          (front.map CNetMessage.frame ++ [msg.frame]) >>=
          fun frames => ((b :: bs).drop handled).foldlM (pushByte config) frames := by
      rw [← List.foldlM_append, List.take_append_drop]
    rcases hcopy with ⟨msg', hr, hmsg', hpush⟩ | ⟨hr, hpush⟩
    · -- the copy succeeded: the loop goes on with the bytes left
      have hstep : receiveLoop config (fuel + 1) msgs (b :: bs) complete =
          receiveLoop config fuel (front ++ [msg']) ((b :: bs).drop handled)
            (complete || msg'.complete) := by
        rw [receiveLoop, hcur]
        dsimp only
        rw [hr, Except.bind_ok']
        dsimp only
        rw [hmsg'.isOversizedMessage_eq_false, if_neg Bool.false_ne_true]
      have hv' : ∀ m ∈ front ++ [msg'], m.Valid config := by
        intro m hm
        rcases List.mem_append.mp hm with hm | hm
        · exact hfront m hm
        · rw [List.mem_singleton.mp hm]
          exact hmsg'
      have hrest := hsplit.trans (by rw [hpush, Option.bind_eq_bind, Option.bind_some])
      have ih := receiveLoop_agrees config fuel (front ++ [msg']) ((b :: bs).drop handled)
        (complete || msg'.complete) hv' (by
          rw [List.length_cons] at hle hfuel
          rw [List.length_drop, List.length_cons]
          omega)
      rw [List.map_append, List.map_singleton] at ih
      rw [hfold, hrest, hstep]
      exact ih
    · -- the copy refused, and so does the framing
      refine .inl ⟨?_, by rw [hfold, hsplit, hpush]; rfl⟩
      rw [receiveLoop, hcur]
      dsimp only
      rw [hr]
      rfl

/-- One call of `ReceiveMsgBytes` frames its bytes as the fold of `pushByte` does, and counts
them. -/
theorem receiveMsgBytes_agrees {config : NetConfig} {node : CNode}
    (hv : ∀ m ∈ node.vRecvMsg, m.Valid config) (pch : List UInt8) :
    (node.receiveMsgBytes config pch = .error .rejected ∧
        pch.foldlM (pushByte config) (node.vRecvMsg.map CNetMessage.frame) = none) ∨
      ∃ node' complete, node.receiveMsgBytes config pch = .ok (node', complete) ∧
        (∀ m ∈ node'.vRecvMsg, m.Valid config) ∧ node'.nRecvBytes = node.nRecvBytes + pch.length ∧
        pch.foldlM (pushByte config) (node.vRecvMsg.map CNetMessage.frame) =
          some (node'.vRecvMsg.map CNetMessage.frame) := by
  rcases receiveLoop_agrees config pch.length node.vRecvMsg pch false hv le_rfl with
    ⟨hr, hnone⟩ | ⟨msgs', complete, hr, hv', hsome⟩
  · exact .inl ⟨by rw [CNode.receiveMsgBytes, hr]; rfl, hnone⟩
  · exact .inr ⟨⟨msgs', node.nRecvBytes + pch.length⟩, complete,
      by rw [CNode.receiveMsgBytes, hr]; rfl, hv', rfl, hsome⟩

/-- Successive calls frame the concatenation of their chunks as the fold of `pushByte` does. -/
theorem feedChunks_agrees {config : NetConfig} :
    ∀ (chunks : List (List UInt8)) {node : CNode}, (∀ m ∈ node.vRecvMsg, m.Valid config) →
      (node.feedChunks config chunks = .error .rejected ∧
          chunks.flatten.foldlM (pushByte config) (node.vRecvMsg.map CNetMessage.frame) = none) ∨
        ∃ node', node.feedChunks config chunks = .ok node' ∧
          (∀ m ∈ node'.vRecvMsg, m.Valid config) ∧
          node'.nRecvBytes = node.nRecvBytes + chunks.flatten.length ∧
          chunks.flatten.foldlM (pushByte config) (node.vRecvMsg.map CNetMessage.frame) =
            some (node'.vRecvMsg.map CNetMessage.frame)
  | [], node, hv => .inr ⟨node, rfl, hv, rfl, rfl⟩
  | pch :: chunks, node, hv => by
    rw [List.flatten_cons, List.foldlM_append, List.length_append]
    rcases receiveMsgBytes_agrees hv pch with
      ⟨hr, hnone⟩ | ⟨node₁, complete, hr, hv₁, hbytes₁, hsome⟩
    · exact .inl ⟨by rw [CNode.feedChunks, hr]; rfl, by rw [hnone]; rfl⟩
    · have hfeed : node.feedChunks config (pch :: chunks) = node₁.feedChunks config chunks := by
        rw [CNode.feedChunks, hr]
        rfl
      rw [hsome, Option.bind_eq_bind, Option.bind_some, hfeed]
      rcases feedChunks_agrees chunks hv₁ with ⟨hr', hnone'⟩ | ⟨node', hr', hv', hbytes', hsome'⟩
      · exact .inl ⟨hr', hnone'⟩
      · exact .inr ⟨node', hr', hv', by rw [hbytes', hbytes₁, Nat.add_assoc], hsome'⟩

/-- Two nodes with valid messages of the same frames, and the same count of bytes, have received
the same. -/
theorem received_eq_of_frames {config : NetConfig} {node node' : CNode}
    (hv : ∀ m ∈ node.vRecvMsg, m.Valid config) (hv' : ∀ m ∈ node'.vRecvMsg, m.Valid config)
    (hframes : node.vRecvMsg.map CNetMessage.frame = node'.vRecvMsg.map CNetMessage.frame)
    (hbytes : node.nRecvBytes = node'.nRecvBytes) : node.received = node'.received := by
  -- the completeness of the last message is that of its frame
  have hlast : ∀ {msgs : List CNetMessage}, (∀ m ∈ msgs, m.Valid config) →
      msgs.getLast?.map CNetMessage.complete = (msgs.map CNetMessage.frame).getLast?.map Frame.complete := by
    intro msgs hvm
    rw [List.getLast?_map, Option.map_map]
    cases hl : msgs.getLast? with
    | none => rfl
    | some m =>
      rw [Option.map_some, Option.map_some, (hvm m (List.mem_of_getLast? hl)).complete_eq]
      rfl
  rw [CNode.received, CNode.received, hlast hv, hlast hv', hframes, hbytes]

/-- Message framing does not depend on how the stream is cut. From every node whose messages are
valid (a fresh node has none), feeding the chunks of a stream to `ReceiveMsgBytes` one call at a
time leaves the same messages, headers and payloads, the same completeness of the last one and
the same count of bytes as one call on the whole stream, or both calls return `false`. No call
copies past the end of a buffer or loops without consuming: every pass of its loop copies at
least one byte into a message that stays valid, its payload within `vRecv`, unless `readHeader`
refuses a header. -/
theorem receiveMsgBytes_chunking (config : NetConfig) (node : CNode)
    (hv : ∀ m ∈ node.vRecvMsg, m.Valid config) (chunks : List (List UInt8)) :
    (node.feedChunks config chunks).map CNode.received =
        (node.receiveMsgBytes config chunks.flatten).map (fun r => r.1.received) ∧
      (∀ pch, node.receiveMsgBytes config pch = .error .rejected ∨
        ∃ r, node.receiveMsgBytes config pch = .ok r) ∧
      ∀ msg : CNetMessage, msg.Valid config → msg.complete = false → ∀ pch : List UInt8, pch ≠ [] →
        msg.absorb config pch = .error .rejected ∨
          ∃ msg' handled, msg.absorb config pch = .ok (msg', handled) ∧ 0 < handled ∧
            handled ≤ pch.length ∧ msg'.Valid config ∧ msg'.nDataPos ≤ msg'.vRecv.length := by
  refine ⟨?_, fun pch => ?_, fun msg hmsg hc pch hpch => ?_⟩
  · -- both frame the concatenation of the chunks
    rcases feedChunks_agrees chunks hv with ⟨hfeed, hnone⟩ | ⟨node', hfeed, hv', hbytes', hsome'⟩ <;>
      rcases receiveMsgBytes_agrees hv chunks.flatten with
        ⟨hone, hnone'⟩ | ⟨node'', complete, hone, hv'', hbytes'', hsome''⟩
    · rw [hfeed, hone]
      rfl
    · rw [hnone] at hsome''
      cases hsome''
    · rw [hsome'] at hnone'
      cases hnone'
    · rw [hfeed, hone]
      rw [hsome'', Option.some_inj] at hsome'
      exact congrArg Except.ok
        (received_eq_of_frames hv' hv'' hsome'.symm (hbytes'.trans hbytes''.symm))
  · rcases receiveMsgBytes_agrees hv pch with ⟨hr, -⟩ | ⟨node', complete, hr, -⟩
    · exact .inl hr
    · exact .inr ⟨_, hr⟩
  · obtain ⟨handled, hpos, hle, ⟨msg', hr, hmsg', -⟩ | ⟨hr, -⟩⟩ :=
      CNetMessage.absorb_agrees hmsg hc [] hpch
    · exact .inr ⟨msg', handled, hr, hpos, hle, hmsg', hmsg'.nDataPos_le_length⟩
    · exact .inl hr

/-- A `ping` header with eight bytes of payload, cut inside the header and inside the payload: the
whole stream frames one complete message, and the three chunks frame the same. -/
theorem receiveMsgBytes_chunking_split :
    let config : NetConfig := ⟨[0xe3, 0xe1, 0xf3, 0xe8], 32000000⟩
    let stream : List UInt8 := [0xe3, 0xe1, 0xf3, 0xe8] ++ msgTypeBytes "ping" ++
      List.replicate 8 0 ++ [8, 0, 0, 0, 0, 0, 0, 0, 1, 2, 3, 4, 5, 6, 7, 8]
    let chunks := [stream.take 10, (stream.drop 10).take 20, stream.drop 30]
    (∀ m ∈ ([] : List CNetMessage), m.Valid config) ∧
      (CNode.receiveMsgBytes config ⟨[], 0⟩ stream).map (·.2) = .ok true ∧
      (CNode.feedChunks config ⟨[], 0⟩ chunks).map CNode.received =
        (CNode.receiveMsgBytes config ⟨[], 0⟩ chunks.flatten).map (fun r => r.1.received) := by
  intro config stream chunks
  exact ⟨(fun _ h => by cases h), by decide +kernel,
    (receiveMsgBytes_chunking config ⟨[], 0⟩ (fun _ h => by cases h) chunks).1⟩

end BitcoinCash
