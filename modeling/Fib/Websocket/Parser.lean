import Fib.Websocket.Frame

/-! The incremental parser: frames are read from the parser's own buffer or in place from the read
that brought them, a partial frame is copied out or completed exactly to its end with the rest kept
aside, and text is checked before its frame is whole. -/

namespace Fib.Websocket

structure Parser extends Settings where
  buffer : Bytes := []
  borrowedTail : Bytes := []
  pendingConsume : ℕ := 0
  borrowedBuffer : Bool := false
  fragment : Option FragmentedMessage := none
  text : Utf8Validator := {}
  textChecked : ℕ := 0

section
variable (text : Utf8Validator)

/-- `NewParser` and `NewServerFrameParser`, with `SetPerFrame`. -/
def newParser (maxMessageBytes : ℤ) (fromServer perFrame : Bool) : Parser where
  maxMessageBytes := if maxMessageBytes ≤ 0 then 16 * 2 ^ 20 else maxMessageBytes.toNat
  fromServer := fromServer
  perFrame := perFrame

def frameHeaderSize (data : Bytes) : ℕ :=
  if data.length < 2 then 2
  else
    let size := if data.getD 1 0 &&& 0x80 ≠ 0 then 6 else 2
    if data.getD 1 0 &&& 0x7f = 126 then size + 2
    else if data.getD 1 0 &&& 0x7f = 127 then size + 8
    else size

/-- `^uint(0)>>1`, the largest int. -/
def maxInt : ℕ := 2 ^ 63 - 1

def frameSize (data : Bytes) : Option ℕ :=
  let headerSize := frameHeaderSize data
  if data.length < headerSize then none
  else
    let payloadLen :=
      if data.getD 1 0 &&& 0x7f = 126 then bigEndian ((data.drop 2).take 2)
      else if data.getD 1 0 &&& 0x7f = 127 then bigEndian ((data.drop 2).take 8)
      else (data.getD 1 0 &&& 0x7f).toNat
    if payloadLen > maxInt - headerSize then none else some (headerSize + payloadLen)

/-- Each turn of the loop appends the rest of a header, until the frame's end is known. -/
def appendCurrentFrame (buffer data : Bytes) : Bytes × Bytes :=
  match frameSize buffer with
  | some frameEnd =>
    if frameEnd ≤ buffer.length ∨ frameEnd - buffer.length ≥ data.length then (buffer ++ data, [])
    else (buffer ++ data.take (frameEnd - buffer.length), data.drop (frameEnd - buffer.length))
  | none =>
    if frameHeaderSize buffer ≤ buffer.length ∨ frameHeaderSize buffer - buffer.length ≥ data.length then
      (buffer ++ data, [])
    else
      appendCurrentFrame (buffer ++ data.take (frameHeaderSize buffer - buffer.length))
        (data.drop (frameHeaderSize buffer - buffer.length))
termination_by data.length
decreasing_by rw [List.length_drop]; omega

/-- The loop of `checkPartialText` over a masked payload, 512 bytes at a time. -/
def writeChunks (mask available : Bytes) (i : ℕ) (v : Utf8Validator) : Option Utf8Validator :=
  if i < available.length then
    match v.write (maskFrom mask i ((available.drop i).take 512)) with
    | none => none
    | some v' => writeChunks mask available (i + min 512 (available.length - i)) v'
  else some v
termination_by available.length - i

/-- The validator after the bytes that arrived since the last call, and how many it has then seen. -/
def checkPartialText (checked : ℕ) (available : Bytes) (mask : Option Bytes) : Option (Utf8Validator × ℕ) :=
  if available.length ≤ checked then some (text, checked)
  else
    let written := match mask with
      | none => text.write (available.drop checked)
      | some mask => writeChunks mask available checked text
    written.map fun v => (v, available.length)

def writeText (payload : Bytes) : Except WsError Utf8Validator :=
  match text.write payload with
  | none => .error .invalidPayload
  | some v => .ok v

/-- The last frame of a text message: the validator is reset. -/
def endText : Except WsError Utf8Validator :=
  if text.complete then .ok {} else .error .invalidPayload

def checkPayload (checked : ℕ) (h : Header) (payload : Bytes) : Except WsError Utf8Validator :=
  match h.opcode with
  | .close => (checkClose payload).map fun _ => text
  | .ping | .pong => .ok text
  | .text | .binary =>
    if h.text then
      if h.fin then
        if checked = 0 then if Utf8.valid payload then .ok {} else .error .invalidPayload
        else writeText text (payload.drop checked) >>= endText
      else writeText text (payload.drop checked)
    else .ok text
  | .continuation =>
    if h.text then
      writeText text (payload.drop checked) >>= fun v => if h.fin then endText v else .ok v
    else .ok (if h.fin then {} else text)

end

namespace Parser
variable (p : Parser)

def consume (n : ℕ) : Parser :=
  if n = p.buffer.length then { p with buffer := [], borrowedBuffer := false }
  else { p with buffer := p.buffer.drop n }

def finishFrame (frameEnd : ℕ) (borrowed : Bool) : Parser :=
  if borrowed then { p with pendingConsume := frameEnd } else p.consume frameEnd

def adopt : Parser := { p with borrowedBuffer := false }

def unmaskInPlace (h : Header) (borrowPayload : Bool) : Parser :=
  if borrowPayload then
    { p with buffer := p.buffer.take h.offset ++ h.payload p.buffer ++ p.buffer.drop (h.offset + h.payloadLen) }
  else p

inductive Next
  | failed (e : WsError)
  | incomplete (p : Parser)
  | complete (event : Option Event) (p : Parser)

def next (borrowPayload : Bool) : Next :=
  match readHeader p.toSettings p.fragment p.buffer with
  | .error none => .incomplete p
  | .error (some e) => .failed e
  | .ok h =>
    if h.payloadLen > p.buffer.length - h.offset then
      if h.text then
        match checkPartialText p.text p.textChecked (p.buffer.drop h.offset) h.mask with
        | none => .failed .invalidPayload
        | some (text, textChecked) => .incomplete { p with text := text, textChecked := textChecked }
      else .incomplete p
    else
      let payload := h.payload p.buffer
      match checkPayload p.text p.textChecked h payload with
      | .error e => .failed e
      | .ok text =>
        let d := deliver p.toSettings p.fragment h payload
        let p' := { p.unmaskInPlace h borrowPayload with text := text, textChecked := 0, fragment := d.fragment }
        let frameEnd := h.offset + h.payloadLen
        .complete d.event (if held p.toSettings h then p'.consume frameEnd else p'.finishFrame frameEnd borrowPayload)

inductive Fed
  | failed (e : WsError) (p : Parser)
  | incomplete (p : Parser)
  | event (e : Event) (p : Parser)

def dropped : Parser :=
  { p with
    buffer := []
    borrowedBuffer := false
    borrowedTail := []
    fragment := none
    text := {}
    textChecked := 0 }

/-- The bytes behind the frame become the buffer, still in the read that brought them. -/
def takeTail : Parser :=
  if p.buffer = [] ∧ p.borrowedTail ≠ [] then
    { p with buffer := p.borrowedTail, borrowedTail := [], borrowedBuffer := true }
  else p

def feedLoop (borrowPayload : Bool) : ℕ → Parser → Fed
  | 0, p => .incomplete p
  | fuel + 1, p =>
    match p.next borrowPayload with
    | .failed e => .failed e p.dropped
    | .incomplete p =>
      if p.buffer = [] ∧ p.borrowedTail ≠ [] then feedLoop borrowPayload fuel p.takeTail
      else .incomplete (if p.borrowedBuffer = true ∧ p.buffer ≠ [] then p.adopt else p)
    | .complete (some e) p => .event e p
    | .complete none p => feedLoop borrowPayload fuel p

def consumePending : Parser :=
  if p.pendingConsume ≠ 0 then { p.consume p.pendingConsume with pendingConsume := 0 } else p

/-- The data is lent, completes the frame in the parser's own buffer, or is appended to it. -/
def accept (data : Bytes) (borrowPayload : Bool) : Parser :=
  if borrowPayload = true ∧ p.buffer = [] ∧ data ≠ [] then { p with buffer := data, borrowedBuffer := true }
  else if borrowPayload = true ∧ p.borrowedBuffer = false ∧ p.buffer ≠ [] ∧ data ≠ [] then
    { p with
      buffer := (appendCurrentFrame p.buffer data).1
      borrowedTail := (appendCurrentFrame p.buffer data).2 }
  else
    let p' := if p.borrowedBuffer = true ∧ data ≠ [] then p.adopt else p
    { p' with buffer := p'.buffer ++ data }

def feedOne (data : Bytes) (borrowPayload : Bool) : Fed :=
  let p := (p.consumePending.takeTail).accept data borrowPayload
  feedLoop borrowPayload (p.buffer.length + p.borrowedTail.length + 2) p

def releaseBorrowed : Parser :=
  let p := { p.consumePending with borrowedTail := [] }
  if p.borrowedBuffer then { p with buffer := [], borrowedBuffer := false } else p

/-- A read is fed to one entry point or the other and drained with nil, each call as `modes` says. -/
def drainRead (modes : ℕ → Bool) : ℕ → ℕ → Parser → Bytes → List Event × Option WsError × Parser
  | 0, _, p, _ => ([], none, p)
  | fuel + 1, k, p, data =>
    match p.feedOne data (modes k) with
    | .failed e p => ([], some e, p)
    | .incomplete p => ([], none, p)
    | .event e p =>
      let (events, err, p) := drainRead modes fuel (k + 1) p []
      (e :: events, err, p)

def unread : Bytes := p.buffer.drop p.pendingConsume ++ p.borrowedTail

/-- `Feed`: the calls are all of `FeedOne`. A call that emits consumes a byte, so they end. -/
def feed (data : Bytes) : List Event × Option WsError :=
  let r := p.drainRead (fun _ => false) ((p.unread ++ data).length + 1) 0 data
  (r.1, r.2.1)

/-- A read: its bytes, and whether each call that drains it is of `FeedOneBorrowed`. -/
structure Read where
  data : Bytes
  borrowed : ℕ → Bool

/-- The reads are drained in turn, with `ReleaseBorrowed` after each; an error ends the stream. -/
def feedReads : Parser → List Read → List Event × Option WsError
  | _, [] => ([], none)
  | p, r :: reads =>
    match p.drainRead r.borrowed ((p.unread ++ r.data).length + 1) 0 r.data with
    | (events, some e, _) => (events, some e)
    | (events, none, p) =>
      let rest := feedReads p.releaseBorrowed reads
      (events ++ rest.1, rest.2)

end Parser
end Fib.Websocket
