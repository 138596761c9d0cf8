import Fib.Lib.Endian

/-! The sans-IO core of an RTMP connection: the chunk stream in both directions. -/

namespace Fib.Rtmp
open UInt8 Function

/-! ### Messages -/

def typeSetChunkSize : ℕ := 1

def typeAbort : ℕ := 2

def typeAck : ℕ := 3

def typeUserControl : ℕ := 4

def typeWindowAckSize : ℕ := 5

def typeSetPeerBandwidth : ℕ := 6

def typeAggregate : ℕ := 22

def eventPingRequest : ℕ := 6

def eventPingResponse : ℕ := 7

def maxChunkSize : ℕ := 0x7fffffff

/-- The timestamp field of a header that an extended timestamp follows. -/
def extended : ℕ := 0xffffff

def handshakeSize : ℕ := 1536

structure Message where
  typ : ℕ
  streamID : ℕ := 0
  timestamp : ℕ := 0
  /-- 0 lets `writeMessage` pick one. -/
  chunkStreamID : ℕ := 0
  payload : Bytes
deriving DecidableEq

inductive Error
  | chunk
  | messageTooLarge
  | closed
  | handshake
  /-- What `Output` returned. -/
  | output
  /-- What `OnMessage` returned. -/
  | onMessage
deriving DecidableEq

structure Reply where
  fails : Bool := false
  closes : Bool := false
deriving DecidableEq

structure Config where
  client : Bool := false
  maxMessageSize : ℕ := 8 * 2 ^ 20
  /-- Whether sending the last of these fails. -/
  output : List Bytes → Bool := fun _ => false
  /-- What is done about the last of these. -/
  onMessage : List Message → Reply := fun _ => {}
  /-- What a server answers to C0 and C1, if they are right. -/
  serverHandshake : Bytes → Option Bytes := fun _ => some []
  /-- What a client answers to S0 and S1, if they are right. -/
  clientAnswer : Bytes → Option Bytes := fun _ => some []

structure InStream where
  timestamp : ℕ := 0
  delta : ℕ := 0
  length : ℕ := 0
  typ : ℕ := 0
  streamID : ℕ := 0
  ext : Bool := false
  extValue : ℕ := 0
  buf : Bytes := []
deriving DecidableEq

def InStream.withBuf (s : InStream) (buf : Bytes) : InStream := { s with buf := buf }

structure OutStream where
  timestamp : ℕ := 0
  delta : ℕ := 0
  length : ℕ := 0
  typ : ℕ := 0
  streamID : ℕ := 0
  ext : Bool := false
  started : Bool := false
deriving DecidableEq

inductive Handshake
  | waiting
  | greeted
  | done
deriving DecidableEq

structure Conn where
  state : Handshake := .waiting
  inChunkSize : ℕ := 128
  inStreams : ℕ → Option InStream := fun _ => none
  /-- The ids `inStreams` has. -/
  inIds : List ℕ := []
  partialBytes : ℤ := 0
  bytesIn : ℕ := 0
  ackedIn : ℕ := 0
  peerWindow : ℕ := 0
  outChunkSize : ℕ+ := 128
  outStreams : ℕ → OutStream := fun _ => {}
  ownWindow : ℕ := 0
  closed : Bool := false
  /-- Not in the source: all that was given to `Output`. -/
  sent : List Bytes := []
  /-- Not in the source: all that `OnMessage` heard. -/
  heard : List Message := []

/-! ### Writing -/

def defaultChunkStream (typ : ℕ) : ℕ :=
  if 1 ≤ typ ∧ typ ≤ 6 then 2
  else if typ = 8 then 4
  else if typ = 9 then 6
  else if typ = 18 ∨ typ = 15 then 5
  else 3

def Message.csid (m : Message) : ℕ := if m.chunkStreamID = 0 then defaultChunkStream m.typ else m.chunkStreamID

def appendBasicHeader (format csid : ℕ) : Bytes :=
  if csid < 64 then [ofNat (format * 64 + csid)]
  else if csid < 64 + 256 then [ofNat (format * 64), ofNat (csid - 64)]
  else [ofNat (format * 64 + 1), ofNat (csid - 64), ofNat ((csid - 64) / 256)]

namespace OutStream
variable (s : OutStream) (m : Message)

/-- The stream's last message is what the next one's header can be told against. -/
def continues : Bool :=
  s.started && decide (s.streamID = m.streamID) && decide (s.timestamp ≤ m.timestamp)

def tsField : ℕ :=
  if s.continues m = true then m.timestamp - s.timestamp else m.timestamp

def format : ℕ :=
  if s.continues m = true then
    if m.payload.length % 2 ^ 32 ≠ s.length ∨ m.typ ≠ s.typ then 1
    else if s.tsField m ≠ s.delta then 2
    else 3
  else 0

def next : OutStream where
  started := true
  timestamp := m.timestamp
  delta := s.tsField m
  length := m.payload.length % 2 ^ 32
  typ := m.typ
  streamID := m.streamID
  ext := if s.format m ≠ 3 then decide (extended ≤ s.tsField m) else s.ext

end OutStream

def messageHeader (format tsField : ℕ) (m : Message) : Bytes :=
  let field := putBE 3 (min tsField extended)
  let rest := putBE 3 m.payload.length ++ putBE 1 m.typ
  match format with
  | 0 => field ++ rest ++ putLE 4 m.streamID
  | 1 => field ++ rest
  | 2 => field
  | _ => []

/-- The payload cut into chunks; the fuel is its length. -/
def pieces (size : ℕ+) : ℕ → Bytes → List Bytes
  | 0, p => [p]
  | fuel + 1, p => if p.length ≤ size then [p] else p.take size :: pieces size fuel (p.drop size)

namespace Conn
variable (cfg : Config) (c : Conn) (m : Message)

def output (c : Conn) (b : Bytes) : Option Error × Conn :=
  if c.closed = true then (some .closed, c)
  else (if cfg.output (c.sent ++ [b]) = true then some .output else none, { c with sent := c.sent ++ [b] })

def messageBytes : Bytes :=
  let s := c.outStreams m.csid
  let ext := if (s.next m).ext = true then putBE 4 (s.tsField m) else []
  appendBasicHeader (s.format m) m.csid ++ messageHeader (s.format m) (s.tsField m) m ++ ext ++
    (appendBasicHeader 3 m.csid ++ ext).intercalate (pieces c.outChunkSize m.payload.length m.payload)

def writeMessage : Option Error × Conn :=
  if c.closed = true then (some .closed, c)
  else
    let s := c.outStreams m.csid
    { c with outStreams := update c.outStreams m.csid (s.next m) }.output cfg (c.messageBytes m)

def chunkSizeOf (size : ℤ) : ℕ+ := ⟨(max 1 (min size maxChunkSize)).toNat, by omega⟩

def setChunkSizeMessage (size : ℤ) : Message := { typ := typeSetChunkSize, payload := putBE 4 (chunkSizeOf size) }

def setChunkSize (size : ℤ) : Option Error × Conn :=
  match c.writeMessage cfg (setChunkSizeMessage size) with
  | (some e, c) => (some e, c)
  | (none, c) => (none, { c with outChunkSize := chunkSizeOf size })

def writeWindowAckSize (size : ℕ) : Option Error × Conn :=
  { c with ownWindow := size }.writeMessage cfg { typ := typeWindowAckSize, payload := putBE 4 size }

def writeUserControl (event : ℕ) (args : List ℕ) : Option Error × Conn :=
  c.writeMessage cfg { typ := typeUserControl, payload := putBE 2 event ++ args.flatMap (putBE 4) }

/-! ### Reading -/

def onMessage (c : Conn) (m : Message) : Option Error × Conn :=
  let reply := cfg.onMessage (c.heard ++ [m])
  (if reply.fails = true then some .onMessage else none,
    { c with heard := c.heard ++ [m], closed := c.closed || reply.closes })

/-- The messages an aggregate message holds; the fuel is the length of what is left. -/
def aggregate (m : Message) : ℕ → Option ℕ → Bytes → Conn → Option Error × Conn
  | 0, _, _, c => (none, c)
  | fuel + 1, base, b, c =>
    if b.length < 11 then (none, c)
    else
      let size := getBE (slice b 1 3)
      let ts := getBE (slice b 7 1) * 2 ^ 24 + getBE (slice b 4 3)
      if b.length < 11 + size then (some .chunk, c)
      else
        match c.onMessage cfg ⟨getBE (slice b 0 1), m.streamID,
            (m.timestamp + ts + 2 ^ 32 - base.getD ts) % 2 ^ 32, m.chunkStreamID, slice b 11 size⟩ with
        | (some e, c) => (some e, c)
        | (none, c) => aggregate m fuel (some (base.getD ts)) (b.drop (11 + size + 4)) c

def setStream (csid : ℕ) (s : InStream) (held : ℤ) : Conn :=
  { c with inStreams := update c.inStreams csid (some s), partialBytes := held }

/-- An abort drops what another chunk stream holds. -/
def abort (csid id : ℕ) : Conn :=
  match c.inStreams id with
  | none => c
  | some a =>
    if id = csid then c
    else c.setStream id (a.withBuf []) (c.partialBytes - a.buf.length)

def isPing : Bool :=
  decide (m.typ = typeUserControl ∧ 6 ≤ m.payload.length ∧ getBE (slice m.payload 0 2) = eventPingRequest)

def message : Option Error × Conn :=
  if m.typ = typeSetChunkSize then
    if m.payload.length < 4 then (some .chunk, c)
    else if getBE (slice m.payload 0 4) % 2 ^ 31 = 0 then (some .chunk, c)
    else (none, { c with inChunkSize := getBE (slice m.payload 0 4) % 2 ^ 31 })
  else if m.typ = typeAbort then
    (none, if 4 ≤ m.payload.length then c.abort m.chunkStreamID (getBE (slice m.payload 0 4)) else c)
  else if m.typ = typeAck then (none, c)
  else if m.typ = typeWindowAckSize then
    (none, if 4 ≤ m.payload.length then { c with peerWindow := getBE (slice m.payload 0 4) } else c)
  else if m.typ = typeSetPeerBandwidth then
    if 4 ≤ m.payload.length ∧ getBE (slice m.payload 0 4) ≠ c.ownWindow then
      c.writeWindowAckSize cfg (getBE (slice m.payload 0 4))
    else (none, c)
  else if isPing m = true then c.writeUserControl cfg eventPingResponse [getBE (slice m.payload 2 4)]
  else if m.typ = typeAggregate then aggregate cfg m m.payload.length none m.payload c
  else c.onMessage cfg m

end Conn

/-- Format, chunk stream id and length of a basic header. -/
def basicHeader : Bytes → Option (ℕ × ℕ × ℕ)
  | [] => none
  | b :: rest =>
    if b.toNat % 64 = 0 then
      match rest with
      | b1 :: _ => some (b.toNat / 64, 64 + b1.toNat, 2)
      | [] => none
    else if b.toNat % 64 = 1 then
      match rest with
      | b1 :: b2 :: _ => some (b.toNat / 64, 64 + b1.toNat + b2.toNat * 256, 3)
      | _ => none
    else some (b.toNat / 64, b.toNat % 64, 1)

def headerSize : ℕ → ℕ
  | 0 => 11
  | 1 => 7
  | 2 => 3
  | _ => 0

/-- The fields of a message header, those it leaves out being the stream's. -/
structure Head where
  tsField : ℕ
  length : ℕ
  typ : ℕ
  streamID : ℕ
deriving DecidableEq

namespace InStream
variable (s : InStream)

def head (format : ℕ) (h : Bytes) : Head where
  tsField := if format ≤ 2 then getBE (slice h 0 3) else 0
  length := if format ≤ 1 then getBE (slice h 3 3) else s.length
  typ := if format ≤ 1 then getBE (slice h 6 1) else s.typ
  streamID := if format = 0 then getLE (slice h 7 4) else s.streamID

def continuing (format : ℕ) : Bool := !s.buf.isEmpty && decide (format = 3)

/-- The extended timestamp at `off`, if there is one, and where what follows it starts; none if not all of it is
there yet. -/
def readExt (format tsField : ℕ) (b : Bytes) (off : ℕ) : Option (Bool × ℕ × ℕ) :=
  if (format ≤ 2 ∧ tsField = extended) ∨ (format = 3 ∧ s.ext = true) then
    if b.length < off + 4 then none
    else if s.continuing format = true ∧ getBE (slice b off 4) ≠ s.extValue then
      -- some encoders leave it out of the chunks that continue a message
      some (false, getBE (slice b off 4), off)
    else some (true, getBE (slice b off 4), off + 4)
  else some (false, 0, off)

def start (format : ℕ) (h : Head) (ext : Bool) (extValue : ℕ) : InStream :=
  let ts := if ext = true then extValue else h.tsField
  { timestamp := if format = 0 then ts else if format ≤ 2 then (s.timestamp + ts) % 2 ^ 32
      else (s.timestamp + s.delta) % 2 ^ 32
    delta := if format ≤ 2 then ts else s.delta
    ext := if format ≤ 2 then ext else s.ext
    extValue := if format ≤ 2 then extValue else s.extValue
    length := h.length
    typ := h.typ
    streamID := h.streamID
    buf := [] }

def toMessage (csid : ℕ) (payload : Bytes) : Message :=
  ⟨s.typ, s.streamID, s.timestamp, csid, payload⟩

end InStream

namespace Conn
variable (cfg : Config) (c : Conn) (csid : ℕ)

def stream (format csid : ℕ) : Option (InStream × Conn) :=
  match c.inStreams csid with
  | some s => some (s, c)
  | none =>
    if format ≠ 0 then none
    else if 64 ≤ c.inIds.length then none
    else some ({}, { c with
      inStreams := update c.inStreams csid (some {})
      inIds := csid :: c.inIds })

def hold (s : InStream) (data : Bytes) (off : ℕ) : ℕ × Option Error × Conn :=
  if (cfg.maxMessageSize : ℤ) < c.partialBytes + data.length then (0, some .messageTooLarge, c)
  else
    let s := s.withBuf (s.buf ++ data)
    if s.buf.length < s.length then
      (off, none, c.setStream csid s (c.partialBytes + data.length))
    else
      let r := (c.setStream csid s (c.partialBytes + data.length - s.buf.length)).message cfg
        (s.toMessage csid s.buf)
      (off, r.1, r.2.setStream csid (s.withBuf []) r.2.partialBytes)

def begin (s s' : InStream) : Conn :=
  c.setStream csid s' (c.partialBytes - s.buf.length)

def payload (s s' : InStream) (format : ℕ) (data : Bytes) (off : ℕ) : ℕ × Option Error × Conn :=
  if s.continuing format = true then c.hold cfg csid s data off
  else if data.length = s'.length then
    let r := (c.begin csid s s').message cfg (s'.toMessage csid data)
    (off, r.1, r.2)
  else (c.begin csid s s').hold cfg csid s' data off

def dataLength (s : InStream) (format : ℕ) (h : Head) : ℕ :=
  min (h.length - if s.continuing format = true then s.buf.length else 0) c.inChunkSize

def body (s : InStream) (format : ℕ) (h : Head) (b : Bytes) (off : ℕ) : ℕ × Option Error × Conn :=
  match s.readExt format h.tsField b off with
  | none => (0, none, c)
  | some (ext, extValue, off) =>
    if cfg.maxMessageSize < h.length then (0, some .messageTooLarge, c)
    else
      let n := c.dataLength s format h
      if b.length < off + n then (0, none, c)
      else c.payload cfg csid s (s.start format h ext extValue) format (slice b off n) (off + n)

/-- Read one chunk: how much of the input it is, 0 when not all of it is there. -/
def chunk (c : Conn) (b : Bytes) : ℕ × Option Error × Conn :=
  match basicHeader b with
  | none => (0, none, c)
  | some (format, csid, off) =>
    if b.length < off + headerSize format then (0, none, c)
    else
      match c.stream format csid with
      | none => (0, some .chunk, c)
      | some (s, c) =>
        c.body cfg csid s format (s.head format (slice b off (headerSize format))) b (off + headerSize format)

/-- Acknowledge what the peer sent once its window is full. -/
def maybeAck : Option Error × Conn :=
  if c.peerWindow = 0 ∨ c.bytesIn - c.ackedIn < c.peerWindow then (none, c)
  else { c with ackedIn := c.bytesIn }.writeMessage cfg { typ := typeAck, payload := putBE 4 c.bytesIn }

def countIn (n : ℕ) : Conn := { c with bytesIn := c.bytesIn + n }

/-- Read chunks; the fuel is more than the input has bytes. -/
def readChunks : ℕ → Conn → Bytes → ℕ × Option Error × Conn
  | 0, c, _ => (0, none, c)
  | fuel + 1, c, b =>
    if c.closed = true then (0, none, c)
    else
      match c.chunk cfg b with
      | (_, some e, c) => (0, some e, c)
      | (0, none, c) => (0, none, c)
      | (n + 1, none, c) =>
        match (c.countIn (n + 1)).maybeAck cfg with
        | (some e, c) => (n + 1, some e, c)
        | (none, c) =>
          let r := readChunks fuel c (b.drop (n + 1))
          (n + 1 + r.1, r.2)

def handshakeStep (b : Bytes) : Option (ℕ × Option Error × Conn) :=
  if cfg.client = true then
    if b.length < 1 + 2 * handshakeSize then none
    else
      match cfg.clientAnswer (b.take (1 + handshakeSize)) with
      | none => some (0, some .handshake, c)
      | some reply =>
        match c.output cfg reply with
        | (some e, c) => some (1 + 2 * handshakeSize, some e, c)
        | (none, c) => some (1 + 2 * handshakeSize, none, { c with state := .done })
  else if c.state = .waiting then
    if b.length < 1 + handshakeSize then none
    else
      match cfg.serverHandshake (b.take (1 + handshakeSize)) with
      | none => some (0, some .handshake, c)
      | some reply =>
        match c.output cfg reply with
        | (some e, c) => some (1 + handshakeSize, some e, c)
        | (none, c) => some (1 + handshakeSize, none, { c with state := .greeted })
  else if b.length < handshakeSize then none
  else some (handshakeSize, none, { c with state := .done })

/-- Consume what can be of the input; the fuel is for the steps of the handshake. -/
def readFrom : ℕ → Conn → Bytes → ℕ × Option Error × Conn
  | 0, c, b => readChunks cfg (b.length + 1) c b
  | fuel + 1, c, b =>
    if c.state = .done then readChunks cfg (b.length + 1) c b
    else
      match c.handshakeStep cfg b with
      | none => (0, none, c)
      | some (n, some e, c) => (n, some e, c)
      | some (n, none, c) =>
        let r := readFrom fuel c (b.drop n)
        (n + r.1, r.2)

/-- The handshake takes two steps at most. -/
def read (b : Bytes) : ℕ × Option Error × Conn := readFrom cfg 2 c b

end Conn

structure Reader where
  conn : Conn := {}
  input : Bytes := []

def Reader.feed (cfg : Config) (r : Reader) (b : Bytes) : Option Error × Reader :=
  if r.conn.closed = true then (some .closed, r)
  else
    let b := r.input ++ b
    let res := r.conn.read cfg b
    (res.2.1, ⟨res.2.2, b.drop res.1⟩)

/-- The input given to the connection call by call. -/
def Reader.feeds (cfg : Config) (r : Reader) (calls : List Bytes) : Reader :=
  calls.foldl (fun r b => (r.feed cfg b).2) r

end Fib.Rtmp
