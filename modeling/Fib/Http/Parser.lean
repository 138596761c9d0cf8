import Fib.Http.ChunkScan
import Mathlib.Data.List.SplitOn

/-! The HTTP/1 request parser, fed with a connection's bytes as they arrive, with
`StreamRequestBody` off. -/

namespace Fib.Http

inductive TransferCoding
  | identity
  | gzip
  | deflate
  deriving DecidableEq

/-- What the parser looks at in a `net/http` request read from a head. -/
structure RequestHead where
  header : List Bytes
  protoAtLeast11 : Bool
  transferEncoding : List Bytes
  contentLength : ℤ
  close : Bool
  deriving DecidableEq

inductive CodingError
  | unsupported (msg : String)
  | other (msg : String)

/-- What the framing rests on and does not look into: pure functions of the bytes they are given. -/
structure Library where
  /-- The request of a head, and whether the simple parser took it. -/
  parseRequestHead : Bytes → Except String (RequestHead × Bool)
  /-- The head without the coding besides chunked, that coding, and the codings listed. -/
  splitTransferCodings : Bytes → Except CodingError (Option (Bytes × TransferCoding × List Bytes))
  /-- A whole chunked request, with its decoded body. -/
  readRequest : Bytes → Except String (RequestHead × Bytes)
  decodeWhole : TransferCoding → Bytes → ℕ → Except ParseError Bytes

structure FrameInfo where
  end_ : ℕ
  headerEnd : ℕ
  chunked : Bool
  coding : TransferCoding
  request : RequestHead
  block : Bool
  deriving DecidableEq

structure Request where
  head : Bytes
  request : RequestHead
  chunked : Bool
  coding : TransferCoding
  body : Bytes
  deriving DecidableEq

structure Parser where
  buffer : Bytes := []
  borrowed : Bool := false
  awaiting : Option FrameInfo := none
  headerScan : ℕ := 0
  chunks : ChunkScan := {}

def newConfig (config : Config) : Config where
  maxHeaderBytes := if config.maxHeaderBytes = 0 then 2 ^ 20 else config.maxHeaderBytes
  maxBodyBytes := if config.maxBodyBytes = 0 then 16 * 2 ^ 20 else config.maxBodyBytes

def lower (c : UInt8) : UInt8 := if 65 ≤ c ∧ c ≤ 90 then c + 32 else c

def equalFold (a b : Bytes) : Bool := a.map lower = b.map lower

def hasHeaderField (header name : Bytes) : Bool :=
  (header.splitOn 10).any fun line =>
    decide (line.length > name.length) && line.getD name.length 0 = 58 && equalFold (line.take name.length) name

def tokenByte (c : UInt8) : Bool :=
  (48 ≤ c ∧ c ≤ 57) ∨ (97 ≤ c ∧ c ≤ 122) ∨ (65 ≤ c ∧ c ≤ 90) ∨
    -- ! # $ % & ' * + - . ^ _ ` | ~
    c ∈ ([33, 35, 36, 37, 38, 39, 42, 43, 45, 46, 94, 95, 96, 124, 126] : Bytes)

def validFieldName (name : Bytes) : Bool := name ≠ [] && name.all tokenByte

/-- "transfer encoding" -/
def transferEncodingText : Bytes :=
  [116, 114, 97, 110, 115, 102, 101, 114, 32, 101, 110, 99, 111, 100, 105, 110, 103]

/-- "transfer-encoding" -/
def transferEncodingName : Bytes :=
  [116, 114, 97, 110, 115, 102, 101, 114, 45, 101, 110, 99, 111, 100, 105, 110, 103]

/-- "content-length" -/
def contentLengthName : Bytes := [99, 111, 110, 116, 101, 110, 116, 45, 108, 101, 110, 103, 116, 104]

/-- "chunked" -/
def chunkedName : Bytes := [99, 104, 117, 110, 107, 101, 100]

def transferEncodingError (msg : String) : Bool := (index transferEncodingText msg.toUTF8.toList).isSome

section Framing
variable (lib : Library) (config : Config)

/-- The request of a head and the coding besides chunked, taken out of the head where `net/http`
refuses it. -/
def readHead (head : Bytes) : Except ParseError (RequestHead × Bool × TransferCoding) :=
  match lib.parseRequestHead head with
  | .ok (req, true) => .ok (req, true, .identity)
  | parsed =>
    match headLineError head false with
    | some e => .error e
    | none =>
      match parsed with
      | .ok (req, block) => .ok (req, block, .identity)
      | .error msg =>
        if transferEncodingError msg then
          match lib.splitTransferCodings head with
          | .error (.unsupported msg) => .error (.unsupportedTransferEncoding msg)
          | .error (.other msg) => .error (.malformed msg)
          | .ok none => .error (.malformed "http: malformed request: unsupported transfer encoding")
          | .ok (some (rewritten, coding, list)) =>
            match lib.parseRequestHead rewritten with
            | .error msg => .error (.malformed msg)
            | .ok (req, block) => .ok ({ req with transferEncoding := list }, block, coding)
        else .error (.malformed msg)

def headFrame (head : Bytes) : Except ParseError FrameInfo :=
  match readHead lib head with
  | .error e => .error e
  | .ok (req, block, coding) =>
    if !block && req.header.any (fun key => !validFieldName key) then
      .error (.malformed "invalid header field name")
    else if !req.protoAtLeast11 && hasHeaderField head transferEncodingName then
      .error (.malformed "Transfer-Encoding in an HTTP/1.0 request")
    else if req.transferEncoding.length ≠ 0 then
      if coding = .identity ∧
          (req.transferEncoding.length ≠ 1 ∨ !equalFold (req.transferEncoding.getD 0 []) chunkedName) then
        .error (.unsupportedTransferEncoding "")
      else
        -- framed two ways, chunked wins and the connection ends after the request
        let close := req.close || hasHeaderField head contentLengthName
        .ok ⟨head.length, head.length, true, coding, { req with close := close }, block⟩
    else if req.contentLength < 0 then .ok ⟨head.length, head.length, false, .identity, req, block⟩
    else if req.contentLength > config.maxBodyBytes then .error .bodyTooLarge
    else .ok ⟨head.length + req.contentLength.toNat, head.length, false, .identity, req, block⟩

def maxPlainChunkDigits : ℕ := 15

def plainSizeFrom (len : ℕ) : ℕ → ℕ → Bytes → ℕ × ℕ
  | _, _, [] => (0, 0)
  | i, v, c :: b =>
    match hexDigit c with
    | some d => if i = maxPlainChunkDigits then (0, 0) else plainSizeFrom len (i + 1) (v * 16 + d) b
    | none =>
      if c = 13 ∧ 0 < i ∧ b.head? = some 10 then
        if v > len then (0, 0) else (v, i + 2)
      else (0, 0)

/-- The size on a line of bare hex digits and the line's length, zero for any other line. -/
def plainChunkSize (b : Bytes) : ℕ × ℕ := plainSizeFrom b.length 0 0 b

def plainChunks : ℕ → Bytes → Option Bytes
  | 0, _ => none
  | fuel + 1, body =>
    let (size, n) := plainChunkSize body
    if n = 0 then none
    else
      let body := body.drop n
      if size = 0 then if body = crlf then some [] else none
      else if size + 2 > body.length ∨ body.getD size 0 ≠ 13 ∨ body.getD (size + 1) 0 ≠ 10 then none
      else (plainChunks fuel (body.drop (size + 2))).map (body.take size ++ ·)

/-- The body of plain chunks that nothing but the blank line follows; none for any other. -/
def decodePlainChunks (body : Bytes) : Option Bytes := plainChunks (body.length + 1) body

/-- The request of a frame whose bytes are `message`, before a coding is decoded. -/
def wholeRequest (frame : FrameInfo) (message : Bytes) : Except ParseError Request :=
  let head := message.take frame.headerEnd
  let body := message.drop frame.headerEnd
  if frame.chunked then
    match (if frame.block then decodePlainChunks body else none) with
    | some body => .ok ⟨head, frame.request, true, frame.coding, body⟩
    | none =>
      match lib.readRequest message with
      | .error msg => .error (.malformed msg)
      | .ok (req, body) =>
        .ok ⟨head, { req with close := req.close || frame.request.close }, true, frame.coding, body⟩
  else if frame.request.contentLength > 0 then .ok ⟨head, frame.request, false, frame.coding, body⟩
  else .ok ⟨head, frame.request, false, frame.coding, []⟩

def receive (frame : FrameInfo) (message : Bytes) : Except ParseError Request :=
  match wholeRequest lib frame message with
  | .error e => .error e
  | .ok req =>
    if frame.coding = .identity then .ok req
    else
      match lib.decodeWhole frame.coding req.body config.maxBodyBytes with
      | .error e => .error e
      | .ok body => .ok { req with body := body }

namespace Parser
variable (p : Parser)

def own : Parser := { p with borrowed := false }

def discard : Parser := { p with buffer := [], borrowed := false, awaiting := none }

def appendBuffer (data : Bytes) : Parser :=
  if data.length = 0 then p else { p.own with buffer := p.buffer ++ data }

def consume (n : ℕ) : Parser :=
  let p := if n = p.buffer.length then p.discard else { p with buffer := p.buffer.drop n }
  { p with headerScan := 0 }

def chunkedFrame (frame : FrameInfo) : Parser × Except ParseError (Option FrameInfo) :=
  let p := { p with awaiting := none }
  match chunkedEnd config p.buffer frame.headerEnd p.chunks with
  | (scan, .error e) => ({ p with chunks := scan }, .error e)
  | (scan, .ok none) => ({ p with chunks := scan, awaiting := some frame }, .ok none)
  | (scan, .ok (some end_)) => ({ p with chunks := scan }, .ok (some { frame with end_ := end_ }))

def frameLength : Parser × Except ParseError (Option FrameInfo) :=
  match p.awaiting with
  | some frame =>
    if frame.chunked then p.chunkedFrame config frame
    else if frame.end_ > p.buffer.length then (p, .ok none)
    else ({ p with awaiting := none }, .ok (some frame))
  | none =>
    match indexFrom headEnd p.headerScan p.buffer with
    | none =>
      if p.buffer.length > config.maxHeaderBytes then (p, .error .headerTooLarge)
      else ({ p with headerScan := p.buffer.length - 3 }, .ok none)
    | some headerAt =>
      let headerEnd := headerAt + 4
      if headerEnd > config.maxHeaderBytes then (p, .error .headerTooLarge)
      else
        match headFrame lib config (p.buffer.take headerEnd) with
        | .error e => (p, .error e)
        | .ok frame =>
          if frame.chunked then { p with chunks := {} }.chunkedFrame config frame
          else if frame.end_ > p.buffer.length then ({ p with awaiting := some frame }, .ok none)
          else (p, .ok (some frame))

def feedOne : Parser × Except ParseError (Option Request) :=
  match p.frameLength lib config with
  | (p, .error e) => ({ p.discard with headerScan := 0 }, .error e)
  | (p, .ok none) => (p, .ok none)
  | (p, .ok (some frame)) =>
    match receive lib config frame (p.buffer.take frame.end_) with
    | .error e => (p.discard, .error e)
    | .ok req => (p.consume frame.end_, .ok (some req))

def FeedOne (data : Bytes) : Parser × Except ParseError (Option Request) :=
  (p.appendBuffer data).feedOne lib config

/-- The bytes are parsed where they are when nothing is buffered. -/
def feedBorrowed (data : Bytes) : Parser × Except ParseError (Option Request) :=
  if p.buffer.length = 0 ∧ data.length > 0 then
    { p.discard with buffer := data, borrowed := true }.feedOne lib config
  else (p.appendBuffer data).feedOne lib config

/-- The bytes of a round that are still borrowed when it ends are overwritten. -/
def roundEnded (overwrite : Bytes → Bytes) (p : Parser) : Parser :=
  if p.borrowed then { p with buffer := overwrite p.buffer } else p

end Parser
end Framing

section Rounds
variable (feed : Parser → Bytes → Parser × Except ParseError (Option Request))

/-- One read: `data` is fed, and then nothing, until no more requests are complete. -/
def feedRound : ℕ → Parser → Bytes → Parser × List Request × Bool
  | 0, p, _ => (p, [], false)
  | fuel + 1, p, data =>
    match feed p data with
    | (p, .error _) => (p, [], true)
    | (p, .ok none) => (p, [], false)
    | (p, .ok (some req)) =>
      let (p, reqs, refused) := feedRound fuel p []
      (p, req :: reqs, refused)

/-- The requests of a connection whose reads are `pieces`, and whether it is then refused. -/
def feedAll (endRound : Parser → Parser) : Parser → List Bytes → List Request × Bool
  | _, [] => ([], false)
  | p, data :: pieces =>
    match feedRound feed (p.buffer.length + data.length + 1) p data with
    | (_, reqs, true) => (reqs, true)
    | (p, reqs, false) =>
      let (reqs', refused) := feedAll endRound (endRound p) pieces
      (reqs ++ reqs', refused)

end Rounds

section Connection
variable (lib : Library) (config : Config)

def fedRequests (pieces : List Bytes) : List Request × Bool :=
  feedAll (Parser.FeedOne lib (newConfig config)) id {} pieces

def borrowedRequests (overwrite : Bytes → Bytes) (pieces : List Bytes) : List Request × Bool :=
  feedAll (Parser.feedBorrowed lib (newConfig config)) (fun p => p.own.roundEnded overwrite) {} pieces

end Connection
end Fib.Http
