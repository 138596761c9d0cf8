import Fib.Lib.Bytes
import Fib.Lib.Runs

/-! Two Clients and the Streams they open to each other over one connection. The application's calls and the
goroutine that reads the connection go on side by side: each atomic action of a call, of `onStreamMessage`, of
`onMessage` and of `halfClose` is a step of its own. The connection carries what is sent in order. -/

namespace Fib.Arpc
open Function

structure Msg where
  id : ℕ
  fromLocal : Bool
  eof : Bool
  method : String
  payload : Bytes
deriving DecidableEq

/-- How far a `sync.Once` is. -/
inductive Once where
  | fresh
  | running
  | done
deriving DecidableEq

structure Stream where
  id : ℕ
  method : String
  isLocal : Bool
  chData : List Bytes := []
  recvClosed : Bool := false
  recvOnce : Once := .fresh
  sendClosed : Bool := false
  halves : ℕ := 0
  /-- Not in the source: whether the handler was called with the Stream. -/
  started : Bool := false
  /-- Not in the source: what `Recv` returned, in order. -/
  returned : List Bytes := []
  /-- Not in the source: whether a message was let go because the receiving half is closed. -/
  dropped : Bool := false
  /-- Not in the source: whether the application closed the receiving half. -/
  closedHere : Bool := false
  /-- Not in the source: whether `Recv` returned `io.EOF`. -/
  sawEOF : Bool := false
deriving DecidableEq

/-- Which case a `select` of `onMessage` takes: the queue, a `Recv` that waits, or the closed half. -/
inductive Choice where
  | queue
  | hand
  | drop
deriving DecidableEq

namespace Stream
variable (s : Stream)

/-- The application has the Stream: it opened it, or its handler was called with it. -/
def held : Bool := s.isLocal || s.started

def message (payload : Bytes) (eof : Bool) : Msg := ⟨s.id, s.isLocal, eof, s.method, payload⟩

/-- `none` while the case is not ready. -/
def onMessage (size : ℕ) (c : Choice) (payload : Bytes) : Option Stream :=
  if payload = [] then some s
  else match c with
    | .queue => if s.chData.length < size then some { s with chData := s.chData ++ [payload] } else none
    | .hand => if s.chData = [] ∧ s.held = true then some { s with returned := s.returned ++ [payload] } else none
    | .drop => if s.recvClosed = true then some { s with dropped := true } else none

/-- An open Stream with nothing queued is left as it is: `Recv` waits. -/
def recv : Stream :=
  match s.chData with
  | payload :: rest => { s with chData := rest, returned := s.returned ++ [payload] }
  | [] => if s.recvClosed = true then { s with sawEOF := true } else s

/-- The beginning of `CloseRecv`, which the application calls or, at an EOF, the reader. -/
def closeRecv (byApp : Bool) : Stream :=
  { s with recvClosed := true, recvOnce := .running, closedHere := s.closedHere || byApp }

/-- `halfClose` is over, in `CloseRecv` if `recv`. -/
def closed (recv : Bool) : Stream := if recv = true then { s with recvOnce := .done } else s

def countHalf : Stream := { s with halves := s.halves + 1 }

end Stream

inductive Call where
  | send (s : ℕ) (payload : Bytes) (eof : Bool)
  | halfClose (s : ℕ) (recv : Bool)
  | forget (s : ℕ) (recv : Bool)
deriving DecidableEq

def Call.stream : Call → ℕ
  | .send s _ _ => s
  | .halfClose s _ => s
  | .forget s _ => s

/-- Where the reader is in `onStreamMessage`. `isNew` marks a Stream the message opened. -/
inductive Reading where
  | onMessage (msg : Msg) (s : ℕ) (isNew : Bool)
  | closeRecv (s : ℕ) (isNew : Bool)
  | halfClose (s : ℕ) (isNew : Bool)
  | forget (s : ℕ) (isNew : Bool)
  | start (s : ℕ)
  | refuse (id : ℕ) (method : String)
deriving DecidableEq

def Reading.starts : Reading → Option ℕ
  | .onMessage _ s isNew => if isNew = true then some s else none
  | .closeRecv s isNew => if isNew = true then some s else none
  | .halfClose s isNew => if isNew = true then some s else none
  | .forget s isNew => if isNew = true then some s else none
  | .start s => some s
  | .refuse _ _ => none

/-- Where `onStreamMessage` goes after the message and its EOF. -/
def afterClose (s : ℕ) (isNew : Bool) : Option Reading := if isNew = true then some (.start s) else none

def afterMessage (eof : Bool) (s : ℕ) (isNew : Bool) : Option Reading :=
  if eof = true then some (.closeRecv s isNew) else afterClose s isNew

structure Client where
  seq : ℕ := 0
  streams : List Stream := []
  /-- `streamLocal` for `true`, `streamRemote` for `false`. -/
  table : Bool → ℕ → Option ℕ := fun _ _ => none
  calls : List Call := []
  reading : Option Reading := none
  /-- What the connection still carries to the peer. -/
  out : List Msg := []
  /-- Not in the source: everything sent. -/
  log : List Msg := []
  /-- Not in the source: the peer's messages `onStreamMessage` has handed on or let go. -/
  taken : List Msg := []
  /-- Not in the source: the ids of the Streams a handler was called with, one for each call. -/
  handled : List ℕ := []

namespace Client
variable (e : Client)

def setStream (i : ℕ) (s : Stream) : Client := { e with streams := e.streams.set i s }

def setTable (isLocal : Bool) (id : ℕ) (v : Option ℕ) : Client :=
  { e with table := update e.table isLocal (update (e.table isLocal) id v) }

def setReading (r : Option Reading) : Client := { e with reading := r }

def addCall (c : Call) : Client := { e with calls := e.calls ++ [c] }

def setCall (k : ℕ) (c : Call) : Client := { e with calls := e.calls.set k c }

def endCall (k : ℕ) : Client := { e with calls := e.calls.eraseIdx k }

def take (m : Msg) : Client := { e with taken := e.taken ++ [m] }

def post (m : Msg) : Client := { e with out := e.out ++ [m], log := e.log ++ [m] }

def handle (id : ℕ) : Client := { e with handled := e.handled ++ [id] }

def nextSeq : Client := { e with seq := e.seq + 1 }

def addStream (s : Stream) : Client :=
  { e with streams := e.streams ++ [s] }.setTable s.isLocal s.id (some e.streams.length)

def newStream (method : String) (id : ℕ) (isLocal : Bool) : Client :=
  if id = 0 then e.nextSeq.addStream { id := e.seq + 1, method, isLocal }
  else e.addStream { id, method, isLocal }

/-- The deletion at the end of `halfClose`. -/
def forget (i : ℕ) (s : Stream) : Client :=
  if e.table s.isLocal s.id = some i then e.setTable s.isLocal s.id none else e

/-! ### Calls of the application -/

/-- `Send`, up to where it has seen the sending half open. -/
def send (e : Client) (i : ℕ) (s : Stream) (payload : Bytes) : Client :=
  if s.sendClosed = true then e else e.addCall (.send i payload false)

/-- `SendAndClose`, and `CloseSend` with no payload, up to where the sending half is closed. -/
def sendAndClose (i : ℕ) (s : Stream) (payload : Bytes) : Client :=
  if s.sendClosed = true then e
  else (e.setStream i { s with sendClosed := true }).addCall (.send i payload true)

/-- While another `CloseRecv` is under way this one waits, and after it it has nothing to do. -/
def closeRecv (e : Client) (i : ℕ) (s : Stream) : Client :=
  if s.recvOnce = .fresh then (e.setStream i (s.closeRecv true)).addCall (.halfClose i true) else e

/-- The call goes one step on. `ok` is whether the value could be encoded and sent. -/
def advance (k : ℕ) (c : Call) (s : Stream) (ok : Bool) : Client :=
  match c with
  | .send i payload eof =>
    let e := if ok = true then e.post (s.message payload eof) else e
    if eof = true then e.setCall k (.halfClose i false) else e.endCall k
  | .halfClose i recv =>
    if s.halves + 1 = 2 then (e.setStream i s.countHalf).setCall k (.forget i recv)
    else (e.setStream i (s.countHalf.closed recv)).endCall k
  | .forget i recv => ((e.forget i s).setStream i (s.closed recv)).endCall k

/-! ### The reader -/

/-- The lookup of `onStreamMessage`. `handles` tells the methods with a handler. -/
def onStreamMessage (handles : String → Bool) (m : Msg) : Client :=
  match e.table (!m.fromLocal) m.id with
  | some i => e.setReading (some (.onMessage m i false))
  | none =>
    if handles m.method = false ∨ m.fromLocal = false then
      (e.take m).setReading (if m.fromLocal = true then some (.refuse m.id m.method) else none)
    else (e.newStream m.method m.id false).setReading (some (.onMessage m e.streams.length true))

def readStream (size : ℕ) (c : Choice) (r : Reading) (i : ℕ) (s : Stream) : Client :=
  match r with
  | .onMessage m _ isNew =>
    match s.onMessage size c m.payload with
    | none => e
    | some s' => ((e.setStream i s').take m).setReading (afterMessage m.eof i isNew)
  | .closeRecv _ isNew =>
    match s.recvOnce with
    | .fresh => (e.setStream i (s.closeRecv false)).setReading (some (.halfClose i isNew))
    | .running => e
    | .done => e.setReading (afterClose i isNew)
  | .halfClose _ isNew =>
    if s.halves + 1 = 2 then (e.setStream i s.countHalf).setReading (some (.forget i isNew))
    else (e.setStream i (s.countHalf.closed true)).setReading (afterClose i isNew)
  | .forget _ isNew => ((e.forget i s).setStream i (s.closed true)).setReading (afterClose i isNew)
  | .start _ => ((e.setStream i { s with started := true }).setReading none).handle s.id
  | .refuse _ _ => e

end Client

def Reading.stream : Reading → Option ℕ
  | .onMessage _ s _ => some s
  | .closeRecv s _ => some s
  | .halfClose s _ => some s
  | .forget s _ => some s
  | .start s => some s
  | .refuse _ _ => none

namespace Client

/-- The reader's next action. A refused message is answered with an EOF that lacks the local bit. -/
def read (e : Client) (size : ℕ) (c : Choice) : Client :=
  match e.reading with
  | none => e
  | some (.refuse id method) => (e.post ⟨id, false, true, method, []⟩).setReading none
  | some r =>
    match r.stream with
    | none => e
    | some i =>
      match e.streams[i]? with
      | none => e
      | some s => e.readStream size c r i s

end Client

/-- An action of a Client: `call` is a call that is not of a Stream and takes a sequence number, `look` takes the
next message off the connection. -/
inductive Act where
  | call
  | newStream (method : String)
  | send (s : ℕ) (payload : Bytes)
  | sendAndClose (s : ℕ) (payload : Bytes)
  | closeRecv (s : ℕ)
  | recv (s : ℕ)
  | advance (k : ℕ) (ok : Bool)
  | look
  | read (c : Choice)
deriving DecidableEq

structure Config where
  handles : Bool → String → Bool
  streamQueueSize : Bool → ℕ

namespace Client

/-- `f` at a Stream the application has. -/
def onHeld (e : Client) (i : ℕ) (f : Stream → Client) : Client :=
  match e.streams[i]? with
  | none => e
  | some s => if s.held = true then f s else e

def act (e : Client) (size : ℕ) : Act → Client
  | .call => e.nextSeq
  | .newStream method => e.newStream method 0 true
  | .send i payload => e.onHeld i fun s => e.send i s payload
  | .sendAndClose i payload => e.onHeld i fun s => e.sendAndClose i s payload
  | .closeRecv i => e.onHeld i fun s => e.closeRecv i s
  | .recv i => e.onHeld i fun s => e.setStream i s.recv
  | .advance k ok =>
    match e.calls[k]? with
    | none => e
    | some c =>
      match e.streams[c.stream]? with
      | none => e
      | some s => e.advance k c s ok
  | .look => e
  | .read c => e.read size c

end Client

abbrev Pair := Bool → Client

/-- The reader of `x` takes the next message, if it is done with the one before. -/
def look (cfg : Config) (st : Pair) (x : Bool) : Pair :=
  match (st x).reading, (st !x).out with
  | none, m :: rest =>
    update (update st (!x) { st !x with out := rest }) x ((st x).onStreamMessage (cfg.handles x) m)
  | _, _ => st

def step (cfg : Config) (st : Pair) (op : Bool × Act) : Pair :=
  if op.2 = .look then look cfg st op.1
  else update st op.1 ((st op.1).act (cfg.streamQueueSize op.1) op.2)

def machine (cfg : Config) : Machine Pair (Bool × Act) := ⟨fun _ => {}, step cfg⟩

end Fib.Arpc
