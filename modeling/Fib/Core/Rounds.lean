import Fib.Core.Output

/-! The rounds of a TCP connection on a backend where reads pause in place: the readiness the loop notes, what
`process` does with it step by step, and the marks under which a read is owed. A step is one region under the
connection's lock together with the request to the loop made as it ends, one socket read, one handler call, or one
test made without the lock. Handlers and other goroutines act between the steps as the run says. -/

namespace Fib.Core

/-- A set of `evIn`, `evOut`, `evPri`, `evErr`, `evHup` and `evRdHup`. -/
structure Events where
  inp : Bool := false
  out : Bool := false
  pri : Bool := false
  err : Bool := false
  hup : Bool := false
  rdHup : Bool := false
deriving DecidableEq

namespace Events

def union (a b : Events) : Events :=
  ⟨a.inp || b.inp, a.out || b.out, a.pri || b.pri, a.err || b.err, a.hup || b.hup, a.rdHup || b.rdHup⟩

def inOutOnly (e : Events) : Bool := !e.pri && !e.err && !e.hup && !e.rdHup

end Events

/-- Where the goroutine of a round stands in `process`, with the events of its turn and what it defers; between
`loop` and `uncorkEnd` it is in `readLoop`. `idle` is a connection no round is scheduled for. -/
inductive Pc where
  | idle
  | top (deferred : Events)
  | flushable (events : Events)
  | flush (events : Events)
  | priority (events : Events)
  | input (events : Events)
  | defers (events : Events)
  | begin (events : Events)
  | loop (events : Events)
  | read (events : Events)
  | handler (events : Events) (short : Bool)
  | settleLong (events : Events)
  | settleEnd (events : Events)
  | charge (events : Events)
  | shouldStop (events : Events)
  | uncork (events : Events)
  | mustStop (events : Events)
  | recork (events : Events)
  | stall (events : Events)
  | uncorkEnd (events : Events) (err : Bool)
  | ending (events deferred : Events)
  | hangup (deferred : Events)
  | hangupStall (deferred : Events)
  | failing (deferred : Events)
deriving DecidableEq

/-- Where a round goes on when the flush before this point reports an error. -/
def Pc.onError : Pc → Pc
  | .settleEnd events => .uncorkEnd events true
  | .mustStop events => .uncorkEnd events true
  | _ => .failing {}

/-- What `sysRead` brings: data, less than the buffer holds or as much, the end of input, `EINTR`, `EAGAIN` or
another error. -/
inductive ReadResult where
  | data (short : Bool)
  | eof
  | intr
  | again
  | fail
deriving DecidableEq

/-- The answers a step of a round takes from outside: of the socket to writes and to a read, whether the round has
read `roundFlushBytes` since it last settled, and whether reading the urgent data failed. -/
structure Io where
  socket : List Wrote := []
  read : ReadResult := .again
  long : Bool := false
  priFails : Bool := false
deriving DecidableEq

structure ReadConfig extends Config where
  /-- Zero: no watermark. -/
  writeHighWatermark : ℕ := 0

structure Conn where
  out : Output := {}
  readPaused : Bool := false
  readStalled : Bool := false
  readDeferred : Bool := false
  roundStalled : Bool := false
  hupOwed : Bool := false
  /-- `flagReadHeld`. -/
  held : Bool := false
  /-- `flagNoWriteBackpressure`. -/
  noBackpressure : Bool := false
  /-- `coalesces()`. -/
  coalesces : Bool := true
  pendingEvents : Events := {}
  pc : Pc := .idle
  /-- The round's own flush has let others have the lock; the round waits for it. -/
  waiting : Bool := false
  /-- How many refreshes of the connection are queued for the loop. -/
  refreshes : ℕ := 0
  /-- The loop is about to hand a stalled read back. -/
  redelivering : Bool := false
  /-- Not in the source: an input edge was reported and no read has emptied the socket since. -/
  owed : Bool := false
deriving DecidableEq

namespace Conn
variable (cfg : ReadConfig) (s : Conn)

def scheduled : Bool := s.pc != .idle

def ended : Bool := s.out.closing || s.out.closed

def requestRefresh : Conn := { s with refreshes := s.refreshes + 1 }

/-! ### Pausing -/

/-- `pauseDecision`; the low watermark is a quarter of the high one. -/
def pauseDecision (readPaused : Bool) : Bool :=
  if s.held then true
  else if cfg.writeHighWatermark = 0 ∨ s.noBackpressure then false
  else if cfg.writeHighWatermark ≤ s.out.pendingBytes then true
  else readPaused && decide (cfg.writeHighWatermark / 4 < s.out.pendingBytes)

def readShouldStop : Bool := s.pauseDecision cfg false

/-- `settlePauseLocked`, with the refresh it asks for. -/
def settlePauseLocked : Conn :=
  let s := { s with out := s.out.foldCorkedLocked }
  let pause := s.pauseDecision cfg s.readPaused
  if s.ended then s
  else
    let s := { s with readPaused := pause }
    if pause || !s.readStalled then s
    else if !s.scheduled then s.requestRefresh
    else
      { s with
        readStalled := false
        pendingEvents := s.pendingEvents.union { inp := true } }

def stallRead : Conn := { s with readStalled := true }.settlePauseLocked cfg

/-- What follows in the region that changed the output: a flush that drained the queue hands the deferred read back,
and the pause is settled. -/
def settleOutput (r : Output × Output.Ending) : Conn :=
  let s := { s with out := r.1 }
  match r.2 with
  | .drained =>
    { s with
      readDeferred := false
      readStalled := s.readStalled || s.readDeferred }.settlePauseLocked cfg
  | .queued => s.settlePauseLocked cfg
  | .blocked => s.settlePauseLocked cfg
  | _ => s

/-! ### The event loop -/

def submit : Conn := { s with pc := if s.scheduled then s.pc else .top {} }

def noteEvent (events : Events) : Conn :=
  if events = {} ∨ s.ended then s
  else
    let stall := s.readPaused && events.inp && events.inOutOnly
    let s := { s with readStalled := s.readStalled || stall }
    let events := { events with inp := events.inp && !stall }
    if events = {} then s
    else if events = { out := true } ∧ s.out.isEmpty ∧ s.pendingEvents = {} then s
    else { s with pendingEvents := s.pendingEvents.union events }.submit

/-- The first region of `refreshConnection`. -/
def refreshConnection : Conn :=
  let s := { s with out := s.out.foldCorkedLocked }
  let pause := s.pauseDecision cfg s.readPaused
  { s with
    readPaused := pause
    readStalled := s.readStalled && pause
    redelivering := s.readStalled && !pause && !s.ended
    refreshes := s.refreshes - 1 }

/-! ### A round -/

def beginReadLocked : Conn :=
  { s with
    out := { s.out with corked := s.out.corked || s.coalesces }
    readStalled := false
    readDeferred := false
    roundStalled := false }

def takeEvents (deferred : Events) : Conn :=
  let pending := s.pendingEvents.union deferred
  if pending = deferred ∧ (deferred = {} ∨ !s.out.isEmpty) then
    { s with
      pendingEvents := pending
      readDeferred := deferred != {}
      hupOwed := s.hupOwed || deferred.rdHup
      pc := .idle }
  else
    let hup := s.hupOwed && pending.inp
    let events := { pending with rdHup := pending.rdHup || hup }
    let s :=
      { s with
        pendingEvents := {}
        roundStalled := false
        hupOwed := s.hupOwed && !hup }
    if s.ended then { s with pc := .failing {} }
    else if events.inp && !events.pri && s.out.isEmpty then { s.beginReadLocked with pc := .loop events }
    else { s with pc := .flushable events }

/-- A flush of the round's own: it goes on at `next` once the flush has ended. -/
def roundFlush (r : Output × Output.Ending) (next : Pc) : Conn :=
  { s.settleOutput cfg r with
    pc := if r.2 = .failed then next.onError else next
    waiting := r.2 == .window }

/-- The test of `process` that defers the read while output is queued. -/
def readDefers : Bool :=
  (cfg.writeHighWatermark == 0 && !s.noBackpressure) || s.readShouldStop cfg

/-- `sysRead`. -/
def readStep (events : Events) : ReadResult → Conn
  | .data short =>
    { s with
      owed := s.owed && !short
      pc := .handler events short }
  | .eof => { s with pc := .uncorkEnd events true }
  | .intr => { s with pc := .loop events }
  | .again =>
    { s with
      owed := false
      pc := .uncorkEnd events false }
  | .fail => { s with pc := .uncorkEnd events true }

/-- A step of the goroutine that runs the round, at this place in `process`. -/
def turnAt (io : Io) : Pc → Conn
  | .idle => s
  | .top deferred => s.takeEvents deferred
  | .flushable events =>
    -- `hasFlushableOutput`
    { s with pc := if events.out && !s.out.isEmpty && !s.out.corked then .flush events else .priority events }
  | .flush events => s.roundFlush cfg (s.out.flushLocked cfg.toConfig io.socket) (.priority events)
  | .priority events => { s with pc := if events.pri && io.priFails then .failing {} else .input events }
  | .input events =>
    if events.inp then
      -- `hasQueuedOutput`
      { s with
        out := s.out.foldCorkedLocked
        pc := if s.out.isEmpty then .begin events else .defers events }
    else { s with pc := .ending events {} }
  | .defers events =>
    { s with
      pc := if s.readDefers cfg then .ending events { inp := true, rdHup := events.rdHup } else .begin events }
  | .begin events => { s.beginReadLocked with pc := .loop events }
  | .loop events =>
    if s.held then
      { s with
        roundStalled := true
        pc := .stall events }
    else { s with pc := .read events }
  | .read events => s.readStep events io.read
  | .handler events short =>
    { s with
      pc := if short then .uncorkEnd events false else if io.long then .settleLong events else .charge events }
  | .settleLong events =>
    if s.coalesces then s.roundFlush cfg (s.out.uncork cfg.toConfig io.socket) (.settleEnd events)
    else { s with pc := .settleEnd events }
  | .settleEnd events =>
    if s.ended then { s with pc := .uncorkEnd events false }
    else
      { s with
        out := { s.out with corked := s.out.corked || s.coalesces }
        pc := .charge events }
  | .charge events =>
    { s with
      out := s.out.foldCorkedLocked
      pc := .shouldStop events }
  | .shouldStop events => { s with pc := if s.readShouldStop cfg then .uncork events else .loop events }
  | .uncork events => s.roundFlush cfg (s.out.uncork cfg.toConfig io.socket) (.mustStop events)
  | .mustStop events =>
    if s.readShouldStop cfg then
      { s with
        roundStalled := true
        pc := .stall events }
    else { s with pc := .recork events }
  | .recork events =>
    { s with
      out := { s.out with corked := s.out.corked || s.coalesces }
      pc := .loop events }
  | .stall events => { s.stallRead cfg with pc := .uncorkEnd events false }
  | .uncorkEnd events err =>
    s.roundFlush cfg (s.out.uncork cfg.toConfig io.socket) (if err then .failing {} else .ending events {})
  | .ending events deferred =>
    { s with
      pc :=
        if events.err then .failing deferred
        else if events.hup || (events.rdHup && !deferred.rdHup) then
          if s.held || s.roundStalled then .hangup deferred else .failing deferred
        else .top deferred }
  | .hangup deferred =>
    { s with
      hupOwed := true
      pc := .hangupStall deferred }
  | .hangupStall deferred => { s.stallRead cfg with pc := .top deferred }
  | .failing deferred =>
    { s with
      out := s.out.closeWithError
      pc := .top deferred }

def turn (io : Io) : Conn := if s.waiting then s else s.turnAt cfg io s.pc

/-! ### Everything that happens to a connection -/

inductive Op where
  /-- What handlers and other goroutines do to the output; a flush in its window goes on with `resume`. -/
  | output (op : Output.Op)
  /-- The poller reports events. -/
  | event (events : Events)
  /-- The loop carries out a queued refresh. -/
  | refresh
  /-- The loop hands a stalled read back, the rest of `refreshConnection`. -/
  | redeliver
  /-- `HoldReads`. -/
  | hold (hold : Bool)
  /-- `SetWriteBackpressure`. -/
  | backpressure (on : Bool)
  /-- `SetCoalesceWrites`. -/
  | coalesce (enabled : Bool)
  | turn (io : Io)
deriving DecidableEq

/-- `resume` ends the wait of the round whose flush it was. -/
def resumed (ending : Output.Ending) : Conn :=
  if s.waiting then
    { s with
      pc := if ending = .failed then s.pc.onError else s.pc
      waiting := ending == .window }
  else s

def onOutput (op : Output.Op) : Conn :=
  let r := s.out.act cfg.toConfig op
  match op with
  | .resume _ => if s.out.flushing then (s.settleOutput cfg r).resumed r.2 else s
  -- `closeConnection` has a round run `OnClose`
  | .markClosed => if s.out.closed then s else (s.settleOutput cfg r).submit
  | _ => s.settleOutput cfg r

def step : Op → Conn
  | .output op => s.onOutput cfg op
  | .event events => { s with owed := s.owed || events.inp }.noteEvent events
  | .refresh => if s.refreshes = 0 ∨ s.redelivering then s else s.refreshConnection cfg
  | .redeliver => if s.redelivering then { s with redelivering := false }.noteEvent { inp := true } else s
  | .hold hold => if s.held = hold then s else { s with held := hold }.requestRefresh
  | .backpressure on => if s.noBackpressure = !on then s else { s with noBackpressure := !on }.requestRefresh
  | .coalesce enabled => { s with coalesces := enabled }
  | .turn io => s.turn cfg io

end Conn

def connection (cfg : ReadConfig) : Machine Conn Conn.Op where
  init := {}
  step := Conn.step cfg

end Fib.Core
