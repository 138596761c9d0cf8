import Fib.Lib.Runs

/-! The receiving half of an HTTP/2 server connection: how much of the connection's window the client has
taken, what is given back of it and when, and what the bodies still to be consumed hold. A definition that
changes the connection is one region the source runs with the connection's lock held, so a run is a list of
such regions in the order the lock was taken. -/

namespace Fib.Http2
open Function Finset Or

def h2DefaultWindow : ℤ := 65535

def h2MaxWindow : ℤ := 2 ^ 31 - 1

def defaultH2StreamWindow : ℤ := 2 ^ 20

def defaultH2ConnWindow : ℤ := 2 ^ 24

/-- A configured window, or `default` for zero, kept within what a window may be. -/
def h2WindowSetting (n default : ℤ) : ℤ :=
  min (max (if n = 0 then default else n) h2DefaultWindow) h2MaxWindow

structure HTTP2Config where
  streamWindow : ℤ := 0
  connWindow : ℤ := 0
deriving DecidableEq

/-- What the server lets the client send (`h2Local`). -/
structure Local where
  streamWindow : ℤ
  connWindow : ℤ
deriving DecidableEq

def HTTP2Config.locals (c : HTTP2Config) : Local :=
  ⟨h2WindowSetting c.streamWindow defaultH2StreamWindow, h2WindowSetting c.connWindow defaultH2ConnWindow⟩

/-- `grow`: the windows after a measurement asks for a stream window of `stream`, with what the streams'
and the connection's window grew by. -/
def Local.grow (l : Local) (stream : ℤ) : Local × ℤ × ℤ :=
  (⟨stream, max stream l.connWindow⟩, stream - l.streamWindow, max stream l.connWindow - l.connWindow)

structure RecvStream where
  remoteDone : Bool := false
  localDone : Bool := false
  /-- The body streams to its handler. -/
  feed : Bool := false
  /-- A CONNECT's tunnel, and whether its handler holds its reads. -/
  tunnel : Option Bool := none
  recvWindow : ℤ := 0
  recvUnacked : ℤ := 0
  creditSkip : ℕ := 0
  connHeld : ℕ := 0
  /-- Not in the source: what has arrived of a body that streams and its handler has yet to consume. -/
  unconsumed : ℕ := 0
deriving DecidableEq

/-- The connection. `streams` has the ids of the open streams, `stream` every stream by its id, since a
handler may keep one past its end. -/
structure RecvConn where
  locals : Local
  recvWindow : ℤ
  recvUnacked : ℤ := 0
  streams : Finset ℕ := ∅
  stream : ℕ → RecvStream := fun _ => {}
  maxClientID : ℕ := 0
  nextPushID : ℕ := 2
  closed : Bool := false
  /-- The WINDOW_UPDATE frames sent, each with its stream, or none for the connection's. -/
  sent : List (Option ℕ × ℤ) := []
  /-- Not in the source: the DATA bytes taken, padding included. -/
  received : ℤ := 0

open RecvConn

inductive Verdict where
  | connError
  | streamError
  | streamed
  | tunnel
  | collected
deriving DecidableEq

namespace RecvConn
section
variable (sc : RecvConn)

def setStream (id : ℕ) (st : RecvStream) : RecvConn :=
  { sc with stream := update sc.stream id st }

/-- A WINDOW_UPDATE handed to `sendLocked`, which drops it once the connection has ended. -/
def sendUpdate (id : Option ℕ) (increment : ℤ) : RecvConn :=
  { sc with sent := if sc.closed then sc.sent else sc.sent ++ [(id, increment)] }

/-- A connection as it starts: what its preface grants beyond the protocol's default has gone. -/
def start (c : HTTP2Config) : RecvConn where
  locals := c.locals
  recvWindow := c.locals.connWindow
  sent := if h2DefaultWindow < c.locals.connWindow then [(none, c.locals.connWindow - h2DefaultWindow)] else []

def creditConnLocked (n : ℤ) : RecvConn :=
  if sc.recvUnacked + n = 0 ∨
      sc.recvUnacked + n < sc.locals.connWindow / 2 ∧ sc.recvUnacked + n < sc.recvWindow then
    { sc with recvUnacked := sc.recvUnacked + n }
  else
    { sc with
      recvWindow := sc.recvWindow + (sc.recvUnacked + n)
      recvUnacked := 0 }.sendUpdate none (sc.recvUnacked + n)

def idleLocked (id : ℕ) : Bool :=
  if id % 2 = 0 then sc.nextPushID ≤ id else sc.maxClientID < id

/-- The frame's data is a body's that streams to its handler, which holds the window until it is consumed. -/
def Holds (id : ℕ) (length : ℤ) : Prop :=
  id ∈ sc.streams ∧ (sc.stream id).remoteDone = false ∧ (sc.stream id).feed = true ∧
    length ≤ (sc.stream id).recvWindow

end

instance (sc : RecvConn) (id : ℕ) (length : ℤ) : Decidable (sc.Holds id length) :=
  inferInstanceAs (Decidable (_ ∧ _))

variable (sc : RecvConn) (id payload padding : ℕ)

def verdict (id : ℕ) : Verdict :=
  if sc.idleLocked id then .connError
  else if id ∉ sc.streams ∨ (sc.stream id).remoteDone = true then .streamError
  else if (sc.stream id).feed then .streamed
  else if (sc.stream id).tunnel.isSome then .tunnel
  else .collected

/-- The first region of `handleData`, for a frame of `payload` bytes and `padding` more on stream `id`. -/
def handleData : RecvConn × Verdict :=
  if id = 0 ∨ sc.recvWindow < payload + padding then (sc, .connError)
  else
    let counted := { sc with
      recvWindow := sc.recvWindow - (payload + padding)
      received := sc.received + (payload + padding) }
    if sc.Holds id (payload + padding) then
      ((counted.setStream id { sc.stream id with
        connHeld := (sc.stream id).connHeld + payload
        unconsumed := (sc.stream id).unconsumed + payload }).creditConnLocked (payload + padding - payload),
        sc.verdict id)
    else (counted.creditConnLocked (payload + padding), sc.verdict id)

/-- The stream's half of a DATA frame's window, as `handleStreamedData` counts it: the padding may be given
back with the next update, the data once it is consumed. -/
def handleStreamedData : RecvConn :=
  let st := sc.stream id
  if st.recvWindow < payload + padding then sc
  else sc.setStream id { st with
    recvWindow := st.recvWindow - (payload + padding)
    recvUnacked := st.recvUnacked + padding }

/-- A stream's window given back once it comes to half of what a stream is granted. -/
def creditStream (id : ℕ) : RecvConn :=
  let st := sc.stream id
  if st.recvUnacked < sc.locals.streamWindow / 2 then sc
  else (sc.setStream id { st with
    recvWindow := st.recvWindow + st.recvUnacked
    recvUnacked := 0 }).sendUpdate (some id) st.recvUnacked

/-- A DATA frame of a body collected whole, or of a tunnel, counted against its stream. -/
def countStream : RecvConn :=
  let st := sc.stream id
  sc.setStream id { st with
    recvWindow := st.recvWindow - (payload + padding)
    recvUnacked := st.recvUnacked + (payload + padding) }

/-- The rest of `handleData` for a body collected whole; `kept` says the frame joins what is collected,
rather than ending the body, starting to stream it or being refused. -/
def collectData (kept : Bool) : RecvConn :=
  if (sc.stream id).recvWindow < payload + padding then sc
  else if kept then (sc.countStream id payload padding).creditStream id
  else sc.countStream id payload padding

/-- The first region of `handleTunnelData`. -/
def handleTunnelData : RecvConn :=
  if (sc.stream id).recvWindow < payload + padding then sc
  else if (sc.stream id).tunnel = some true then sc.countStream id payload padding
  else (sc.countStream id payload padding).creditStream id

def holdReads (id : ℕ) (hold : Bool) : RecvConn :=
  let sc' := sc.setStream id { sc.stream id with tunnel := some hold }
  if hold = false ∧ (sc.stream id).remoteDone = false ∧ sc.closed = false ∧ id ∈ sc.streams then
    sc'.creditStream id
  else sc'

/-- `streamRequest`: what has arrived, `buffered` and `arrived` bytes, was credited as it came. -/
def streamRequest (id buffered arrived : ℕ) : RecvConn :=
  let st := sc.stream id
  let streaming := { st with
    feed := true
    creditSkip := buffered + arrived
    unconsumed := st.unconsumed + (buffered + arrived) }
  if 0 < st.recvUnacked then
    (sc.setStream id { streaming with
      recvWindow := st.recvWindow + st.recvUnacked
      recvUnacked := 0 }).sendUpdate (some id) st.recvUnacked
  else sc.setStream id streaming

def creditBody (id n : ℕ) : RecvConn :=
  let st := sc.stream id
  let skip := min n st.creditSkip
  let conn := min (n - skip) st.connHeld
  let sc' := (sc.setStream id { st with
    creditSkip := st.creditSkip - skip
    connHeld := st.connHeld - conn
    recvUnacked := st.recvUnacked + (n - skip : ℕ)
    unconsumed := st.unconsumed - n }).creditConnLocked conn
  if st.remoteDone = false ∧ sc.closed = false ∧ id ∈ sc.streams then sc'.creditStream id else sc'

/-- `forgetLocked`, called from wherever a stream ends: what its body holds is the connection's again. -/
def forgetLocked (id : ℕ) : RecvConn :=
  if id ∉ sc.streams then sc
  else
    let st := sc.stream id
    let sc' := if 0 < st.connHeld then
        (sc.creditConnLocked st.connHeld).setStream id { st with connHeld := 0 } else sc
    { sc' with streams := sc'.streams.erase id }

def endStreamed (id : ℕ) : RecvConn :=
  let sc' := sc.setStream id { sc.stream id with remoteDone := true }
  if (sc.stream id).localDone then sc'.forgetLocked id else sc'

def bdpAck (window : ℤ) : RecvConn :=
  if window = 0 then sc
  else
    let (grown, streamDelta, connDelta) := sc.locals.grow window
    let sc' := { sc with
      locals := grown
      recvWindow := sc.recvWindow + connDelta
      stream := fun id => if id ∈ sc.streams then
        { sc.stream id with recvWindow := (sc.stream id).recvWindow + streamDelta } else sc.stream id }
    if 0 < connDelta then sc'.sendUpdate none connDelta else sc'

def newStream (id : ℕ) (remoteDone : Bool) : RecvConn :=
  { sc.setStream id { recvWindow := sc.locals.streamWindow, remoteDone := remoteDone } with
    streams := insert id sc.streams }

/-- HEADERS on a stream the client opens; `admitted` says the connection takes it, rather than refusing it
for going away or for the streams it has. An h2c upgrade opens stream 1 with its request done. -/
def handleHeaderBlock (id : ℕ) (admitted remoteDone : Bool) : RecvConn :=
  if id % 2 = 0 ∨ id ≤ sc.maxClientID then sc
  else if admitted then { sc.newStream id remoteDone with maxClientID := id }
  else { sc with maxClientID := id }

def push : RecvConn :=
  { sc.newStream sc.nextPushID true with nextPushID := sc.nextPushID + 2 }

/-- `fail`, `shutdown` and the other ends of the connection. -/
def close : RecvConn := { sc with closed := true, streams := ∅ }

end RecvConn

/-- The regions that touch what a connection keeps for receiving. -/
inductive RecvOp where
  | handleHeaderBlock (id : ℕ) (admitted remoteDone : Bool)
  | push
  | serveTunnel (id : ℕ)
  | handleData (id payload padding : ℕ)
  | handleStreamedData (id payload padding : ℕ)
  | collectData (id payload padding : ℕ) (kept : Bool)
  | handleTunnelData (id payload padding : ℕ)
  | holdReads (id : ℕ) (hold : Bool)
  | streamRequest (id buffered arrived : ℕ)
  | creditBody (id n : ℕ)
  | endStreamed (id : ℕ)
  /-- The request has arrived whole. -/
  | finishRequest (id : ℕ)
  /-- The response has all been framed. -/
  | endStream (id : ℕ)
  /-- The stream ends: reset by either side, timed out, or done on both sides. -/
  | forget (id : ℕ)
  | bdpAck (window : ℤ)
  | close
deriving DecidableEq

namespace RecvConn

def step (sc : RecvConn) : RecvOp → RecvConn
  | .handleHeaderBlock id admitted remoteDone => sc.handleHeaderBlock id admitted remoteDone
  | .push => sc.push
  | .serveTunnel id => sc.setStream id { sc.stream id with tunnel := some false }
  | .handleData id payload padding => (sc.handleData id payload padding).1
  | .handleStreamedData id payload padding => sc.handleStreamedData id payload padding
  | .collectData id payload padding kept => sc.collectData id payload padding kept
  | .handleTunnelData id payload padding => sc.handleTunnelData id payload padding
  | .holdReads id hold => sc.holdReads id hold
  | .streamRequest id buffered arrived => sc.streamRequest id buffered arrived
  | .creditBody id n => sc.creditBody id n
  | .endStreamed id => sc.endStreamed id
  | .finishRequest id => sc.setStream id { sc.stream id with remoteDone := true }
  | .endStream id => sc.setStream id { sc.stream id with localDone := true }
  | .forget id => sc.forgetLocked id
  | .bdpAck window => sc.bdpAck window
  | .close => sc.close

def machine (c : HTTP2Config) : Machine RecvConn RecvOp := ⟨start c, step⟩

def held (sc : RecvConn) : ℕ := ∑ id ∈ sc.streams, (sc.stream id).connHeld

def granted (sc : RecvConn) : ℤ := ((sc.sent.filter fun u => u.1 = none).map Prod.snd).sum

/-- The accounts of an open connection that has `n` bytes taken and not yet counted anywhere. -/
structure Owing (n : ℤ) (sc : RecvConn) : Prop where
  live : sc.closed = false
  sum : sc.recvWindow + sc.recvUnacked + n + sc.held = sc.locals.connWindow
  window : 0 ≤ sc.recvWindow
  unacked : 0 ≤ sc.recvUnacked
  gone : ∀ id, id ∉ sc.streams → (sc.stream id).connHeld = 0
  body : ∀ id ∈ sc.streams, (sc.stream id).connHeld + (sc.stream id).creditSkip ≤ (sc.stream id).unconsumed
  opened : ∀ id ∈ sc.streams, (id % 2 = 1 → id ≤ sc.maxClientID) ∧ (id % 2 = 0 → id < sc.nextPushID)
  even : sc.nextPushID % 2 = 0
  client : sc.recvWindow + sc.received = h2DefaultWindow + sc.granted

/-- The accounts of an open connection between two regions. -/
structure Conserved (sc : RecvConn) : Prop extends Owing 0 sc where
  small : sc.recvUnacked = 0 ∨ sc.recvUnacked < sc.recvWindow

open Conserved
variable {sc : RecvConn} {n : ℤ} {id : ℕ} {st : RecvStream}

@[simp] theorem granted_sendUpdate_conn (sc : RecvConn) (h : sc.closed = false) (n : ℤ) :
    (sc.sendUpdate none n).granted = sc.granted + n := by
  simp [granted, sendUpdate, h]

@[simp] theorem granted_sendUpdate_stream : (sc.sendUpdate (some id) n).granted = sc.granted := by
  unfold granted sendUpdate
  split <;> simp

theorem held_setStream (st : RecvStream) (h : id ∈ sc.streams) :
    ((sc.setStream id st).held : ℤ) = sc.held - (sc.stream id).connHeld + st.connHeld := by
  have hsplit := add_sum_erase sc.streams (fun i => (sc.stream i).connHeld) h
  have hsplit' := add_sum_erase sc.streams (fun i => (update sc.stream id st i).connHeld) h
  have hrest : ∑ i ∈ sc.streams.erase id, (update sc.stream id st i).connHeld =
      ∑ i ∈ sc.streams.erase id, (sc.stream i).connHeld :=
    sum_congr rfl fun i hi => by rw [update_of_ne (ne_of_mem_erase hi)]
  simp only [update_self] at hsplit'
  simp only [held, setStream]
  omega

theorem held_setStream_of_notMem (st : RecvStream) (h : id ∉ sc.streams) : (sc.setStream id st).held = sc.held :=
  sum_congr rfl fun i hi => by
    show (update sc.stream id st i).connHeld = _
    rw [update_of_ne (ne_of_mem_of_not_mem hi h)]

theorem Owing.setStream (h : Owing n sc) (id : ℕ) (st : RecvStream) (hgone : id ∉ sc.streams → st.connHeld = 0)
    (hbody : id ∈ sc.streams → st.connHeld + st.creditSkip ≤ st.unconsumed) :
    Owing (n + (sc.stream id).connHeld - st.connHeld) (sc.setStream id st) := by
  refine { h with sum := ?_, gone := fun i hi => ?_, body := fun i hi => ?_ }
  · have hsum := h.sum
    by_cases hm : id ∈ sc.streams
    · have := held_setStream st hm
      simp only [RecvConn.setStream] at this ⊢
      omega
    have := held_setStream_of_notMem st hm
    have := h.gone id hm
    have := hgone hm
    simp only [RecvConn.setStream] at *
    omega
  · rcases eq_or_ne i id with rfl | hne
    · simpa [RecvConn.setStream] using hgone hi
    · simpa [RecvConn.setStream, hne] using h.gone i hi
  · rcases eq_or_ne i id with rfl | hne
    · simpa [RecvConn.setStream] using hbody hi
    · simpa [RecvConn.setStream, hne] using h.body i hi

/-- What a region of one stream's own does: it writes the stream without changing what it holds, and may
give back some of the stream's window. -/
theorem Conserved.setStream (h : Conserved sc) (hheld : st.connHeld = (sc.stream id).connHeld)
    (hbody : id ∈ sc.streams → st.connHeld + st.creditSkip ≤ st.unconsumed) : Conserved (sc.setStream id st) := by
  have hs := h.toOwing.setStream id st (fun hg => hheld.trans (h.gone id hg)) hbody
  rw [hheld, zero_add, sub_self] at hs
  exact ⟨hs, h.small⟩

theorem Conserved.sendUpdate (h : Conserved sc) : Conserved (sc.sendUpdate (some id) n) :=
  ⟨{ h with client := by rw [granted_sendUpdate_stream]; exact h.client }, h.small⟩

theorem Owing.credit (h : Owing n sc) (hn : 0 ≤ n) : Conserved (sc.creditConnLocked n) := by
  have hsum := h.sum
  have hwindow := h.window
  have hunacked := h.unacked
  unfold creditConnLocked
  split_ifs with hkeep
  · refine ⟨{ h with sum := ?_, window := hwindow, unacked := by show 0 ≤ sc.recvUnacked + n; omega }, ?_⟩
    · show sc.recvWindow + (sc.recvUnacked + n) + 0 + sc.held = sc.locals.connWindow
      omega
    · rcases hkeep with h0 | ⟨-, hlt⟩
      · exact inl h0
      · exact inr hlt
  refine ⟨⟨h.live, ?_, by show 0 ≤ sc.recvWindow + (sc.recvUnacked + n); omega, le_rfl, h.gone, h.body, h.opened,
    h.even, ?_⟩, inl rfl⟩
  · show sc.recvWindow + (sc.recvUnacked + n) + 0 + 0 + sc.held = sc.locals.connWindow
    omega
  have hclient := h.client
  have hgrant := granted_sendUpdate_conn
    { sc with recvWindow := sc.recvWindow + (sc.recvUnacked + n), recvUnacked := 0 } h.live (sc.recvUnacked + n)
  refine Eq.trans ?_ (congrArg (h2DefaultWindow + ·) hgrant.symm)
  show sc.recvWindow + (sc.recvUnacked + n) + sc.received = h2DefaultWindow + (sc.granted + (sc.recvUnacked + n))
  omega

section
variable (h : Conserved sc)
include h

theorem Conserved.handleData (payload padding : ℕ) : Conserved (sc.handleData id payload padding).1 := by
  have hsum := h.sum
  unfold RecvConn.handleData
  split_ifs with hover hholds
  · exact h
  all_goals
    have hcounted : Owing (payload + padding) { sc with
        recvWindow := sc.recvWindow - (payload + padding)
        received := sc.received + (payload + padding) } := by
      refine { h with sum := ?_, window := by show 0 ≤ sc.recvWindow - _; omega, client := ?_ }
      · show sc.recvWindow - (payload + padding) + sc.recvUnacked + (payload + padding) + sc.held = sc.locals.connWindow
        omega
      · have hclient := h.client
        show sc.recvWindow - (payload + padding) + (sc.received + (payload + padding)) = h2DefaultWindow + sc.granted
        omega
  · refine Owing.credit ?_ (by omega)
    have hb := h.body id hholds.1
    convert hcounted.setStream id { sc.stream id with
      connHeld := (sc.stream id).connHeld + payload
      unconsumed := (sc.stream id).unconsumed + payload }
      (fun hg => absurd hholds.1 hg) (fun _ => by simp only; omega) using 1
    push_cast
    omega
  · exact hcounted.credit (by omega)

theorem Conserved.creditStream : Conserved (sc.creditStream id) := by
  unfold RecvConn.creditStream
  simp only
  split_ifs
  · exact h
  · exact sendUpdate (setStream h (by rfl) (h.body id))

theorem Conserved.countStream (payload padding : ℕ) : Conserved (sc.countStream id payload padding) :=
  setStream h (by rfl) (h.body id)

theorem Conserved.handleStreamedData (payload padding : ℕ) : Conserved (sc.handleStreamedData id payload padding) := by
  unfold RecvConn.handleStreamedData
  simp only
  split_ifs
  · exact h
  · exact setStream h (by rfl) (h.body id)

theorem Conserved.holdReads (hold : Bool) : Conserved (sc.holdReads id hold) := by
  have hset : Conserved (sc.setStream id { sc.stream id with tunnel := some hold }) :=
    setStream h (by rfl) (h.body id)
  unfold RecvConn.holdReads
  split_ifs
  · exact hset.creditStream
  · exact hset

theorem Conserved.streamRequest (buffered arrived : ℕ) : Conserved (sc.streamRequest id buffered arrived) := by
  have hbody : id ∈ sc.streams →
      (sc.stream id).connHeld + (buffered + arrived) ≤ (sc.stream id).unconsumed + (buffered + arrived) :=
    fun hm => by have := h.body id hm; omega
  unfold RecvConn.streamRequest
  simp only
  split_ifs
  · exact (setStream h (by rfl) hbody).sendUpdate
  · exact setStream h (by rfl) hbody

/-- What a handler consumes is the connection's again, as far as its stream still holds it. -/
theorem Conserved.creditBody (n : ℕ) : Conserved (sc.creditBody id n) := by
  unfold RecvConn.creditBody
  simp only
  set st := sc.stream id with hst
  set conn := min (n - min n st.creditSkip) st.connHeld
  have hset : Conserved ((sc.setStream id { st with
      creditSkip := st.creditSkip - min n st.creditSkip
      connHeld := st.connHeld - conn
      recvUnacked := st.recvUnacked + (n - min n st.creditSkip : ℕ)
      unconsumed := st.unconsumed - n }).creditConnLocked conn) := by
    refine Owing.credit ?_ (by omega)
    convert h.toOwing.setStream id { st with
      creditSkip := st.creditSkip - min n st.creditSkip
      connHeld := st.connHeld - conn
      recvUnacked := st.recvUnacked + (n - min n st.creditSkip : ℕ)
      unconsumed := st.unconsumed - n } (fun hg => ?_) (fun hm => ?_) using 1
    · simp only [← hst]
      omega
    · have hnone : st.connHeld = 0 := h.gone id hg
      simp only
      omega
    · have hb : st.connHeld + st.creditSkip ≤ st.unconsumed := h.body id hm
      simp only
      omega
  split_ifs
  · exact hset.creditStream
  · exact hset

end

theorem setStream_creditConnLocked (sc : RecvConn) (n : ℤ) (id : ℕ) (st : RecvStream) :
    (sc.creditConnLocked n).setStream id st = (sc.setStream id st).creditConnLocked n := by
  unfold creditConnLocked setStream
  split_ifs <;> rfl

section
variable (h : Conserved sc)
include h

theorem Conserved.erase (hnone : (sc.stream id).connHeld = 0) :
    Conserved { sc with streams := sc.streams.erase id } := by
  have hheld : ∑ i ∈ sc.streams.erase id, (sc.stream i).connHeld = sc.held := sum_erase _ hnone
  refine ⟨⟨h.live, ?_, h.window, h.unacked, fun i hi => ?_, fun i hi => h.body i (mem_of_mem_erase hi),
    fun i hi => h.opened i (mem_of_mem_erase hi), h.even, h.client⟩, h.small⟩
  · have hsum := h.sum
    rw [← hheld] at hsum
    exact hsum
  · rcases eq_or_ne i id with rfl | hne
    · exact hnone
    · exact h.gone i fun hm => hi (mem_erase.2 ⟨hne, hm⟩)

theorem Conserved.forgetLocked (id : ℕ) : Conserved (sc.forgetLocked id) := by
  unfold RecvConn.forgetLocked
  simp only
  by_cases hgone : id ∉ sc.streams
  · rwa [if_pos hgone]
  rw [if_neg hgone]
  by_cases hnone : 0 < (sc.stream id).connHeld
  · rw [if_pos hnone, setStream_creditConnLocked]
    have hs : Owing (sc.stream id).connHeld (sc.setStream id { sc.stream id with connHeld := 0 }) := by
      convert h.toOwing.setStream id { sc.stream id with connHeld := 0 } (fun _ => rfl) (fun hm => ?_) using 1
      · simp only
        omega
      · have := h.body id hm
        simp only
        omega
    refine (hs.credit (by omega)).erase ?_
    rw [← setStream_creditConnLocked]
    simp [RecvConn.setStream]
  · rw [if_neg hnone]
    exact h.erase (by omega)

theorem Conserved.endStreamed (id : ℕ) : Conserved (sc.endStreamed id) := by
  have hset : Conserved (sc.setStream id { sc.stream id with remoteDone := true }) :=
    setStream h (by rfl) (h.body id)
  unfold RecvConn.endStreamed
  split_ifs
  · exact hset.forgetLocked id
  · exact hset

/-- Growing moves the connection's window and what the client may send of it together. -/
theorem Conserved.bdpAck (window : ℤ) : Conserved (sc.bdpAck window) := by
  unfold RecvConn.bdpAck
  split_ifs with h0
  · exact h
  have hsum := h.sum
  have hwindow := h.window
  have hclient := h.client
  have hsmall := h.small
  set delta := max window sc.locals.connWindow - sc.locals.connWindow
  set stream : ℕ → RecvStream := fun id => if id ∈ sc.streams then
    { sc.stream id with recvWindow := (sc.stream id).recvWindow + (window - sc.locals.streamWindow) }
    else sc.stream id with hstream
  have hconn : ∀ id, (stream id).connHeld = (sc.stream id).connHeld := fun id => by
    simp only [hstream]; split_ifs <;> rfl
  have hskip : ∀ id, (stream id).creditSkip = (sc.stream id).creditSkip := fun id => by
    simp only [hstream]; split_ifs <;> rfl
  have hunc : ∀ id, (stream id).unconsumed = (sc.stream id).unconsumed := fun id => by
    simp only [hstream]; split_ifs <;> rfl
  have hheld : ∑ id ∈ sc.streams, (stream id).connHeld = sc.held := sum_congr rfl fun id _ => hconn id
  -- the update goes out exactly when the connection's window has grown
  have hgrown : ∀ sent : List (Option ℕ × ℤ), ((sent.filter fun u => u.1 = none).map Prod.snd).sum =
      sc.granted + delta → Conserved { sc with
        locals := ⟨window, max window sc.locals.connWindow⟩
        recvWindow := sc.recvWindow + delta
        stream := stream
        sent := sent } := by
    intro sent hsent
    refine ⟨⟨h.live, ?_, by show 0 ≤ sc.recvWindow + delta; omega, h.unacked, fun i hi => ?_, fun i hi => ?_,
      h.opened, h.even, ?_⟩, ?_⟩
    · show sc.recvWindow + delta + sc.recvUnacked + 0 + ((∑ id ∈ sc.streams, (stream id).connHeld : ℕ) : ℤ) =
        max window sc.locals.connWindow
      rw [hheld]
      omega
    · exact (hconn i).trans (h.gone i hi)
    · show (stream i).connHeld + (stream i).creditSkip ≤ (stream i).unconsumed
      rw [hconn, hskip, hunc]
      exact h.body i hi
    · show sc.recvWindow + delta + sc.received = h2DefaultWindow + ((sent.filter _).map Prod.snd).sum
      rw [hsent]
      omega
    · show sc.recvUnacked = 0 ∨ sc.recvUnacked < sc.recvWindow + delta
      omega
  show Conserved (if 0 < delta then _ else _)
  split_ifs with hd
  · exact hgrown _ (granted_sendUpdate_conn sc h.live delta)
  · exact hgrown sc.sent (by show sc.granted = sc.granted + delta; omega)

theorem Conserved.newStream (hnew : id ∉ sc.streams) (remoteDone : Bool) {client push : ℕ}
    (hclient : sc.maxClientID ≤ client) (hpush : sc.nextPushID ≤ push) (heven : push % 2 = 0)
    (hid : (id % 2 = 1 → id ≤ client) ∧ (id % 2 = 0 → id < push)) :
    Conserved { sc.newStream id remoteDone with maxClientID := client, nextPushID := push } := by
  have hset : Conserved (sc.setStream id { recvWindow := sc.locals.streamWindow, remoteDone := remoteDone }) :=
    setStream h (h.gone id hnew).symm fun hm => absurd hm hnew
  have hat : (sc.setStream id { recvWindow := sc.locals.streamWindow, remoteDone := remoteDone }).stream id =
      { recvWindow := sc.locals.streamWindow, remoteDone := remoteDone } := by simp [RecvConn.setStream]
  refine ⟨⟨h.live, ?_, h.window, h.unacked, fun i hi => ?_, fun i hi => ?_, fun i hi => ?_, heven, h.client⟩, h.small⟩
  · have hsum := hset.sum
    rw [← show ∑ i ∈ insert id sc.streams, ((sc.setStream id _).stream i).connHeld = RecvConn.held _ from
      (sum_insert hnew).trans (by rw [hat, zero_add]; rfl)] at hsum
    exact hsum
  · exact hset.gone i fun hm => hi (mem_insert_of_mem hm)
  · rcases mem_insert.1 hi with rfl | hm
    · show ((sc.setStream i _).stream i).connHeld + ((sc.setStream i _).stream i).creditSkip ≤ _
      rw [hat]
      exact Nat.zero_le _
    · exact hset.body i hm
  · rcases mem_insert.1 hi with rfl | hm
    · exact hid
    · have := h.opened i hm
      exact ⟨fun ho => (this.1 ho).trans hclient, fun he => (this.2 he).trans_le hpush⟩

theorem Conserved.handleHeaderBlock (id : ℕ) (admitted remoteDone : Bool) :
    Conserved (sc.handleHeaderBlock id admitted remoteDone) := by
  unfold RecvConn.handleHeaderBlock
  split_ifs with hold
  · exact h
  · rw [not_or] at hold
    refine h.newStream (fun hm => ?_) remoteDone (by omega) le_rfl h.even ⟨fun _ => le_rfl, fun he => absurd he hold.1⟩
    have := (h.opened id hm).1 (by omega)
    omega
  · refine ⟨{ h with opened := fun i hi => ?_ }, h.small⟩
    have := h.opened i hi
    exact ⟨fun ho => by have := this.1 ho; show i ≤ id; omega, this.2⟩

theorem Conserved.push : Conserved sc.push := by
  have heven := h.even
  refine h.newStream (fun hm => ?_) true le_rfl (by omega) (by omega)
    ⟨fun ho => absurd h.even (by omega), fun _ => by omega⟩
  exact absurd ((h.opened _ hm).2 h.even) (lt_irrefl _)

theorem Conserved.step (op : RecvOp) : (sc.step op).closed = true ∨ Conserved (sc.step op) := by
  cases op with
  | handleHeaderBlock id admitted remoteDone => exact inr (h.handleHeaderBlock id admitted remoteDone)
  | push => exact inr h.push
  | serveTunnel id => exact inr (setStream h (by rfl) (h.body id))
  | handleData id payload padding => exact inr (h.handleData payload padding)
  | handleStreamedData id payload padding => exact inr (h.handleStreamedData payload padding)
  | collectData id payload padding kept =>
    refine inr ?_
    simp only [RecvConn.step, RecvConn.collectData]
    split_ifs
    · exact h
    · exact (h.countStream payload padding).creditStream
    · exact h.countStream payload padding
  | handleTunnelData id payload padding =>
    refine inr ?_
    simp only [RecvConn.step, RecvConn.handleTunnelData]
    split_ifs
    · exact h
    · exact h.countStream payload padding
    · exact (h.countStream payload padding).creditStream
  | holdReads id hold => exact inr (h.holdReads hold)
  | streamRequest id buffered arrived => exact inr (h.streamRequest buffered arrived)
  | creditBody id n => exact inr (h.creditBody n)
  | endStreamed id => exact inr (h.endStreamed id)
  | finishRequest id => exact inr (setStream h (by rfl) (h.body id))
  | endStream id => exact inr (setStream h (by rfl) (h.body id))
  | forget id => exact inr (h.forgetLocked id)
  | bdpAck window => exact inr (h.bdpAck window)
  | close => exact inl rfl

end

theorem closed_creditConnLocked : (sc.creditConnLocked n).closed = sc.closed := by
  unfold creditConnLocked
  split_ifs <;> rfl

theorem closed_creditStream : (sc.creditStream id).closed = sc.closed := by
  unfold creditStream
  simp only
  split_ifs <;> rfl

theorem closed_forgetLocked : (sc.forgetLocked id).closed = sc.closed := by
  unfold forgetLocked
  simp only
  split_ifs <;> first | rfl | exact closed_creditConnLocked

theorem closed_step (h : sc.closed = true) (op : RecvOp) : (sc.step op).closed = true := by
  cases op with
  | handleHeaderBlock | handleStreamedData | streamRequest | bdpAck =>
    simp only [step, handleHeaderBlock, handleStreamedData, streamRequest, bdpAck]
    split_ifs <;> exact h
  | handleData id payload padding =>
    simp only [step, handleData]
    split_ifs
    · exact h
    all_goals exact closed_creditConnLocked.trans h
  | collectData | handleTunnelData | holdReads =>
    simp only [step, collectData, handleTunnelData, holdReads]
    split_ifs <;> first | exact h | exact closed_creditStream.trans h
  | creditBody id n =>
    simp only [step, creditBody]
    split_ifs
    · exact closed_creditStream.trans (closed_creditConnLocked.trans h)
    · exact closed_creditConnLocked.trans h
  | endStreamed id =>
    simp only [step, endStreamed]
    split_ifs
    · exact closed_forgetLocked.trans h
    · exact h
  | forget id => exact closed_forgetLocked.trans h
  | push | serveTunnel | finishRequest | endStream => exact h
  | close => rfl

theorem start_conserved (c : HTTP2Config) : Conserved (start c) := by
  have hmin : h2DefaultWindow ≤ c.locals.connWindow := by
    simp only [HTTP2Config.locals, h2WindowSetting, h2DefaultWindow, h2MaxWindow, defaultH2ConnWindow]
    omega
  refine ⟨⟨rfl, by simp [start, held], ?_, le_rfl, fun _ _ => rfl, fun i hi => ?_, fun i hi => ?_, by simp [start], ?_⟩,
    inl rfl⟩
  · exact le_trans (by decide) hmin
  · simp [start] at hi
  · simp [start] at hi
  simp only [start, granted]
  split_ifs
  · simp
  · simp only [List.filter_nil, List.map_nil, List.sum_nil]
    omega

theorem run_conserved (c : HTTP2Config) (ops : List RecvOp) :
    ((machine c).run ops).closed = true ∨ Conserved ((machine c).run ops) :=
  Machine.invariant_all (I := fun sc => sc.closed = true ∨ Conserved sc)
    (inr (start_conserved c))
    (fun _ op h => h.elim (fun hc => inl (closed_step hc op)) fun hs => hs.step op) ops

/-- What the client may send once it has heard of every WINDOW_UPDATE. -/
def clientWindow (sc : RecvConn) : ℤ := h2DefaultWindow + sc.granted - sc.received

/-- A client that may send nothing finds all of the connection's window held by bodies. -/
theorem Conserved.held_eq (h : Conserved sc) (hout : sc.clientWindow ≤ 0) : sc.held = sc.locals.connWindow := by
  have hsum := h.sum
  have hclient := h.client
  have hunacked := h.unacked
  have hsmall := h.small
  have hwindow := h.window
  unfold clientWindow at hout
  omega

/-- While the connection is open its window is what the client may still send, what may be given back and what
the bodies of the open streams hold. What may be given back never waits once the client has no more than that
left, so a client that may send nothing finds all of the window held by bodies not yet consumed. -/
theorem receive_credit_conserved (c : HTTP2Config) (ops : List RecvOp) {sc : RecvConn}
    (hrun : (machine c).run ops = sc) (hopen : sc.closed = false) :
    sc.recvWindow + sc.recvUnacked + ∑ id ∈ sc.streams, ((sc.stream id).connHeld : ℤ) = sc.locals.connWindow ∧
      0 ≤ sc.recvUnacked ∧ (sc.recvUnacked = 0 ∨ sc.recvUnacked < sc.recvWindow) ∧ sc.clientWindow = sc.recvWindow ∧
      (sc.clientWindow ≤ 0 → ∑ id ∈ sc.streams, ((sc.stream id).connHeld : ℤ) = sc.locals.connWindow) ∧
      ∀ id ∈ sc.streams, (sc.stream id).connHeld ≤ (sc.stream id).unconsumed := by
  subst hrun
  rcases run_conserved c ops with hc | h
  · rw [hopen] at hc
    cases hc
  generalize (machine c).run ops = sc at h
  have hheld : ∑ id ∈ sc.streams, ((sc.stream id).connHeld : ℤ) = sc.held := by simp [held]
  rw [hheld]
  refine ⟨by linarith [h.sum], h.unacked, h.small, ?_, h.held_eq, fun id hm => ?_⟩
  · unfold clientWindow
    linarith [h.client]
  · exact le_trans (Nat.le_add_right _ _) (h.body id hm)

/-- A body of ten bytes, two more of padding, of which the handler has consumed four. -/
def upload : List RecvOp :=
  [.handleHeaderBlock 1 true false, .streamRequest 1 0 0, .handleData 1 10 2, .handleStreamedData 1 10 2,
    .creditBody 1 4]

theorem upload_conserved : ((machine {}).run upload).held = 6 ∧ ((machine {}).run upload).recvUnacked = 6 ∧
    ((machine {}).run upload).recvWindow + ((machine {}).run upload).recvUnacked +
      ∑ id ∈ ((machine {}).run upload).streams, ((((machine {}).run upload).stream id).connHeld : ℤ) =
      ((machine {}).run upload).locals.connWindow :=
  ⟨by decide, by decide, (receive_credit_conserved {} upload rfl (by decide)).1⟩

end RecvConn
end Fib.Http2
