import Fib.Lib.Int64
import Fib.Quic.RangeSet
import Fib.Quic.RecvStream
import Fib.Quic.SentQueue

/-! Loss recovery (http3/quic/recovery.go, `handleRetry` in http3/quic/conn.go): the packets of
the three packet number spaces from when they are sent to when they leave their queue, and the
counts kept of them. The congestion window, path MTU discovery and the timers are not here: a
timer's work is a step of its own, taken at any time. -/

namespace Fib.Quic

inductive SpaceId where
  | initial | handshake | app
deriving DecidableEq

def initialRTT : ℤ := 333000000
def timerGranularity : ℤ := 1000000
def packetThreshold : ℕ := 3
def maxProbes : ℕ := 2

structure RttStats where
  latest : ℤ := 0
  smoothed : ℤ := initialRTT
  rttvar : ℤ := initialRTT.tdiv 2
  min : ℤ := 0
  hasSample : Bool := false
  firstAt : ℤ := 0
deriving DecidableEq

/-- The sample less the time the peer held its acknowledgement back, if that leaves the least seen. -/
def RttStats.adjusted (r : RttStats) (latest ackDelay : ℤ) : ℤ :=
  if r.hasSample ∧ int64 (Min.min r.min latest + ackDelay) ≤ latest then int64 (latest - ackDelay) else latest

/-- `-diff` of a negative one. -/
def magnitude (diff : ℤ) : ℤ := if diff < 0 then int64 (-diff) else diff

def RttStats.update (r : RttStats) (latest ackDelay : ℤ) : RttStats :=
  if r.hasSample then
    let adjusted := r.adjusted latest ackDelay
    { r with
      latest
      min := Min.min r.min latest
      rttvar := (int64 (int64 (3 * r.rttvar) + magnitude (int64 (r.smoothed - adjusted)))).tdiv 4
      smoothed := (int64 (int64 (7 * r.smoothed) + adjusted)).tdiv 8 }
  else { r with latest := latest, hasSample := true, min := latest, smoothed := latest, rttvar := latest.tdiv 2 }

/-- `t.Sub(u)`, which goes no further than the largest duration. -/
def timeSub (t u : ℤ) : ℤ := Max.max (-2 ^ 63) (Min.min (t - u) (2 ^ 63 - 1))

/-- The sending half of `pnSpace`, with what an acknowledged ACK frame moves of the other. -/
structure PnSpace where
  discarded : Bool := false
  nextPN : ℕ := 0
  largestAcked : Option ℕ := none
  sent : SentQueue := {}
  ackElicitingInFlight : ℕ := 0
  lossTime : Option ℤ := none
  lastAckElicitingSent : Option ℤ := none
  recv : List PnRange := []
  ackFloor : ℕ := 0
deriving DecidableEq

inductive Outcome where
  | acked
  | lost
  /-- Sent again by a probe, the packet staying where it is. -/
  | probed
deriving DecidableEq

/-- The frames of a packet given to `frameAcked` or `frameLost`. -/
structure Report where
  space : SpaceId
  pn : ℕ
  outcome : Outcome
  frames : List SentFrame
deriving DecidableEq

/-- What a connection knows of its packets in flight. `underflow` is whether a count ever had
more taken off it than it held, `panicked` whether a packet was ever numbered out of order. -/
structure Recovery where
  isClient : Bool
  spaces : SpaceId → PnSpace := fun _ => {}
  bytesInFlight : ℕ := 0
  rtt : RttStats := {}
  peerMaxAckDelay : ℤ := 25000000
  ptoCount : ℕ := 0
  handshakeComplete : Bool := false
  handshakeConfirmed : Bool := false
  heardPeer : Bool := false
  retried : Bool := false
  earlyTx : Bool := false
  earlyRejected : Bool := false
  underflow : Bool := false
  panicked : Bool := false
  reports : List Report := []

namespace Recovery
variable (c : Recovery) (i : SpaceId) (p : SentPacket)

def setSpace (s : PnSpace) : Recovery :=
  { c with spaces := Function.update c.spaces i s }

def setSent (q : SentQueue) : Recovery :=
  c.setSpace i { c.spaces i with sent := q }

def report (o : Outcome) (p : SentPacket) : Recovery :=
  { c with reports := c.reports ++ [⟨i, p.pn, o, p.frames⟩] }

/-- `s.ackElicitingInFlight--`, for an ack-eliciting packet. -/
def dropEliciting : Recovery :=
  if p.ackEliciting then
    { c.setSpace i { c.spaces i with ackElicitingInFlight := (c.spaces i).ackElicitingInFlight - 1 } with
      underflow := c.underflow || (c.spaces i).ackElicitingInFlight == 0 }
  else c

/-- `c.cc.bytesInFlight -= uint64(p.size)`, for a packet in flight. -/
def dropBytes : Recovery :=
  if p.inFlight then
    { c with bytesInFlight := c.bytesInFlight - p.size
             underflow := c.underflow || decide (c.bytesInFlight < p.size) }
  else c

def discardSpace : Recovery :=
  let s := c.spaces i
  if s.discarded then c
  else
    { ((s.sent.upTo s.sent.end_).foldl dropBytes c).setSpace i
        { discarded := true, largestAcked := s.largestAcked } with ptoCount := 0 }

def confirmHandshake : Recovery :=
  if c.handshakeConfirmed ∨ ¬ c.handshakeComplete then c
  else { c with handshakeConfirmed := true }.discardSpace .handshake

/-- The packet, now in the queue `q` of its space, is counted. -/
def count (q : SentQueue) (p : SentPacket) : Recovery :=
  let s := c.spaces i
  { c.setSpace i { s with
      sent := q
      lastAckElicitingSent := if p.ackEliciting then some p.time else s.lastAckElicitingSent
      ackElicitingInFlight := s.ackElicitingInFlight + if p.ackEliciting then 1 else 0 } with
    bytesInFlight := c.bytesInFlight + if p.inFlight then p.size else 0 }

def onPacketSent : Recovery :=
  match (c.spaces i).sent.push p with
  | none => { c with panicked := true }
  | some q =>
    let c := c.count i q p
    -- a client stops using Initial packets once it sends a Handshake one
    if i = .handshake ∧ c.isClient ∧ (c.spaces .initial).discarded = false then c.discardSpace .initial else c

/-- A packet of the space, numbered as `buildPacket` numbers it. A discarded space has no keys. -/
def sendPacket : Recovery :=
  let s := c.spaces i
  if s.discarded then c
  else (c.setSpace i { s with nextPN := s.nextPN + 1 }).onPacketSent i { p with pn := s.nextPN }

/-- A turn of `detectLost`'s loop: the packets lost so far, the queue and the loss timer. -/
def lossStep (largest : ℕ) (now lossDelay : ℤ) (st : List SentPacket × SentQueue × Option ℤ) (pn : ℕ) :
    List SentPacket × SentQueue × Option ℤ :=
  match st.2.1.slot pn with
  | none => st
  | some p =>
    if p.time ≤ now - lossDelay ∨ p.pn + packetThreshold ≤ largest then
      (st.1 ++ (st.2.1.take pn).1.toList, (st.2.1.take pn).2, st.2.2)
    else
      (st.1, st.2.1, match st.2.2 with
        | none => some (p.time + lossDelay)
        | some t => some (Min.min (p.time + lossDelay) t))

def lostOne (c : Recovery) (p : SentPacket) : Recovery :=
  ((c.dropEliciting i p).dropBytes p).report i .lost p

def detectLost (now : ℤ) : Recovery :=
  let s := c.spaces i
  match s.largestAcked with
  | none => c.setSpace i { s with lossTime := none }
  | some largest =>
    let lossDelay := Max.max ((int64 (9 * Max.max c.rtt.latest c.rtt.smoothed)).tdiv 8) timerGranularity
    let r := (List.range' s.sent.base (Min.min (largest + 1) s.sent.end_ - s.sent.base)).foldl
      (lossStep largest now lossDelay) ([], s.sent, none)
    r.1.foldl (lostOne i) (c.setSpace i { s with sent := r.2.1.trim, lossTime := r.2.2 })

/-- The packets of `[lo, hi)` that the queue has, after those in `st`. -/
def takeRange (st : List SentPacket × SentQueue) (lo hi : ℕ) : List SentPacket × SentQueue :=
  (List.range' lo (hi - lo)).foldl (fun st pn => (st.1 ++ (st.2.take pn).1.toList, (st.2.take pn).2)) st

def takeAcked (q : SentQueue) (ranges : List PnRange) : List SentPacket × SentQueue :=
  ranges.reverse.foldl (fun st r => takeRange st (max r.lo st.2.base) (min (r.hi + 1) st.2.end_)) ([], q)

def ackedOne (c : Recovery) (p : SentPacket) : Recovery :=
  let c := ((c.dropEliciting i p).dropBytes p).report i .acked p
  let s := c.spaces i
  if s.ackFloor + 1 < p.ackOf then
    c.setSpace i { s with ackFloor := p.ackOf - 1, recv := RangeSet.forget s.recv (p.ackOf - 1) }
  else c

def peerCompletedAddressValidation : Bool :=
  !c.isClient || c.handshakeConfirmed || (c.spaces .handshake).largestAcked.isSome

/-- How much of the delay a peer tells of is taken off a sample. -/
def appliedDelay (ackDelay : ℤ) : ℤ :=
  if i = .initial then 0 else if c.handshakeConfirmed then Min.min ackDelay c.peerMaxAckDelay else ackDelay

/-- The round-trip sample of an acknowledgement, if its largest packet is new. -/
def sample (acked : List SentPacket) (largest : ℕ) (ackDelay now : ℤ) : RttStats :=
  match acked.getLast? with
  | none => c.rtt
  | some newest =>
    if newest.pn = largest ∧ acked.any SentPacket.ackEliciting then
      let rtt := if c.rtt.hasSample then c.rtt else { c.rtt with firstAt := now }
      rtt.update (timeSub now newest.time) (c.appliedDelay i ackDelay)
    else c.rtt

/-- What `onAckReceived` does with the packets an acknowledgement took out of the queue. Loss
detection runs first, while they are still counted. -/
def onNewlyAcked (acked : List SentPacket) (largest : ℕ) (ackDelay now : ℤ) : Recovery :=
  acked.foldl (ackedOne i) ({ c with rtt := c.sample i acked largest ackDelay now }.detectLost i now)

/-- The end of `onAckReceived`: an acknowledged 1-RTT packet confirms the handshake as well. -/
def afterAck (acked : List SentPacket) : Recovery :=
  let c := if i = .app ∧ c.isClient ∧ c.handshakeConfirmed = false ∧ acked.any (fun p => !p.early) then
    c.confirmHandshake else c
  if c.peerCompletedAddressValidation then { c with ptoCount := 0 } else c

/-- The space with the packets of `ranges` taken out of its queue. -/
def markAcked (s : PnSpace) (first : PnRange) (ranges : List PnRange) : PnSpace :=
  { s with
    largestAcked := match s.largestAcked with
      | none => some first.hi
      | some l => some (max l first.hi)
    sent := (takeAcked s.sent ranges).2.trim }

def onAckReceived (ranges : List PnRange) (ackDelay now : ℤ) : Except ConnErr Recovery :=
  match ranges with
  | [] => .ok c
  | first :: _ =>
    let s := c.spaces i
    if s.nextPN ≤ first.hi then
      .error (transportErr .errProtocolViolation "acknowledgement of an unsent packet")
    else
      let acked := (takeAcked s.sent ranges).1
      let c := c.setSpace i (markAcked s first ranges)
      if acked = [] then .ok c else .ok ((c.onNewlyAcked i acked first.hi ackDelay now).afterAck i acked)

/-- What a probe sends again: of the application's packets, the oldest few. -/
def probeSet : List SentPacket :=
  let s := c.spaces i
  let eliciting := (s.sent.upTo s.sent.end_).filter SentPacket.ackEliciting
  if i = .app then eliciting.take maxProbes else eliciting

def probe : Recovery :=
  (c.probeSet i).foldl (fun c p => c.report i .probed p) { c with ptoCount := c.ptoCount + 1 }

/-- A turn of `resendEarlyLocked`'s loop. -/
def earlyStep (pn : ℕ) : Recovery :=
  match (c.spaces .app).sent.slot pn with
  | none => c
  | some p =>
    if p.early then lostOne .app (c.setSent .app ((c.spaces .app).sent.take pn).2) p else c

def resendEarly : Recovery :=
  let q := (c.spaces .app).sent
  let c := (List.range' q.base (q.end_ - q.base)).foldl earlyStep c
  c.setSent .app (c.spaces .app).sent.trim

def rejectEarly : Recovery :=
  if ¬ c.isClient ∨ c.earlyRejected then c
  else { c with earlyRejected := true, earlyTx := false }.resendEarly

def handleRetry : Recovery :=
  if ¬ c.isClient ∨ c.heardPeer ∨ c.retried then c
  else
    let q := (c.spaces .initial).sent
    let c := (q.upTo q.end_).foldl (fun c p => (c.dropBytes p).dropEliciting .initial p) { c with retried := true }
    let c := { c.setSent .initial q.reset with ptoCount := 0 }
    if c.earlyTx then c.resendEarly else c

end Recovery
end Fib.Quic
