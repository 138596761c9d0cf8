import Fib.Quic.StreamRun
import Fib.Quic.Recovery

/-! The choice of a packet's frames (http3/quic/send.go, http3/quic/frames.go, http3/quic/cid.go,
http3/quic/blocked.go), and the room they take. -/

namespace Fib.Quic

def aeadOverhead : ℕ := 16

def framePing : UInt8 := 0x01
def frameAck : UInt8 := 0x02
def frameCrypto : UInt8 := 0x06
def frameNewToken : UInt8 := 0x07
def frameMaxData : UInt8 := 0x10
def frameMaxStreamsBidi : UInt8 := 0x12
def frameMaxStreamsUni : UInt8 := 0x13
def frameDataBlocked : UInt8 := 0x14
def frameStreamsBlockedBidi : UInt8 := 0x16
def frameStreamsBlockedUni : UInt8 := 0x17
def frameNewConnectionID : UInt8 := 0x18
def frameRetireConnectionID : UInt8 := 0x19
def framePathChallenge : UInt8 := 0x1a
def framePathResponse : UInt8 := 0x1b
def frameHandshakeDone : UInt8 := 0x1e
def frameAckFrequency : ℕ := 0xaf
def ackFrequencyReordering : ℕ := packetThreshold - 1

structure SendSpace where
  hasTx : Bool := false
  discarded : Bool := false
  nextPN : ℕ := 0
  largestAcked : Option ℕ := none
  cryptoSend : SendBuffer := {}
  probes : ℕ := 0
  recv : List PnRange := []
  /-- How long the largest packet received has waited, in the units an ACK tells it in. -/
  ackDelay : ℕ := 0
  ackPending : Bool := false
  ackNow : Bool := false
  /-- The acknowledgement has a deadline, and it has passed. -/
  ackOverdue : Bool := false
deriving DecidableEq

structure LocalCID where
  seq : ℕ
  cid : Bytes
  token : Bytes
  pending : Bool
deriving DecidableEq

structure Link where
  isClient : Bool := false
  maxDatagram : ℕ := 1200
  addressValidated : Bool := false
  pathValidated : Bool := true
  bytesRecv : ℕ := 0
  bytesSent : ℕ := 0
  pathRecv : ℕ := 0
  pathSent : ℕ := 0
  dcid : Bytes := []
  scid : Bytes := []
  token : Bytes := []
  hasEarlyTx : Bool := false
deriving DecidableEq

/-- What a connection chooses the frames of its packets by. -/
structure Conn extends Link where
  spaces : SpaceId → SendSpace := fun _ => {}
  credit : Credit := {}
  sendQueue : List Stream := []
  handshakeDonePending : Bool := false
  newTokenPending : Bool := false
  /-- What the token key makes of the peer's address now. -/
  newToken : Bytes := []
  maxDataPending : Bool := false
  recvMaxData : ℕ := 0
  maxStreamsBidiPending : Bool := false
  maxBidi : ℕ := 0
  maxStreamsUniPending : Bool := false
  maxUni : ℕ := 0
  challengePending : Bool := false
  challenge : Vector UInt8 8 := Vector.replicate 8 0
  pathResponses : List (Vector UInt8 8) := []
  cidsPending : Bool := false
  localCIDs : List LocalCID := []
  streamsBlockedBidi : BlockedReport := {}
  streamsBlockedUni : BlockedReport := {}
  peerMaxBidi : ℕ := 0
  peerMaxUni : ℕ := 0
  retireCIDs : List ℕ := []
  pingPending : Bool := false
  ackFreqPending : Bool := false
  peerHasMinAckDelay : Bool := false
  ackFreqSeq : ℕ := 0
  ackFreqAsking : ℕ := 0
  ackFreqDelay : ℕ := 0

def pnLen (pn : ℕ) (largestAcked : Option ℕ) : ℕ :=
  let unacked := match largestAcked with
    | none => pn + 1
    | some a => pn - a
  if unacked < 2 ^ 7 then 1 else if unacked < 2 ^ 15 then 2 else if unacked < 2 ^ 23 then 3 else 4

namespace Conn
variable (c : Conn)

def headerLen (space : SpaceId) (pnLen : ℕ) (early : Bool) : ℕ :=
  match space with
  | .app => if early then 1 + 4 + 1 + c.dcid.length + 1 + c.scid.length + 2 + pnLen else 1 + c.dcid.length + pnLen
  | .initial =>
    1 + 4 + 1 + c.dcid.length + 1 + c.scid.length + 2 + pnLen + (varintLen c.token.length + c.token.length)
  | .handshake => 1 + 4 + 1 + c.dcid.length + 1 + c.scid.length + 2 + pnLen

def blockedPending : Bool :=
  c.credit.dataBlocked.pending || c.streamsBlockedBidi.pending || c.streamsBlockedUni.pending

def urgentControlPending : Bool :=
  c.handshakeDonePending || c.newTokenPending || c.challengePending || !c.pathResponses.isEmpty ||
    !c.retireCIDs.isEmpty || c.cidsPending || c.blockedPending || c.pingPending || c.ackFreqPending

def controlPending : Bool :=
  c.maxDataPending || c.maxStreamsBidiPending || c.maxStreamsUniPending || c.urgentControlPending

def framesWaiting (space : SpaceId) : Bool :=
  let cs := (c.spaces space).cryptoSend
  cs.next < cs.end_ || cs.hasLost || (space == .app && (!c.sendQueue.isEmpty || c.controlPending))

def setSpace (i : SpaceId) (s : SendSpace) : Conn := { c with spaces := Function.update c.spaces i s }

def setCrypto (i : SpaceId) (send : SendBuffer) : Conn := c.setSpace i { c.spaces i with cryptoSend := send }

end Conn

structure Payload where
  c : Conn
  b : Bytes := []
  frames : List SentFrame := []
  ackEliciting : Bool := false

namespace Payload
variable (max : ℕ) (p : Payload)

def add (f : Bytes) (c : Conn) (frames : List SentFrame) : Payload :=
  ⟨c, p.b ++ f, p.frames ++ frames, true⟩

def addIf (pending : Bool) (f : Bytes) (c : Conn) (frames : List SentFrame) : Payload :=
  if pending ∧ p.b.length + f.length ≤ max then p.add f c frames else p

def addHandshakeDone : Payload :=
  p.addIf max p.c.handshakeDonePending [frameHandshakeDone] { p.c with handshakeDonePending := false }
    [⟨.handshakeDone, false, none, 0, 0⟩]

def addNewToken : Payload :=
  p.addIf max p.c.newTokenPending (varintFrame frameNewToken [p.c.newToken.length] ++ p.c.newToken)
    { p.c with newTokenPending := false } [⟨.newToken, false, none, 0, 0⟩]

def addMaxData : Payload :=
  p.addIf max p.c.maxDataPending (varintFrame frameMaxData [p.c.recvMaxData]) { p.c with maxDataPending := false }
    [⟨.maxData, false, none, 0, 0⟩]

def addMaxStreamsBidi : Payload :=
  p.addIf max p.c.maxStreamsBidiPending (varintFrame frameMaxStreamsBidi [p.c.maxBidi])
    { p.c with maxStreamsBidiPending := false } [⟨.maxStreamsBidi, false, none, 0, 0⟩]

def addMaxStreamsUni : Payload :=
  p.addIf max p.c.maxStreamsUniPending (varintFrame frameMaxStreamsUni [p.c.maxUni])
    { p.c with maxStreamsUniPending := false } [⟨.maxStreamsUni, false, none, 0, 0⟩]

def addPathChallenge : Payload :=
  p.addIf max p.c.challengePending (framePathChallenge :: p.c.challenge.toList) { p.c with challengePending := false }
    [⟨.pathChallenge, false, none, 0, 0⟩]

/-- The loop over the responses owed; `rs` are those left. -/
def addPathResponses : List (Vector UInt8 8) → Payload → Payload
  | [], p => p
  | r :: rs, p =>
    if p.b.length + 9 ≤ max then
      addPathResponses rs (p.add (framePathResponse :: r.toList) { p.c with pathResponses := rs } [])
    else p

/-- The loop over the connection IDs: those that do not fit stay pending. -/
def newCIDs : List LocalCID → Payload → List LocalCID × Payload
  | [], p => ([], p)
  | l :: ls, p =>
    let f := varintFrame frameNewConnectionID [l.seq, 0] ++ [UInt8.ofNat l.cid.length] ++ l.cid ++ l.token
    if l.pending ∧ p.b.length + (1 + varintLen l.seq + 1 + 1 + l.cid.length + l.token.length) ≤ max then
      let (ls, p) := newCIDs ls (p.add f p.c [⟨.newCID, false, none, l.seq, 0⟩])
      ({ l with pending := false } :: ls, p)
    else
      let (ls, p) := newCIDs ls p
      (l :: ls, p)

def appendNewCIDs : Payload :=
  if p.c.cidsPending then
    let (ls, p) := newCIDs max p.c.localCIDs p
    { p with c := { p.c with localCIDs := ls, cidsPending := ls.any LocalCID.pending } }
  else p

def addDataBlocked : Payload :=
  let p := { p with c := { p.c with credit := { p.c.credit with
    dataBlocked := p.c.credit.dataBlocked.arm p.c.credit.peerMaxData } } }
  let r := p.c.credit.dataBlocked
  p.addIf max r.pending (varintFrame frameDataBlocked [r.at_])
    { p.c with credit := { p.c.credit with dataBlocked := { r with pending := false } } }
    [⟨.dataBlocked, false, none, r.at_, 0⟩]

def addStreamsBlockedBidi : Payload :=
  let p := { p with c := { p.c with streamsBlockedBidi := p.c.streamsBlockedBidi.arm p.c.peerMaxBidi } }
  let r := p.c.streamsBlockedBidi
  p.addIf max r.pending (varintFrame frameStreamsBlockedBidi [r.at_])
    { p.c with streamsBlockedBidi := { r with pending := false } } [⟨.streamsBlockedBidi, false, none, r.at_, 0⟩]

def addStreamsBlockedUni : Payload :=
  let p := { p with c := { p.c with streamsBlockedUni := p.c.streamsBlockedUni.arm p.c.peerMaxUni } }
  let r := p.c.streamsBlockedUni
  p.addIf max r.pending (varintFrame frameStreamsBlockedUni [r.at_])
    { p.c with streamsBlockedUni := { r with pending := false } } [⟨.streamsBlockedUni, false, none, r.at_, 0⟩]

def appendBlocked : Payload := ((p.addDataBlocked max).addStreamsBlockedBidi max).addStreamsBlockedUni max

/-- The loop over the connection IDs to retire; `seqs` are those left. -/
def addRetireCIDs : List ℕ → Payload → Payload
  | [], p => p
  | seq :: seqs, p =>
    if p.b.length + (1 + varintLen seq) ≤ max then
      addRetireCIDs seqs (p.add (varintFrame frameRetireConnectionID [seq]) { p.c with retireCIDs := seqs }
        [⟨.retireCID, false, none, seq, 0⟩])
    else p

def addPing : Payload := p.addIf max p.c.pingPending [framePing] { p.c with pingPending := false } []

def addAckFrequency : Payload :=
  let threshold := if p.c.ackFreqAsking = 0 then 1 else p.c.ackFreqAsking
  p.addIf max (p.c.ackFreqPending && p.c.peerHasMinAckDelay)
    ([frameAckFrequency, p.c.ackFreqSeq, threshold, p.c.ackFreqDelay, ackFrequencyReordering].foldl appendVarint [])
    { p.c with ackFreqPending := false } [⟨.ackFrequency, false, none, 0, 0⟩]

def appendControlFrames : Payload :=
  if p.c.controlPending then
    let p := ((p.addHandshakeDone max).addNewToken max).addMaxData max
    let p := ((p.addMaxStreamsBidi max).addMaxStreamsUni max).addPathChallenge max
    let p := ((addPathResponses max p.c.pathResponses p).appendNewCIDs max).appendBlocked max
    ((addRetireCIDs max p.c.retireCIDs p).addPing max).addAckFrequency max
  else p

/-- A turn of the loop of `appendCrypto`, for what was lost (`lost`) or is new. -/
def addCrypto (space : SpaceId) (r : (ℕ × Bytes) × SendBuffer) : Payload :=
  p.add (varintFrame frameCrypto [r.1.1, r.1.2.length] ++ r.1.2) (p.c.setCrypto space r.2)
    [⟨.crypto, false, none, r.1.1, r.1.2.length⟩]

def appendCrypto (space : SpaceId) : ℕ → Payload → Payload
  | 0, p => p
  | fuel + 1, p =>
    let cs := (p.c.spaces space).cryptoSend.trimLost
    let p := { p with c := p.c.setCrypto space cs }
    match cs.lost with
    | l :: _ =>
      let avail := max - p.b.length - 1 - varintLen (Nat.max l.off cs.base) - 2
      if avail = 0 then p else appendCrypto space fuel (p.addCrypto space (cs.popLost avail))
    | [] =>
      let avail := max - p.b.length - 1 - varintLen cs.next - 2
      if cs.next ≥ cs.end_ ∨ avail = 0 then p
      else appendCrypto space fuel (p.addCrypto space (cs.popNew avail))

end Payload

def Stream.sendable (s : Stream) (c : Credit) : Bool :=
  if s.stopPending || s.maxDataPending || s.resetPending then true
  else if s.blocked.pending && !s.reset && s.hasSend then true
  else if s.reset || !s.hasSend then false
  else if s.send.hasLost then true
  else if s.send.next < s.send.end_ then (Fill.sendCredit ⟨s, c, [], []⟩) > 0
  else s.finQueued && !s.finSent

namespace Payload
variable (max : ℕ) (p : Payload)

def appendStream (s : Stream) : Stream × Payload :=
  if s.done then (s, p)
  else
    let x := Fill.appendFrames max ⟨s, p.c.credit, p.b, []⟩
    (x.s, ⟨{ p.c with credit := x.c }, x.b, p.frames ++ x.frames, p.ackEliciting || !x.frames.isEmpty⟩)

/-- The loop over the queue: `kept` are the streams passed that stay in it. -/
def streamsLoop (kept : List Stream) : List Stream → Payload → List Stream × List Stream × Payload
  | [], p => (kept, [], p)
  | s :: rest, p =>
    if max - p.b.length > 16 then
      let (s, p) := p.appendStream max s
      streamsLoop (if s.done || !s.sendable p.c.credit then kept else kept ++ [s]) rest p
    else (kept, s :: rest, p)

/-- The stream that filled the packet goes to the back of the line. -/
def rotate : List Stream → List Stream
  | [] => []
  | s :: rest => rest ++ [s]

def appendStreams : Payload :=
  let (kept, rest, p) := streamsLoop max [] p.c.sendQueue p
  let queue := kept ++ rest
  { p with c := { p.c with sendQueue := if queue.length > 1 ∧ kept ≠ [] then rotate queue else queue } }

def appendFrames (space : SpaceId) : Payload :=
  let p := if space = .app then p.appendControlFrames max else p
  let p := p.appendCrypto max space (max + 1)
  if space = .app then
    let p := p.appendStreams max
    if p.c.credit.dataBlocked.pending then p.appendBlocked max else p
  else p

end Payload

def appendAck (space : SpaceId) (s : SendSpace) (b : Bytes) : Bytes :=
  match s.recv.reverse with
  | [] => b
  | largest :: rest =>
    let delay := if space = .app then s.ackDelay else 0
    let b := [largest.hi, delay, rest.length, largest.hi - largest.lo].foldl appendVarint (b ++ [frameAck])
    (rest.foldl (fun (b, prev) r => (appendVarint (appendVarint b (prev - r.hi - 2)) (r.hi - r.lo), r.lo))
      (b, largest.lo)).1

structure PacketPlan where
  space : SpaceId
  pn : ℕ
  pnLen : ℕ
  payload : Bytes
  frames : List SentFrame
  ackOf : ℕ
  ackEliciting : Bool
  padded : Bool
  early : Bool
deriving DecidableEq

namespace Conn
variable (c : Conn) (space : SpaceId)

def packetSize (p : PacketPlan) : ℕ := c.headerLen p.space p.pnLen p.early + p.payload.length + aeadOverhead

/-- The acknowledgement at the head of the payload, if it has one that leaves room for more. -/
def ackFor (early : Bool) (max : ℕ) : Option Bytes :=
  let s := c.spaces space
  if !early ∧ (s.ackPending ∨ space ≠ .app) ∧ s.recv ≠ [] then
    let ack := appendAck space s []
    if ack.length ≤ max / 2 then some ack else none
  else none

def payloadFor (early mayElicit : Bool) (max : ℕ) : Payload :=
  let s := c.spaces space
  let p : Payload := { c := c, b := (c.ackFor space early max).getD [] }
  let p := if mayElicit then (if early then p.appendStreams max else p.appendFrames max space) else p
  if s.probes > 0 ∧ !p.ackEliciting ∧ p.b.length < max then p.add [framePing] p.c [] else p

def buildPacket (room : ℕ) (mayElicit early : Bool) : Option PacketPlan × Conn :=
  let s := c.spaces space
  let pl := pnLen s.nextPN s.largestAcked
  let max := room - c.headerLen space pl early - aeadOverhead
  if max < 16 then (none, c)
  else
    let ackDue := !early && s.ackPending && (s.ackNow || s.ackOverdue)
    if !ackDue && s.probes == 0 && (!mayElicit || !c.framesWaiting space) then (none, c)
    else
      let withAck := (c.ackFor space early max).isSome
      let p := c.payloadFor space early mayElicit max
      if !p.ackEliciting && !(withAck && ackDue) then (none, p.c)
      else
        let short := 4 - pl - p.b.length
        let s := p.c.spaces space
        let s := if withAck then { s with ackPending := false, ackNow := false, ackOverdue := false } else s
        let s := if p.ackEliciting && s.probes > 0 then { s with probes := s.probes - 1 } else s
        (some ⟨space, s.nextPN, pl, p.b ++ List.replicate short 0, p.frames,
            if withAck then (s.recv.getLast?.map fun r => r.hi + 1).getD 0 else 0, p.ackEliciting, short > 0, early⟩,
          p.c.setSpace space { s with nextPN := s.nextPN + 1 })

end Conn

/-! ### The room the frames take -/

open SendBuffer

/-- The connection's buffers hold what was written to them. -/
structure Conn.Sound (c : Conn) : Prop where
  crypto : ∀ i, ∃ W, Holds W (c.spaces i).cryptoSend
  streams : ∀ s ∈ c.sendQueue, s.reset = true ∨ ∃ W, Holds W s.send

namespace Payload
variable {max : ℕ} {p q : Payload}

/-- From `p` to `q` control frames were added, as far as they fit. -/
structure Adds (max : ℕ) (p q : Payload) : Prop where
  link : q.c.toLink = p.c.toLink
  queue : q.c.sendQueue = p.c.sendQueue
  spaces : q.c.spaces = p.c.spaces
  len : p.b.length ≤ max → q.b.length ≤ max

theorem Adds.refl (max : ℕ) (p : Payload) : Adds max p p := ⟨rfl, rfl, rfl, id⟩

theorem Adds.trans {r : Payload} (h : Adds max p q) (h' : Adds max q r) : Adds max p r :=
  ⟨h'.link.trans h.link, h'.queue.trans h.queue, h'.spaces.trans h.spaces, h'.len ∘ h.len⟩

theorem Adds.sound (h : Adds max p q) (hs : p.c.Sound) : q.c.Sound :=
  ⟨fun i => by rw [h.spaces]; exact hs.crypto i, fun s hq => hs.streams s (h.queue ▸ hq)⟩

variable {frames : List SentFrame} {pending : Bool} {f : Bytes} {c : Conn}

theorem addIf_adds (h : Adds max p { p with c := c }) : Adds max p (p.addIf max pending f c frames) := by
  unfold addIf
  split_ifs with hp
  · refine { h with len := fun _ => ?_ }
    exact (List.length_append ..).trans_le hp.2
  · exact .refl max p

theorem Adds.addIf (h : Adds max p q)
    (h' : Adds max q { q with c := c }) : Adds max p (q.addIf max pending f c frames) := h.trans (addIf_adds h')

theorem addPathResponses_adds (rs : List (Vector UInt8 8)) : Adds max p (addPathResponses max rs p) := by
  induction rs generalizing p with
  | nil => exact .refl max p
  | cons r rs ih =>
    unfold addPathResponses
    split_ifs with hfit
    · refine Adds.trans ?_ ih
      refine ⟨rfl, rfl, rfl, fun _ => ?_⟩
      simpa [add] using hfit
    · exact .refl max p

theorem addRetireCIDs_adds (seqs : List ℕ) : Adds max p (addRetireCIDs max seqs p) := by
  induction seqs generalizing p with
  | nil => exact .refl max p
  | cons seq seqs ih =>
    unfold addRetireCIDs
    split_ifs with hfit
    · refine Adds.trans ?_ ih
      refine ⟨rfl, rfl, rfl, fun _ => ?_⟩
      simpa [add, length_varintFrame] using hfit
    · exact .refl max p

theorem newCIDs_adds (ls : List LocalCID) : Adds max p (newCIDs max ls p).2 := by
  induction ls generalizing p with
  | nil => exact .refl max p
  | cons l ls ih =>
    unfold newCIDs
    split_ifs with hfit
    · refine Adds.trans ?_ ih
      refine ⟨rfl, rfl, rfl, fun _ => ?_⟩
      have hlen := hfit.2
      have hzero : varintLen 0 = 1 := rfl
      simp only [add, List.length_append, length_varintFrame, List.map_cons, List.map_nil, List.sum_cons,
        List.sum_nil, List.length_singleton, hzero]
      omega
    · exact ih

theorem appendNewCIDs_adds : Adds max p (p.appendNewCIDs max) := by
  unfold appendNewCIDs
  split_ifs
  · have h : Adds max p (newCIDs max p.c.localCIDs p).2 := newCIDs_adds _
    exact { h with }
  · exact .refl max p

theorem addDataBlocked_adds : Adds max p (p.addDataBlocked max) := .addIf ⟨rfl, rfl, rfl, id⟩ ⟨rfl, rfl, rfl, id⟩

theorem addStreamsBlockedBidi_adds : Adds max p (p.addStreamsBlockedBidi max) :=
  .addIf ⟨rfl, rfl, rfl, id⟩ ⟨rfl, rfl, rfl, id⟩

theorem addStreamsBlockedUni_adds : Adds max p (p.addStreamsBlockedUni max) :=
  .addIf ⟨rfl, rfl, rfl, id⟩ ⟨rfl, rfl, rfl, id⟩

theorem appendBlocked_adds : Adds max p (p.appendBlocked max) :=
  (addDataBlocked_adds.trans addStreamsBlockedBidi_adds).trans addStreamsBlockedUni_adds

theorem addHandshakeDone_adds : Adds max p (p.addHandshakeDone max) := addIf_adds ⟨rfl, rfl, rfl, id⟩
theorem addNewToken_adds : Adds max p (p.addNewToken max) := addIf_adds ⟨rfl, rfl, rfl, id⟩
theorem addMaxData_adds : Adds max p (p.addMaxData max) := addIf_adds ⟨rfl, rfl, rfl, id⟩
theorem addMaxStreamsBidi_adds : Adds max p (p.addMaxStreamsBidi max) := addIf_adds ⟨rfl, rfl, rfl, id⟩
theorem addMaxStreamsUni_adds : Adds max p (p.addMaxStreamsUni max) := addIf_adds ⟨rfl, rfl, rfl, id⟩
theorem addPathChallenge_adds : Adds max p (p.addPathChallenge max) := addIf_adds ⟨rfl, rfl, rfl, id⟩
theorem addPing_adds : Adds max p (p.addPing max) := addIf_adds ⟨rfl, rfl, rfl, id⟩
theorem addAckFrequency_adds : Adds max p (p.addAckFrequency max) := addIf_adds ⟨rfl, rfl, rfl, id⟩

theorem appendControlFrames_adds : Adds max p (p.appendControlFrames max) := by
  unfold appendControlFrames
  split_ifs
  · have hearly : Adds max p _ := (addHandshakeDone_adds.trans addNewToken_adds).trans addMaxData_adds
    have hlimits := ((hearly.trans addMaxStreamsBidi_adds).trans addMaxStreamsUni_adds).trans addPathChallenge_adds
    exact (((((hlimits.trans (addPathResponses_adds _)).trans appendNewCIDs_adds).trans appendBlocked_adds).trans
      (addRetireCIDs_adds _)).trans addPing_adds).trans addAckFrequency_adds
  · exact .refl max p

end Payload

variable {i : SpaceId} {c : Conn}

theorem Conn.Sound.setSpace {s : SendSpace} (h : c.Sound)
    (hw : ∃ W, Holds W s.cryptoSend) : (c.setSpace i s).Sound := by
  refine ⟨fun j => ?_, h.streams⟩
  by_cases hj : j = i
  · rw [hj]
    simpa [Conn.setSpace] using hw
  · simpa [Conn.setSpace, Function.update_of_ne hj] using h.crypto j

theorem Conn.Sound.setCrypto {W : Bytes} {send : SendBuffer} (h : c.Sound)
    (hw : Holds W send) : (c.setCrypto i send).Sound := h.setSpace ⟨W, hw⟩

namespace Payload
variable {max : ℕ} {p q : Payload}

theorem length_addCrypto_le {space : SpaceId} {r : (ℕ × Bytes) × SendBuffer} {off : ℕ} (hm : max < 2 ^ 14)
    (ho : r.1.1 = off) (ha : max - p.b.length - 1 - varintLen off - 2 ≠ 0)
    (hn : r.1.2.length ≤ max - p.b.length - 1 - varintLen off - 2) : (p.addCrypto space r).b.length ≤ max := by
  subst ho
  have hlen : varintLen r.1.2.length ≤ 2 := varintLen_le_two (by omega)
  simp only [addCrypto, add, List.length_append, length_varintFrame, List.map_cons, List.map_nil, List.sum_cons,
    List.sum_nil]
  omega

theorem appendCrypto_spec (space : SpaceId) (hm : max < 2 ^ 14) (fuel : ℕ) (hs : p.c.Sound) (hp : p.b.length ≤ max) :
    (p.appendCrypto max space fuel).c.toLink = p.c.toLink ∧
      (p.appendCrypto max space fuel).c.sendQueue = p.c.sendQueue ∧ (p.appendCrypto max space fuel).c.Sound ∧
      (p.appendCrypto max space fuel).b.length ≤ max := by
  induction fuel generalizing p with
  | zero => exact ⟨rfl, rfl, hs, hp⟩
  | succ fuel ih =>
    obtain ⟨W, hw⟩ := hs.crypto space
    have htrim : (p.c.setCrypto space (p.c.spaces space).cryptoSend.trimLost).Sound := hs.setCrypto hw.trimLost
    rw [appendCrypto]
    cases hlost : (p.c.spaces space).cryptoSend.trimLost.lost with
    | nil =>
      dsimp only
      split_ifs with hstop
      · exact ⟨rfl, rfl, htrim, hp⟩
      obtain ⟨hoff, hshort⟩ := popNew_short (p.c.spaces space).cryptoSend.trimLost
        (max - p.b.length - 1 - varintLen (p.c.spaces space).cryptoSend.trimLost.next - 2)
      obtain ⟨-, -, -, -, -, hholds⟩ := hw.trimLost.popNew
        (max - p.b.length - 1 - varintLen (p.c.spaces space).cryptoSend.trimLost.next - 2)
      rw [not_or] at hstop
      exact ih (htrim.setCrypto hholds) (length_addCrypto_le hm hoff hstop.2 hshort)
    | cons l rest =>
      dsimp only
      split_ifs with hstop
      · exact ⟨rfl, rfl, htrim, hp⟩
      have hbase : (p.c.spaces space).cryptoSend.base < l.end_ := base_lt_of_trimLost hlost
      obtain ⟨data, -, hlen, hpop⟩ := hw.trimLost.popLost_head hlost hbase hstop
      have hholds := hw.trimLost.popLost_holds
        (max - p.b.length - 1 - varintLen (Nat.max l.off (p.c.spaces space).cryptoSend.trimLost.base) - 2)
      refine ih (htrim.setCrypto hholds) (length_addCrypto_le hm ?_ hstop ?_)
      · rw [hpop]
      · rw [hpop]
        exact hlen.trans_le ((min_le_left _ _).trans (min_le_left _ _))

variable {s : Stream}

theorem appendStream_spec (hm : max < 2 ^ 14) (hs : s.reset = true ∨ ∃ W, Holds W s.send) :
    (p.appendStream max s).2.c = { p.c with credit := (p.appendStream max s).2.c.credit } ∧
      ((p.appendStream max s).1.reset = true ∨ ∃ W, Holds W (p.appendStream max s).1.send) ∧
      ((∀ len, s.Fits len max = true) → p.b.length ≤ max → (p.appendStream max s).2.b.length ≤ max) := by
  unfold appendStream
  split_ifs
  · exact ⟨rfl, hs, fun _ h => h⟩
  · have hinv : StreamRun.Inv ⟨s, p.c.credit, []⟩ := ⟨hs, fun _ hf => absurd hf List.not_mem_nil⟩
    refine ⟨rfl, (hinv.appendFrames p.b max).holds, ?_⟩
    intro hfits hp
    exact (Fill.appendFrames_le_iff hm hs hp).2 (hfits _)

theorem streamsLoop_spec (hm : max < 2 ^ 14) (kept l : List Stream)
    (hk : ∀ s ∈ kept, s.reset = true ∨ ∃ W, Holds W s.send) (hl : ∀ s ∈ l, s.reset = true ∨ ∃ W, Holds W s.send) :
    let r := streamsLoop max kept l p
    r.2.2.c = { p.c with credit := r.2.2.c.credit } ∧
      (∀ s ∈ r.1 ++ r.2.1, s.reset = true ∨ ∃ W, Holds W s.send) ∧
      ((∀ s ∈ l, ∀ len, s.Fits len max = true) → p.b.length ≤ max → r.2.2.b.length ≤ max) := by
  induction l generalizing kept p with
  | nil => exact ⟨rfl, by simpa [streamsLoop] using hk, fun _ h => h⟩
  | cons s rest ih =>
    rw [streamsLoop]
    split_ifs with hroom
    · obtain ⟨hc, hsound, hlen⟩ := appendStream_spec hm (hl s (by simp))
      generalize p.appendStream max s = r at hc hsound hlen ⊢
      obtain ⟨t, q⟩ := r
      have hkept : ∀ s ∈ (if t.done || !t.sendable q.c.credit then kept else kept ++ [t]),
          s.reset = true ∨ ∃ W, Holds W s.send := by
        intro u hu
        split_ifs at hu
        · exact hk u hu
        · rcases List.mem_append.1 hu with hu | hu
          · exact hk u hu
          · rw [List.mem_singleton.1 hu]
            exact hsound
      obtain ⟨hc', hsound', hlen'⟩ := ih _ hkept fun u hu => hl u (by simp [hu])
      refine ⟨?_, hsound', ?_⟩
      · rw [hc', hc]
      · intro hfits hp
        exact hlen' (fun u hu => hfits u (by simp [hu])) (hlen (hfits s (by simp)) hp)
    · refine ⟨rfl, ?_, fun _ h => h⟩
      intro u hu
      rcases List.mem_append.1 hu with hu | hu
      · exact hk u hu
      · exact hl u hu

theorem mem_rotate {l : List Stream} (h : s ∈ rotate l) : s ∈ l := by
  cases l with
  | nil => exact h
  | cons t rest => simpa [rotate, or_comm] using h

/-- What the frames of a packet do to the connection, and that they fit if the streams' data does. -/
structure Fills (max : ℕ) (p q : Payload) : Prop where
  link : q.c.toLink = p.c.toLink
  sound : q.c.Sound
  len : (∀ s ∈ p.c.sendQueue, ∀ len, s.Fits len max = true) → q.b.length ≤ max

theorem appendStreams_fills (hm : max < 2 ^ 14) (hs : p.c.Sound) (hp : p.b.length ≤ max) :
    Fills max p (p.appendStreams max) := by
  obtain ⟨hc, hsound, hlen⟩ := streamsLoop_spec hm [] p.c.sendQueue (by simp) hs.streams
  unfold appendStreams
  generalize streamsLoop max [] p.c.sendQueue p = r at hc hsound hlen ⊢
  obtain ⟨kept, rest, q⟩ := r
  dsimp only at hc hsound hlen ⊢
  refine ⟨by rw [hc], ⟨fun i => ?_, ?_⟩, fun hfits => hlen hfits hp⟩
  · rw [hc]
    exact hs.crypto i
  intro s hmem
  split_ifs at hmem
  · exact hsound s (mem_rotate hmem)
  · exact hsound s hmem

theorem appendFrames_fills (space : SpaceId) (hm : max < 2 ^ 14) (hs : p.c.Sound) (hp : p.b.length ≤ max) :
    Fills max p (p.appendFrames max space) ∧
      (space ≠ .app → (p.appendFrames max space).c.sendQueue = p.c.sendQueue) := by
  unfold appendFrames
  by_cases happ : space = .app
  · have hctl : Adds max p (p.appendControlFrames max) := appendControlFrames_adds
    simp only [if_pos happ]
    obtain ⟨hlink, hqueue, hsound, hlen⟩ :=
      appendCrypto_spec space hm (max + 1) (hctl.sound hs) (hctl.len hp)
    generalize (p.appendControlFrames max).appendCrypto max space (max + 1) = q at hlink hqueue hsound hlen ⊢
    have hstreams := appendStreams_fills hm hsound hlen
    have hfits : Fills max p (q.appendStreams max) := by
      refine ⟨hstreams.link.trans (hlink.trans hctl.link), hstreams.sound, ?_⟩
      intro hall
      exact hstreams.len (by rw [hqueue, hctl.queue]; exact hall)
    refine ⟨?_, fun h => absurd happ h⟩
    split_ifs
    · have hblocked : Adds max (q.appendStreams max) ((q.appendStreams max).appendBlocked max) := appendBlocked_adds
      exact ⟨hblocked.link.trans hfits.link, hblocked.sound hfits.sound, fun hall => hblocked.len (hfits.len hall)⟩
    · exact hfits
  · simp only [if_neg happ]
    obtain ⟨hlink, hqueue, hsound, hlen⟩ := appendCrypto_spec space hm (max + 1) hs hp
    exact ⟨⟨hlink, hsound, fun _ => hlen⟩, fun _ => hqueue⟩

end Payload

namespace Conn
variable {c : Conn}

theorem payloadFor_spec (space : SpaceId) (early mayElicit : Bool) {max : ℕ} (hm : max < 2 ^ 14) (hs : c.Sound) :
    (c.payloadFor space early mayElicit max).c.toLink = c.toLink ∧ (c.payloadFor space early mayElicit max).c.Sound ∧
      (space ≠ .app → early = false → (c.payloadFor space early mayElicit max).c.sendQueue = c.sendQueue) ∧
      ((∀ s ∈ c.sendQueue, ∀ len, s.Fits len max = true) →
        (c.payloadFor space early mayElicit max).b.length ≤ max) := by
  have hack : ((c.ackFor space early max).getD []).length ≤ max := by
    unfold ackFor
    dsimp only
    split_ifs with hpend hlen
    · exact hlen.trans (Nat.div_le_self _ _)
    · exact Nat.zero_le _
    · exact Nat.zero_le _
  unfold payloadFor
  generalize hq : (if mayElicit then (if early then Payload.appendStreams max
    { c := c, b := (c.ackFor space early max).getD [] } else Payload.appendFrames max
    { c := c, b := (c.ackFor space early max).getD [] } space) else
    { c := c, b := (c.ackFor space early max).getD [] } : Payload) = q
  have hfill : Payload.Fills max { c := c, b := (c.ackFor space early max).getD [] } q ∧
      (space ≠ .app → early = false → q.c.sendQueue = c.sendQueue) := by
    rw [← hq]
    split_ifs with hmay hearly
    · exact ⟨Payload.appendStreams_fills hm hs hack, fun _ hno => absurd hearly (by simp [hno])⟩
    · obtain ⟨hf, hqueue⟩ := Payload.appendFrames_fills (p := ⟨c, _, [], false⟩) space hm hs hack
      exact ⟨hf, fun happ _ => hqueue happ⟩
    · exact ⟨⟨rfl, hs, fun _ => hack⟩, fun _ _ => rfl⟩
  obtain ⟨hf, hqueue⟩ := hfill
  dsimp only
  rw [hq]
  split_ifs with hping
  · refine ⟨hf.link, hf.sound, hqueue, fun _ => ?_⟩
    simp only [Payload.add, List.length_append, List.length_singleton]
    omega
  · exact ⟨hf.link, hf.sound, hqueue, hf.len⟩

/-- A packet is no larger than its room, if the streams' data fits, and building it leaves the connection sound. -/
theorem buildPacket_spec (space : SpaceId) (room : ℕ) (mayElicit early : Bool) (hr : room < 2 ^ 14) (hs : c.Sound) :
    (c.buildPacket space room mayElicit early).2.toLink = c.toLink ∧
      (c.buildPacket space room mayElicit early).2.Sound ∧
      (space ≠ .app → early = false → (c.buildPacket space room mayElicit early).2.sendQueue = c.sendQueue) ∧
      ∀ plan ∈ (c.buildPacket space room mayElicit early).1,
        (∀ s ∈ c.sendQueue, ∀ len, ∀ limit ≤ room, s.Fits len limit = true) → c.packetSize plan ≤ room := by
  have hmax : room - c.headerLen space (pnLen (c.spaces space).nextPN (c.spaces space).largestAcked) early -
      aeadOverhead < 2 ^ 14 := by omega
  unfold buildPacket
  dsimp only
  split_ifs with hsmall hnone hdrop
  · exact ⟨rfl, hs, fun _ _ => rfl, nofun⟩
  · exact ⟨rfl, hs, fun _ _ => rfl, nofun⟩
  · obtain ⟨hlink, hsound, hqueue, -⟩ := payloadFor_spec space early mayElicit hmax hs
    exact ⟨hlink, hsound, hqueue, nofun⟩
  all_goals
    obtain ⟨hlink, hsound, hqueue, hlen⟩ := payloadFor_spec space early mayElicit hmax hs
    refine ⟨hlink, hsound.setSpace (hsound.crypto space), hqueue, ?_⟩
    intro plan hplan hfits
    cases hplan
    have := hlen fun s hs len => hfits s hs len _ ((Nat.sub_le _ _).trans (Nat.sub_le _ _))
    simp only [packetSize, List.length_append, List.length_replicate]
    unfold aeadOverhead at *
    omega

end Conn
end Fib.Quic
