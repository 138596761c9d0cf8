import Fib.Lib.Bytes
import Fib.Lib.Runs
import Fib.Lib.SeqRing

/-! A uTP connection: what `Write`, `Read`, `output`, `process` and `checkTimeouts` do to its two rings and its
buffers. Sequence numbers are of 16 bits and wrap. When a deadline passes, what the windows have room for and which
packets the acknowledgements show to be lost are left to the run. -/

namespace Fib.Utp

def maxInflight : ℕ := 1023

def reorderMax : ℕ := 1024

def dupAcksBeforeResend : ℕ := 3

def sackBits : ℕ := 32

@[irreducible] def sub (a b : ℕ) : ℕ := (a + 2 ^ 16 - b) % 2 ^ 16

@[irreducible] def add (a n : ℕ) : ℕ := (a + n) % 2 ^ 16

def seqLess (a b : ℕ) : Bool := decide (2 ^ 15 ≤ sub a b)

inductive PacketType where
  | data
  | fin
  | state
  | reset
  | syn
deriving DecidableEq

inductive ConnState where
  | synSent
  | synRecv
  | connected
  | done
deriving DecidableEq

structure OutPacket where
  typ : PacketType
  payload : Bytes
  transmissions : ℕ := 0
  needResend : Bool := false
  queued : Bool := false
deriving DecidableEq

/-- A datagram: the parts of its header that matter here, the mask of its selective acknowledgement and its
payload. -/
structure Packet where
  typ : PacketType
  seq : ℕ
  ack : ℕ
  sack : Option (List Bool)
  payload : Bytes
  /-- Not in the source: the sequence number before it wraps. -/
  seqTrue : ℕ
  /-- Not in the source: the acknowledged number before it wraps. -/
  ackTrue : ℕ
deriving DecidableEq

structure Config where
  maxPayload : ℕ := 1380
  sendBuffer : ℕ := 1048576
  recvBuffer : ℕ := 1048576
  noDelay : Bool := false

/-- How much the reader and the ring ahead of it hold: the buffer and how far past the window a peer's packets are
still taken. -/
def Config.room (cfg : Config) : ℕ := cfg.recvBuffer + 8 * cfg.maxPayload

/-! ### Sending -/

structure Tx where
  seqNr : ℕ
  out : SeqRing OutPacket := {}
  inflightPkts : ℕ := 0
  sbuf : Bytes := []
  resendNow : List ℕ := []
  finQueued : Bool := false
  finSent : Bool := false
  finAcked : Bool := false
  /-- Not in the source: the first sequence number, and the packets that took one, in order. -/
  first : ℕ
  taken : List (PacketType × Bytes) := []
  /-- Not in the source: the bytes `Write` took. -/
  accepted : Bytes := []
deriving DecidableEq

namespace Tx
variable (x : Tx)

/-- Not in the source: the next sequence number before it wraps. -/
def next : ℕ := x.first + x.taken.length

def oldest : ℕ := sub x.seqNr x.inflightPkts

def push (typ : PacketType) (payload : Bytes) : Tx :=
  { x with
    out := x.out.put 16 x.seqNr { typ, payload } x.oldest
    seqNr := add x.seqNr 1
    inflightPkts := x.inflightPkts + 1
    taken := x.taken ++ [(typ, payload)] }

def queueResend (seq : ℕ) : Tx :=
  match x.out.get seq with
  | none => x
  | some p =>
    if p.queued then x
    else
      { x with
        out := x.out.modify seq fun p => some { p with queued := true }
        resendNow := x.resendNow ++ [seq] }

/-- `ackPacket`; false for a packet that was never sent. -/
def ackPacket (seq : ℕ) : Tx × Bool :=
  match x.out.get seq with
  | none => (x, true)
  | some p => if p.transmissions = 0 then (x, false) else ({ x with out := x.out.del seq }, true)

def ackOldest (x : Tx) : ℕ → Tx
  | 0 => x
  | acks + 1 =>
    let r := x.ackPacket x.oldest
    if r.2 then { r.1 with inflightPkts := r.1.inflightPkts - 1 }.ackOldest acks else r.1

/-- Packets selectively acknowledged before are gone already; `n` bounds how many. -/
def skipGone (x : Tx) : ℕ → Tx
  | 0 => x
  | n + 1 =>
    if x.inflightPkts = 0 then x
    else if (x.out.get x.oldest).isSome then x
    else { x with inflightPkts := x.inflightPkts - 1 }.skipGone n

/-- What `selectiveAck` does for a bit that is set: packet `v` arrived. -/
def ackSelected (v : ℕ) : Tx :=
  if x.inflightPkts - 1 ≤ sub (sub x.seqNr v) 1 then x else (x.ackPacket v).1

/-- The bits of the mask from the last down, the first of them for packet `base`. -/
def selectiveAck (base : ℕ) (mask : List Bool) : Tx :=
  if x.inflightPkts = 0 then x
  else ((List.range mask.length).filter fun bit => mask[bit]? = some true).reverse.foldl
    (fun x bit => x.ackSelected (add base bit)) x

/-- `takeAcks`; `lost` are the packets it finds lost, which go again. -/
def takeAcks (h : Packet) (lost : List ℕ) : Tx :=
  let n := sub h.ack (sub (sub x.seqNr 1) x.inflightPkts)
  let acks := if x.inflightPkts < n then 0 else n
  let x := { x with finAcked := x.finAcked || decide (x.finSent ∧ acks = x.inflightPkts ∧ 0 < acks) }
  let x := x.ackOldest acks
  let x := x.skipGone x.inflightPkts
  let x :=
    match h.sack with
    | some mask => x.selectiveAck (add h.ack 2) mask
    | none => x
  lost.foldl queueResend x

/-- Everything in flight is lost, packet `seqNr - i` and those after it. -/
def loseAll (x : Tx) : ℕ → Tx
  | 0 => x
  | i + 1 =>
    { x with
      out := x.out.modify (sub x.seqNr (i + 1)) fun p =>
        some { p with needResend := p.needResend || decide (0 < p.transmissions) } }.loseAll i

/-- An acknowledgement older than the packets in flight and three. -/
def staleAck (h : Packet) : Bool :=
  seqLess h.ack (sub (sub x.seqNr 1) (x.inflightPkts + dupAcksBeforeResend))

/-- What `destroy` does to it. -/
def drop : Tx :=
  { x with
    out := x.out.reset
    resendNow := []
    sbuf := []
    inflightPkts := 0 }

def write (cfg : Config) (x : Tx) (b : Bytes) : Tx :=
  let k := min (cfg.sendBuffer - x.sbuf.length) b.length
  { x with
    sbuf := x.sbuf ++ b.take k
    accepted := x.accepted ++ b.take k }

end Tx

/-! ### Receiving -/

structure Rx where
  ackNr : ℕ := 0
  /-- `in`. -/
  ahead : SeqRing Bytes := {}
  reorderCount : ℕ := 0
  reorderBytes : ℕ := 0
  gotFin : Bool := false
  finReached : Bool := false
  eofSeq : ℕ := 0
  rbuf : Bytes := []
  ackDue : Bool := false
  readShutdown : Bool := false
  /-- Not in the source: `ackNr` before it wraps. -/
  ackTrue : ℕ := 0
  /-- Not in the source: the numbers ever kept ahead. -/
  kept : List ℕ := []
  /-- Not in the source: the bytes `Read` returned, and whether it returned `io.EOF`. -/
  returned : Bytes := []
  eof : Bool := false
deriving DecidableEq

namespace Rx
variable (cfg : Config) (y : Rx)

/-- `deliver`; `none` when there is no room. -/
def deliver (payload : Bytes) : Option Rx :=
  if payload = [] ∨ y.readShutdown then some y
  else if cfg.room < y.rbuf.length + payload.length then none
  else some { y with rbuf := y.rbuf ++ payload }

def accept : Rx :=
  { y with
    ackNr := add y.ackNr 1
    ackTrue := y.ackTrue + 1
    ackDue := true }

def clearAhead : Rx :=
  { y with
    ahead := y.ahead.reset
    reorderCount := 0
    reorderBytes := 0 }

/-- The test for the FIN at the top of the loop of `advance`. -/
def reachFin : Rx :=
  if y.finReached = false ∧ y.gotFin ∧ y.eofSeq = y.ackNr then
    { y.clearAhead with
      finReached := true
      ackDue := true }
  else y

/-- The packet kept for the number after `ackNr` leaves the ring. -/
def takeAhead (d : Bytes) : Rx :=
  { y with
    ahead := y.ahead.del (add y.ackNr 1)
    reorderCount := y.reorderCount - 1
    reorderBytes := y.reorderBytes - d.length }.accept

/-- The loop of `advance`; it goes round once for each packet kept, and once more. -/
def advanceLoop (cfg : Config) : ℕ → Rx → Rx
  | 0, y => y.reachFin
  | n + 1, y =>
    let y := y.reachFin
    if y.reorderCount = 0 then y
    else
      match y.ahead.get (add y.ackNr 1) with
      | none => y
      | some d =>
        match y.deliver cfg d with
        | none => y
        | some y => advanceLoop cfg n (y.takeAhead d)

def advance : Rx := y.advanceLoop cfg y.reorderCount

def noteFin (h : Packet) : Rx :=
  if h.typ = .fin ∧ y.gotFin = false then
    { y with
      gotFin := true
      eofSeq := h.seq }
  else y

/-- A packet is kept until the gap before it fills. -/
def keep (h : Packet) : Rx :=
  { y with
    ahead := y.ahead.put 16 h.seq h.payload (add y.ackNr 1)
    reorderCount := y.reorderCount + 1
    reorderBytes := y.reorderBytes + h.payload.length
    kept := y.kept ++ [h.seqTrue] }

/-- What `process` does with a data packet or a FIN, `dist` past the next one expected. -/
def takeData (h : Packet) (dist : ℕ) : Rx :=
  let y := y.noteFin h
  if dist = 0 then
    match y.deliver cfg h.payload with
    | none => y
    | some y => y.accept.advance cfg
  else if y.gotFin ∧ seqLess y.eofSeq h.seq then y
  else
    let y := { y with ackDue := true }
    if (y.ahead.get h.seq).isSome then y
    else if cfg.room < y.reorderBytes + h.payload.length then y
    else y.keep h

/-- Bit `i` of the mask is packet `ackNr + 2 + i`. -/
def sackMask : List Bool :=
  (List.range sackBits).map fun i => (y.ahead.get (add y.ackNr (2 + i))).isSome

/-- `afterRead`: what waited for room is taken. -/
def afterRead : Rx :=
  if 0 < y.reorderCount ∨ (y.gotFin ∧ y.finReached = false) then y.advance cfg else y

def take (y : Rx) (n : ℕ) : Rx :=
  { y with
    returned := y.returned ++ y.rbuf.take n
    rbuf := y.rbuf.drop n }

/-- What `Close` does to it. -/
def shut : Rx :=
  { y.clearAhead with
    readShutdown := true
    rbuf := [] }

end Rx

/-! ### The connection -/

structure Conn where
  state : ConnState
  tx : Tx
  rx : Rx := {}
  closed : Bool := false
  lingering : Bool := false
  /-- `sent`: a data packet went out in this output. -/
  sentData : Bool := false
  /-- Not in the source: the datagrams sent. -/
  wire : List Packet := []
deriving DecidableEq

namespace Conn
variable (cfg : Config) (c : Conn) (h : Packet)

/-- `writePacket`; `back` is how far the acknowledgement stays behind `ackNr`. -/
def writePacket (typ : PacketType) (seq seqTrue back : ℕ) (payload : Bytes) : Conn :=
  { c with
    wire := c.wire ++ [{
      typ, seq, seqTrue, payload
      ack := sub c.rx.ackNr back
      ackTrue := c.rx.ackTrue - back
      sack :=
        if typ = .state ∧ 0 < c.rx.reorderCount ∧ c.rx.finReached = false then some c.rx.sackMask else none }] }

def writeState (back : ℕ) : Conn := c.writePacket .state c.tx.seqNr c.tx.next back []

/-- `ackField`, as how far it stays behind `ackNr`. -/
def ackBack (typ : PacketType) : ℕ :=
  if c.state = .synRecv ∧ (typ = .data ∨ typ = .fin) then 1 else 0

def transmit (seq : ℕ) : Conn :=
  match c.tx.out.get seq with
  | none => c
  | some p =>
    { c.writePacket p.typ seq (c.tx.next - sub c.tx.seqNr seq) (c.ackBack p.typ) p.payload with
      tx := { c.tx with
        out := c.tx.out.modify seq fun p =>
          some { p with needResend := false, transmissions := p.transmissions + 1 } }
      sentData := c.sentData || decide (p.typ = .data ∨ p.typ = .fin) }

def resendQueued (seq : ℕ) : Conn :=
  match c.tx.out.get seq with
  | none => c
  | some p =>
    if p.queued then
      { c with
        tx := { c.tx with out := c.tx.out.modify seq fun p => some { p with queued := false } } }.transmit seq
    else c

/-- The loop over the packets in flight that a timeout took out of the window, `i` the distance from `seqNr`; `fits`
says for each whether the windows have room. What is left of `fits`, and `none` if there was no room, is returned. -/
def resendLost (c : Conn) : ℕ → List Bool → Conn × Option (List Bool)
  | 0, fits => (c, some fits)
  | i + 1, fits =>
    match c.tx.out.get (sub c.tx.seqNr (i + 1)) with
    | none => c.resendLost i fits
    | some p =>
      if p.needResend then
        match fits with
        | true :: fits => (c.transmit (sub c.tx.seqNr (i + 1))).resendLost i fits
        | _ => (c, none)
      else c.resendLost i fits

def sendData (n : ℕ) : Conn :=
  { c with tx := { c.tx with sbuf := c.tx.sbuf.drop n }.push .data (c.tx.sbuf.take n) }.transmit c.tx.seqNr

def sendNew (cfg : Config) (c : Conn) : List Bool → Conn
  | [] => c
  | fits :: more =>
    let n := min c.tx.sbuf.length cfg.maxPayload
    if c.tx.sbuf = [] ∨ maxInflight - 1 ≤ c.tx.inflightPkts then c
    -- Nagle: wait to fill the packet, or for the others' acks
    else if n < cfg.maxPayload ∧ cfg.noDelay = false ∧ 0 < c.tx.inflightPkts ∧ c.tx.finQueued = false then c
    else if fits then (c.sendData n).sendNew cfg more
    else c

def sendFin : Conn :=
  if c.tx.finQueued ∧ c.tx.finSent = false ∧ c.tx.sbuf = [] ∧ c.tx.inflightPkts < maxInflight then
    { c with tx := { c.tx.push .fin [] with finSent := true } }.transmit c.tx.seqNr
  else c

def ackSent : Conn := { c with rx := { c.rx with ackDue := false } }

/-- The end of `output`. -/
def sendAck : Conn :=
  if c.rx.ackDue ∧ (c.sentData = false ∨ (0 < c.rx.reorderCount ∧ c.rx.finReached = false)) then
    (c.writeState 0).ackSent
  else c.ackSent

def resendAll : Conn :=
  let d := c.tx.resendNow.foldl resendQueued c
  { d with tx := { d.tx with resendNow := [] } }

def outputOpen (fits : List Bool) : Conn :=
  match c.resendLost c.tx.inflightPkts fits with
  | (c, some fits) => (c.sendNew cfg fits).sendFin.sendAck
  | (c, none) => c.sendFin.sendAck

def output (fits : List Bool) : Conn :=
  if c.state = .done then
    if c.lingering ∧ c.rx.ackDue then (c.writeState 0).ackSent else c.ackSent
  else
    let c := { c with sentData := false }.resendAll
    if c.state = .synSent then c else c.outputOpen cfg fits

/-! ### The end -/

def destroy : Conn :=
  if c.state = .done then c
  else
    { c with
      state := .done
      tx := c.tx.drop
      rx := { c.rx with ahead := c.rx.ahead.reset } }

def finish : Conn := { c with lingering := c.lingering || c.rx.finReached }.destroy

def abort : Conn :=
  if c.state = .done ∨ c.state = .synSent then c.destroy
  else (c.writePacket .reset c.tx.seqNr c.tx.next 0 []).destroy

/-! ### Datagrams -/

def answered : Conn :=
  { c with
    state := .connected
    tx :=
      if h.typ ≠ .state ∧ c.tx.inflightPkts = 1 then
        { (c.tx.ackPacket (sub c.tx.seqNr 1)).1 with inflightPkts := 0 }
      else c.tx
    rx := { c.rx with
      ackNr := sub h.seq 1
      ackTrue := h.seqTrue - 1
      ackDue := true } }

def establish : Conn :=
  match c.state with
  | .synSent => c.answered h
  | .synRecv => { c with state := .connected }
  | _ => c

def processOpen (stale : Bool) (lost : List ℕ) : Conn :=
  let dist := sub (sub h.seq c.rx.ackNr) 1
  if reorderMax ≤ dist then
    if 2 ^ 16 - reorderMax ≤ dist ∧ h.typ ≠ .state then { c with rx := { c.rx with ackDue := true } } else c
  else
    let c := if stale then c else { c with tx := c.tx.takeAcks h lost }
    if c.tx.finAcked ∧ c.closed then c.finish
    else if h.typ = .state then c
    else { c with rx := c.rx.takeData cfg h dist }

/-- The packet is not taken at all: it acknowledges one not sent, or answers a SYN and is stale. -/
def ignores : Bool :=
  seqLess (sub c.tx.seqNr 1) h.ack || (c.tx.staleAck h && decide (c.state = .synSent))

def process (lost : List ℕ) : Conn :=
  if c.state = .done then
    if c.lingering ∧ h.typ ≠ .state then { c with rx := { c.rx with ackDue := true } } else c
  else if c.ignores h then c
  else (c.establish h).processOpen cfg h (c.tx.staleAck h) lost

/-- A datagram of the connection, as `HandleDatagram` hands it over: a RESET ends it, and a SYN that comes again is
answered again. -/
def handle (lost : List ℕ) : Conn :=
  match h.typ with
  | .reset => c.destroy
  | .syn => if c.state = .synRecv then { c with rx := { c.rx with ackDue := true } } else c
  | _ => c.process cfg h lost

/-! ### Timeouts -/

/-- Which deadlines have passed: one that ends the connection, with a RESET or without, the tail loss probe's, the
retransmission's and the keepalive's. -/
structure Due where
  aborts : Bool := false
  ends : Bool := false
  probe : Bool := false
  retransmit : Bool := false
  keepAlive : Bool := false
deriving DecidableEq

def timeoutTx (due : Due) (x : Tx) : Tx :=
  let x := if due.probe then x.queueResend x.oldest else x
  if due.retransmit ∧ 0 < x.inflightPkts then (x.loseAll x.inflightPkts).queueResend x.oldest else x

/-- Of a SYN's second timeout the RESET and the new connection ids are left out. -/
def checkTimeouts (due : Due) : Conn :=
  if c.state = .done then { c with lingering := c.lingering && !due.ends }
  else if due.aborts then c.abort
  else if due.ends then c.destroy
  else
    let c := { c with tx := timeoutTx due c.tx }
    if due.keepAlive ∧ c.state = .connected ∧ c.tx.finSent = false then c.writeState 1 else c

/-! ### The application -/

def write (cfg : Config) (c : Conn) (b : Bytes) : Conn :=
  if c.closed ∨ c.tx.finQueued ∨ c.state = .done then c else { c with tx := c.tx.write cfg b }

/-- `Read` into a buffer of `n` bytes, once it does not wait. -/
def read (n : ℕ) : Conn :=
  if c.closed then c
  else if c.rx.rbuf ≠ [] then
    { c with rx := if c.state = .done then c.rx.take n else (c.rx.take n).afterRead cfg }
  else if c.rx.finReached then { c with rx := { c.rx with eof := true } }
  else c

def closeWrite : Conn :=
  if c.closed ∨ c.state = .done then c else { c with tx := { c.tx with finQueued := true } }

def close : Conn :=
  if c.closed then c
  else
    let c :=
      { c with
        closed := true
        rx := c.rx.shut }
    if c.state = .done then c
    else if c.state = .synSent ∨ (c.state = .synRecv ∧ c.tx.inflightPkts = 0 ∧ c.tx.sbuf = []) then c.destroy
    else if c.tx.finAcked then c.finish
    else { c with tx := { c.tx with finQueued := true } }

/-! ### Two of them -/

/-- `Dial`: the SYN takes the first number. -/
def dial (first : ℕ) : Conn :=
  transmit { state := .synSent, tx := Tx.push { seqNr := first % 2 ^ 16, first } .syn [] } (first % 2 ^ 16)

def acceptSyn (first syn : ℕ) : Conn :=
  { state := .synRecv
    tx := { seqNr := first % 2 ^ 16, first }
    rx := { ackNr := syn % 2 ^ 16, ackTrue := syn, ackDue := true } }

/-- What happens to a connection: the application's calls, an output, a datagram of the peer's and a timeout. -/
inductive Act where
  | write (b : Bytes)
  | read (n : ℕ)
  | closeWrite
  | close
  | output (fits : List Bool)
  | datagram (i : ℕ) (lost : List ℕ)
  | timeout (due : Due)
deriving DecidableEq

/-- `peer` are the datagrams the other side has sent; the network delivers any of them at any time. -/
def act (peer : List Packet) (c : Conn) : Act → Conn
  | .write b => c.write cfg b
  | .read n => c.read cfg n
  | .closeWrite => c.closeWrite
  | .close => c.close
  | .output fits => c.output cfg fits
  | .datagram i lost =>
    match peer[i]? with
    | none => c
    | some h => c.handle cfg h lost
  | .timeout due => c.checkTimeouts due

end Conn

structure Net where
  left : Conn
  right : Conn
deriving DecidableEq

/-- The two sides, `true` the one that dialed. -/
def Net.step (cl cr : Config) (n : Net) : Bool × Conn.Act → Net
  | (true, a) => { n with left := n.left.act cl n.right.wire a }
  | (false, a) => { n with right := n.right.act cr n.left.wire a }

/-- A connection that was dialed and accepted; the first numbers of the two sides are any. -/
def network (cl cr : Config) (isn isn' : ℕ) : Machine Net (Bool × Conn.Act) where
  init := ⟨Conn.dial (2 ^ 16 + isn), Conn.acceptSyn (2 ^ 16 + isn') (2 ^ 16 + isn)⟩
  step := Net.step cl cr

end Fib.Utp
