import Fib.Kcp.Wire

/-! One conversation of KCP: Send, Recv, Input and Flush over its four queues, with the windows, the
round trip estimate and the congestion control that decide what a flush sends. -/

namespace Fib.Kcp

structure Segment where
  frg : UInt8 := 0
  ts : UInt32 := 0
  sn : UInt32 := 0
  resendts : UInt32 := 0
  rto : UInt32 := 0
  fastack : UInt32 := 0
  xmit : UInt32 := 0
  acked : Bool := false
  data : Bytes := []
  deriving DecidableEq

def timediff (later earlier : UInt32) : Int32 := (later - earlier).toInt32

inductive KcpError
  | conv | malformed | messageTooBig | empty | noMessage | shortBuffer
  deriving DecidableEq

def defaultWindow : UInt32 := 128
def defaultMtu : UInt32 := 1400
def defaultInterval : UInt32 := 100
def rtoNoDelay : UInt32 := 30
def rtoMin : UInt32 := 100
def rtoDefault : UInt32 := 200
def rtoMax : UInt32 := 60000
def threshInit : UInt32 := 2
def threshMin : UInt32 := 2
def probeInit : UInt32 := 500
def probeLimit : UInt32 := 120000
def maxFragments : ℕ := 256

structure KCP where
  conv : UInt32
  mtu : UInt32 := defaultMtu
  mss : UInt32 := defaultMtu - 24
  sndUna : UInt32 := 0
  sndNxt : UInt32 := 0
  rcvNxt : UInt32 := 0
  ssthresh : UInt32 := threshInit
  rxRttvar : Int32 := 0
  rxSrtt : Int32 := 0
  rxRto : UInt32 := rtoDefault
  rxMinrto : UInt32 := rtoMin
  sndWnd : UInt32 := defaultWindow
  rcvWnd : UInt32 := defaultWindow
  rmtWnd : UInt32 := defaultWindow
  cwnd : UInt32 := 1
  incr : UInt32 := defaultMtu - 24
  askSend : Bool := false
  askTell : Bool := false
  current : UInt32 := 0
  interval : UInt32 := defaultInterval
  nodelay : ℤ := 0
  tsProbe : UInt32 := 0
  probeWait : UInt32 := 0
  fastresend : Int32 := 0
  fastlimit : Int32 := 5
  nocwnd : Bool := false
  stream : Bool := false
  sndQueue : List Segment := []
  rcvQueue : List Segment := []
  sndBuf : List Segment := []
  rcvBuf : List Segment := []
  acklist : List (UInt32 × UInt32) := []

def newKcp (conv : UInt32) : KCP := { conv := conv }

inductive Setting
  | mtu (n : ℤ)
  | noDelay (nodelay interval resend : ℤ) (nc : Bool)
  | window (send recv : ℤ)
  | streamMode (on : Bool)

namespace KCP
variable (k : KCP) (now : UInt32) (seg : Segment)

/-- `SetMTU`, which refuses a size without room for a header and a byte. -/
def setMtu (n : ℤ) : KCP :=
  if n ≤ 24 ∨ n > 2 ^ 16 then k
  else
    let mtu := UInt32.ofNat n.toNat
    { k with
      mtu := mtu
      mss := mtu - 24
      incr := if k.incr < mtu - 24 then mtu - 24 else k.incr }

def noDelay (nodelay interval resend : ℤ) (nc : Bool) : KCP :=
  { k with
    nodelay := if nodelay ≥ 0 then nodelay else k.nodelay
    rxMinrto := if nodelay ≥ 0 then if nodelay ≠ 0 then rtoNoDelay else rtoMin else k.rxMinrto
    interval := if interval > 0 then UInt32.ofNat (min (max interval 10) 5000).toNat else k.interval
    fastresend := if resend ≥ 0 then Int32.ofInt resend else k.fastresend
    nocwnd := nc }

def setWindow (send recv : ℤ) : KCP :=
  { k with
    sndWnd := if send > 0 then UInt32.ofNat send.toNat else k.sndWnd
    rcvWnd := if recv > 0 then UInt32.ofNat recv.toNat else k.rcvWnd }

def set : Setting → KCP
  | .mtu n => k.setMtu n
  | .noDelay nodelay interval resend nc => k.noDelay nodelay interval resend nc
  | .window send recv => k.setWindow send recv
  | .streamMode on => { k with stream := on }

/-- `PeekSize`'s and `Recv`'s loop: the segments up to the last of a message. -/
def untilLast : List Segment → List Segment
  | [] => []
  | seg :: q => if seg.frg = 0 then [seg] else seg :: untilLast q

def peekSize : Option ℕ :=
  match k.rcvQueue with
  | [] => none
  | seg :: _ =>
    if seg.frg = 0 then some seg.data.length
    else if k.rcvQueue.length < seg.frg.toNat + 1 then none
    else some ((untilLast k.rcvQueue).map (·.data.length)).sum

def moveLoop (rcvWnd : UInt32) : List Segment → UInt32 → List Segment → List Segment × UInt32 × List Segment
  | [], nxt, queue => ([], nxt, queue)
  | seg :: buf, nxt, queue =>
    if seg.sn ≠ nxt ∨ queue.length ≥ rcvWnd.toNat then (seg :: buf, nxt, queue)
    else moveLoop rcvWnd buf (nxt + 1) (queue ++ [seg])

def moveRecv : KCP :=
  let r := moveLoop k.rcvWnd k.rcvBuf k.rcvNxt k.rcvQueue
  { k with rcvBuf := r.1, rcvNxt := r.2.1, rcvQueue := r.2.2 }

def recv (size : ℕ) : Except KcpError (Bytes × KCP) :=
  match k.peekSize with
  | none => .error .noMessage
  | some n =>
    if n > size then .error .shortBuffer
    else
      let reopen := k.rcvQueue.length ≥ k.rcvWnd.toNat
      let message := untilLast k.rcvQueue
      let k' := moveRecv { k with rcvQueue := k.rcvQueue.drop message.length }
      .ok (message.flatMap (·.data),
        { k' with askTell := k'.askTell || (reopen && k'.rcvQueue.length < k'.rcvWnd.toNat) })

/-- `Send`'s loop: `count` segments of `mss` bytes, numbered down unless in stream mode. -/
def cut (mss : ℕ) (stream : Bool) : ℕ → Bytes → List Segment
  | 0, _ => []
  | n + 1, b => { data := b.take mss, frg := if stream then 0 else UInt8.ofNat n } :: cut mss stream n (b.drop mss)

/-- In stream mode the last queued segment is filled up first: the queue and what is left of `b`. -/
def topUp (mss : ℕ) (queue : List Segment) (b : Bytes) : List Segment × Bytes :=
  match queue.getLast? with
  | none => (queue, b)
  | some last =>
    if last.data.length < mss then
      (queue.dropLast ++ [{ last with data := last.data ++ b.take (mss - last.data.length), frg := 0 }],
        b.drop (mss - last.data.length))
    else (queue, b)

def send (b : Bytes) : Except KcpError KCP :=
  if b = [] then .error .empty
  else
    let mss := k.mss.toNat
    let r := if k.stream then topUp mss k.sndQueue b else (k.sndQueue, b)
    let count := (r.2.length + mss - 1) / mss
    if k.stream = true ∧ r.2 = [] then .ok { k with sndQueue := r.1 }
    else if k.stream = false ∧ count ≥ maxFragments then .error .messageTooBig
    else .ok { k with sndQueue := r.1 ++ cut mss k.stream count r.2 }

/-- The smoothed round trip and its variation after one more sample. -/
def rttAfter (rtt : Int32) : Int32 × Int32 :=
  if k.rxSrtt = 0 then (rtt, rtt / 2)
  else
    let delta := rtt - k.rxSrtt
    let delta := if delta < 0 then -delta else delta
    let srtt := (7 * k.rxSrtt + rtt) / 8
    (if srtt < 1 then 1 else srtt, (3 * k.rxRttvar + delta) / 4)

def updateAck (rtt : Int32) : KCP :=
  let r := k.rttAfter rtt
  let rto := r.1.toUInt32 + max k.interval (4 * r.2.toUInt32)
  { k with rxSrtt := r.1, rxRttvar := r.2, rxRto := min (max k.rxMinrto rto) rtoMax }

def shrinkBuf : KCP :=
  let buf := k.sndBuf.dropWhile (·.acked)
  { k with
    sndBuf := buf
    sndUna := match buf with
      | [] => k.sndNxt
      | seg :: _ => seg.sn }

def parseAck (sn : UInt32) : KCP :=
  if timediff sn k.sndUna < 0 ∨ timediff sn k.sndNxt ≥ 0 then k
  else match k.sndBuf with
    | [] => k
    | first :: _ =>
      let i := (sn - first.sn).toNat
      match k.sndBuf[i]? with
      | none => k
      | some seg =>
        if seg.sn = sn then { k with sndBuf := k.sndBuf.set i { seg with acked := true, data := [] } } else k

def parseUna (una : UInt32) : KCP :=
  { k with sndBuf := k.sndBuf.dropWhile fun seg => timediff una seg.sn > 0 }

def fastackLoop (sn ts : UInt32) : List Segment → List Segment
  | [] => []
  | seg :: buf =>
    if timediff sn seg.sn < 0 then seg :: buf
    else
      (if sn ≠ seg.sn ∧ seg.acked = false ∧ timediff ts seg.ts ≥ 0 then { seg with fastack := seg.fastack + 1 }
        else seg) :: fastackLoop sn ts buf

def parseFastack (sn ts : UInt32) : KCP :=
  if timediff sn k.sndUna < 0 ∨ timediff sn k.sndNxt ≥ 0 then k
  else { k with sndBuf := fastackLoop sn ts k.sndBuf }

/-- Where `parseData` puts a segment, from the back of the buffer; none for one that is there. -/
def place (seg : Segment) : List Segment → Option (List Segment)
  | [] => some [seg]
  | prev :: buf =>
    if prev.sn = seg.sn then none
    else if timediff seg.sn prev.sn > 0 then some (seg :: prev :: buf)
    else (place seg buf).map (prev :: ·)

def parseData : KCP :=
  if timediff seg.sn (k.rcvNxt + k.rcvWnd) ≥ 0 ∨ timediff seg.sn k.rcvNxt < 0 then k
  else match place seg k.rcvBuf.reverse with
    | none => k
    | some buf => moveRecv { k with rcvBuf := buf.reverse }

/-- What `Input` does with one segment; the second part is the latest acknowledgement seen. -/
def handle (seen : Option (UInt32 × UInt32)) (w : Wire) : KCP × Option (UInt32 × UInt32) :=
  let k := shrinkBuf (parseUna { k with rmtWnd := w.wnd.toUInt32 } w.una)
  if w.cmd = cmdAck then
    let rtt := timediff k.current w.ts
    let k := if rtt ≥ 0 then k.updateAck rtt else k
    let k := shrinkBuf (k.parseAck w.sn)
    (k, match seen with
      | none => some (w.sn, w.ts)
      | some (maxack, latestTs) =>
        if timediff w.sn maxack > 0 ∧ timediff w.ts latestTs > 0 then some (w.sn, w.ts) else seen)
  else if w.cmd = cmdPush then
    if timediff w.sn (k.rcvNxt + k.rcvWnd) < 0 then
      let k := { k with acklist := k.acklist ++ [(w.sn, w.ts)] }
      if timediff w.sn k.rcvNxt ≥ 0 then
        (k.parseData { frg := w.frg, ts := w.ts, sn := w.sn, data := w.data }, seen)
      else (k, seen)
    else (k, seen)
  else if w.cmd = cmdWask then ({ k with askTell := true }, seen)
  else (k, seen)

def inputLoop (k : KCP) (seen : Option (UInt32 × UInt32)) (packet : Bytes) :
    KCP × Option (UInt32 × UInt32) × Option KcpError :=
  if packet.length < overhead then (k, seen, none)
  else if uint32At packet 0 ≠ k.conv then (k, seen, some .conv)
  else
    let length := (uint32At packet 20).toNat
    let cmd := packet.getD 4 0
    if length > (packet.drop overhead).length then (k, seen, some .malformed)
    else if cmd < cmdPush ∨ cmd > cmdWins then (k, seen, some .malformed)
    else
      let r := k.handle seen {
        cmd := cmd
        frg := packet.getD 5 0
        wnd := uint16At packet 6
        ts := uint32At packet 8
        sn := uint32At packet 12
        una := uint32At packet 16
        data := (packet.drop overhead).take length }
      inputLoop r.1 r.2 ((packet.drop overhead).drop length)
termination_by packet.length
decreasing_by simp only [List.length_drop, overhead] at *; omega

/-- The congestion window, and the count it grows by, after a packet that acknowledged something new. -/
def grown : UInt32 × UInt32 :=
  let mss := k.mss
  let (cwnd, incr) :=
    if k.cwnd < k.ssthresh then (k.cwnd + 1, k.incr + mss)
    else
      let incr := max k.incr mss
      let incr := incr + (mss * mss / incr + mss / 16)
      (if (k.cwnd + 1) * mss ≤ incr then (incr + mss - 1) / mss else k.cwnd, incr)
  if cwnd > k.rmtWnd then (k.rmtWnd, k.rmtWnd * mss) else (cwnd, incr)

def growWindow (prevUna : UInt32) : KCP :=
  if timediff k.sndUna prevUna > 0 ∧ k.cwnd < k.rmtWnd then { k with cwnd := k.grown.1, incr := k.grown.2 } else k

def input (packet : Bytes) (now : UInt32) : KCP × Option KcpError :=
  let k := { k with current := now }
  if packet.length < overhead then (k, some .malformed)
  else
    match k.inputLoop none packet with
    | (k', _, some e) => (k', some e)
    | (k', seen, none) =>
      let k'' := match seen with
        | none => k'
        | some (maxack, latestTs) => k'.parseFastack maxack latestTs
      (k''.growWindow k.sndUna, none)

def wndUnused : UInt16 :=
  if k.rcvQueue.length < k.rcvWnd.toNat then UInt16.ofNat (min (k.rcvWnd.toNat - k.rcvQueue.length) 0xffff) else 0

def cwndNow : UInt32 :=
  let cwnd := min k.sndWnd k.rmtWnd
  if k.nocwnd then cwnd else min k.cwnd cwnd

structure Output where
  packets : List Bytes := []
  buffer : Bytes := []

/-- `room`, then the segment. -/
def Output.put (o : Output) (conv mtu : UInt32) (w : Wire) : Output :=
  if o.buffer.length + (overhead + w.data.length) > mtu.toNat ∧ o.buffer ≠ [] then
    { packets := o.packets ++ [o.buffer], buffer := w.encode conv }
  else { o with buffer := o.buffer ++ w.encode conv }

def Output.finish (o : Output) : List Bytes := if o.buffer = [] then o.packets else o.packets ++ [o.buffer]

/-- The probe timer runs while the peer's window is closed: its wait, its time, whether a probe is due. -/
def probeNext : UInt32 × UInt32 × Bool :=
  if k.rmtWnd = 0 then
    if k.probeWait = 0 then (probeInit, now + probeInit, k.askSend)
    else if timediff now k.tsProbe ≥ 0 then
      let wait := min (max k.probeWait probeInit + k.probeWait / 2) probeLimit
      (wait, now + wait, true)
    else (k.probeWait, k.tsProbe, k.askSend)
  else (0, 0, k.askSend)

def probeTimer : KCP :=
  { k with
    probeWait := (k.probeNext now).1
    tsProbe := (k.probeNext now).2.1
    askSend := (k.probeNext now).2.2 }

/-- The queued segments the window admits, numbered; those it does not; the next number. -/
def allow (limit : UInt32) : List Segment → UInt32 → List Segment × List Segment × UInt32
  | [], nxt => ([], [], nxt)
  | seg :: queue, nxt =>
    if timediff nxt limit < 0 then
      let r := allow limit queue (nxt + 1)
      ({ seg with sn := nxt } :: r.1, r.2)
    else ([], seg :: queue, nxt)

/-- Why a segment in flight is sent by a flush. -/
inductive Due
  | no | first | timeout | fast
  deriving DecidableEq

def due (now resent : UInt32) (seg : Segment) : Due :=
  if seg.acked then .no
  else if seg.xmit = 0 then .first
  else if timediff now seg.resendts ≥ 0 then .timeout
  else if seg.fastack ≥ resent ∧ (k.fastlimit ≤ 0 ∨ seg.xmit ≤ k.fastlimit.toUInt32) then .fast
  else .no

def rearm : Due → Segment
  | .no => seg
  | .first =>
    let rtomin := if k.nodelay = 0 then k.rxRto >>> 3 else 0
    { seg with rto := k.rxRto, resendts := now + k.rxRto + rtomin, xmit := seg.xmit + 1, ts := now }
  | .timeout =>
    let rto := if k.nodelay = 0 then seg.rto + max seg.rto k.rxRto
      else seg.rto + (if k.nodelay ≥ 2 then k.rxRto else seg.rto) / 2
    { seg with rto := rto, resendts := now + rto, xmit := seg.xmit + 1, ts := now }
  | .fast => { seg with fastack := 0, resendts := now + seg.rto, xmit := seg.xmit + 1, ts := now }

def shrinkWindow (change lost : Bool) (resent cwnd : UInt32) : KCP :=
  let k := if change then
      let ssthresh := max ((k.sndNxt - k.sndUna) / 2) threshMin
      { k with ssthresh := ssthresh, cwnd := ssthresh + resent, incr := (ssthresh + resent) * k.mss }
    else k
  let k := if lost then { k with ssthresh := max (cwnd / 2) threshMin, cwnd := 1, incr := k.mss } else k
  if k.cwnd < 1 then { k with cwnd := 1, incr := k.mss } else k

def controls : List Wire :=
  let wnd := k.wndUnused
  k.acklist.map (fun a => ⟨cmdAck, 0, wnd, a.2, a.1, k.rcvNxt, []⟩) ++
    (if (k.probeTimer now).askSend then [⟨cmdWask, 0, wnd, now, 0, k.rcvNxt, []⟩] else []) ++
    (if k.askTell then [⟨cmdWins, 0, wnd, now, 0, k.rcvNxt, []⟩] else [])

def fillWindow : KCP :=
  let r := allow (k.sndUna + k.cwndNow) k.sndQueue k.sndNxt
  { k with sndBuf := k.sndBuf ++ r.1, sndQueue := r.2.1, sndNxt := r.2.2 }

def resentLimit : UInt32 := if k.fastresend > 0 then k.fastresend.toUInt32 else 0xffffffff

/-- The data segments a flush sends: each that is due, with the window and `rcvNxt` of the flush. -/
def pushes : List Wire :=
  (k.sndBuf.filter fun seg => k.due now k.resentLimit seg ≠ .no).map fun seg =>
    ⟨cmdPush, seg.frg, k.wndUnused, now, seg.sn, k.rcvNxt, seg.data⟩

def resend : Segment :=
  k.rearm now seg (k.due now k.resentLimit seg)

def flush : KCP × List Bytes :=
  let ready := fillWindow { k.probeTimer now with
    current := now
    acklist := []
    askSend := false
    askTell := false }
  let out := (k.controls now ++ ready.pushes now).foldl (fun (o : Output) w => o.put k.conv k.mtu w) {}
  let dues := ready.sndBuf.map (ready.due now ready.resentLimit)
  let sent := { ready with sndBuf := ready.sndBuf.map (ready.resend now) }
  (sent.shrinkWindow (dues.contains .fast) (dues.contains .timeout) ready.resentLimit ready.cwndNow, out.finish)

end KCP
end Fib.Kcp
