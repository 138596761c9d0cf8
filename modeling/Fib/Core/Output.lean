import Fib.Lib.Runs
import Fib.Lib.Bytes

/-! The output of a TCP connection without a layer: its send queue, what `send`, `sendParts`, `uncork` and
`flushLocked` do to it under the connection's lock, and how it ends. A step is one region under the lock; the
socket answers each write as the run says. -/

namespace Fib.Core

def maxWritevItems : ℕ := 64

def sendQueueClasses : ℕ := 8

/-- What the engine gives a connection: the limit of its send queue (0: none), whether one call may write several
items, and the capacity of the pool's buffer that a chunk of so many bytes is copied into. -/
structure Config where
  writeQueueLimit : ℕ := 0
  useWritev : Bool := true
  room : ℕ → ℕ := id

/-- `sendItem`; `pooled` names the buffer of the pool it holds. -/
structure SendItem where
  data : Bytes := []
  offset : ℕ := 0
  pooled : Option ℕ := none
  cap : ℕ := 0
  /-- Not in the source: where its last byte ends in the stream of the sends. -/
  last : ℕ := 0
deriving DecidableEq

namespace SendItem

def left (i : SendItem) : Bytes := i.data.drop i.offset

end SendItem

def content (q : List SendItem) : Bytes := q.flatMap SendItem.left

/-- Why a buffer goes back to the pool: its bytes are written, the connection is closed, or the send that brought it
is refused. -/
inductive Cause where
  | written
  | dropped
  | refused
deriving DecidableEq

/-- Not in the source: a buffer given back, where its last byte ends, and what the socket had taken by then. -/
structure Release where
  buf : ℕ
  last : ℕ
  cause : Cause
  taken : ℕ
deriving DecidableEq

/-- Not in the source: what a send adds to the stream, all its bytes or, if it is refused, those the socket took. -/
structure Offer where
  bytes : Bytes
  accepted : Bool
deriving DecidableEq

/-- What the socket says to a write: how much it took, `EINTR`, `EAGAIN` or another error. -/
inductive Wrote where
  | took (n : ℕ)
  | intr
  | again
  | fail
deriving DecidableEq

structure Output where
  sends : List SendItem := []
  sendHead : ℕ := 0
  /-- `cap(c.sends)`. -/
  slots : ℕ := 0
  pendingBytes : ℕ := 0
  corkedBytes : ℕ := 0
  corked : Bool := false
  flushing : Bool := false
  closing : Bool := false
  closed : Bool := false
  closeAfterSend : Bool := false
  writeShut : Bool := false
  /-- `CloseAfterSend` has found the queue drained and goes on to `closeWithError(nil)`. -/
  closeDue : Bool := false
  /-- The buffers taken over so far; the next one's name. -/
  buffers : ℕ := 0
  /-- Not in the source: the bytes the socket has taken. -/
  taken : Bytes := []
  /-- Not in the source: the sends in the order they took the lock. -/
  offers : List Offer := []
  /-- Not in the source: the buffers given back. -/
  released : List Release := []
  /-- Not in the source: it is `CloseAfterSend` that closed the connection. -/
  closedBySend : Bool := false
deriving DecidableEq

namespace Output
variable (cfg : Config) (c : Output) (n : ℕ) (data : Bytes) (first second : Bytes)

def queue : List SendItem := c.sends.drop c.sendHead

/-- `c.sendHead == len(c.sends)`. -/
def isEmpty : Bool := c.sendHead == c.sends.length

def canWriteDirectlyLocked : Bool := c.isEmpty && !c.flushing && !c.corked

/-! ### The queue -/

def growQueueLocked : Output :=
  { c with
    sends := c.sends.drop c.sendHead
    sendHead := 0
    slots := if c.slots.size < sendQueueClasses then 2 ^ c.slots.size else 2 * c.slots }

/-- The first half of `pushLocked`: an empty queue starts over, and a full one grows. -/
def makeRoom : Output :=
  let c := if c.isEmpty then { c with sends := [], sendHead := 0 } else c
  if c.sends.length = c.slots then c.growQueueLocked else c

def pushLocked (item : SendItem) : Output :=
  { c.makeRoom with sends := c.makeRoom.sends ++ [item] }

def resetQueueLocked : Output :=
  { c with
    sends := []
    sendHead := 0
    slots := 0 }

/-- Not in the source: where the stream ends if `n` more bytes are queued. -/
def endAfter : ℕ := c.taken.length + (content c.queue).length + n

/-- The item that `queueLocked` may append `n` bytes to. -/
def merges (tail : SendItem) : Bool :=
  tail.pooled.isSome && tail.offset == 0 && decide (tail.data.length + n ≤ tail.cap)

/-- `queueLocked`; the parts come joined. -/
def queueLocked : Output :=
  match c.sends.getLast?.filter (merges data.length) with
  | some tail =>
    { c with
      sends := c.sends.dropLast ++
        [{ tail with data := tail.data ++ data, last := c.endAfter data.length }] }
  | none =>
    { c with buffers := c.buffers + 1 }.pushLocked
      { data := data, pooled := some c.buffers, cap := cfg.room data.length, last := c.endAfter data.length }

def queueOwnedLocked : Output :=
  c.pushLocked { data := data, last := c.endAfter data.length }

def queueCorkedLocked : Output :=
  { c.queueLocked cfg data with corkedBytes := (c.queueLocked cfg data).corkedBytes + data.length }

def queueSharedPartsLocked : Output :=
  let c := if 0 < first.length then c.queueLocked cfg first else c
  if 0 < second.length then c.queueOwnedLocked second else c

def queueCorkedSharedLocked : Output :=
  { c.queueSharedPartsLocked cfg first second with
    corkedBytes := (c.queueSharedPartsLocked cfg first second).corkedBytes + (first ++ second).length }

/-! ### The counts -/

def foldCorkedLocked : Output :=
  { c with
    pendingBytes := c.pendingBytes + c.corkedBytes
    corkedBytes := 0 }

/-- `addPending`; `chargeLocked` folds the corked bytes in. -/
def addPending : Output :=
  let c := { c with pendingBytes := c.pendingBytes + n }
  if c.corked then c else c.foldCorkedLocked

/-- `subPending`; the count stops at 0. -/
def subPending : Output :=
  { c.foldCorkedLocked with pendingBytes := c.foldCorkedLocked.pendingBytes - n }

def sendQueueOverLocked : Bool :=
  cfg.writeQueueLimit != 0 && decide (cfg.writeQueueLimit < c.pendingBytes + c.corkedBytes + n)

/-! ### What the socket takes -/

/-- `releaseItemLocked`; only an item of the pool has a buffer to give back. -/
def releaseOf (cause : Cause) (taken : ℕ) (i : SendItem) : Option Release :=
  i.pooled.map fun buf => { buf, last := i.last, cause, taken }

/-- What `consumeLocked` makes of the items: the items as it leaves them, how many it passes and what it releases. -/
structure Consumed where
  items : List SendItem
  gone : ℕ
  released : List Release

def consumeItems (taken : ℕ) : List SendItem → ℕ → Consumed
  | [], _ => ⟨[], 0, []⟩
  | i :: q, n =>
    if n < i.left.length then ⟨{ i with offset := i.offset + n } :: q, 0, []⟩
    else
      let r := consumeItems taken q (n - i.left.length)
      ⟨{} :: r.items, r.gone + 1, (releaseOf .written taken i).toList ++ r.released⟩

def consumeLocked : Output :=
  let r := consumeItems c.taken.length c.queue n
  { c with
    sends := c.sends.take c.sendHead ++ r.items
    sendHead := c.sendHead + r.gone
    released := c.released ++ r.released }

/-- What `sysWrite` brings a direct send, which tries again on `EINTR`: the bytes taken, or `none` for an error. An
exhausted list is a socket that would block. -/
def writeDirect (len : ℕ) : List Wrote → Option ℕ
  | [] => some 0
  | .took n :: _ => some (min n len)
  | .intr :: os => writeDirect len os
  | .again :: _ => some 0
  | .fail :: _ => none

/-- How a region ends, for the connection's reads: nothing to settle, bytes were queued outside a cork, the flush
drained the queue, it waits for the socket, it reports an error, or it lets others have the lock and goes on. -/
inductive Ending where
  | quiet
  | queued
  | drained
  | blocked
  | failed
  | window
deriving DecidableEq

/-! ### Sends -/

inductive SendMode where
  | copy
  | owned
  /-- A buffer of the pool with this capacity. -/
  | pooled (cap : ℕ)
deriving DecidableEq

/-- A buffer of the pool that a send brings and that is not queued. -/
def giveBack (mode : SendMode) (cause : Cause) : Output :=
  match mode with
  | .pooled _ =>
    { c with
      buffers := c.buffers + 1
      released := c.released ++ [{ buf := c.buffers, last := c.taken.length, cause, taken := c.taken.length }] }
  | _ => c

def refuses : Bool := c.closing || c.closed || c.closeAfterSend || c.writeShut

/-- Not in the source. -/
def offer (bytes : Bytes) (accepted : Bool) : Output :=
  { c with offers := c.offers ++ [{ bytes, accepted }] }

def give (bytes : Bytes) : Output := { c with taken := c.taken ++ bytes }

/-- The queueing of `send`, the socket having taken `sent` bytes. -/
def queueMode (sent : ℕ) : SendMode → Output
  | .copy => c.queueLocked cfg (data.drop sent)
  | .owned => c.queueOwnedLocked (data.drop sent)
  | .pooled cap =>
    { c with buffers := c.buffers + 1 }.pushLocked
      { data := data, offset := sent, pooled := some c.buffers, cap := cap, last := c.endAfter (data.drop sent).length }

/-- The end of `send` and `sendParts` once something is queued: the pause is settled outside a cork. -/
def queuedSend : Output × Ending :=
  (c.addPending n, if c.corked then .quiet else .queued)

/-- The rest of `send` when the socket took `sent` bytes of it. -/
def sendRest (mode : SendMode) (sent : ℕ) : Output × Ending :=
  let c := c.give (data.take sent)
  if sent = data.length then ((c.offer data true).giveBack mode .written, .quiet)
  else if c.sendQueueOverLocked cfg (data.drop sent).length then
    ((c.offer (data.take sent) false).giveBack mode .refused, .quiet)
  else ((c.offer data true).queueMode cfg data sent mode).queuedSend (data.drop sent).length

/-- `send`. A refused send and a socket's error go on to `closeWithError`, a region of its own. -/
def send (mode : SendMode) (socket : List Wrote) : Output × Ending :=
  if data = [] ∨ c.refuses then (c.giveBack mode .refused, .quiet)
  else if mode = .copy ∧ c.corked then
    if c.sendQueueOverLocked cfg data.length then (c, .quiet)
    else ((c.offer data true).queueCorkedLocked cfg data, .quiet)
  else if c.canWriteDirectlyLocked then
    match writeDirect data.length socket with
    | none => (c.giveBack mode .refused, .quiet)
    | some sent => c.sendRest cfg data mode sent
  else c.sendRest cfg data mode 0

/-- The queueing of `sendParts`, the socket having taken `sent` bytes of the two parts. -/
def queueParts (shared : Bool) (sent : ℕ) : Output :=
  if shared then
    if sent < first.length then c.queueSharedPartsLocked cfg (first.drop sent) second
    else c.queueSharedPartsLocked cfg [] (second.drop (sent - first.length))
  else if sent < first.length then c.queueLocked cfg (first.drop sent ++ second)
  else c.queueLocked cfg (second.drop (sent - first.length))

/-- The rest of `sendParts` when the socket took `sent` bytes of it. -/
def sendPartsRest (shared : Bool) (sent : ℕ) : Output × Ending :=
  let total := (first ++ second).length
  let c := c.give ((first ++ second).take sent)
  if sent = total then (c.offer (first ++ second) true, .quiet)
  else if c.sendQueueOverLocked cfg (total - sent) then (c.offer ((first ++ second).take sent) false, .quiet)
  else ((c.offer (first ++ second) true).queueParts cfg first second shared sent).queuedSend (total - sent)

def sendParts (shared : Bool) (socket : List Wrote) : Output × Ending :=
  let total := (first ++ second).length
  if total = 0 ∨ c.refuses then (c, .quiet)
  else if c.corked then
    if c.sendQueueOverLocked cfg total then (c, .quiet)
    else if shared then ((c.offer (first ++ second) true).queueCorkedSharedLocked cfg first second, .quiet)
    else ((c.offer (first ++ second) true).queueCorkedLocked cfg (first ++ second), .quiet)
  else if c.canWriteDirectlyLocked then
    match writeDirect total socket with
    | none => (c, .quiet)
    | some sent => c.sendPartsRest cfg first second shared sent
  else c.sendPartsRest cfg first second shared 0

/-! ### Flushing -/

def batch : List SendItem :=
  c.queue.take (if cfg.useWritev then maxWritevItems else 1)

/-- The branch of `flushLocked` that finds nothing queued. -/
def drain : Output :=
  { c.resetQueueLocked.foldCorkedLocked with
    flushing := false
    closeDue := c.closeDue || c.closeAfterSend }

def await : Output := { c.foldCorkedLocked with flushing := false }

/-- The socket takes `n` bytes of the batch. -/
def wrote : Output :=
  ((c.give ((content (c.batch cfg)).take n)).subPending n).consumeLocked n

/-- The loop of `flushLocked`, up to its end or to where it lets others have the lock. -/
def flushLoop (cfg : Config) (c : Output) (socket : List Wrote) : Output × Ending :=
  if c.isEmpty then (c.drain, .drained)
  else
    match socket with
    | [] => (c.await, .blocked)
    | .intr :: os => c.flushLoop cfg os
    | .again :: _ => (c.await, .blocked)
    | .fail :: _ => ({ c with flushing := false }, .failed)
    | .took n :: os =>
      let attempted := (content (c.batch cfg)).length
      if n = 0 then ({ c with flushing := false }, .quiet)
      else if n < attempted then ((c.wrote cfg n).await, .blocked)
      else if (c.wrote cfg attempted).isEmpty then (c.wrote cfg attempted).flushLoop cfg os
      else (c.wrote cfg attempted, .window)
termination_by structural socket

def flushLocked (socket : List Wrote) : Output × Ending :=
  if c.closing || c.closed then (c, .failed)
  else if c.flushing then (c.foldCorkedLocked, .quiet)
  else { c with flushing := true }.flushLoop cfg socket

def resume (socket : List Wrote) : Output × Ending :=
  if c.flushing then c.flushLoop cfg socket else (c, .quiet)

def cork : Output := { c with corked := true }

def uncork (socket : List Wrote) : Output × Ending :=
  let d := { c with corked := false }.foldCorkedLocked
  if !c.corked || d.isEmpty then (d, .quiet) else d.flushLocked cfg socket

/-! ### The end -/

def closeAfterSendRaw : Output :=
  if c.closing || c.closed || c.closeAfterSend then c
  else
    { c with
      closeAfterSend := true
      closeDue := c.closeDue || (c.isEmpty && !c.flushing) }

def closeWithError : Output := { c with closing := true }

def finishClose : Output :=
  if c.closeDue then
    { c.closeWithError with
      closeDue := false
      closedBySend := c.closedBySend || !(c.closing || c.closed) }
  else c

def closeWrite : Output := { c with writeShut := true }

def markClosedLocked : Output :=
  { c.resetQueueLocked with
    closed := true
    closing := true
    pendingBytes := 0
    corkedBytes := 0
    released := c.released ++ c.queue.filterMap (releaseOf .dropped c.taken.length) }

/-- The regions under the lock that touch the output. -/
inductive Op where
  | send (data : Bytes) (mode : SendMode) (socket : List Wrote)
  | sendParts (first second : Bytes) (shared : Bool) (socket : List Wrote)
  | cork
  | uncork (socket : List Wrote)
  | flushOutput (socket : List Wrote)
  | resume (socket : List Wrote)
  | closeAfterSend
  | finishClose
  | closeWithError
  | closeWrite
  | markClosed
deriving DecidableEq

def act : Op → Output × Ending
  | .send data mode socket => c.send cfg data mode socket
  | .sendParts first second shared socket => c.sendParts cfg first second shared socket
  | .cork => (c.cork, .quiet)
  | .uncork socket => c.uncork cfg socket
  | .flushOutput socket => c.flushLocked cfg socket
  | .resume socket => c.resume cfg socket
  | .closeAfterSend => (c.closeAfterSendRaw, .quiet)
  | .finishClose => (c.finishClose, .quiet)
  | .closeWithError => (c.closeWithError, .quiet)
  | .closeWrite => (c.closeWrite, .quiet)
  | .markClosed => (if c.closed then c else c.markClosedLocked, .quiet)

def step (op : Op) : Output := (c.act cfg op).1

end Output

def output (cfg : Config) : Machine Output Output.Op where
  init := {}
  step := Output.step cfg

end Fib.Core
