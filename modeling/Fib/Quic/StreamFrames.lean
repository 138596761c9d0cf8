import Fib.Quic.SendBuffer
import Fib.Quic.SentQueue
import Fib.Quic.Varint

/-! The sending side of a stream and the frames it adds to a packet (http3/quic/stream.go,
http3/quic/blocked.go). -/

namespace Fib.Quic
open List

/-- The BLOCKED frame of one limit: the limit reported last, and whether a frame for it waits. -/
structure BlockedReport where
  at_ : ℕ := 0
  reported : Bool := false
  pending : Bool := false
deriving DecidableEq

namespace BlockedReport
variable (r : BlockedReport)

def block (limit : ℕ) : BlockedReport :=
  if r.reported ∧ r.at_ = limit then r else ⟨limit, true, true⟩

def lost (reported limit : ℕ) : BlockedReport :=
  if r.reported ∧ r.at_ = reported ∧ limit = reported then { r with pending := true } else r

/-- A frame for a limit the peer has since raised is dropped. -/
def arm (limit : ℕ) : BlockedReport :=
  if r.pending ∧ r.at_ ≠ limit then { r with pending := false } else r

end BlockedReport

/-- What a stream sends by, and of its receiving side what it has frames to send of. -/
structure Stream where
  id : ℕ
  hasSend : Bool := true
  send : SendBuffer := {}
  sendMax : ℕ := 0
  finalSize : ℕ := 0
  finQueued : Bool := false
  finSent : Bool := false
  finAcked : Bool := false
  reset : Bool := false
  resetPending : Bool := false
  resetCode : ℕ := 0
  resetAcked : Bool := false
  hasRecv : Bool := true
  recvDone : Bool := false
  recvFin : Option ℕ := none
  stopSent : Bool := false
  stopPending : Bool := false
  stopCode : ℕ := 0
  maxDataPending : Bool := false
  recvMax : ℕ := 0
  blocked : BlockedReport := {}
  done : Bool := false
deriving DecidableEq

/-- The connection's flow control of what its streams send. -/
structure Credit where
  sentData : ℕ := 0
  peerMaxData : ℕ := 0
  dataBlocked : BlockedReport := {}
deriving DecidableEq

def frameResetStream : UInt8 := 0x04
def frameStopSending : UInt8 := 0x05
def frameStream : UInt8 := 0x08
def frameMaxStreamData : UInt8 := 0x11
def frameStreamDataBlocked : UInt8 := 0x15

def varintFrame (typ : UInt8) (vs : List ℕ) : Bytes := vs.foldl appendVarint [typ]

theorem length_varintFrame (typ : UInt8) (vs : List ℕ) : (varintFrame typ vs).length = 1 + (vs.map varintLen).sum := by
  have h : ∀ (b : Bytes) (vs : List ℕ), (vs.foldl appendVarint b).length = b.length + (vs.map varintLen).sum := by
    intro b vs
    induction vs generalizing b with
    | nil => simp
    | cons v vs ih => simp [ih, Nat.add_assoc]
  exact h _ _

structure Fill where
  s : Stream
  c : Credit
  b : Bytes
  frames : List SentFrame

namespace Fill
variable (max : ℕ) (x : Fill)

def addPending (pending : Bool) (f : Bytes) (s : Stream) (frame : SentFrame) : Fill :=
  if pending ∧ x.b.length + f.length ≤ max then { x with s := s, b := x.b ++ f, frames := x.frames ++ [frame] }
  else x

def addStopSending : Fill :=
  x.addPending max x.s.stopPending (varintFrame frameStopSending [x.s.id, x.s.stopCode])
    { x.s with stopPending := false } ⟨.stopSending, false, some x.s.id, 0, 0⟩

def addMaxStreamData : Fill :=
  x.addPending max x.s.maxDataPending (varintFrame frameMaxStreamData [x.s.id, x.s.recvMax])
    { x.s with maxDataPending := false } ⟨.maxStreamData, false, some x.s.id, 0, 0⟩

def addResetStream : Fill :=
  x.addPending max x.s.resetPending (varintFrame frameResetStream [x.s.id, x.s.resetCode, x.s.finalSize])
    { x.s with resetPending := false } ⟨.resetStream, false, some x.s.id, 0, 0⟩

def sendCredit : ℕ :=
  if x.s.send.next ≥ x.s.sendMax ∨ x.c.sentData ≥ x.c.peerMaxData then 0
  else min (x.s.sendMax - x.s.send.next) (x.c.peerMaxData - x.c.sentData)

def noteBlocked : Fill :=
  let x :=
    if x.s.send.next ≥ x.s.sendMax then { x with s := { x.s with blocked := x.s.blocked.block x.s.sendMax } } else x
  if x.c.sentData ≥ x.c.peerMaxData then
    { x with c := { x.c with dataBlocked := x.c.dataBlocked.block x.c.peerMaxData } }
  else x

def setSend (send : SendBuffer) : Fill := { x with s := { x.s with send := send } }

def appendStreamFrame (off : ℕ) (data : Bytes) : Fill :=
  let fin := x.s.finQueued && !x.s.finSent && off + data.length == x.s.finalSize
  let typ := frameStream ||| 0x02 ||| (if off > 0 then 0x04 else 0) ||| (if fin then 0x01 else 0)
  let b := appendVarint (x.b ++ [typ]) x.s.id
  let b := if off > 0 then appendVarint b off else b
  let b := appendVarint b data.length ++ data
  { x with
    s := { x.s with finSent := x.s.finSent || fin }
    b := b
    frames := x.frames ++ [⟨.stream, fin, some x.s.id, off, data.length⟩] }

/-- The room for data at `off`: zero when the code's `avail` is zero or less. -/
def avail (off : ℕ) : ℕ := max - x.b.length - 1 - varintLen x.s.id - varintLen off - 2

/-- The loop over what was lost; true when it left for want of room. -/
def sendLost : ℕ → Fill → Fill × Bool
  | 0, x => (x, true)
  | fuel + 1, x =>
    let x := x.setSend x.s.send.trimLost
    match x.s.send.lost with
    | [] => (x, false)
    | l :: _ =>
      -- the room is for the offset the span has on the list, which `popLost` may move up
      let avail := x.avail max l.off
      if avail = 0 then (x, true)
      else
        let ((off, data), send) := x.s.send.popLost avail
        sendLost fuel ((x.setSend send).appendStreamFrame off data)

/-- The loop over what was never sent; true when it left for want of room or credit. -/
def sendNew : ℕ → Fill → Fill × Bool
  | 0, x => (x, true)
  | fuel + 1, x =>
    if x.s.send.next < x.s.send.end_ then
      let credit := x.sendCredit
      let avail := x.avail max x.s.send.next
      if credit = 0 ∨ avail = 0 then (x, true)
      else
        let ((off, data), send) := x.s.send.popNew (min avail credit)
        let x := x.setSend send
        let x := { x with c := { x.c with sentData := x.c.sentData + data.length } }
        sendNew fuel (x.appendStreamFrame off data)
    else (x, false)

def sendFin : Fill :=
  if x.s.finQueued ∧ !x.s.finSent ∧
      x.b.length + 1 + varintLen x.s.id + varintLen x.s.send.next + 1 ≤ max then
    x.appendStreamFrame x.s.send.next []
  else x

/-- What follows what was lost, if there was room for all of it: what is new, and the end. -/
def sendRest : Fill × Bool → Fill
  | (x, true) => x
  | (x, false) =>
    match sendNew max (max + 1) x with
    | (x, true) => x
    | (x, false) => x.sendFin max

def sendData : Fill := sendRest max (sendLost max (max + 1) x)

/-- A report of a limit that was raised since, or that nothing waits for, is dropped. -/
def dropMoot : Fill :=
  if x.s.blocked.pending ∧ (x.s.blocked.at_ ≠ x.s.sendMax ∨ x.s.send.next ≥ x.s.send.end_) then
    { x with s := { x.s with blocked := { x.s.blocked with pending := false } } }
  else x

def addStreamDataBlocked : Fill :=
  x.addPending max x.s.blocked.pending (varintFrame frameStreamDataBlocked [x.s.id, x.s.blocked.at_])
    { x.s with blocked := { x.s.blocked with pending := false } }
    ⟨.streamDataBlocked, false, some x.s.id, x.s.blocked.at_, 0⟩

def noteIfBlocked : Fill := if x.s.send.next < x.s.send.end_ ∧ x.sendCredit = 0 then x.noteBlocked else x

/-- What is left to do however the data left the packet: say what holds the stream back. -/
def addBlocked : Fill := x.noteIfBlocked.dropMoot.addStreamDataBlocked max

/-- The frames that are not of what was written. -/
def addControl : Fill := ((x.addStopSending max).addMaxStreamData max).addResetStream max

def appendFrames : Fill :=
  let x := x.addControl max
  if x.s.reset || !x.s.hasSend then x else (x.sendData max).addBlocked max

end Fill

/-! ### The room a stream's frames take -/

open Intervals SendBuffer

def streamFrameLen (id off n : ℕ) : ℕ :=
  1 + varintLen id + (if off > 0 then varintLen off else 0) + varintLen n + n

/-- The frame that the first lost range is sent again in, cut where it is acknowledged and to the room
left for its offset as it is on the list, fits behind `len` bytes of payload. -/
def Stream.retransmitFits (s : Stream) (len limit : ℕ) : Bool :=
  match s.send.trimLost.lost with
  | [] => true
  | l :: _ =>
    let room := limit - len - 1 - varintLen s.id - varintLen l.off - 2
    let off := max l.off s.send.base
    let n := min (min room (runAt s.send.pieces off).length) (l.end_ - off)
    room = 0 || len + streamFrameLen s.id off n ≤ limit

/-- The length of the payload behind the frames that are not of what was written. -/
def Stream.controlLen (s : Stream) (len limit : ℕ) : ℕ :=
  let add (pending : Bool) (n len : ℕ) := if pending ∧ len + n ≤ limit then len + n else len
  add s.resetPending (1 + varintLen s.id + varintLen s.resetCode + varintLen s.finalSize)
    (add s.maxDataPending (1 + varintLen s.id + varintLen s.recvMax)
      (add s.stopPending (1 + varintLen s.id + varintLen s.stopCode) len))

/-- The stream has no data to send again that does not fit behind `len` bytes of payload. -/
def Stream.Fits (s : Stream) (len limit : ℕ) : Bool :=
  s.reset || !s.hasSend || s.retransmitFits (s.controlLen len limit) limit

namespace Fill
variable {limit : ℕ} {x : Fill} {W : Bytes}

@[simp] theorem setSend_b (send : SendBuffer) : (x.setSend send).b = x.b := rfl
@[simp] theorem setSend_send (send : SendBuffer) : (x.setSend send).s.send = send := rfl
section
variable (off : ℕ) (data : Bytes)
include off data

@[simp] theorem appendStreamFrame_send : (x.appendStreamFrame off data).s.send = x.s.send := rfl

@[simp] theorem length_appendStreamFrame :
    (x.appendStreamFrame off data).b.length = x.b.length + streamFrameLen x.s.id off data.length := by
  unfold appendStreamFrame streamFrameLen
  dsimp only
  split_ifs <;> simp <;> omega

theorem appendStreamFrame_grows : x.b.length + 2 ≤ (x.appendStreamFrame off data).b.length := by
  have := varintLen_pos x.s.id
  rw [length_appendStreamFrame, streamFrameLen]
  omega

end

theorem frame_fits {off n : ℕ} (hl : limit < 2 ^ 14) (hn : n ≤ x.avail limit off) (ha : x.avail limit off ≠ 0) :
    x.b.length + streamFrameLen x.s.id off n ≤ limit := by
  unfold avail at hn ha
  have hlen : varintLen n ≤ 2 := varintLen_le_two (by omega)
  unfold streamFrameLen
  split_ifs <;> omega

/-- The fuel never ends the loop: each turn takes room, and there is fuel for all the room there is. -/
theorem sendLost_fuel (fuel : ℕ) (h : limit < x.b.length + fuel) :
    sendLost limit (fuel + 2) x = sendLost limit (fuel + 1) x := by
  induction fuel generalizing x with
  | zero =>
    rw [sendLost, sendLost]
    cases hl : x.s.send.trimLost.lost with
    | nil => simp only [setSend_send, hl]
    | cons l rest =>
      have havail : (x.setSend x.s.send.trimLost).avail limit l.off = 0 := by
        unfold avail
        rw [setSend_b]
        omega
      simp only [setSend_send, hl, havail, if_true]
  | succ fuel ih =>
    rw [sendLost, sendLost]
    cases hl : x.s.send.trimLost.lost with
    | nil => simp only [setSend_send, hl]
    | cons l rest =>
      simp only [setSend_send, hl]
      split_ifs
      · rfl
      · refine ih (lt_of_lt_of_le ?_ (Nat.add_le_add_right (appendStreamFrame_grows _ _) fuel))
        show limit < x.b.length + 2 + fuel
        omega

theorem sendNew_fuel (fuel : ℕ) (h : limit < x.b.length + fuel) :
    sendNew limit (fuel + 2) x = sendNew limit (fuel + 1) x := by
  induction fuel generalizing x with
  | zero =>
    have havail : x.avail limit x.s.send.next = 0 := by
      unfold avail
      omega
    rw [sendNew, sendNew]
    simp only [havail, or_true, if_true]
  | succ fuel ih =>
    rw [sendNew, sendNew]
    dsimp only
    split_ifs
    · rfl
    · refine ih (lt_of_lt_of_le ?_ (Nat.add_le_add_right (appendStreamFrame_grows _ _) fuel))
      show limit < x.b.length + 2 + fuel
      omega
    · rfl

variable {pending : Bool} {f : Bytes} {s : Stream} {frame : SentFrame}

theorem addPending_le (h : x.b.length ≤ limit) : (x.addPending limit pending f s frame).b.length ≤ limit := by
  unfold addPending
  split_ifs with hp
  · rw [length_append]
    exact hp.2
  · exact h

theorem addPending_full (h : limit < x.b.length) : x.addPending limit pending f s frame = x := by
  unfold addPending
  exact if_neg (by omega)

theorem addControl_le (h : x.b.length ≤ limit) : (x.addControl limit).b.length ≤ limit :=
  addPending_le (addPending_le (addPending_le h))

theorem dropMoot_noteIfBlocked_b : x.noteIfBlocked.dropMoot.b = x.b := by
  have hnote : x.noteIfBlocked.b = x.b := by
    unfold noteIfBlocked noteBlocked
    dsimp only
    split_ifs <;> rfl
  rw [← hnote, dropMoot]
  split_ifs <;> rfl

theorem addBlocked_le_iff : (x.addBlocked limit).b.length ≤ limit ↔ x.b.length ≤ limit := by
  have hadd : ∀ y : Fill, (y.addStreamDataBlocked limit).b.length ≤ limit ↔ y.b.length ≤ limit := by
    intro y
    unfold addStreamDataBlocked
    constructor
    · intro h
      by_contra hlt
      rw [addPending_full (not_le.1 hlt)] at h
      exact hlt h
    · intro h
      exact addPending_le h
  rw [addBlocked, hadd, dropMoot_noteIfBlocked_b]

theorem sendNew_le (hl : limit < 2 ^ 14) (fuel : ℕ) (h : x.b.length ≤ limit) :
    (sendNew limit fuel x).1.b.length ≤ limit := by
  induction fuel generalizing x with
  | zero => exact h
  | succ fuel ih =>
    unfold sendNew
    dsimp only
    split_ifs with hlt hroom
    · exact h
    · rw [not_or] at hroom
      obtain ⟨hoff, hshort⟩ := popNew_short x.s.send (min (x.avail limit x.s.send.next) x.sendCredit)
      have hfits := frame_fits hl (hshort.trans (min_le_left _ _)) hroom.2
      apply ih
      rw [length_appendStreamFrame, hoff]
      exact hfits
    · exact h

theorem sendFin_le (h : x.b.length ≤ limit) : (x.sendFin limit).b.length ≤ limit := by
  unfold sendFin
  split_ifs with hf
  · rw [length_appendStreamFrame]
    unfold streamFrameLen
    have : varintLen ([] : Bytes).length = 1 := rfl
    split_ifs <;> simp only [length_nil] at this ⊢ <;> omega
  · exact h

/-- No lost range starts below what is acknowledged. -/
def Settled (send : SendBuffer) : Prop := ∀ l ∈ send.lost, send.base ≤ l.off

theorem sendLost_turn (fuel : ℕ) (hw : Holds W x.s.send) {l : Span} {rest : List Span}
    (hlost : x.s.send.trimLost.lost = l :: rest) (ha : x.avail limit l.off ≠ 0) :
    ∃ y : Fill, sendLost limit (fuel + 1) x = sendLost limit fuel y ∧ Holds W y.s.send ∧ Settled y.s.send ∧
      y.s.id = x.s.id ∧ y.b.length = x.b.length + streamFrameLen x.s.id (max l.off x.s.send.base)
        (min (min (x.avail limit l.off) (runAt x.s.send.pieces (max l.off x.s.send.base)).length)
          (l.end_ - max l.off x.s.send.base)) := by
  have hbase : x.s.send.base < l.end_ := base_lt_of_trimLost hlost
  have hbase' : x.s.send.trimLost.base < l.end_ := hbase
  obtain ⟨data, -, hlen, hpop⟩ := hw.trimLost.popLost_head hlost hbase' ha
  have hholds := hw.trimLost.popLost_holds (x.avail limit l.off)
  have hasc := hw.trimLost.lost_asc
  rw [hlost] at hasc
  obtain ⟨-, hgap, -⟩ := (ascending_cons 1 l rest).1 hasc
  simp only [start_span, stop_span] at hgap
  have havail : (x.setSend x.s.send.trimLost).avail limit l.off = x.avail limit l.off := rfl
  have hturn : sendLost limit (fuel + 1) x = sendLost limit fuel
      (((x.setSend x.s.send.trimLost).setSend (x.s.send.trimLost.popLost (x.avail limit l.off)).2).appendStreamFrame
        (x.s.send.trimLost.popLost (x.avail limit l.off)).1.1
        (x.s.send.trimLost.popLost (x.avail limit l.off)).1.2) := by
    rw [sendLost]
    simp only [setSend_send, hlost, havail, if_neg ha]
  refine ⟨_, hturn, hholds, ?_, rfl, ?_⟩
  · rw [appendStreamFrame_send, setSend_send, hpop]
    intro q hq
    dsimp only at hq ⊢
    split_ifs at hq
    · have := hgap q hq
      omega
    rcases mem_cons.1 hq with rfl | hq
    · dsimp only
      omega
    · have := hgap q hq
      omega
  · rw [length_appendStreamFrame, hpop]
    dsimp only
    rw [hlen]
    rfl

theorem sendLost_settled_le (hl : limit < 2 ^ 14) (fuel : ℕ) (hw : Holds W x.s.send) (hs : Settled x.s.send)
    (h : x.b.length ≤ limit) : (sendLost limit fuel x).1.b.length ≤ limit := by
  induction fuel generalizing x with
  | zero => exact h
  | succ fuel ih =>
    cases hlost : x.s.send.trimLost.lost with
    | nil =>
      rw [sendLost]
      simp only [setSend_send, hlost]
      exact h
    | cons l rest =>
      by_cases ha : x.avail limit l.off = 0
      · have havail : (x.setSend x.s.send.trimLost).avail limit l.off = 0 := ha
        rw [sendLost]
        simp only [setSend_send, hlost, havail, if_true]
        exact h
      obtain ⟨y, hturn, hwy, hsy, -, hlen⟩ := sendLost_turn fuel hw hlost ha
      rw [hturn]
      refine ih hwy hsy ?_
      have hoff : x.s.send.base ≤ l.off := hs l ((dropWhile_sublist _).subset (by
        show l ∈ x.s.send.trimLost.lost
        simp [hlost]))
      rw [hlen, max_eq_left hoff]
      exact frame_fits hl (le_trans (min_le_left _ _) (min_le_left _ _)) ha

theorem sendLost_full (fuel : ℕ) (h : limit < x.b.length) : (sendLost limit fuel x).1.b = x.b := by
  cases fuel with
  | zero => rfl
  | succ fuel =>
    rw [sendLost]
    cases hl : x.s.send.trimLost.lost with
    | nil => simp only [setSend_send, hl, setSend_b]
    | cons l rest =>
      have havail : (x.setSend x.s.send.trimLost).avail limit l.off = 0 := by
        unfold avail
        rw [setSend_b]
        omega
      simp only [setSend_send, hl, havail, if_true, setSend_b]

theorem sendRest_le (hl : limit < 2 ^ 14) {full : Bool} (h : x.b.length ≤ limit) :
    (sendRest limit (x, full)).b.length ≤ limit := by
  cases full with
  | true => exact h
  | false =>
    have hnew := sendNew_le hl (limit + 1) h
    unfold sendRest
    dsimp only
    split
    · rename_i y hy
      rwa [hy] at hnew
    · rename_i y hy
      rw [hy] at hnew
      exact sendFin_le hnew

theorem sendRest_full {full : Bool} (h : limit < x.b.length) : (sendRest limit (x, full)).b = x.b := by
  cases full with
  | true => rfl
  | false =>
    have hfin : x.sendFin limit = x := by
      unfold sendFin
      exact if_neg (by omega)
    have havail : x.avail limit x.s.send.next = 0 := by
      unfold avail
      omega
    unfold sendRest
    dsimp only
    rw [sendNew]
    dsimp only
    by_cases hlt : x.s.send.next < x.s.send.end_
    · rw [if_pos hlt, if_pos (.inr havail)]
    · rw [if_neg hlt]
      dsimp only
      rw [hfin]

/-- The data leaves the packet within its limit exactly if the first frame that sends lost data again does. -/
theorem sendData_le_iff (hl : limit < 2 ^ 14) (hw : Holds W x.s.send) (h : x.b.length ≤ limit) :
    (x.sendData limit).b.length ≤ limit ↔ x.s.retransmitFits x.b.length limit = true := by
  unfold sendData
  cases hlost : x.s.send.trimLost.lost with
  | nil =>
    have hfits : x.s.retransmitFits x.b.length limit = true := by
      unfold Stream.retransmitFits
      rw [hlost]
    rw [sendLost]
    simp only [setSend_send, hlost, hfits, iff_true]
    exact sendRest_le hl h
  | cons l rest =>
    by_cases ha : x.avail limit l.off = 0
    · have hfits : x.s.retransmitFits x.b.length limit = true := by
        unfold Stream.retransmitFits
        rw [hlost]
        simp only [Bool.or_eq_true, decide_eq_true_eq]
        exact .inl ha
      have havail : (x.setSend x.s.send.trimLost).avail limit l.off = 0 := ha
      rw [sendLost]
      simp only [setSend_send, hlost, havail, if_true, hfits, iff_true]
      exact h
    · obtain ⟨y, hturn, hwy, hsy, hid, hlen⟩ := sendLost_turn limit hw hlost ha
      have hfits : x.s.retransmitFits x.b.length limit = true ↔ y.b.length ≤ limit := by
        unfold Stream.retransmitFits
        rw [hlost, hlen]
        simp only [Bool.or_eq_true, decide_eq_true_eq]
        exact or_iff_right ha
      rw [hturn, hfits]
      constructor
      · intro hle
        by_contra hfull
        have hb := sendLost_full limit (not_le.1 hfull)
        have hrest : (sendRest limit ((sendLost limit limit y).1, (sendLost limit limit y).2)).b = _ :=
          sendRest_full (by rw [hb]; exact not_le.1 hfull)
        rw [Prod.mk.eta, hb] at hrest
        rw [hrest] at hle
        exact hfull hle
      · intro hle
        exact sendRest_le hl (sendLost_settled_le hl limit hwy hsy hle)

/-- From `x` to `y` nothing of the stream's data is sent. -/
structure Beside (x y : Fill) : Prop where
  id : y.s.id = x.s.id
  send : y.s.send = x.s.send
  reset : y.s.reset = x.s.reset
  hasSend : y.s.hasSend = x.s.hasSend
  frames : ∀ f ∈ y.frames, f ∈ x.frames ∨ f.kind ≠ .stream

theorem Beside.trans {x y z : Fill} (h : Beside x y) (h' : Beside y z) : Beside x z :=
  ⟨h'.id.trans h.id, h'.send.trans h.send, h'.reset.trans h.reset, h'.hasSend.trans h.hasSend,
    fun f hf => (h'.frames f hf).elim (h.frames f) .inr⟩

theorem addPending_beside (h : Beside x { x with s := s }) (hk : frame.kind ≠ .stream) :
    Beside x (x.addPending limit pending f s frame) := by
  unfold addPending
  split_ifs
  · refine { h with frames := ?_ }
    intro g hg
    rcases mem_append.1 hg with hg | hg
    · exact .inl hg
    · rw [mem_singleton.1 hg]
      exact .inr hk
  · exact ⟨rfl, rfl, rfl, rfl, fun g hg => .inl hg⟩

theorem addControl_beside : Beside x (x.addControl limit) := by
  have hstop : ∀ y : Fill, Beside y (y.addStopSending limit) := fun y =>
    addPending_beside ⟨rfl, rfl, rfl, rfl, fun f hf => .inl hf⟩ nofun
  have hmax : ∀ y : Fill, Beside y (y.addMaxStreamData limit) := fun y =>
    addPending_beside ⟨rfl, rfl, rfl, rfl, fun f hf => .inl hf⟩ nofun
  have hreset : ∀ y : Fill, Beside y (y.addResetStream limit) := fun y =>
    addPending_beside ⟨rfl, rfl, rfl, rfl, fun f hf => .inl hf⟩ nofun
  exact ((hstop x).trans (hmax _)).trans (hreset _)

theorem addBlocked_beside : Beside x (x.addBlocked limit) := by
  have hnote : Beside x x.noteIfBlocked := by
    unfold noteIfBlocked noteBlocked
    dsimp only
    split_ifs <;> exact ⟨rfl, rfl, rfl, rfl, fun f hf => .inl hf⟩
  have hmoot : ∀ y : Fill, Beside y y.dropMoot := by
    intro y
    unfold dropMoot
    split_ifs <;> exact ⟨rfl, rfl, rfl, rfl, fun f hf => .inl hf⟩
  have hadd : ∀ y : Fill, Beside y (y.addStreamDataBlocked limit) := fun y =>
    addPending_beside ⟨rfl, rfl, rfl, rfl, fun f hf => .inl hf⟩ nofun
  exact (hnote.trans (hmoot _)).trans (hadd _)

theorem length_addPending : (x.addPending limit pending f s frame).b.length =
      if pending ∧ x.b.length + f.length ≤ limit then x.b.length + f.length else x.b.length := by
  unfold addPending
  split_ifs
  · rw [length_append]
  · rfl

theorem addPending_field {α : Type*} (π : Stream → α)
    (h : π s = π x.s) : π (x.addPending limit pending f s frame).s = π x.s := by
  unfold addPending
  split_ifs
  · exact h
  · rfl

theorem length_addControl : (x.addControl limit).b.length = x.s.controlLen x.b.length limit := by
  have hstop {α : Type} (y : Fill) (π : Stream → α) (h : π { y.s with stopPending := false } = π y.s) :
      π (y.addStopSending limit).s = π y.s := addPending_field π h
  have hmax {α : Type} (y : Fill) (π : Stream → α) (h : π { y.s with maxDataPending := false } = π y.s) :
      π (y.addMaxStreamData limit).s = π y.s := addPending_field π h
  unfold Stream.controlLen addControl
  simp only [addResetStream, length_addPending, length_varintFrame, hmax _ Stream.resetPending rfl,
    hmax _ Stream.resetCode rfl, hmax _ Stream.finalSize rfl, hmax _ Stream.id rfl, hstop _ Stream.resetPending rfl,
    hstop _ Stream.resetCode rfl, hstop _ Stream.finalSize rfl, hstop _ Stream.id rfl]
  simp only [addMaxStreamData, length_addPending, length_varintFrame, hstop _ Stream.maxDataPending rfl,
    hstop _ Stream.recvMax rfl, hstop _ Stream.id rfl]
  simp only [addStopSending, length_addPending, length_varintFrame, map_cons, map_nil, sum_cons,
    sum_nil, Nat.add_zero, Nat.add_assoc]

theorem appendFrames_le_iff (hl : limit < 2 ^ 14) (hw : x.s.reset = true ∨ ∃ W, Holds W x.s.send)
    (h : x.b.length ≤ limit) : (x.appendFrames limit).b.length ≤ limit ↔ x.s.Fits x.b.length limit = true := by
  have hb : Beside x (x.addControl limit) := addControl_beside
  have hle := addControl_le h
  unfold appendFrames Stream.Fits
  dsimp only
  rw [hb.reset, hb.hasSend]
  split_ifs with hout
  · simp only [hout, Bool.true_or, iff_true]
    exact hle
  obtain ⟨W, hw⟩ := hw.resolve_left (by simp_all)
  have hfits : (x.addControl limit).s.retransmitFits (x.addControl limit).b.length limit =
      x.s.retransmitFits (x.s.controlLen x.b.length limit) limit := by
    unfold Stream.retransmitFits
    rw [hb.send, hb.id, length_addControl]
  rw [addBlocked_le_iff, sendData_le_iff hl (W := W) (by rwa [hb.send]) hle, hfits]
  simp only [Bool.not_eq_true] at hout
  simp only [hout, Bool.false_or]

/-- The buffer holds what is left of `W`, and the stream frames recorded are of what has been sent of it. -/
structure Sound (W : Bytes) (x : Fill) : Prop where
  holds : Holds W x.s.send
  below : ∀ f ∈ x.frames, f.kind = .stream → f.n = 0 ∨ f.off + f.n ≤ x.s.send.next

theorem Sound.beside {y : Fill} (h : Sound W x) (hb : Beside x y) : Sound W y := by
  refine ⟨hb.send ▸ h.holds, ?_⟩
  intro f hf hk
  rw [hb.send]
  exact h.below f ((hb.frames f hf).resolve_right (not_not_intro hk)) hk

theorem Sound.setSend {send : SendBuffer} (h : Sound W x) (hw : Holds W send) (hn : x.s.send.next ≤ send.next) :
    Sound W (x.setSend send) :=
  ⟨hw, fun f hf hk => (h.below f hf hk).imp id fun hle => hle.trans hn⟩

theorem Sound.appendStreamFrame {off : ℕ} {data : Bytes} (h : Sound W x)
    (hn : data = [] ∨ off + data.length ≤ x.s.send.next) : Sound W (x.appendStreamFrame off data) := by
  refine ⟨h.holds, ?_⟩
  intro f hf hk
  rcases mem_append.1 hf with hf | hf
  · exact h.below f hf hk
  · rw [mem_singleton.1 hf]
    exact hn.imp (fun he => by simp [he]) id

theorem Sound.sendLost (fuel : ℕ) (h : Sound W x) : Sound W (sendLost limit fuel x).1 := by
  induction fuel generalizing x with
  | zero => exact h
  | succ fuel ih =>
    have htrim : Sound W (x.setSend x.s.send.trimLost) := h.setSend h.holds.trimLost le_rfl
    rw [Fill.sendLost]
    cases hlost : x.s.send.trimLost.lost with
    | nil =>
      simp only [setSend_send, hlost]
      exact htrim
    | cons l rest =>
      simp only [setSend_send, hlost]
      split_ifs
      · exact htrim
      obtain ⟨off, data, lost, hpop, htaken⟩ :=
        h.holds.trimLost.popLost ((x.setSend x.s.send.trimLost).avail limit l.off)
      have hholds := h.holds.trimLost.popLost_holds ((x.setSend x.s.send.trimLost).avail limit l.off)
      rw [hpop] at hholds ⊢
      exact ih ((htrim.setSend hholds le_rfl).appendStreamFrame htaken.within)

theorem Sound.sendNew (fuel : ℕ) (h : Sound W x) : Sound W (sendNew limit fuel x).1 := by
  induction fuel generalizing x with
  | zero => exact h
  | succ fuel ih =>
    rw [Fill.sendNew]
    dsimp only
    split_ifs
    · exact h
    · obtain ⟨data, cur, hpop, hleft, -, hholds⟩ :=
        h.holds.popNew (min (x.avail limit x.s.send.next) x.sendCredit)
      have hset := h.setSend hholds (by rw [hleft]; exact Nat.le_add_right _ _)
      have hwithin : x.s.send.next + data.length ≤
          (x.s.send.popNew (min (x.avail limit x.s.send.next) x.sendCredit)).2.next := by rw [hleft]
      obtain ⟨hoff, hdata⟩ := Prod.ext_iff.1 hpop
      refine ih (Sound.appendStreamFrame ⟨hset.holds, hset.below⟩ (.inr ?_))
      exact le_of_eq_of_le (congrArg₂ (· + ·) hoff (congrArg List.length hdata)) hwithin
    · exact h

theorem Sound.sendFin (h : Sound W x) : Sound W (x.sendFin limit) := by
  unfold Fill.sendFin
  split_ifs
  · exact h.appendStreamFrame (.inl rfl)
  · exact h

theorem Sound.sendData (h : Sound W x) : Sound W (x.sendData limit) := by
  have hlost : Sound W (Fill.sendLost limit (limit + 1) x).1 := h.sendLost _
  unfold Fill.sendData sendRest
  split
  · rename_i y hy
    rwa [hy] at hlost
  rename_i y hy
  rw [hy] at hlost
  have hnew : Sound W (Fill.sendNew limit (limit + 1) y).1 := hlost.sendNew _
  split
  · rename_i z hz
    rwa [hz] at hnew
  · rename_i z hz
    rw [hz] at hnew
    exact hnew.sendFin

theorem Sound.appendFrames (h : Sound W x) : Sound W (x.appendFrames limit) := by
  unfold Fill.appendFrames
  dsimp only
  split_ifs
  · exact h.beside addControl_beside
  · exact (h.beside addControl_beside).sendData.beside addBlocked_beside

end Fill
end Fib.Quic
