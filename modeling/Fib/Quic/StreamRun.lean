import Fib.Quic.StreamFrames
import Fib.Quic.SendRun

/-! A stream over its life: written to, reset, packed into packets, and told what became of the
frames it packed (http3/quic/stream.go, http3/quic/recovery.go). -/

namespace Fib.Quic
open SendBuffer

/-- Nothing that was sent is kept: the final size is where `next` got to. -/
def SendBuffer.release (b : SendBuffer) : SendBuffer :=
  { b with pieces := [], size := 0, base := b.next, cur := 0, lost := [], acked := [] }

namespace Stream
variable (s : Stream)

def refuses : Bool := !s.hasSend || s.finQueued || s.reset

def endWrite (send : SendBuffer) (fin : Bool) : Stream :=
  if fin then { s with send := send, finQueued := true, finalSize := send.end_ } else { s with send := send }

def writeLocked (p : Bytes) (fin owned : Bool) : Stream :=
  if s.refuses then s else s.endWrite (if owned then s.send.adopt p else s.send.write p) fin

def writePartsLocked (parts : List Part) (fin : Bool) : Stream :=
  if s.refuses then s else s.endWrite (s.send.writeParts parts) fin

def resetLocked (code : ℕ) : Stream :=
  if !s.hasSend || s.reset || s.finAcked then s
  else { s with reset := true, resetPending := true, resetCode := code, finalSize := s.send.next,
                send := s.send.release }

def stopSendingLocked (code : ℕ) : Stream :=
  if !s.hasRecv || s.recvDone || s.stopSent then s
  else { s with stopSent := true, stopPending := true, stopCode := code }

def onDataAcked (off n : ℕ) (fin : Bool) : Stream :=
  if s.reset then s else { s with send := s.send.onAck off n, finAcked := s.finAcked || fin }

def onDataLost (off n : ℕ) (fin : Bool) : Stream :=
  if s.reset || s.done then s
  else { s with send := s.send.onLost off n, finSent := s.finSent && !(fin && !s.finAcked) }

def onResetAcked : Stream := { s with resetAcked := true }

def onResetLost : Stream := if !s.resetAcked && !s.done then { s with resetPending := true } else s

def onMaxDataLost : Stream :=
  if !s.recvDone && !s.done && s.recvFin.isNone then { s with maxDataPending := true } else s

def onBlockedLost (at_ : ℕ) : Stream :=
  if !s.reset && !s.done then { s with blocked := s.blocked.lost at_ s.sendMax } else s

def onStopSendingLost : Stream := if !s.recvDone && !s.done then { s with stopPending := true } else s

def frameAcked (f : SentFrame) : Stream :=
  match f.kind with
  | .stream => s.onDataAcked f.off f.n f.fin
  | .resetStream => s.onResetAcked
  | _ => s

/-- A frame was declared lost, or is sent again because a probe timeout fired. -/
def frameLost (f : SentFrame) : Stream :=
  match f.kind with
  | .stream => s.onDataLost f.off f.n f.fin
  | .maxStreamData => s.onMaxDataLost
  | .resetStream => s.onResetLost
  | .stopSending => s.onStopSendingLost
  | .streamDataBlocked => s.onBlockedLost f.off
  | _ => s

end Stream

inductive StreamOp where
  | write (p : Bytes) (fin owned : Bool)
  | writeParts (parts : List Part) (fin : Bool)
  | reset (code : ℕ)
  | stopSending (code : ℕ)
  /-- What arrives for the receiving side, and what the application takes of it. -/
  | receive (recvDone stopSent maxDataPending : Bool) (recvFin : Option ℕ) (recvMax : ℕ)
  /-- The peer's limits, and what the other streams have sent within them. -/
  | limits (sendMax : ℕ) (c : Credit)
  | appendFrames (b : Bytes) (max : ℕ)
  | acked (f : SentFrame)
  | lost (f : SentFrame)
  | finish
deriving DecidableEq

/-- A stream, the connection's credit, and all the frames it has packed. -/
structure StreamRun where
  s : Stream
  c : Credit
  frames : List SentFrame
deriving DecidableEq

namespace StreamRun

def fill (r : StreamRun) (b : Bytes) : Fill := ⟨r.s, r.c, b, r.frames⟩

def step (r : StreamRun) : StreamOp → StreamRun
  | .write p fin owned => { r with s := r.s.writeLocked p fin owned }
  | .writeParts parts fin => { r with s := r.s.writePartsLocked parts fin }
  | .reset code => { r with s := r.s.resetLocked code }
  | .stopSending code => { r with s := r.s.stopSendingLocked code }
  | .receive recvDone stopSent maxDataPending recvFin recvMax =>
    { r with s := { r.s with recvDone := recvDone, stopSent := stopSent, maxDataPending := maxDataPending,
                             recvFin := recvFin, recvMax := recvMax } }
  | .limits sendMax c => { r with s := { r.s with sendMax := sendMax }, c := c }
  | .appendFrames b max =>
    let x := (r.fill b).appendFrames max
    ⟨x.s, x.c, x.frames⟩
  | .acked f => { r with s := r.s.frameAcked f }
  | .lost f => { r with s := r.s.frameLost f }
  | .finish => { r with s := { r.s with done := true } }

def machine (id : ℕ) (hasSend hasRecv : Bool) : Machine StreamRun StreamOp :=
  ⟨⟨{ id := id, hasSend := hasSend, hasRecv := hasRecv }, {}, []⟩, step⟩

/-- Only what was packed is acknowledged or lost. -/
def Packed (r : StreamRun) : StreamOp → Prop
  | .acked f | .lost f => f ∈ r.frames
  | _ => True

instance (r : StreamRun) : ∀ op : StreamOp, Decidable (r.Packed op)
  | .acked f | .lost f => inferInstanceAs (Decidable (f ∈ r.frames))
  | .write _ _ _ | .writeParts _ _ | .reset _ | .stopSending _ | .receive _ _ _ _ _ | .limits _ _
  | .appendFrames _ _ | .finish => inferInstanceAs (Decidable True)

/-- The stream frames packed are of what was sent. -/
def Below (r : StreamRun) : Prop := ∀ f ∈ r.frames, f.kind = .stream → f.n = 0 ∨ f.off + f.n ≤ r.s.send.next

/-- Until the stream is reset its buffer holds what was written. -/
structure Inv (r : StreamRun) : Prop where
  holds : r.s.reset = true ∨ ∃ W, Holds W r.s.send
  below : r.Below

variable {r : StreamRun}
section
variable (h : Inv r)
include h

theorem Inv.of_send {s : Stream} {c : Credit} (hs : s.send = r.s.send) (hr : s.reset = r.s.reset) :
    Inv { r with s := s, c := c } :=
  ⟨by rw [hr, hs]; exact h.holds, fun f hf hk => by rw [hs]; exact h.below f hf hk⟩

theorem Inv.of_holds {s : Stream} {W : Bytes} (hw : Holds W s.send) (hn : s.send.next = r.s.send.next) :
    Inv { r with s := s } :=
  ⟨.inr ⟨W, hw⟩, fun f hf hk => by rw [hn]; exact h.below f hf hk⟩

theorem Inv.endWrite {send : SendBuffer} {W : Bytes} {fin : Bool} (hw : Holds W send)
    (hn : send.next = r.s.send.next) : Inv { r with s := r.s.endWrite send fin } := by
  unfold Stream.endWrite
  split_ifs
  · exact h.of_holds hw hn
  · exact h.of_holds hw hn

theorem Inv.unreset (hr : r.s.reset ≠ true) : ∃ W, Holds W r.s.send := h.holds.resolve_left hr

theorem Inv.write (p : Bytes) (fin owned : Bool) : Inv { r with s := r.s.writeLocked p fin owned } := by
  unfold Stream.writeLocked Stream.refuses
  split_ifs with hno ho
  · exact h
  · obtain ⟨W, hw⟩ := h.unreset (by simp_all)
    exact h.endWrite (hw.adopt p) (sameSpans_adopt _ p).next
  · obtain ⟨W, hw⟩ := h.unreset (by simp_all)
    exact h.endWrite (hw.write p) (sameSpans_write _ p).next

theorem Inv.writeParts (parts : List Part) (fin : Bool) : Inv { r with s := r.s.writePartsLocked parts fin } := by
  unfold Stream.writePartsLocked Stream.refuses
  split_ifs with hno
  · exact h
  · obtain ⟨W, hw⟩ := h.unreset (by simp_all)
    exact h.endWrite (hw.writeParts parts) (sameSpans_writeParts _ parts).next

theorem Inv.reset (code : ℕ) : Inv { r with s := r.s.resetLocked code } := by
  unfold Stream.resetLocked
  split_ifs
  · exact h
  · exact ⟨.inl rfl, h.below⟩

theorem Inv.acked {f : SentFrame} (hf : f ∈ r.frames) : Inv { r with s := r.s.frameAcked f } := by
  unfold Stream.frameAcked
  split
  · rename_i hk
    unfold Stream.onDataAcked
    split_ifs with hr
    · exact h
    · obtain ⟨W, hw⟩ := h.unreset hr
      have hack := hw.onAck (h.below f hf hk)
      exact h.of_holds hack.holds hack.next
  · exact h.of_send rfl rfl
  · exact h

theorem Inv.lost {f : SentFrame} (hf : f ∈ r.frames) : Inv { r with s := r.s.frameLost f } := by
  unfold Stream.frameLost
  split
  · rename_i hk
    unfold Stream.onDataLost
    split_ifs with hr
    · exact h
    · obtain ⟨W, hw⟩ := h.unreset (by simp_all)
      exact h.of_holds (hw.onLost (h.below f hf hk)).1 (onLost_same _ _ _).2.1
  · unfold Stream.onMaxDataLost
    split_ifs <;> exact h.of_send rfl rfl
  · unfold Stream.onResetLost
    split_ifs <;> exact h.of_send rfl rfl
  · unfold Stream.onStopSendingLost
    split_ifs <;> exact h.of_send rfl rfl
  · unfold Stream.onBlockedLost
    split_ifs <;> exact h.of_send rfl rfl
  · exact h

theorem Inv.appendFrames (b : Bytes) (limit : ℕ) : Inv (r.step (.appendFrames b limit)) := by
  by_cases hr : r.s.reset = true
  · have hb : Fill.Beside (r.fill b) ((r.fill b).addControl limit) := Fill.addControl_beside
    have hout : (r.fill b).appendFrames limit = (r.fill b).addControl limit := by
      unfold Fill.appendFrames
      rw [if_pos (by rw [hb.reset]; simp [fill, hr])]
    unfold step
    dsimp only
    rw [hout]
    refine ⟨.inl (hb.reset.trans hr), ?_⟩
    intro f hf hk
    show f.n = 0 ∨ f.off + f.n ≤ ((r.fill b).addControl limit).s.send.next
    rw [hb.send]
    exact h.below f ((hb.frames f hf).resolve_right (not_not_intro hk)) hk
  · obtain ⟨W, hw⟩ := h.unreset hr
    have hsound : Fill.Sound W ((r.fill b).appendFrames limit) := Fill.Sound.appendFrames ⟨hw, h.below⟩
    exact ⟨.inr ⟨W, hsound.holds⟩, hsound.below⟩

theorem Inv.step (op : StreamOp) (hop : r.Packed op) : Inv (r.step op) := by
  cases op with
  | write p fin owned => exact h.write p fin owned
  | writeParts parts fin => exact h.writeParts parts fin
  | reset code => exact h.reset code
  | stopSending code =>
    refine h.of_send ?_ ?_ <;>
      · unfold Stream.stopSendingLocked
        split_ifs <;> rfl
  | receive recvDone stopSent maxDataPending recvFin recvMax => exact h.of_send rfl rfl
  | limits sendMax c => exact h.of_send rfl rfl
  | appendFrames b limit => exact h.appendFrames b limit
  | acked f => exact h.acked hop
  | lost f => exact h.lost hop
  | finish => exact h.of_send rfl rfl

end

variable {id : ℕ} {hasSend hasRecv : Bool}

theorem inv_init : Inv (machine id hasSend hasRecv).init :=
  ⟨.inr ⟨[], SendRun.inv_init.holds⟩, fun _ hf => absurd hf List.not_mem_nil⟩

theorem inv_run {ops : List StreamOp} (h : (machine id hasSend hasRecv).Meets Packed ops) :
    Inv ((machine id hasSend hasRecv).run ops) :=
  (machine id hasSend hasRecv).invariant inv_init (fun _ op hi hop => Inv.step hi op hop) h

end StreamRun

def Stream.Reachable (s : Stream) : Prop :=
  ∃ (id : ℕ) (hasSend hasRecv : Bool) (ops : List StreamOp),
    (StreamRun.machine id hasSend hasRecv).Meets StreamRun.Packed ops ∧
      ((StreamRun.machine id hasSend hasRecv).run ops).s = s

theorem Stream.Reachable.holds {s : Stream} (h : s.Reachable) : s.reset = true ∨ ∃ W, Holds W s.send := by
  obtain ⟨id, hasSend, hasRecv, ops, hops, rfl⟩ := h
  exact (StreamRun.inv_run hops).holds

end Fib.Quic
