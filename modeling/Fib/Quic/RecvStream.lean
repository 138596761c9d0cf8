import Fib.Quic.RecvBuffer

/-! The receiving side of a stream (http3/quic/stream.go): STREAM and RESET_STREAM frames,
StopSending, and the flow control credit they use and give back. Offsets are naturals: the
frames' end below 2^62, and no difference taken below goes under zero. -/

namespace Fib.Quic
open RecvBuffer Nat

def maxVarint : ℕ := 2 ^ 62 - 1

inductive ErrCode where
  | errFrameEncoding
  | errFinalSize
  | errFlowControl
  | errProtocolViolation
  /-- `ApplicationError` with the configured `ExcessiveLoadCode`. -/
  | excessiveLoad (code : ℕ)
deriving DecidableEq

structure ConnErr where
  code : ErrCode
  reason : String
deriving DecidableEq

def transportErr (code : ErrCode) (reason : String) : ConnErr := ⟨code, reason⟩

structure RecvConfig where
  streamReceiveWindow : ℕ
  connReceiveWindow : ℕ
  excessiveLoadCode : ℕ
  isClient : Bool
deriving DecidableEq

def RecvConfig.floodErr (cfg : RecvConfig) (reason : String) : ConnErr :=
  if cfg.excessiveLoadCode ≠ 0 then ⟨.excessiveLoad cfg.excessiveLoadCode, reason⟩
  else transportErr .errProtocolViolation reason

/-- What a connection counts of the data it receives. -/
structure RecvConn where
  recvData : ℕ
  recvMaxData : ℕ
  recvConsumed : ℕ
  maxDataPending : Bool
deriving DecidableEq

structure RecvStream where
  recv : RecvBuffer := {}
  recvFin : Option ℕ := none
  recvHigh : ℕ := 0
  recvMax : ℕ
  recvRead : ℕ := 0
  recvDone : Bool := false
  peerReset : Bool := false
  stopSent : Bool := false
  maxDataPending : Bool := false
  holdCredit : Bool := false
  creditAt : ℕ := 0
  floodCounted : Bool := false
deriving DecidableEq

inductive RecvEvent where
  | streamData (data : Bytes) (fin : Bool)
  | streamReset (code : ℕ)
deriving DecidableEq

/-- A stream with its connection's counters and the events queued for the application. -/
structure Rx where
  c : RecvConn
  s : RecvStream
  events : List RecvEvent := []
deriving DecidableEq

namespace Rx

def setRecv (x : Rx) (recv : RecvBuffer) : Rx := { x with s := { x.s with recv := recv } }

def finish (x : Rx) : Rx := { x with s := { x.s with recvDone := true } }

section
variable (cfg : RecvConfig) (x : Rx)

/-- The bytes of the stream up to `offset` count as read. -/
def read (offset : ℕ) : Rx :=
  if x.s.recvRead < offset then
    { x with c := { x.c with recvConsumed := x.c.recvConsumed + (offset - x.s.recvRead) }
             s := { x.s with recvRead := offset } }
  else x

def growStream (offset : ℕ) : Rx :=
  if x.s.recvFin = none ∧ x.s.recvDone = false ∧ x.s.recvMax - offset < cfg.streamReceiveWindow / 2 then
    { x with s := { x.s with recvMax := offset + cfg.streamReceiveWindow, maxDataPending := true } }
  else x

def growConn : Rx :=
  if x.c.recvMaxData - x.c.recvConsumed < cfg.connReceiveWindow / 2 then
    { x with c := { x.c with recvMaxData := x.c.recvConsumed + cfg.connReceiveWindow, maxDataPending := true } }
  else x

def consumed (offset : ℕ) : Rx := ((x.read offset).growStream cfg offset).growConn cfg

def deliver (data : Bytes) (fin : Bool) : Rx :=
  let x := x.consumed cfg (if x.s.holdCredit then x.s.creditAt else x.s.recv.offset)
  { x with events := x.events ++ [.streamData data fin] }

def deliverLast : Option Bytes → Rx
  | none => x
  | some data => x.deliver cfg data false

/-- The loop of `onStreamFrame`, which holds the last chunk back a step. Each turn takes a
segment, so as many turns as there are segments are enough. -/
def deliverLoop : ℕ → Rx → Option Bytes → Rx × Option Bytes
  | 0, x, last => (x, last)
  | n + 1, x, last =>
    match x.s.recv.pop with
    | (none, _) => (x, last)
    | (some chunk, recv) => deliverLoop n ((x.setRecv recv).deliverLast cfg last) (some chunk)

/-- The end of `onStreamFrame`: what the frame completes goes to the application. -/
def handOn (last : Option Bytes) : Rx :=
  let r := deliverLoop cfg x.s.recv.segments.length x last
  if r.1.s.recvFin = some r.1.s.recv.offset ∧ r.1.s.recvDone = false then
    r.1.finish.deliver cfg (r.2.getD []) true
  else r.1.deliverLast cfg r.2

/-- The checks of `onStreamFrame`, and what the frame's end adds to the counts. -/
def allow (off : ℕ) (data : Bytes) (fin : Bool) : Except ConnErr Rx :=
  let end_ := off + data.length
  if maxVarint < end_ then .error (transportErr .errFrameEncoding "stream offset too large")
  else if x.s.recvFin.any fun n => n < end_ ∨ fin ∧ end_ ≠ n then
    .error (transportErr .errFinalSize "data beyond the final size")
  else if fin ∧ end_ < x.s.recvHigh then
    .error (transportErr .errFinalSize "final size below data received")
  else
    let x := if fin then { x with s := { x.s with recvFin := some end_ } } else x
    if x.s.recvMax < end_ then .error (transportErr .errFlowControl "stream flow control exceeded")
    else if x.s.recvHigh < end_ then
      let x := { x with c := { x.c with recvData := x.c.recvData + (end_ - x.s.recvHigh) }
                        s := { x.s with recvHigh := end_ } }
      if x.c.recvMaxData < x.c.recvData then
        .error (transportErr .errFlowControl "connection flow control exceeded")
      else .ok x
    else .ok x

def accept (off : ℕ) (data : Bytes) : Except ConnErr Rx :=
  if x.s.recvDone ∨ x.s.peerReset ∨ x.s.stopSent then
    -- nobody reads it, so it counts as read at once
    let x := x.consumed cfg (off + data.length)
    .ok (if x.s.stopSent ∧ x.s.recvFin.isSome ∧ x.s.recvDone = false then x.finish else x)
  else
    match x.s.recv.take off data (recvSegmentLimit cfg.streamReceiveWindow) with
    | (_, false, _) => .error (cfg.floodErr "stream data in too many pieces")
    | (last, true, recv) => .ok ((x.setRecv recv).handOn cfg last)

def onStreamFrame (off : ℕ) (data : Bytes) (fin : Bool) : Except ConnErr Rx :=
  (x.allow off data fin).bind fun x => x.accept cfg off data

/-- `resetCounted`, where `allowed` is what the connection's `resets.take` answers. -/
def resetCounted (allowed : Bool) : Except ConnErr Rx :=
  if cfg.isClient ∨ x.s.floodCounted then .ok x
  else if allowed then .ok { x with s := { x.s with floodCounted := true } }
  else .error (cfg.floodErr "too many streams reset")

/-- The checks of `onResetStream`, and what the final size adds to the counts. -/
def admitReset (finalSize : ℕ) : Except ConnErr Rx :=
  if (x.s.recvFin.any fun n => finalSize ≠ n) ∨ finalSize < x.s.recvHigh then
    .error (transportErr .errFinalSize "reset with a different final size")
  else if x.s.recvMax < finalSize then .error (transportErr .errFlowControl "stream flow control exceeded")
  else if x.s.recvHigh < finalSize then
    let x := { x with c := { x.c with recvData := x.c.recvData + (finalSize - x.s.recvHigh) }
                      s := { x.s with recvHigh := finalSize } }
    if x.c.recvMaxData < x.c.recvData then
      .error (transportErr .errFlowControl "connection flow control exceeded")
    else .ok x
  else .ok x

def onResetStream (code finalSize : ℕ) (allowed : Bool) : Except ConnErr Rx :=
  (x.admitReset finalSize).bind fun x =>
    let x := { x with s := { x.s with recvFin := some finalSize } }.consumed cfg finalSize
    if x.s.recvDone ∨ x.s.peerReset then .ok x
    else
      -- a reset that answers this side's STOP_SENDING is what it asked for
      (if x.s.stopSent then .ok x else x.resetCounted cfg allowed).bind fun x =>
        .ok { x with s := { x.s with peerReset := true, maxDataPending := false
                                     recv := { offset := x.s.recv.offset } }
                     events := if x.s.stopSent then x.events else x.events ++ [.streamReset code] }

end

def stopSending (x : Rx) : Rx :=
  if x.s.recvDone ∨ x.s.stopSent then x
  else { x with s := { x.s with stopSent := true, recv := { offset := x.s.recv.offset } } }

/-! ### Which frames are admitted -/

/-- What `onStreamFrame` asks of a frame that ends at `end_` before it looks at its data. -/
structure Admissible (x : Rx) (end_ : ℕ) (fin : Bool) : Prop where
  varint : end_ ≤ maxVarint
  final : ∀ n, x.s.recvFin = some n → end_ ≤ n ∧ (fin = true → end_ = n)
  high : fin = true → x.s.recvHigh ≤ end_
  stream : end_ ≤ x.s.recvMax
  conn : x.s.recvHigh < end_ → x.c.recvData + (end_ - x.s.recvHigh) ≤ x.c.recvMaxData

def counted (x : Rx) (end_ : ℕ) (fin : Bool) : Rx :=
  { x with c := { x.c with recvData := x.c.recvData + (end_ - x.s.recvHigh) }
           s := { x.s with recvFin := if fin then some end_ else x.s.recvFin
                           recvHigh := max x.s.recvHigh end_ } }

theorem beyond_final_iff (recvFin : Option ℕ) (e : ℕ) (fin : Bool) :
    (recvFin.any fun n => n < e ∨ fin ∧ e ≠ n) = true ↔ ¬ ∀ n, recvFin = some n → e ≤ n ∧ (fin = true → e = n) := by
  cases recvFin with
  | none => simp
  | some n =>
    simp only [Option.any_some, decide_eq_true_eq, Option.some.injEq, forall_eq']
    constructor
    · rintro (h | ⟨hf, hne⟩) ⟨h1, h2⟩
      · omega
      · exact hne (h2 hf)
    intro h
    by_cases hlt : n < e
    · exact Or.inl hlt
    · refine Or.inr (Classical.byContradiction fun hc => h ⟨by omega, fun hf => ?_⟩)
      exact Classical.byContradiction fun hne => hc ⟨hf, hne⟩

variable {x : Rx} {off : ℕ} {data : Bytes} {fin : Bool}

theorem admit_of_admissible (h : x.Admissible (off + data.length) fin) :
    x.allow off data fin = .ok (x.counted (off + data.length) fin) := by
  unfold allow counted
  generalize off + data.length = e at h
  have hfin : ¬ (x.s.recvFin.any fun n => n < e ∨ fin ∧ e ≠ n) = true := fun hc =>
    (beyond_final_iff x.s.recvFin e fin).1 hc h.final
  have hhigh : ¬ (fin = true ∧ e < x.s.recvHigh) := fun hc => absurd (h.high hc.1) (by omega)
  dsimp only
  rw [if_neg (not_lt.2 h.varint), if_neg hfin, if_neg hhigh]
  have hmax := h.stream
  have hconn := h.conn
  by_cases hgrow : x.s.recvHigh < e
  · have hm : max x.s.recvHigh e = e := by omega
    cases fin <;> simp [hgrow, not_lt.2 hmax, not_lt.2 (hconn hgrow), hm]
  · have hm : max x.s.recvHigh e = x.s.recvHigh := by omega
    have hz : e - x.s.recvHigh = 0 := by omega
    cases fin <;> simp [hgrow, not_lt.2 hmax, hm, hz]

theorem admissible_of_admit {x' : Rx} (h : x.allow off data fin = .ok x') : x.Admissible (off + data.length) fin := by
  unfold allow at h
  generalize off + data.length = e at h
  dsimp only at h
  by_cases h1 : maxVarint < e
  · simp [h1] at h
  by_cases h2 : (x.s.recvFin.any fun n => n < e ∨ fin ∧ e ≠ n) = true
  · rw [if_neg h1, if_pos h2] at h
    cases h
  by_cases h3 : fin = true ∧ e < x.s.recvHigh
  · rw [if_neg h1, if_neg h2, if_pos h3] at h
    cases h
  rw [if_neg h1, if_neg h2, if_neg h3] at h
  have hfin := Classical.not_not.1 (mt (beyond_final_iff x.s.recvFin e fin).2 h2)
  refine ⟨by omega, hfin, fun hf => ?_, ?_, fun hgrow => ?_⟩
  · exact Nat.le_of_not_lt fun hlt => h3 ⟨hf, hlt⟩
  · by_contra hlt
    cases fin <;> simp [Nat.lt_of_not_le hlt] at h
  · by_contra hlt
    cases fin <;> simp [hgrow, Nat.lt_of_not_le hlt] at h <;> split at h <;> cases h

theorem admit_ok_iff {x' : Rx} : x.allow off data fin = .ok x' ↔
      x.Admissible (off + data.length) fin ∧ x' = x.counted (off + data.length) fin := by
  constructor
  · intro h
    have ha := admissible_of_admit h
    rw [admit_of_admissible ha, Except.ok.injEq] at h
    exact ⟨ha, h.symm⟩
  · rintro ⟨ha, rfl⟩
    exact admit_of_admissible ha

/-! ### What delivery changes -/

/-- Only the credit and the buffer move: every byte that counts as read counts as consumed. -/
structure Keeps (x x' : Rx) : Prop where
  fin : x'.s.recvFin = x.s.recvFin
  high : x'.s.recvHigh = x.s.recvHigh
  done : x'.s.recvDone = x.s.recvDone
  reset : x'.s.peerReset = x.s.peerReset
  stop : x'.s.stopSent = x.s.stopSent
  hold : x'.s.holdCredit = x.s.holdCredit
  data : x'.c.recvData = x.c.recvData
  max_le : x.s.recvMax ≤ x'.s.recvMax
  read_le : x.s.recvRead ≤ x'.s.recvRead
  balance : x'.c.recvConsumed + x.s.recvRead = x.c.recvConsumed + x'.s.recvRead

theorem Keeps.refl (x : Rx) : Keeps x x := ⟨rfl, rfl, rfl, rfl, rfl, rfl, rfl, le_refl _, le_refl _, rfl⟩

theorem Keeps.trans {y z : Rx} (h : Keeps x y) (h' : Keeps y z) : Keeps x z where
  fin := h'.fin.trans h.fin
  high := h'.high.trans h.high
  done := h'.done.trans h.done
  reset := h'.reset.trans h.reset
  stop := h'.stop.trans h.stop
  hold := h'.hold.trans h.hold
  data := h'.data.trans h.data
  max_le := h.max_le.trans h'.max_le
  read_le := h.read_le.trans h'.read_le
  balance := by
    have h1 := h.balance
    have h2 := h'.balance
    omega

theorem Keeps.setRecv (x : Rx) (recv : RecvBuffer) : Keeps x (x.setRecv recv) :=
  ⟨rfl, rfl, rfl, rfl, rfl, rfl, rfl, le_refl _, le_refl _, rfl⟩

/-- The credit moves up to `offset`, and nothing else does. -/
structure Credited (x : Rx) (offset : ℕ) (x' : Rx) : Prop extends Keeps x x' where
  recv : x'.s.recv = x.s.recv
  read : x'.s.recvRead = max x.s.recvRead offset

variable (cfg : RecvConfig)

theorem read_spec (x : Rx) (offset : ℕ) : Credited x offset (x.read offset) ∧ (x.read offset).events = x.events := by
  unfold Rx.read
  split_ifs with h
  · exact ⟨⟨⟨rfl, rfl, rfl, rfl, rfl, rfl, rfl, le_refl _, le_of_lt h, by simp only; omega⟩, rfl,
      by simp only; omega⟩, rfl⟩
  · exact ⟨⟨Keeps.refl x, rfl, by omega⟩, rfl⟩

theorem growStream_spec (x : Rx) (offset : ℕ) :
    Keeps x (x.growStream cfg offset) ∧ (x.growStream cfg offset).s.recv = x.s.recv ∧
      (x.growStream cfg offset).s.recvRead = x.s.recvRead ∧ (x.growStream cfg offset).events = x.events := by
  unfold growStream
  split_ifs with h
  · exact ⟨⟨rfl, rfl, rfl, rfl, rfl, rfl, rfl, by simp only; omega, le_refl _, rfl⟩, rfl, rfl, rfl⟩
  · exact ⟨Keeps.refl x, rfl, rfl, rfl⟩

theorem growConn_spec (x : Rx) :
    Keeps x (x.growConn cfg) ∧ (x.growConn cfg).s = x.s ∧ (x.growConn cfg).events = x.events := by
  unfold growConn
  split_ifs with h
  · exact ⟨⟨rfl, rfl, rfl, rfl, rfl, rfl, rfl, le_refl _, le_refl _, rfl⟩, rfl, rfl⟩
  · exact ⟨Keeps.refl x, rfl, rfl⟩

theorem consumed_spec (x : Rx) (offset : ℕ) :
    Credited x offset (x.consumed cfg offset) ∧ (x.consumed cfg offset).events = x.events := by
  obtain ⟨h1, e1⟩ := read_spec x offset
  obtain ⟨k2, b2, r2, e2⟩ := growStream_spec cfg (x.read offset) offset
  obtain ⟨k3, s3, e3⟩ := growConn_spec cfg ((x.read offset).growStream cfg offset)
  refine ⟨⟨(h1.toKeeps.trans k2).trans k3, ?_, ?_⟩, e3.trans (e2.trans e1)⟩
  · unfold consumed
    rw [s3, b2, h1.recv]
  · unfold consumed
    rw [s3, r2, h1.read]

theorem deliver_spec (x : Rx) (data : Bytes) (fin : Bool) :
    Credited x (if x.s.holdCredit then x.s.creditAt else x.s.recv.offset) (x.deliver cfg data fin) ∧
      (x.deliver cfg data fin).events = x.events ++ [.streamData data fin] := by
  obtain ⟨h, he⟩ := consumed_spec cfg x (if x.s.holdCredit then x.s.creditAt else x.s.recv.offset)
  refine ⟨⟨{ h with }, h.recv, h.read⟩, ?_⟩
  unfold deliver
  simp only [he]

def chunkEvents (chunks : List Bytes) : List RecvEvent := chunks.map fun d => .streamData d false

theorem deliverLast_spec (x : Rx) (last : Option Bytes) :
    Keeps x (x.deliverLast cfg last) ∧ (x.deliverLast cfg last).s.recv = x.s.recv ∧
      (x.deliverLast cfg last).events = x.events ++ chunkEvents last.toList ∧
      (x.s.holdCredit = false → (x.deliverLast cfg last).s.recvRead =
        if last.isSome then max x.s.recvRead x.s.recv.offset else x.s.recvRead) := by
  cases last with
  | none => exact ⟨Keeps.refl x, rfl, by simp [deliverLast, chunkEvents], fun _ => rfl⟩
  | some d =>
    obtain ⟨h, he⟩ := deliver_spec cfg x d false
    refine ⟨h.toKeeps, h.recv, he, fun hh => ?_⟩
    have := h.read
    rw [hh] at this
    exact this

/-- What the loop makes of the buffer and of the chunk held back: `d` is what it took out. -/
structure Drained (x : Rx) (last : Option Bytes) (d : Bytes) (out : Rx × Option Bytes) : Prop where
  keeps : Keeps x out.1
  hands : x.s.recv.Hands (fun _ => False) d out.1.s.recv
  drained : ¬ out.1.s.recv.Has out.1.s.recv.offset
  agrees : ∀ S, RecvBuffer.Agrees S x.s.recv.segments →
    RecvBuffer.Agrees S out.1.s.recv.segments ∧ d <+: S.drop x.s.recv.offset
  events : ∃ chunks : List Bytes, out.1.events = x.events ++ chunkEvents chunks ∧
    chunks.flatten ++ out.2.getD [] = last.getD [] ++ d
  read : x.s.holdCredit = false → out.1.s.recvRead ≤ max x.s.recvRead out.1.s.recv.offset
  nothing : out.2 = none → last = none ∧ out.1.s.recv.offset = x.s.recv.offset ∧ out.1.s.recvRead = x.s.recvRead

theorem deliverLoop_spec (n : ℕ) (x : Rx) (last : Option Bytes) (h : x.s.recv.Ordered)
    (hn : x.s.recv.segments.length ≤ n) : ∃ d, Drained x last d (deliverLoop cfg n x last) := by
  induction n generalizing x last with
  | zero =>
    refine ⟨[], Keeps.refl x, ⟨h, rfl, by simp [deliverLoop]⟩, ?_, fun S hS => ⟨hS, List.nil_prefix⟩,
      ⟨[], by simp [deliverLoop, chunkEvents], by simp [deliverLoop]⟩, fun _ => by simp [deliverLoop],
      fun hl => ⟨hl, rfl, rfl⟩⟩
    refine pop_none h ?_
    have : x.s.recv.segments = [] := List.length_eq_zero_iff.1 (le_zero.1 hn)
    simp [deliverLoop, pop, this]
  | succ n ih =>
    unfold deliverLoop
    cases hp : x.s.recv.pop with
    | mk chunk recv =>
      have hpop1 : x.s.recv.pop.1 = chunk := by rw [hp]
      have hpop2 : x.s.recv.pop.2 = recv := by rw [hp]
      cases chunk with
      | none =>
        exact ⟨[], Keeps.refl x, ⟨h, rfl, by simp⟩, pop_none h hpop1,
          fun S hS => ⟨hS, List.nil_prefix⟩, ⟨[], by simp [chunkEvents], by simp⟩, fun _ => by simp,
          fun hl => ⟨hl, rfl, rfl⟩⟩
      | some chunk =>
        obtain ⟨hh, hlen, hag⟩ := pop_some h hpop1
        rw [hpop2] at hh hlen hag
        obtain ⟨hk, hrecv, hev, hrd⟩ := deliverLast_spec cfg (x.setRecv recv) last
        replace hrecv : ((x.setRecv recv).deliverLast cfg last).s.recv = recv := hrecv
        dsimp only
        obtain ⟨d, hd⟩ := ih ((x.setRecv recv).deliverLast cfg last) (some chunk)
          (by rw [hrecv]; exact hh.ordered) (by rw [hrecv]; omega)
        have hoff := hd.hands.offset
        rw [hrecv, hh.offset] at hoff
        refine ⟨chunk ++ d, ((Keeps.setRecv x recv).trans hk).trans hd.keeps,
          ⟨hd.hands.ordered, by rw [hoff, List.length_append, add_assoc], fun y => ?_⟩, hd.drained,
          fun S hS => ?_, ?_, fun hhold => ?_, fun hnone => ?_⟩
        · rw [hd.hands.has y, hrecv, hh.has y, or_false]
        · obtain ⟨h1, h2⟩ := hag S hS
          rw [← hrecv] at h1
          obtain ⟨h3, h4⟩ := hd.agrees S h1
          rw [hrecv, hh.offset] at h4
          exact ⟨h3, prefix_drop_concat h2 h4⟩
        · obtain ⟨chunks, he, hf⟩ := hd.events
          refine ⟨last.toList ++ chunks, ?_, ?_⟩
          · rw [he, hev]
            simp [chunkEvents, setRecv]
          · cases last <;> simp_all
        · have h1 := hd.read (hk.hold.trans hhold)
          have h2 : _ = if last.isSome then max x.s.recvRead recv.offset else x.s.recvRead := hrd hhold
          have h3 := hh.offset
          rw [h2] at h1
          split_ifs at h1 <;> omega
        · exact absurd (hd.nothing hnone).1 (by simp)

/-- What `handOn` makes of a stream that is not finished: the chunks' bytes are those the frame
brought in order with those that waited for them, and the stream is finished when they reach its
final size. -/
structure HandedOn (x : Rx) (last : Option Bytes) (d : Bytes) (x' : Rx) : Prop where
  keeps : Keeps x { x' with s := { x'.s with recvDone := false } }
  hands : x.s.recv.Hands (fun _ => False) d x'.s.recv
  drained : ¬ x'.s.recv.Has x'.s.recv.offset
  agrees : ∀ S, RecvBuffer.Agrees S x.s.recv.segments →
    RecvBuffer.Agrees S x'.s.recv.segments ∧ d <+: S.drop x.s.recv.offset
  done : x'.s.recvDone = true ↔ x.s.recvFin = some x'.s.recv.offset
  events : ∃ chunks : List Bytes, ∃ tail : List RecvEvent,
    x'.events = x.events ++ chunkEvents chunks ++ tail ∧
    (x'.s.recvDone = false → tail = [] ∧ chunks.flatten = last.getD [] ++ d) ∧
    (x'.s.recvDone = true → ∃ e, tail = [.streamData e true] ∧ chunks.flatten ++ e = last.getD [] ++ d)
  read : x.s.holdCredit = false → x'.s.recvRead = max x.s.recvRead x'.s.recv.offset ∨
    (last = none ∧ x'.s.recv.offset = x.s.recv.offset ∧ x'.s.recvRead = x.s.recvRead)

theorem handOn_spec {x : Rx} (h : x.s.recv.Ordered) (hd : x.s.recvDone = false) (last : Option Bytes) :
    ∃ d, HandedOn x last d (x.handOn cfg last) := by
  obtain ⟨d, hl⟩ := deliverLoop_spec cfg x.s.recv.segments.length x last h (le_refl _)
  refine ⟨d, ?_⟩
  unfold handOn
  generalize deliverLoop cfg x.s.recv.segments.length x last = out at hl
  obtain ⟨y, rest⟩ := out
  obtain ⟨chunks, hev, hfl⟩ := hl.events
  have hk := hl.keeps
  dsimp only at hev hfl hk ⊢
  by_cases hfin : y.s.recvFin = some y.s.recv.offset
  · -- the stream's end goes with the chunk held back
    rw [if_pos ⟨hfin, hk.done.trans hd⟩]
    obtain ⟨hc, he⟩ := deliver_spec cfg y.finish (rest.getD []) true
    have hrecv := hc.recv
    have hdone : (y.finish.deliver cfg (rest.getD []) true).s.recvDone = true := hc.done
    replace hrecv : (y.finish.deliver cfg (rest.getD []) true).s.recv = y.s.recv := hrecv
    replace he : _ = y.events ++ _ := he
    refine ⟨⟨hc.fin.trans hk.fin, hc.high.trans hk.high, hd.symm, hc.reset.trans hk.reset,
      hc.stop.trans hk.stop, hc.hold.trans hk.hold, hc.data.trans hk.data, hk.max_le.trans hc.max_le,
      hk.read_le.trans hc.read_le, ?_⟩, ?_, ?_, ?_, ?_, ?_, ?_⟩
    · have h1 : _ + y.s.recvRead = y.c.recvConsumed + _ := hc.balance
      have h2 := hk.balance
      dsimp only
      omega
    · rw [hrecv]; exact hl.hands
    · rw [hrecv]; exact hl.drained
    · rw [hrecv]; exact hl.agrees
    · rw [hrecv, ← hfin, hk.fin]
      simp [hdone]
    · refine ⟨chunks, [.streamData (rest.getD []) true], by rw [he, hev], fun hf => ?_, fun _ => ⟨_, rfl, hfl⟩⟩
      rw [hdone] at hf
      cases hf
    intro hh
    left
    have h1 : _ = max y.s.recvRead (if y.s.holdCredit then y.s.creditAt else y.s.recv.offset) := hc.read
    have h2 : y.s.recvRead ≤ max x.s.recvRead y.s.recv.offset := hl.read hh
    have h4 := hk.read_le
    rw [hrecv, h1, if_neg (by rw [hk.hold, hh]; simp)]
    omega
  · rw [if_neg fun hc => hfin hc.1]
    obtain ⟨hc, hrecv, he, hrd⟩ := deliverLast_spec cfg y rest
    have hdone : (y.deliverLast cfg rest).s.recvDone = false := hc.done.trans (hk.done.trans hd)
    have hkc := hk.trans hc
    refine ⟨{ hkc with done := hd.symm }, ?_, ?_, ?_, ?_, ?_, ?_⟩
    · rw [hrecv]; exact hl.hands
    · rw [hrecv]; exact hl.drained
    · rw [hrecv]; exact hl.agrees
    · rw [hrecv, hdone, ← hk.fin]
      simp [hfin]
    · refine ⟨chunks ++ rest.toList, [], ?_, fun _ => ⟨rfl, ?_⟩, fun ht => ?_⟩
      · rw [he, hev]
        simp [chunkEvents]
      · rw [← hfl]
        cases rest <;> simp
      · rw [hdone] at ht
        cases ht
    · intro hh
      have h3 := hrd (hk.hold.trans hh)
      have h2 := hl.read hh
      have h4 := hk.read_le
      dsimp only at h2
      cases rest with
      | none =>
        obtain ⟨h5, h6, h7⟩ := hl.nothing rfl
        exact Or.inr ⟨h5, by rw [hrecv]; exact h6, h3.trans h7⟩
      | some e =>
        left
        rw [h3, hrecv]
        simp only [Option.isSome_some, if_true]
        omega

end Rx
end Fib.Quic
