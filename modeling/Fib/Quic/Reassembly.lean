import Fib.Quic.RecvStream
import Fib.Lib.Runs

/-! Reassembly: whatever the order in which the frames of a stream arrive, the application is
given the stream, in order and once, as far as it has arrived. -/

namespace Fib.Quic
open List Rx RecvBuffer

structure StreamFrame where
  off : ℕ
  data : Bytes
  fin : Bool
deriving DecidableEq

def StreamFrame.end_ (f : StreamFrame) : ℕ := f.off + f.data.length

inductive ReassemblyOp where
  | frame (f : StreamFrame)
  /-- What the connection's other streams make of its counters. -/
  | others (c : RecvConn)
deriving DecidableEq

/-- A stream, the frames it was given, and the first of their errors. -/
structure Reassembly where
  rx : Rx
  frames : List StreamFrame
  err : Option ConnErr
deriving DecidableEq

def RecvEvent.bytes : RecvEvent → Bytes
  | streamData data _ => data
  | streamReset _ => []

open RecvEvent

def RecvEvent.ends : RecvEvent → Bool
  | streamData _ fin => fin
  | streamReset _ => false

namespace Reassembly
section
variable (cfg : RecvConfig)

def step (r : Reassembly) : ReassemblyOp → Reassembly
  | .frame f =>
    match r.rx.onStreamFrame cfg f.off f.data f.fin with
    | .ok x => { r with rx := x, frames := r.frames ++ [f] }
    | .error e => { r with frames := r.frames ++ [f], err := r.err <|> some e }
  | .others c => { r with rx := { r.rx with c := c } }

/-- A new stream of a connection whose counters are `c`. -/
def machine (c : RecvConn) : Machine Reassembly ReassemblyOp :=
  ⟨⟨{ c := c, s := { recvMax := cfg.streamReceiveWindow } }, [], none⟩, step cfg⟩

/-- The frame is part of `S`, and keeps to the flow control and segment limits. -/
def Legal (S : Bytes) (r : Reassembly) : ReassemblyOp → Prop
  | .others _ => True
  | .frame f =>
    f.data <+: S.drop f.off ∧ f.end_ ≤ S.length ∧ (f.fin = true → f.end_ = S.length) ∧
    f.end_ ≤ maxVarint ∧ f.end_ ≤ r.rx.s.recvMax ∧
    (r.rx.s.recvHigh < f.end_ → r.rx.c.recvData + (f.end_ - r.rx.s.recvHigh) ≤ r.rx.c.recvMaxData) ∧
    (r.rx.s.recvDone = false → r.rx.s.recv.Fits f.off f.data (recvSegmentLimit cfg.streamReceiveWindow))

instance (S : Bytes) (r : Reassembly) : ∀ op, Decidable (Legal cfg S r op)
  | .others _ => inferInstanceAs (Decidable True)
  | .frame _ => inferInstanceAs (Decidable (_ ∧ _ ∧ _ ∧ _ ∧ _ ∧ _ ∧ _))

end

def delivered (r : Reassembly) : Bytes := (r.rx.events.map bytes).flatten

def Arrived (r : Reassembly) (x : ℕ) : Prop := ∃ f ∈ r.frames, f.off ≤ x ∧ x < f.end_

def FinArrived (r : Reassembly) : Prop := ∃ f ∈ r.frames, f.fin = true

def Complete (S : Bytes) (r : Reassembly) : Prop := (∀ x < S.length, r.Arrived x) ∧ r.FinArrived

structure Inv (S : Bytes) (r : Reassembly) : Prop where
  err : r.err = none
  reset : r.rx.s.peerReset = false
  stop : r.rx.s.stopSent = false
  ordered : r.rx.s.recv.Ordered
  agrees : Agrees S r.rx.s.recv.segments
  fin : ∀ n, r.rx.s.recvFin = some n → n = S.length
  finArrived : r.rx.s.recvFin.isSome ↔ r.FinArrived
  high : r.rx.s.recvHigh ≤ S.length
  has : ∀ x, r.rx.s.recv.Has x ↔ r.Arrived x
  drained : ¬ r.rx.s.recv.Has r.rx.s.recv.offset
  within : r.rx.s.recv.offset ≤ S.length
  delivered : r.delivered = S.take r.rx.s.recv.offset
  done : r.rx.s.recvDone = true ↔ r.rx.s.recvFin = some r.rx.s.recv.offset
  going : r.rx.s.recvDone = false → ∀ e ∈ r.rx.events, e.ends = false
  ended : r.rx.s.recvDone = true → ∃ init last, r.rx.events = init ++ [last] ∧ last.ends = true ∧
    ∀ e ∈ init, e.ends = false

variable {fs : List StreamFrame} {e : Option ConnErr} {f : StreamFrame} {r : Reassembly}

theorem arrived_snoc {x : Rx} (hr : r.frames = fs) (y : ℕ) :
    (⟨x, fs ++ [f], e⟩ : Reassembly).Arrived y ↔ r.Arrived y ∨ (f.off ≤ y ∧ y < f.end_) := by
  simp [Arrived, hr, or_and_right, exists_or]

theorem finArrived_snoc {x : Rx}
    (hr : r.frames = fs) : (⟨x, fs ++ [f], e⟩ : Reassembly).FinArrived ↔ r.FinArrived ∨ f.fin = true := by
  simp [FinArrived, hr, or_and_right, exists_or]

section
variable {cfg : RecvConfig} {S : Bytes} {r : Reassembly} {f : StreamFrame}
section
variable (h : Inv S r) (hl : Legal cfg S r (.frame f))
include h hl

theorem admissible : r.rx.Admissible f.end_ f.fin := by
  obtain ⟨-, hend, hfin, hvar, hmax, hconn, -⟩ := hl
  refine ⟨hvar, fun n hn => ?_, fun hf => ?_, hmax, hconn⟩
  · rw [h.fin n hn]
    exact ⟨hend, hfin⟩
  · rw [hfin hf]
    exact h.high

theorem counted_fin : (∀ n, (r.rx.counted f.end_ f.fin).s.recvFin = some n → n = S.length) ∧
    ((r.rx.counted f.end_ f.fin).s.recvFin.isSome ↔ r.FinArrived ∨ f.fin = true) := by
  obtain ⟨-, -, hfin, -⟩ := hl
  cases hf : f.fin with
  | true =>
    refine ⟨fun n hn => ?_, by simp [counted]⟩
    obtain rfl : f.end_ = n := by simpa [counted] using hn
    exact hfin hf
  | false =>
    refine ⟨fun n hn => h.fin n (by simpa [counted] using hn), ?_⟩
    simpa [counted] using h.finArrived

theorem inv_after (hd : r.rx.s.recvDone = true) :
    Inv S ⟨(r.rx.counted f.end_ f.fin).consumed cfg f.end_, r.frames ++ [f], none⟩ := by
  obtain ⟨hc, he⟩ := consumed_spec cfg (r.rx.counted f.end_ f.fin) f.end_
  obtain ⟨hfin, hfa⟩ := counted_fin h hl
  have hoff : r.rx.s.recv.offset = S.length := h.fin _ (h.done.1 hd)
  have hrecv : _ = r.rx.s.recv := hc.recv
  have hend := hl.2.1
  have hdone : ((r.rx.counted f.end_ f.fin).consumed cfg f.end_).s.recvDone = true := hc.done.trans hd
  refine ⟨rfl, hc.reset.trans h.reset, hc.stop.trans h.stop, by rw [hrecv]; exact h.ordered,
    by rw [hrecv]; exact h.agrees, by rw [hc.fin]; exact hfin, by rw [hc.fin, finArrived_snoc rfl]; exact hfa,
    ?_, fun y => ?_, by rw [hrecv]; exact h.drained, by rw [hrecv]; exact h.within, ?_, ?_, ?_, ?_⟩
  · rw [hc.high]
    have := h.high
    simp only [counted]
    omega
  · rw [arrived_snoc rfl, ← h.has y, hrecv]
    refine ⟨Or.inl, fun hy => hy.elim id fun hy => Or.inl ?_⟩
    omega
  · rw [hrecv, ← h.delivered, delivered, he]
    rfl
  · rw [hrecv, hc.fin]
    refine iff_of_true hdone ?_
    obtain ⟨n, hn⟩ := Option.isSome_iff_exists.1 (hfa.2 (Or.inl (h.finArrived.1 (by rw [h.done.1 hd]; rfl))))
    rw [hn, hfin n hn, hoff]
  · intro hf
    rw [hdone] at hf
    cases hf
  · rw [he]
    exact fun _ => h.ended hd

end

theorem bytes_chunkEvents (chunks : List Bytes) : ((Rx.chunkEvents chunks).map bytes).flatten = chunks.flatten := by
  simp [chunkEvents, Function.comp_def, bytes]

theorem ends_chunkEvents (chunks : List Bytes) : ∀ e ∈ Rx.chunkEvents chunks, e.ends = false := by
  simp [chunkEvents, ends]

theorem inv_handed (h : Inv S r) (hl : Legal cfg S r (.frame f)) (hd : r.rx.s.recvDone = false) {limit : ℕ}
    {last : Option Bytes} {recv : RecvBuffer} (ht : r.rx.s.recv.take f.off f.data limit = (last, true, recv)) :
    Inv S ⟨((r.rx.counted f.end_ f.fin).setRecv recv).handOn cfg last, r.frames ++ [f], none⟩ := by
  obtain ⟨hh, hag⟩ := take_spec h.ordered (show (r.rx.s.recv.take f.off f.data limit).2.1 = true by rw [ht])
  rw [ht] at hh hag
  obtain ⟨hS, hd0⟩ := hag S h.agrees hl.1
  obtain ⟨d, ho⟩ := handOn_spec cfg (x := (r.rx.counted f.end_ f.fin).setRecv recv) hh.ordered hd last
  obtain ⟨hfin, hfa⟩ := counted_fin h hl
  obtain ⟨hS', hd1⟩ := ho.agrees S hS
  have hk := ho.keeps
  generalize hx : ((r.rx.counted f.end_ f.fin).setRecv recv).handOn cfg last = x at ho hk hS'
  have hoff : x.s.recv.offset = r.rx.s.recv.offset + (last.getD [] ++ d).length := by
    have h1 : x.s.recv.offset = recv.offset + d.length := ho.hands.offset
    rw [h1, hh.offset, length_append, Nat.add_assoc]
  have hnew : last.getD [] ++ d <+: S.drop r.rx.s.recv.offset := by
    refine prefix_drop_concat hd0 ?_
    rw [← hh.offset]
    exact hd1
  have hfin' : x.s.recvFin = (r.rx.counted f.end_ f.fin).s.recvFin := hk.fin
  have hbytes : ∀ evs : List RecvEvent, x.events = r.rx.events ++ evs →
      (evs.map bytes).flatten = last.getD [] ++ d →
      (⟨x, r.frames ++ [f], none⟩ : Reassembly).delivered = S.take x.s.recv.offset := by
    intro evs he hb
    rw [hoff, ← take_append_of_prefix_drop hnew, ← h.delivered, ← hb]
    simp [delivered, he]
  obtain ⟨chunks, tail, hev, hgo, hend⟩ := ho.events
  replace hev : x.events = r.rx.events ++ (chunkEvents chunks ++ tail) := by rw [hev, append_assoc]; rfl
  refine ⟨rfl, hk.reset.trans h.reset, hk.stop.trans h.stop, ho.hands.ordered, hS', by rw [hfin']; exact hfin,
    by rw [hfin', finArrived_snoc rfl]; exact hfa, ?_, fun y => ?_, ho.drained, ?_, ?_,
    by rw [ho.done, hfin']; rfl, fun hf e he => ?_, fun ht' => ?_⟩
  · have hhigh : x.s.recvHigh = max r.rx.s.recvHigh f.end_ := hk.high
    have h1 := h.high
    have h2 := hl.2.1
    simp only [hhigh]; omega
  · have hhas : x.s.recv.Has y ↔ recv.Has y ∨ False := ho.hands.has y
    rw [arrived_snoc rfl, ← h.has y, hhas, or_false, hh.has y]
    rfl
  · have := hnew.length_le
    rw [length_drop] at this
    have := h.within
    simp only [hoff]; omega
  · cases hdn : x.s.recvDone with
    | false =>
      obtain ⟨rfl, hfl⟩ := hgo hdn
      exact hbytes _ hev (by simp [bytes_chunkEvents, hfl])
    | true =>
      obtain ⟨e, rfl, hfl⟩ := hend hdn
      refine hbytes _ hev ?_
      rw [map_append, flatten_append, bytes_chunkEvents, ← hfl]
      simp [bytes]
  · obtain ⟨rfl, -⟩ := hgo hf
    simp only [hev, append_nil] at he
    rcases mem_append.1 he with he | he
    · exact h.going hd e he
    · exact ends_chunkEvents chunks e he
  · obtain ⟨e, rfl, -⟩ := hend ht'
    refine ⟨r.rx.events ++ chunkEvents chunks, .streamData e true, by simp [hev], rfl, fun e' he' => ?_⟩
    rcases mem_append.1 he' with he' | he'
    · exact h.going hd e' he'
    · exact ends_chunkEvents chunks e' he'

theorem inv_frame (h : Inv S r) (hl : Legal cfg S r (.frame f)) : Inv S (step cfg r (.frame f)) := by
  have hadm : r.rx.allow f.off f.data f.fin = .ok (r.rx.counted f.end_ f.fin) :=
    admit_of_admissible (admissible h hl)
  have hon : r.rx.onStreamFrame cfg f.off f.data f.fin = (r.rx.counted f.end_ f.fin).accept cfg f.off f.data := by
    rw [onStreamFrame, hadm]
    rfl
  dsimp only [step]
  rw [hon, accept]
  have hstop : (r.rx.counted f.end_ f.fin).s.stopSent = false := h.stop
  have hreset : (r.rx.counted f.end_ f.fin).s.peerReset = false := h.reset
  cases hd : r.rx.s.recvDone with
  | true =>
    have hd' : (r.rx.counted f.end_ f.fin).s.recvDone = true := hd
    obtain ⟨hc, -⟩ := consumed_spec cfg (r.rx.counted f.end_ f.fin) f.end_
    have hc' : ((r.rx.counted f.end_ f.fin).consumed cfg f.end_).s.stopSent = false := hc.stop.trans hstop
    rw [if_pos (Or.inl hd')]
    have hi := inv_after h hl hd
    simp only [StreamFrame.end_] at hc' hi
    simpa [hc', h.err, StreamFrame.end_] using hi
  | false =>
    have hd' : (r.rx.counted f.end_ f.fin).s.recvDone = false := hd
    rw [if_neg (by simp [hd', hstop, hreset])]
    have hok := take_of_fits (hl.2.2.2.2.2.2 hd)
    cases ht : r.rx.s.recv.take f.off f.data (recvSegmentLimit cfg.streamReceiveWindow) with
    | mk last q =>
      obtain ⟨ok, recv⟩ := q
      rw [ht] at hok
      obtain rfl : ok = true := hok
      have hrecv : (r.rx.counted f.end_ f.fin).s.recv = r.rx.s.recv := rfl
      rw [hrecv, ht]
      simpa [h.err] using inv_handed h hl hd ht

theorem inv_step (r : Reassembly) (op : ReassemblyOp) (h : Inv S r) (hl : Legal cfg S r op) :
    Inv S (step cfg r op) := by
  cases op with
  | frame f => exact inv_frame h hl
  | others c =>
    exact { h with }

theorem inv_init (c : RecvConn) : Inv S (machine cfg c).init where
  err := rfl
  reset := rfl
  stop := rfl
  ordered := ⟨Intervals.Ascending.nil 0, by simp [machine], rfl⟩
  agrees := by simp [machine, Agrees]
  fin := by simp [machine]
  finArrived := by simp [machine, FinArrived]
  high := Nat.zero_le _
  has := by simp [machine, Arrived, Has]
  drained := by simp [machine, Has]
  within := Nat.zero_le _
  delivered := by simp [machine, delivered]
  done := by simp [machine]
  going := by simp [machine]
  ended := by simp [machine]

theorem done_iff_complete (h : Inv S r) : r.rx.s.recvDone = true ↔ Complete S r := by
  rw [h.done]
  constructor
  · intro hf
    refine ⟨fun x hx => (h.has x).1 (Or.inl ?_), h.finArrived.1 (by rw [hf]; rfl)⟩
    rw [h.fin _ hf]
    exact hx
  rintro ⟨hall, hfin⟩
  obtain ⟨n, hn⟩ := Option.isSome_iff_exists.1 (h.finArrived.2 hfin)
  have hge : ¬ r.rx.s.recv.offset < S.length := fun hlt =>
    h.drained ((h.has _).2 (hall _ hlt))
  have := h.within
  rw [hn, h.fin n hn, Option.some.injEq]
  omega

end

/-- Frames of `S` in any order, overlapping, repeated and split as they may be: none is refused,
the chunks delivered are the longest prefix of `S` that has arrived, and the end is delivered
once, as the last event, from the moment all of `S` and a FIN have. -/
theorem reassembles {cfg : RecvConfig} {S : Bytes} {c : RecvConn} {ops : List ReassemblyOp}
    (h : (machine cfg c).Meets (Legal cfg S) ops) : ((machine cfg c).run ops).err = none ∧
    (∃ D ≤ S.length, ((machine cfg c).run ops).delivered = S.take D ∧
      (∀ x < D, ((machine cfg c).run ops).Arrived x) ∧ ¬ ((machine cfg c).run ops).Arrived D) ∧
    (Complete S ((machine cfg c).run ops) → ∃ init last, ((machine cfg c).run ops).rx.events = init ++ [last] ∧
      last.ends = true ∧ ∀ e ∈ init, e.ends = false) ∧
    (¬ Complete S ((machine cfg c).run ops) → ∀ e ∈ ((machine cfg c).run ops).rx.events, e.ends = false) := by
  have hi := Machine.invariant (inv_init c) inv_step h
  refine ⟨hi.err, ⟨_, hi.within, hi.delivered, fun x hx => (hi.has x).1 (Or.inl hx), ?_⟩, fun hc => ?_, fun hc => ?_⟩
  · rw [← hi.has]
    exact hi.drained
  · exact hi.ended ((done_iff_complete hi).2 hc)
  · refine hi.going ?_
    rw [← Bool.not_eq_true, done_iff_complete hi]
    exact hc

/-- The last part first, then one that overlaps it, the end again, and the first part. -/
def shuffled : List ReassemblyOp :=
  [.frame ⟨4, [5, 6], true⟩, .frame ⟨1, [2, 3], false⟩, .frame ⟨2, [3, 4, 5], false⟩, .frame ⟨6, [], true⟩,
    .frame ⟨0, [1, 2, 3], false⟩, .frame ⟨0, [1], false⟩]

theorem shuffled_reassembles :
    (machine ⟨100, 100, 0, false⟩ ⟨0, 100, 0, false⟩).Meets (Legal ⟨100, 100, 0, false⟩ [1, 2, 3, 4, 5, 6]) shuffled ∧
      ((machine ⟨100, 100, 0, false⟩ ⟨0, 100, 0, false⟩).run shuffled).err = none :=
  have h : (machine ⟨100, 100, 0, false⟩ ⟨0, 100, 0, false⟩).Meets
      (Legal ⟨100, 100, 0, false⟩ [1, 2, 3, 4, 5, 6]) shuffled := by decide
  ⟨h, (reassembles h).1⟩

end Reassembly
end Fib.Quic
