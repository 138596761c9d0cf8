import Fib.Http.BodyStream

/-! What a streamed body's handler is given over any interleaving of its connection, its handlers and
the goroutine that has the job of its sink. -/

namespace Fib.Http
open List BodyStream

namespace BodyEvent

def Last : BodyEvent → Prop
  | sink _ fin _ => fin = true
  | read _ => False

def IsSink : BodyEvent → Prop
  | sink _ _ _ => True
  | read _ => False

def Fin : BodyEvent → Prop
  | sink _ fin err => fin = true ∧ err = none
  | read _ => False

def readBytes : BodyEvent → Bytes
  | read data => data
  | sink _ _ _ => []

def sinkBytes : BodyEvent → Bytes
  | sink data _ _ => data
  | read _ => []

end BodyEvent

open BodyEvent

def reads (log : List BodyEvent) : Bytes := log.flatMap readBytes
def sinks (log : List BodyEvent) : Bytes := log.flatMap sinkBytes

namespace Job

def data : Job → Bytes
  | call data _ _ _ => data
  | idle | drain | credit _ _ _ | recycle _ => []

/-- What has left the buffer and not been credited. -/
def owes : Job → ℕ
  | call data _ _ _ => data.length
  | credit n _ _ => n
  | idle | drain | recycle _ => 0

/-- The call about to be made, as the handler will see it. -/
def event : Job → Option BodyEvent
  | call data fin err _ => some (.sink data fin err)
  | idle | drain | credit _ _ _ | recycle _ => none

end Job

namespace BodyRun

/-- Bytes handed out, and in the hands of the sink's goroutine. -/
def out (r : BodyRun) : Bytes := reads r.log ++ sinks r.log ++ r.job.data

def isOver (r : BodyRun) : Bool := r.s.abandoned || r.s.err.isSome || r.s.ended

structure Inv (r : BodyRun) : Prop where
  shape : r.s.Shape
  idle : r.s.sinkBusy = false → r.job = .idle
  fresh : r.s.sink = false → r.job = .idle ∧ ∀ e ∈ r.log, ¬ e.IsSink
  bytes : r.s.abandoned = false → r.out ++ r.s.waiting = r.accepted
  dropped : r.s.abandoned = true → r.s.waiting = [] ∧ r.out <+: r.accepted
  accepted : r.accepted <+: r.pushed
  all : r.isOver = false → r.accepted = r.pushed
  delivered : r.s.delivered = true → r.isOver = true ∧ r.s.waiting = []
  calling : ∀ e ∈ r.job.event, (e.Last ↔ r.s.delivered = true) ∧ ∀ e' ∈ r.log, ¬ e'.Last
  undelivered : r.s.delivered = false → ∀ e ∈ r.log, ¬ e.Last
  once : ∀ pre e post, r.log = pre ++ e :: post → e.Last → ∀ e' ∈ post, ¬ e'.IsSink
  fin : ∀ e, e ∈ r.log ∨ e ∈ r.job.event → e.Fin → r.s.abandoned = true ∨ r.s.ended = true ∧ r.s.err = none
  atEnd : r.s.ended = true → r.s.err = none → r.s.abandoned = false → r.atEnd = some r.accepted
  credit : r.credited + r.owing.sum + r.job.owes + r.s.waiting.length = r.pushed.length

variable {r : BodyRun}

/-- A change of the body that leaves its bytes and its sink as they were. -/
structure Leaves (s t : BodyStream) : Prop where
  shape : t.Shape
  waiting : t.waiting = s.waiting
  sink : t.sink = false → s.sink = false
  busy : t.sinkBusy = s.sinkBusy
  delivered : t.delivered = s.delivered
  abandoned : t.abandoned = s.abandoned
  err : t.err = s.err
  ended : t.ended = s.ended

variable {t : BodyStream} {data : Bytes}
section
variable (h : Inv r)
include h

theorem Inv.leaves (ht : Leaves r.s t) : Inv (r.setS t) where
  shape := ht.shape
  idle hb := h.idle (ht.busy ▸ hb)
  fresh hs := h.fresh (ht.sink hs)
  bytes ha := by
    show r.out ++ t.waiting = r.accepted
    rw [ht.waiting]
    exact h.bytes (ht.abandoned ▸ ha)
  dropped ha := by
    show t.waiting = [] ∧ r.out <+: r.accepted
    rw [ht.waiting]
    exact h.dropped (ht.abandoned ▸ ha)
  accepted := h.accepted
  all ho := h.all (by rw [← ho]; simp only [isOver, setS, ht.abandoned, ht.err, ht.ended])
  delivered hd := by
    have := h.delivered (ht.delivered ▸ hd)
    refine ⟨?_, ht.waiting.trans this.2⟩
    rw [← this.1]
    simp only [isOver, setS, ht.abandoned, ht.err, ht.ended]
  calling e he := by
    show (e.Last ↔ t.delivered = true) ∧ _
    rw [ht.delivered]
    exact h.calling e he
  undelivered hd := h.undelivered (ht.delivered ▸ hd)
  once := h.once
  fin e he hf := by
    show t.abandoned = true ∨ t.ended = true ∧ t.err = none
    rw [ht.abandoned, ht.ended, ht.err]
    exact h.fin e he hf
  atEnd he hr ha := h.atEnd (ht.ended ▸ he) (ht.err ▸ hr) (ht.abandoned ▸ ha)
  credit := by
    show r.credited + r.owing.sum + r.job.owes + t.waiting.length = r.pushed.length
    rw [ht.waiting]
    exact h.credit

theorem shape_sinkBusy (busy : Bool) : ({ r.s with sinkBusy := busy } : BodyStream).Shape :=
  { h.shape with }

theorem Inv.working (hj : r.job ≠ .idle) : r.s.sinkBusy = true ∧ r.s.sink = true := by
  refine ⟨?_, ?_⟩ <;> by_contra hno
  · exact hj (h.idle (by simpa using hno))
  · exact hj (h.fresh (by simpa using hno)).1

theorem Inv.open (ho : r.isOver = false) :
    r.s.abandoned = false ∧ r.s.err = none ∧ r.s.ended = false ∧ r.s.delivered = false := by
  have hnd : r.s.delivered = false := by
    by_contra hd
    have := (h.delivered (by simpa using hd)).1
    simp [ho] at this
  simp only [isOver, Bool.or_eq_false_iff, Option.isSome_eq_false_iff, Option.isNone_iff_eq_none] at ho
  exact ⟨ho.1.1, ho.1.2, ho.2, hnd⟩

theorem Inv.goOn (busy : Bool) {job : Job} (n : ℕ) (hidle : busy = false → job = .idle)
    (hsink : r.s.sink = true ∨ job = .idle) (hd : r.job.data = []) (hd' : job.data = []) (he : job.event = none)
    (hn : n + job.owes = r.job.owes) :
    Inv { r with s := { r.s with sinkBusy := busy }, credited := r.credited + n, job := job } := by
  have hout : ({ r with s := { r.s with sinkBusy := busy }, credited := r.credited + n, job := job } : BodyRun).out =
      r.out := by
    simp [out, hd, hd']
  have hnone : ∀ e, e ∉ job.event := by simp [he]
  exact
    { h with
      shape := shape_sinkBusy h busy
      idle := hidle
      fresh := fun hno => ⟨hsink.resolve_left (by simp [show r.s.sink = false from hno]), (h.fresh hno).2⟩
      bytes := fun ha => by rw [hout]; exact h.bytes ha
      dropped := fun ha => by rw [hout]; exact h.dropped ha
      calling := fun e hev => absurd hev (hnone e)
      fin := fun e hev hf => h.fin e (hev.imp id fun hjob => absurd hjob (hnone e)) hf
      credit := by
        have := h.credit
        show r.credited + n + r.owing.sum + job.owes + r.s.waiting.length = r.pushed.length
        omega }

theorem Inv.start (hb : r.s.sinkBusy = false) (hs : r.s.sink = true) :
    Inv { r with s := { r.s with sinkBusy := true }, job := .drain } := by
  have hidle := h.idle hb
  exact h.goOn true 0 nofun (.inl hs) (by simp [hidle, Job.data]) rfl rfl (by simp [hidle, Job.owes])

theorem Inv.deliver : Inv r.deliver := by
  unfold BodyRun.deliver
  split_ifs with hd
  · simp only [Bool.and_eq_true, Bool.not_eq_true'] at hd
    exact h.start hd.1.2 hd.1.1
  · exact h

theorem Inv.owe {n : ℕ} {p : Bytes} (hn : p.length = n) (ho : r.isOver = true) :
    Inv ({ r with pushed := r.pushed ++ p }.owe n) :=
  { h with
    accepted := h.accepted.trans (prefix_append _ _)
    all := fun hno => absurd ho (by simp [show r.isOver = false from hno])
    credit := by
      have := h.credit
      show r.credited + (r.owing ++ [n]).sum + r.job.owes + r.s.waiting.length = (r.pushed ++ p).length
      rw [sum_append, length_append, sum_singleton]
      omega }

end

/-- The sink, and whether there will be more, stay as they are. -/
structure Keeps (s t : BodyStream) : Prop where
  sink : t.sink = s.sink
  busy : t.sinkBusy = s.sinkBusy
  delivered : t.delivered = s.delivered
  abandoned : t.abandoned = s.abandoned
  err : t.err = s.err
  ended : t.ended = s.ended

theorem Keeps.trans {s u : BodyStream} (h : Keeps s t) (h' : Keeps t u) : Keeps s u :=
  ⟨h'.sink.trans h.sink, h'.busy.trans h.busy, h'.delivered.trans h.delivered, h'.abandoned.trans h.abandoned,
    h'.err.trans h.err, h'.ended.trans h.ended⟩

theorem Inv.appendData (h : Inv r) (ho : r.isOver = false) (hshape : t.Shape) (hwait : t.waiting = r.s.waiting ++ data)
    (hk : Keeps r.s t) : Inv { r with s := t, pushed := r.pushed ++ data, accepted := r.accepted ++ data } := by
  obtain ⟨hna, -, hno, hnd⟩ := h.open ho
  have hall : r.accepted ++ data = r.pushed ++ data := by rw [h.all ho]
  exact
    { h with
      shape := hshape
      idle := fun hb => h.idle (hk.busy ▸ hb)
      fresh := fun hs => h.fresh (hk.sink ▸ hs)
      bytes := fun _ => by
        show r.out ++ t.waiting = r.accepted ++ data
        rw [hwait, ← append_assoc, h.bytes hna]
      dropped := fun ha => absurd ha (by simp [hk.abandoned, hna])
      accepted := hall ▸ prefix_rfl
      all := fun _ => hall
      delivered := fun hd => absurd hd (by simp [hk.delivered, hnd])
      calling := fun e he => by
        show (e.Last ↔ t.delivered = true) ∧ _
        rw [hk.delivered]
        exact h.calling e he
      undelivered := fun _ => h.undelivered hnd
      fin := fun e he hf => by
        show t.abandoned = true ∨ t.ended = true ∧ t.err = none
        rw [hk.abandoned, hk.ended, hk.err]
        exact h.fin e he hf
      atEnd := fun he => absurd he (by simp [hk.ended, hno])
      credit := by
        have := h.credit
        show r.credited + r.owing.sum + r.job.owes + t.waiting.length = (r.pushed ++ data).length
        rw [hwait, length_append, length_append]
        omega }

/-- With nothing waiting, what is pushed goes into the hands of the sink's goroutine. -/
theorem Inv.direct (h : Inv r) (ho : r.isOver = false) (hb : r.s.sinkBusy = false)
    (hs : r.s.sink = true) (hw : r.s.waiting = []) :
    Inv { r with s := { r.s with sinkBusy := true }, job := .call data false none false,
                 pushed := r.pushed ++ data, accepted := r.accepted ++ data } := by
  have hidle := h.idle hb
  have hall : r.accepted ++ data = r.pushed ++ data := by rw [h.all ho]
  obtain ⟨hna, -, hno, hnd⟩ := h.open ho
  have hlast := h.undelivered hnd
  exact
    { h with
      shape := shape_sinkBusy h true
      idle := nofun
      fresh := fun hf => absurd hs (by simp [show r.s.sink = false from hf])
      bytes := fun _ => by
        have hbytes := h.bytes hna
        simp only [out, hidle, Job.data, hw, append_nil] at hbytes
        show reads r.log ++ sinks r.log ++ data ++ r.s.waiting = r.accepted ++ data
        rw [hw, hbytes, append_nil]
      dropped := fun ha => absurd ha (by simp [hna])
      accepted := hall ▸ prefix_rfl
      all := fun _ => hall
      delivered := fun hd => absurd hd (by simp [hnd])
      calling := fun e he => by
        cases he
        exact ⟨⟨fun hl => absurd hl Bool.false_ne_true, fun hd => absurd hd (by simp [hnd])⟩, hlast⟩
      undelivered := fun _ => hlast
      fin := fun e he hf => by
        rcases he with he | he
        · exact h.fin e (.inl he) hf
        · cases he
          exact absurd hf.1 Bool.false_ne_true
      atEnd := fun he => absurd he (by simp [hno])
      credit := by
        have := h.credit
        rw [hidle, hw] at this
        simp only [Job.owes, length_nil] at this
        show r.credited + r.owing.sum + data.length + r.s.waiting.length = (r.pushed ++ data).length
        rw [hw, length_append, length_nil]
        omega }

theorem append_keeps (s : BodyStream) (data : Bytes) : Keeps s (s.append data) := by
  unfold append
  dsimp only
  split_ifs <;> exact ⟨rfl, rfl, rfl, rfl, rfl, rfl⟩

section
variable (h : Inv r)
include h

theorem Inv.push (data : Bytes) : Inv (r.push data) := by
  unfold BodyRun.push
  dsimp only
  split_ifs with ho hdirect
  · exact h.owe rfl ho
  · simp only [Bool.and_eq_true, Bool.not_eq_true', beq_iff_eq] at hdirect
    exact h.direct (Bool.not_eq_true _ ▸ ho) hdirect.1.1.1.2 hdirect.1.1.1.1 (h.shape.waiting_nil hdirect.2.ge)
  all_goals
    obtain ⟨hshape, hwait⟩ := append_spec h.shape data
    have hk := append_keeps r.s data
    refine Inv.deliver (h.appendData (Bool.not_eq_true _ ▸ ho) ?_ hwait ?_)
    · exact { hshape with }
    · exact { hk with }

theorem Inv.stop (ended : Bool) (err : Option BodyError) (atEnd : Option Bytes) (hend : r.s.ended = true → ended = true)
    (herr : r.s.err.isSome = true → err = r.s.err) (hnew : r.s.ended = true → err = r.s.err)
    (hat : ended = true → err = none → r.s.abandoned = false → atEnd = some r.accepted) :
    Inv ({ r with atEnd := atEnd }.setS { r.s with ended := ended, err := err, held := false }) := by
  have hover : r.isOver = true →
      ({ r with atEnd := atEnd }.setS { r.s with ended := ended, err := err, held := false }).isOver = true := by
    intro ho
    simp only [isOver, Bool.or_eq_true] at ho
    simp only [isOver, setS, Bool.or_eq_true]
    rcases ho with (ha | he) | hn
    · exact .inl (.inl ha)
    · exact .inl (.inr (by rw [herr he]; exact he))
    · exact .inr (hend hn)
  exact
    { h with
      shape := { h.shape with }
      all := fun hno => h.all (by
        by_contra ho
        exact absurd (hover (by simpa using ho)) (by simp [hno]))
      delivered := fun hd => ⟨hover (h.delivered hd).1, (h.delivered hd).2⟩
      fin := fun e he hf => (h.fin e he hf).imp id fun ⟨hn, hr⟩ => ⟨hend hn, (hnew hn).trans hr⟩
      atEnd := hat }

theorem Inv.finish : Inv r.finish := by
  refine Inv.deliver (h.stop _ _ _ (fun _ => rfl) (fun _ => rfl) (fun _ => rfl) ?_)
  intro _ herr ha
  split_ifs with hend
  · exact h.atEnd hend herr ha
  · rw [h.all (by simp [isOver, ha, herr, hend])]

theorem Inv.setErr (err : BodyError) : Inv (r.setErr err) := by
  refine h.stop r.s.ended (if r.s.err.isNone && !r.s.ended then some err else r.s.err) r.atEnd id ?_ ?_ ?_
  · intro he
    rw [if_neg (by simp [Option.isSome_iff_ne_none.1 he])]
  · intro hn
    rw [if_neg (by simp [hn])]
  · intro hn he ha
    rw [if_neg (by simp [hn])] at he
    exact h.atEnd hn he ha

theorem Inv.fail (err : Option BodyError) : Inv (r.fail err) := (h.setErr _).deliver

theorem Inv.failElsewhere (err : BodyError) : Inv (r.failElsewhere err) := by
  unfold BodyRun.failElsewhere
  split_ifs
  · exact h
  · exact (h.setErr err).deliver

theorem Inv.setSink (reserve : Bool) : Inv (r.setSink reserve) := by
  have hset : Inv (r.setS { r.s with sink := true }) :=
    h.leaves ⟨{ h.shape with }, rfl, nofun, rfl, rfl, rfl, rfl, rfl⟩
  unfold BodyRun.setSink
  dsimp only
  split_ifs with hbusy
  · exact hset
  · simp only [Bool.or_eq_true, not_or, Bool.not_eq_true] at hbusy
    exact hset.start hbusy.1 rfl

theorem Inv.holdSink (hold : Bool) : Inv (r.holdSink hold) := by
  have hset : Inv (r.setS { r.s with sinkHeld := hold }) :=
    h.leaves ⟨{ h.shape with }, rfl, id, rfl, rfl, rfl, rfl, rfl⟩
  unfold BodyRun.holdSink
  split_ifs
  · exact hset
  · exact hset.deliver

theorem Inv.drop : Inv ((r.setS { r.s.drop with abandoned := true, held := false }).owe r.s.waiting.length) :=
  { h with
    shape := ⟨.inr rfl, fun c hc => absurd hc not_mem_nil, fun hne => absurd rfl hne, fun _ => rfl⟩
    bytes := nofun
    dropped := fun _ => by
      refine ⟨rfl, ?_⟩
      cases ha : r.s.abandoned with
      | false => exact ⟨_, h.bytes ha⟩
      | true => exact (h.dropped ha).2
    all := nofun
    delivered := fun _ => ⟨rfl, rfl⟩
    fin := fun _ _ _ => .inl rfl
    atEnd := fun _ _ ha => absurd ha nofun
    credit := by
      have := h.credit
      show r.credited + (r.owing ++ [r.s.waiting.length]).sum + r.job.owes + 0 = r.pushed.length
      rw [sum_append, sum_singleton]
      omega }

end

theorem deliver_owe (n : ℕ) : r.deliver.owe n = (r.owe n).deliver := by
  unfold BodyRun.deliver BodyRun.owe
  split_ifs <;> rfl

theorem Inv.abandon (h : Inv r) : Inv r.abandon := by
  unfold BodyRun.abandon
  rw [deliver_owe]
  exact h.drop.deliver

theorem Inv.close (h : Inv r) : Inv r.close := by
  unfold BodyRun.close
  split_ifs
  · exact h.deliver
  · exact h.abandon

@[simp] theorem reads_snoc (log : List BodyEvent) (e : BodyEvent) : reads (log ++ [e]) = reads log ++ e.readBytes := by
  simp [reads]

@[simp] theorem sinks_snoc (log : List BodyEvent) (e : BodyEvent) : sinks (log ++ [e]) = sinks log ++ e.sinkBytes := by
  simp [sinks]

theorem sinks_eq_nil {log : List BodyEvent} (h : ∀ e ∈ log, ¬ e.IsSink) : sinks log = [] := by
  rw [sinks, flatMap_eq_nil_iff]
  intro e he
  cases e with
  | read data => rfl
  | sink data fin err => exact absurd trivial (h _ he)

theorem not_last_of_not_isSink {e : BodyEvent} (h : ¬ e.IsSink) : ¬ e.Last := by
  cases e with
  | read data => exact id
  | sink data fin err => exact absurd trivial h

theorem compact_keeps (s : BodyStream) : Keeps s s.compact := by
  have hnext : Keeps s s.next := by
    unfold BodyStream.next
    split
    · exact ⟨rfl, rfl, rfl, rfl, rfl, rfl⟩
    · split_ifs <;> exact ⟨rfl, rfl, rfl, rfl, rfl, rfl⟩
  have hempty : Keeps s.next s.next.emptied := by
    unfold BodyStream.emptied
    split_ifs <;> exact ⟨rfl, rfl, rfl, rfl, rfl, rfl⟩
  refine (hnext.trans hempty).trans ?_
  unfold BodyStream.compact
  dsimp only
  split_ifs <;> exact ⟨rfl, rfl, rfl, rfl, rfl, rfl⟩

theorem Inv.readOut (h : Inv r) (hs : r.s.sink = false) (hshape : t.Shape) (hwait : data ++ t.waiting = r.s.waiting)
    (hk : Keeps r.s t) : Inv (({ r with log := r.log ++ [BodyEvent.read data] }.setS t).owe data.length) := by
  obtain ⟨hidle, hlog⟩ := h.fresh hs
  have hlast : ∀ e ∈ r.log ++ [BodyEvent.read data], ¬ e.IsSink := by
    intro e he
    rcases mem_append.1 he with he | he
    · exact hlog e he
    · rw [mem_singleton.1 he]
      exact id
  have hsinks := sinks_eq_nil hlog
  have hnone : ∀ e, e ∉ r.job.event := by simp [hidle, Job.event]
  have hover : (({ r with log := r.log ++ [BodyEvent.read data] }.setS t).owe data.length).isOver = r.isOver := by
    simp only [isOver, setS, BodyRun.owe, hk.abandoned, hk.err, hk.ended]
  have hout : reads (r.log ++ [BodyEvent.read data]) ++ sinks (r.log ++ [BodyEvent.read data]) ++ r.job.data =
      r.out ++ data := by
    simp [out, hsinks, hidle, Job.data, readBytes, sinkBytes]
  exact
    { h with
      shape := hshape
      idle := fun _ => hidle
      fresh := fun _ => ⟨hidle, hlast⟩
      bytes := fun ha => by
        show reads (r.log ++ [BodyEvent.read data]) ++ sinks (r.log ++ [BodyEvent.read data]) ++ r.job.data ++
          t.waiting = r.accepted
        rw [hout, append_assoc, hwait]
        exact h.bytes (hk.abandoned ▸ ha)
      dropped := fun ha => by
        obtain ⟨hnil, hpre⟩ := h.dropped (hk.abandoned ▸ ha)
        rw [hnil, append_eq_nil_iff] at hwait
        refine ⟨hwait.2, ?_⟩
        show reads (r.log ++ [BodyEvent.read data]) ++ sinks (r.log ++ [BodyEvent.read data]) ++ r.job.data <+: _
        rw [hout, hwait.1, append_nil]
        exact hpre
      all := fun ho => h.all (hover.symm.trans ho)
      delivered := fun hd => by
        obtain ⟨ho, hnil⟩ := h.delivered (hk.delivered ▸ hd)
        rw [hnil, append_eq_nil_iff] at hwait
        exact ⟨hover.trans ho, hwait.2⟩
      calling := fun e he => absurd he (hnone e)
      undelivered := fun _ e he => not_last_of_not_isSink (hlast e he)
      once := fun pre e post hl he => absurd he (not_last_of_not_isSink (hlast e (by
        rw [show r.log ++ [BodyEvent.read data] = pre ++ e :: post from hl]
        simp)))
      fin := fun e he hf => by
        exfalso
        rcases he with he | he
        · refine not_last_of_not_isSink (hlast e he) ?_
          cases e with
          | read _ => exact hf
          | sink _ _ _ => exact hf.1
        · exact hnone e he
      atEnd := fun he hr ha => h.atEnd (hk.ended ▸ he) (hk.err ▸ hr) (hk.abandoned ▸ ha)
      credit := by
        have := h.credit
        rw [← hwait, length_append] at this
        show r.credited + (r.owing ++ [data.length]).sum + r.job.owes + t.waiting.length = r.pushed.length
        rw [sum_append, sum_singleton]
        omega }

theorem Inv.read (h : Inv r) (n : ℕ) : Inv (r.read n) := by
  unfold BodyRun.read
  split_ifs with hno hlt
  · exact h
  · simp only [Bool.or_eq_true, decide_eq_true_eq, not_or, Bool.not_eq_true] at hno
    have hpre : r.s.unread.take n <+: r.s.unread := take_prefix _ _
    have hlen := hpre.length_le
    rw [length_unread] at hlen
    generalize r.s.unread.take n = data at hpre hlen
    have hle : r.s.read + data.length ≤ r.s.size := by omega
    obtain ⟨hshape, hwait⟩ := compact_spec (s := { r.s with read := r.s.read + data.length })
      hle h.shape.more_ne h.shape.plain
    have hk := compact_keeps { r.s with read := r.s.read + data.length }
    refine h.readOut hno.2 hshape ?_ { hk with }
    rw [hwait, waiting, waiting, ← append_assoc]
    congr 1
    show data ++ (r.s.buf.getD []).drop (r.s.read + data.length) = r.s.unread
    rw [← drop_drop]
    exact (prefix_append_drop hpre).symm
  · exact h

/-- The call `drain` makes next is the last exactly if nothing more will come and nothing is left. -/
theorem callFin_spec (h : Inv r) (ho : r.s.owed = true) (hf : r.s.callFin = true) : r.isOver = true ∧
    r.s.shift.waiting = [] ∧ (r.s.callErr = none → r.s.abandoned = true ∨ r.s.ended = true ∧ r.s.err = none) := by
  obtain ⟨-, hwait, hsize⟩ := shift_spec h.shape
  unfold callFin at hf
  by_cases hu : r.s.unread = []
  · have hm := h.shape.more_of_unread hu
    have hread : ¬ r.s.read < r.s.size := not_lt.2 (drop_eq_nil_iff.1 hu)
    have hwaiting : r.s.waiting = [] := by
      rw [waiting, hu, hm]
      rfl
    rw [hwaiting, append_eq_nil_iff] at hwait
    have hover : r.isOver = true := by
      unfold owed at ho
      split_ifs at ho
      simp only [hread, decide_false, Bool.false_or] at ho
      rw [← ho]
      simp only [isOver, Bool.or_comm, Bool.or_left_comm]
    refine ⟨hover, hwait.2, ?_⟩
    intro herr
    unfold callErr at herr
    rw [if_neg (not_not_intro hu)] at herr
    split_ifs at herr with hab
    simp only [isOver, herr, Option.isSome_none, Bool.or_false, Bool.or_eq_true] at hover
    exact hover.imp id fun he => ⟨he, herr⟩
  · rw [if_pos hu] at hf
    simp only [Bool.and_eq_true, Option.isNone_iff_eq_none, beq_iff_eq] at hf
    refine ⟨by simp [isOver, hf.1.1], hsize hf.2, ?_⟩
    exact fun _ => .inr hf.1

theorem Inv.take (h : Inv r) (hj : r.job = .drain) : Inv r.take := by
  unfold BodyRun.take
  split_ifs with hnone
  · -- nothing to hand on, and another may deliver again
    exact h.goOn false 0 (fun _ => rfl) (.inr rfl) (by simp [hj, Job.data]) rfl rfl (by simp [hj, Job.owes])
  simp only [Bool.or_eq_true, Bool.not_eq_true', not_or, Bool.not_eq_false] at hnone
  obtain ⟨hsink, howed⟩ := hnone
  obtain ⟨hshape, hwait, -⟩ := shift_spec h.shape
  have hcall := callFin_spec h howed
  have hnd : r.s.delivered = false := by
    by_contra hd
    unfold owed at howed
    rw [if_pos (by simpa using hd)] at howed
    exact absurd howed Bool.false_ne_true
  have hlast := h.undelivered hnd
  have hout : reads r.log ++ sinks r.log ++ r.s.unread = r.out ++ r.s.unread := by simp [out, hj, Job.data]
  exact
    { h with
      shape := { hshape with }
      idle := fun hb => absurd (h.idle hb) (by simp [hj])
      fresh := fun hs => absurd hsink (by simp [show r.s.sink = false from hs])
      bytes := fun ha => by
        show reads r.log ++ sinks r.log ++ r.s.unread ++ r.s.shift.waiting = r.accepted
        rw [hout, append_assoc, hwait]
        exact h.bytes ha
      dropped := fun ha => by
        obtain ⟨hnil, hpre⟩ := h.dropped ha
        rw [hnil, append_eq_nil_iff] at hwait
        refine ⟨hwait.2, ?_⟩
        show reads r.log ++ sinks r.log ++ r.s.unread <+: r.accepted
        rw [hout, hwait.1, append_nil]
        exact hpre
      delivered := fun hd => ⟨(hcall hd).1, (hcall hd).2.1⟩
      calling := fun e he => by
        cases he
        exact ⟨Iff.rfl, hlast⟩
      undelivered := fun _ => hlast
      fin := fun e he hf => by
        rcases he with he | he
        · exact h.fin e (.inl he) hf
        · cases he
          exact (hcall hf.1).2.2 hf.2
      credit := by
        have := h.credit
        rw [hj, ← hwait, length_append] at this
        simp only [Job.owes] at this
        show r.credited + r.owing.sum + r.s.unread.length + r.s.shift.waiting.length = r.pushed.length
        omega }

theorem Inv.call (h : Inv r) {fin full : Bool} {err : Option BodyError} (hj : r.job = .call data fin err full) :
    Inv { r with log := r.log ++ [.sink data fin err], job := .credit data.length fin full } := by
  obtain ⟨hfin, hlog⟩ := h.calling (.sink data fin err) (by rw [hj]; rfl)
  obtain ⟨hbusy, hsink⟩ := h.working (by simp [hj])
  have hout : ({ r with log := r.log ++ [.sink data fin err], job := .credit data.length fin full } : BodyRun).out =
      r.out := by
    simp [out, hj, Job.data, readBytes, sinkBytes]
  exact
    { h with
      idle := fun hno => absurd hbusy (by simp [show r.s.sinkBusy = false from hno])
      fresh := fun hno => absurd hsink (by simp [show r.s.sink = false from hno])
      bytes := fun ha => by rw [hout]; exact h.bytes ha
      dropped := fun ha => by rw [hout]; exact h.dropped ha
      calling := fun e he => absurd he nofun
      undelivered := fun hd e he => by
        rcases mem_append.1 he with he | he
        · exact hlog e he
        · rw [mem_singleton.1 he]
          exact fun hl => absurd (hfin.1 hl) (by simp [show r.s.delivered = false from hd])
      once := fun pre e post hl he => by
        rcases eq_nil_or_concat' post with rfl | ⟨post, e', rfl⟩
        · exact fun _ hn => absurd hn not_mem_nil
        rw [← cons_append, ← append_assoc] at hl
        have hpre := (append_inj' hl rfl).1
        refine absurd he (hlog e ?_)
        rw [hpre]
        simp
      fin := fun e he hf => by
        rcases he with he | he
        · rcases mem_append.1 he with he | he
          · exact h.fin e (.inl he) hf
          · exact h.fin e (.inr (by rw [hj, mem_singleton.1 he]; rfl)) hf
        · exact absurd he nofun
      credit := by
        have := h.credit
        rw [hj] at this
        exact this }

theorem recycle_leaves (h : BodyStream.Shape r.s) (fin : Bool) : Leaves r.s (r.s.recycle fin) := by
  obtain ⟨hshape, hwait⟩ := recycle_spec h fin
  have hk : Keeps r.s (r.s.recycle fin) := by
    unfold recycle
    split_ifs <;> exact ⟨rfl, rfl, rfl, rfl, rfl, rfl⟩
  exact { hk with shape := hshape, waiting := hwait, sink := fun hs => hk.sink ▸ hs }

theorem Inv.work (h : Inv r) : Inv r.work := by
  unfold BodyRun.work
  split
  · exact h
  · exact h.take ‹_›
  · exact h.call ‹_›
  · rename_i n fin full hj
    obtain ⟨hbusy, hsink⟩ := h.working (by simp [hj])
    refine h.goOn r.s.sinkBusy n (by simp [hbusy]) (.inl hsink) (by simp [hj, Job.data]) ?_ ?_ ?_
    · split_ifs <;> rfl
    · split_ifs <;> rfl
    · rw [hj]
      split_ifs <;> rfl
  · rename_i fin hj
    have hset := h.leaves (recycle_leaves h.shape fin)
    obtain ⟨hbusy, hsink⟩ := hset.working (by simp [setS, hj])
    exact hset.goOn (r.s.recycle fin).sinkBusy 0 (fun hno => absurd hbusy (by simp [setS, hno]))
      (.inl hsink) (by simp [setS, hj, Job.data]) rfl rfl (by simp [setS, hj, Job.owes])

theorem sum_eraseIdx (l : List ℕ) (i : ℕ) : (l[i]?).getD 0 + (l.eraseIdx i).sum = l.sum := by
  induction l generalizing i with
  | nil => rfl
  | cons n l ih =>
    cases i with
    | zero => rfl
    | succ i =>
      have := ih i
      simp only [List.getElem?_cons_succ, eraseIdx_cons_succ, sum_cons]
      omega

theorem Inv.settle (h : Inv r) (i : ℕ) : Inv (r.settle i) :=
  { h with
    credit := by
      have := h.credit
      have hsum := sum_eraseIdx r.owing i
      show r.credited + (r.owing[i]?).getD 0 + (r.owing.eraseIdx i).sum + r.job.owes + r.s.waiting.length =
        r.pushed.length
      omega }

theorem Inv.step (h : Inv r) (op : BodyOp) : Inv (r.step op) := by
  cases op with
  | push data => exact h.push data
  | finish => exact h.finish
  | fail err => exact h.fail err
  | failElsewhere err => exact h.failElsewhere err
  | setSink reserve => exact h.setSink reserve
  | holdSink hold => exact h.holdSink hold
  | close => exact h.close
  | abandon => exact h.abandon
  | read n => exact h.read n
  | work => exact h.work
  | settle i => exact h.settle i

theorem inv_init (offload : Bool) (highWater : ℕ) : Inv (machine offload highWater).init where
  shape := ⟨.inr rfl, fun c hc => absurd hc not_mem_nil, fun hne => absurd rfl hne, fun _ => rfl⟩
  idle _ := rfl
  fresh _ := ⟨rfl, fun e he => absurd he not_mem_nil⟩
  bytes _ := rfl
  dropped := nofun
  accepted := prefix_rfl
  all _ := rfl
  delivered := nofun
  calling := fun e he => absurd he nofun
  undelivered := fun _ e he => absurd he not_mem_nil
  once := fun pre e post hl => absurd hl.symm (by simp [machine])
  fin := fun e he => he.elim (fun h => absurd h not_mem_nil) fun h => absurd h nofun
  atEnd := nofun
  credit := rfl

end BodyRun
end Fib.Http
