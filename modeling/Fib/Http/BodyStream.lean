import Fib.Lib.Bytes
import Fib.Lib.Runs

/-! A request body taken as it arrives (`BodyStream`, http/body.go): bytes pushed by the connection,
read by the handler or handed to its sink by whichever goroutine holds that job. A region under the
body's lock is one step; so is each call made between two of them, to the sink or to `credit`. -/

namespace Fib.Http
open List

inductive BodyError where
  | eof | unexpectedEOF | abandoned | heldTooLong
  | other (n : ℕ)
deriving DecidableEq

/-- The body's buffers are their contents; of the spare it matters only whether there is one. -/
structure BodyStream where
  offload : Bool
  highWater : ℕ
  buf : Option Bytes := none
  read : ℕ := 0
  spare : Bool := false
  more : List Bytes := []
  held : Bool := false
  ended : Bool := false
  err : Option BodyError := none
  abandoned : Bool := false
  sink : Bool := false
  sinkBusy : Bool := false
  delivered : Bool := false
  sinkHeld : Bool := false
deriving DecidableEq

def streamChunk : ℕ := 64 * 1024

namespace BodyStream
variable (s : BodyStream)

def size : ℕ := (s.buf.getD []).length

def unread : Bytes := (s.buf.getD []).drop s.read

def waiting : Bytes := s.unread ++ s.more.flatten

def owed : Bool :=
  if s.delivered then false
  else if s.sinkHeld && !s.abandoned && s.err.isNone then false
  else s.read < s.size || s.ended || s.err.isSome || s.abandoned

def release : BodyStream := { s with held := false }

/-- The loop that fills the last chunk and starts another when it is full. -/
def spread : ℕ → Bytes → List Bytes → Bytes → Bytes × List Bytes
  | _, buf, more, [] => (buf, more)
  | 0, buf, more, _ => (buf, more)
  | fuel + 1, buf, more, data =>
    match more.getLast? with
    | none =>
      let room := streamChunk - buf.length
      if room = 0 then spread fuel buf [data.take streamChunk] (data.drop streamChunk)
      else spread fuel (buf ++ data.take room) [] (data.drop room)
    | some tail =>
      let room := streamChunk - tail.length
      if room = 0 then spread fuel buf (more ++ [data.take streamChunk]) (data.drop streamChunk)
      else spread fuel buf (more.dropLast ++ [tail ++ data.take room]) (data.drop room)

def append (data : Bytes) : BodyStream :=
  let s := if s.buf.isNone && s.spare then { s with buf := some [], spare := false } else s
  if s.offload then
    let r := spread data.length (s.buf.getD []) s.more data
    { s with buf := some r.1, more := r.2 }
  else { s with buf := some (s.buf.getD [] ++ data) }

/-- Moves on to the next chunk once the first has all been handed out. -/
def next : BodyStream :=
  match s.more with
  | [] => s
  | c :: more => if s.read < s.size then s else { s with buf := some c, read := 0, more := more, spare := true }

/-- A buffer that has all been read is kept for more, unless there will be none. -/
def emptied : BodyStream :=
  if s.read = s.size then { s with buf := if s.ended || s.err.isSome then none else s.buf.map fun _ => [], read := 0 }
  else s

def compact : BodyStream :=
  let s := s.next.emptied
  if s.held && s.size - s.read ≤ s.highWater / 2 then s.release else s

def drop : BodyStream := { s with buf := none, read := 0, spare := false, more := [] }

def shift : BodyStream := { s with buf := s.more.head?, read := 0, more := s.more.tail, held := false }

/-- Whether the call with what is unread is the last: the body's end goes with its last bytes, an error on a
call of its own. -/
def callFin : Bool := if s.unread ≠ [] then s.ended && s.err.isNone && s.shift.size == 0 else true

def callErr : Option BodyError :=
  if s.unread ≠ [] then none
  else if s.abandoned && !s.ended && s.err.isNone then some .abandoned else s.err

/-- The sink is done with a buffer it was handed (`full`), `last` with the last call's. -/
def recycle (last : Bool) : BodyStream :=
  if last || s.abandoned then
    let s := if s.read = s.size then { s with buf := none, read := 0 } else s
    { s with spare := false }
  else if s.buf.isNone then { s with buf := some [] }
  else { s with spare := true }

end BodyStream

/-- What the goroutine that hands the body to the sink does next. -/
inductive Job where
  | idle
  | drain
  | call (data : Bytes) (fin : Bool) (err : Option BodyError) (full : Bool)
  | credit (n : ℕ) (fin full : Bool)
  | recycle (fin : Bool)
deriving DecidableEq

inductive BodyEvent where
  | read (data : Bytes)
  | sink (data : Bytes) (fin : Bool) (err : Option BodyError)
deriving DecidableEq

inductive BodyOp where
  | push (data : Bytes)
  | finish
  | fail (err : Option BodyError)
  | failElsewhere (err : BodyError)
  | setSink (reserve : Bool)
  | holdSink (hold : Bool)
  | close
  | abandon
  | read (n : ℕ)
  /-- The next step of the goroutine that has the job of the sink. -/
  | work
  /-- A goroutine that let go of the lock makes the call to `credit` it owes, the `i`-th of those owed. -/
  | settle (i : ℕ)
deriving DecidableEq

structure BodyRun where
  s : BodyStream
  job : Job := .idle
  log : List BodyEvent := []
  pushed : Bytes := []
  /-- What was pushed while somebody could still want it. -/
  accepted : Bytes := []
  /-- What had been pushed when the body ended. -/
  atEnd : Option Bytes := none
  credited : ℕ := 0
  owing : List ℕ := []
deriving DecidableEq

namespace BodyRun
variable (r : BodyRun)

/-- `deliverLocked`: takes the job of the sink, if it is owed something and nobody has it. -/
def deliver : BodyRun :=
  if r.s.sink && !r.s.sinkBusy && r.s.owed then { r with s := { r.s with sinkBusy := true }, job := .drain } else r

def setS (s : BodyStream) : BodyRun := { r with s := s }

def owe (n : ℕ) : BodyRun := { r with owing := r.owing ++ [n] }

def push (data : Bytes) : BodyRun :=
  let r := { r with pushed := r.pushed ++ data }
  if r.s.abandoned || r.s.err.isSome || r.s.ended then r.owe data.length
  else
    let r := { r with accepted := r.accepted ++ data }
    if r.s.sink && !r.s.sinkBusy && !r.s.sinkHeld && !r.s.offload && r.s.read == r.s.size then
      -- nothing waits ahead of it, so it goes straight to the sink
      { r with s := { r.s with sinkBusy := true }, job := .call data false none false }
    else
      let s := r.s.append data
      (r.setS (if !s.held && s.size - s.read ≥ s.highWater then { s with held := true } else s)).deliver

def finish : BodyRun :=
  let atEnd := if r.s.ended then r.atEnd else some r.pushed
  (({ r with atEnd := atEnd }).setS { r.s with ended := true, held := false }).deliver

def setErr (err : BodyError) : BodyRun :=
  r.setS { r.s with err := if r.s.err.isNone && !r.s.ended then some err else r.s.err, held := false }

def fail (err : Option BodyError) : BodyRun :=
  (r.setErr (if err = none ∨ err = some .eof then .unexpectedEOF else err.getD .unexpectedEOF)).deliver

def failElsewhere (err : BodyError) : BodyRun :=
  if r.s.ended || r.s.err.isSome || r.s.abandoned then r else (r.setErr err).deliver

def setSink (reserve : Bool) : BodyRun :=
  let r := r.setS { r.s with sink := true }
  if r.s.sinkBusy || (!reserve && !r.s.owed) then r
  else { r with s := { r.s with sinkBusy := true }, job := .drain }

def holdSink (hold : Bool) : BodyRun :=
  let r := r.setS { r.s with sinkHeld := hold }
  if hold then r else r.deliver

def abandon : BodyRun :=
  ((r.setS { r.s.drop with abandoned := true, held := false }).deliver).owe r.s.waiting.length

def close : BodyRun := if r.s.abandoned then r.deliver else r.abandon

def read (n : ℕ) : BodyRun :=
  if n = 0 || r.s.sink then r
  else if r.s.read < r.s.size then
    let data := r.s.unread.take n
    let r := { r with log := r.log ++ [BodyEvent.read data] }
    (r.setS { r.s with read := r.s.read + data.length }.compact).owe data.length
  else r

/-- The locked region at the top of the loop of `drain`. -/
def take : BodyRun :=
  if !r.s.sink || !r.s.owed then { r with s := { r.s with sinkBusy := false }, job := .idle }
  else
    { r with s := { r.s.shift with delivered := r.s.callFin },
             job := .call r.s.unread r.s.callFin r.s.callErr r.s.buf.isSome }

def work : BodyRun :=
  match r.job with
  | .idle => r
  | .drain => r.take
  | .call data fin err full => { r with log := r.log ++ [.sink data fin err], job := .credit data.length fin full }
  | .credit n fin full =>
    { r with credited := r.credited + n, job := if full || fin then .recycle fin else .drain }
  | .recycle fin => { r with s := r.s.recycle fin, job := .drain }

def settle (i : ℕ) : BodyRun :=
  { r with credited := r.credited + (r.owing[i]?).getD 0, owing := r.owing.eraseIdx i }

def step (r : BodyRun) : BodyOp → BodyRun
  | .push data => r.push data
  | .finish => r.finish
  | .fail err => r.fail err
  | .failElsewhere err => r.failElsewhere err
  | .setSink reserve => r.setSink reserve
  | .holdSink hold => r.holdSink hold
  | .close => r.close
  | .abandon => r.abandon
  | .read n => r.read n
  | .work => r.work
  | .settle i => r.settle i

def machine (offload : Bool) (highWater : ℕ) : Machine BodyRun BodyOp :=
  ⟨{ s := { offload := offload, highWater := highWater } }, step⟩

end BodyRun

/-! ### The buffers -/

namespace BodyStream
variable {s : BodyStream}

/-- Chunks beyond the first buffer hold something, and are there only behind something unread. -/
structure Shape (s : BodyStream) : Prop where
  read_lt : s.read < s.size ∨ s.read = 0
  more_ne : ∀ c ∈ s.more, c ≠ []
  first : s.more ≠ [] → s.read < s.size
  plain : s.offload = false → s.more = []

theorem length_unread (s : BodyStream) : s.unread.length = s.size - s.read := length_drop

theorem Shape.read_le (h : Shape s) : s.read ≤ s.size := by
  rcases h.read_lt with h | h <;> omega

theorem Shape.more_nil (h : Shape s) (he : s.size ≤ s.read) : s.more = [] := by
  by_contra hne
  exact absurd (h.first hne) (not_lt.2 he)

theorem Shape.waiting_nil (h : Shape s) (he : s.size ≤ s.read) : s.waiting = [] := by
  have hunread : s.unread = [] := drop_eq_nil_of_le he
  rw [waiting, hunread, h.more_nil he]
  rfl

theorem Shape.more_of_unread (h : Shape s) (he : s.unread = []) : s.more = [] :=
  h.more_nil (drop_eq_nil_iff.1 he)

/-- What the loop over chunks leaves: everything in order, in chunks that hold something. -/
theorem spread_spec (fuel : ℕ) (buf : Bytes) (more : List Bytes) (data : Bytes) (hf : data.length ≤ fuel)
    (hne : ∀ c ∈ more, c ≠ []) (hfirst : more ≠ [] → buf ≠ []) :
    (spread fuel buf more data).1 ++ (spread fuel buf more data).2.flatten = buf ++ more.flatten ++ data ∧
      buf <+: (spread fuel buf more data).1 ∧ (∀ c ∈ (spread fuel buf more data).2, c ≠ []) ∧
      ((spread fuel buf more data).2 ≠ [] → (spread fuel buf more data).1 ≠ []) := by
  have hchunk : streamChunk ≠ 0 := by decide
  induction fuel generalizing buf more data with
  | zero =>
    obtain rfl := length_eq_zero_iff.1 (Nat.le_zero.1 hf)
    exact ⟨by simp [spread], prefix_rfl, hne, hfirst⟩
  | succ fuel ih =>
    cases data with
    | nil => exact ⟨by simp [spread], prefix_rfl, hne, hfirst⟩
    | cons d data =>
      have hshort : ∀ n, n ≠ 0 → ((d :: data).drop n).length ≤ fuel := by
        intro n hn
        rw [length_drop]
        simp only [length_cons] at hf ⊢
        omega
      have htake : ∀ n, n ≠ 0 → (d :: data).take n ≠ [] := by
        intro n hn he
        rcases take_eq_nil_iff.1 he with h | h
        · exact hn h
        · exact absurd h (cons_ne_nil _ _)
      cases hlast : more.getLast? with
      | none =>
        obtain rfl := List.getLast?_eq_none_iff.1 hlast
        rw [spread, hlast]
        · by_cases hroom : streamChunk - buf.length = 0
          · rw [if_pos hroom]
            have hbuf : buf ≠ [] := by
              rintro rfl
              exact hchunk hroom
            obtain ⟨hflat, hpre, hne', hfirst'⟩ := ih buf [(d :: data).take streamChunk]
              ((d :: data).drop streamChunk) (hshort _ hchunk) (by simpa using htake _ hchunk) fun _ => hbuf
            refine ⟨?_, hpre, hne', hfirst'⟩
            rw [hflat]
            simp
          · rw [if_neg hroom]
            obtain ⟨hflat, hpre, hne', hfirst'⟩ := ih (buf ++ (d :: data).take (streamChunk - buf.length)) []
              ((d :: data).drop (streamChunk - buf.length)) (hshort _ hroom) (by simp) (by simp)
            refine ⟨?_, (prefix_append _ _).trans hpre, hne', hfirst'⟩
            rw [hflat]
            simp
        · exact cons_ne_nil _ _
      | some tail =>
        have hmore : more = more.dropLast ++ [tail] := (dropLast_append_getLast? tail hlast).symm
        rw [spread, hlast]
        · dsimp only
          by_cases hroom : streamChunk - tail.length = 0
          · rw [if_pos hroom]
            obtain ⟨hflat, hpre, hne', hfirst'⟩ := ih buf (more ++ [(d :: data).take streamChunk])
              ((d :: data).drop streamChunk) (hshort _ hchunk)
              (by
                intro c hc
                rcases mem_append.1 hc with hc | hc
                · exact hne c hc
                · rw [mem_singleton.1 hc]
                  exact htake _ hchunk)
              fun _ => hfirst (by rw [hmore]; simp)
            refine ⟨?_, hpre, hne', hfirst'⟩
            rw [hflat]
            simp
          · rw [if_neg hroom]
            obtain ⟨hflat, hpre, hne', hfirst'⟩ := ih buf
              (more.dropLast ++ [tail ++ (d :: data).take (streamChunk - tail.length)])
              ((d :: data).drop (streamChunk - tail.length)) (hshort _ hroom)
              (by
                intro c hc
                rcases mem_append.1 hc with hc | hc
                · exact hne c (mem_of_mem_dropLast hc)
                · rw [mem_singleton.1 hc]
                  exact append_ne_nil_of_right_ne_nil _ (htake _ hroom))
              fun _ => hfirst (by rw [hmore]; simp)
            refine ⟨?_, hpre, hne', hfirst'⟩
            rw [hflat]
            conv_rhs => rw [hmore]
            simp
        · exact cons_ne_nil _ _

theorem Shape.same {t : BodyStream} (h : Shape s) (hb : t.buf.getD [] = s.buf.getD []) (hr : t.read = s.read)
    (hm : t.more = s.more) (ho : t.offload = s.offload) : Shape t ∧ t.waiting = s.waiting := by
  refine ⟨⟨?_, ?_, ?_, ?_⟩, ?_⟩
  · rw [size, hb, hr]
    exact h.read_lt
  · rw [hm]
    exact h.more_ne
  · rw [hm, size, hb, hr]
    exact h.first
  · rw [ho, hm]
    exact h.plain
  · rw [waiting, unread, hb, hr, hm]
    rfl

theorem append_spec (h : Shape s) (data : Bytes) :
    Shape (s.append data) ∧ (s.append data).waiting = s.waiting ++ data := by
  unfold append
  dsimp only
  generalize ht : (if (s.buf.isNone && s.spare) = true then { s with buf := some [], spare := false } else s) = t
  obtain ⟨hshape, hwait⟩ : Shape t ∧ t.waiting = s.waiting := by
    rw [← ht]
    split_ifs with hspare
    · refine h.same ?_ rfl rfl rfl
      simp only [Bool.and_eq_true, Option.isNone_iff_eq_none] at hspare
      rw [hspare.1]
      rfl
    · exact h.same rfl rfl rfl rfl
  rw [← hwait]
  have hread : t.read ≤ (t.buf.getD []).length := hshape.read_le
  split_ifs with hoff
  · obtain ⟨hflat, hpre, hne, hfirst⟩ := spread_spec data.length (t.buf.getD []) t.more data le_rfl hshape.more_ne
      fun hm he => by
        have := hshape.first hm
        simp only [size, he, length_nil] at this
        omega
    have hsize := hpre.length_le
    refine ⟨⟨?_, hne, ?_, ?_⟩, ?_⟩
    · exact hshape.read_lt.imp (fun hlt => lt_of_lt_of_le hlt hsize) id
    · intro hm
      rcases hshape.read_lt with hlt | hzero
      · exact lt_of_lt_of_le hlt hsize
      · show t.read < _
        rw [hzero]
        exact length_pos_iff.2 (hfirst hm)
    · intro hno
      simp [show t.offload = false from hno] at hoff
    · simp only [waiting, unread, Option.getD_some]
      have hdrop : ∀ l : Bytes, t.read ≤ l.length → ∀ m : Bytes, l.drop t.read ++ m = (l ++ m).drop t.read :=
        fun l hl m => (drop_append_of_le_length hl).symm
      rw [hdrop _ (hread.trans hsize), hflat, append_assoc, drop_append_of_le_length hread, append_assoc]
  · have hm := hshape.plain (by simpa using hoff)
    have hsize : t.size ≤ (t.buf.getD [] ++ data).length := by rw [length_append]; exact Nat.le_add_right _ _
    refine ⟨⟨?_, ?_, ?_, ?_⟩, ?_⟩
    · exact hshape.read_lt.imp (fun hlt => lt_of_lt_of_le hlt hsize) id
    · exact hshape.more_ne
    · exact fun hne => absurd hm hne
    · exact fun _ => hm
    · simp only [waiting, unread, Option.getD_some, hm, flatten_nil, append_nil]
      exact drop_append_of_le_length hread

section
variable (hr : s.read ≤ s.size) (hne : ∀ c ∈ s.more, c ≠ [])
include hr hne

theorem emptied_spec (hfirst : s.more ≠ [] → s.read < s.size)
    (hplain : s.offload = false → s.more = []) : Shape s.emptied ∧ s.emptied.waiting = s.waiting := by
  unfold emptied
  by_cases he : s.read = s.size
  · rw [if_pos he]
    have hm : s.more = [] := by
      by_contra hmore
      exact absurd (hfirst hmore) (by omega)
    have hwait : s.waiting = [] := by
      rw [waiting, unread, drop_eq_nil_of_le (le_of_eq he.symm), hm]
      rfl
    have hbuf : (if s.ended || s.err.isSome then none else s.buf.map fun _ => ([] : Bytes)).getD [] = [] := by
      split_ifs
      · rfl
      · cases s.buf <;> rfl
    refine ⟨⟨.inr rfl, hne, fun hmore => absurd hm hmore, hplain⟩, ?_⟩
    rw [hwait]
    simp only [waiting, unread, hbuf, hm]
    rfl
  · rw [if_neg he]
    exact ⟨⟨.inl (by omega), hne, hfirst, hplain⟩, rfl⟩

/-- Taking bytes off the buffer leaves the rest, on the next chunk once the buffer is empty. -/
theorem compact_spec (hplain : s.offload = false → s.more = []) : Shape s.compact ∧ s.compact.waiting = s.waiting := by
  obtain ⟨hshape, hwait⟩ : Shape s.next.emptied ∧ s.next.emptied.waiting = s.waiting := by
    unfold next
    split
    · rename_i hm
      exact emptied_spec hr hne (fun hmore => absurd hm hmore) hplain
    rename_i c more hm
    split_ifs with hlt
    · exact emptied_spec hr hne (fun _ => hlt) hplain
    rw [hm] at hne hplain
    obtain ⟨hshape, hwait⟩ := emptied_spec (s := { s with buf := some c, read := 0, more := more, spare := true })
      (Nat.zero_le _) (fun d hd => hne d (mem_cons_of_mem _ hd))
      (fun _ => length_pos_iff.2 (hne c mem_cons_self))
      (fun ho => absurd (hplain ho) (cons_ne_nil _ _))
    refine ⟨hshape, hwait.trans ?_⟩
    have hunread : s.unread = [] := drop_eq_nil_of_le (not_lt.1 hlt)
    simp only [waiting, hunread, hm, flatten_cons, nil_append]
    rfl
  unfold compact
  dsimp only
  split_ifs
  · obtain ⟨hs, hw⟩ := hshape.same (t := s.next.emptied.release) rfl rfl rfl rfl
    exact ⟨hs, hw.trans hwait⟩
  · exact ⟨hshape, hwait⟩

end

theorem shift_spec (h : Shape s) : Shape s.shift ∧ s.unread ++ s.shift.waiting = s.waiting ∧
    (s.shift.size = 0 → s.shift.waiting = []) := by
  have hwait : s.shift.waiting = s.more.flatten := by
    simp only [shift, waiting, unread, drop_zero]
    cases s.more with
    | nil => rfl
    | cons c more => rfl
  have hne := h.more_ne
  refine ⟨⟨.inr rfl, fun c hc => hne c (mem_of_mem_tail hc), ?_, ?_⟩, ?_, ?_⟩
  · intro htail
    show 0 < (s.more.head?.getD []).length
    cases hm : s.more with
    | nil => exact absurd (by simp [shift, hm]) htail
    | cons c more =>
      rw [hm] at hne
      exact length_pos_iff.2 (hne c mem_cons_self)
  · intro ho
    show s.more.tail = []
    rw [h.plain ho]
    rfl
  · rw [hwait]
    rfl
  · intro hsize
    rw [hwait]
    cases hm : s.more with
    | nil => rfl
    | cons c more =>
      rw [hm] at hne
      have hlen : (s.more.head?.getD []).length = 0 := hsize
      rw [hm] at hlen
      exact absurd (length_eq_zero_iff.1 hlen) (hne c mem_cons_self)

theorem recycle_spec (h : Shape s) (last : Bool) : Shape (s.recycle last) ∧ (s.recycle last).waiting = s.waiting := by
  unfold recycle
  split_ifs with hlast hread hnone
  · have hm := h.more_nil hread.ge
    refine ⟨⟨.inr rfl, h.more_ne, fun hmore => absurd hm hmore, h.plain⟩, ?_⟩
    rw [h.waiting_nil hread.ge]
    simp only [waiting, unread, Option.getD_none, hm]
    rfl
  · exact h.same rfl rfl rfl rfl
  · refine h.same ?_ rfl rfl rfl
    rw [Option.isNone_iff_eq_none.1 hnone]
    rfl
  · exact h.same rfl rfl rfl rfl

end BodyStream
end Fib.Http
