import Fib.Hpack.Decoder
import Fib.Http2.Crossing

/-! Header blocks on their way to the HPACK decoder. Either side of a connection puts them together from HEADERS and
CONTINUATION frames, and has to decode every one of them to keep its dynamic table in step with the peer's, whatever
becomes of the stream. The client does; the server returns without decoding the block of a HEADERS whose stream is
said to depend on itself. -/

namespace Fib.Http2
open Fib.Hpack

inductive FrameType where
  | data
  | headers
  | continuation
  | settings
  | pushPromise
  | other
deriving DecidableEq

/-- `h2Frame`, its payload as it comes or without its padding. -/
structure BlockFrame where
  typ : FrameType
  streamID : ℕ
  payload : Bytes
  padded : Bool := false
  priority : Bool := false
  endHeaders : Bool := false
  ack : Bool := false
deriving DecidableEq

namespace BlockFrame

/-- `h2ReadFrame`, once a frame is there whole: the padding is taken off; `none` ends the connection. -/
def read (maxFrame : ℕ) (f : BlockFrame) : Option BlockFrame :=
  if maxFrame < f.payload.length then none
  else if f.padded = true ∧ (f.typ = .data ∨ f.typ = .headers ∨ f.typ = .pushPromise) then
    match f.payload with
    | [] => none
    | pad :: rest =>
      if rest.length + 1 ≤ pad.toNat then none else some { f with payload := rest.take (rest.length - pad.toNat) }
  else some f

/-- The header block fragment of a HEADERS: what follows the priority fields. -/
def fragment (f : BlockFrame) : Bytes := if f.priority then f.payload.drop 5 else f.payload

def dependency (f : BlockFrame) : ℕ := ((f.payload.take 4).foldl (fun n b => n * 256 + b.toNat) 0) % 2 ^ 31

end BlockFrame

/-- Which side reads. The server looks at what a stream depends on, and at whose the stream is. -/
inductive Side where
  | server
  | client
deriving DecidableEq

structure BlockLimits where
  side : Side
  maxFrame : ℕ := 16384
  /-- `MaxHeaderBytes`, or `MaxResponseHeaderBytes`. -/
  maxHeaderBytes : ℕ := 1048576
  maxContFrames : ℕ := 64
deriving DecidableEq

/-- What else decides on a frame: whether the connection's buckets are empty, and what the stream makes of the
decoded block, or the connection of a frame of another type. -/
structure Fate where
  glitch : Bool := false
  counted : Bool := false
  rest : Option FrameErr := none
deriving DecidableEq

/-- The part of a connection that puts header blocks together. -/
structure BlockReader where
  dec : Decoder
  gotSettings : Bool := false
  /-- Zero when no block is under way. -/
  contStream : ℕ := 0
  contBlock : Bytes := []
  contFrames : ℕ := 0
  ended : Bool := false
deriving DecidableEq

open BlockReader

namespace BlockReader
variable (huffman : Bytes → ℕ → Except Err Bytes) (l : BlockLimits) (r : BlockReader) (fate : Fate) (f : BlockFrame)

def handleHeaderBlock (block : Bytes) : BlockReader × Option FrameErr :=
  let d := r.dec.decode huffman block
  ({ r with dec := d.decoder }, if d.err.isSome then some .connection else fate.rest)

/-- `handleHeaders` of the server, and the HEADERS case of the client's `handleFrame`. -/
def handleHeaders : BlockReader × Option FrameErr :=
  if f.streamID = 0 ∨ (l.side = .server ∧ f.streamID % 2 = 0) then (r, some .connection)
  else if f.priority = true ∧ f.payload.length < 5 then (r, some .connection)
  else if l.side = .server ∧ f.priority = true ∧ f.dependency = f.streamID then (r, some .stream)
  else if f.endHeaders = false then
    if l.maxHeaderBytes < f.fragment.length then (r, some .connection)
    else if f.fragment = [] ∧ fate.glitch = true then (r, some .connection)
    else ({ r with contStream := f.streamID, contBlock := f.fragment, contFrames := 0 }, none)
  else r.handleHeaderBlock huffman fate f.fragment

/-- `handleContinuation` of the server, and that case of the client's `handleFrame`. -/
def handleContinuation : BlockReader × Option FrameErr :=
  if r.contStream = 0 then (r, some .connection)
  else
    let r := { r with contBlock := r.contBlock ++ f.payload }
    if l.maxHeaderBytes < r.contBlock.length then (r, some .connection)
    else
      let r := { r with contFrames := r.contFrames + 1 }
      if l.maxContFrames < r.contFrames then (r, some .connection)
      else if f.endHeaders = false then
        (r, if f.payload = [] ∧ fate.glitch = true then some .connection else none)
      else { r with contStream := 0 }.handleHeaderBlock huffman fate r.contBlock

/-- The acknowledgement of SETTINGS, which may lower what the decoder allows, is left out. -/
def handleFrame : BlockReader × Option FrameErr :=
  if r.contStream ≠ 0 ∧ (f.typ ≠ .continuation ∨ f.streamID ≠ r.contStream) then (r, some .connection)
  else if r.gotSettings = false ∧ (f.typ ≠ .settings ∨ f.ack = true) then (r, some .connection)
  else
    let r := { r with gotSettings := true }
    match f.typ with
    | .headers => r.handleHeaders huffman l fate f
    | .continuation => r.handleContinuation huffman l fate f
    | .pushPromise => (r, some .connection)
    | _ => (r, fate.rest)

/-- A frame of `feed`, with `handleError`: the server also counts the streams it resets. -/
def receive : BlockReader :=
  if r.ended then r
  else
    match f.read l.maxFrame with
    | none => { r with ended := true }
    | some f =>
      let h := r.handleFrame huffman l fate f
      match h.2 with
      | none => h.1
      | some .stream => { h.1 with ended := l.side = .server && fate.counted }
      | some .connection => { h.1 with ended := true }

end BlockReader

/-- The header blocks among the frames received: what a HEADERS and the CONTINUATIONs after it carry. -/
structure Assembly where
  pending : Option (ℕ × Bytes) := none
  blocks : List Bytes := []
deriving DecidableEq

open Assembly

namespace Assembly

def take (a : Assembly) (f : BlockFrame) : Assembly :=
  match f.typ, a.pending with
  | .headers, _ =>
    if f.endHeaders then ⟨none, a.blocks ++ [f.fragment]⟩ else { a with pending := some (f.streamID, f.fragment) }
  | .continuation, some (id, block) =>
    if f.streamID ≠ id then a
    else if f.endHeaders then ⟨none, a.blocks ++ [block ++ f.payload]⟩
    else { a with pending := some (id, block ++ f.payload) }
  | _, _ => a

end Assembly

structure BlockRun where
  reader : BlockReader
  seen : Assembly := {}

namespace BlockRun
variable (huffman : Bytes → ℕ → Except Err Bytes) (l : BlockLimits)
section
variable (dec : Decoder) (s : BlockRun)

def step (op : BlockFrame × Fate) : BlockRun :=
  if s.reader.ended then s
  else
    { reader := s.reader.receive huffman l op.2 op.1
      seen := ((op.1.read l.maxFrame).map s.seen.take).getD s.seen }

def machine : Machine BlockRun (BlockFrame × Fate) where
  init := { reader := { dec := dec } }
  step := step huffman l

/-- A decoder given the blocks in order. -/
def reference (blocks : List Bytes) : Decoder :=
  blocks.foldl (fun d block => (d.decode huffman block).decoder) dec

/-- As long as the connection has not ended, its decoder is where one given every block is. -/
def InStep : Prop :=
  s.reader.ended = false → s.reader.dec = reference huffman dec s.seen.blocks

/-- The block of a HEADERS, its padding gone, that the server answers by resetting the stream, because it is said to
depend on itself. -/
def selfDependent (f : BlockFrame) : Option Bytes :=
  if l.side = .server ∧ f.typ = .headers ∧ f.priority = true ∧ f.endHeaders = true ∧ f.dependency = f.streamID then
    some f.fragment
  else none

/-- A HEADERS whose stream depends on itself ends the connection, or carries a block that leaves the decoder as it
is. -/
def Harmless (op : BlockFrame × Fate) : Prop :=
  (s.step huffman l op).reader.ended = false → ∀ block, (op.1.read l.maxFrame).bind (selfDependent l) = some block →
    (s.reader.dec.decode huffman block).decoder = s.reader.dec

/-- A block under way at the reader is the one the frames have left off in. -/
def Pending (r : BlockReader) (a : Assembly) : Prop :=
  r.contStream ≠ 0 → a.pending = some (r.contStream, r.contBlock)

end

/-- What a frame comes to that does not end the connection: no block is complete; one is, and decoded; or one is, and
skipped. -/
inductive Outcome (dec : Decoder) (a : Assembly) (f : BlockFrame) : BlockReader → Option FrameErr → Prop
  | none (r' : BlockReader) (err : Option FrameErr) (hdec : r'.dec = dec) (hpend : Pending r' (a.take f))
      (hblocks : (a.take f).blocks = a.blocks) (hself : selfDependent l f = .none) : Outcome dec a f r' err
  | decoded (r' : BlockReader) (err : Option FrameErr) (block : Bytes)
      (hdec : r'.dec = (dec.decode huffman block).decoder) (hpend : Pending r' (a.take f))
      (hblocks : (a.take f).blocks = a.blocks ++ [block]) (hself : selfDependent l f = .none) : Outcome dec a f r' err
  | skipped (r' : BlockReader) (block : Bytes) (hdec : r'.dec = dec) (hpend : Pending r' (a.take f))
      (hblocks : (a.take f).blocks = a.blocks ++ [block]) (hself : selfDependent l f = some block) :
      Outcome dec a f r' (some .stream)
  | connection (r' : BlockReader) : Outcome dec a f r' (some .connection)

variable {huffman l} {s : BlockRun} {op : BlockFrame × Fate} {dec : Decoder}

@[simp] theorem reference_snoc (blocks : List Bytes) (block : Bytes) :
    reference huffman dec (blocks ++ [block]) = ((reference huffman dec blocks).decode huffman block).decoder := by
  simp [reference]

variable {r : BlockReader} {a : Assembly} {f : BlockFrame} {fate : Fate}

theorem outcome_handleHeaders (ht : f.typ = .headers) (hc : r.contStream = 0) :
    Outcome huffman l r.dec a f (r.handleHeaders huffman l fate f).1 (r.handleHeaders huffman l fate f).2 := by
  unfold handleHeaders
  split_ifs with hid hlen hself hend hbig hglitch
  · exact .connection _
  · exact .connection _
  · -- the stream is reset, with its block if that is whole
    cases hend : f.endHeaders with
    | true =>
      refine .skipped _ f.fragment rfl (fun h => absurd hc h) ?_ ?_
      · simp [take, ht, hend]
      · simp [selfDependent, ht, hend, hself]
    | false =>
      refine .none _ _ rfl (fun h => absurd hc h) ?_ ?_
      · simp [take, ht, hend]
      · simp [selfDependent, hend]
  · exact .connection _
  · exact .connection _
  · refine .none _ _ rfl (fun _ => ?_) ?_ ?_
    · simp [take, ht, hend]
    · simp [take, ht, hend]
    · simp [selfDependent, hend]
  · have hend : f.endHeaders = true := by simpa using hend
    refine .decoded _ _ f.fragment rfl (fun h => absurd hc h) ?_ ?_
    · simp [take, ht, hend]
    · simp only [selfDependent]
      rw [if_neg]
      tauto

theorem outcome_handleContinuation (ht : f.typ = .continuation) (hp : Pending r a)
    (hid : r.contStream ≠ 0 → f.streamID = r.contStream) :
    Outcome huffman l r.dec a f (r.handleContinuation huffman l fate f).1
      (r.handleContinuation huffman l fate f).2 := by
  have hself : selfDependent l f = none := by simp [selfDependent, ht]
  unfold handleContinuation
  by_cases hc : r.contStream = 0
  · simp only [hc, if_true]
    exact .connection _
  have hpend := hp hc
  simp only [hc, if_false]
  cases hend : f.endHeaders with
  | false =>
    simp only [if_true]
    split_ifs
    · exact .connection _
    · exact .connection _
    · exact .connection _
    · refine .none _ _ rfl (fun _ => ?_) ?_ hself
      · simp [take, ht, hpend, hid hc, hend]
      · simp [take, ht, hpend, hid hc, hend]
  | true =>
    simp only [Bool.true_eq_false, if_false]
    split_ifs
    · exact .connection _
    · exact .connection _
    · refine .decoded _ _ (r.contBlock ++ f.payload) rfl (fun h => absurd rfl h) ?_ hself
      simp [take, ht, hpend, hid hc, hend]

theorem outcome_handleFrame (hp : Pending r a) :
    Outcome huffman l r.dec a f (r.handleFrame huffman l fate f).1 (r.handleFrame huffman l fate f).2 := by
  unfold handleFrame
  by_cases hcont : r.contStream ≠ 0 ∧ (f.typ ≠ .continuation ∨ f.streamID ≠ r.contStream)
  · rw [if_pos hcont]
    exact .connection _
  rw [if_neg hcont]
  split_ifs
  · exact .connection _
  split
  · rename_i ht
    refine outcome_handleHeaders (r := { r with gotSettings := true }) ht ?_
    by_contra hne
    exact hcont ⟨hne, Or.inl (by simp [ht])⟩
  · rename_i ht
    refine outcome_handleContinuation (r := { r with gotSettings := true }) ht hp fun hne => ?_
    by_contra hid
    exact hcont ⟨hne, Or.inr hid⟩
  · exact .connection _
  rename_i hh hc _
  have hc0 : r.contStream = 0 := by
    by_contra hne
    exact hcont ⟨hne, Or.inl hc⟩
  have htake : a.take f = a := by
    unfold take
    split
    · rename_i h
      exact absurd h hh
    · rename_i h _
      exact absurd h hc
    · rfl
  refine .none _ _ rfl (fun h => absurd hc0 h) (by rw [htake]) ?_
  exact if_neg fun h => hh h.2.1

/-- The reader after a frame: as `handleFrame` leaves it but for having ended, if the frame ends the connection. -/
theorem receive_eq (huffman : Bytes → ℕ → Except Err Bytes) (he : r.ended = false)
    (hread : op.1.read l.maxFrame = some f) :
    ∃ ended, r.receive huffman l op.2 op.1 = { (r.handleFrame huffman l op.2 f).1 with ended := ended } ∧
      ((r.handleFrame huffman l op.2 f).2 = some .connection → ended = true) := by
  unfold receive
  simp only [he, hread, Bool.false_eq_true, if_false]
  split
  · rename_i h
    exact ⟨_, rfl, by simp [h]⟩
  · rename_i h
    exact ⟨_, rfl, by simp [h]⟩
  · exact ⟨_, rfl, fun _ => rfl⟩

/-- A step keeps the block under way, and the decoder where it should be exactly if it is harmless. -/
theorem inStep_step_iff (hp : s.reader.ended = false → Pending s.reader s.seen) (hin : InStep huffman dec s) :
    ((s.step huffman l op).reader.ended = false → Pending (s.step huffman l op).reader (s.step huffman l op).seen) ∧
      (InStep huffman dec (s.step huffman l op) ↔ Harmless huffman l s op) := by
  cases he : s.reader.ended with
  | true =>
    have hstep : s.step huffman l op = s := by simp [step, he]
    unfold InStep Harmless
    simp [hstep, he]
  | false =>
    cases hread : op.1.read l.maxFrame with
    | none =>
      have hstep : (s.step huffman l op).reader.ended = true := by simp [step, he, receive, hread]
      unfold InStep Harmless
      simp [hstep]
    | some f =>
      obtain ⟨ended, hrecv, hconn⟩ := receive_eq huffman he hread
      have hout : Outcome huffman l s.reader.dec s.seen f (s.reader.handleFrame huffman l op.2 f).1
          (s.reader.handleFrame huffman l op.2 f).2 := outcome_handleFrame (hp he)
      have hstep : s.step huffman l op =
          { reader := { (s.reader.handleFrame huffman l op.2 f).1 with ended := ended }, seen := s.seen.take f } := by
        simp [step, he, hrecv, hread]
      have hdec := hin he
      unfold Harmless
      simp only [hstep, hread, InStep, Option.bind_some]
      generalize (s.reader.handleFrame huffman l op.2 f).1 = r' at hout ⊢
      generalize (s.reader.handleFrame huffman l op.2 f).2 = err at hout hconn
      cases hout with
      | none _ hd hpend hblocks hself =>
        refine ⟨fun _ => hpend, iff_of_true (fun _ => ?_) (by simp [hself])⟩
        rw [hd, hblocks, hdec]
      | decoded _ block hd hpend hblocks hself =>
        refine ⟨fun _ => hpend, iff_of_true (fun _ => ?_) (by simp [hself])⟩
        rw [hd, hblocks, hdec, reference_snoc]
      | skipped block hd hpend hblocks hself =>
        refine ⟨fun _ => hpend, ?_⟩
        rw [hd, hblocks, reference_snoc, ← hdec]
        simp only [hself, Option.some.injEq, forall_eq']
        exact imp_congr_right fun _ => eq_comm
      | connection =>
        have hended := hconn rfl
        simp [hended]

theorem harmless_client (hl : l.side = .client) : Harmless huffman l s op := by
  intro _ block hblock
  obtain ⟨f, -, hf⟩ := Option.bind_eq_some_iff.1 hblock
  simp [selfDependent, hl] at hf

/-- The decoder has, in every state of a run, what one given every header block would have, exactly if every HEADERS
the server resets for depending on itself carries a block that changes nothing; the client's always has. -/
theorem decoder_in_step_iff (dec : Decoder) (huffman : Bytes → ℕ → Except Err Bytes) (l : BlockLimits)
    (ops : List (BlockFrame × Fate)) : ((machine huffman l dec).Always (InStep huffman dec) ops ↔
        (machine huffman l dec).Meets (Harmless huffman l) ops) ∧
      (l.side = .client → (machine huffman l dec).Always (InStep huffman dec) ops) := by
  have hinit : ((machine huffman l dec).init.reader.ended = false →
      Pending (machine huffman l dec).init.reader (machine huffman l dec).init.seen) ∧
      InStep huffman dec (machine huffman l dec).init := ⟨fun _ h => absurd rfl h, fun _ => rfl⟩
  have hstep : ∀ (s : BlockRun) op, ((s.reader.ended = false → Pending s.reader s.seen) ∧ InStep huffman dec s) →
      Harmless huffman l s op → ((s.step huffman l op).reader.ended = false →
        Pending (s.step huffman l op).reader (s.step huffman l op).seen) ∧
        InStep huffman dec (s.step huffman l op) :=
    fun _ _ h hs => ⟨(inStep_step_iff h.1 h.2).1, (inStep_step_iff h.1 h.2).2.2 hs⟩
  have hiff := Machine.always_iff_meets (m := machine huffman l dec) hinit hstep (fun _ h => h.2)
    (fun _ _ h hs hg => hs ((inStep_step_iff h.1 h.2).2.1 hg)) ops
  refine ⟨hiff, fun hl pre _ => ?_⟩
  exact (Machine.invariant_all hinit (fun s op h => hstep s op h (harmless_client hl)) pre).2

/-- SETTINGS, then a HEADERS on stream 1 whose priority fields name stream 1, with a field for the table. -/
def selfDependentHeaders : List (BlockFrame × Fate) :=
  [({ typ := .settings, streamID := 0, payload := [] }, {}),
    ({ typ := .headers, streamID := 1, priority := true, endHeaders := true,
       payload := [0, 0, 0, 1, 16, 0x40, 1, 97, 1, 98] }, {})]

/-- The stream is reset and the connection goes on without the field the client's table has. -/
theorem self_dependent_out_of_step :
    ¬ (machine (fun _ _ => .error .invalidHuffman) { side := .server } (.new 4096)).Always
      (InStep (fun _ _ => .error .invalidHuffman) (.new 4096)) selfDependentHeaders := by
  intro h
  have hin := h _ List.prefix_rfl
  revert hin
  unfold InStep
  decide

end BlockRun
end Fib.Http2
