import Fib.Arpc.Actions

/-! The handler of a Stream runs once, what `Recv` returns is a prefix of what the other end sent, and `Recv` returns
`io.EOF` only once a half is closed. It takes a Client that is sent nothing on a Stream it has forgotten: the next
message of one opens it again, and runs the handler again. -/

namespace Fib.Arpc
open List Function Reading

namespace Client

def Opened (e : Client) (id : ℕ) (method : String) : Prop :=
  ∃ s ∈ e.streams, s.isLocal = true ∧ s.id = id ∧ s.method = method

def GoesOn (e : Client) (size : ℕ) : Prop := ∃ c, (e.read size c).reading ≠ e.reading

/-- The reader is about to call the handler with a Stream of the id. -/
def Starting (e : Client) (id : ℕ) : Prop :=
  ∃ i s, e.reading.bind Reading.starts = some i ∧ e.streams[i]? = some s ∧ s.id = id

end Client

/-- The handlers of `x` run once for each Stream the peer opened, for a method with a handler, and sent on. -/
structure HandledOnce (cfg : Config) (st : Pair) (x : Bool) : Prop where
  opened : ∀ id ∈ (st x).handled, ∃ method, (st !x).Opened id method ∧ cfg.handles x method = true ∧
    ∃ m ∈ (st x).received, m.fromLocal = true ∧ m.id = id
  atMost : ∀ id, (st x).handled.count id ≤ 1
  once : ∀ m ∈ (st x).received, m.fromLocal = true → cfg.handles x m.method = true →
    (st x).handled.count m.id = 1 ∨ (st x).Starting m.id ∧ (st x).GoesOn (cfg.streamQueueSize x)

structure Good (cfg : Config) (st : Pair) : Prop where
  wire : ∀ x, (st !x).log = (st x).received ++ (st !x).out
  handled : ∀ x, HandledOnce cfg st x
  ordered : ∀ x, ∀ s ∈ (st x).streams, s.returned <+: payloads (st !x).log s.id (!s.isLocal)
  ended : ∀ x, ∀ s ∈ (st x).streams, s.sawEOF = true → s.closedHere = true ∨ Ended (st !x).log s

/-- A message opens a Stream only if it is the first one of it, and there is room for it; and nothing is queued on a
Stream that a message was let go of. -/
def Holds (cfg : Config) (st : Pair) (op : Bool × Act) : Prop :=
  match op.2 with
  | .look => ∀ m ∈ (st !op.1).out.head?, m.fromLocal = true → cfg.handles op.1 m.method = true →
      (st op.1).table false m.id = none →
      (∀ m' ∈ (st op.1).taken, m'.fromLocal = true → m'.id ≠ m.id) ∧ 0 < cfg.streamQueueSize op.1
  | .read c => match (st op.1).reading with
    | some (.onMessage m i _) => c ≠ .drop → m.payload ≠ [] → ∀ s ∈ (st op.1).streams[i]?, s.dropped = false
    | _ => True
  | _ => True

instance (cfg : Config) (st : Pair) : ∀ op, Decidable (Holds cfg st op)
  | (x, .look) => inferInstanceAs (Decidable (∀ m ∈ (st !x).out.head?, m.fromLocal = true →
      cfg.handles x m.method = true → (st x).table false m.id = none →
      (∀ m' ∈ (st x).taken, m'.fromLocal = true → m'.id ≠ m.id) ∧ 0 < cfg.streamQueueSize x))
  | (x, .read c) => by
    unfold Holds
    dsimp only
    split <;> infer_instance
  | (_, .call) => .isTrue trivial
  | (_, .newStream _) => .isTrue trivial
  | (_, .send _ _) => .isTrue trivial
  | (_, .sendAndClose _ _) => .isTrue trivial
  | (_, .closeRecv _) => .isTrue trivial
  | (_, .recv _) => .isTrue trivial
  | (_, .advance _ _) => .isTrue trivial

/-! ### The two Clients -/

/-- What the two Clients keep together: the connection loses nothing, and every id was given out by the end that
opened the Stream. -/
structure Linked (cfg : Config) (st : Pair) : Prop where
  kept : ∀ x, Kept (cfg.handles x) (st x)
  wire : ∀ x, (st !x).log = (st x).received ++ (st !x).out
  sent : ∀ x, ∀ m ∈ (st x).log, (m.fromLocal = true → (st x).Opened m.id m.method) ∧
    (m.fromLocal = false → ∃ method, (st !x).Opened m.id method)
  remote : ∀ x, ∀ s ∈ (st x).streams, s.isLocal = false → (st !x).Opened s.id s.method
  refusing : ∀ x id method, (st x).reading = some (.refuse id method) → (st !x).Opened id method
  room : ∀ x m i, (st x).reading = some (.onMessage m i true) → 0 < cfg.streamQueueSize x

theorem linked_init (cfg : Config) : Linked cfg (machine cfg).init := by
  have hkept : ∀ x, Kept (cfg.handles x) ((machine cfg).init x) := by
    intro x
    constructor <;> simp [machine]
    constructor <;> simp
  refine ⟨hkept, ?_, ?_, ?_, ?_, ?_⟩ <;> simp [machine, Client.received, Client.pending]

variable {method : String} {id : ℕ}

theorem Client.Opened.mono {e e' : Client} (h : e.Opened id method)
    (hs : ∀ s ∈ e.streams, ∃ s' ∈ e'.streams, s.Same s') : e'.Opened id method := by
  obtain ⟨s, hs₀, hl, hid, hm⟩ := h
  obtain ⟨s', hs', hsame⟩ := hs s hs₀
  exact ⟨s', hs', hsame.isLocal.trans hl, hsame.id.trans hid, hsame.method.trans hm⟩

theorem Kept.opened_le {handles : String → Bool} {e : Client} (h : Kept handles e)
    (ho : e.Opened id method) : 1 ≤ id ∧ id ≤ e.seq := by
  obtain ⟨s, hs, hl, rfl, -⟩ := ho
  exact h.named.ids s hs hl

theorem eq_or_eq_not (x y : Bool) : y = x ∨ y = !x := by
  cases x <;> cases y <;> simp

theorem update_not (st : Pair) (x : Bool) (e : Client) : update st x e (!x) = st !x :=
  update_of_ne (by cases x <;> decide) _ _

section
variable {cfg : Config} {st : Pair} {x : Bool} {m : Msg}
section
variable (h : Linked cfg st)
include h

theorem Linked.maySend (hm : (st x).MaySend m) : (m.fromLocal = true → (st x).Opened m.id m.method) ∧
    (m.fromLocal = false → ∃ method, (st !x).Opened m.id method) := by
  rcases hm with ⟨s, hs, hl, hid, hmeth⟩ | ⟨hf, hr⟩
  · refine ⟨fun hf => ⟨s, hs, hl.trans hf, hid, hmeth⟩, fun hf => ⟨s.method, ?_⟩⟩
    rw [← hid]
    exact h.remote x s hs (hl.trans hf)
  · refine ⟨fun hf' => ?_, fun _ => ⟨m.method, h.refusing x _ _ hr⟩⟩
    rw [hf] at hf'
    exact absurd hf' (by decide)

theorem Linked.taken_le : ∀ m ∈ (st x).taken, m.fromLocal = false → m.id ≤ (st x).seq := by
  intro m hm hf
  have hlog : m ∈ (st !x).log := by
    rw [h.wire x]
    exact mem_append_left _ (mem_append_left _ hm)
  obtain ⟨method, ho⟩ := (h.sent (!x) m hlog).2 hf
  rw [Bool.not_not] at ho
  exact ((h.kept x).opened_le ho).2

theorem Linked.act {e : Client} (hs : Sound (cfg.handles x) (st x) e) : Linked cfg (update st x e) := by
  obtain ⟨hk, ha⟩ := hs
  obtain ⟨l, hout, hlog, hmay⟩ := ha.posts
  have hself : update st x e x = e := update_self ..
  have hnot := update_not st x e
  have hopened : ∀ {id method}, (st x).Opened id method → e.Opened id method := fun ho => ho.mono ha.before
  refine ⟨fun y => ?_, fun y => ?_, fun y m hm => ?_, fun y s hs hl => ?_, fun y id method hr => ?_,
    fun y m i hr => ?_⟩ <;>
    rcases eq_or_eq_not x y with rfl | rfl <;> simp only [hself, hnot, Bool.not_not] at *
  · exact hk
  · exact h.kept (!x)
  · rw [h.wire y, ha.received]
  · have hw := h.wire (!x)
    rw [Bool.not_not] at hw
    rw [hlog, hout, hw, append_assoc]
  · rw [hlog, mem_append] at hm
    have hsent := hm.elim (h.sent y m) fun hm => h.maySend (hmay m hm)
    exact ⟨fun hf => hopened (hsent.1 hf), hsent.2⟩
  · have hsent := h.sent (!x) m hm
    rw [Bool.not_not] at hsent
    exact ⟨hsent.1, fun hf => (hsent.2 hf).imp fun _ => hopened⟩
  · rcases ha.after s hs with hl' | ⟨s₀, hs₀, hsame⟩
    · rw [hl] at hl'
      exact absurd hl' (by decide)
    · rw [hsame.id, hsame.method]
      exact h.remote y s₀ hs₀ (hsame.isLocal ▸ hl)
  · have := h.remote (!x) s hs hl
    rw [Bool.not_not] at this
    exact hopened this
  · exact h.refusing y id method (ha.looked _ hr rfl)
  · have := h.refusing (!x) id method hr
    rw [Bool.not_not] at this
    exact hopened this
  · exact h.room y m i (ha.looked _ hr rfl)
  · exact h.room (!x) m i hr

theorem Linked.look {rest : List Msg} (hr : (st x).reading = none) (ho : (st !x).out = m :: rest)
    (hfirst : m.fromLocal = true → cfg.handles x m.method = true → (st x).table false m.id = none →
      (∀ m' ∈ (st x).taken, m'.fromLocal = true → m'.id ≠ m.id) ∧ 0 < cfg.streamQueueSize x) :
    Linked cfg (update (update st (!x) { st !x with out := rest }) x ((st x).onStreamMessage (cfg.handles x) m)) := by
  have hlog : m ∈ (st !x).log := by
    rw [h.wire x, ho]
    simp
  obtain ⟨hsent, hanswer⟩ := h.sent (!x) m hlog
  rw [Bool.not_not] at hanswer
  have hid : m.id ≠ 0 := by
    cases hf : m.fromLocal with
    | true =>
      have := ((h.kept (!x)).opened_le (hsent hf)).1
      omega
    | false =>
      obtain ⟨method, hop⟩ := hanswer hf
      have := ((h.kept x).opened_le hop).1
      omega
  obtain ⟨hk, hl⟩ := sound_onStreamMessage (h.kept x) hr hid fun hf hh ht => (hfirst hf hh ht).1
  generalize (st x).onStreamMessage (cfg.handles x) m = e at hk hl
  obtain ⟨hout, hlog'⟩ := hl.quiet
  set st' := update (update st (!x) { st !x with out := rest }) x e with hst'
  have hself : st' x = e := update_self ..
  have hnot : st' (!x) = { st !x with out := rest } := by
    rw [hst', update_not, update_self]
  have hopened : ∀ {id method}, (st x).Opened id method → e.Opened id method := fun hop =>
    hop.mono fun s hs => ⟨s, hl.before s hs, .rfl⟩
  refine ⟨fun y => ?_, fun y => ?_, fun y m' hm => ?_, fun y s hs hloc => ?_, fun y id method hr' => ?_,
    fun y m' i hr' => ?_⟩ <;> rcases eq_or_eq_not x y with rfl | rfl <;> simp only [hself, hnot, Bool.not_not] at *
  · exact hk
  · have hk' := h.kept (!x)
    exact { hk' with }
  · rw [h.wire y, hl.received, ho, append_assoc]
    rfl
  · have hw := h.wire (!x)
    rw [Bool.not_not] at hw
    rw [hlog', hout, hw]
    rfl
  · rw [hlog'] at hm
    have := h.sent y m' hm
    exact ⟨fun hf => hopened (this.1 hf), this.2⟩
  · have := h.sent (!x) m' hm
    rw [Bool.not_not] at this
    exact ⟨this.1, fun hf => (this.2 hf).imp fun _ => hopened⟩
  · rcases hl.after s hs with hs | ⟨hf, hsid, hsm, -⟩
    · exact h.remote y s hs hloc
    · rw [hsid, hsm]
      exact hsent hf
  · have := h.remote (!x) s hs hloc
    rw [Bool.not_not] at this
    exact hopened this
  · obtain ⟨hf, rfl, rfl⟩ := hl.refusing id method hr'
    exact hsent hf
  · have := h.refusing (!x) id method hr'
    rw [Bool.not_not] at this
    exact hopened this
  · obtain ⟨hf, hh, ht⟩ := hl.opening m' i hr'
    exact (hfirst hf hh ht).2
  · exact h.room (!x) m' i hr'

theorem linked_step {op : Bool × Act} (hop : Holds cfg st op) : Linked cfg (step cfg st op) := by
  obtain ⟨x, a⟩ := op
  unfold step
  split_ifs with ha
  · subst ha
    unfold Arpc.look
    split
    · rename_i m rest hr ho
      exact h.look hr ho (hop m (by simp [ho]))
    · exact h
  · refine h.act (sound_act (h.kept x) h.taken_le fun c hc m i isNew hr hd hp => ?_)
    subst hc
    simp only [Holds, hr] at hop
    exact hop hd hp

end

theorem linked_run {ops : List (Bool × Act)} (h : (machine cfg).Meets (Holds cfg) ops) :
    Linked cfg ((machine cfg).run ops) :=
  Machine.invariant (linked_init cfg) (fun _ _ hi hop => linked_step hi hop) h

/-! ### What it comes to -/

variable (h : Linked cfg st)
include h

theorem Linked.goesOn {i : ℕ} (hr : (st x).reading.bind Reading.starts = some i) :
    (st x).GoesOn (cfg.streamQueueSize x) := by
  obtain ⟨s, hs⟩ : ∃ s, (st x).streams[i]? = some s :=
    ⟨_, List.getElem?_eq_getElem ((h.kept x).place i (stream_of_starts hr))⟩
  have hok := (h.kept x).streams i s hs
  refine ⟨.queue, ?_⟩
  have hnew : ∀ {isNew : Bool} {j}, (if isNew = true then some j else none) = some i → isNew = true ∧ j = i := by simp
  rcases hread : (st x).reading with _ | r
  · rw [hread] at hr
    simp at hr
  rw [hread] at hr
  cases r with
  | onMessage m j isNew =>
    obtain ⟨rfl, rfl⟩ := hnew hr
    have hroom := h.room x m j hread
    have hq : ∃ s', s.onMessage (cfg.streamQueueSize x) .queue m.payload = some s' := by
      unfold Stream.onMessage
      by_cases hp : m.payload = []
      · exact ⟨s, if_pos hp⟩
      · rw [if_neg hp]
        exact ⟨_, if_pos (by rw [hok.fresh m hread]; exact hroom)⟩
    obtain ⟨s', hs'⟩ := hq
    simp only [Client.read, hread, stream, hs, Client.readStream, hs']
    exact afterMessage_ne_onMessage _ _ _ _ _ _
  | closeRecv j isNew =>
    obtain ⟨rfl, rfl⟩ := hnew hr
    simp [Client.read, hread, stream, hs, Client.readStream, hok.once (.inr hread), Client.setReading]
  | halfClose j isNew =>
    obtain ⟨rfl, rfl⟩ := hnew hr
    simp only [Client.read, hread, stream, hs, Client.readStream]
    split_ifs <;> simp [Client.setReading, afterClose]
  | forget j isNew =>
    obtain ⟨rfl, rfl⟩ := hnew hr
    simp [Client.read, hread, stream, hs, Client.readStream, Client.setReading, afterClose]
  | start j =>
    obtain rfl : j = i := by simpa [starts] using hr
    simp [Client.read, hread, stream, hs, Client.readStream, Client.setReading, Client.handle]
  | refuse id method => simp [starts] at hr

theorem Linked.stream_of_received (hm : m ∈ (st x).received) (hf : m.fromLocal = true)
    (hh : cfg.handles x m.method = true) : ∃ (i : ℕ) (s : Stream),
      (st x).streams[i]? = some s ∧ s.isLocal = false ∧ s.id = m.id := by
  rcases mem_append.1 hm with hm | hm
  · obtain ⟨s, hs, hl, hid⟩ := (h.kept x).noted m hm hf hh
    obtain ⟨i, hi⟩ := mem_iff_getElem?.1 hs
    exact ⟨i, s, hi, hl, hid⟩
  unfold Client.pending at hm
  split at hm
  · rename_i m' i isNew hr
    obtain rfl := mem_singleton.1 hm
    obtain ⟨s, hs, hid, hl⟩ := (h.kept x).message m i isNew hr
    exact ⟨i, s, hs, by rw [hl, hf]; rfl, hid⟩
  · simp at hm

theorem Linked.received_of_stream {i : ℕ} {s : Stream} (hs : (st x).streams[i]? = some s)
    (hl : s.isLocal = false) : ∃ m ∈ (st x).received, m.fromLocal = true ∧ m.id = s.id := by
  rcases ((h.kept x).streams i s hs).known hl with ⟨m, hm, hrest⟩ | ⟨m, isNew, hr⟩
  · exact ⟨m, mem_append_left _ hm, hrest⟩
  obtain ⟨s', hs', hid, hl'⟩ := (h.kept x).message m i isNew hr
  obtain rfl : s = s' := Option.some.inj (hs.symm.trans hs')
  refine ⟨m, mem_append_right _ ?_, ?_, hid.symm⟩
  · rw [Client.pending, hr]
    exact mem_singleton_self m
  · simpa [hl] using hl'.symm

theorem Linked.handledOnce (x : Bool) : HandledOnce cfg st x := by
  have hk := h.kept x
  refine ⟨fun id hid => ?_, nodup_iff_count_le_one.1 hk.nodup, fun m hm hf hh => ?_⟩
  · obtain ⟨s, hs, hl, -, rfl⟩ := (hk.handled id).1 hid
    obtain ⟨i, hi⟩ := mem_iff_getElem?.1 hs
    exact ⟨s.method, h.remote x s hs hl, (hk.streams i s hi).routed hl, h.received_of_stream hi hl⟩
  · obtain ⟨i, s, hs, hl, hid⟩ := h.stream_of_received hm hf hh
    rcases (hk.streams i s hs).begun hl with hst | hr
    · exact .inl (count_eq_one_of_mem hk.nodup ((hk.handled _).2 ⟨s, mem_of_getElem? hs, hl, hst, hid⟩))
    · exact .inr ⟨⟨i, s, hr, hs, hid⟩, h.goesOn hr⟩

theorem Linked.good : Good cfg st := by
  have htaken : ∀ x, (st x).taken <+: (st !x).log := by
    intro x
    rw [h.wire x, Client.received, append_assoc]
    exact prefix_append _ _
  refine ⟨h.wire, h.handledOnce, fun x s hs => ?_, fun x s hs he => ?_⟩
  · obtain ⟨i, hi⟩ := mem_iff_getElem?.1 hs
    have hfifo := ((h.kept x).streams i s hi).fifo
    exact ((prefix_append _ _).trans hfifo).trans (payloads_isPrefix (htaken x) _ _)
  · obtain ⟨i, hi⟩ := mem_iff_getElem?.1 hs
    have hok := (h.kept x).streams i s hi
    exact (hok.closed (hok.ended he)).imp_right (Ended.mono · (htaken x))

end

/-- In a run in which a message opens a Stream only as the first of its id, and nothing is queued on a Stream after a
message was let go, handlers run once and messages come in order. -/
theorem handled_once_in_order (cfg : Config) (ops : List (Bool × Act)) (h : (machine cfg).Meets (Holds cfg) ops) :
    (machine cfg).Always (Good cfg) ops := by
  intro pre hpre
  obtain ⟨rest, rfl⟩ := hpre
  exact (linked_run ((machine cfg).meetsFrom_append.1 h).1).good

def allMethods (size : ℕ) : Config := ⟨fun _ _ => true, fun _ => size⟩

/-- The first Client opens a Stream and sends on it, and the second takes the message. -/
def firstMessage (payload : Bytes) : List (Bool × Act) :=
  [(true, .newStream "echo"), (true, .send 0 payload), (true, .advance 0 true), (false, .look), (false, .read .queue),
    (false, .read .queue)]

def nextMessage (payload : Bytes) (c : Choice) : List (Bool × Act) :=
  [(true, .send 0 payload), (true, .advance 0 true), (false, .look), (false, .read c)]

/-- The handler closes both halves and returns, while the opener sends on. -/
def sentAfterForgotten : List (Bool × Act) :=
  firstMessage [1] ++ [(false, .sendAndClose 0 []), (false, .advance 0 true), (false, .advance 0 true),
    (false, .closeRecv 0), (false, .advance 0 true), (false, .advance 0 true)] ++ nextMessage [2] .queue ++
    [(false, .read .queue)]

/-- The handler closes its receiving half. The next message is let go, and the one after it is queued. -/
def queuedAfterDropped : List (Bool × Act) :=
  firstMessage [1] ++ [(false, .closeRecv 0), (false, .advance 0 true)] ++ nextMessage [2] .drop ++
    nextMessage [3] .queue ++ [(false, .recv 0), (false, .recv 0)]

theorem handled_twice_or_out_of_order : ¬ (machine (allMethods 4)).Always (Good (allMethods 4)) sentAfterForgotten ∧
      ¬ (machine (allMethods 4)).Always (Good (allMethods 4)) queuedAfterDropped ∧
      ¬ (machine (allMethods 0)).Always (Good (allMethods 0)) (firstMessage [1]) := by
  refine ⟨fun h => ?_, fun h => ?_, fun h => ?_⟩
  · have htwice := ((h _ prefix_rfl).handled false).atMost 1
    revert htwice
    decide
  · have hlog := (h _ prefix_rfl).ordered false
    revert hlog
    decide
  -- With no room for a message the reader waits for a Recv of the handler it has yet to call.
  have honce := ((h _ prefix_rfl).handled false).once ⟨1, true, false, "echo", [1]⟩ (by decide) rfl rfl
  rcases honce with hcount | ⟨-, c, hc⟩
  · revert hcount
    decide
  · revert hc
    cases c <;> decide

/-- The handler answers and closes its half, and each end closes after the other: nothing is sent on a Stream that
was forgotten. -/
def echo : List (Bool × Act) :=
  firstMessage [1] ++ [(false, .recv 0), (false, .send 0 [1]), (false, .advance 0 true), (true, .look),
    (true, .read .queue),
    (true, .recv 0), (true, .sendAndClose 0 [2]), (true, .advance 0 true), (true, .advance 0 true), (false, .look),
    (false, .read .queue), (false, .read .queue), (false, .read .queue), (false, .recv 0), (false, .recv 0),
    (false, .sendAndClose 0 []), (false, .advance 0 true), (false, .advance 0 true), (false, .advance 0 true)]

theorem echo_handled_once : (machine (allMethods 4)).Meets (Holds (allMethods 4)) echo ∧
    (machine (allMethods 4)).Always (Good (allMethods 4)) echo := by
  have h : (machine (allMethods 4)).Meets (Holds (allMethods 4)) echo := by decide
  exact ⟨h, handled_once_in_order _ _ h⟩

/-- Each Stream a Client has of its peer's is one the peer opened, for its method, and the only one under its id. -/
def Paired (st : Pair) : Prop :=
  ∀ x, ∀ s ∈ (st x).streams, s.isLocal = false → ∃ t ∈ (st !x).streams, t.method = s.method ∧
    ∀ u ∈ (st !x).streams, u.isLocal = true ∧ u.id = s.id ↔ u = t

theorem streams_paired (cfg : Config) (ops : List (Bool × Act)) (h : (machine cfg).Meets (Holds cfg) ops) :
    Paired ((machine cfg).run ops) := by
  intro x s hs hremote
  obtain ⟨t, ht, hlocal, hid, hmethod⟩ := (linked_run h).remote x s hs hremote
  refine ⟨t, ht, hmethod, fun u hu => ⟨fun ⟨hul, hu'⟩ => ?_, fun he => he ▸ ⟨hlocal, hid⟩⟩⟩
  obtain ⟨i, hi⟩ := mem_iff_getElem?.1 hu
  obtain ⟨j, hj⟩ := mem_iff_getElem?.1 ht
  obtain rfl := ((linked_run h).kept !x).named.unique i j u t hi hj (hu'.trans hid.symm) (hul.trans hlocal.symm)
  exact Option.some.inj (hi.symm.trans hj)

theorem echo_paired : Paired ((machine (allMethods 4)).run echo) := streams_paired _ _ (by decide)

end Fib.Arpc
