import Fib.Arpc.Kept

/-! What each action of a Client comes to, for the Client and for its peer. -/

namespace Fib.Arpc
open List Reading Option

namespace Client

def pending (e : Client) : List Msg :=
  match e.reading with
  | some (.onMessage m _ _) => [m]
  | _ => []

def received (e : Client) : List Msg := e.taken ++ e.pending

end Client

/-- What a Client may send: a message of a Stream it has, or the EOF for one it refuses. -/
def Client.MaySend (e : Client) (m : Msg) : Prop :=
  (∃ s ∈ e.streams, s.isLocal = m.fromLocal ∧ s.id = m.id ∧ s.method = m.method) ∨
    m.fromLocal = false ∧ e.reading = some (.refuse m.id m.method)

open Client

/-- Where only `look` takes the reader. -/
def Reading.looked : Reading → Bool
  | .onMessage _ _ _ => true
  | .refuse _ _ => true
  | _ => false

structure Acts (e e' : Client) : Prop where
  received : e'.received = e.received
  posts : ∃ l, e'.out = e.out ++ l ∧ e'.log = e.log ++ l ∧ ∀ m ∈ l, e.MaySend m
  before : ∀ s ∈ e.streams, ∃ s' ∈ e'.streams, s.Same s'
  after : ∀ s' ∈ e'.streams, s'.isLocal = true ∨ ∃ s ∈ e.streams, s.Same s'
  looked : ∀ r, e'.reading = some r → r.looked = true → e.reading = some r

namespace Acts
variable {e e' : Client} {i : ℕ} {s s' : Stream}

theorem rfl : Acts e e := ⟨Eq.refl _, ⟨[], by simp, by simp, by simp⟩, fun s hs => ⟨s, hs, .rfl⟩,
  fun s hs => .inr ⟨s, hs, .rfl⟩, fun _ h _ => h⟩

theorem quiet (hr : e'.received = e.received) (ho : e'.out = e.out) (hl : e'.log = e.log) (hs : e'.streams = e.streams)
    (hf : ∀ r, e'.reading = some r → r.looked = true → e.reading = some r) : Acts e e' :=
  ⟨hr, ⟨[], by simp [ho], by simp [hl], by simp⟩, fun s h => ⟨s, hs ▸ h, .rfl⟩, fun s h => .inr ⟨s, hs ▸ h, .rfl⟩, hf⟩

theorem setStream (hs : e.streams[i]? = some s) (hsame : s.Same s') (hr : e'.received = e.received)
    (ho : e'.out = e.out) (hl : e'.log = e.log) (he : e'.streams = e.streams.set i s')
    (hf : ∀ r, e'.reading = some r → r.looked = true → e.reading = some r) : Acts e e' :=
  ⟨hr, ⟨[], by simp [ho], by simp [hl], by simp⟩, fun _ h => he ▸ mem_set_of hs hsame h,
    fun _ h => .inr (mem_of_set hs hsame (he ▸ h)), hf⟩

end Acts

/-! ### The actions -/

/-- What an action comes to: the Client stays sound, and the peer sees no more than it may. -/
def Sound (handles : String → Bool) (e e' : Client) : Prop := Kept handles e' ∧ Acts e e'

variable {handles : String → Bool} {e : Client} {i k : ℕ} {s : Stream}
section
variable (h : Kept handles e)
include h

theorem sound_onHeld {f : Stream → Client}
    (hf : ∀ s, e.streams[i]? = some s → s.held = true → Sound handles e (f s)) : Sound handles e (e.onHeld i f) := by
  unfold onHeld
  split
  · exact ⟨h, .rfl⟩
  · rename_i s hs
    split_ifs with hh
    · exact hf s hs hh
    · exact ⟨h, .rfl⟩

variable (hs : e.streams[i]? = some s) (hh : s.held = true)
include hs hh

theorem sound_send (p : Bytes) : Sound handles e (e.send i s p) := by
  unfold send
  split_ifs
  · exact ⟨h, .rfl⟩
  · exact ⟨h.addCall hs hh, .quiet rfl rfl rfl rfl fun _ hr _ => hr⟩

theorem sound_sendAndClose (p : Bytes) : Sound handles e (e.sendAndClose i s p) := by
  unfold sendAndClose
  split_ifs
  · exact ⟨h, .rfl⟩
  · have hsame : s.Same { s with sendClosed := true } := ⟨rfl, rfl, rfl, fun hh => hh⟩
    have hset := h.setStream hs hsame rfl (h.streams i s hs).sendClosed
    exact ⟨hset.addCall (getElem?_set_same hs) hh, .setStream hs hsame rfl rfl rfl rfl fun _ hr _ => hr⟩

theorem Kept.not_starting : e.reading.bind starts ≠ some i := by
  intro hr
  rw [(h.streams i s hs).unheld hr] at hh
  cases hh

theorem Kept.not_new (m : Msg) :
    e.reading ≠ some (.onMessage m i true) := fun hr => h.not_starting hs hh (by rw [hr]; rfl)

theorem Kept.not_closing : e.reading ≠ some (.closeRecv i true) := fun hr => h.not_starting hs hh (by rw [hr]; rfl)

theorem sound_closeRecv : Sound handles e (e.closeRecv i s) := by
  unfold Client.closeRecv
  split_ifs
  · have hsame : s.Same (s.closeRecv true) := ⟨rfl, rfl, rfl, fun hh => hh⟩
    have hset := h.setStream hs hsame rfl
      ((h.streams i s hs).closeRecv (.inl rfl) (h.not_new hs hh) (h.not_closing hs hh))
    exact ⟨hset.addCall (getElem?_set_same hs) hh, .setStream hs hsame rfl rfl rfl rfl fun _ hr _ => hr⟩
  · exact ⟨h, .rfl⟩

end

theorem Stream.same_recv (s : Stream) : s.Same s.recv ∧ s.recv.started = s.started := by
  fun_cases Stream.recv s <;> exact ⟨⟨rfl, rfl, rfl, fun h => h⟩, rfl⟩

theorem Stream.same_closed (s : Stream) (recv : Bool) :
    s.Same (s.closed recv) ∧ (s.closed recv).started = s.started := by
  fun_cases Stream.closed s recv <;> exact ⟨⟨rfl, rfl, rfl, fun h => h⟩, rfl⟩

theorem Stream.same_countHalf (s : Stream) : s.Same s.countHalf := ⟨rfl, rfl, rfl, fun h => h⟩

theorem sound_recv (h : Kept handles e) (hs : e.streams[i]? = some s) : Sound handles e (e.setStream i s.recv) :=
  ⟨h.setStream hs s.same_recv.1 s.same_recv.2 (h.streams i s hs).recv,
    .setStream hs s.same_recv.1 rfl rfl rfl rfl fun _ hr _ => hr⟩

theorem Client.forget_eq (e : Client) (i : ℕ) (s : Stream) : ∃ table, e.forget i s = { e with table := table } := by
  unfold forget
  split_ifs
  · exact ⟨_, rfl⟩
  · exact ⟨e.table, rfl⟩

theorem Kept.halfClosed (h : Kept handles e) (hs : e.streams[i]? = some s) (recv : Bool)
    (hr : ∀ m, e.reading ≠ some (.onMessage m i true)) (hr' : e.reading ≠ some (.closeRecv i true)) :
    Kept handles (e.setStream i (s.countHalf.closed recv)) ∧
      Kept handles ((e.forget i s).setStream i (s.closed recv)) := by
  constructor
  · have hsame := s.countHalf.same_closed recv
    exact h.setStream hs { hsame.1 with } hsame.2 ((h.streams i s hs).countHalf.closedHalf recv hr hr')
  · have hf := h.forget i s
    obtain ⟨table, he⟩ := e.forget_eq i s
    rw [he] at hf ⊢
    exact hf.setStream hs (s.same_closed recv).1 (s.same_closed recv).2 ((hf.streams i s hs).closedHalf recv hr hr')

theorem sound_advance (h : Kept handles e) {c : Call} (hc : e.calls[k]? = some c) (hs : e.streams[c.stream]? = some s)
    (ok : Bool) : Sound handles e (e.advance k c s ok) := by
  obtain ⟨s', hs', hh⟩ := h.named.calls c (mem_of_getElem? hc)
  obtain rfl : s = s' := some.inj (hs.symm.trans hs')
  cases c with
  | send i p eof =>
    simp only [advance, Call.stream] at hs ⊢
    have hmay : e.MaySend (s.message p eof) := .inl ⟨s, mem_of_getElem? hs, rfl, rfl, rfl⟩
    have hacts : ∀ e' : Client, e'.received = e.received → e'.streams = e.streams → e'.reading = e.reading →
        (e'.out = e.out ∧ e'.log = e.log ∨
          e'.out = e.out ++ [s.message p eof] ∧ e'.log = e.log ++ [s.message p eof]) → Acts e e' := by
      intro e' hrec hstr hread hout
      refine ⟨hrec, ?_, fun t ht => ⟨t, hstr ▸ ht, .rfl⟩, fun t ht => .inr ⟨t, hstr ▸ ht, .rfl⟩,
        fun _ hr _ => hread ▸ hr⟩
      rcases hout with ⟨ho, hl⟩ | ⟨ho, hl⟩
      · exact ⟨[], by simp [ho], by simp [hl], by simp⟩
      · exact ⟨_, ho, hl, fun m hm => mem_singleton.1 hm ▸ hmay⟩
    cases ok <;> cases eof
    · exact ⟨h.endCall k, hacts _ rfl rfl rfl (.inl ⟨rfl, rfl⟩)⟩
    · exact ⟨h.setCall hs hh, hacts _ rfl rfl rfl (.inl ⟨rfl, rfl⟩)⟩
    · exact ⟨(h.post _).endCall k, hacts _ rfl rfl rfl (.inr ⟨rfl, rfl⟩)⟩
    · exact ⟨(h.post _).setCall hs hh, hacts _ rfl rfl rfl (.inr ⟨rfl, rfl⟩)⟩
  | halfClose i recv =>
    simp only [advance, Call.stream] at hs ⊢
    split_ifs
    · have hset := h.setStream hs s.same_countHalf rfl (h.streams i s hs).countHalf
      exact ⟨hset.setCall (getElem?_set_same hs) hh, .setStream hs s.same_countHalf rfl rfl rfl rfl fun _ hr _ => hr⟩
    · have hset := (h.halfClosed hs recv (h.not_new hs hh) (h.not_closing hs hh)).1
      have hsame := s.countHalf.same_closed recv
      exact ⟨hset.endCall k, .setStream hs { hsame.1 with } rfl rfl rfl rfl fun _ hr _ => hr⟩
  | forget i recv =>
    simp only [advance, Call.stream] at hs ⊢
    have hset := (h.halfClosed hs recv (h.not_new hs hh) (h.not_closing hs hh)).2
    obtain ⟨table, he⟩ := e.forget_eq i s
    rw [he] at hset ⊢
    exact ⟨hset.endCall k, .setStream hs (s.same_closed recv).1 rfl rfl rfl rfl fun _ hr _ => hr⟩

theorem Reading.stream_of_starts {r : Option Reading} (h : r.bind starts = some i) : r.bind stream = some i := by
  rcases r with _ | (⟨_, _, b⟩ | ⟨_, b⟩ | ⟨_, b⟩ | ⟨_, b⟩ | _ | _) <;> try cases b
  all_goals simp_all [starts, stream]

theorem sound_newStream (h : Kept handles e) (hid : ∀ m ∈ e.taken, m.fromLocal = false → m.id ≤ e.seq)
    (method : String) : Sound handles e (e.newStream method 0 true) := by
  have hplace : e.reading.bind stream ≠ some e.streams.length := fun hr =>
    absurd (h.place _ hr) (lt_irrefl _)
  have hnone : ∀ m ∈ e.taken, m.id = e.seq + 1 → m.fromLocal ≠ !true := by
    intro m hm hi hf
    have := hid m hm hf
    omega
  have hadd :
      Kept handles ((e.nextSeq.addStream { id := e.seq + 1, method, isLocal := true }).setReading e.reading) := by
    refine h.nextSeq.addStream (fun t ht hi hl => ?_) (fun _ => ⟨by simp, by simp [nextSeq]⟩) rfl
      (.opened hnone (fun _ hr => hplace (stream_of_starts hr)) (fun _ hr => hplace (by rw [hr]; rfl))
        (fun hl => absurd hl (by decide)))
      h.streams (fun _ _ _ hr => .inl hr) fun i hi => (h.place i hi).le
    have := (h.named.ids t ht hl).2
    simp only at hi
    omega
  refine ⟨hadd, rfl, ⟨[], ?_, ?_, by simp⟩, fun s hs => ⟨s, mem_append_left _ hs, .rfl⟩, fun s hs => ?_,
    fun _ hr _ => hr⟩
  · exact (append_nil _).symm
  · exact (append_nil _).symm
  · rcases mem_append.1 hs with hs | hs
    · exact .inr ⟨s, hs, .rfl⟩
    · exact .inl (mem_singleton.1 hs ▸ rfl)

def Client.Reads (e : Client) (c : Choice) : Prop :=
  ∀ m i isNew, e.reading = some (.onMessage m i isNew) → c ≠ .drop → m.payload ≠ [] →
    ∀ s ∈ e.streams[i]?, s.dropped = false

theorem afterClose_bind (isNew : Bool) :
    (afterClose i isNew).bind starts = (if isNew = true then some i else none) ∧
      ∀ j, (afterClose i isNew).bind stream = some j → j = i := by
  cases isNew <;> simp [afterClose, starts, stream, eq_comm]

theorem afterClose_ne (isNew : Bool) : (∀ m j isNew', afterClose i isNew ≠ some (.onMessage m j isNew')) ∧
    (∀ j isNew', afterClose i isNew ≠ some (.closeRecv j isNew')) ∧
    ∀ r, afterClose i isNew = some r → ¬ r.looked = true := by
  cases isNew <;> simp [afterClose, looked]

variable {size : ℕ} {r : Reading} {c : Choice}

theorem Kept.afterClose (h : Kept handles e) {isNew : Bool} (hr : e.reading = some r)
    (hm : ∀ m j isNew', r ≠ .onMessage m j isNew') (hst : r.stream = some i)
    (hs : r.starts = if isNew = true then some i else none) : Kept handles (e.setReading (afterClose i isNew)) := by
  refine h.readOn (fun m j isNew' he => ?_) (afterClose_ne _).1 (afterClose_ne _).2.1 ?_ fun j hj => ?_
  · exact hm m j isNew' (some.inj (hr.symm.trans he))
  · rw [(afterClose_bind isNew).1, hr]
    exact hs.symm
  · rw [(afterClose_bind isNew).2 j hj, hr]
    exact hst

theorem Client.pending_eq_nil (hr : ∀ m j isNew, e.reading ≠ some (.onMessage m j isNew)) : e.pending = [] := by
  unfold pending
  split
  · rename_i m j isNew hx
    exact absurd hx (hr m j isNew)
  · rfl

theorem received_of_quiet {e' : Client} (ht : e'.taken = e.taken)
    (hr : ∀ m j isNew, e.reading ≠ some (.onMessage m j isNew))
    (hr' : ∀ m j isNew, e'.reading ≠ some (.onMessage m j isNew)) : e'.received = e.received := by
  unfold received
  rw [ht, pending_eq_nil hr, pending_eq_nil hr']

variable (h : Kept handles e)
include h

theorem sound_readStream (hr : e.reading = some r) (hst : r.stream = some i) (hs : e.streams[i]? = some s)
    (hkeep : e.Reads c) : Sound handles e (e.readStream size c r i s) := by
  cases r with
  | onMessage m j isNew =>
    obtain rfl : j = i := some.inj hst
    simp only [readStream]
    split
    · exact ⟨h, .rfl⟩
    rename_i s' hm
    have ha := (Stream.onMessage_spec hm).1
    have hsame : s.Same s' := { ha with held := by simp [Stream.held, ha.isLocal, ha.started] }
    refine ⟨h.onMessage hr hs hm fun hc hp => hkeep m j isNew hr hc hp s hs,
      .setStream hs hsame ?_ rfl rfl rfl fun r he => ?_⟩
    · unfold received
      rw [pending_eq_nil (afterMessage_ne_onMessage _ _ _), append_nil, pending, hr]
      rfl
    · revert he
      cases m.eof <;> cases isNew <;> simp +contextual [setReading, afterMessage, Arpc.afterClose, eq_comm, looked]
  | closeRecv j isNew =>
    obtain rfl : j = i := some.inj hst
    have hm : ∀ m j' isNew', e.reading ≠ some (.onMessage m j' isNew') := by simp [hr]
    simp only [readStream]
    split
    · have hread : Kept handles (e.setReading (some (.halfClose j isNew))) := by
        refine h.readOn hm (by simp) (by simp) (by rw [hr]; rfl) fun j' hj => ?_
        rw [hr]
        exact hj
      have hsame : s.Same (s.closeRecv false) := ⟨rfl, rfl, rfl, fun hh => hh⟩
      have hend := (h.streams j s hs).closing isNew hr
      refine ⟨hread.setStream hs hsame rfl ((hread.streams j s hs).closeRecv (.inr hend) ?_ ?_),
        .setStream hs hsame (received_of_quiet rfl hm ?_) rfl rfl rfl ?_⟩ <;> simp [setReading, looked]
    · exact ⟨h, .rfl⟩
    · exact ⟨h.afterClose hr (by simp) rfl rfl, .quiet (received_of_quiet rfl hm (afterClose_ne _).1) rfl rfl rfl
        fun r he hl => absurd hl ((afterClose_ne _).2.2 r he)⟩
  | halfClose j isNew =>
    obtain rfl : j = i := some.inj hst
    have hm : ∀ m j' isNew', e.reading ≠ some (.onMessage m j' isNew') := by simp [hr]
    simp only [readStream]
    split_ifs
    · have hread : Kept handles (e.setReading (some (.forget j isNew))) := by
        refine h.readOn hm (by simp) (by simp) (by rw [hr]; rfl) fun j' hj => ?_
        rw [hr]
        exact hj
      refine ⟨hread.setStream hs s.same_countHalf rfl (hread.streams j s hs).countHalf,
        .setStream hs s.same_countHalf (received_of_quiet rfl hm ?_) rfl rfl rfl ?_⟩ <;> simp [setReading, looked]
    have hset := (h.halfClosed hs true (by simp [hr]) (by simp [hr])).1
    have hsame := s.countHalf.same_closed true
    exact ⟨hset.afterClose hr (by simp) rfl rfl, .setStream hs { hsame.1 with }
      (received_of_quiet rfl hm (afterClose_ne _).1) rfl rfl rfl
      fun r he hl => absurd hl ((afterClose_ne _).2.2 r he)⟩
  | forget j isNew =>
    obtain rfl : j = i := some.inj hst
    have hm : ∀ m j' isNew', e.reading ≠ some (.onMessage m j' isNew') := by simp [hr]
    have hset := (h.halfClosed hs true (by simp [hr]) (by simp [hr])).2
    obtain ⟨table, he⟩ := e.forget_eq j s
    simp only [readStream]
    rw [he] at hset ⊢
    exact ⟨hset.afterClose hr (by simp) rfl rfl, .setStream hs (s.same_closed true).1
      (received_of_quiet rfl hm (afterClose_ne _).1) rfl rfl rfl
      fun r he hl => absurd hl ((afterClose_ne _).2.2 r he)⟩
  | start j =>
    obtain rfl : j = i := some.inj hst
    have hsame : s.Same { s with started := true } := ⟨rfl, rfl, rfl, by simp [Stream.held]⟩
    refine ⟨h.start hr hs, .setStream hs hsame (received_of_quiet rfl (by simp [hr]) ?_) rfl rfl rfl ?_⟩
    · simp [readStream, handle, setReading]
    · simp [readStream, handle, setReading]
  | refuse id method => simp [stream] at hst

theorem sound_read (hkeep : e.Reads c) : Sound handles e (e.read size c) := by
  unfold Client.read
  split
  · exact ⟨h, .rfl⟩
  · rename_i id method hr
    refine ⟨(h.readOn (by simp [hr]) (by simp) (by simp) (by rw [hr]; rfl) (by simp)).post _, ?_, ?_,
      fun s hs => ⟨s, hs, .rfl⟩, fun s hs => .inr ⟨s, hs, .rfl⟩, by simp [Client.setReading]⟩
    · exact received_of_quiet rfl (by simp [hr]) (by simp [Client.setReading])
    · exact ⟨_, rfl, rfl, fun m hm => mem_singleton.1 hm ▸ .inr ⟨rfl, hr⟩⟩
  rename_i r _ hr
  split
  · exact ⟨h, .rfl⟩
  rename_i i hst
  split
  · exact ⟨h, .rfl⟩
  · rename_i s hs
    exact sound_readStream h hr hst hs hkeep

theorem sound_act (hid : ∀ m ∈ e.taken, m.fromLocal = false → m.id ≤ e.seq) {a : Act}
    (hkeep : ∀ c, a = .read c → e.Reads c) : Sound handles e (e.act size a) := by
  cases a with
  | call => exact ⟨h.nextSeq, .quiet rfl rfl rfl rfl fun _ hr _ => hr⟩
  | newStream method => exact sound_newStream h hid method
  | send i p => exact sound_onHeld h fun s hs hh => sound_send h hs hh p
  | sendAndClose i p => exact sound_onHeld h fun s hs hh => sound_sendAndClose h hs hh p
  | closeRecv i => exact sound_onHeld h fun s hs hh => sound_closeRecv h hs hh
  | recv i => exact sound_onHeld h fun s hs _ => sound_recv h hs
  | advance k ok =>
    simp only [act]
    split
    · exact ⟨h, .rfl⟩
    rename_i c hc
    split
    · exact ⟨h, .rfl⟩
    · rename_i s hs
      exact sound_advance h hc hs ok
  | look => exact ⟨h, .rfl⟩
  | read c => exact sound_read h (hkeep c rfl)

structure Looks (handles : String → Bool) (e e' : Client) (m : Msg) : Prop where
  received : e'.received = e.received ++ [m]
  quiet : e'.out = e.out ∧ e'.log = e.log
  before : ∀ s ∈ e.streams, s ∈ e'.streams
  after : ∀ s' ∈ e'.streams, s' ∈ e.streams ∨ m.fromLocal = true ∧ s'.id = m.id ∧ s'.method = m.method ∧
    s'.isLocal = false
  refusing : ∀ id method, e'.reading = some (.refuse id method) → m.fromLocal = true ∧ id = m.id ∧ method = m.method
  opening : ∀ m' i, e'.reading = some (.onMessage m' i true) →
    m.fromLocal = true ∧ handles m.method = true ∧ e.table false m.id = none

theorem sound_onStreamMessage (hr : e.reading = none) {m : Msg} (hid : m.id ≠ 0)
    (hfirst : m.fromLocal = true → handles m.method = true → e.table false m.id = none →
      ∀ m' ∈ e.taken, m'.fromLocal = true → m'.id ≠ m.id) :
    Kept handles (e.onStreamMessage handles m) ∧ Looks handles e (e.onStreamMessage handles m) m := by
  have hpend : e.received = e.taken := by simp [received, pending, hr]
  unfold onStreamMessage
  split
  · rename_i i hm
    refine ⟨h.look hr hm, ?_, ⟨rfl, rfl⟩, fun _ hs => hs, fun _ hs => .inl hs, by simp [setReading],
      by simp [setReading]⟩
    rw [hpend]
    rfl
  rename_i hm
  split_ifs with hn hl
  · refine ⟨h.letGo hr hm hn (.inr ⟨_, _, rfl⟩), ?_, ⟨rfl, rfl⟩, fun _ hs => hs, fun _ hs => .inl hs,
    fun id method he => ?_,
      by simp [setReading]⟩
    · rw [hpend, received, pending_eq_nil (by simp [setReading]), append_nil]
      rfl
    · injection he with he
      injection he with hi hmeth
      exact ⟨hl, hi.symm, hmeth.symm⟩
  · refine ⟨h.letGo hr hm hn (.inl rfl), ?_, ⟨rfl, rfl⟩, fun _ hs => hs, fun _ hs => .inl hs, by simp [setReading],
      by simp [setReading]⟩
    rw [hpend, received, pending_eq_nil (by simp [setReading]), append_nil]
    rfl
  · push Not at hn
    have hf : m.fromLocal = true := by simpa using hn.2
    have hh : handles m.method = true := by simpa using hn.1
    rw [hf] at hm
    have hnone := hfirst hf hh hm
    have hothers : ∀ i t, e.streams[i]? = some t → StreamOK handles e.taken (e.table t.isLocal t.id = some i)
        (some (.onMessage m e.streams.length true)) i t := by
      intro i t ht
      have hok := h.streams i t ht
      rw [hr] at hok
      exact hok.look fun hi => absurd (List.getElem?_eq_some_iff.1 ht).1 (by omega)
    rw [newStream, if_neg hid]
    refine ⟨?_, ?_, ⟨rfl, rfl⟩, fun s hs => mem_append_left _ hs, fun s hs => ?_, by simp [setReading],
      fun _ _ _ => ⟨hf, hh, hm⟩⟩
    · refine h.addStream (fun t ht hi hl => ?_) (fun hl => absurd hl Bool.false_ne_true) rfl
        (.opened (fun m' hm' hi hf' => hnone m' hm' (by simpa using hf') hi) (fun hl => absurd hl (by decide))
          (by simp) fun _ => ⟨hh, m, rfl⟩)
        hothers (fun m' i isNew he => .inr ?_) fun i hi => ?_
      · obtain ⟨i, hi'⟩ := mem_iff_getElem?.1 ht
        obtain ⟨m', hm', hf', hid'⟩ : ∃ m' ∈ e.taken, m'.fromLocal = true ∧ m'.id = t.id := by
          simpa [hr] using (h.streams i t hi').known hl
        exact hnone m' hm' hf' (hid'.trans hi)
      · injection he with he
        injection he with hmm hi _
        subst hmm hi
        exact ⟨rfl, rfl, by rw [hf]; rfl⟩
      · exact (some.inj hi).ge
    · rw [hpend]
      rfl
    · rcases mem_append.1 hs with hs | hs
      · exact .inl hs
      · obtain rfl := mem_singleton.1 hs
        exact .inr ⟨hf, rfl, rfl, rfl⟩

end Fib.Arpc
