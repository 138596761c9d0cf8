import Fib.Core.Exact
import Fib.Core.Rounds

/-! A read the connection is owed is never forgotten: while one is, a round holds it, or a mark that whoever clears
what it waits for hands back. -/

namespace Fib.Core
open Events Output

/-! ### What the output's regions leave -/

namespace Output
variable {c : Output}

theorem Sound.queue_ne_nil {d : Output} (h : c.Sound) {y : Bytes} (ha : Appends c y d) (hq : c.queue ≠ []) :
    d.queue ≠ [] := by
  intro hd
  have hleft := ha.left
  rw [hd, content_nil] at hleft
  exact h.content_ne_nil hq (List.append_eq_nil_iff.1 hleft.symm).1

theorem Exact.queue_of_pending (h : c.Exact) (hp : 0 < c.pendingBytes) : c.queue ≠ [] := by
  intro hq
  have hn := h.counted
  rw [hq, content_nil, List.length_nil] at hn
  omega

/-- The queue does not become empty unless the region says so or the connection is closed. -/
def Empties (c : Output) (r : Output × Ending) : Prop :=
  c.queue ≠ [] → r.1.queue ≠ [] ∨ r.2 = .drained ∨ r.1.closed = true

theorem queue_giveBack (mode : SendMode) (cause : Cause) : (c.giveBack mode cause).queue = c.queue := by
  cases mode <;> rfl

theorem queue_queuedSend (n : ℕ) : (c.queuedSend n).1.queue = c.queue := by
  rw [queuedSend, (addPending_spec c n).2]
  rfl

section
variable (cfg : Config)
include cfg
variable (h : c.Exact)
include h

theorem empties_sendRest (data : Bytes) (hd : data ≠ []) (mode : SendMode) :
    c.Empties (c.sendRest cfg data mode 0) := by
  intro hq
  have hpos := List.length_pos_iff.2 hd
  have hs : ((c.give (data.take 0)).offer data true).Sound := (h.sound.give (.inl rfl)).offer data true
  simp only [sendRest]
  split_ifs with hall
  · omega
  · left
    rw [queue_giveBack]
    exact hq
  · left
    rw [queue_queuedSend]
    exact hs.queue_ne_nil (appends_queueMode cfg hs hpos mode) hq

theorem empties_send (data : Bytes) (mode : SendMode) (socket : List Wrote) :
    c.Empties (c.send cfg data mode socket) := by
  rw [send]
  split_ifs with hr hcork hover hd
  · exact fun hq => .inl (by rwa [queue_giveBack])
  · exact fun hq => .inl hq
  · have hs := h.sound.offer data true
    intro hq
    have hq' := hs.queue_ne_nil (appends_queueLocked cfg hs (not_or.1 hr).1) hq
    exact .inl hq'
  · exact fun hq => absurd (h.queue_of_direct hd) hq
  · exact empties_sendRest cfg h data (not_or.1 hr).1 mode

theorem empties_sendPartsRest (first second : Bytes) (shared : Bool)
    (hd : (first ++ second).length ≠ 0) : c.Empties (c.sendPartsRest cfg first second shared 0) := by
  intro hq
  have hs : ((c.give ((first ++ second).take 0)).offer (first ++ second) true).Sound :=
    (h.sound.give (.inl rfl)).offer _ true
  simp only [sendPartsRest]
  split_ifs with hall
  · omega
  · exact .inl hq
  · left
    rw [queue_queuedSend]
    exact hs.queue_ne_nil (appends_queueParts cfg hs (Nat.pos_of_ne_zero hd) shared) hq

theorem empties_sendParts (first second : Bytes) (shared : Bool)
    (socket : List Wrote) : c.Empties (c.sendParts cfg first second shared socket) := by
  simp only [sendParts]
  have hs := h.sound.offer (first ++ second) true
  split_ifs with hr hcork hover hsh hd
  · exact fun hq => .inl hq
  · exact fun hq => .inl hq
  · intro hq
    have hq' := hs.queue_ne_nil (appends_queueSharedPartsLocked cfg hs first second) hq
    exact .inl hq'
  · intro hq
    have hne : first ++ second ≠ [] := fun he => (not_or.1 hr).1 (by rw [he]; rfl)
    have hq' := hs.queue_ne_nil (appends_queueLocked cfg hs hne) hq
    exact .inl hq'
  · exact fun hq => absurd (h.queue_of_direct hd) hq
  · exact empties_sendPartsRest cfg h first second shared (not_or.1 hr).1

theorem empties_flushLoop (socket : List Wrote) :
    (c.flushLoop cfg socket).1.queue ≠ [] ∨ (c.flushLoop cfg socket).2 = .drained := by
  fun_induction flushLoop cfg c socket with
  | case1 => exact .inr rfl
  | case2 c he | case4 c he | case5 c he | case6 c he => exact .inl (h.queue_ne_nil he)
  | case3 c he os ih => exact ih h
  | case7 c he n os attempted h0 hlt =>
    -- less than the batch went, so something of it is left
    have hw := (exact_wrote cfg h (h.queue_ne_nil he) hlt.le).counted
    have hn : (c.wrote cfg n).pendingBytes + (c.wrote cfg n).corkedBytes = c.pendingBytes + c.corkedBytes - n + 0 := rfl
    have hlen := length_content_batch cfg c
    rw [hn, h.counted] at hw
    refine .inl fun hq' => ?_
    have hnil : content (c.wrote cfg n).queue = [] := by
      rw [show (c.wrote cfg n).queue = [] from hq', content_nil]
    rw [hnil, List.length_nil] at hw
    omega
  | case8 c he n os attempted h0 hlt hall ih => exact ih (exact_wrote cfg h (h.queue_ne_nil he) le_rfl)
  | case9 c he n os attempted h0 hlt hmore =>
    exact .inl ((exact_wrote cfg h (h.queue_ne_nil he) le_rfl).queue_ne_nil hmore)

theorem empties_flushLocked (socket : List Wrote) : c.Empties (c.flushLocked cfg socket) := by
  intro hq
  rw [flushLocked]
  split_ifs
  · exact .inl hq
  · exact .inl hq
  · rcases empties_flushLoop cfg (h.flags true c.corked c.writeShut) socket with hq' | hd
    · exact .inl hq'
    · exact .inr (.inl hd)

theorem empties_uncork (socket : List Wrote) : c.Empties (c.uncork cfg socket) := by
  have hd : ({ c with corked := false } : Output).foldCorkedLocked.Exact :=
    (h.flags c.flushing false c.writeShut).foldCorkedLocked
  intro hq
  simp only [uncork]
  split_ifs
  · exact .inl hq
  · exact empties_flushLocked cfg hd socket hq

theorem empties_act (op : Op) : c.Empties (c.act cfg op) := by
  cases op with
  | send data mode socket => exact empties_send cfg h data mode socket
  | sendParts first second shared socket => exact empties_sendParts cfg h first second shared socket
  | cork => exact fun hq => .inl hq
  | uncork socket => exact empties_uncork cfg h socket
  | flushOutput socket => exact empties_flushLocked cfg h socket
  | resume socket =>
    intro hq
    simp only [act, resume]
    split_ifs
    · exact (empties_flushLoop cfg h socket).imp_right .inl
    · exact .inl hq
  | closeAfterSend =>
    intro hq
    simp only [act, closeAfterSendRaw]
    split_ifs <;> exact .inl hq
  | finishClose =>
    intro hq
    simp only [act, finishClose]
    split_ifs <;> exact .inl hq
  | closeWithError => exact fun hq => .inl hq
  | closeWrite => exact fun hq => .inl hq
  | markClosed =>
    intro hq
    simp only [act]
    split_ifs
    · exact .inl hq
    · exact .inr (.inr rfl)

end

def Ended (c : Output) : Prop := c.closing = true ∨ c.closed = true

section
variable (cfg : Config) (socket : List Wrote) (h : c.Ended)
include cfg socket h

theorem ended_flushLoop : (c.flushLoop cfg socket).1.Ended := by
  fun_induction flushLoop cfg c socket with
  | case3 c he os ih | case8 c he n os attempted h0 hlt hall ih => exact ih h
  | case1 | case2 | case4 | case5 | case6 | case7 | case9 => exact h

theorem ended_flushLocked : (c.flushLocked cfg socket).1.Ended := by
  have hc : (c.closing || c.closed) = true := by simpa [Ended] using h
  rw [flushLocked, if_pos hc]
  exact h

theorem ended_uncork : (c.uncork cfg socket).1.Ended := by
  simp only [uncork]
  split_ifs
  · exact h
  · exact ended_flushLocked cfg socket h

end

theorem refuses_of_ended (h : c.Ended) : c.refuses = true := by
  rcases h with h | h <;> simp [refuses, h]

theorem ended_act (cfg : Config) (h : c.Ended) (op : Op) : (c.act cfg op).1.Ended := by
  have hr := refuses_of_ended h
  cases op with
  | send data mode socket =>
    simp only [act, send]
    rw [if_pos (.inr hr)]
    cases mode <;> exact h
  | sendParts first second shared socket =>
    simp only [act, sendParts]
    rw [if_pos (.inr hr)]
    exact h
  | cork => exact h
  | uncork socket => exact ended_uncork cfg socket h
  | flushOutput socket => exact ended_flushLocked cfg socket h
  | resume socket =>
    simp only [act, resume]
    split_ifs
    · exact ended_flushLoop cfg socket h
    · exact h
  | closeAfterSend =>
    simp only [act, closeAfterSendRaw]
    split_ifs <;> exact h
  | finishClose =>
    simp only [act, finishClose]
    split_ifs
    · exact .inl rfl
    · exact h
  | closeWithError => exact .inl rfl
  | closeWrite => exact h
  | markClosed =>
    simp only [act]
    split_ifs
    · exact h
    · exact .inl rfl

end Output

/-! ### The marks -/

/-- The round has a read of the socket still before it, or goes on to end the connection. -/
def Pc.holds : Pc → Bool
  | .idle => false
  | .top deferred => deferred.inp
  | .flushable events => events.inp
  | .flush events => events.inp
  | .priority events => events.inp
  | .input events => events.inp
  | .defers events => events.inp
  | .handler _ short => !short
  | .uncorkEnd _ err => err
  | .ending _ deferred => deferred.inp
  | .hangup deferred => deferred.inp
  | .hangupStall deferred => deferred.inp
  | _ => true

namespace Conn
variable {s : Conn} {cfg : ReadConfig}

/-- What of the invariant does not depend on the pause. -/
structure Carried (s : Conn) : Prop where
  exact : s.out.Exact
  deferred : s.ended = false → s.readDeferred = true → s.out.queue ≠ []
  pending : s.ended = false → s.pendingEvents ≠ {} →
    s.pc ≠ .idle ∨ s.readDeferred = true ∨ s.readStalled = true ∨ s.redelivering = true
  owed : s.ended = false → s.owed = true →
    s.pendingEvents.inp = true ∨ s.readStalled = true ∨ s.redelivering = true ∨ s.pc.holds = true

/-- Each mark has someone who takes it back: a pause ends with the hold, a refresh or the queue, a stalled read with
the pause or a refresh, a deferred one with the queue. -/
structure Marked (s : Conn) : Prop extends s.Carried where
  paused : s.ended = false → s.readPaused = true → s.held = true ∨ 0 < s.refreshes ∨ s.out.queue ≠ []
  stalled : s.ended = false → s.readStalled = true → s.readPaused = true ∨ 0 < s.refreshes

theorem ended_iff : s.ended = true ↔ s.out.Ended := by
  simp [ended, Output.Ended]

theorem marked_of_ended (hex : s.out.Exact) (h : s.ended = true) : s.Marked := by
  refine ⟨⟨hex, ?_, ?_, ?_⟩, ?_, ?_⟩ <;> simp [h]

theorem pauseDecision_reason (hex : s.out.Exact) {readPaused : Bool} (h : s.pauseDecision cfg readPaused = true) :
    s.held = true ∨ s.out.queue ≠ [] := by
  rw [pauseDecision] at h
  split_ifs at h with hheld hwm hhigh
  · exact .inl hheld
  · refine .inr (hex.queue_of_pending ?_)
    have := not_or.1 hwm
    omega
  · simp only [Bool.and_eq_true, decide_eq_true_eq] at h
    exact .inr (hex.queue_of_pending (by omega))

theorem Carried.settlePauseLocked (h : s.Carried) : (s.settlePauseLocked cfg).Marked := by
  have hex : s.out.foldCorkedLocked.Exact := h.exact.foldCorkedLocked
  simp only [Conn.settlePauseLocked]
  split_ifs with hend hrun hidle
  · exact marked_of_ended hex hend
  · -- reads stay paused, or nothing is stalled
    refine ⟨{ h with exact := hex }, fun _ hp => ?_, fun _ hs => ?_⟩
    · exact (pauseDecision_reason hex hp).imp_right .inr
    · rcases Bool.or_eq_true_iff.1 hrun with hp | hn
      · exact .inl hp
      · simp only [Bool.not_eq_true'] at hn
        simp [hn] at hs
  · refine ⟨{ h with exact := hex }, fun _ _ => .inr (.inl (Nat.succ_pos _)), fun _ _ => .inr (Nat.succ_pos _)⟩
  · have hpc : s.pc ≠ .idle := by simpa [scheduled] using hidle
    refine ⟨⟨hex, h.deferred, fun _ _ => .inl hpc, fun _ _ => .inl (by simp [union])⟩, fun _ hp => ?_,
      fun _ hs => nomatch hs⟩
    exact (pauseDecision_reason hex hp).imp_right .inr

theorem pc_settlePauseLocked (s : Conn) (cfg : ReadConfig) : (s.settlePauseLocked cfg).pc = s.pc := by
  simp only [Conn.settlePauseLocked]
  split_ifs <;> rfl

theorem pc_settleOutput (s : Conn) (cfg : ReadConfig) (r : Output × Output.Ending) :
    (s.settleOutput cfg r).pc = s.pc := by
  simp only [settleOutput]
  split
  · exact pc_settlePauseLocked _ cfg
  · exact pc_settlePauseLocked _ cfg
  · exact pc_settlePauseLocked _ cfg
  · rfl

theorem marked_stallRead (hex : s.out.Exact) (hd : s.ended = false → s.readDeferred = true → s.out.queue ≠ []) :
    (s.stallRead cfg).Marked := by
  have h : ({ s with readStalled := true } : Conn).Carried :=
    ⟨hex, hd, fun _ _ => .inr (.inr (.inl rfl)), fun _ _ => .inr (.inl rfl)⟩
  exact h.settlePauseLocked

variable {r : Output × Output.Ending} {pc : Pc}

theorem Marked.settleOutput (h : s.Marked) (hex : r.1.Exact)
    (hend : s.out.Ended → r.1.Ended) (hq : s.out.Empties r) : (s.settleOutput cfg r).Marked := by
  obtain ⟨out, ending⟩ := r
  have hopen : ({ s with out } : Conn).ended = false → s.ended = false := by
    intro ho
    by_contra hc
    have hout := (ended_iff (s := { s with out })).2 (hend (ended_iff.1 (by simpa using hc)))
    rw [ho] at hout
    contradiction
  -- the queue is as it was, or the region drained it
  have hkept : ending ≠ .drained → ({ s with out } : Conn).ended = false → s.out.queue ≠ [] → out.queue ≠ [] := by
    intro hn ho hne
    rcases hq hne with hne | hd | hc
    · exact hne
    · exact absurd hd hn
    · have hc : out.closed = true := hc
      simp [ended, hc] at ho
  have hcarried : ending ≠ .drained → ({ s with out } : Conn).Carried := by
    intro hn
    exact ⟨hex, fun ho hd => hkept hn ho (h.deferred (hopen ho) hd), fun ho => h.pending (hopen ho),
      fun ho => h.owed (hopen ho)⟩
  have hrest : ending ≠ .drained → ({ s with out } : Conn).Marked := by
    intro hn
    refine ⟨hcarried hn, fun ho hp => ?_, fun ho => h.stalled (hopen ho)⟩
    exact (h.paused (hopen ho) hp).imp_right (Or.imp_right (hkept hn ho))
  cases ending with
  | drained =>
    refine Carried.settlePauseLocked ⟨hex, nofun, fun ho hp => ?_, fun ho hw => ?_⟩
    · rcases h.pending (hopen ho) hp with h' | h' | h' | h'
      · exact .inl h'
      · exact .inr (.inr (.inl (by simp [h'])))
      · exact .inr (.inr (.inl (by simp [h'])))
      · exact .inr (.inr (.inr h'))
    · exact (h.owed (hopen ho) hw).imp_right (Or.imp_left fun h' => by simp [h'])
  | queued => exact (hcarried nofun).settlePauseLocked
  | blocked => exact (hcarried nofun).settlePauseLocked
  | quiet => exact hrest nofun
  | failed => exact hrest nofun
  | window => exact hrest nofun

/-! ### The event loop -/

theorem submit_pc : s.submit.pc ≠ .idle := by
  rw [submit]
  show (if s.scheduled = true then s.pc else .top {}) ≠ .idle
  split_ifs with h
  · simpa [scheduled] using h
  · nofun

theorem holds_submit (h : s.pc.holds = true) : s.submit.pc.holds = true := by
  have hs : s.scheduled = true := by
    cases hpc : s.pc <;> simp [Pc.holds, scheduled, hpc] at h ⊢
  simpa [submit, hs] using h

theorem marked_noteEvent {events : Events} (hne : events ≠ {}) (hex : s.out.Exact)
    (hdef : s.ended = false → s.readDeferred = true → s.out.queue ≠ [])
    (hpaused : s.ended = false → s.readPaused = true → s.held = true ∨ 0 < s.refreshes ∨ s.out.queue ≠ [])
    (hstalled : s.ended = false → s.readStalled = true → s.readPaused = true ∨ 0 < s.refreshes)
    (howed : s.ended = false → s.owed = true → events.inp = true ∨
      s.pendingEvents.inp = true ∨ s.readStalled = true ∨ s.redelivering = true ∨ s.pc.holds = true) :
    (s.noteEvent events).Marked := by
  by_cases hend : s.ended = true
  · rw [noteEvent, if_pos (.inr hend)]
    exact marked_of_ended hex hend
  rw [Bool.not_eq_true] at hend
  simp only [noteEvent, hne, hend, false_or, Bool.false_eq_true, if_false]
  generalize hstall : (s.readPaused && events.inp && events.inOutOnly) = stall
  have hst : (s.readStalled || stall) = true → s.readPaused = true ∨ 0 < s.refreshes := by
    intro hb
    rcases Bool.or_eq_true_iff.1 hb with hb | rfl
    · exact hstalled hend hb
    · simp only [Bool.and_eq_true] at hstall
      exact .inl hstall.1.1
  -- an input edge is left in the events, or it is the stalled read
  have hinp : events.inp = true → (events.inp && !stall) = true ∨ (s.readStalled || stall) = true := by
    intro hi
    cases stall <;> simp [hi]
  split_ifs with hnone hout
  · have hs : stall = true := by
      by_contra hs
      rw [Bool.not_eq_true] at hs
      exact hne (by rw [← hnone, hs]; simp)
    have hr : (s.readStalled || stall) = true := by simp [hs]
    exact ⟨⟨hex, hdef, fun _ _ => .inr (.inr (.inl hr)), fun _ _ => .inr (.inl hr)⟩, hpaused, fun _ => hst⟩
  · have hno : (events.inp && !stall) = false := congrArg inp hout.1
    refine ⟨⟨hex, hdef, fun _ hp => absurd hout.2.2 hp, fun _ hw => ?_⟩, hpaused, fun _ => hst⟩
    rcases howed hend hw with hi | hp | hr | hrest
    · rcases hinp hi with hi | hr
      · rw [hno] at hi
        contradiction
      · exact .inr (.inl hr)
    · exact .inl hp
    · exact .inr (.inl (by simp [hr]))
    · exact .inr (.inr hrest)
  · refine ⟨⟨hex, hdef, fun _ _ => .inl submit_pc, fun _ hw => ?_⟩, hpaused, fun _ => hst⟩
    rcases howed hend hw with hi | hp | hr | hrd | hh
    · rcases hinp hi with hi | hr
      · exact .inl (by simp [submit, union, hi])
      · exact .inr (.inl hr)
    · exact .inl (by simp [submit, union, hp])
    · exact .inr (.inl (by simp [submit, hr]))
    · exact .inr (.inr (.inl hrd))
    · exact .inr (.inr (.inr (holds_submit hh)))

section
variable (h : s.Marked)
include h

theorem marked_refreshConnection (hidle : s.redelivering = false) : (s.refreshConnection cfg).Marked := by
  have hex : s.out.foldCorkedLocked.Exact := h.exact.foldCorkedLocked
  simp only [refreshConnection]
  generalize hp : pauseDecision cfg _ _ = pause
  have hopen : ({ s with out := s.out.foldCorkedLocked } : Conn).ended = s.ended := rfl
  rw [hopen]
  -- a stalled read stays so while reads are paused, and is handed back otherwise
  have hback : s.ended = false → s.readStalled = true →
      (s.readStalled && pause) = true ∨ (s.readStalled && !pause && !s.ended) = true := by
    intro ho hs
    cases pause <;> simp [hs, ho]
  refine ⟨⟨hex, h.deferred, fun ho hn => ?_, fun ho hw => ?_⟩, fun _ hpause => ?_, fun _ hs => ?_⟩
  · rcases h.pending ho hn with h' | h' | h' | h'
    · exact .inl h'
    · exact .inr (.inl h')
    · exact .inr (.inr (hback ho h'))
    · simp [hidle] at h'
  · rcases h.owed ho hw with h' | h' | h' | h'
    · exact .inl h'
    · rcases hback ho h' with h' | h'
      · exact .inr (.inl h')
      · exact .inr (.inr (.inl h'))
    · simp [hidle] at h'
    · exact .inr (.inr (.inr h'))
  · subst hpause
    exact (pauseDecision_reason hex hp).imp_right .inr
  · exact .inl (Bool.and_eq_true_iff.1 hs).2

/-! ### A round -/

/-- A step that touches no mark: the goroutine of the round goes on with the read it holds. -/
theorem Marked.goes {t : Conn} (hex : t.out.Exact) (hpc : s.pc ≠ .idle → t.pc ≠ .idle)
    (hold : t.owed = true → s.pc.holds = true → t.pc.holds = true) (hw : t.owed = true → s.owed = true := by exact id)
    (hq : s.out.queue ≠ [] → t.out.queue ≠ [] := by exact id) (hend : t.ended = false → s.ended = false := by exact id)
    (hp : t.readPaused = s.readPaused := by rfl) (hs : t.readStalled = s.readStalled := by rfl)
    (hd : t.readDeferred = s.readDeferred := by rfl) (he : t.pendingEvents = s.pendingEvents := by rfl)
    (hh : t.held = s.held := by rfl) (hr : t.refreshes = s.refreshes := by rfl)
    (hrd : t.redelivering = s.redelivering := by rfl) : t.Marked := by
  refine ⟨⟨hex, ?_, ?_, ?_⟩, ?_, ?_⟩
  · rw [hd]
    exact fun ho hd => hq (h.deferred (hend ho) hd)
  · rw [he, hd, hs, hrd]
    exact fun ho hn => (h.pending (hend ho) hn).imp_left hpc
  · rw [he, hs, hrd]
    exact fun ho ht => (h.owed (hend ho) (hw ht)).imp_right (Or.imp_right (Or.imp_right (hold ht)))
  · rw [hp, hh, hr]
    exact fun ho hp => (h.paused (hend ho) hp).imp_right (Or.imp_right hq)
  · rw [hs, hp, hr]
    exact fun ho => h.stalled (hend ho)

theorem Marked.at_pc (hpc : pc ≠ .idle) (hold : s.pc.holds = true → pc.holds = true) : ({ s with pc } : Conn).Marked :=
  h.goes h.exact (fun _ => hpc) (fun _ => hold)

theorem Marked.beginReadLocked (hpc : pc.holds = true) : ({ s.beginReadLocked with pc } : Conn).Marked := by
  have hne : pc ≠ .idle := by
    rintro rfl
    simp [Pc.holds] at hpc
  exact ⟨⟨h.exact.flags s.out.flushing _ s.out.writeShut, nofun, fun _ _ => .inl hne,
    fun _ _ => .inr (.inr (.inr hpc))⟩, h.paused, nofun⟩

theorem marked_takeEvents {deferred : Events} (hpc : s.pc = .top deferred) : (s.takeEvents deferred).Marked := by
  have howed : s.ended = false → s.owed = true → (s.pendingEvents.union deferred).inp = true ∨
      s.readStalled = true ∨ s.redelivering = true := by
    intro ho hw
    rcases h.owed ho hw with h' | h' | h' | h'
    · exact .inl (by simp [union, h'])
    · exact .inr (.inl h')
    · exact .inr (.inr h')
    · rw [hpc] at h'
      exact .inl (by simpa [union, Pc.holds] using .inr h')
  simp only [takeEvents]
  split_ifs with hstop hend hread
  · -- only the deferred read is left, and the queue's drain hands it back
    refine ⟨⟨h.exact, fun _ hd => ?_, fun _ hn => ?_, fun ho hw => ?_⟩, h.paused, h.stalled⟩
    · have hne : deferred ≠ {} := by simpa using hd
      have hq := hstop.2.resolve_left hne
      intro hnil
      rw [(isEmpty_iff h.exact.sound.head).2 hnil] at hq
      contradiction
    · have hne : deferred ≠ {} := by
        rw [← hstop.1]
        exact hn
      exact .inr (.inl (by simpa using hne))
    · exact (howed ho hw).imp_right (Or.imp_right .inl)
  · exact marked_of_ended h.exact hend
  · have hb : ({ s with
        pendingEvents := {}
        roundStalled := false
        hupOwed := s.hupOwed && !(s.hupOwed && (s.pendingEvents.union deferred).inp)
        pc := .loop {} } : Conn).Marked := by
      refine ⟨⟨h.exact, h.deferred, fun _ hn => absurd rfl hn, fun _ _ => .inr (.inr (.inr rfl))⟩, h.paused, h.stalled⟩
    exact hb.beginReadLocked rfl
  · refine ⟨⟨h.exact, h.deferred, fun _ hn => absurd rfl hn, fun ho hw => ?_⟩, h.paused, h.stalled⟩
    rcases howed ho hw with h' | h' | h'
    · exact .inr (.inr (.inr h'))
    · exact .inr (.inl h')
    · exact .inr (.inr (.inl h'))

end

theorem holds_onError (pc : Pc) : pc.onError.holds = true := by
  cases pc <;> rfl

section
variable (h : s.Marked)
include h

theorem Marked.roundFlush (hex : r.1.Exact) (hend : s.out.Ended → r.1.Ended) (hq : s.out.Empties r) {next : Pc}
    (hn : next ≠ .idle) (hold : s.pc.holds = true → next.holds = true) : (s.roundFlush cfg r next).Marked := by
  have hpc := pc_settleOutput s cfg r
  have hm : (s.settleOutput cfg r).Marked := h.settleOutput hex hend hq
  refine hm.goes hm.exact (fun _ => ?_) fun _ hh => ?_
  · show (if r.2 = .failed then next.onError else next) ≠ .idle
    split_ifs
    · intro hi
      have := holds_onError next
      rw [hi] at this
      contradiction
    · exact hn
  · rw [hpc] at hh
    show (if r.2 = .failed then next.onError else next).holds = true
    split_ifs
    · exact holds_onError next
    · exact hold hh

theorem Marked.roundUncork (socket : List Wrote) {next : Pc} (hn : next ≠ .idle)
    (hold : s.pc.holds = true → next.holds = true) :
    (s.roundFlush cfg (s.out.uncork cfg.toConfig socket) next).Marked :=
  h.roundFlush (exact_uncork cfg.toConfig h.exact socket) (ended_uncork cfg.toConfig socket)
    (empties_uncork cfg.toConfig h.exact socket) hn hold

/-- The read the round gives up is stalled or handed back to it, wherever it goes on. -/
theorem Marked.stallRead (hs : s.pc ≠ .idle) (hpc : pc ≠ .idle) : ({ s.stallRead cfg with pc } : Conn).Marked := by
  have hmove : ({ s.stallRead cfg with pc } : Conn) = ({ s with pc } : Conn).stallRead cfg := by
    simp only [Conn.stallRead, Conn.settlePauseLocked, ended, scheduled, pauseDecision, requestRefresh,
      bne_iff_ne.2 hs, bne_iff_ne.2 hpc]
    split_ifs <;> rfl
  rw [hmove]
  exact marked_stallRead h.exact h.deferred

theorem marked_turnAt (io : Io) (hpc : s.pc = pc) : (s.turnAt cfg io pc).Marked := by
  cases pc with
  | idle => exact h
  | top deferred => exact marked_takeEvents h hpc
  | flushable events =>
    simp only [turnAt]
    split_ifs <;> exact h.at_pc nofun (by rw [hpc]; exact id)
  | flush events =>
    exact h.roundFlush (exact_flushLocked cfg.toConfig h.exact io.socket)
      (ended_flushLocked cfg.toConfig io.socket) (empties_flushLocked cfg.toConfig h.exact io.socket)
      nofun (by rw [hpc]; exact id)
  | priority events =>
    simp only [turnAt]
    split_ifs
    · exact h.at_pc nofun fun _ => rfl
    · exact h.at_pc nofun (by rw [hpc]; exact id)
  | input events =>
    simp only [turnAt]
    split_ifs with hi he
    · exact h.goes h.exact.foldCorkedLocked (fun _ => nofun) fun _ _ => rfl
    · exact h.goes h.exact.foldCorkedLocked (fun _ => nofun) fun _ _ => hi
    · exact h.at_pc nofun (by rw [hpc]; exact fun hh => absurd hh hi)
  | defers events | shouldStop events =>
    simp only [turnAt]
    split_ifs <;> exact h.at_pc nofun fun _ => rfl
  | begin events => exact h.beginReadLocked rfl
  | loop events | mustStop events =>
    simp only [turnAt]
    split_ifs
    · exact h.goes h.exact (fun _ => nofun) fun _ _ => rfl
    · exact h.at_pc nofun fun _ => rfl
  | read events =>
    simp only [turnAt]
    cases io.read with
    | data short =>
      refine h.goes h.exact (fun _ => nofun) (fun hw _ => ?_) fun hw => ?_
      · exact (Bool.and_eq_true_iff.1 hw).2
      · exact (Bool.and_eq_true_iff.1 hw).1
    | again => exact h.goes h.exact (fun _ => nofun) nofun nofun
    | eof | intr | fail => exact h.at_pc nofun fun _ => rfl
  | handler events short =>
    simp only [turnAt]
    split_ifs with hs
    · exact h.at_pc nofun (by rw [hpc, hs]; exact id)
    · exact h.at_pc nofun fun _ => rfl
    · exact h.at_pc nofun fun _ => rfl
  | settleLong events =>
    simp only [turnAt]
    split_ifs
    · exact h.roundUncork io.socket nofun fun _ => rfl
    · exact h.at_pc nofun fun _ => rfl
  | settleEnd events =>
    simp only [turnAt]
    split_ifs with hend
    · exact marked_of_ended h.exact hend
    · exact h.goes (h.exact.flags s.out.flushing _ s.out.writeShut) (fun _ => nofun) fun _ _ => rfl
  | charge events => exact h.goes h.exact.foldCorkedLocked (fun _ => nofun) fun _ _ => rfl
  | uncork events => exact h.roundUncork io.socket nofun fun _ => rfl
  | recork events =>
    exact h.goes (h.exact.flags s.out.flushing _ s.out.writeShut) (fun _ => nofun) fun _ _ => rfl
  | stall _ | hangupStall _ => exact h.stallRead (by rw [hpc]; nofun) nofun
  | uncorkEnd events err =>
    refine h.roundUncork io.socket ?_ ?_
    · split_ifs <;> nofun
    · rw [hpc]
      intro hh
      rw [show err = true from hh]
      rfl
  | ending events deferred =>
    simp only [turnAt]
    split_ifs <;> first | exact h.at_pc nofun fun _ => rfl | exact h.at_pc nofun (by rw [hpc]; exact id)
  | hangup deferred =>
    exact h.goes h.exact (fun _ => nofun) (by rw [hpc]; exact fun _ => id)
  | failing deferred => exact marked_of_ended (exact_closeWithError h.exact) rfl

/-! ### Every step -/

theorem Marked.resumed (ending : Output.Ending) : (s.resumed ending).Marked := by
  rw [Conn.resumed]
  split_ifs
  · refine h.goes h.exact (fun _ hi => ?_) fun _ _ => holds_onError s.pc
    have hh := holds_onError s.pc
    rw [show s.pc.onError = .idle from hi] at hh
    contradiction
  · exact h.goes h.exact id fun _ => id
  · exact h

theorem Marked.onOutput (op : Output.Op) : (s.onOutput cfg op).Marked := by
  have hm : (s.settleOutput cfg (s.out.act cfg.toConfig op)).Marked :=
    h.settleOutput (exact_step cfg.toConfig h.exact op)
      (fun he => ended_act cfg.toConfig he op) (empties_act cfg.toConfig h.exact op)
  simp only [Conn.onOutput]
  split
  · split_ifs
    · exact hm.resumed _
    · exact h
  · split_ifs
    · exact h
    · exact hm.goes hm.exact (fun _ => submit_pc) fun _ => holds_submit
  · exact hm

theorem marked_request (held noBackpressure : Bool) : ({ s with held, noBackpressure } : Conn).requestRefresh.Marked :=
  ⟨{ h with }, fun _ _ => .inr (.inl (Nat.succ_pos _)), fun _ _ => .inr (Nat.succ_pos _)⟩

theorem marked_step (op : Op) : (s.step cfg op).Marked := by
  cases op with
  | output op => exact h.onOutput op
  | event events =>
    simp only [step]
    by_cases hne : events = {}
    · subst hne
      rw [noteEvent, if_pos (.inl rfl)]
      exact h.goes h.exact id (fun _ => id) (by simp)
    · refine marked_noteEvent hne h.exact h.deferred h.paused h.stalled fun ho hw => ?_
      rcases Bool.or_eq_true_iff.1 hw with hw | hi
      · exact .inr (h.owed ho hw)
      · exact .inl hi
  | refresh =>
    simp only [step]
    split_ifs with hr
    · exact h
    · exact marked_refreshConnection h (by simpa using (not_or.1 hr).2)
  | redeliver =>
    simp only [step]
    split_ifs
    · exact marked_noteEvent nofun h.exact h.deferred h.paused h.stalled fun _ _ => .inl rfl
    · exact h
  | hold hold =>
    simp only [step]
    split_ifs
    · exact h
    · exact marked_request h hold s.noBackpressure
  | backpressure on =>
    simp only [step]
    split_ifs
    · exact h
    · exact marked_request h s.held !on
  | coalesce enabled => exact h.goes h.exact id fun _ => id
  | turn io =>
    simp only [step, turn]
    split_ifs
    · exact h
    · exact marked_turnAt h io rfl

end

theorem marked_init : ({} : Conn).Marked :=
  ⟨⟨exact_init, nofun, fun _ h => absurd rfl h, nofun⟩, nofun, nofun⟩

/-! ### Every run -/

/-- The connection is open, no round of it is scheduled, no refresh of it is queued or being carried out, its reads
are not held and it has nothing to send. -/
structure Quiet (s : Conn) : Prop where
  opened : s.ended = false
  unscheduled : s.scheduled = false
  noCommand : s.refreshes = 0 ∧ s.redelivering = false
  unheld : s.held = false
  drained : s.out.isEmpty = true

instance (s : Conn) : Decidable s.Quiet :=
  decidable_of_iff (s.ended = false ∧ s.scheduled = false ∧ (s.refreshes = 0 ∧ s.redelivering = false) ∧
    s.held = false ∧ s.out.isEmpty = true)
    ⟨fun ⟨h1, h2, h3, h4, h5⟩ => ⟨h1, h2, h3, h4, h5⟩, fun ⟨h1, h2, h3, h4, h5⟩ => ⟨h1, h2, h3, h4, h5⟩⟩

structure Clear (s : Conn) : Prop where
  notStalled : s.readStalled = false
  notDeferred : s.readDeferred = false
  nothingPending : s.pendingEvents = {}
  notPaused : s.readPaused = false
  emptied : s.owed = false

theorem Marked.clear (h : s.Marked) (hq : s.Quiet) : s.Clear := by
  have hidle : s.pc = .idle := by simpa [scheduled] using hq.unscheduled
  have hempty := (isEmpty_iff h.exact.sound.head).1 hq.drained
  have hpaused : s.readPaused = false := by
    by_contra hc
    have := h.paused hq.opened (by simpa using hc)
    simp [hq.unheld, hq.noCommand.1, hempty] at this
  have hstalled : s.readStalled = false := by
    by_contra hc
    have := h.stalled hq.opened (by simpa using hc)
    simp [hpaused, hq.noCommand.1] at this
  have hdeferred : s.readDeferred = false := by
    by_contra hc
    exact h.deferred hq.opened (by simpa using hc) hempty
  have hpending : s.pendingEvents = {} := by
    by_contra hc
    have := h.pending hq.opened hc
    simp [hidle, hstalled, hdeferred, hq.noCommand.2] at this
  refine ⟨hstalled, hdeferred, hpending, hpaused, ?_⟩
  by_contra hc
  have := h.owed hq.opened (by simpa using hc)
  simp [hidle, hstalled, hpending, hq.noCommand.2, Pc.holds] at this

end Conn

/-- Whatever is reported, read, sent, flushed, held and refreshed, in any order, a connection left to itself owes no
read: the last input edge was followed by a read that emptied the socket. -/
theorem quiet_connection_clear (cfg : ReadConfig) (ops : List Conn.Op) (h : ((connection cfg).run ops).Quiet) :
    ((connection cfg).run ops).Clear :=
  (Machine.invariant_all (I := Conn.Marked) Conn.marked_init (fun _ op h => Conn.marked_step h op) ops).clear h

/-- A round reads with a hold that comes in the middle; the socket takes a byte of the reply, the rest waits for a
write edge, and lifting the hold hands the read back. -/
def heldRound : List Conn.Op :=
  [.event { inp := true }, .turn {}, .turn {}, .turn { read := .data false }, .hold true,
    .output (.send [1, 2, 3] .copy []), .turn {}, .turn {}, .turn {}, .turn { socket := [.took 1] }, .turn {},
    .turn {}, .turn {}, .turn {}, .turn {}, .refresh, .event { out := true }, .turn {}, .turn {},
    .turn { socket := [.took 2] }, .turn {}, .turn {}, .turn {}, .turn {}, .hold false, .refresh, .redeliver, .turn {},
    .turn {}, .turn {}, .turn {}, .turn {}, .turn {}]

theorem heldRound_clear : ((connection {}).run heldRound).Quiet ∧ ((connection {}).run heldRound).Clear :=
  have h : ((connection {}).run heldRound).Quiet := by decide
  ⟨h, quiet_connection_clear {} heldRound h⟩

end Fib.Core
