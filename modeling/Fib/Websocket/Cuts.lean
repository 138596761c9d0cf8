import Fib.Websocket.Refine

/-! A WebSocket stream is parsed the same however it is cut into reads and whichever entry point
takes each of them: what the parser holds, in its buffer and aside, is what the scanner has left. -/

namespace Fib.Websocket
open List Scanner

namespace Parser
variable {s : Settings} {p p' : Parser} {text text' : Utf8.State} {b b' : Bytes} {st st' : Status}

/-- What is delivered of what the scanner emits: a fragment that is held shows nothing. -/
def visible (o : List Outcome) : List (Except WsError Event) :=
  o.filterMap fun
    | .ok none => none
    | .ok (some e) => some (.ok e)
    | .error e => some (.error e)

@[simp] theorem visible_append (o o' : List Outcome) : visible (o ++ o') = visible o ++ visible o' :=
  filterMap_append

/-- At the head of the loop: what stands aside is behind the frame the buffer ends with. -/
structure AtFrame (s : Settings) (p : Parser) (text : Utf8.State) : Prop where
  settings : p.toSettings = s
  pending : p.pendingConsume = 0
  checked : Checked s p.fragment text p.buffer p.text p.textChecked
  good : (Status.live p.fragment text).Good
  tail : p.borrowedTail = [] ∨ p.buffer = [] ∨ frameSize p.buffer = some p.buffer.length

/-- Between two calls: what stands aside is behind all there is of the buffer. -/
structure Tracks (s : Settings) (p : Parser) (text : Utf8.State) : Prop where
  settings : p.toSettings = s
  pending_le : p.pendingConsume ≤ p.buffer.length
  checked : Checked s p.fragment text (p.buffer.drop p.pendingConsume) p.text p.textChecked
  good : (Status.live p.fragment text).Good
  tail : p.borrowedTail = [] ∨ p.buffer.drop p.pendingConsume = []

/-- After a read that is drained: the parser has copied out what it keeps. -/
structure Drained (s : Settings) (p : Parser) (text : Utf8.State) : Prop extends Tracks s p text where
  pending : p.pendingConsume = 0
  tail_nil : p.borrowedTail = []
  own : p.borrowedBuffer = true → p.buffer = []

/-- What a call did, against what the scanner does with all the bytes there are. -/
def Scans (s : Settings) (b : Bytes) (st : Status) : Fed → Prop
  | .failed e _ => ∃ o b', visible o = [] ∧ Reach (scanFrame s) b st (o ++ [.error e]) b' .dead
  | .incomplete p' =>
    ∃ o text', visible o = [] ∧ Drain (scanFrame s) b st o (.stuck p'.buffer (.live p'.fragment text')) ∧
      Drained s p' text'
  | .event e p' =>
    ∃ o text', visible o = [] ∧
      Reach (scanFrame s) b st (o ++ [.ok (some e)]) p'.unread (.live p'.fragment text') ∧
      Tracks s p' text' ∧ p'.unread.length < b.length

theorem Scans.trans {o : List Outcome} {r : Fed} (ho : visible o = []) (hr : Reach (scanFrame s) b st o b' st')
    (hle : b'.length ≤ b.length) (hs : Scans s b' st' r) : Scans s b st r := by
  cases r with
  | failed e q =>
    obtain ⟨o', c, ho', hr'⟩ := hs
    refine ⟨o ++ o', c, by simp [ho, ho'], ?_⟩
    rw [append_assoc]
    exact hr.trans hr'
  | incomplete q =>
    obtain ⟨o', t, ho', hd, hq⟩ := hs
    exact ⟨o ++ o', t, by simp [ho, ho'], hr.drain hd, hq⟩
  | event e q =>
    obtain ⟨o', t, ho', hr', hq, hlt⟩ := hs
    refine ⟨o ++ o', t, by simp [ho, ho'], ?_, hq, by omega⟩
    rw [append_assoc]
    exact hr.trans hr'

/-- The loop's fuel: every turn that does not end it consumes a frame or takes the tail. -/
def turns (p : Parser) : ℕ := p.buffer.length + p.borrowedTail.length + if p.borrowedTail = [] then 0 else 1

theorem takeTail_of (h : p.buffer = [] ∧ p.borrowedTail ≠ []) :
    p.takeTail = { p with buffer := p.borrowedTail, borrowedTail := [], borrowedBuffer := true } := if_pos h

theorem takeTail_bytes (p : Parser) : p.takeTail.buffer ++ p.takeTail.borrowedTail = p.buffer ++ p.borrowedTail := by
  unfold Parser.takeTail
  split_ifs with h
  · simp [h.1]
  · rfl

theorem takeTail_fragment (p : Parser) : p.takeTail.fragment = p.fragment := by
  unfold Parser.takeTail
  split_ifs <;> rfl

theorem takeTail_turns (h : p.buffer = [] ∧ p.borrowedTail ≠ []) : p.takeTail.turns + 1 = p.turns := by
  rw [takeTail_of h]
  simp only [turns, if_neg h.2, if_true, h.1, length_nil]
  omega

theorem AtFrame.takeTail (ha : AtFrame s p text) (h : p.buffer = [] ∧ p.borrowedTail ≠ []) :
    AtFrame s p.takeTail text := by
  rw [takeTail_of h]
  refine ⟨ha.settings, ha.pending, ?_, ha.good, .inl rfl⟩
  have := ha.checked.push p.borrowedTail
  rwa [h.1, nil_append] at this

theorem AtFrame.past (ha : AtFrame s p text) {n : ℕ} (hn : 2 ≤ n) (hle : n ≤ p.buffer.length)
    (hend : ∀ m, frameSize p.buffer = some m → m = n) (hpast : Past p p' n text')
    (hg : (Status.live p'.fragment text').Good) : Tracks s p' text' := by
  refine ⟨hpast.settings.trans ha.settings, hpast.pending_le, ?_, hg, ?_⟩
  · rw [hpast.checked]
    exact .of_zero hpast.text
  rw [hpast.tail, hpast.rest]
  rcases ha.tail with h | h | h
  · exact .inl h
  · rw [h, length_nil] at hle
    omega
  · exact .inr (drop_eq_nil_of_le (hend _ h).le)

theorem AtFrame.tail_of_wait (ha : AtFrame s p text)
    (hw : scanFrame s p.buffer (.live p.fragment text) = .wait (.live p.fragment text)) :
    p.borrowedTail = [] ∨ p.buffer = [] := by
  rcases ha.tail with h | h | h
  · exact .inl h
  · exact .inr h
  exfalso
  obtain ⟨hne, hlen⟩ := readHeader_of_whole s p.fragment h
  cases hh : readHeader s p.fragment p.buffer with
  | error e =>
    cases e with
    | none => exact hne hh
    | some e => simp [scanFrame, hh] at hw
  | ok h =>
    rw [scanFrame_complete hh (hlen h hh).le] at hw
    split at hw <;> cases hw

theorem Tracks.atFrame (ht : Tracks s p text) (hz : p.pendingConsume = 0) : AtFrame s p text := by
  obtain ⟨hs, -, hc, hg, htail⟩ := ht
  rw [hz, drop_zero] at hc htail
  exact ⟨hs, hz, hc, hg, htail.imp_right .inl⟩

theorem AtFrame.incomplete (ha : AtFrame s p text)
    (hw : scanFrame s p.buffer (.live p.fragment text) = .wait (.live p.fragment text))
    (hmore : ¬ (p.buffer = [] ∧ p.borrowedTail ≠ [])) : Scans s (p.buffer ++ p.borrowedTail) (.live p.fragment text)
      (.incomplete (if p.borrowedBuffer = true ∧ p.buffer ≠ [] then p.adopt else p)) := by
  have htail : p.borrowedTail = [] := by
    rcases ha.tail_of_wait hw with h | h
    · exact h
    · exact by_contra fun hne => hmore ⟨h, hne⟩
  have hc := ha.checked
  have htracks : Tracks s p text := by
    refine ⟨ha.settings, by simp [ha.pending], ?_, ha.good, .inl htail⟩
    rwa [ha.pending, drop_zero]
  rw [htail, append_nil]
  split_ifs with hown
  · refine ⟨[], text, rfl, .wait hw, ?_⟩
    exact ⟨⟨htracks.settings, htracks.pending_le, htracks.checked, htracks.good, .inl htail⟩, ha.pending, htail, nofun⟩
  · refine ⟨[], text, rfl, .wait hw, htracks, ha.pending, htail, fun hb => ?_⟩
    exact by_contra fun hne => hown ⟨hb, hne⟩

theorem feedLoop_scans (borrowPayload : Bool) (fuel : ℕ) (ha : AtFrame s p text) (hf : turns p < fuel) :
    Scans s (p.buffer ++ p.borrowedTail) (.live p.fragment text) (feedLoop borrowPayload fuel p) := by
  induction fuel generalizing p text with
  | zero => omega
  | succ fuel ih =>
    have hs := ha.settings
    have hsteady := steady_scanFrame s
    have hm := next_matches borrowPayload ha.pending (hs.symm ▸ ha.checked) ha.good
    rw [feedLoop]
    cases hn : p.next borrowPayload with
    | failed e =>
      rw [hn, Matches, hs] at hm
      exact ⟨[], _, rfl, .emit ((hsteady.emit ha.good hm).2.2 _) (.refl _ _)⟩
    | incomplete q =>
      rw [hn, Matches] at hm
      obtain ⟨hw, v, k, hq, hc⟩ := hm
      rw [hs] at hw hc
      have hqa : AtFrame s q text := hq ▸ ⟨hs, ha.pending, hc, ha.good, ha.tail⟩
      have hbytes : p.buffer = q.buffer ∧ p.borrowedTail = q.borrowedTail ∧ p.fragment = q.fragment ∧
          p.turns = q.turns := hq ▸ ⟨rfl, rfl, rfl, rfl⟩
      obtain ⟨hb, ht, hfr, hturns⟩ := hbytes
      rw [hb, hfr] at hw ⊢
      rw [ht]
      simp only
      by_cases hmore : q.buffer = [] ∧ q.borrowedTail ≠ []
      · rw [if_pos hmore, ← takeTail_bytes, ← takeTail_fragment q]
        have := takeTail_turns hmore
        exact ih (hqa.takeTail hmore) (by omega)
      · rw [if_neg hmore]
        exact hqa.incomplete hw hmore
    | complete event q =>
      rw [hn, Matches, hs] at hm
      obtain ⟨n, text', hscan, htwo, hle, hend, hpast, hz⟩ := hm
      obtain ⟨-, hg, hpush⟩ := hsteady.emit ha.good hscan
      have htracks := ha.past htwo hle hend hpast hg
      have hrest : (p.buffer ++ p.borrowedTail).drop n = q.unread := by
        rw [drop_append_of_le_length hle, unread, hpast.rest, hpast.tail]
      have hreach : Reach (scanFrame s) (p.buffer ++ p.borrowedTail) (.live p.fragment text) [.ok event] q.unread
          (.live q.fragment text') := by
        refine .emit (hpush _) ?_
        rw [hrest]
        exact .refl _ _
      have hlt : q.unread.length + 2 ≤ (p.buffer ++ p.borrowedTail).length := by
        rw [← hrest, length_drop, length_append]
        omega
      cases event with
      | some e => exact ⟨[], text', rfl, hreach, htracks, by omega⟩
      | none =>
        have hzero := hz rfl
        have hbytes : q.unread = q.buffer ++ q.borrowedTail := by rw [unread, hzero, drop_zero]
        rw [hbytes] at hreach hlt
        refine .trans rfl hreach (by omega) (ih (htracks.atFrame hzero) ?_)
        simp only [length_append] at hlt
        simp only [turns, hpast.tail] at hf hlt ⊢
        omega

theorem consumePending_spec (ht : Tracks s p text) : AtFrame s p.consumePending text ∧
      (p.consumePending.borrowedTail = [] ∨ p.consumePending.buffer = []) ∧
      p.consumePending.buffer ++ p.consumePending.borrowedTail = p.unread ∧ p.consumePending.fragment = p.fragment := by
  unfold consumePending
  split_ifs with hz
  · obtain ⟨flag, hc⟩ := p.consume_eq p.pendingConsume
    rw [hc]
    exact ⟨⟨ht.settings, rfl, ht.checked, ht.good, ht.tail.imp_right .inl⟩, ht.tail, rfl, rfl⟩
  · have htail := ht.tail
    rw [unread]
    rw [not_not.1 hz, drop_zero] at htail ⊢
    exact ⟨ht.atFrame (not_not.1 hz), htail, rfl, rfl⟩

/-- The bytes go to the frame at the head up to its end, and what is left stands aside. -/
theorem appendCurrentFrame_spec (buffer data : Bytes) :
    (appendCurrentFrame buffer data).1 ++ (appendCurrentFrame buffer data).2 = buffer ++ data ∧
      ((appendCurrentFrame buffer data).2 = [] ∨
        frameSize (appendCurrentFrame buffer data).1 = some (appendCurrentFrame buffer data).1.length) ∧
      buffer <+: (appendCurrentFrame buffer data).1 := by
  fun_induction appendCurrentFrame buffer data with
  | case1 buffer data frameEnd hsize hdone => exact ⟨append_nil _, .inl rfl, prefix_append _ _⟩
  | case2 buffer data frameEnd hsize hdone =>
    refine ⟨by simp, .inr ?_, prefix_append _ _⟩
    rw [frameSize_append hsize]
    congr 1
    simp only [length_append, length_take]
    omega
  | case3 buffer data hsize hdone => exact ⟨append_nil _, .inl rfl, prefix_append _ _⟩
  | case4 buffer data hsize hdone ih =>
    obtain ⟨hbytes, htail, hpre⟩ := ih
    exact ⟨by rw [hbytes]; simp, htail, (prefix_append _ _).trans hpre⟩

theorem accept_spec (ha : AtFrame s p text) (htail : p.borrowedTail = []) (data : Bytes) (borrowPayload : Bool) :
    AtFrame s (p.accept data borrowPayload) text ∧
      (p.accept data borrowPayload).buffer ++ (p.accept data borrowPayload).borrowedTail = p.buffer ++ data ∧
      (p.accept data borrowPayload).fragment = p.fragment := by
  have hpush := ha.checked.push data
  unfold accept
  split_ifs with h1 h2
  · rw [h1.2.1, nil_append] at hpush
    exact ⟨⟨ha.settings, ha.pending, hpush, ha.good, .inl htail⟩, by simp [h1.2.1, htail], rfl⟩
  · obtain ⟨hbytes, hend, y, hy⟩ := appendCurrentFrame_spec p.buffer data
    refine ⟨⟨ha.settings, ha.pending, ?_, ha.good, hend.imp_right .inr⟩, hbytes, rfl⟩
    have := ha.checked.push y
    rwa [hy] at this
  · exact ⟨⟨ha.settings, ha.pending, hpush, ha.good, .inl htail⟩, by simp [adopt, htail], rfl⟩
  · exact ⟨⟨ha.settings, ha.pending, hpush, ha.good, .inl htail⟩, by simp [htail], rfl⟩

theorem AtFrame.takeTail_nil (ha : AtFrame s p text) (h : p.borrowedTail = [] ∨ p.buffer = []) :
    AtFrame s p.takeTail text ∧ p.takeTail.borrowedTail = [] := by
  by_cases hmore : p.buffer = [] ∧ p.borrowedTail ≠ []
  · exact ⟨ha.takeTail hmore, by rw [takeTail_of hmore]⟩
  · have htail : p.borrowedTail = [] := h.elim id fun hb => by_contra fun hne => hmore ⟨hb, hne⟩
    rw [show p.takeTail = p from if_neg hmore]
    exact ⟨ha, htail⟩

theorem feedOne_scans (ht : Tracks s p text) (data : Bytes) (borrowPayload : Bool) :
    Scans s (p.unread ++ data) (.live p.fragment text) (p.feedOne data borrowPayload) := by
  obtain ⟨ha, hside, hbytes, hfrag⟩ := consumePending_spec ht
  obtain ⟨ha', htail⟩ := ha.takeTail_nil hside
  obtain ⟨ha'', hbytes'', hfrag''⟩ := accept_spec ha' htail data borrowPayload
  have hview : p.consumePending.takeTail.buffer = p.unread := by
    rw [← hbytes, ← takeTail_bytes, htail, append_nil]
  rw [takeTail_fragment, hfrag] at hfrag''
  rw [hview] at hbytes''
  rw [← hbytes'', ← hfrag'']
  refine feedLoop_scans borrowPayload _ ha'' ?_
  unfold turns
  split_ifs <;> omega

/-- What a sequence of events and the error that may end it look like to the scanner. -/
def shown (events : List Event) (err : Option WsError) : List (Except WsError Event) :=
  events.map .ok ++ err.toList.map .error

theorem shown_inj {events events' : List Event} {err err' : Option WsError}
    (h : shown events err = shown events' err') : (events, err) = (events', err') := by
  induction events generalizing events' with
  | nil => cases events' <;> cases err <;> cases err' <;> simp_all [shown]
  | cons e events ih =>
    cases events' with
    | nil => cases err' <;> simp_all [shown]
    | cons e' events' =>
      obtain ⟨he, ht⟩ := List.cons.inj h
      cases he
      cases ih ht
      rfl

/-- A read that is drained is scanned to where it waits, or to the error. -/
def Reads (s : Settings) (b : Bytes) (st : Status) (o : List Outcome) : Option WsError → Parser → Prop
  | none, q => ∃ text, Drain (scanFrame s) b st o (.stuck q.buffer (.live q.fragment text)) ∧ Drained s q text
  | some _, _ => ∃ b', Drain (scanFrame s) b st o (.stuck b' .dead)

theorem Reads.trans {o o' : List Outcome} {err : Option WsError} (hr : Reach (scanFrame s) b st o b' st')
    (hs : Reads s b' st' o' err p) : Reads s b st (o ++ o') err p := by
  cases err with
  | none =>
    obtain ⟨t, hd, hp⟩ := hs
    exact ⟨t, hr.drain hd, hp⟩
  | some e =>
    obtain ⟨c, hd⟩ := hs
    exact ⟨c, hr.drain hd⟩

theorem drainRead_reads (modes : ℕ → Bool) (fuel k : ℕ) (ht : Tracks s p text) (data : Bytes)
    (hf : (p.unread ++ data).length < fuel) :
    ∃ o, visible o = shown (p.drainRead modes fuel k data).1 (p.drainRead modes fuel k data).2.1 ∧
      Reads s (p.unread ++ data) (.live p.fragment text) o (p.drainRead modes fuel k data).2.1
        (p.drainRead modes fuel k data).2.2 := by
  induction fuel generalizing p text k data with
  | zero => omega
  | succ fuel ih =>
    have hcall := feedOne_scans ht data (modes k)
    rw [drainRead]
    cases hc : p.feedOne data (modes k) with
    | failed e q =>
      rw [hc] at hcall
      obtain ⟨o, b', ho, hr⟩ := hcall
      refine ⟨o ++ [.error e], by rw [visible_append, ho]; rfl, b', ?_⟩
      rw [← append_nil (o ++ _)]
      exact hr.drain (.wait rfl)
    | incomplete q =>
      rw [hc] at hcall
      obtain ⟨o, text', ho, hd, hq⟩ := hcall
      exact ⟨o, ho, text', hd, hq⟩
    | event e q =>
      rw [hc] at hcall
      obtain ⟨o, text', ho, hr, hq, hlt⟩ := hcall
      obtain ⟨o', ho', hs⟩ := ih (k + 1) hq [] (by rw [append_nil]; omega)
      rw [append_nil] at hs
      refine ⟨(o ++ [.ok (some e)]) ++ o', ?_, .trans hr hs⟩
      rw [visible_append, visible_append, ho, ho']
      rfl

theorem Drained.unread_eq (hd : Drained s p text) : p.unread = p.buffer := by
  rw [unread, hd.pending, hd.tail_nil, drop_zero, append_nil]

theorem Drained.releaseBorrowed (hd : Drained s p text) : Drained s p.releaseBorrowed text ∧
    p.releaseBorrowed.buffer = p.buffer ∧ p.releaseBorrowed.fragment = p.fragment := by
  have hpend : p.consumePending = p := if_neg (not_not.2 hd.pending)
  unfold Parser.releaseBorrowed
  rw [hpend]
  simp only
  split_ifs with hb
  · have hbuf := hd.own hb
    have hc := hd.checked
    rw [hbuf, drop_nil] at hc
    refine ⟨⟨⟨hd.settings, by simp [hd.pending], ?_, hd.good, .inl rfl⟩, hd.pending, rfl, nofun⟩, hbuf.symm, rfl⟩
    simpa using hc
  · exact ⟨⟨⟨hd.settings, hd.pending_le, hd.checked, hd.good, .inl rfl⟩, hd.pending, rfl, hd.own⟩, rfl, rfl⟩

theorem feeds_dead (s : Settings) (ps : List Bytes) (b : Bytes) : Feeds (scanFrame s) b .dead ps [] false := by
  induction ps generalizing b with
  | nil => exact .nil _ _
  | cons p ps ih => exact .stuck (.wait rfl) (ih _)

theorem feedReads_feeds (hd : Drained s p text) (reads : List Read) :
    ∃ o, Feeds (scanFrame s) p.buffer (.live p.fragment text) (reads.map Read.data) o false ∧
      visible o = shown (p.feedReads reads).1 (p.feedReads reads).2 := by
  induction reads generalizing p text with
  | nil => exact ⟨[], .nil _ _, rfl⟩
  | cons r reads ih =>
    obtain ⟨o, ho, hs⟩ := drainRead_reads r.borrowed _ 0 hd.toTracks r.data (Nat.lt_succ_self _)
    rw [feedReads, map_cons]
    generalize hq : p.drainRead r.borrowed ((p.unread ++ r.data).length + 1) 0 r.data = res at ho hs
    obtain ⟨events, err, q⟩ := res
    rw [hd.unread_eq] at hs
    cases err with
    | some e =>
      obtain ⟨b', hdrain⟩ := hs
      refine ⟨o, ?_, ho⟩
      have := Feeds.stuck hdrain (feeds_dead s (reads.map Read.data) b')
      rwa [append_nil] at this
    | none =>
      obtain ⟨text', hdrain, hq'⟩ := hs
      obtain ⟨hrel, hbuf, hfrag⟩ := hq'.releaseBorrowed
      obtain ⟨o', hf, ho'⟩ := ih hrel
      rw [hbuf, hfrag] at hf
      refine ⟨o ++ o', .stuck hdrain hf, ?_⟩
      rw [visible_append, ho, ho']
      simp [shown]

theorem feed_eq_feedReads (p : Parser) (data : Bytes) : p.feed data = p.feedReads [⟨data, fun _ => false⟩] := by
  unfold feed feedReads feedReads
  generalize p.drainRead (fun _ => false) ((p.unread ++ data).length + 1) 0 data = res
  obtain ⟨-, err, q⟩ := res
  cases err <;> simp

theorem newParser_drained (maxMessageBytes : ℤ) (fromServer perFrame : Bool) :
    Drained (newParser maxMessageBytes fromServer perFrame).toSettings
      (newParser maxMessageBytes fromServer perFrame) none :=
  ⟨⟨rfl, le_rfl, .of_zero rfl, fun _ => rfl, .inl rfl⟩, rfl, rfl, nofun⟩

/-- However a stream is cut into reads, and whichever of the entry points each call is of, the
events and the error that ends them are those of feeding the whole stream. -/
theorem feedReads_eq_feed (maxMessageBytes : ℤ) (fromServer perFrame : Bool) (reads : List Read) :
    (newParser maxMessageBytes fromServer perFrame).feedReads reads =
      (newParser maxMessageBytes fromServer perFrame).feed (reads.map Read.data).flatten := by
  have hnew := newParser_drained maxMessageBytes fromServer perFrame
  have hsteady := steady_scanFrame (newParser maxMessageBytes fromServer perFrame).toSettings
  obtain ⟨o, hf, ho⟩ := feedReads_feeds hnew reads
  obtain ⟨o', hf', ho'⟩ := feedReads_feeds hnew [⟨(reads.map Read.data).flatten, fun _ => false⟩]
  rw [feed_eq_feedReads]
  -- the scanner never refuses: its error is the last thing it emits
  rcases hf.whole hsteady (fun _ => rfl) rfl with ⟨h, hd, -⟩ | ⟨hno, -⟩
  · obtain ⟨h', hd', -⟩ := hf'.single
    obtain ⟨rfl, -⟩ := hd.det hd'
    exact shown_inj (ho.symm.trans ho')
  · cases hno

end Parser
end Fib.Websocket
