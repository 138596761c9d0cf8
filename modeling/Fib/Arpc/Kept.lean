import Fib.Arpc.Fifo

/-! What every action of a Client keeps of its Streams, its table and its reader. -/

namespace Fib.Arpc
open List Function Client Reading Option

/-- The table holds Streams under their ids, an id stands for one Stream at most, and the application's calls are of
Streams it has. -/
structure Named (streams : List Stream) (table : Bool → ℕ → Option ℕ) (seq : ℕ) (calls : List Call) : Prop where
  mapped : ∀ b id i, table b id = some i → ∃ s : Stream, streams[i]? = some s ∧ s.id = id ∧ s.isLocal = b
  unique : ∀ (i j : ℕ) (s t : Stream), streams[i]? = some s → streams[j]? = some t → s.id = t.id →
    s.isLocal = t.isLocal → i = j
  ids : ∀ s ∈ streams, s.isLocal = true → 1 ≤ s.id ∧ s.id ≤ seq
  calls : ∀ c ∈ calls, ∃ s : Stream, streams[c.stream]? = some s ∧ s.held = true

structure Stream.Same (s s' : Stream) : Prop where
  id : s'.id = s.id
  isLocal : s'.isLocal = s.isLocal
  method : s'.method = s.method
  held : s.held = true → s'.held = true

theorem Stream.Same.rfl {s : Stream} : s.Same s := ⟨Eq.refl _, Eq.refl _, Eq.refl _, fun h => h⟩

section
variable {streams : List Stream} {table : Bool → ℕ → Option ℕ} {seq i : ℕ} {calls : List Call} {s s' : Stream}

theorem getElem?_set_same (hs : streams[i]? = some s) : (streams.set i s')[i]? = some s' := by
  rw [List.getElem?_set_self (List.getElem?_eq_some_iff.1 hs).1]

variable {j : ℕ} {t' t : Stream}
section
variable (hs : streams[i]? = some s)
include hs

theorem getElem?_set_cases (ht : (streams.set i s')[j]? = some t') :
    j = i ∧ t' = s' ∨ j ≠ i ∧ streams[j]? = some t' := by
  by_cases hj : j = i
  · subst hj
    rw [getElem?_set_same hs] at ht
    exact .inl ⟨Eq.refl _, (some.inj ht).symm⟩
  · rw [getElem?_set_ne (Ne.symm hj)] at ht
    exact .inr ⟨hj, ht⟩

variable (hsame : s.Same s')
include hsame

theorem getElem?_set_of (ht : streams[j]? = some t) : ∃ t', (streams.set i s')[j]? = some t' ∧ t.Same t' := by
  by_cases hj : j = i
  · subst hj
    obtain rfl : s = t := some.inj (hs.symm.trans ht)
    exact ⟨s', getElem?_set_same hs, hsame⟩
  · exact ⟨t, by rw [getElem?_set_ne (Ne.symm hj)]; exact ht, .rfl⟩

theorem getElem?_of_set (ht : (streams.set i s')[j]? = some t') : ∃ t, streams[j]? = some t ∧ t.Same t' := by
  rcases getElem?_set_cases hs ht with ⟨rfl, rfl⟩ | ⟨-, ht⟩
  · exact ⟨s, hs, hsame⟩
  · exact ⟨t', ht, .rfl⟩

theorem mem_of_set (ht : t' ∈ streams.set i s') : ∃ t ∈ streams, t.Same t' := by
  obtain ⟨j, hj⟩ := mem_iff_getElem?.1 ht
  obtain ⟨t, ht, hst⟩ := getElem?_of_set hs hsame hj
  exact ⟨t, mem_of_getElem? ht, hst⟩

theorem mem_set_of (ht : t ∈ streams) : ∃ t' ∈ streams.set i s', t.Same t' := by
  obtain ⟨j, hj⟩ := mem_iff_getElem?.1 ht
  obtain ⟨t', ht', hst⟩ := getElem?_set_of hs hsame hj
  exact ⟨t', mem_of_getElem? ht', hst⟩

end

theorem getElem?_snoc_of (ht : streams[j]? = some t) : (streams ++ [s])[j]? = some t :=
  List.getElem?_append_left (List.getElem?_eq_some_iff.1 ht).1 ▸ ht

theorem getElem?_snoc_cases (ht : (streams ++ [s])[j]? = some t) :
    streams[j]? = some t ∨ j = streams.length ∧ t = s := by
  rcases Nat.lt_trichotomy j streams.length with hj | hj | hj
  · exact .inl (getElem?_append_left hj ▸ ht)
  · subst hj
    exact .inr ⟨Eq.refl _, by simpa using ht.symm⟩
  · rw [getElem?_eq_none (by simpa using hj)] at ht
    simp at ht

variable (h : Named streams table seq calls)
include h

theorem Named.set (hs : streams[i]? = some s) (hsame : s.Same s') : Named (streams.set i s') table seq calls := by
  refine ⟨fun b id j hj => ?_, fun j k t u ht hu hid hl => ?_, fun t ht hl => ?_, fun c hc => ?_⟩
  · obtain ⟨t, ht, hid, hl⟩ := h.mapped b id j hj
    obtain ⟨t', ht', hst⟩ := getElem?_set_of hs hsame ht
    exact ⟨t', ht', hst.id.trans hid, hst.isLocal.trans hl⟩
  · obtain ⟨t₀, ht₀, hst⟩ := getElem?_of_set hs hsame ht
    obtain ⟨u₀, hu₀, hsu⟩ := getElem?_of_set hs hsame hu
    refine h.unique j k t₀ u₀ ht₀ hu₀ ?_ ?_
    · rw [← hst.id, hid, hsu.id]
    · rw [← hst.isLocal, hl, hsu.isLocal]
  · obtain ⟨t₀, ht₀, hst⟩ := mem_of_set hs hsame ht
    rw [hst.id]
    exact h.ids t₀ ht₀ (hst.isLocal ▸ hl)
  · obtain ⟨t, ht, hh⟩ := h.calls c hc
    obtain ⟨t', ht', hst⟩ := getElem?_set_of hs hsame ht
    exact ⟨t', ht', hst.held hh⟩

theorem Named.withCalls {calls' : List Call}
    (hc : ∀ c ∈ calls', c ∈ calls ∨ ∃ s : Stream, streams[c.stream]? = some s ∧ s.held = true) :
    Named streams table seq calls' :=
  { h with calls := fun c hm => (hc c hm).elim (h.calls c) id }

theorem Named.nextSeq : Named streams table (seq + 1) calls :=
  { h with ids := fun s hs hl => ⟨(h.ids s hs hl).1, (h.ids s hs hl).2.trans (Nat.le_succ _)⟩ }

theorem Named.add
    (hnew : ∀ t ∈ streams, t.id = s.id → t.isLocal ≠ s.isLocal) (hid : s.isLocal = true → 1 ≤ s.id ∧ s.id ≤ seq) :
    Named (streams ++ [s])
      (update table s.isLocal (update (table s.isLocal) s.id (some streams.length))) seq calls := by
  have hold : ∀ {j : ℕ} {t : Stream}, streams[j]? = some t → (streams ++ [s])[j]? = some t := getElem?_snoc_of
  have hcases : ∀ {j : ℕ} {t : Stream}, (streams ++ [s])[j]? = some t →
      streams[j]? = some t ∨ j = streams.length ∧ t = s := getElem?_snoc_cases
  refine ⟨fun b id i hi => ?_, fun i j t u ht hu hid' hl => ?_, fun t ht hl => ?_, fun c hc => ?_⟩
  · by_cases hb : b = s.isLocal
    · subst hb
      rw [update_self] at hi
      by_cases hi' : id = s.id
      · subst hi'
        rw [update_self] at hi
        cases hi
        exact ⟨s, by simp, Eq.refl _, Eq.refl _⟩
      · rw [update_of_ne hi'] at hi
        obtain ⟨t, ht, hrest⟩ := h.mapped _ _ _ hi
        exact ⟨t, hold ht, hrest⟩
    · rw [update_of_ne hb] at hi
      obtain ⟨t, ht, hrest⟩ := h.mapped _ _ _ hi
      exact ⟨t, hold ht, hrest⟩
  · rcases hcases ht with ht₀ | ⟨rfl, rfl⟩ <;> rcases hcases hu with hu₀ | ⟨rfl, rfl⟩
    · exact h.unique i j t u ht₀ hu₀ hid' hl
    · exact absurd hl (hnew t (mem_of_getElem? ht₀) hid')
    · exact absurd hl.symm (hnew u (mem_of_getElem? hu₀) hid'.symm)
    · rfl
  · rcases mem_append.1 ht with ht | ht
    · exact h.ids t ht hl
    · obtain rfl := mem_singleton.1 ht
      exact hid hl
  · obtain ⟨t, ht, hh⟩ := h.calls c hc
    exact ⟨t, hold ht, hh⟩

theorem Named.unmap {b : Bool} {id : ℕ} : Named streams (update table b (update (table b) id none)) seq calls := by
  refine { h with mapped := fun b' id' i hi => h.mapped b' id' i ?_ }
  by_cases hb : b' = b
  · subst hb
    rw [update_self] at hi
    by_cases hid : id' = id
    · subst hid
      rw [update_self] at hi
      simp at hi
    · rwa [update_of_ne hid] at hi
  · rwa [update_of_ne hb] at hi

end

structure Kept (handles : String → Bool) (e : Client) : Prop where
  named : Named e.streams e.table e.seq e.calls
  streams : ∀ i s, e.streams[i]? = some s →
    StreamOK handles e.taken (e.table s.isLocal s.id = some i) e.reading i s
  message : ∀ m i isNew, e.reading = some (.onMessage m i isNew) →
    ∃ s : Stream, e.streams[i]? = some s ∧ s.id = m.id ∧ s.isLocal = !m.fromLocal
  place : ∀ i, e.reading.bind stream = some i → i < e.streams.length
  noted : ∀ m ∈ e.taken, m.fromLocal = true → handles m.method = true →
    ∃ s ∈ e.streams, s.isLocal = false ∧ s.id = m.id
  handled : ∀ id, id ∈ e.handled ↔ ∃ s ∈ e.streams, s.isLocal = false ∧ s.started = true ∧ s.id = id
  nodup : e.handled.Nodup

namespace Kept
variable {handles : String → Bool} {e : Client} {i : ℕ} {s s' : Stream}
section
variable (h : Kept handles e)
include h

theorem nextSeq : Kept handles e.nextSeq :=
  { h with named := h.named.nextSeq }

theorem post (m : Msg) : Kept handles (e.post m) :=
  { h with }

theorem withCalls {calls : List Call}
    (hc : ∀ c ∈ calls, c ∈ e.calls ∨ ∃ s : Stream, e.streams[c.stream]? = some s ∧ s.held = true) :
    Kept handles { e with calls := calls } :=
  { h with named := h.named.withCalls hc }

variable {c : Call}

theorem addCall (hs : e.streams[c.stream]? = some s) (hh : s.held = true) : Kept handles (e.addCall c) := by
  refine h.withCalls fun c' hc => ?_
  rcases mem_append.1 hc with hc | hc
  · exact .inl hc
  · obtain rfl := mem_singleton.1 hc
    exact .inr ⟨s, hs, hh⟩

theorem endCall (k : ℕ) : Kept handles (e.endCall k) :=
  h.withCalls fun _ hc => .inl (mem_of_mem_eraseIdx hc)

theorem setCall {k : ℕ} (hs : e.streams[c.stream]? = some s) (hh : s.held = true) : Kept handles (e.setCall k c) := by
  refine h.withCalls fun c' hc => ?_
  rcases mem_or_eq_of_mem_set hc with hc | rfl
  · exact .inl hc
  · exact .inr ⟨s, hs, hh⟩

end

/-- The members that a change of one Stream leaves: for a property that has to do with what stays of it. -/
theorem exists_mem_set (hs : e.streams[i]? = some s) (hsame : s.Same s') (hst : s'.started = s.started) {id : ℕ} :
    (∃ t ∈ e.streams.set i s', t.isLocal = false ∧ t.started = true ∧ t.id = id) ↔
      ∃ t ∈ e.streams, t.isLocal = false ∧ t.started = true ∧ t.id = id := by
  constructor
  · rintro ⟨t', ht', hl, hstart, hid⟩
    obtain ⟨j, hj⟩ := mem_iff_getElem?.1 ht'
    rcases getElem?_set_cases hs hj with ⟨rfl, rfl⟩ | ⟨-, ht⟩
    · exact ⟨s, mem_of_getElem? hs, hsame.isLocal ▸ hl, hst ▸ hstart, hsame.id ▸ hid⟩
    · exact ⟨t', mem_of_getElem? ht, hl, hstart, hid⟩
  rintro ⟨t, ht, hl, hstart, hid⟩
  obtain ⟨j, hj⟩ := mem_iff_getElem?.1 ht
  by_cases hji : j = i
  · subst hji
    obtain rfl : s = t := some.inj (hs.symm.trans hj)
    exact ⟨s', mem_of_getElem? (getElem?_set_same hs), hsame.isLocal.trans hl, hst.trans hstart, hsame.id.trans hid⟩
  · exact ⟨t, mem_of_getElem? (by rw [getElem?_set_ne (Ne.symm hji)]; exact hj), hl, hstart, hid⟩

variable (h : Kept handles e)
include h
section
variable (hs : e.streams[i]? = some s) (hsame : s.Same s')
include hs hsame

theorem message_set :
    ∀ m j isNew, e.reading = some (.onMessage m j isNew) →
      ∃ t : Stream, (e.streams.set i s')[j]? = some t ∧ t.id = m.id ∧ t.isLocal = !m.fromLocal := by
  intro m j isNew hr
  obtain ⟨t, ht, hid, hl⟩ := h.message m j isNew hr
  obtain ⟨t', ht', hst⟩ := getElem?_set_of hs hsame ht
  exact ⟨t', ht', hst.id.trans hid, hst.isLocal.trans hl⟩

theorem noted_set :
    ∀ m ∈ e.taken, m.fromLocal = true → handles m.method = true →
      ∃ t ∈ e.streams.set i s', t.isLocal = false ∧ t.id = m.id := by
  intro m hm hf hh
  obtain ⟨t, ht, hl, hid⟩ := h.noted m hm hf hh
  obtain ⟨t', ht', hst⟩ := mem_set_of hs hsame ht
  exact ⟨t', ht', hst.isLocal.trans hl, hst.id.trans hid⟩

theorem setStream
    (hst : s'.started = s.started) (hok : StreamOK handles e.taken (e.table s.isLocal s.id = some i) e.reading i s') :
    Kept handles (e.setStream i s') := by
  refine ⟨h.named.set hs hsame, fun j t ht => ?_, h.message_set hs hsame, fun j hj => ?_, h.noted_set hs hsame,
    fun id => ?_, h.nodup⟩
  · rcases getElem?_set_cases hs ht with ⟨rfl, rfl⟩ | ⟨-, ht⟩
    · rw [hsame.id, hsame.isLocal]
      exact hok
    · exact h.streams j t ht
  · rw [Client.setStream, length_set]
    exact h.place j hj
  · rw [Client.setStream, exists_mem_set hs hsame hst]
    exact h.handled id

end

theorem forget (i : ℕ) (s : Stream) : Kept handles (e.forget i s) := by
  unfold Client.forget
  split_ifs with hm
  · refine { h with named := h.named.unmap, streams := fun j t ht => (h.streams j t ht).unmap fun hx => ?_ }
    simp only [Client.setTable] at hx
    by_cases hb : t.isLocal = s.isLocal
    · rw [hb, update_self] at hx
      by_cases hid : t.id = s.id
      · rw [hid, update_self] at hx
        simp at hx
      · rw [update_of_ne hid] at hx
        rwa [hb]
    · rwa [update_of_ne hb] at hx
  · exact h

variable {r : Option Reading} {m : Msg}

theorem readOn (hr : ∀ m j isNew, e.reading ≠ some (.onMessage m j isNew))
    (hm : ∀ m j isNew, r ≠ some (.onMessage m j isNew)) (hc : ∀ j isNew, r ≠ some (.closeRecv j isNew))
    (hs : r.bind starts = e.reading.bind starts)
    (hp : ∀ j, r.bind stream = some j → e.reading.bind stream = some j) :
    Kept handles (e.setReading r) :=
  ⟨h.named, fun j t ht => (h.streams j t ht).readOn hr hm hc hs, fun _ _ _ he => absurd he (hm _ _ _),
    fun j hj => h.place j (hp j hj), h.noted, h.handled, h.nodup⟩

/-- A Stream is added, and the reader is where it knows of no message of it but the one it is at. -/
theorem addStream (hnew : ∀ t ∈ e.streams, t.id = s.id → t.isLocal ≠ s.isLocal)
    (hid : s.isLocal = true → 1 ≤ s.id ∧ s.id ≤ e.seq) (hst : s.started = false)
    (hok : StreamOK handles e.taken True r e.streams.length s) (hothers : ∀ i t, e.streams[i]? = some t →
      StreamOK handles e.taken (e.table t.isLocal t.id = some i) r i t)
    (hmsg : ∀ m i isNew, r = some (.onMessage m i isNew) → e.reading = some (.onMessage m i isNew) ∨
      i = e.streams.length ∧ s.id = m.id ∧ s.isLocal = !m.fromLocal)
    (hplace : ∀ i, r.bind stream = some i → i ≤ e.streams.length) :
    Kept handles ((e.addStream s).setReading r) := by
  refine ⟨h.named.add hnew hid, fun i t ht => ?_, fun m i isNew he => ?_, fun i hi => ?_, fun m hm hf hh => ?_,
    fun id => (h.handled id).trans ?_, h.nodup⟩
  · rcases getElem?_snoc_cases ht with ht | ⟨rfl, rfl⟩
    · refine (hothers i t ht).unmap fun hx => ?_
      simp only [Client.addStream, Client.setTable, Client.setReading] at hx
      by_cases hb : t.isLocal = s.isLocal
      · rw [hb, update_self, update_of_ne fun he => hnew t (mem_of_getElem? ht) he hb] at hx
        rwa [hb]
      · rwa [update_of_ne hb] at hx
    · exact hok.unmap fun _ => trivial
  · rcases hmsg m i isNew he with he | ⟨rfl, hi, hl⟩
    · obtain ⟨t, ht, hrest⟩ := h.message m i isNew he
      exact ⟨t, getElem?_snoc_of ht, hrest⟩
    · exact ⟨s, by simp [Client.addStream, Client.setTable, Client.setReading], hi, hl⟩
  · have := hplace i hi
    simp only [Client.addStream, Client.setTable, Client.setReading, length_append, length_singleton]
    omega
  · obtain ⟨t, ht, hrest⟩ := h.noted m hm hf hh
    exact ⟨t, mem_append_left _ ht, hrest⟩
  · simp only [Client.addStream, Client.setTable, Client.setReading, mem_append, mem_singleton]
    constructor
    · rintro ⟨t, ht, hrest⟩
      exact ⟨t, .inl ht, hrest⟩
    · rintro ⟨t, ht | rfl, hl, hstart, hi⟩
      · exact ⟨t, ht, hl, hstart, hi⟩
      · rw [hst] at hstart
        cases hstart

theorem onMessage {isNew : Bool} (hr : e.reading = some (.onMessage m i isNew))
    (hs : e.streams[i]? = some s) {size : ℕ} {c : Choice} (hm : s.onMessage size c m.payload = some s')
    (hkeep : c ≠ .drop → m.payload ≠ [] → s.dropped = false) :
    Kept handles (((e.setStream i s').take m).setReading (afterMessage m.eof i isNew)) := by
  obtain ⟨t, ht, hid, hl⟩ := h.message m i isNew hr
  obtain rfl : s = t := some.inj (hs.symm.trans ht)
  have ha := (Stream.onMessage_spec hm).1
  have hsame : s.Same s' := { ha with held := by simp [Stream.held, ha.isLocal, ha.started] }
  refine ⟨h.named.set hs hsame, fun j t ht => ?_, fun _ _ _ he => absurd he (afterMessage_ne_onMessage _ _ _ _ _ _),
    fun j hj => ?_, fun m' hm' hf hh => ?_, fun id => (h.handled id).trans (exists_mem_set hs hsame ha.started).symm,
    h.nodup⟩
  · rcases getElem?_set_cases hs ht with ⟨rfl, rfl⟩ | ⟨hj, ht⟩
    · have hok := h.streams j s hs
      rw [hr] at hok
      rw [hsame.id, hsame.isLocal]
      exact hok.onMessage hid hl hm hkeep
    · have hok := h.streams j t ht
      rw [hr] at hok
      exact hok.onMessage_other (Ne.symm hj) fun hsame' =>
        hj (h.named.unique j i t s ht hs (hsame'.1.trans hid.symm) (hsame'.2.trans hl.symm))
  · have hji : j = i := by
      revert hj
      cases m.eof <;> cases isNew <;> simp [Client.setReading, afterMessage, afterClose, stream, eq_comm]
    rw [Client.setReading, Client.take, Client.setStream, length_set, hji]
    exact (List.getElem?_eq_some_iff.1 hs).1
  · rcases mem_append.1 hm' with hm' | hm'
    · exact h.noted_set hs hsame m' hm' hf hh
    · obtain rfl := mem_singleton.1 hm'
      refine ⟨s', mem_of_getElem? (getElem?_set_same hs), ?_, hsame.id.trans hid⟩
      rw [hsame.isLocal, hl, hf]
      rfl

theorem start (hr : e.reading = some (.start i)) (hs : e.streams[i]? = some s) :
    Kept handles (((e.setStream i { s with started := true }).setReading none).handle s.id) := by
  have hok : ∀ j t, e.streams[j]? = some t →
      StreamOK handles e.taken (e.table t.isLocal t.id = some j) (some (.start i)) j t := hr ▸ h.streams
  obtain ⟨hunst, hl⟩ := (hok i s hs).unstarted rfl
  have hsame : s.Same { s with started := true } := ⟨rfl, rfl, rfl, by simp [Stream.held]⟩
  have hfirst : s.id ∉ e.handled := by
    intro hmem
    obtain ⟨t, ht, htl, hts, htid⟩ := (h.handled s.id).1 hmem
    obtain ⟨j, hj⟩ := mem_iff_getElem?.1 ht
    obtain rfl := h.named.unique j i t s hj hs htid (htl.trans hl.symm)
    obtain rfl : s = t := some.inj (hs.symm.trans hj)
    rw [hunst] at hts
    cases hts
  refine ⟨h.named.set hs hsame, fun j t ht => ?_, by simp [Client.handle, Client.setReading],
    by simp [Client.handle, Client.setReading], h.noted_set hs hsame, fun id => ?_, ?_⟩
  · rcases getElem?_set_cases hs ht with ⟨rfl, rfl⟩ | ⟨hj, ht⟩
    · exact (hok j s hs).start
    · exact (hok j t ht).start_other (Ne.symm hj)
  · simp only [Client.handle, Client.setReading, Client.setStream, mem_append, mem_singleton]
    rw [h.handled id]
    constructor
    · rintro (⟨t, ht, htl, hts, htid⟩ | rfl)
      · obtain ⟨j, hj⟩ := mem_iff_getElem?.1 ht
        have hji : j ≠ i := by
          rintro rfl
          obtain rfl : s = t := some.inj (hs.symm.trans hj)
          rw [hunst] at hts
          cases hts
        exact ⟨t, mem_of_getElem? (by rw [List.getElem?_set_ne (Ne.symm hji)]; exact hj), htl, hts, htid⟩
      · exact ⟨_, mem_of_getElem? (getElem?_set_same hs), hl, rfl, rfl⟩
    · rintro ⟨t, ht, htl, hts, htid⟩
      obtain ⟨j, hj⟩ := mem_iff_getElem?.1 ht
      rcases getElem?_set_cases hs hj with ⟨-, rfl⟩ | ⟨-, ht⟩
      · exact .inr htid.symm
      · exact .inl ⟨t, mem_of_getElem? ht, htl, hts, htid⟩
  · exact List.Nodup.append h.nodup (nodup_singleton _) (disjoint_singleton.2 hfirst)

theorem look (hr : e.reading = none) (hm : e.table (!m.fromLocal) m.id = some i) :
    Kept handles (e.setReading (some (.onMessage m i false))) := by
  obtain ⟨s, hs, hid, hl⟩ := h.named.mapped _ _ _ hm
  refine ⟨h.named, fun j t ht => ?_, fun m' j isNew he => ?_, fun j hj => ?_, h.noted, h.handled, h.nodup⟩
  · refine (hr ▸ h.streams j t ht).look fun hij => ⟨rfl, ?_⟩
    subst hij
    obtain rfl : s = t := some.inj (hs.symm.trans ht)
    rw [hid, hl, hm]
  · injection he with he
    injection he with hmm hij _
    subst hmm hij
    exact ⟨s, hs, hid, hl⟩
  · obtain rfl : i = j := by simpa [Client.setReading, stream] using hj
    exact (List.getElem?_eq_some_iff.1 hs).1

theorem letGo (hr : e.reading = none) (hm : e.table (!m.fromLocal) m.id = none)
    (hn : handles m.method = false ∨ m.fromLocal = false)
    (hr' : r = none ∨ ∃ id method, r = some (.refuse id method)) : Kept handles ((e.take m).setReading r) := by
  refine ⟨h.named, fun j t ht => ?_, fun m' j isNew he => ?_, fun j hj => ?_, fun m' hm' hf hh => ?_, h.handled,
    h.nodup⟩
  · refine (hr ▸ h.streams j t ht).letGo hr' fun hid hl hx => ?_
    rw [hl, hid, hm] at hx
    simp at hx
  · rcases hr' with rfl | ⟨_, _, rfl⟩ <;> simp [setReading] at he
  · rcases hr' with rfl | ⟨_, _, rfl⟩ <;> simp [setReading, stream] at hj
  rcases mem_append.1 hm' with hm' | hm'
  · exact h.noted m' hm' hf hh
  obtain rfl := mem_singleton.1 hm'
  rcases hn with hn | hn
  · rw [hn] at hh
    cases hh
  · rw [hn] at hf
    cases hf

end Kept
end Fib.Arpc
