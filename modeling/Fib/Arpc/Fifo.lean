import Fib.Arpc.Stream

/-! What holds of one Stream while its Client takes messages, closes its halves and forgets it: what it has returned
and queued is a prefix of what the Client took of it. -/

namespace Fib.Arpc
open Reading List

/-- The payloads sent on a Stream, by the end that opened it if `fromLocal`. -/
def payloads (l : List Msg) (id : ℕ) (fromLocal : Bool) : List Bytes :=
  (l.filter fun m => m.id = id ∧ m.fromLocal = fromLocal ∧ m.payload ≠ []).map Msg.payload

theorem payloads_snoc (l : List Msg) (m : Msg) (id : ℕ) (b : Bool) : payloads (l ++ [m]) id b =
      payloads l id b ++ if m.id = id ∧ m.fromLocal = b ∧ m.payload ≠ [] then [m.payload] else [] := by
  unfold payloads
  rw [filter_append, map_append]
  congr 1
  by_cases h : m.id = id ∧ m.fromLocal = b ∧ m.payload ≠ []
  · rw [if_pos h, filter_singleton, decide_eq_true h]
    rfl
  · rw [if_neg h, filter_singleton, decide_eq_false h]
    rfl

variable {l l' : List Msg}

theorem payloads_isPrefix (h : l <+: l') (id : ℕ) (b : Bool) : payloads l id b <+: payloads l' id b :=
  (h.filter _).map _

def Ended (l : List Msg) (s : Stream) : Prop := ∃ m ∈ l, m.eof = true ∧ m.id = s.id ∧ m.fromLocal = !s.isLocal

theorem Ended.mono {s : Stream} (h : Ended l s) (hl : l <+: l') : Ended l' s := by
  obtain ⟨m, hm, hrest⟩ := h
  exact ⟨m, hl.subset hm, hrest⟩

/-! ### One Stream -/

/-- What holds of the Stream at `i`, with what its Client has taken, whether it is in the Client's table and where
the reader is. -/
structure StreamOK (handles : String → Bool) (taken : List Msg) (mapped : Prop) (r : Option Reading) (i : ℕ)
    (s : Stream) : Prop where
  fifo : s.returned ++ s.chData <+: payloads taken s.id (!s.isLocal)
  whole : s.dropped = false → (mapped ∨ ∃ m isNew, r = some (.onMessage m i isNew)) →
    s.returned ++ s.chData = payloads taken s.id (!s.isLocal)
  closed : s.recvClosed = true → s.closedHere = true ∨ Ended taken s
  closing : ∀ isNew, r = some (.closeRecv i isNew) → Ended taken s
  ended : s.sawEOF = true → s.recvClosed = true
  known : s.isLocal = false →
    (∃ m ∈ taken, m.fromLocal = true ∧ m.id = s.id) ∨ ∃ m isNew, r = some (.onMessage m i isNew)
  routed : s.isLocal = false → handles s.method = true
  begun : s.isLocal = false → s.started = true ∨ r.bind starts = some i
  unstarted : r.bind starts = some i → s.started = false ∧ s.isLocal = false
  fresh : ∀ m, r = some (.onMessage m i true) → s.chData = []
  once : (∃ m, r = some (.onMessage m i true)) ∨ r = some (.closeRecv i true) → s.recvOnce = .fresh

namespace StreamOK
variable {handles : String → Bool} {taken : List Msg} {mapped : Prop} {r : Option Reading} {i : ℕ} {s : Stream}
  (h : StreamOK handles taken mapped r i s)
include h

theorem unheld (hr : r.bind starts = some i) : s.held = false := by
  obtain ⟨hs, hl⟩ := h.unstarted hr
  simp [Stream.held, hs, hl]

/-- A Stream the application has may have its receiving half closed, by the application or at an EOF. -/
theorem closeRecv {byApp : Bool} (hb : byApp = true ∨ Ended taken s) (hr : ∀ m, r ≠ some (.onMessage m i true))
    (hr' : r ≠ some (.closeRecv i true)) : StreamOK handles taken mapped r i (s.closeRecv byApp) := by
  refine { h with closed := fun _ => ?_, ended := fun _ => rfl, once := fun hx => ?_ }
  · rcases hb with hb | hb
    · exact .inl (by simp [Stream.closeRecv, hb])
    · exact .inr hb
  · rcases hx with ⟨m, hm⟩ | hm
    · exact absurd hm (hr m)
    · exact absurd hm hr'

/-- Nor does a change to what only the calls of the application look at matter, but for the `sync.Once`. -/
theorem closedHalf (recv : Bool) (hr : ∀ m, r ≠ some (.onMessage m i true)) (hr' : r ≠ some (.closeRecv i true)) :
    StreamOK handles taken mapped r i (s.closed recv) := by
  unfold Stream.closed
  split_ifs
  · refine { h with once := ?_ }
    rintro (⟨m, hm⟩ | hm)
    · exact absurd hm (hr m)
    · exact absurd hm hr'
  · exact h

theorem countHalf : StreamOK handles taken mapped r i s.countHalf :=
  { h with }

theorem sendClosed : StreamOK handles taken mapped r i { s with sendClosed := true } :=
  { h with }

theorem recv : StreamOK handles taken mapped r i s.recv := by
  unfold Stream.recv
  split
  · rename_i p rest hc
    have hsame : s.returned ++ [p] ++ rest = s.returned ++ s.chData := by rw [hc, append_assoc]; rfl
    refine { h with fifo := ?_, whole := fun hd hm => ?_, fresh := fun m hm => ?_ }
    · exact hsame ▸ h.fifo
    · exact hsame.trans (h.whole hd hm)
    · exact absurd (h.fresh m hm) (by rw [hc]; exact cons_ne_nil _ _)
  · split_ifs with hr
    · exact { h with ended := fun _ => hr }
    · exact h

theorem unmap {mapped' : Prop} (hm : mapped' → mapped) : StreamOK handles taken mapped' r i s :=
  { h with whole := fun hd hx => h.whole hd (hx.imp_left hm) }

theorem readOn {r' : Option Reading}
    (hr : ∀ m j isNew, r ≠ some (.onMessage m j isNew)) (hm : ∀ m j isNew, r' ≠ some (.onMessage m j isNew))
    (hc : ∀ j isNew, r' ≠ some (.closeRecv j isNew)) (hs : r'.bind starts = r.bind starts) :
    StreamOK handles taken mapped r' i s where
  fifo := h.fifo
  whole hd hx := h.whole hd <| hx.imp_right fun ⟨m, isNew, he⟩ => absurd he (hm _ _ _)
  closed := h.closed
  closing isNew he := absurd he (hc _ _)
  ended := h.ended
  known hl := (h.known hl).imp_right fun ⟨m, isNew, he⟩ => absurd he (hr _ _ _)
  routed := h.routed
  begun hl := hs ▸ h.begun hl
  unstarted he := h.unstarted (hs ▸ he)
  fresh m he := absurd he (hm _ _ _)
  once he := by
    rcases he with ⟨m, he⟩ | he
    · exact absurd he (hm _ _ _)
    · exact absurd he (hc _ _)

end StreamOK

theorem afterMessage_starts (eof : Bool) (i : ℕ) (isNew : Bool) :
    (afterMessage eof i isNew).bind starts = if isNew = true then some i else none := by
  cases eof <;> cases isNew <;> rfl

theorem afterMessage_ne_onMessage (eof : Bool) (i : ℕ) (isNew : Bool) (m : Msg) (j : ℕ) (isNew' : Bool) :
    afterMessage eof i isNew ≠ some (.onMessage m j isNew') := by
  cases eof <;> cases isNew <;> simp [afterMessage, afterClose]

theorem afterMessage_closeRecv {eof isNew isNew' : Bool} {i j : ℕ}
    (h : afterMessage eof i isNew = some (.closeRecv j isNew')) : eof = true ∧ i = j ∧ isNew = isNew' := by
  cases eof <;> cases isNew <;> simp_all [afterMessage, afterClose]

/-- What `onMessage` leaves as it is. -/
structure Stream.Alike (s s' : Stream) : Prop where
  id : s'.id = s.id
  isLocal : s'.isLocal = s.isLocal
  method : s'.method = s.method
  recvClosed : s'.recvClosed = s.recvClosed
  recvOnce : s'.recvOnce = s.recvOnce
  closedHere : s'.closedHere = s.closedHere
  sawEOF : s'.sawEOF = s.sawEOF
  started : s'.started = s.started

theorem Stream.onMessage_spec {s s' : Stream} {size : ℕ} {c : Choice} {p : Bytes}
    (h : s.onMessage size c p = some s') : s.Alike s' ∧
      (p = [] ∧ s' = s ∨
        p ≠ [] ∧ c ≠ .drop ∧ s'.dropped = s.dropped ∧ s'.returned ++ s'.chData = s.returned ++ s.chData ++ [p] ∨
        s'.dropped = true ∧ s'.returned ++ s'.chData = s.returned ++ s.chData) := by
  unfold Stream.onMessage at h
  by_cases hp : p = []
  · rw [if_pos hp] at h
    cases h
    exact ⟨⟨rfl, rfl, rfl, rfl, rfl, rfl, rfl, rfl⟩, .inl ⟨hp, rfl⟩⟩
  rw [if_neg hp] at h
  cases c with
  | queue =>
    dsimp only at h
    split_ifs at h
    cases h
    exact ⟨⟨rfl, rfl, rfl, rfl, rfl, rfl, rfl, rfl⟩, .inr (.inl ⟨hp, by simp, rfl, by simp⟩)⟩
  | hand =>
    dsimp only at h
    split_ifs at h with hc
    cases h
    exact ⟨⟨rfl, rfl, rfl, rfl, rfl, rfl, rfl, rfl⟩, .inr (.inl ⟨hp, by simp, rfl, by simp [hc.1]⟩)⟩
  | drop =>
    dsimp only at h
    split_ifs at h
    cases h
    exact ⟨⟨rfl, rfl, rfl, rfl, rfl, rfl, rfl, rfl⟩, .inr (.inr ⟨rfl, rfl⟩)⟩

namespace StreamOK
variable {handles : String → Bool} {taken : List Msg} {mapped : Prop} {i j : ℕ} {s : Stream} {m : Msg} {isNew : Bool}

theorem payloads_other (ht : ¬ (s.id = m.id ∧ s.isLocal = !m.fromLocal)) :
    payloads (taken ++ [m]) s.id (!s.isLocal) = payloads taken s.id (!s.isLocal) := by
  rw [payloads_snoc, if_neg, append_nil]
  rintro ⟨hid, hl, -⟩
  exact ht ⟨hid.symm, by rw [hl, Bool.not_not]⟩

/-- A message for the Stream is queued, or let go if its receiving half is closed. Once one was let go, none is
queued. -/
theorem onMessage (h : StreamOK handles taken mapped (some (.onMessage m i isNew)) i s) (hid : s.id = m.id)
    (hl : s.isLocal = !m.fromLocal) {size : ℕ} {c : Choice} {s' : Stream}
    (hs : s.onMessage size c m.payload = some s') (hkeep : c ≠ .drop → m.payload ≠ [] → s.dropped = false) :
    StreamOK handles (taken ++ [m]) mapped (afterMessage m.eof i isNew) i s' := by
  obtain ⟨ha, hcase⟩ := Stream.onMessage_spec hs
  have hpre : taken <+: taken ++ [m] := prefix_append _ _
  have hfrom : m.fromLocal = !s.isLocal := by rw [hl, Bool.not_not]
  have hended : Ended taken s → Ended (taken ++ [m]) s' := by
    rintro ⟨m', hm', he, hi, hf⟩
    exact ⟨m', hpre.subset hm', he, by rw [ha.id, hi], by rw [ha.isLocal, hf]⟩
  have hdue : payloads (taken ++ [m]) s'.id (!s'.isLocal) =
      payloads taken s.id (!s.isLocal) ++ if m.payload ≠ [] then [m.payload] else [] := by
    rw [payloads_snoc, ha.id, ha.isLocal]
    simp [hid, hfrom]
  have hwhole := fun hd => h.whole hd (.inr ⟨m, isNew, rfl⟩)
  have hwhole' : s'.dropped = false → s'.returned ++ s'.chData = payloads (taken ++ [m]) s'.id (!s'.isLocal) := by
    intro hd
    rcases hcase with ⟨hp, rfl⟩ | ⟨hp, -, hsame, hq⟩ | ⟨hdr, -⟩
    · rw [hdue, hwhole hd, if_neg (by simp [hp]), append_nil]
    · rw [hdue, hq, hwhole (hsame ▸ hd), if_pos hp]
    · rw [hdr] at hd
      cases hd
  refine ⟨?_, fun hd _ => hwhole' hd, fun hc => ?_, fun isNew' he => ?_, fun he => ?_,
    fun hr => .inl ⟨m, by simp, ?_, ?_⟩,
    fun hr => ?_, fun hr => ?_, fun he => ?_, fun m' he => absurd he (afterMessage_ne_onMessage _ _ _ _ _ _), ?_⟩
  · rcases hcase with ⟨hp, rfl⟩ | ⟨hp, hc, hsame, -⟩ | ⟨hdr, hq⟩
    · exact h.fifo.trans (payloads_isPrefix hpre _ _)
    · exact (hwhole' (hsame.trans (hkeep hc hp))) ▸ prefix_rfl
    · rw [hq, hdue]
      exact h.fifo.trans (prefix_append _ _)
  · rw [ha.recvClosed] at hc
    rw [ha.closedHere]
    exact (h.closed hc).imp_right hended
  · obtain ⟨heof, -, -⟩ := afterMessage_closeRecv he
    exact ⟨m, by simp, heof, by rw [ha.id, hid], by rw [ha.isLocal, hfrom]⟩
  · rw [ha.recvClosed]
    exact h.ended (ha.sawEOF ▸ he)
  · rw [hfrom, ← ha.isLocal, hr]
    rfl
  · rw [ha.id, hid]
  · rw [ha.method]
    exact h.routed (ha.isLocal ▸ hr)
  · rw [afterMessage_starts, ha.started]
    exact h.begun (ha.isLocal ▸ hr)
  · rw [afterMessage_starts] at he
    rw [ha.started, ha.isLocal]
    exact h.unstarted he
  rintro (⟨m', he⟩ | he)
  · exact absurd he (afterMessage_ne_onMessage _ _ _ _ _ _)
  · obtain ⟨-, -, rfl⟩ := afterMessage_closeRecv he
    rw [ha.recvOnce]
    exact h.once (.inl ⟨m, rfl⟩)

theorem onMessage_other (h : StreamOK handles taken mapped (some (.onMessage m j isNew)) i s) (hij : j ≠ i)
    (ht : ¬ (s.id = m.id ∧ s.isLocal = !m.fromLocal)) :
    StreamOK handles (taken ++ [m]) mapped (afterMessage m.eof j isNew) i s := by
  have hpre : taken <+: taken ++ [m] := prefix_append _ _
  have hne : ∀ m' isNew', some (Reading.onMessage m j isNew) ≠ some (.onMessage m' i isNew') := by
    intro m' isNew' he
    exact hij (by injection he with he; injection he)
  refine ⟨?_, fun hd hm => ?_, fun hc => (h.closed hc).imp_right (Ended.mono · hpre), fun isNew' he => ?_, h.ended,
    fun hl => .inl ?_, h.routed, fun hl => ?_, fun he => ?_,
    fun m' he => absurd he (afterMessage_ne_onMessage _ _ _ _ _ _), ?_⟩
  · rw [payloads_other ht]
    exact h.fifo
  · rw [payloads_other ht]
    exact h.whole hd (hm.imp_right fun ⟨_, _, he⟩ => absurd he (afterMessage_ne_onMessage _ _ _ _ _ _))
  · exact absurd (afterMessage_closeRecv he).2.1 hij
  · rcases h.known hl with ⟨m', hm', hrest⟩ | ⟨m', isNew', he⟩
    · exact ⟨m', hpre.subset hm', hrest⟩
    · exact absurd he (hne _ _)
  · rw [afterMessage_starts]
    exact h.begun hl
  · rw [afterMessage_starts] at he
    exact h.unstarted he
  · rintro (⟨m', he⟩ | he)
    · exact absurd he (afterMessage_ne_onMessage _ _ _ _ _ _)
    · exact absurd (afterMessage_closeRecv he).2.1 hij

theorem look (h : StreamOK handles taken mapped none i s) (hj : j = i → isNew = false ∧ mapped) :
    StreamOK handles taken mapped (some (.onMessage m j isNew)) i s := by
  refine ⟨h.fifo, fun hd hm => h.whole hd (.inl ?_), h.closed, fun _ he => by simp at he, h.ended,
    fun hl => .inl ?_, h.routed, fun hl => .inl ?_, fun he => ?_, fun m' he => ?_, ?_⟩
  · rcases hm with hm | ⟨m', isNew', he⟩
    · exact hm
    · exact (hj (by injection he with he; injection he)).2
  · simpa using h.known hl
  · simpa using h.begun hl
  · cases isNew with
    | false => simp [starts] at he
    | true => exact absurd (hj (by simpa [starts] using he)).1 (by decide)
  · injection he with he
    injection he with _ hji hn
    exact absurd ((hj hji).1.symm.trans hn) (by decide)
  rintro (⟨m', he⟩ | he)
  · injection he with he
    injection he with _ hji hn
    exact absurd ((hj hji).1.symm.trans hn) (by decide)
  · simp at he

variable {r : Option Reading}

theorem letGo (h : StreamOK handles taken mapped none i s) (hr : r = none ∨ ∃ id method, r = some (.refuse id method))
    (ht : s.id = m.id → s.isLocal = (!m.fromLocal) → ¬ mapped) : StreamOK handles (taken ++ [m]) mapped r i s := by
  have hpre : taken <+: taken ++ [m] := prefix_append _ _
  have hs : r.bind starts = none := by rcases hr with rfl | ⟨_, _, rfl⟩ <;> rfl
  have hm : ∀ m' j isNew', r ≠ some (.onMessage m' j isNew') := by rcases hr with rfl | ⟨_, _, rfl⟩ <;> simp
  have hc : ∀ j isNew', r ≠ some (.closeRecv j isNew') := by rcases hr with rfl | ⟨_, _, rfl⟩ <;> simp
  refine ⟨h.fifo.trans (payloads_isPrefix hpre _ _), fun hd hx => ?_,
    fun hx => (h.closed hx).imp_right (Ended.mono · hpre),
    fun _ he => absurd he (hc _ _), h.ended, fun hl => .inl ?_, h.routed, fun hl => .inl ?_, fun he => ?_,
    fun _ he => absurd he (hm _ _ _), ?_⟩
  · have hmap : mapped := hx.resolve_right fun ⟨_, _, he⟩ => hm _ _ _ he
    rw [payloads_other fun hsame => ht hsame.1 hsame.2 hmap]
    exact h.whole hd (.inl hmap)
  · obtain ⟨m', hm', hrest⟩ : ∃ m' ∈ taken, m'.fromLocal = true ∧ m'.id = s.id := by simpa using h.known hl
    exact ⟨m', hpre.subset hm', hrest⟩
  · simpa using h.begun hl
  · rw [hs] at he
    simp at he
  · rintro (⟨m', he⟩ | he)
    · exact absurd he (hm _ _ _)
    · exact absurd he (hc _ _)

theorem opened {id : ℕ} {method : String} {isLocal : Bool} (hnone : ∀ m ∈ taken, m.id = id → m.fromLocal ≠ !isLocal)
    (hl : isLocal = true → r.bind starts ≠ some i) (hc : ∀ isNew, r ≠ some (.closeRecv i isNew))
    (hr : isLocal = false → handles method = true ∧ ∃ m, r = some (.onMessage m i true)) :
    StreamOK handles taken mapped r i { id, method, isLocal } := by
  have hdue : payloads taken id (!isLocal) = [] := by
    unfold payloads
    rw [map_eq_nil_iff, filter_eq_nil_iff]
    intro m hm hx
    have hx' := of_decide_eq_true hx
    exact hnone m hm hx'.1 hx'.2.1
  refine ⟨ nil_prefix, fun _ _ => hdue.symm, by simp, fun _ he => absurd he (hc _), by simp, fun h => .inr ?_,
    fun h => (hr h).1, fun h => .inr ?_, fun h => ⟨rfl, ?_⟩, fun _ _ => rfl, fun _ => rfl⟩
  · obtain ⟨-, m, hm⟩ := hr h
    exact ⟨m, true, hm⟩
  · obtain ⟨-, m, rfl⟩ := hr h
    rfl
  · cases isLocal with
    | false => rfl
    | true => exact absurd h (hl rfl)

theorem start (h : StreamOK handles taken mapped (some (.start i)) i s) :
    StreamOK handles taken mapped none i { s with started := true } :=
  ⟨h.fifo, fun hd hm => h.whole hd (.inl (by simpa using hm)), h.closed, by simp, h.ended,
    fun hl => .inl (by simpa using h.known hl), h.routed, fun _ => .inl rfl, by simp, by simp, by simp⟩

theorem start_other (h : StreamOK handles taken mapped (some (.start j)) i s) (hij : j ≠ i) :
    StreamOK handles taken mapped none i s :=
  ⟨h.fifo, fun hd hm => h.whole hd (.inl (by simpa using hm)), h.closed, by simp, h.ended,
    fun hl => .inl (by simpa using h.known hl), h.routed,
    fun hl => .inl (by simpa [starts, hij] using h.begun hl), by simp, by simp, by simp⟩

end StreamOK
end Fib.Arpc
