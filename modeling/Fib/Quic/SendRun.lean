import Fib.Quic.SendBuffer
import Fib.Lib.Runs

/-! Runs of a send buffer: any order of writes, pops, acknowledgements and losses of what was
popped, with a log of what left the buffer and what came back for it. -/

namespace Fib.Quic
open List Or Intervals SendBuffer

inductive SendOp where
  | write (p : Bytes)
  | adopt (p : Bytes)
  | writeParts (parts : List Part)
  | hasLost
  | popNew (n : ℕ)
  | popLost (n : ℕ)
  | onAck (off n : ℕ)
  | onLost (off n : ℕ)
deriving DecidableEq

inductive SendEvent where
  | sent (off : ℕ) (data : Bytes)
  | resent (off : ℕ) (data : Bytes)
  | acked (off n : ℕ)
  | lost (off n : ℕ)
deriving DecidableEq

open SendEvent

namespace SendEvent

def popped : SendEvent → Option (ℕ × Bytes)
  | sent off data | resent off data => some (off, data)
  | acked _ _ | lost _ _ => none

def fresh : SendEvent → Option (ℕ × ℕ)
  | sent off data => some (off, data.length)
  | resent _ _ | acked _ _ | lost _ _ => none

def Pops (x : ℕ) : SendEvent → Prop
  | sent off data | resent off data => off ≤ x ∧ x < off + data.length
  | acked _ _ | lost _ _ => False

def Acks (x : ℕ) : SendEvent → Prop
  | acked off n => off ≤ x ∧ x < off + n
  | sent _ _ | resent _ _ | lost _ _ => False

/-- The event acknowledges the offset or reports it lost. -/
def Settles (x : ℕ) : SendEvent → Prop
  | acked off n | lost off n => off ≤ x ∧ x < off + n
  | sent _ _ | resent _ _ => False

instance (x : ℕ) : ∀ e : SendEvent, Decidable (e.Pops x)
  | sent _ _ | resent _ _ => inferInstanceAs (Decidable (_ ∧ _))
  | acked _ _ | lost _ _ => inferInstanceAs (Decidable False)

end SendEvent

def AckedIn (log : List SendEvent) (x : ℕ) : Prop := ∃ e ∈ log, e.Acks x

/-- In a popped range that no acknowledgement or loss since has named the offset of. -/
def InFlight (log : List SendEvent) (x : ℕ) : Prop :=
  ∃ pre e post, log = pre ++ e :: post ∧ e.Pops x ∧ ∀ e' ∈ post, ¬ e'.Settles x

/-- The ranges follow one another from `a` to `b`. -/
def Tiles (a : ℕ) : List (ℕ × ℕ) → ℕ → Prop
  | [], b => a = b
  | (off, n) :: l, b => off = a ∧ Tiles (a + n) l b

structure SendRun where
  buf : SendBuffer
  written : Bytes
  log : List SendEvent
deriving DecidableEq

namespace SendRun

def step (r : SendRun) : SendOp → SendRun
  | .write p => { r with buf := r.buf.write p, written := r.written ++ p }
  | .adopt p => { r with buf := r.buf.adopt p, written := r.written ++ p }
  | .writeParts parts =>
    { r with buf := r.buf.writeParts parts, written := r.written ++ (parts.map Part.data).flatten }
  | .hasLost => { r with buf := r.buf.trimLost }
  | .popNew n =>
    { r with buf := (r.buf.popNew n).2, log := r.log ++ [.sent (r.buf.popNew n).1.1 (r.buf.popNew n).1.2] }
  | .popLost n =>
    { r with buf := (r.buf.popLost n).2, log := r.log ++ [.resent (r.buf.popLost n).1.1 (r.buf.popLost n).1.2] }
  | .onAck off n => { r with buf := r.buf.onAck off n, log := r.log ++ [.acked off n] }
  | .onLost off n => { r with buf := r.buf.onLost off n, log := r.log ++ [.lost off n] }

def machine : Machine SendRun SendOp := ⟨⟨{}, [], []⟩, step⟩

/-- An acknowledgement or a loss names bytes popped before. -/
def Sent (r : SendRun) : SendOp → Prop
  | .onAck off n | .onLost off n => ∀ i < n, ∃ e ∈ r.log, e.Pops (off + i)
  | _ => True

instance (r : SendRun) : ∀ op : SendOp, Decidable (r.Sent op)
  | .onAck off n | .onLost off n => inferInstanceAs (Decidable (∀ i < n, ∃ e ∈ r.log, e.Pops (off + i)))
  | .write _ | .adopt _ | .writeParts _ | .hasLost | .popNew _ | .popLost _ => inferInstanceAs (Decidable True)

structure Inv (r : SendRun) : Prop where
  holds : Holds r.written r.buf
  popped : ∀ e ∈ r.log, ∀ q ∈ e.popped, q.2 <+: r.written.drop q.1
  below : ∀ e ∈ r.log, ∀ x, e.Pops x → x < r.buf.next
  tiles : Tiles 0 (r.log.filterMap fresh) r.buf.next
  acked : ∀ x, r.buf.Acked x ↔ AckedIn r.log x
  live : ∀ x < r.buf.next, AckedIn r.log x ∨ InFlight r.log x ∨ Covers r.buf.lost x

theorem inv_init : Inv machine.init where
  holds := ⟨trivial, rfl, rfl, Nat.le_refl _, Nat.le_refl _, Nat.le_refl _, by simp [machine], Ascending.nil 1,
    by simp [machine], by simp [machine], Ascending.nil 1, by simp [machine]⟩
  popped := by simp [machine]
  below := by simp [machine]
  tiles := rfl
  acked := by simp [machine, Acked, AckedIn]
  live := by simp [machine]

variable {n x off : ℕ} {e : SendEvent} {r : SendRun}

theorem tiles_snoc {a b : ℕ} {l : List (ℕ × ℕ)} (h : Tiles a l b) : Tiles a (l ++ [(b, n)]) (b + n) := by
  induction l generalizing a with
  | nil => obtain rfl : a = b := h; exact ⟨rfl, rfl⟩
  | cons q l ih => exact ⟨h.1, ih h.2⟩

variable {log : List SendEvent} {b : SendBuffer}

theorem inFlight_snoc (h : InFlight log x) (he : ¬ e.Settles x) : InFlight (log ++ [e]) x := by
  obtain ⟨pre, e', post, rfl, hp, hs⟩ := h
  refine ⟨pre, e', post ++ [e], by simp, hp, fun e'' he'' => ?_⟩
  rcases mem_append.1 he'' with h | h
  · exact hs e'' h
  · rwa [mem_singleton.1 h]

theorem inFlight_popped (log : List SendEvent) (he : e.Pops x) :
    InFlight (log ++ [e]) x := ⟨log, e, [], rfl, he, by simp⟩

theorem ackedIn_snoc : AckedIn (log ++ [e]) x ↔ AckedIn log x ∨ e.Acks x := by
  simp [AckedIn, or_and_right, exists_or]

theorem fresh_snoc (log : List SendEvent) (he : e.fresh = none) :
    (log ++ [e]).filterMap fresh = log.filterMap fresh := by
  simp [he]

section
variable (h : Inv r)
include h

theorem inv_write {p : Bytes} (hb : Holds (r.written ++ p) b)
    (hs : SameSpans r.buf b) : Inv ⟨b, r.written ++ p, r.log⟩ := by
  refine ⟨hb, fun e he q hq => ?_, fun e he x hx => ?_, ?_, fun x => ?_, fun x hx => ?_⟩
  · rw [List.drop_append]
    exact (h.popped e he q hq).trans (prefix_append _ _)
  · rw [hs.next]; exact h.below e he x hx
  · rw [hs.next]; exact h.tiles
  · rw [← h.acked x, Acked, Acked, hs.base, hs.acked]
  · rw [hs.next] at hx
    rw [hs.lost]
    exact h.live x hx

theorem inv_trimLost : Inv (r.step .hasLost) := by
  refine { h with holds := h.holds.trimLost, live := fun x hx => ?_ }
  rcases h.live x hx with ha | hf | hl
  · exact inl ha
  · exact inr (inl hf)
  · rcases covers_trimLost r.buf hl with hb | hl
    · exact inl ((h.acked x).1 (inl hb))
    · exact inr (inr hl)

/-- An event is logged, and the buffer is `b` after it: a byte below `next` that is neither acknowledged nor popped by
it is lost, or was below `next` before and stays as it was. -/
theorem inv_logged (hb : Holds r.written b) (hnext : r.buf.next ≤ b.next)
    (hpop : ∀ q ∈ e.popped, q.2 <+: r.written.drop q.1) (hbelow : ∀ x, e.Pops x → x < b.next)
    (htiles : Tiles 0 ((r.log ++ [e]).filterMap fresh) b.next)
    (hacked : ∀ x, b.Acked x ↔ r.buf.Acked x ∨ e.Acks x)
    (hlive : ∀ x < b.next, ¬ AckedIn r.log x → ¬ e.Acks x → ¬ e.Pops x → Covers b.lost x ∨
      x < r.buf.next ∧ ¬ e.Settles x ∧ (Covers r.buf.lost x → Covers b.lost x)) : Inv ⟨b, r.written, r.log ++ [e]⟩ := by
  refine ⟨hb, forall_mem_append.2 ⟨h.popped, by simpa using hpop⟩, forall_mem_append.2 ⟨fun e' he x hx => ?_,
    by simpa using hbelow⟩, htiles, fun x => ?_, fun x hx => ?_⟩
  · exact (h.below e' he x hx).trans_le hnext
  · rw [hacked x, ackedIn_snoc, h.acked x]
  rw [ackedIn_snoc]
  by_cases ha : AckedIn r.log x ∨ e.Acks x
  · exact inl ha
  by_cases hp : e.Pops x
  · exact inr (inl (inFlight_popped _ hp))
  rw [not_or] at ha
  rcases hlive x hx ha.1 ha.2 hp with hl | ⟨hx', hs, hl⟩
  · exact inr (inr hl)
  rcases h.live x hx' with ha' | hf | hl'
  · exact absurd ha' ha.1
  · exact inr (inl (inFlight_snoc hf hs))
  · exact inr (inr (hl hl'))

theorem inv_popNew (n : ℕ) : Inv (r.step (.popNew n)) := by
  obtain ⟨data, c, he, hb, hpre, hH⟩ := h.holds.popNew n
  dsimp only [step]
  rw [hb] at hH ⊢
  rw [he]
  refine inv_logged h hH (Nat.le_add_right _ _) (by simpa [popped] using hpre) (fun x hx => hx.2) ?_
    (fun x => by simp [SendEvent.Acks, Acked]) fun x hx _ _ hp => inr ⟨?_, id, id⟩
  · rw [filterMap_append]
    exact tiles_snoc h.tiles
  · by_contra hlt
    exact hp ⟨by omega, hx⟩

theorem inv_popLost (n : ℕ) : Inv (r.step (.popLost n)) := by
  obtain ⟨off, data, l, he, ht⟩ := h.holds.popLost n
  dsimp only [step]
  rw [he]
  refine inv_logged h (h.holds.lost ht.asc ht.end_le) le_rfl (by simpa [popped] using ht.data)
    (fun x hx => ?_) ?_ (fun x => by simp [SendEvent.Acks, Acked]) fun x hx ha _ hp => inr ⟨hx, id, fun hl => ?_⟩
  · obtain ⟨hlo, hhi⟩ : off ≤ x ∧ x < off + data.length := hx
    rcases ht.within with hnil | hle
    · simp only at hnil
      simp [hnil] at hhi
      omega
    · simp only at hle ⊢
      omega
  · rw [fresh_snoc r.log rfl]
    exact h.tiles
  · rcases ht.kept x hl with hb | hp' | hl
    · exact absurd ((h.acked x).1 (inl hb)) ha
    · exact absurd hp' hp
    · exact hl

theorem le_next_of_sent (hs : ∀ i < n, ∃ e ∈ r.log, e.Pops (off + i)) : n = 0 ∨ off + n ≤ r.buf.next := by
  rcases Nat.eq_zero_or_pos n with h0 | hpos
  · exact inl h0
  · obtain ⟨e, he, hp⟩ := hs (n - 1) (by omega)
    have := h.below e he _ hp
    omega

theorem inv_onAck (hs : r.Sent (.onAck off n)) : Inv (r.step (.onAck off n)) := by
  have ha := h.holds.onAck (le_next_of_sent h hs)
  refine inv_logged h ha.holds ha.next.ge (by simp [popped]) (by simp [SendEvent.Pops]) ?_ ha.acked
    fun x hx _ hr _ => inr ⟨ha.next ▸ hx, hr, ?_⟩
  · rw [fresh_snoc r.log rfl, ha.next]
    exact h.tiles
  · rw [ha.lost]
    exact id

theorem inv_onLost (hs : r.Sent (.onLost off n)) : Inv (r.step (.onLost off n)) := by
  obtain ⟨hH, hlost⟩ := h.holds.onLost (le_next_of_sent h hs)
  obtain ⟨hbase, hnext, hacked⟩ := onLost_same r.buf off n
  refine inv_logged h hH hnext.ge (by simp [popped]) (by simp [SendEvent.Pops]) ?_
    (fun x => by simp [SendEvent.Acks, Acked, hbase, hacked]) fun x hx ha _ _ => ?_
  · rw [fresh_snoc r.log rfl, hnext]
    exact h.tiles
  by_cases hr : off ≤ x ∧ x < off + n
  · -- a lost byte is queued again unless it lies below `base`, where all is acknowledged
    have hb : ¬ x < r.buf.base := fun hb => ha ((h.acked x).1 (inl hb))
    exact inl ((hlost x).2 (inr ⟨by omega, hr⟩))
  · exact inr ⟨hnext ▸ hx, hr, fun hl => (hlost x).2 (inl hl)⟩

end

theorem inv_step (r : SendRun) (op : SendOp) (h : Inv r) (hs : r.Sent op) : Inv (r.step op) := by
  cases op with
  | write p => exact inv_write h (h.holds.write p) (sameSpans_write r.buf p)
  | adopt p => exact inv_write h (h.holds.adopt p) (sameSpans_adopt r.buf p)
  | writeParts parts => exact inv_write h (h.holds.writeParts parts) (sameSpans_writeParts r.buf parts)
  | hasLost => exact inv_trimLost h
  | popNew n => exact inv_popNew h n
  | popLost n => exact inv_popLost h n
  | onAck off n => exact inv_onAck h hs
  | onLost off n => exact inv_onLost h hs

theorem allAcked_iff (h : Inv r) : r.buf.allAcked = true ↔ ∀ x < r.written.length, AckedIn r.log x := by
  rw [allAcked, List.isEmpty_iff, h.holds.contig.eq_nil_iff, h.holds.content, drop_eq_nil_iff]
  constructor
  · intro hle x hx
    exact (h.acked x).1 (inl (by omega))
  intro hall
  by_contra hlt
  rcases (h.acked r.buf.base).2 (hall _ (by omega)) with hb | ⟨s, hs, hlo, -⟩
  · omega
  · have := h.holds.acked_off s hs
    simp only [start_span] at hlo
    omega

/-- Whatever the order of writes, pops, acknowledgements and losses: what is popped is what was
written there, `popNew` goes through the stream once, no sent byte is forgotten, and the buffer
empties exactly when all of it is acknowledged. -/
theorem loses_nothing {ops : List SendOp} (h : machine.Meets Sent ops) :
    (∀ e ∈ (machine.run ops).log, ∀ off data, e.popped = some (off, data) →
      data = ((machine.run ops).written.drop off).take data.length) ∧
    Tiles 0 ((machine.run ops).log.filterMap SendEvent.fresh) (machine.run ops).buf.next ∧
    (∀ x < (machine.run ops).buf.next, AckedIn (machine.run ops).log x ∨ InFlight (machine.run ops).log x ∨
      Covers (machine.run ops).buf.lost x) ∧
    ((machine.run ops).buf.allAcked = true ↔
      ∀ x < (machine.run ops).written.length, AckedIn (machine.run ops).log x) := by
  have hi := Machine.invariant inv_init inv_step h
  refine ⟨fun e he off data hp => ?_, hi.tiles, hi.live, allAcked_iff hi⟩
  exact prefix_iff_eq_take.1 (hi.popped e he (off, data) hp)

/-- A run with a loss reported late, after the bytes were acknowledged out of order. -/
def lateLoss : List SendOp :=
  [.write [1, 2, 3], .writeParts [⟨[4], false⟩, ⟨[5, 6], true⟩], .popNew 2, .popNew 9, .popNew 9, .popNew 9,
    .onAck 2 1, .onLost 0 2, .onLost 2 1, .popLost 1, .onAck 0 2, .hasLost, .popLost 9, .onAck 3 3]

theorem lateLoss_loses_nothing : machine.Meets Sent lateLoss ∧ (machine.run lateLoss).written = [1, 2, 3, 4, 5, 6] ∧
      ((machine.run lateLoss).buf.allAcked = true ↔
        ∀ x < (machine.run lateLoss).written.length, AckedIn (machine.run lateLoss).log x) :=
  have h : machine.Meets Sent lateLoss := by decide
  ⟨h, by decide, (loses_nothing h).2.2.2⟩

end SendRun
end Fib.Quic
