import Fib.Quic.RangeSet
import Fib.Lib.Runs

/-! Which packets a packet number space processes (`handlePacket` in http3/quic/conn.go,
`onAckReceived` in http3/quic/recovery.go). A run is any sequence of packets that
authenticate, ACK frames sent, and acknowledgements of packets that carried one. -/

namespace Fib.Quic
open List Or Intervals RangeSet

/-- The receiving half of `pnSpace`, and `ackOf` of the packets sent with an ACK frame. -/
structure PnRecv where
  recv : List PnRange
  ackFloor : ℕ
  acks : List ℕ
deriving DecidableEq

namespace PnRecv

/-- `pn < s.ackFloor || !s.recv.add(pn)`: whether the packet goes on to be processed. -/
def accept (s : PnRecv) (pn : ℕ) : Bool × PnRecv :=
  if pn < s.ackFloor then (false, s)
  else ((add s.recv pn).1, { s with recv := (add s.recv pn).2 })

/-- `buildPacket` with an ACK frame, which sets `ackOf` to `s.recv.largest() + 1`. -/
def sendAck (s : PnRecv) : PnRecv :=
  match largest s.recv with
  | none => s
  | some pn => { s with acks := s.acks ++ [pn + 1] }

/-- What `onAckReceived` does to the space for one acknowledged packet. -/
def onAcked (s : PnRecv) (ackOf : ℕ) : PnRecv :=
  if ackOf > s.ackFloor + 1 then
    { s with ackFloor := ackOf - 1, recv := forget s.recv (ackOf - 1) }
  else s

end PnRecv

inductive RecvOp where
  | packet (pn : ℕ)
  | sendAck
  /-- The peer acknowledges the `k`-th packet sent with an ACK frame. -/
  | acked (k : ℕ)
deriving DecidableEq

/-- The space with what a run has processed and what `add` has dropped for `maxAckRanges`. -/
structure RecvRun where
  space : PnRecv
  accepted : List ℕ
  evicted : List PnRange
deriving DecidableEq

namespace RecvRun

def init : RecvRun := ⟨⟨[], 0, []⟩, [], []⟩

def step (s : RecvRun) : RecvOp → RecvRun
  | .packet pn =>
    if (s.space.accept pn).1 then
      { space := (s.space.accept pn).2
        accepted := s.accepted ++ [pn]
        evicted := s.evicted ++ overflow s.space.recv pn }
    else s
  | .sendAck => { s with space := s.space.sendAck }
  | .acked k =>
    match s.space.acks[k]? with
    | none => s
    | some ackOf => { s with space := s.space.onAcked ackOf }

def machine : Machine RecvRun RecvOp := ⟨init, step⟩

/-- `add` takes a number again only if the space neither has it nor can tell it is old. -/
def Guarded (s : RecvRun) : RecvOp → Prop
  | .packet pn => Covers s.evicted pn → pn < s.space.ackFloor ∨ tooOld s.space.recv pn = true
  | _ => True

def Once (s : RecvRun) : Prop := s.accepted.Nodup

instance (s : RecvRun) : Decidable s.Once := inferInstanceAs (Decidable s.accepted.Nodup)

structure Inv (s : RecvRun) : Prop where
  asc : Ascending 1 s.space.recv
  mem : ∀ q, Covers s.space.recv q → q ∈ s.accepted
  known : ∀ q ∈ s.accepted, Covers s.space.recv q ∨ q < s.space.ackFloor ∨ Covers s.evicted q
  gone : ∀ q, Covers s.evicted q → q ∈ s.accepted ∧ ¬ Covers s.space.recv q
  once : s.Once

theorem inv_init : Inv init where
  asc := Ascending.nil 1
  mem := by simp [init]
  known := by simp [init]
  gone := by simp [init]
  once := nodup_nil

variable {s : RecvRun} {pn : ℕ}

theorem accept_eq_false {s : PnRecv} (h : Ascending 1 s.recv)
    (ho : pn < s.ackFloor ∨ tooOld s.recv pn = true ∨ Covers s.recv pn) : (s.accept pn).1 = false := by
  unfold PnRecv.accept
  split_ifs with hf
  · rfl
  · rcases ho with ho | ho | ho
    · exact absurd ho hf
    · rw [add_of_tooOld ho]
    · rw [add_of_covers h ho]

theorem accept_eq_true {s : PnRecv} (h : Ascending 1 s.recv) (hf : s.ackFloor ≤ pn) (ho : ¬ tooOld s.recv pn = true)
    (hc : ¬ Covers s.recv pn) : s.accept pn = (true, { s with recv := (add s.recv pn).2 }) := by
  rw [PnRecv.accept, if_neg (by omega), (add_new h hc ho).1]

theorem step_packet_cases (h : Ascending 1 s.space.recv) (pn : ℕ) : (s.step (.packet pn) = s ∧
      (pn < s.space.ackFloor ∨ tooOld s.space.recv pn = true ∨ Covers s.space.recv pn)) ∨
    (s.step (.packet pn) =
        { space := { s.space with recv := (add s.space.recv pn).2 }
          accepted := s.accepted ++ [pn]
          evicted := s.evicted ++ overflow s.space.recv pn } ∧
      s.space.ackFloor ≤ pn ∧ ¬ tooOld s.space.recv pn = true ∧ ¬ Covers s.space.recv pn) := by
  by_cases ho : pn < s.space.ackFloor ∨ tooOld s.space.recv pn = true ∨ Covers s.space.recv pn
  · left
    exact ⟨by rw [step, accept_eq_false h ho]; rfl, ho⟩
  · right
    obtain ⟨h1, h2, h3⟩ : ¬ _ ∧ ¬ _ ∧ ¬ _ := ⟨fun h => ho (inl h), fun h => ho (inr (inl h)), fun h => ho (inr (inr h))⟩
    exact ⟨by rw [step, accept_eq_true h (by omega) h2 h3]; rfl, by omega, h2, h3⟩

theorem inv_packet (h : Inv s) (hg : Guarded s (.packet pn)) : Inv (s.step (.packet pn)) := by
  obtain ⟨he, -⟩ | ⟨he, hf, ho, hc⟩ := step_packet_cases h.asc pn
  · rw [he]; exact h
  rw [he]
  obtain ⟨-, hasc, hcov⟩ := add_new h.asc hc ho
  have hnew : pn ∉ s.accepted := by
    intro hin
    rcases h.known pn hin with hk | hk | hk
    · exact hc hk
    · omega
    · rcases hg hk with h1 | h1
      · omega
      · exact ho h1
  refine ⟨hasc, fun q hq => ?_, fun q hq => ?_, fun q hq => ?_, ?_⟩
  · rcases (hcov q).1 (inr hq) with rfl | hq
    · simp
    · simp [h.mem q hq]
  · simp only [mem_append, mem_singleton, covers_append] at hq ⊢
    have hkeep : q = pn ∨ Covers s.space.recv q →
        Covers (add s.space.recv pn).2 q ∨ Covers (overflow s.space.recv pn) q :=
      fun hq => ((hcov q).2 hq).symm
    rcases hq with hq | rfl
    · rcases h.known q hq with hk | hk | hk
      · have := hkeep (inr hk)
        tauto
      · exact inr (inl hk)
      · exact inr (inr (inl hk))
    · have := hkeep (inl rfl)
      tauto
  · simp only [covers_append, mem_append, mem_singleton] at hq ⊢
    rcases hq with hq | hq
    · obtain ⟨hin, hno⟩ := h.gone q hq
      refine ⟨inl hin, fun hq' => ?_⟩
      rcases (hcov q).1 (inr hq') with rfl | hq'
      · exact hnew hin
      · exact hno hq'
    · refine ⟨?_, not_covers_of_overflow h.asc hc ho hq⟩
      rcases (hcov q).1 (inl hq) with rfl | hq
      · exact inr rfl
      · exact inl (h.mem q hq)
  · exact nodup_append.2 ⟨h.once, nodup_singleton _, by simp; exact fun a ha h => hnew (h ▸ ha)⟩

theorem inv_onAcked (h : Inv s) (ackOf : ℕ) : Inv { s with space := s.space.onAcked ackOf } := by
  unfold PnRecv.onAcked
  split_ifs with ha
  · obtain ⟨hasc, -, hsub, hkeep⟩ := forget_spec h.asc (ackOf - 1)
    refine ⟨hasc, fun q hq => h.mem q (hsub q hq), fun q hq => ?_, fun q hq => ?_, h.once⟩
    · by_cases hq' : q < ackOf - 1
      · exact inr (inl hq')
      · rcases h.known q hq with hk | hk | hk
        · exact inl (hkeep q hk (by omega))
        · exact inr (inl (by omega))
        · exact inr (inr hk)
    · exact ⟨(h.gone q hq).1, fun hc => (h.gone q hq).2 (hsub q hc)⟩
  · exact h

theorem inv_step (s : RecvRun) (op : RecvOp) (h : Inv s) (hg : Guarded s op) : Inv (s.step op) := by
  cases op with
  | packet pn => exact inv_packet h hg
  | sendAck =>
    dsimp only [step, PnRecv.sendAck]
    split
    · exact h
    · exact { h with }
  | acked k =>
    dsimp only [step]
    split
    · exact h
    · exact inv_onAcked h _

theorem accepted_prefix_step (s : RecvRun) (op : RecvOp) : s.accepted <+: (s.step op).accepted := by
  cases op with
  | packet pn => dsimp only [step]; split <;> simp
  | sendAck => simp [step]
  | acked k => dsimp only [step]; split <;> simp

theorem not_once_of_not_guarded (s : RecvRun) (op : RecvOp) (h : Inv s) (hg : ¬ Guarded s op) : ¬ (s.step op).Once := by
  cases op with
  | packet pn =>
    simp only [Guarded, Classical.not_imp, not_or] at hg
    obtain ⟨hev, hf, ho⟩ := hg
    obtain ⟨hin, hno⟩ := h.gone pn hev
    obtain ⟨-, hold⟩ | ⟨he, -⟩ := step_packet_cases h.asc pn
    · tauto
    · rw [he]
      simp only [Once, nodup_append, mem_singleton]
      exact fun hn => hn.2.2 pn hin pn rfl rfl
  | sendAck => exact absurd trivial hg
  | acked k => exact absurd trivial hg

/-- A packet number is processed at most once in a run exactly when none that was dropped for
`maxAckRanges` comes back while the space neither has raised `ackFloor` past it nor is full
and wholly above it. -/
theorem processed_once_iff (ops : List RecvOp) : (machine.run ops).Once ↔ machine.Meets Guarded ops := by
  have hback : ∀ s op, Once (machine.step s op) → Once s :=
    fun s op hn => hn.sublist (accepted_prefix_step s op).sublist
  rw [← Machine.always_iff_run hback ops]
  exact Machine.always_iff_meets inv_init inv_step (fun s h => h.once) not_once_of_not_guarded ops

/-- Thirty-three ranges of one number drop the first of them; `3` then joins two ranges, which
leaves room in the set, and `0` is processed again. -/
def replay : List RecvOp :=
  (List.range 33).map (fun i => .packet (2 * i)) ++ [.packet 3, .packet 0]

theorem replay_processed_twice : ¬ (machine.run replay).Once ∧ (machine.run replay).accepted.count 0 = 2 := by
  decide +kernel

end RecvRun
end Fib.Quic
