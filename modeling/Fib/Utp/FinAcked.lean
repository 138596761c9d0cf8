import Fib.Utp.Side

/-! What a connection learns of its FIN from a packet that acknowledges it (`takeAcks`): nothing, when every packet in
flight was acknowledged selectively before and is no longer counted. -/

namespace Fib.Utp
open List

namespace Tx

/-- What is left without the ring and what waits to go again. -/
def core (x : Tx) : Tx := { x with out := {}, resendNow := [] }

theorem inflight_of_core {x y : Tx} (h : x.core = y.core) : x.inflightPkts = y.inflightPkts :=
  congrArg (fun z => z.inflightPkts) h

theorem finAcked_of_core {x y : Tx} (h : x.core = y.core) : x.finAcked = y.finAcked :=
  congrArg (fun z => z.finAcked) h

theorem core_queueResend (x : Tx) (seq : ℕ) : (x.queueResend seq).core = x.core := by
  unfold queueResend
  split
  · rfl
  · split_ifs <;> rfl

theorem core_loseAll (x : Tx) (i : ℕ) : (x.loseAll i).core = x.core := by
  induction i generalizing x with
  | zero => rfl
  | succ i ih => exact ih _

theorem core_ackPacket (x : Tx) (seq : ℕ) : (x.ackPacket seq).1.core = x.core := by
  fun_cases ackPacket x seq <;> rfl

theorem core_selectiveAck (x : Tx) (base : ℕ) (mask : List Bool) : (x.selectiveAck base mask).core = x.core := by
  rw [selectiveAck]
  split_ifs
  · rfl
  refine foldlRecOn (motive := fun y : Tx => y.core = x.core) _ _ rfl fun y hy bit _ => ?_
  rw [ackSelected]
  split_ifs
  · exact hy
  · exact (core_ackPacket y _).trans hy

theorem finAcked_ackPacket (x : Tx) (seq : ℕ) : (x.ackPacket seq).1.finAcked = x.finAcked :=
  finAcked_of_core (core_ackPacket x seq)

theorem finAcked_ackOldest (x : Tx) (acks : ℕ) : (x.ackOldest acks).finAcked = x.finAcked := by
  induction acks generalizing x with
  | zero => rfl
  | succ acks ih =>
    simp only [ackOldest]
    split_ifs
    · exact (ih _).trans (finAcked_ackPacket x _)
    · exact finAcked_ackPacket x _

theorem finAcked_skipGone (x : Tx) (n : ℕ) : (x.skipGone n).finAcked = x.finAcked := by
  fun_induction skipGone x n <;> first | rfl | assumption

variable {x : Tx} {h : Packet}

/-- How many numbers come after the one a packet acknowledges. -/
def behind (x : Tx) (h : Packet) : ℕ := sub x.seqNr (add h.ack 1)

/-- A packet in flight is still in the ring, so not acknowledged selectively, and it is one of the last `d` (or was
never sent, which ends the count as well). -/
def Keeps (x : Tx) (d : ℕ) : Prop :=
  ∃ k < x.inflightPkts, ∃ p, x.out.get (sub x.seqNr (k + 1)) = some p ∧ (k < d ∨ p.transmissions = 0)

/-- The oldest packet is passed, gone or sent and taken out of the ring. -/
theorem keeps_pass {m d : ℕ} (hm : x.inflightPkts = m + 1) (hd : d ≤ m) {out : SeqRing OutPacket}
    (hsent : ∀ p, x.out.get x.oldest = some p → p.transmissions ≠ 0)
    (hout : ∀ k < m, out.get (sub x.seqNr (k + 1)) = x.out.get (sub x.seqNr (k + 1))) :
    ({ x with out := out, inflightPkts := m } : Tx).Keeps d ↔ x.Keeps d := by
  constructor
  · rintro ⟨k, hk, p, hp, hor⟩
    exact ⟨k, by rw [hm]; exact Nat.lt_succ_of_lt hk, p, (hout k hk).symm.trans hp, hor⟩
  · rintro ⟨k, hk, p, hp, hor⟩
    have hne : k ≠ m := by
      rintro rfl
      rcases hor with hlt | h0
      · omega
      · exact hsent p (by rw [oldest, hm]; exact hp) h0
    exact ⟨k, by dsimp only; omega, p, (hout k (by omega)).trans hp, hor⟩

theorem keeps_ackOldest (hseq : x.seqNr < 2 ^ 16) (hfew : x.inflightPkts ≤ maxInflight) {acks : ℕ}
    (hle : acks ≤ x.inflightPkts) :
    (x.ackOldest acks).Keeps (x.ackOldest acks).inflightPkts ↔ x.Keeps (x.inflightPkts - acks) := by
  induction acks generalizing x with
  | zero => exact Iff.rfl
  | succ acks ih =>
    obtain ⟨m, hm⟩ : ∃ m, x.inflightPkts = m + 1 := ⟨x.inflightPkts - 1, by omega⟩
    have hfew' : m ≤ maxInflight := by omega
    have hd : x.inflightPkts - (acks + 1) = m - acks := by omega
    rw [hd]
    cases hget : x.out.get x.oldest with
    | none =>
      simp only [ackOldest, ackPacket, hget, if_true, hm, Nat.add_sub_cancel]
      rw [ih (x := { x with inflightPkts := m }) hseq hfew' (by dsimp only; omega)]
      exact keeps_pass hm (Nat.sub_le _ _) (by simp [hget]) fun _ _ => rfl
    | some p =>
      by_cases h0 : p.transmissions = 0
      · simp only [ackOldest, ackPacket, hget, if_pos h0, Bool.false_eq_true, if_false]
        have hold : x.out.get (sub x.seqNr (m + 1)) = some p := by rw [← hm]; exact hget
        exact ⟨fun _ => ⟨m, by omega, p, hold, .inr h0⟩, fun _ => ⟨m, by omega, p, hold, .inr h0⟩⟩
      · simp only [ackOldest, ackPacket, hget, if_neg h0, if_true, hm, Nat.add_sub_cancel]
        rw [ih (x := { x with out := x.out.del x.oldest, inflightPkts := m }) hseq hfew' (by dsimp only; omega)]
        refine keeps_pass hm (Nat.sub_le _ _) (fun q hq => ?_) fun k hk => SeqRing.get_del_ne ?_
        · rw [← Option.some.inj (hget.symm.trans hq)]
          exact h0
        · unfold oldest sub
          unfold maxInflight at hfew
          omega

theorem skipGone_eq_zero {n : ℕ} (hn : x.inflightPkts ≤ n) :
    (x.skipGone n).inflightPkts = 0 ↔ ¬ x.Keeps x.inflightPkts := by
  induction n generalizing x with
  | zero => exact ⟨fun _ ⟨k, hk, _⟩ => by omega, fun _ => Nat.le_zero.1 hn⟩
  | succ n ih =>
    rw [skipGone]
    split_ifs with h0 hsome
    · exact ⟨fun _ ⟨k, hk, _⟩ => by omega, fun _ => h0⟩
    · obtain ⟨p, hp⟩ := Option.isSome_iff_exists.1 hsome
      refine ⟨fun hc => absurd hc h0, fun hc => absurd ⟨x.inflightPkts - 1, by omega, p, ?_, .inl (by omega)⟩ hc⟩
      rw [Nat.sub_add_cancel (Nat.pos_of_ne_zero h0)]
      exact hp
    · rw [ih (by dsimp only; omega)]
      obtain ⟨m, hm⟩ : ∃ m, x.inflightPkts = m + 1 := ⟨x.inflightPkts - 1, by omega⟩
      have hnone : x.out.get (sub x.seqNr (m + 1)) = none := by
        rw [← hm]
        exact Option.not_isSome_iff_eq_none.1 hsome
      refine not_congr ⟨?_, ?_⟩
      · rintro ⟨k, hk, p, hp, -⟩
        exact ⟨k, by dsimp only at hk; omega, p, hp, .inl (by dsimp only at hk; omega)⟩
      · rintro ⟨k, hk, p, hp, -⟩
        have hne : k ≠ m := by
          rintro rfl
          rw [hnone] at hp
          contradiction
        exact ⟨k, by dsimp only; omega, p, hp, .inl (by dsimp only; omega)⟩

theorem inflight_ackOldest_le (x : Tx) (acks : ℕ) : (x.ackOldest acks).inflightPkts ≤ x.inflightPkts := by
  induction acks generalizing x with
  | zero => exact le_rfl
  | succ acks ih =>
    rw [ackOldest]
    have he := inflight_ackPacket x x.oldest
    dsimp only
    split_ifs
    · refine (ih _).trans ?_
      dsimp only
      omega
    · exact he.le

theorem inflight_skipGone_le (x : Tx) (n : ℕ) : (x.skipGone n).inflightPkts ≤ x.inflightPkts := by
  fun_induction skipGone x n with
  | case1 => exact le_rfl
  | case2 => exact le_rfl
  | case3 => exact le_rfl
  | case4 x n _ _ ih => exact ih.trans (Nat.sub_le _ _)

section
variable (hseq : x.seqNr < 2 ^ 16) (hfew : x.inflightPkts ≤ maxInflight)
include hseq hfew

theorem acks_eq : (if x.inflightPkts < sub h.ack (sub (sub x.seqNr 1) x.inflightPkts) then 0
    else sub h.ack (sub (sub x.seqNr 1) x.inflightPkts)) = x.inflightPkts - x.behind h := by
  unfold behind sub add
  unfold maxInflight at hfew
  split_ifs <;> omega

/-- What acknowledgements leave in flight, and what they tell of the FIN. -/
theorem takeAcks_spec (lost : List ℕ) :
    (x.takeAcks h lost).inflightPkts ≤ x.inflightPkts ∧
      ((x.takeAcks h lost).inflightPkts = 0 ↔ ¬ x.Keeps (x.behind h)) ∧
      ((x.takeAcks h lost).finAcked = true ↔
        x.finAcked = true ∨ x.finSent = true ∧ x.behind h = 0 ∧ 0 < x.inflightPkts) := by
  have hlost : ∀ y : Tx, (lost.foldl queueResend y).core = y.core := fun y =>
    foldlRecOn (motive := fun z : Tx => z.core = y.core) _ _ rfl fun z hz seq _ => (core_queueResend z seq).trans hz
  obtain ⟨b, hb⟩ : ∃ b : Bool, b = (x.finAcked || decide (x.finSent = true ∧
      x.inflightPkts - x.behind h = x.inflightPkts ∧ 0 < x.inflightPkts - x.behind h)) := ⟨_, rfl⟩
  obtain ⟨y, hy⟩ : ∃ y, y = ({ x with finAcked := b } : Tx).ackOldest (x.inflightPkts - x.behind h) := ⟨_, rfl⟩
  have hcore : (x.takeAcks h lost).core = (y.skipGone y.inflightPkts).core := by
    simp only [takeAcks]
    rw [acks_eq hseq hfew (h := h), ← hb, ← hy]
    cases h.sack with
    | none => exact hlost _
    | some mask => exact (hlost _).trans (core_selectiveAck _ _ _)
  have hflight : (x.takeAcks h lost).inflightPkts = (y.skipGone y.inflightPkts).inflightPkts :=
    inflight_of_core hcore
  have hknown : (x.takeAcks h lost).finAcked = b :=
    (finAcked_of_core hcore).trans ((finAcked_skipGone _ _).trans (hy ▸ finAcked_ackOldest _ _))
  refine ⟨?_, ?_, ?_⟩
  · rw [hflight]
    refine (inflight_skipGone_le _ _).trans ?_
    rw [hy]
    exact inflight_ackOldest_le { x with finAcked := b } _
  · rw [hflight, skipGone_eq_zero le_rfl, hy, keeps_ackOldest (by exact hseq) (by exact hfew) (Nat.sub_le _ _)]
    refine not_congr (exists_congr fun k => and_congr_right fun hk => exists_congr fun p => and_congr_right fun _ => ?_)
    dsimp only at hk ⊢
    exact or_congr_left (by omega)
  · rw [hknown, hb, Bool.or_eq_true, decide_eq_true_eq]
    refine or_congr_right (and_congr_right fun _ => ?_)
    omega

end

end Tx

namespace Conn
variable {cfg : Config} {c c' : Conn} {K J : Prop}

/-- The packet is processed, and it is not older than those before it. -/
structure Takes (c : Conn) (h : Packet) : Prop where
  state : c.state ≠ .done
  typ : h.typ ≠ .reset ∧ h.typ ≠ .syn
  heard : c.ignores h = false
  fresh : c.tx.staleAck h = false
  near : sub (sub h.seq (c.establish h).rx.ackNr) 1 < reorderMax

theorem handle_of_takes {h : Packet} (ht : c.Takes h) (lost : List ℕ) :
    c.handle cfg h lost = (c.establish h).processOpen cfg h false lost := by
  have hp : c.handle cfg h lost = c.process cfg h lost := by
    unfold handle
    split
    · exact absurd ‹_› ht.typ.1
    · exact absurd ‹_› ht.typ.2
    · rfl
  rw [hp, process, if_neg ht.state, if_neg (by rw [ht.heard]; exact Bool.false_ne_true), ht.fresh]

/-- A packet that is taken before the FIN is acknowledged, and does not acknowledge it, leaves a packet behind the one
it acknowledges that is not acknowledged selectively. -/
def KeepsFin (c : Conn) (h : Packet) : Prop :=
  c.Takes h → c.tx.finSent = true → c.tx.finAcked = false → c.tx.behind h ≠ 0 → c.tx.Keeps (c.tx.behind h)

/-- What the counts tell of the FIN. `K` is that a packet was kept in flight until it was acknowledged, and `J` that it
was, with one kept. -/
structure Tells (K J : Prop) (c : Conn) : Prop where
  seq : c.tx.seqNr < 2 ^ 16
  few : c.tx.inflightPkts ≤ maxInflight
  syn : c.state = .synSent → c.tx.finSent = false
  queued : c.tx.finSent = true → c.tx.finQueued = true ∧ c.tx.sbuf = []
  ends : c.closed = true → c.tx.finAcked = true → c.state = .done
  fresh : c.tx.finSent = false → K
  flight : 0 < c.tx.inflightPkts → K
  acked : c.tx.finAcked = true → K
  known : J → c.tx.finAcked = true
  waits : K → c.state ≠ .done → c.tx.finSent = true → c.tx.finAcked = true ∨ 0 < c.tx.inflightPkts

def core (c : Conn) : Tx × ConnState × Bool := (c.tx.core, c.state, c.closed)

theorem Tells.of_core (h : Tells K J c) (hcore : c'.core = c.core) : Tells K J c' := by
  have hc : Tells K J { state := c.core.2.1, tx := c.core.1, closed := c.core.2.2 } := { h with }
  rw [← hcore] at hc
  exact { hc with }

theorem state_of_core (h : c'.core = c.core) : c'.state = c.state := congrArg (fun k => k.2.1) h

theorem Tells.withRx (h : Tells K J c) (rx : Rx) : Tells K J { c with rx := rx } := { h with }

theorem core_transmit (c : Conn) (seq : ℕ) : (c.transmit seq).core = c.core := by
  unfold transmit
  split <;> rfl

theorem state_sendData (c : Conn) (n : ℕ) : (c.sendData n).state = c.state := by
  rw [sendData, state_of_core (core_transmit _ _)]

theorem core_resendQueued (c : Conn) (seq : ℕ) : (c.resendQueued seq).core = c.core := by
  unfold resendQueued
  split
  · rfl
  · split_ifs
    · exact core_transmit _ seq
    · rfl

theorem core_resendAll (c : Conn) : c.resendAll.core = c.core :=
  foldlRecOn (motive := fun d : Conn => d.core = c.core) _ _ rfl fun d hd seq _ => (core_resendQueued d seq).trans hd

theorem core_resendLost (c : Conn) (i : ℕ) (fits : List Bool) : (c.resendLost i fits).1.core = c.core := by
  fun_induction resendLost c i fits with
  | case1 => rfl
  | case2 c fits i _ ih => exact ih
  | case3 c i p _ _ fits ih => exact ih.trans (core_transmit _ _)
  | case4 => rfl
  | case5 c fits i p _ _ ih => exact ih

theorem core_sendAck (c : Conn) : c.sendAck.core = c.core := by
  unfold sendAck
  split_ifs <;> rfl

section
variable (h : Tells K J c)
include h

theorem Tells.sendData (hb : c.tx.sbuf ≠ []) (hroom : c.tx.inflightPkts < maxInflight) (n : ℕ) :
    Tells K J (c.sendData n) := by
  have hf : c.tx.finSent = false := by
    by_contra hf
    exact hb (h.queued (Bool.not_eq_false _ ▸ hf)).2
  have hpush : Tells K J { c with tx := { c.tx with sbuf := c.tx.sbuf.drop n }.push .data (c.tx.sbuf.take n) } :=
    { h with
      seq := by unfold Tx.push add; exact Nat.mod_lt _ (by decide)
      few := hroom
      queued := fun hs => absurd (hf.symm.trans hs) (by decide)
      flight := fun _ => h.fresh hf
      waits := fun _ _ hs => absurd (hf.symm.trans hs) (by decide) }
  exact hpush.of_core (core_transmit _ _)

theorem Tells.sendNew (cfg : Config) (fits : List Bool) :
    Tells K J (c.sendNew cfg fits) ∧ (c.sendNew cfg fits).state = c.state := by
  induction fits generalizing c with
  | nil => exact ⟨h, rfl⟩
  | cons b fits ih =>
    unfold Conn.sendNew
    dsimp only
    split_ifs with hstop hnagle
    · exact ⟨h, rfl⟩
    · exact ⟨h, rfl⟩
    · rw [not_or, not_le] at hstop
      obtain ⟨hmore, hstate⟩ := ih (h.sendData hstop.1 (hstop.2.trans (by decide))
        (min c.tx.sbuf.length cfg.maxPayload))
      exact ⟨hmore, hstate.trans (state_sendData c _)⟩
    · exact ⟨h, rfl⟩

theorem Tells.sendFin (hs : c.state ≠ .synSent) : Tells K J c.sendFin := by
  unfold Conn.sendFin
  split_ifs with hf
  · have hpush : Tells K J { c with tx := { c.tx.push .fin [] with finSent := true } } :=
      { h with
        seq := by unfold Tx.push add; exact Nat.mod_lt _ (by decide)
        few := hf.2.2.2
        syn := fun hsyn => absurd hsyn hs
        queued := fun _ => ⟨hf.1, hf.2.2.1⟩
        fresh := nofun
        flight := fun _ => h.fresh hf.2.1
        waits := fun _ _ _ => .inr (Nat.succ_pos _) }
    exact hpush.of_core (core_transmit _ _)
  · exact h

theorem Tells.outputOpen (hs : c.state ≠ .synSent) (fits : List Bool) : Tells K J (c.outputOpen cfg fits) := by
  have hlost := core_resendLost c c.tx.inflightPkts fits
  unfold Conn.outputOpen
  generalize c.resendLost c.tx.inflightPkts fits = r at hlost
  obtain ⟨d, left⟩ := r
  have hd : Tells K J d := h.of_core hlost
  have hstate : d.state = c.state := state_of_core hlost
  cases left with
  | none => exact (hd.sendFin (hstate ▸ hs)).of_core (core_sendAck _)
  | some fits =>
    obtain ⟨hnew, hnstate⟩ := hd.sendNew cfg fits
    exact (hnew.sendFin (by rw [hnstate, hstate]; exact hs)).of_core (core_sendAck _)

theorem Tells.output (fits : List Bool) : Tells K J (c.output cfg fits) := by
  unfold Conn.output
  split_ifs
  · exact h.of_core rfl
  · exact h.of_core rfl
  have hall : Tells K J ({ c with sentData := false }).resendAll := h.of_core (core_resendAll _)
  dsimp only
  split_ifs with hs
  · exact hall
  · exact hall.outputOpen hs fits

/-- The connection ends. -/
theorem Tells.drop (htx : c'.tx = c.tx.drop) (hs : c'.state = .done) : Tells K J c' := by
  have hd : Tells K J { state := .done, tx := c.tx.drop } :=
    { h with
      few := Nat.zero_le _
      syn := nofun
      queued := fun hf => ⟨(h.queued hf).1, rfl⟩
      ends := fun _ _ => rfl
      flight := fun h0 => absurd h0 (lt_irrefl 0)
      waits := fun _ hno => absurd rfl hno }
  rw [← htx, ← hs] at hd
  exact { hd with ends := fun _ _ => hs }

theorem Tells.destroy : Tells K J c.destroy := by
  unfold Conn.destroy
  split_ifs
  · exact h
  · exact h.drop rfl rfl

theorem Tells.abort : Tells K J c.abort := by
  unfold Conn.abort
  split_ifs
  · exact h.destroy
  · exact Tells.destroy (h.of_core rfl)

theorem Tells.close : Tells K J c.close := by
  unfold Conn.close
  by_cases hcl : c.closed
  · rw [if_pos hcl]
    exact h
  rw [if_neg hcl]
  dsimp only
  split_ifs with hd hearly hacked
  · exact { h with ends := fun _ _ => hd }
  · rw [Conn.destroy, if_neg hd]
    exact h.drop rfl rfl
  · rw [finish_eq, Conn.destroy, if_neg hd]
    exact h.drop rfl rfl
  · exact { h with queued := fun hf => ⟨rfl, (h.queued hf).2⟩, ends := fun _ ha => absurd ha hacked }

theorem Tells.write (b : Bytes) : Tells K J (c.write cfg b) := by
  unfold Conn.write
  split_ifs with hno
  · exact h
  · exact { h with queued := fun hf => absurd (.inr (.inl (h.queued hf).1)) hno }

theorem Tells.closeWrite : Tells K J c.closeWrite := by
  unfold Conn.closeWrite
  split_ifs
  · exact h
  · exact { h with queued := fun hf => ⟨rfl, (h.queued hf).2⟩ }

theorem Tells.read (n : ℕ) : Tells K J (c.read cfg n) := by
  unfold Conn.read
  split_ifs <;> first | exact h | exact h.withRx _

theorem Tells.checkTimeouts (due : Due) : Tells K J (c.checkTimeouts due) := by
  unfold Conn.checkTimeouts
  split_ifs
  · exact h.of_core rfl
  · exact h.abort
  · exact h.destroy
  have htx : ({ c with tx := timeoutTx due c.tx } : Conn).core = c.core := by
    refine Prod.ext ?_ rfl
    simp only [Conn.core, timeoutTx]
    split_ifs <;> simp only [Tx.core_queueResend, Tx.core_loseAll]
  dsimp only
  split_ifs <;> exact h.of_core htx

theorem Tells.establish (hs : c.state ≠ .done) (p : Packet) :
    Tells K J (c.establish p) ∧ (c.establish p).state ≠ .done ∧
    (c.establish p).tx.finSent = c.tx.finSent ∧ (c.establish p).tx.finAcked = c.tx.finAcked ∧
    (c.tx.finSent = true → (c.establish p).tx = c.tx) := by
  have hsyn' : ∀ {P : Prop}, ConnState.connected = .synSent → P := fun he => absurd he (by decide)
  have hdone : ConnState.connected ≠ .done := by decide
  have hends : ∀ {P : Prop}, c.closed = true → c.tx.finAcked = true → P := fun hcl ha => absurd (h.ends hcl ha) hs
  unfold Conn.establish
  split
  · rename_i hsyn
    have hf := h.syn hsyn
    have hno : ∀ {P : Prop}, c.tx.finSent = true → P := fun hf' => absurd (hf.symm.trans hf') (by decide)
    simp only [answered]
    split_ifs
    · have ha := Tx.finAcked_ackPacket c.tx (sub c.tx.seqNr 1)
      have hfr := Tx.framed_ackPacket c.tx (sub c.tx.seqNr 1)
      generalize (c.tx.ackPacket (sub c.tx.seqNr 1)).1 = x at ha hfr
      refine ⟨⟨hfr.seqNr ▸ h.seq, Nat.zero_le _, hsyn', fun hf' => hno (hfr.finSent.symm.trans hf'),
        fun hcl hx => hends hcl (ha.symm.trans hx), fun _ => h.fresh hf, fun _ => h.fresh hf, fun _ => h.fresh hf,
        fun hj => ha.trans (h.known hj), fun _ _ hf' => hno (hfr.finSent.symm.trans hf')⟩, hdone, hfr.finSent, ha, hno⟩
    · exact ⟨{ h with syn := hsyn', ends := hends, waits := fun _ _ => hno }, hdone, rfl, rfl, hno⟩
  · exact ⟨{ h with syn := hsyn', ends := hends, waits := fun hk _ => h.waits hk hs }, hdone, rfl, rfl, fun _ => rfl⟩
  · exact ⟨h, hs, rfl, rfl, fun _ => rfl⟩

theorem Tells.handle (p : Packet) (lost : List ℕ) : Tells K J (c.handle cfg p lost) ∨ c.Takes p := by
  unfold Conn.handle
  split
  · exact .inl h.destroy
  · refine .inl ?_
    split_ifs
    · exact h.withRx _
    · exact h
  rename_i hreset hsyn
  unfold process
  split_ifs with hd hl hi
  · exact .inl (h.of_core rfl)
  · exact .inl h
  · exact .inl h
  obtain ⟨he, hopen, -⟩ := h.establish hd p
  by_cases htake : c.tx.staleAck p = false ∧ sub (sub p.seq (c.establish p).rx.ackNr) 1 < reorderMax
  · exact .inr ⟨hd, ⟨hreset, hsyn⟩, Bool.not_eq_true _ ▸ hi, htake.1, htake.2⟩
  refine .inl ?_
  generalize c.establish p = e at he hopen htake
  by_cases hfar : reorderMax ≤ sub (sub p.seq e.rx.ackNr) 1
  · simp only [processOpen, if_pos hfar]
    split_ifs
    · exact he.withRx _
    · exact he
  · have hstale : c.tx.staleAck p = true := by
      by_contra hno
      exact htake ⟨Bool.eq_false_iff.2 hno, not_le.1 hfar⟩
    have hno : ¬ (e.tx.finAcked = true ∧ e.closed = true) := fun hf => hopen (he.ends hf.2 hf.1)
    simp only [processOpen, if_neg hfar, hstale, if_true, if_neg hno]
    split_ifs
    · exact he
    · exact he.withRx _

theorem Tells.takes (cfg : Config) {p : Packet} (ht : c.Takes p) (lost : List ℕ) :
    Tells (K ∧ c.KeepsFin p) (J ∨ K ∧ c.tx.finSent = true ∧ c.tx.behind p = 0) (c.handle cfg p lost) := by
  obtain ⟨he, hopen, hsent, hknown, hsame⟩ := h.establish ht.state p
  have hnear := ht.near
  rw [handle_of_takes ht]
  generalize c.establish p = e at he hopen hsent hknown hsame hnear
  obtain ⟨hle, hflight, hacked⟩ := Tx.takeAcks_spec (h := p) he.seq he.few lost
  have hf := Tx.framed_takeAcks e.tx p lost
  simp only [processOpen, if_neg (not_le.2 hnear), Bool.false_eq_true, if_false]
  generalize e.tx.takeAcks p lost = x at hle hflight hacked hf ⊢
  have hfin : x.finSent = c.tx.finSent := hf.finSent.trans hsent
  -- until it is known whether the connection ends here, it may as well not be closed
  have hd : Tells (K ∧ c.KeepsFin p) (J ∨ K ∧ c.tx.finSent = true ∧ c.tx.behind p = 0)
      { e with tx := x, closed := false } := by
    refine ⟨hf.seqNr ▸ he.seq, hle.trans he.few, fun hs => hf.finSent.trans (he.syn hs), fun hs => ?_,
      fun hcl => absurd hcl Bool.false_ne_true,
      fun hs => ⟨he.fresh (hf.finSent.symm.trans hs), fun _ hs' => ?_⟩, fun h0 => ⟨he.flight (h0.trans_le hle), ?_⟩,
      fun ha => ?_, fun hj => hacked.2 ?_, fun hk _ hs => ?_⟩
    · rw [hf.finQueued, hf.sbuf]
      exact he.queued (hf.finSent.symm.trans hs)
    · exact absurd (hs'.symm.trans (hfin.symm.trans hs)) (by decide)
    · intro _ hs _ _
      rw [← hsame hs]
      exact not_not.1 fun hno => h0.ne' (hflight.2 hno)
    · rcases hacked.1 ha with ha | ⟨hs, hb, h0⟩
      · exact ⟨he.acked ha, fun _ _ hno => absurd (hno.symm.trans (hknown.symm.trans ha)) (by decide)⟩
      · exact ⟨he.flight h0, fun _ hs hno hb' => absurd (hsame hs ▸ hb) hb'⟩
    · rcases hj with hj | ⟨hk, hs, hb⟩
      · exact .inl (he.known hj)
      · exact (he.waits hk hopen (hsent.trans hs)).imp_right fun h0 => ⟨hsent.trans hs, hsame hs ▸ hb, h0⟩
    · have hs' := hfin.symm.trans hs
      by_cases ha : x.finAcked = true
      · exact .inl ha
      have hno := ha
      rw [hacked, not_or] at hno
      have h0 := (he.waits hk.1 hopen (hsent.trans hs')).resolve_left hno.1
      refine .inr (Nat.pos_of_ne_zero fun hx => hflight.1 hx ?_)
      rw [hsame hs']
      refine hk.2 ht hs' (hknown.symm.trans (Bool.eq_false_iff.2 hno.1)) fun hb => hno.2 ⟨hsent.trans hs', ?_, h0⟩
      rw [hsame hs', hb]
  split_ifs with hend hstate
  · refine hd.drop ?_ ?_
    · rw [finish_eq, Conn.destroy, if_neg hopen]
    · rw [finish_eq]
      exact destroy_state _
  · exact { hd with ends := fun hcl ha => absurd ⟨ha, hcl⟩ hend }
  · exact { hd with ends := fun hcl ha => absurd ⟨ha, hcl⟩ hend }

theorem Tells.datagram (p : Packet) (lost : List ℕ) : Tells (K ∧ c.KeepsFin p) J (c.handle cfg p lost) := by
  by_cases ht : c.Takes p
  · have hl := h.takes cfg ht lost
    exact { hl with known := fun hj => hl.known (.inl hj) }
  · have hno : c.KeepsFin p := fun ht' => absurd ht' ht
    rw [and_iff_left hno]
    exact (h.handle p lost).resolve_right ht

theorem Tells.act (peer : List Packet) (a : Act) (ha : ∀ i lost, a ≠ .datagram i lost) :
    Tells K J (c.act cfg peer a) := by
  cases a with
  | write b => exact h.write b
  | read n => exact h.read n
  | closeWrite => exact h.closeWrite
  | close => exact h.close
  | output fits => exact h.output fits
  | timeout due => exact h.checkTimeouts due
  | datagram i lost => exact absurd rfl (ha i lost)

end

theorem tells_dial (first : ℕ) : Tells True False (dial first) := by
  obtain ⟨d, hd⟩ : ∃ d : Conn, d = { state := .synSent, tx := Tx.push { seqNr := first % 2 ^ 16, first } .syn [] } :=
    ⟨_, rfl⟩
  have hpush : Tells True False d := by
    rw [hd]
    unfold Tx.push add
    exact ⟨Nat.mod_lt _ (by decide), show 1 ≤ maxInflight by decide, fun _ => rfl, nofun, nofun, fun _ => trivial,
      fun _ => trivial, fun _ => trivial, nofun, nofun⟩
  refine hpush.of_core ?_
  rw [dial, ← hd]
  exact core_transmit d _

theorem tells_acceptSyn (first syn : ℕ) : Tells True False (acceptSyn first syn) :=
  ⟨Nat.mod_lt _ (by decide), Nat.zero_le _, nofun, nofun, nofun, fun _ => trivial, fun _ => trivial, fun _ => trivial,
    nofun, nofun⟩

end Conn

open Conn

namespace Net

def side (n : Net) : Bool → Conn
  | true => n.left
  | false => n.right

variable {cl cr : Config} {isn isn' : ℕ} {n : Net} {x : Bool} {K J : Prop}

theorem side_step (a : Act) :
    (Net.step cl cr n (x, a)).side x = (n.side x).act (bif x then cl else cr) (n.side !x).wire a := by
  cases x <;> rfl

theorem side_step_ne {y : Bool} (hy : y ≠ x) (a : Act) : (Net.step cl cr n (y, a)).side x = n.side x := by
  cases x <;> cases y <;> first | rfl | exact absurd rfl hy

/-- Side `x` keeps a packet in flight until its FIN is acknowledged. -/
def KeepsFin (x : Bool) (n : Net) : Bool × Act → Prop
  | (y, .datagram i _) => y = x → ∀ p, (n.side !x).wire[i]? = some p → (n.side x).KeepsFin p
  | _ => True

theorem tells_step (h : Tells K J (n.side x)) (op : Bool × Act) :
    Tells (K ∧ n.KeepsFin x op) J ((Net.step cl cr n op).side x) := by
  obtain ⟨y, a⟩ := op
  by_cases hy : y = x
  · subst hy
    rw [side_step]
    cases a with
    | datagram i lost =>
      simp only [Conn.act, Net.KeepsFin, forall_const]
      cases hp : (n.side !y).wire[i]? with
      | none => simpa using h
      | some p => simpa using h.datagram p lost
    | _ =>
      rw [Net.KeepsFin, and_true]
      · exact h.act _ _ nofun
      · exact nofun
  · rw [side_step_ne hy, and_iff_left]
    · exact h
    · cases a with
      | datagram i lost => exact fun he => absurd he hy
      | _ => trivial

theorem tells_init : Tells True False ((network cl cr isn isn').init.side x) := by
  have hinit : (network cl cr isn isn').init =
      ⟨dial (2 ^ 16 + isn), acceptSyn (2 ^ 16 + isn') (2 ^ 16 + isn)⟩ := rfl
  have hleft : ∀ l r : Conn, (⟨l, r⟩ : Net).side true = l := fun _ _ => rfl
  have hright : ∀ l r : Conn, (⟨l, r⟩ : Net).side false = r := fun _ _ => rfl
  cases x with
  | true =>
    rw [hinit, hleft]
    exact tells_dial _
  | false =>
    rw [hinit, hright]
    exact tells_acceptSyn _ _

theorem tells_run (ops : List (Bool × Act)) :
    Tells ((network cl cr isn isn').Meets (KeepsFin x) ops) False (((network cl cr isn isn').run ops).side x) := by
  induction ops using reverseRecOn with
  | nil => exact tells_init
  | append_singleton ops op ih =>
    rw [Machine.meets_snoc, Machine.run_snoc]
    exact tells_step ih op

theorem tells_on {pre : List (Bool × Act)} (h : Tells K J (((network cl cr isn isn').run pre).side x))
    (mid : List (Bool × Act)) :
    ∃ K' : Prop, (K' → K) ∧ Tells K' J (((network cl cr isn isn').run (pre ++ mid)).side x) := by
  induction mid using reverseRecOn with
  | nil => exact ⟨K, id, by rwa [append_nil]⟩
  | append_singleton mid op ih =>
    obtain ⟨K', hK, ht⟩ := ih
    rw [← append_assoc, Machine.run_snoc]
    exact ⟨_, fun hk => hK hk.1, tells_step ht op⟩

end Net

/-- In every run in which a side that has sent its FIN takes a packet that acknowledges it, the side knows of that from
then on exactly if it had kept a packet in flight until then; and once it knows and is closed, it has ended. -/
theorem fin_acked_iff_kept (cl cr : Config) (isn isn' : ℕ) (x : Bool) (pre mid : List (Bool × Act)) (i : ℕ)
    (lost : List ℕ) {p : Packet} {c c' : Conn} (hc : ((network cl cr isn isn').run pre).side x = c)
    (hc' : ((network cl cr isn isn').run (pre ++ (x, .datagram i lost) :: mid)).side x = c')
    (hp : (((network cl cr isn isn').run pre).side !x).wire[i]? = some p) (ht : c.Takes p)
    (hfin : c.tx.finSent = true) (hack : p.ack = sub c.tx.seqNr 1) :
    (c'.tx.finAcked = true ↔ (network cl cr isn isn').Meets (Net.KeepsFin x) pre) ∧
      (c'.tx.finAcked = true → c'.closed = true → c'.state = .done) := by
  have hpre : Tells ((network cl cr isn isn').Meets (Net.KeepsFin x) pre) False c := by
    rw [← hc]
    exact Net.tells_run pre
  have hb : c.tx.behind p = 0 := by
    have hseq := hpre.seq
    rw [Tx.behind, hack]
    unfold sub add
    omega
  have hstep : ((network cl cr isn isn').run (pre ++ [(x, .datagram i lost)])).side x =
      c.handle (bif x then cl else cr) p lost := by
    rw [Machine.run_snoc, ← hc]
    show (Net.step cl cr _ _).side x = _
    rw [Net.side_step]
    simp only [Conn.act, hp]
  have htaken := hpre.takes (bif x then cl else cr) ht lost
  rw [← hstep] at htaken
  obtain ⟨K, hK, hend⟩ := Net.tells_on htaken mid
  rw [append_assoc, singleton_append, hc'] at hend
  exact ⟨⟨fun ha => (hK (hend.acked ha)).1, fun hm => hend.known (.inr ⟨hm, hfin, hb⟩)⟩, fun ha hcl => hend.ends hcl ha⟩

def narrow : Config := { maxPayload := 70, recvBuffer := 140 }

/-- After one packet the second is late. The ten behind it come one by one, each acknowledged selectively and so out of
the window, and fill the room there is; the FIN comes too. Then the second comes, and there is no room for the last of
the ten: the sender counts it and the FIN no longer, though they are not acknowledged. They are when the reader has
made room. -/
def finKept : List (Bool × Act) :=
  [(false, .output []), (true, .datagram 0 []), (true, .write (replicate 840 0)), (true, .close),
    (true, .output [true, false]), (false, .datagram 1 []), (false, .read 70), (false, .output []),
    (true, .datagram 1 []), (true, .output [true, true, false])] ++
    (range 10).flatMap (fun i => [(false, .datagram (i + 3) []), (false, .output []), (true, .datagram (i + 2) []),
      (true, .output [true, false])]) ++
    [(false, .datagram 13 []), (false, .output []), (true, .datagram 12 []), (false, .datagram 2 []),
      (false, .output []), (true, .datagram 13 []), (false, .read 140), (false, .output [])]

/-- The last packet of the peer's acknowledges the FIN, and the sender, which has closed, does not learn it. -/
theorem finKept_not_acked : ∃ h ∈ ((network narrow narrow 0 0).run finKept).right.wire,
    ((network narrow narrow 0 0).run finKept).left.Takes h ∧
    ((network narrow narrow 0 0).run finKept).left.tx.finSent = true ∧
    ((network narrow narrow 0 0).run finKept).left.closed = true ∧
    h.ack = sub ((network narrow narrow 0 0).run finKept).left.tx.seqNr 1 ∧
    (((network narrow narrow 0 0).run finKept).left.handle narrow h []).tx.finAcked = false ∧
    (((network narrow narrow 0 0).run finKept).left.handle narrow h []).state = .connected := by
  generalize hn : (network narrow narrow 0 0).run finKept = n
  have hall : (n.right.wire[14]? = some ⟨.state, 0, 13, none, [], 65536, 65549⟩ ∧ n.left.state ≠ .done) ∧
      n.left.ignores ⟨.state, 0, 13, none, [], 65536, 65549⟩ = false ∧
      n.left.tx.staleAck ⟨.state, 0, 13, none, [], 65536, 65549⟩ = false ∧
      sub (sub 0 (n.left.establish ⟨.state, 0, 13, none, [], 65536, 65549⟩).rx.ackNr) 1 < reorderMax ∧
      n.left.tx.finSent = true ∧ n.left.closed = true ∧ 13 = sub n.left.tx.seqNr 1 ∧
      (n.left.handle narrow ⟨.state, 0, 13, none, [], 65536, 65549⟩ []).tx.finAcked = false ∧
      (n.left.handle narrow ⟨.state, 0, 13, none, [], 65536, 65549⟩ []).state = .connected := by
    subst hn
    decide +kernel
  obtain ⟨⟨hmem, hs⟩, hi, hf, hr, hrest⟩ := hall
  exact ⟨_, mem_of_getElem? hmem, ⟨hs, by decide, hi, hf, hr⟩, hrest⟩

/-- The dialer has nothing to send, and its FIN is acknowledged before it closes. -/
def closing : List (Bool × Act) :=
  [(false, .output []), (true, .datagram 0 []), (true, .closeWrite), (true, .output []), (false, .datagram 1 []),
    (false, .output [])]

theorem closing_ends : (network narrow narrow 0 0).Meets (Net.KeepsFin true) closing ∧
    ((network narrow narrow 0 0).run (closing ++ [(true, .datagram 1 []), (true, .close)])).left.state = .done := by
  have h := fin_acked_iff_kept narrow narrow 0 0 true closing [(true, .close)] 1 []
    (p := ⟨.state, 0, 1, none, [], 65536, 65537⟩) rfl rfl (by decide +kernel)
    ⟨by decide +kernel, by decide, by decide +kernel, by decide +kernel, by decide +kernel⟩ (by decide +kernel)
    (by decide +kernel)
  exact ⟨h.1.1 (by decide +kernel), h.2 (by decide +kernel) (by decide +kernel)⟩

end Fib.Utp
