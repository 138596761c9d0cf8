import Fib.Lib.Runs
import Fib.Srtp.Protection

/-! A sender and a receiver of one direction of a session: what is sent arrives in any order, any number of times
or not at all, among packets of anybody else. -/

namespace Fib.Srtp
open Function ReplayWindow Context Nat

/-- A packet, its index and what goes over the wire for it. Not in the source: what the two sides are
compared by. -/
structure Record where
  ssrc : ℕ
  index : ℕ
  pkt : Bytes
  wire : Bytes
deriving DecidableEq

/-! ### The sender -/

structure Sender where
  ctx : Context
  /-- The newest first. -/
  sent : List Record := []

def lastSent (sent : List Record) (ssrc : ℕ) : Option Record := sent.find? fun r => r.ssrc = ssrc

/-- By how much a sequence number is ahead of the one of the index. -/
def advance (index seq : ℕ) : ℕ := (seq + 2 ^ 16 - index % 2 ^ 16) % 2 ^ 16

/-- A source's first packet has its sequence number for an index, and each later one is ahead of the one before
it by what the sequence number advanced. -/
def nextIndex (sent : List Record) (pkt : Bytes) : ℕ :=
  match lastSent sent (ssrcOf pkt) with
  | none => seqOf pkt
  | some r => r.index + advance r.index (seqOf pkt)

def Sender.send (s : Sender) (pkt : Bytes) : Sender :=
  match s.ctx.protectRTP pkt with
  | (.ok wire, ctx) => ⟨ctx, ⟨ssrcOf pkt, nextIndex s.sent pkt, pkt, wire⟩ :: s.sent⟩
  | (.error _, ctx) => { s with ctx := ctx }

def sender (k : SessionKeys) (window : ℕ) : Machine Sender Bytes := ⟨{ ctx := newContext k window }, Sender.send⟩

/-- The sequence number is ahead of the source's last one, by less than 2^15. -/
def Advances (s : Sender) (pkt : Bytes) : Prop :=
  (headerLen pkt).isSome = true → ∀ r ∈ lastSent s.sent (ssrcOf pkt),
    0 < advance r.index (seqOf pkt) ∧ advance r.index (seqOf pkt) < 2 ^ 15

def Counts (s : Sender) (pkt : Bytes) : Prop :=
  (headerLen pkt).isSome = true → nextIndex s.sent pkt < 2 ^ 48

instance (s : Sender) (pkt : Bytes) : Decidable (Advances s pkt) := by
  unfold Advances
  infer_instance

instance (s : Sender) (pkt : Bytes) : Decidable (Counts s pkt) := by
  unfold Counts
  infer_instance

/-! ### The receiver -/

structure Receiver where
  ctx : Context
  /-- The packets accepted, with the indices they were accepted under. -/
  accepted : List Record := []

def Receiver.receive (r : Receiver) (p : Bytes) : Receiver :=
  match r.ctx.unprotectRTP p with
  | (.ok out, ctx) => ⟨ctx, ⟨ssrcOf p, r.ctx.indexIn p, out, p⟩ :: r.accepted⟩
  | (.error _, ctx) => { r with ctx := ctx }

def receiver (k : SessionKeys) (window : ℕ) : Machine Receiver Bytes :=
  ⟨{ ctx := newContext k window }, Receiver.receive⟩

/-- The packet passes authentication under the rollover counter. -/
def Verifies (k : SessionKeys) (p : Bytes) (roc : ℕ) : Prop :=
  ∃ hl, headerLen p = some hl ∧ (k.unprotect hl (ssrcOf p) roc (seqOf p) p).isSome = true

/-- What passes authentication was sent, under that rollover counter. -/
def Unforged (k : SessionKeys) (sent : List Record) (p : Bytes) : Prop :=
  ∀ roc < 2 ^ 32, Verifies k p roc → ∃ r ∈ sent, r.wire = p ∧ r.index / 2 ^ 16 = roc

/-- The packet is within the replay window of the highest one accepted, or less than 2^15 ahead of it; before
any was accepted, it is of the first rollover counter. -/
def Near (window : ℕ) (accepted : List Record) (r : Record) : Prop :=
  ((∀ a ∈ accepted, a.ssrc ≠ r.ssrc) ∧ r.index < 2 ^ 16) ∨
    ∃ top ∈ accepted, top.ssrc = r.ssrc ∧ (∀ a ∈ accepted, a.ssrc = r.ssrc → a.index ≤ top.index) ∧
      top.index < r.index + window ∧ r.index < top.index + 2 ^ 15

instance (window : ℕ) (accepted : List Record) (r : Record) : Decidable (Near window accepted r) := by
  unfold Near
  infer_instance

/-- Every packet sent is accepted at most once, and is accepted while it is near. -/
structure Once (sent : List Record) (r : Receiver) : Prop where
  once : (r.accepted.map fun a => (a.ssrc, a.index)).Nodup
  authentic : ∀ a ∈ r.accepted, a ∈ sent
  refused : ∀ p e, (r.ctx.unprotectRTP p).1 = .error e → (r.ctx.unprotectRTP p).2 = r.ctx
  taken : ∀ s ∈ sent, s ∉ r.accepted → Near r.ctx.replayWindow r.accepted s →
    (r.ctx.unprotectRTP s.wire).1 = .ok s.pkt

/-! ### The rollover counter -/

/-- The state of a source whose highest index is `top`. -/
structure RtpState.At (t : RtpState) (top : ℕ) : Prop where
  started : t.started = true
  index : t.roc * 2 ^ 16 + t.lastSeq = top
  roc : t.roc < 2 ^ 32
  seq : t.lastSeq < 2 ^ 16

namespace RtpState.At
variable {t : RtpState} {top i seq : ℕ}

theorem estimateROC_eq (h : t.At top) (hi : i < 2 ^ 48) (h1 : top < i + 2 ^ 15) (h2 : i < top + 2 ^ 15) :
    t.estimateROC (i % 2 ^ 16) = i / 2 ^ 16 := by
  obtain ⟨hs, hindex, hroc, hseq⟩ := h
  rw [estimateROC, if_neg (by simp [hs])]
  split_ifs <;> omega

theorem estimateROC_lt (h : t.At top) : t.estimateROC seq < 2 ^ 32 := by
  have hroc := h.roc
  unfold estimateROC
  split_ifs <;> omega

theorem update_at (h : t.At top) (hseq : seq < 2 ^ 16) (hpass : top < t.estimateROC seq * 2 ^ 16 + seq + 2 ^ 15) :
    (t.update (t.estimateROC seq) seq).At (max top (t.estimateROC seq * 2 ^ 16 + seq)) := by
  have hlt : t.estimateROC seq < 2 ^ 32 := h.estimateROC_lt
  obtain ⟨hs, hindex, hroc, hlast⟩ := h
  have hest : t.estimateROC seq = t.roc ∨ t.estimateROC seq = (t.roc + 1) % 2 ^ 32 ∨
      (0 < t.roc ∧ t.estimateROC seq = t.roc - 1 ∧ t.lastSeq < seq) := by
    rw [estimateROC, if_neg (by simp [hs])]
    split_ifs <;> omega
  generalize t.estimateROC seq = est at *
  rw [update, if_neg (by simp [hs])]
  split_ifs with h1 h2
  · refine ⟨hs, ?_, hlt, hseq⟩
    rw [max_eq_right (by omega)]
  · refine ⟨hs, ?_, hroc, hseq⟩
    rw [max_eq_right (by omega), h2.1]
  · refine ⟨hs, ?_, hroc, hlast⟩
    rw [max_eq_left (by omega), hindex]

end RtpState.At

theorem newRTPState_at (c : Context) {seq : ℕ} (h : seq < 2 ^ 16) : (c.newRTPState.update 0 seq).At seq := by
  rw [RtpState.update, if_pos (by rfl)]
  refine ⟨rfl, ?_, Nat.two_pow_pos 32, h⟩
  simp

/-! ### What is sent -/

/-- What goes over the wire is the packet protected under its index. -/
structure Protects (k : SessionKeys) (r : Record) : Prop where
  bound : r.index < 2 ^ 48
  ssrc : ssrcOf r.pkt = r.ssrc
  seq : seqOf r.pkt = r.index % 2 ^ 16
  wire : ∃ hl, headerLen r.pkt = some hl ∧
    r.wire = k.protect hl r.ssrc (r.index / 2 ^ 16) (r.index % 2 ^ 16) r.pkt

variable {k : SessionKeys}

theorem Protects.unprotect {r : Record} (h : Protects k r) : ssrcOf r.wire = r.ssrc ∧
    seqOf r.wire = r.index % 2 ^ 16 ∧ ∃ hl, headerLen r.wire = some hl ∧ hl + k.tagLen ≤ r.wire.length ∧
      k.unprotect hl r.ssrc (r.index / 2 ^ 16) (r.index % 2 ^ 16) r.wire = some r.pkt := by
  obtain ⟨hl, hheader, hwire⟩ := h.wire
  obtain ⟨h12, hle⟩ := headerLen_bounds hheader
  have htake : r.pkt.take hl = r.wire.take hl := by
    rw [hwire]
    exact (k.take_protect hle).symm
  have hlen : r.wire.length = r.pkt.length + k.tagLen := by
    rw [hwire]
    exact k.length_protect hle
  refine ⟨?_, ?_, hl, headerLen_congr hheader htake (by omega), by omega, ?_⟩
  · rw [← h.ssrc, ssrcOf_congr htake h12]
  · rw [← h.seq, seqOf_congr htake h12]
  · rw [hwire]
    exact k.unprotect_protect hle

structure Sends (k : SessionKeys) (s : Sender) : Prop where
  keys : s.ctx.keys = k
  protects : ∀ r ∈ s.sent, Protects k r
  falling : s.sent.Pairwise fun a b => a.ssrc = b.ssrc → b.index < a.index
  out : ∀ ssrc, (s.ctx.rtpOut ssrc = none ∧ lastSent s.sent ssrc = none) ∨
    ∃ t l, s.ctx.rtpOut ssrc = some t ∧ lastSent s.sent ssrc = some l ∧ t.At l.index

variable {sent : List Record} {pkt : Bytes} {s : Sender}

theorem lastSent_eq_none {ssrc : ℕ} (h : lastSent sent ssrc = none) : ∀ r ∈ sent, r.ssrc ≠ ssrc := by
  simpa [lastSent] using h

theorem le_lastSent {r l : Record} (hfall : sent.Pairwise fun a b => a.ssrc = b.ssrc → b.index < a.index)
    (hl : lastSent sent r.ssrc = some l) (hr : r ∈ sent) : r.index ≤ l.index := by
  induction sent with
  | nil => exact absurd hr List.not_mem_nil
  | cons a sent ih =>
    obtain ⟨hhead, htail⟩ := List.pairwise_cons.1 hfall
    rw [lastSent, List.find?_cons] at hl
    by_cases ha : a.ssrc = r.ssrc
    · simp only [ha, decide_true, Option.some.injEq] at hl
      subst hl
      rcases List.mem_cons.1 hr with rfl | hr
      · exact le_rfl
      · exact (hhead r hr ha).le
    · simp only [ha, decide_false] at hl
      rcases List.mem_cons.1 hr with rfl | hr
      · exact absurd rfl ha
      · exact ih htail hl hr

theorem advance_mod {index seq : ℕ} (h : seq < 2 ^ 16) : (index + advance index seq) % 2 ^ 16 = seq := by
  unfold advance
  omega

theorem lastSent_cons (r : Record) (sent : List Record) (ssrc : ℕ) :
    lastSent (r :: sent) ssrc = if r.ssrc = ssrc then some r else lastSent sent ssrc := by
  rw [lastSent, List.find?_cons]
  split_ifs with h <;> simp [h, lastSent]

theorem Sends.next (h : Sends k s) (hp : (headerLen pkt).isSome = true)
    (ha : Advances s pkt) (hc : Counts s pkt) : let t := (s.ctx.rtpOut (ssrcOf pkt)).getD s.ctx.newRTPState
    t.estimateROC (seqOf pkt) = nextIndex s.sent pkt / 2 ^ 16 ∧ nextIndex s.sent pkt % 2 ^ 16 = seqOf pkt ∧
      (t.update (t.estimateROC (seqOf pkt)) (seqOf pkt)).At (nextIndex s.sent pkt) ∧
      ∀ r ∈ s.sent, r.ssrc = ssrcOf pkt → r.index < nextIndex s.sent pkt := by
  have hseq : seqOf pkt < 2 ^ 16 := uint16_lt pkt 2
  have hbound := hc hp
  rcases h.out (ssrcOf pkt) with ⟨hout, hlast⟩ | ⟨t, l, hout, hlast, hat⟩
  · have hnext : nextIndex s.sent pkt = seqOf pkt := by rw [nextIndex, hlast]
    simp only [hout, hnext, Option.getD_none]
    refine ⟨(div_eq_of_lt hseq).symm, mod_eq_of_lt hseq, newRTPState_at _ hseq, ?_⟩
    intro r hr he
    exact absurd he (lastSent_eq_none hlast r hr)
  obtain ⟨hpos, hlt⟩ := ha hp l hlast
  have hnext : nextIndex s.sent pkt = l.index + advance l.index (seqOf pkt) := by rw [nextIndex, hlast]
  have hmod : nextIndex s.sent pkt % 2 ^ 16 = seqOf pkt := by rw [hnext, advance_mod hseq]
  have hest : t.estimateROC (seqOf pkt) = nextIndex s.sent pkt / 2 ^ 16 := by
    rw [← hmod]
    exact hat.estimateROC_eq hbound (by omega) (by omega)
  have hindex : t.estimateROC (seqOf pkt) * 2 ^ 16 + seqOf pkt = nextIndex s.sent pkt := by omega
  rw [hout]
  refine ⟨hest, hmod, ?_, fun r hr he => ?_⟩
  · have hupd := hat.update_at hseq (by omega)
    rwa [hindex, max_eq_right (by omega)] at hupd
  · have := le_lastSent h.falling (he ▸ hlast) hr
    omega

theorem Sends.send (h : Sends k s) (ha : Advances s pkt) (hc : Counts s pkt) : Sends k (s.send pkt) := by
  unfold Sender.send protectRTP
  cases hp : headerLen pkt with
  | none => exact h
  | some hl =>
    obtain ⟨hest, hmod, hat, habove⟩ := h.next (by rw [hp]; rfl) ha hc
    refine ⟨h.keys, ?_, List.pairwise_cons.2 ⟨fun r hr he => habove r hr he.symm, h.falling⟩, fun ssrc => ?_⟩
    · intro r hr
      rcases List.mem_cons.1 hr with rfl | hr
      · refine ⟨hc (by rw [hp]; rfl), rfl, hmod.symm, hl, hp, ?_⟩
        simp only [hest, hmod, h.keys]
      · exact h.protects r hr
    simp only [lastSent_cons]
    by_cases he : ssrc = ssrcOf pkt
    · subst he
      refine Or.inr ⟨_, _, update_self _ _ _, if_pos rfl, hat⟩
    · rw [update_of_ne he, if_neg (Ne.symm he)]
      exact h.out ssrc

theorem sends_run {window : ℕ} {pkts : List Bytes}
    (h : (sender k window).Meets (fun s p => Advances s p ∧ Counts s p) pkts) :
    Sends k ((sender k window).run pkts) := by
  refine Machine.invariant ⟨rfl, fun r hr => absurd hr List.not_mem_nil, List.Pairwise.nil, ?_⟩ ?_ h
  · intro ssrc
    exact Or.inl ⟨rfl, rfl⟩
  · intro s p hs hp
    exact hs.send hp.1 hp.2

/-! ### What is accepted -/

theorem unprotectRTP_cases (c : Context) (p : Bytes) : (∃ e, c.unprotectRTP p = (.error e, c)) ∨
    ∃ hl out, headerLen p = some hl ∧ c.replayed p = false ∧
      c.keys.unprotect hl (ssrcOf p) (c.rocIn p) (seqOf p) p = some out ∧
      c.unprotectRTP p = (.ok out, { c with rtpIn := update c.rtpIn (ssrcOf p) (some (c.acceptedIn p)) }) := by
  unfold unprotectRTP
  cases hh : headerLen p with
  | none => exact Or.inl ⟨_, rfl⟩
  | some hl =>
    simp only
    split_ifs with hshort hrep
    · exact Or.inl ⟨_, rfl⟩
    · exact Or.inl ⟨_, rfl⟩
    · cases hu : c.keys.unprotect hl (ssrcOf p) (c.rocIn p) (seqOf p) p with
      | none => exact Or.inl ⟨_, rfl⟩
      | some out => exact Or.inr ⟨hl, out, rfl, by simpa using hrep, hu, rfl⟩

def seen (accepted : List Record) (ssrc : ℕ) : Finset ℕ :=
  ((accepted.filter fun a => a.ssrc = ssrc).map Record.index).toFinset

theorem mem_seen {accepted : List Record} {ssrc i : ℕ} :
    i ∈ seen accepted ssrc ↔ ∃ a ∈ accepted, a.ssrc = ssrc ∧ a.index = i := by
  simp [seen, and_assoc]

theorem seen_cons (a : Record) (accepted : List Record) (ssrc : ℕ) : seen (a :: accepted) ssrc =
    if a.ssrc = ssrc then insert a.index (seen accepted ssrc) else seen accepted ssrc := by
  unfold seen
  split_ifs with h <;> simp [h]

/-- The state kept of a source whose packets of these indices were accepted. -/
structure Tracks (window : ℕ) (t : RtpState) (indices : Finset ℕ) : Prop where
  size : t.replay.size = window
  started : t.replay.started = true
  marks : t.replay.Marks indices
  top : t.At t.replay.top

/-- A source is not known before a packet of it was accepted. -/
def Known (window : ℕ) (t : Option RtpState) (indices : Finset ℕ) : Prop :=
  (t = none ∧ indices = ∅) ∨ ∃ s, t = some s ∧ Tracks window s indices

section Accepting
variable {c : Context} {p : Bytes} {indices : Finset ℕ}

theorem rocIn_lt (h : Known c.replayWindow (c.rtpIn (ssrcOf p)) indices) : c.rocIn p < 2 ^ 32 := by
  unfold rocIn
  rcases h with ⟨hn, -⟩ | ⟨t, ht, htracks⟩
  · rw [hn]
    exact Nat.two_pow_pos 32
  · rw [ht]
    exact htracks.top.estimateROC_lt

theorem Known.acceptedIn (hpos : 0 < c.replayWindow) (hw : c.replayWindow ≤ 2 ^ 15)
    (h : Known c.replayWindow (c.rtpIn (ssrcOf p)) indices) (hr : c.replayed p = false) :
    c.indexIn p ∉ indices ∧ Tracks c.replayWindow (c.acceptedIn p) (insert (c.indexIn p) indices) := by
  have hseq : seqOf p < 2 ^ 16 := uint16_lt p 2
  rcases h with ⟨hn, rfl⟩ | ⟨t, ht, htracks⟩
  · have hroc : c.rocIn p = 0 := by rw [Context.rocIn, hn]
    have hindex : c.indexIn p = seqOf p := by rw [Context.indexIn, hroc, zero_mul, zero_add]
    have hmarks := (marks_init hpos).accept (i := seqOf p) rfl
    have hat := newRTPState_at c hseq
    refine ⟨Finset.notMem_empty _, ?_⟩
    rw [Context.acceptedIn, hn, hroc, hindex]
    refine ⟨accept_size, accept_started, hmarks, hat.started, ?_, hat.roc, hat.seq⟩
    exact hat.index
  · have hroc : c.rocIn p = t.estimateROC (seqOf p) := by rw [Context.rocIn, ht]
    have hcheck : t.replay.check (c.indexIn p) = true := by
      simpa [Context.replayed, ht, htracks.top.started] using hr
    have hin := (htracks.marks.check_iff htracks.started).1 hcheck
    have hpass : t.replay.top < t.estimateROC (seqOf p) * 2 ^ 16 + seqOf p + 2 ^ 15 := by
      have hsize := htracks.size
      rw [Context.indexIn, hroc] at hin
      omega
    have hat := htracks.top.update_at hseq hpass
    have hreplay : (t.update (c.rocIn p) (seqOf p)).replay = t.replay := by
      unfold RtpState.update
      split_ifs <;> rfl
    refine ⟨?_, ?_⟩
    · rcases hin with hlt | ⟨-, hnew⟩
      · intro hmem
        have := (htracks.marks.top htracks.started).2 _ hmem
        omega
      · exact hnew
    rw [Context.acceptedIn, ht, Option.getD_some]
    simp only [hreplay]
    refine ⟨?_, accept_started, htracks.marks.accept hcheck, ?_⟩
    · exact accept_size.trans htracks.size
    · rw [accept_top, if_pos htracks.started, Context.indexIn, hroc]
      exact { hat with }

end Accepting

structure Receives (k : SessionKeys) (sent : List Record) (r : Receiver) : Prop where
  keys : r.ctx.keys = k
  window : 0 < r.ctx.replayWindow ∧ r.ctx.replayWindow ≤ 2 ^ 15
  authentic : ∀ a ∈ r.accepted, a ∈ sent
  once : (r.accepted.map fun a => (a.ssrc, a.index)).Nodup
  known : ∀ ssrc, Known r.ctx.replayWindow (r.ctx.rtpIn ssrc) (seen r.accepted ssrc)

section Receiving
variable {sent : List Record} {r : Receiver}

theorem record_of_verified {c : Context} {p out : Bytes} {hl : ℕ} (hsent : ∀ r ∈ sent, Protects c.keys r)
    (hu : Unforged c.keys sent p) (hroc : c.rocIn p < 2 ^ 32) (hh : headerLen p = some hl)
    (ho : c.keys.unprotect hl (ssrcOf p) (c.rocIn p) (seqOf p) p = some out) :
    (⟨ssrcOf p, c.indexIn p, out, p⟩ : Record) ∈ sent := by
  obtain ⟨s, hs, hwire, hindex⟩ := hu _ hroc ⟨hl, hh, by rw [ho]; rfl⟩
  obtain ⟨hssrc, hseq, hl', hh', -, hopen⟩ := (hsent s hs).unprotect
  rw [hwire] at hssrc hseq hh' hopen
  rw [hh, Option.some.injEq] at hh'
  rw [hssrc, hseq, ← hindex, hh', hopen, Option.some.injEq] at ho
  have hi : c.indexIn p = s.index := by
    rw [indexIn, ← hindex, hseq]
    omega
  have hrec : (⟨ssrcOf p, c.indexIn p, out, p⟩ : Record) = s := by
    rw [hssrc, hi, ← ho, ← hwire]
  rwa [hrec]

theorem Receives.receive (h : Receives k sent r) (hsent : ∀ r ∈ sent, Protects k r) {p : Bytes}
    (hu : Unforged k sent p) : Receives k sent (r.receive p) := by
  unfold Receiver.receive
  obtain ⟨e, he⟩ | ⟨hl, out, hh, hrep, ho, heq⟩ := unprotectRTP_cases r.ctx p
  · rw [he]
    exact h
  have hknown := h.known (ssrcOf p)
  obtain ⟨hnew, htracks⟩ := hknown.acceptedIn h.window.1 h.window.2 hrep
  rw [← h.keys] at hsent hu
  have hrec := record_of_verified hsent hu (rocIn_lt hknown) hh ho
  rw [heq]
  refine ⟨h.keys, h.window, ?_, ?_, fun ssrc => ?_⟩
  · intro a ha
    rcases List.mem_cons.1 ha with rfl | ha
    · exact hrec
    · exact h.authentic a ha
  · refine List.nodup_cons.2 ⟨?_, h.once⟩
    intro hmem
    obtain ⟨a, ha, hpair⟩ := List.mem_map.1 hmem
    rw [Prod.mk.injEq] at hpair
    exact hnew (mem_seen.2 ⟨a, ha, hpair⟩)
  rw [seen_cons]
  by_cases he : ssrc = ssrcOf p
  · subst he
    rw [if_pos rfl]
    exact Or.inr ⟨_, update_self _ _ _, htracks⟩
  · rw [if_neg (Ne.symm he)]
    have hother := h.known ssrc
    rwa [← update_of_ne he (some (r.ctx.acceptedIn p)) r.ctx.rtpIn] at hother

theorem receives_run {window : ℕ} (hw : (newContext k window).replayWindow ≤ 2 ^ 15) (hsent : ∀ r ∈ sent, Protects k r)
    {calls : List Bytes} (hu : ∀ p ∈ calls, Unforged k sent p) : Receives k sent ((receiver k window).run calls) := by
  induction calls using List.reverseRecOn with
  | nil =>
    refine ⟨rfl, ⟨?_, hw⟩, fun a ha => absurd ha List.not_mem_nil, List.nodup_nil, fun ssrc => Or.inl ⟨rfl, rfl⟩⟩
    simp only [receiver, newContext, Machine.run_nil]
    split_ifs <;> omega
  | append_singleton calls p ih =>
    rw [Machine.run_snoc]
    exact (ih fun q hq => hu q (List.mem_append_left _ hq)).receive hsent (hu p (by simp))

theorem eq_of_index_eq {a b : Record} (hfall : sent.Pairwise fun a b => a.ssrc = b.ssrc → b.index < a.index)
    (ha : a ∈ sent) (hb : b ∈ sent) (hs : a.ssrc = b.ssrc) (hi : a.index = b.index) : a = b := by
  by_contra hne
  have hboth : sent.Pairwise fun a b => a.ssrc = b.ssrc → a.index ≠ b.index :=
    hfall.imp fun hlt he => (hlt he).ne'
  have hsymm : Std.Symm fun a b : Record => a.ssrc = b.ssrc → a.index ≠ b.index :=
    ⟨fun a b h he => (h he.symm).symm⟩
  exact hboth.forall ha hb hne hs hi

variable {s : Record} (h : Receives k sent r) (hp : Protects k s) (hnew : s.index ∉ seen r.accepted s.ssrc)
  (hnear : Near r.ctx.replayWindow r.accepted s)
include h hp hnew hnear

theorem Receives.near : r.ctx.rocIn s.wire = s.index / 2 ^ 16 ∧ r.ctx.replayed s.wire = false := by
  obtain ⟨hssrc, hseq, -⟩ := hp.unprotect
  have hsize := h.window.2
  rcases h.known s.ssrc with ⟨hn, hempty⟩ | ⟨t, ht, htracks⟩
  · obtain ⟨-, hfirst⟩ | ⟨top, htop, hs, -⟩ := hnear
    · rw [rocIn, replayed, hssrc, hn]
      exact ⟨(div_eq_of_lt hfirst).symm, rfl⟩
    · have : top.index ∈ seen r.accepted s.ssrc := mem_seen.2 ⟨top, htop, hs, rfl⟩
      rw [hempty] at this
      exact absurd this (Finset.notMem_empty _)
  obtain ⟨hmem, hmax⟩ := htracks.marks.top htracks.started
  obtain ⟨hnone, -⟩ | ⟨top, htop, hs, hhigh, hin, hahead⟩ := hnear
  · obtain ⟨a, ha, hs, -⟩ := mem_seen.1 hmem
    exact absurd hs (hnone a ha)
  have htopeq : t.replay.top = top.index := by
    apply le_antisymm
    · obtain ⟨a, ha, hs', hi⟩ := mem_seen.1 hmem
      rw [← hi]
      exact hhigh a ha hs'
    · exact hmax _ (mem_seen.2 ⟨top, htop, hs, rfl⟩)
  have hroc : r.ctx.rocIn s.wire = s.index / 2 ^ 16 := by
    rw [rocIn, hssrc, ht, hseq]
    exact htracks.top.estimateROC_eq hp.bound (by omega) (by omega)
  have hindex : r.ctx.indexIn s.wire = s.index := by
    rw [indexIn, hroc, hseq]
    omega
  have hcheck : t.replay.check s.index = true := by
    rw [htracks.marks.check_iff htracks.started, htracks.size, htopeq]
    exact Or.inr ⟨hin, hnew⟩
  refine ⟨hroc, ?_⟩
  rw [replayed, hssrc, ht]
  simp only [hindex, hcheck, Bool.not_true, Bool.and_false]

theorem Receives.taken : (r.ctx.unprotectRTP s.wire).1 = .ok s.pkt := by
  obtain ⟨hroc, hrep⟩ := h.near hp hnew hnear
  obtain ⟨hssrc, hseq, hl, hh, hlen, hopen⟩ := hp.unprotect
  rw [← h.keys] at hlen hopen
  unfold unprotectRTP
  simp only [hh, hrep, hroc, hssrc, hseq, hopen]
  rw [if_neg (by omega), if_neg (by simp)]

end Receiving

theorem accepts_once (window : ℕ) (hw : (newContext k window).replayWindow ≤ 2 ^ 15) (w : ℕ) (pkts : List Bytes)
    (hs : (sender k w).Meets (fun s p => Advances s p ∧ Counts s p) pkts) (calls : List Bytes)
    (hu : ∀ p ∈ calls, Unforged k ((sender k w).run pkts).sent p) :
    Once ((sender k w).run pkts).sent ((receiver k window).run calls) := by
  have hsends := sends_run hs
  have hrecv := receives_run hw hsends.protects hu
  refine ⟨hrecv.once, hrecv.authentic, fun p e he => ?_, fun s hmem hnot hnear => ?_⟩
  · obtain ⟨e', heq⟩ | ⟨hl, out, -, -, -, heq⟩ := unprotectRTP_cases ((receiver k window).run calls).ctx p
    · rw [heq]
    · rw [heq] at he
      cases he
  · refine hrecv.taken (hsends.protects s hmem) (fun hseen => hnot ?_) hnear
    obtain ⟨a, ha, hssrc, hi⟩ := mem_seen.1 hseen
    rwa [← eq_of_index_eq hsends.falling (hrecv.authentic a ha) hmem hssrc hi]

/-! ### A session -/

/-- A tag that is the rollover counter and a mark. -/
def plainMac (m : Bytes) : Vector UInt8 20 :=
  Vector.ofFn fun i => (m.drop (m.length - 4) ++ List.replicate 16 0x55).getD i 0

def plainGcm : Aead where
  sealBytes _ _ p := p ++ List.replicate 16 0
  openBytes _ _ s := some (s.take (s.length - 16))
  length_sealBytes _ _ p := by simp
  openBytes_sealBytes _ _ p := by simp

def plainKeys : SessionKeys where
  profile := .aes128CmHmacSha1_80
  salt := Vector.replicate 14 1
  block b := Vector.ofFn fun i => b.getD i 0 + 3
  mac := plainMac
  gcm := plainGcm

theorem hmacTag_plainKeys (a : Bytes) (roc : ℕ) :
    plainKeys.hmacTag a (putUint32 roc) = putUint32 roc ++ List.replicate 6 0x55 := by
  have hdrop : (a ++ putUint32 roc).drop ((a ++ putUint32 roc).length - 4) = putUint32 roc := by
    rw [List.length_append]
    exact List.drop_left' (by simp [putUint32, putUint16])
  have hlist : (plainMac (a ++ putUint32 roc)).toList = putUint32 roc ++ List.replicate 16 0x55 := by
    rw [plainMac, hdrop, Vector.toList_ofFn]
    apply List.ext_getElem
    · simp [putUint32, putUint16]
    · intro i h1 h2
      rw [List.getElem_ofFn, List.getD_eq_getElem?_getD, List.getElem?_eq_getElem h2, Option.getD_some]
  rw [SessionKeys.hmacTag]
  exact congrArg (List.take 10) hlist

theorem putUint32_inj {a b : ℕ} (ha : a < 2 ^ 32) (hb : b < 2 ^ 32) (h : putUint32 a = putUint32 b) : a = b := by
  simp only [putUint32, putUint16, List.cons_append, List.nil_append, List.cons.injEq, and_true,
    ← UInt8.toNat_inj, UInt8.toNat_ofNat'] at h
  omega

/-- A packet whose tag is the one of its rollover counter verifies under that one alone. -/
theorem unforged_plainKeys {p : Bytes} (h : (∃ r ∈ sent, r.wire = p ∧ r.index / 2 ^ 16 < 2 ^ 32 ∧
        p.drop (p.length - 10) = putUint32 (r.index / 2 ^ 16) ++ List.replicate 6 0x55) ∨
      (p.drop (p.length - 10)).drop 4 ≠ List.replicate 6 0x55) : Unforged plainKeys sent p := by
  rintro roc hroc ⟨hl, -, hopen⟩
  have htag : putUint32 roc ++ List.replicate 6 0x55 = p.drop (p.length - 10) := by
    rw [SessionKeys.unprotect, if_neg (by decide)] at hopen
    simp only [hmacTag_plainKeys] at hopen
    split_ifs at hopen with he
    · exact he
    · cases hopen
  rcases h with ⟨r, hr, hwire, hlt, heq⟩ | hne
  · refine ⟨r, hr, hwire, putUint32_inj hlt hroc ?_⟩
    rw [heq] at htag
    exact (List.append_cancel_right htag).symm
  · rw [← htag] at hne
    exact absurd rfl hne

def packet (seq : ℕ) : Bytes := [0x80, 0] ++ putUint16 seq ++ [0, 0, 0, 0, 0, 0, 0, 7, 1, 2, 3]

/-- What the sender sends over the wire for its packets, the newest first. -/
def wires (seqs : List ℕ) : List Bytes := ((sender plainKeys 0).run (seqs.map packet)).sent.map Record.wire

/-- Packets from before the rollover arrive after it, one of them twice, and one with a wrong tag. -/
theorem across_rollover_once :
    let pkts := [65534, 65535, 0, 1].map packet
    let late := wires [65534, 65535, 0, 1]
    let calls := late ++ late.reverse ++ [packet 2 ++ List.replicate 10 0] ++ late
    Once ((sender plainKeys 0).run pkts).sent ((receiver plainKeys 0).run calls) := by
  refine accepts_once 0 (by decide) 0 _ (by decide +kernel) _ fun p hp => unforged_plainKeys ?_
  revert p
  decide +kernel

/-- With a replay window of 40000 a packet 32769 behind the highest one accepted is taken for one after it. -/
theorem wide_window_not_once :
    let pkts := [32767, 40000, 65535, 0].map packet
    let calls := (wires [32767, 40000, 65535, 0]).tail.take 1 ++ (wires [32767, 40000, 65535, 0]).take 1
    (sender plainKeys 0).Meets (fun s p => Advances s p ∧ Counts s p) pkts ∧
      (∀ p ∈ calls, Unforged plainKeys ((sender plainKeys 0).run pkts).sent p) ∧
      ¬ Once ((sender plainKeys 0).run pkts).sent ((receiver plainKeys 40000).run calls) := by
  refine ⟨by decide +kernel, fun p hp => unforged_plainKeys ?_, fun h => ?_⟩
  · revert p
    decide +kernel
  · have htaken := h.taken (((sender plainKeys 0).run ([32767, 40000, 65535, 0].map packet)).sent.getD 3
      ⟨0, 0, [], []⟩) (by decide +kernel) (by decide +kernel) (by decide +kernel)
    revert htaken
    decide +kernel

end Fib.Srtp
