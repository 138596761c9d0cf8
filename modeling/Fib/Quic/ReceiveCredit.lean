import Fib.Quic.RecvStream
import Fib.Lib.Runs

/-! Receive credit: what a connection's streams count as received and as read, over any order
of STREAM frames, RESET_STREAM frames and StopSending calls on any of them. No stream holds its
credit back. -/

namespace Fib.Quic
open RecvStream List Rx Or RecvBuffer

inductive CreditOp where
  /-- The peer opens a stream. -/
  | newStream
  | stream (k off : ℕ) (data : Bytes) (fin : Bool)
  | reset (k code finalSize : ℕ) (allowed : Bool)
  | stopSending (k : ℕ)
deriving DecidableEq

structure CreditRun where
  c : RecvConn
  streams : List RecvStream
deriving DecidableEq

namespace CreditRun
section
variable (cfg : RecvConfig)

/-- The connection after something happened on stream `k`. A frame that is refused closes the
connection, so it is not part of a run. -/
def update (r : CreditRun) (k : ℕ) (f : Rx → Except ConnErr Rx) : CreditRun :=
  match r.streams[k]? with
  | none => r
  | some s =>
    match f { c := r.c, s := s } with
    | .error _ => r
    | .ok x => ⟨x.c, r.streams.set k x.s⟩

def step (r : CreditRun) : CreditOp → CreditRun
  | .newStream => { r with streams := r.streams ++ [{ recvMax := cfg.streamReceiveWindow }] }
  | .stream k off data fin => r.update k fun x => x.onStreamFrame cfg off data fin
  | .reset k code finalSize allowed => r.update k fun x => x.onResetStream cfg code finalSize allowed
  | .stopSending k => r.update k fun x => .ok x.stopSending

def machine : Machine CreditRun CreditOp := ⟨⟨⟨0, cfg.connReceiveWindow, 0, false⟩, []⟩, step cfg⟩

end

/-- The receiving side of each stream that is finished has given back all it was counted for,
and the connection's counts are the sums of its streams'. -/
def Settled (r : CreditRun) : Prop :=
  (∀ s ∈ r.streams, s.recvDone = true ∨ s.peerReset = true → s.recvRead = s.recvHigh) ∧
    r.c.recvData = (r.streams.map recvHigh).sum ∧
    r.c.recvConsumed = (r.streams.map recvRead).sum

instance (r : CreditRun) : Decidable r.Settled := inferInstanceAs (Decidable (_ ∧ _ ∧ _))

/-- After StopSending, on a stream whose final size a FIN has told already, no frame that ends
below that size comes before the stream is finished. -/
def EndsFinal (r : CreditRun) : CreditOp → Prop
  | .stream k off data fin => ∀ s, r.streams[k]? = some s → s.stopSent = true → s.recvDone = false →
      s.peerReset = false → ∀ n, s.recvFin = some n → fin = true ∨ n ≤ off + data.length
  | _ => True

/-- What a stream's counts keep to. -/
structure Accounted (s : RecvStream) : Prop where
  ordered : s.recv.Ordered
  hold : s.holdCredit = false
  has_lt : ∀ x, s.recv.Has x → x < s.recvHigh
  read_le : s.recvRead ≤ s.recvHigh
  fin : ∀ n, s.recvFin = some n → s.recvHigh = n
  known : s.recvDone = true ∨ s.peerReset = true → s.recvFin.isSome
  live : s.recvDone = false → s.peerReset = false → s.stopSent = false → s.recvRead = s.recv.offset
  short : s.recvDone = false → s.peerReset = false → ∀ n, s.recvFin = some n →
    s.recvRead < n ∧ n ≤ s.recvMax ∧ n ≤ maxVarint

/-- A change of one stream that the connection's counts follow. -/
structure Followed (x x' : Rx) : Prop where
  data : x'.c.recvData + x.s.recvHigh = x.c.recvData + x'.s.recvHigh
  consumed : x'.c.recvConsumed + x.s.recvRead = x.c.recvConsumed + x'.s.recvRead

def GivenBack (s : RecvStream) : Prop := s.recvDone = true ∨ s.peerReset = true → s.recvRead = s.recvHigh

variable {cfg : RecvConfig}

theorem offset_le {s : RecvStream} (h : Accounted s) : s.recv.offset ≤ s.recvHigh := by
  rcases Nat.eq_zero_or_pos s.recv.offset with h0 | hpos
  · omega
  · have := h.has_lt (s.recv.offset - 1) (inl (by omega))
    omega

variable {data : Bytes} {x x' : Rx} {off : ℕ} {fin : Bool}

theorem onStreamFrame_ok (h : x.onStreamFrame cfg off data fin = .ok x') : x.Admissible (off + data.length) fin ∧
      (x.counted (off + data.length) fin).accept cfg off data = .ok x' := by
  unfold onStreamFrame at h
  cases hadm : x.allow off data fin with
  | error e => rw [hadm] at h; cases h
  | ok y =>
    obtain ⟨ha, rfl⟩ := admit_ok_iff.1 hadm
    rw [hadm] at h
    exact ⟨ha, h⟩

theorem accept_ok (h : x.accept cfg off data = .ok x') :
    ((x.s.recvDone = true ∨ x.s.peerReset = true ∨ x.s.stopSent = true) ∧
      x' = if (x.consumed cfg (off + data.length)).s.stopSent = true ∧
          (x.consumed cfg (off + data.length)).s.recvFin.isSome = true ∧
          (x.consumed cfg (off + data.length)).s.recvDone = false then
        (x.consumed cfg (off + data.length)).finish else x.consumed cfg (off + data.length)) ∨
    ((x.s.recvDone = false ∧ x.s.peerReset = false ∧ x.s.stopSent = false) ∧
      ∃ last recv, x.s.recv.take off data (recvSegmentLimit cfg.streamReceiveWindow) = (last, true, recv) ∧
        x' = (x.setRecv recv).handOn cfg last) := by
  unfold accept at h
  by_cases hc : x.s.recvDone = true ∨ x.s.peerReset = true ∨ x.s.stopSent = true
  · rw [if_pos hc, Except.ok.injEq] at h
    exact inl ⟨hc, h.symm⟩
  rw [if_neg hc] at h
  right
  refine ⟨by simpa [not_or] using hc, ?_⟩
  split at h
  · cases h
  · rename_i last recv ht
    exact ⟨last, recv, ht, (Except.ok.inj h).symm⟩

section
variable {x x' : Rx} {off : ℕ} {data : Bytes} {fin : Bool}

theorem counted_fin (h : Accounted x.s) {e : ℕ} (ha : x.Admissible e fin) : ∀ n, (x.counted e fin).s.recvFin = some n →
    max x.s.recvHigh e = n ∧ (fin = true → e = n) ∧ (fin = false → x.s.recvFin = some n) := by
  intro n hn
  cases fin with
  | true =>
    have he : e = n := by simpa [counted] using hn
    have := ha.high rfl
    exact ⟨by omega, fun _ => he, by simp⟩
  | false =>
    have hn' : x.s.recvFin = some n := by simpa [counted] using hn
    have h1 := h.fin n hn'
    have h2 := (ha.final n hn').1
    exact ⟨by omega, by simp, fun _ => hn'⟩

theorem counted_isSome {e : ℕ} (h : x.s.recvFin.isSome) : (x.counted e fin).s.recvFin.isSome := by
  cases fin with
  | true => simp [counted]
  | false => simpa [counted] using h

section
variable (h : Accounted x.s) (ha : x.Admissible (off + data.length) fin)
include h ha

theorem discard_spec (hc : x.s.recvDone = true ∨ x.s.peerReset = true ∨ x.s.stopSent = true)
    (hx : (x.counted (off + data.length) fin).accept cfg off data = .ok x') :
    Accounted x'.s ∧ Followed x x' ∧ x'.s.recvRead = max x.s.recvRead (off + data.length) ∧
      x'.s.recvHigh = max x.s.recvHigh (off + data.length) ∧
      (x'.s.recvDone = true ↔ x.s.recvDone = true ∨
        (x.s.stopSent = true ∧ (x.counted (off + data.length) fin).s.recvFin.isSome)) ∧
      x'.s.peerReset = x.s.peerReset := by
  obtain ⟨-, rfl⟩ | ⟨⟨h1, h2, h3⟩, -⟩ := accept_ok hx
  swap
  · rw [show x.s.recvDone = false from h1, show x.s.peerReset = false from h2, show x.s.stopSent = false from h3] at hc
    simp at hc
  obtain ⟨hk, -⟩ := consumed_spec cfg (x.counted (off + data.length) fin) (off + data.length)
  generalize (x.counted (off + data.length) fin).consumed cfg (off + data.length) = y at hk
  have hfin := counted_fin h ha
  have hread : y.s.recvRead = max x.s.recvRead (off + data.length) := hk.read
  have hhigh : y.s.recvHigh = max x.s.recvHigh (off + data.length) := hk.high
  have hdata : y.c.recvData = x.c.recvData + (off + data.length - x.s.recvHigh) := hk.data
  have hbal : y.c.recvConsumed + x.s.recvRead = x.c.recvConsumed + y.s.recvRead := hk.balance
  have hrecv : y.s.recv = x.s.recv := hk.recv
  have hdone : y.s.recvDone = x.s.recvDone := hk.done
  have hreset : y.s.peerReset = x.s.peerReset := hk.reset
  have hstop : y.s.stopSent = x.s.stopSent := hk.stop
  have hfol : Followed x y := ⟨by omega, hbal⟩
  have hrl := h.read_le
  -- whichever of the two states it is, only `recvDone` differs
  have hacc : ∀ d, (y.s.stopSent = true → y.s.recvFin.isSome = true → d = true) →
      (d = true → y.s.recvDone = true ∨ y.s.recvFin.isSome = true) → (y.s.recvDone = true → d = true) →
      Accounted { y.s with recvDone := d } := by
    intro d hd hd' hd''
    have hxd : d = false → x.s.recvDone = false := by
      intro h1
      rw [← Bool.not_eq_true, ← hdone]
      exact fun hb => by rw [hd'' hb] at h1; cases h1
    refine ⟨by rw [hrecv]; exact h.ordered, hk.hold.trans h.hold, fun z hz => ?_, by simp only; omega, fun n hn => ?_,
      fun hdr => ?_, fun h1 h2 h3 => ?_, fun h1 h2 n hn => ?_⟩
    · rw [hrecv] at hz
      have := h.has_lt z hz
      simp only; omega
    · have := hfin n (hk.fin ▸ hn)
      simp only; omega
    · have hold : x.s.recvDone = true ∨ x.s.peerReset = true → y.s.recvFin.isSome = true := fun hb => by
        rw [hk.fin]
        exact counted_isSome (h.known hb)
      rcases hdr with hdr | hdr
      · rcases hd' hdr with hb | hb
        · exact hold (inl (hdone ▸ hb))
        · exact hb
      · exact hold (inr (hreset ▸ hdr))
    · rw [hstop] at h3
      rw [hreset] at h2
      simp [hxd h1, h2, h3] at hc
    · exfalso
      rw [hreset] at h2
      have hs : y.s.stopSent = true := by
        rw [hstop]
        simpa [hxd h1, h2] using hc
      rw [hd hs (by rw [hn]; rfl)] at h1
      cases h1
  have hsome : y.s.recvFin.isSome = (x.counted (off + data.length) fin).s.recvFin.isSome := by rw [hk.fin]
  by_cases hfn : y.s.stopSent = true ∧ y.s.recvFin.isSome = true ∧ y.s.recvDone = false
  · rw [if_pos hfn]
    refine ⟨hacc true (fun _ _ => rfl) (fun _ => inr hfn.2.1) fun _ => rfl, ⟨hfol.data, hfol.consumed⟩, hread, hhigh,
      ?_, hreset⟩
    refine iff_of_true rfl (inr ⟨hstop ▸ hfn.1, hsome ▸ hfn.2.1⟩)
  rw [if_neg hfn]
  refine ⟨hacc y.s.recvDone (fun h1 h2 => ?_) inl id, hfol, hread, hhigh, ?_, hreset⟩
  · by_contra hb
    exact hfn ⟨h1, h2, by simpa using hb⟩
  · rw [hdone, ← hsome, ← hstop]
    refine ⟨inl, fun hb => hb.elim id fun ⟨h1, h2⟩ => ?_⟩
    by_contra hb'
    exact hfn ⟨h1, h2, by simpa [hdone] using hb'⟩

theorem deliver_spec (hd : x.s.recvDone = false) (hr : x.s.peerReset = false) (hs : x.s.stopSent = false)
    (hx : (x.counted (off + data.length) fin).accept cfg off data = .ok x') :
    Accounted x'.s ∧ Followed x x' ∧ GivenBack x'.s := by
  obtain ⟨hc, -⟩ | ⟨-, last, recv, ht, rfl⟩ := accept_ok hx
  · simp [counted, hd, hr, hs] at hc
  have hrecv : (x.counted (off + data.length) fin).s.recv = x.s.recv := rfl
  rw [hrecv] at ht
  obtain ⟨hh, -⟩ := take_spec h.ordered
    (show (x.s.recv.take off data (recvSegmentLimit cfg.streamReceiveWindow)).2.1 = true by rw [ht])
  rw [ht] at hh
  dsimp only at hh
  obtain ⟨d, ho⟩ := handOn_spec cfg (x := (x.counted (off + data.length) fin).setRecv recv) hh.ordered hd last
  have hk := ho.keeps
  generalize ((x.counted (off + data.length) fin).setRecv recv).handOn cfg last = y at ho hk
  have hfin := counted_fin h ha
  have hfy : y.s.recvFin = (x.counted (off + data.length) fin).s.recvFin := hk.fin
  have hhigh : y.s.recvHigh = max x.s.recvHigh (off + data.length) := hk.high
  have hdata : y.c.recvData = x.c.recvData + (off + data.length - x.s.recvHigh) := hk.data
  have hbal : y.c.recvConsumed + x.s.recvRead = x.c.recvConsumed + y.s.recvRead := hk.balance
  have hmax : x.s.recvMax ≤ y.s.recvMax := hk.max_le
  have hoff : y.s.recv.offset = recv.offset + d.length := ho.hands.offset
  have hoff' := hh.offset
  have hlive := h.live hd hr hs
  have hread : y.s.recvRead = y.s.recv.offset := by
    rcases ho.read h.hold with he | ⟨hl, he1, he2⟩
    · have he' : y.s.recvRead = max x.s.recvRead y.s.recv.offset := he
      omega
    have he1' : y.s.recv.offset = recv.offset := he1
    have he2' : y.s.recvRead = x.s.recvRead := he2
    rw [hl] at hoff'
    simp only [Option.getD_none, length_nil, Nat.add_zero] at hoff'
    omega
  have hlt : ∀ z, y.s.recv.Has z → z < y.s.recvHigh := by
    intro z hz
    have hz' : recv.Has z ∨ False := (ho.hands.has z).1 hz
    rw [or_false, hh.has z] at hz'
    rcases hz' with hz' | hz'
    · have := h.has_lt z hz'
      omega
    · omega
  have hole : y.s.recv.offset ≤ y.s.recvHigh := by
    rcases Nat.eq_zero_or_pos y.s.recv.offset with h0 | hpos
    · omega
    · have := hlt (y.s.recv.offset - 1) (inl (by omega))
      omega
  have hyfin : ∀ n, y.s.recvFin = some n → y.s.recvHigh = n := fun n hn => by
    have := (hfin n (hfy ▸ hn)).1
    omega
  have hdone : y.s.recvDone = true ↔ y.s.recvFin = some y.s.recv.offset := by
    rw [hfy]
    exact ho.done
  have hreset : y.s.peerReset = false := hk.reset.trans hr
  refine ⟨⟨ho.hands.ordered, hk.hold.trans h.hold, hlt, by omega, hyfin, fun hb => ?_, fun _ _ _ => hread,
    fun h1 _ n hn => ?_⟩, ⟨by omega, hbal⟩, fun hb => ?_⟩
  · rcases hb with hb | hb
    · rw [hdone.1 hb]; rfl
    · rw [hreset] at hb; cases hb
  · have hne : y.s.recv.offset ≠ n := fun he => by
      rw [hdone.2 (he ▸ hn)] at h1
      cases h1
    have h2 := hyfin n hn
    refine ⟨by omega, ?_⟩
    have hle : n ≤ x.s.recvMax ∧ n ≤ maxVarint := by
      obtain ⟨-, h3, h4⟩ := hfin n (hfy ▸ hn)
      cases fin with
      | true =>
        have he := h3 rfl
        exact ⟨he ▸ ha.stream, he ▸ ha.varint⟩
      | false => exact (h.short hd hr n (h4 rfl)).2
    exact ⟨by omega, hle.2⟩
  · rcases hb with hb | hb
    · rw [hread, hyfin _ (hdone.1 hb)]
    · rw [hreset] at hb; cases hb

end

theorem accounted_stopSending (h : Accounted x.s) (hg : GivenBack x.s) :
    Accounted x.stopSending.s ∧ Followed x x.stopSending ∧ GivenBack x.stopSending.s := by
  unfold stopSending
  split_ifs with hc
  · exact ⟨h, ⟨rfl, rfl⟩, hg⟩
  · refine ⟨⟨⟨Intervals.Ascending.nil 0, by simp, rfl⟩, h.hold, fun z hz => ?_, h.read_le, h.fin, h.known,
      fun _ _ h3 => by simp at h3, h.short⟩, ⟨rfl, rfl⟩, hg⟩
    refine h.has_lt z (inl ?_)
    simpa [Has] using hz

theorem admitReset_ok {n : ℕ} (h : x.admitReset n = .ok x') :
    x.s.recvHigh ≤ n ∧ x' = { x with c := { x.c with recvData := x.c.recvData + (n - x.s.recvHigh) }
                                     s := { x.s with recvHigh := n } } := by
  unfold admitReset at h
  dsimp only at h
  split_ifs at h with h1 h2 h3 h4
  · cases h
    exact ⟨by omega, rfl⟩
  · cases h
    have hle : x.s.recvHigh ≤ n := Nat.le_of_not_lt fun hlt => h1 (inr hlt)
    obtain rfl : x.s.recvHigh = n := by omega
    simp

variable {allowed : Bool}

theorem resetCounted_ok (h : x.resetCounted cfg allowed = .ok x') :
    x'.c = x.c ∧ ∃ b, x'.s = { x.s with floodCounted := b } := by
  unfold resetCounted at h
  split_ifs at h
  · cases h
    exact ⟨rfl, x.s.floodCounted, rfl⟩
  · cases h
    exact ⟨rfl, true, rfl⟩

theorem reset_spec {code n : ℕ} (h : Accounted x.s)
    (hx : x.onResetStream cfg code n allowed = .ok x') : Accounted x'.s ∧ Followed x x' ∧ GivenBack x'.s := by
  unfold onResetStream at hx
  cases hadm : x.admitReset n with
  | error e => rw [hadm] at hx; cases hx
  | ok y =>
    obtain ⟨hle, rfl⟩ := admitReset_ok hadm
    rw [hadm] at hx
    dsimp only [Except.bind] at hx
    obtain ⟨hk, -⟩ := consumed_spec cfg
      { c := { x.c with recvData := x.c.recvData + (n - x.s.recvHigh) }
        s := { x.s with recvHigh := n, recvFin := some n }, events := x.events } n
    generalize consumed cfg _ n = z at hk hx
    have hrl := h.read_le
    have hol := offset_le h
    have hread : z.s.recvRead = max x.s.recvRead n := hk.read
    have hhigh : z.s.recvHigh = n := hk.high
    have hdata : z.c.recvData = x.c.recvData + (n - x.s.recvHigh) := hk.data
    have hbal : z.c.recvConsumed + x.s.recvRead = x.c.recvConsumed + z.s.recvRead := hk.balance
    have hrecv : z.s.recv = x.s.recv := hk.recv
    have hfin : z.s.recvFin = some n := hk.fin
    by_cases hc : z.s.recvDone = true ∨ z.s.peerReset = true
    · rw [if_pos hc] at hx
      cases hx
      refine ⟨⟨by rw [hrecv]; exact h.ordered, hk.hold.trans h.hold, fun q hq => ?_, by omega, fun m hm => ?_,
        fun _ => by rw [hfin]; rfl, fun h1 h2 => ?_, fun h1 h2 => ?_⟩, ⟨by omega, hbal⟩, fun _ => by omega⟩
      · rw [hrecv] at hq
        have := h.has_lt q hq
        omega
      · rw [hfin, Option.some.injEq] at hm
        omega
      · simp [h1, h2] at hc
      · simp [h1, h2] at hc
    · rw [if_neg hc] at hx
      have hw : ∃ w, (if z.s.stopSent then Except.ok z else z.resetCounted cfg allowed) = .ok w ∧ w.c = z.c ∧
          ∃ b, w.s = { z.s with floodCounted := b } := by
        cases hw : (if z.s.stopSent then Except.ok z else z.resetCounted cfg allowed) with
        | error e => rw [hw] at hx; cases hx
        | ok w =>
          refine ⟨w, rfl, ?_⟩
          split_ifs at hw
          · cases hw
            exact ⟨rfl, z.s.floodCounted, rfl⟩
          · exact resetCounted_ok hw
      obtain ⟨w, hw, hwc, b, hws⟩ := hw
      rw [hw] at hx
      cases hx
      refine ⟨⟨⟨Intervals.Ascending.nil 0, by simp, rfl⟩, ?_, fun q hq => ?_, ?_, fun m hm => ?_, fun _ => ?_,
        fun _ h2 => by simp at h2, fun _ h2 => by simp at h2⟩, ⟨?_, ?_⟩, fun _ => ?_⟩
      · simp only [hws]
        exact hk.hold.trans h.hold
      · have hq' : q < x.s.recv.offset := by simpa [Has, hws, hrecv] using hq
        simp only [hws]; omega
      · simp only [hws]; omega
      · simp only [hws, hfin, Option.some.injEq] at hm
        simp only [hws]; omega
      · simp only [hws, hfin]
        rfl
      · simp only [hws, hwc]; omega
      · simp only [hws, hwc]; exact hbal
      · simp only [hws]; omega

end

theorem sum_map_set {α : Type} (f : α → ℕ) {l : List α} {k : ℕ} {a : α} (h : l[k]? = some a) (b : α) :
    ((l.set k b).map f).sum + f a = (l.map f).sum + f b := by
  induction l generalizing k with
  | nil => simp at h
  | cons c l ih =>
    cases k with
    | zero =>
      obtain rfl : c = a := by simpa using h
      simp only [set_cons_zero, map_cons, sum_cons]
      omega
    | succ k =>
      have := ih (by simpa using h)
      simp only [set_cons_succ, map_cons, sum_cons]
      omega

structure Inv (r : CreditRun) : Prop where
  accounted : ∀ s ∈ r.streams, Accounted s
  settled : Settled r

theorem inv_init : Inv (machine cfg).init :=
  ⟨by simp [machine], by simp [machine], by simp [machine], by simp [machine]⟩

theorem inv_update {r : CreditRun} (h : Inv r) {k : ℕ} {f : Rx → Except ConnErr Rx}
    (hf : ∀ s x', r.streams[k]? = some s → Accounted s → GivenBack s → f { c := r.c, s := s } = .ok x' →
      Accounted x'.s ∧ Followed { c := r.c, s := s } x' ∧ GivenBack x'.s) : Inv (r.update k f) := by
  unfold update
  cases hk : r.streams[k]? with
  | none => exact h
  | some s =>
    have hs := mem_of_getElem? hk
    dsimp only
    cases hx : f { c := r.c, s := s } with
    | error e => exact h
    | ok x' =>
      obtain ⟨hacc, hfol, hgb⟩ := hf s x' hk (h.accounted s hs) (h.settled.1 s hs) hx
      obtain ⟨hg, hd, hc⟩ := h.settled
      have hmem : ∀ t ∈ r.streams.set k x'.s, t ∈ r.streams ∨ t = x'.s := fun t ht =>
        mem_or_eq_of_mem_set ht
      refine ⟨fun t ht => ?_, fun t ht => ?_, ?_, ?_⟩
      · rcases hmem t ht with ht | rfl
        · exact h.accounted t ht
        · exact hacc
      · rcases hmem t ht with ht | rfl
        · exact hg t ht
        · exact hgb
      · have h1 := sum_map_set recvHigh hk x'.s
        have h2 := hfol.data
        simp only at h2 ⊢; omega
      · have h1 := sum_map_set recvRead hk x'.s
        have h2 := hfol.consumed
        simp only at h2 ⊢; omega

theorem stream_spec (h : Accounted x.s) (hg : GivenBack x.s) (hx : x.onStreamFrame cfg off data fin = .ok x')
    (he : x.s.stopSent = true → x.s.recvDone = false → x.s.peerReset = false →
      ∀ n, x.s.recvFin = some n → fin = true ∨ n ≤ off + data.length) :
    Accounted x'.s ∧ Followed x x' ∧ GivenBack x'.s := by
  obtain ⟨ha, hacc⟩ := onStreamFrame_ok hx
  by_cases hc : x.s.recvDone = true ∨ x.s.peerReset = true ∨ x.s.stopSent = true
  swap
  · obtain ⟨h1, h2, h3⟩ : x.s.recvDone = false ∧ x.s.peerReset = false ∧ x.s.stopSent = false := by
      simpa [not_or] using hc
    exact deliver_spec h ha h1 h2 h3 hacc
  obtain ⟨hA, hF, hread, hhigh, hdone, hreset⟩ := discard_spec h ha hc hacc
  refine ⟨hA, hF, fun hb => ?_⟩
  rw [hdone, hreset] at hb
  by_cases hb' : x.s.recvDone = true ∨ x.s.peerReset = true
  · rw [hread, hhigh, hg hb']
  -- the frame ends the stream for StopSending, and reaches its final size
  obtain ⟨hd0, hr0⟩ : x.s.recvDone = false ∧ x.s.peerReset = false := by simpa [not_or] using hb'
  simp only [hd0, hr0, Bool.false_eq_true, false_or, or_false] at hb
  obtain ⟨hs, hsome⟩ := hb
  obtain ⟨n, hn⟩ := Option.isSome_iff_exists.1 hsome
  obtain ⟨h1, h2, h3⟩ := counted_fin h ha n hn
  have hrl := h.read_le
  have hend : off + data.length = n := by
    cases fin with
    | true => exact h2 rfl
    | false =>
      have hfin := h3 rfl
      have h4 := (ha.final n hfin).1
      have h5 := (he hs hd0 hr0 n hfin).resolve_left (by simp)
      omega
  omega

theorem inv_step (r : CreditRun) (op : CreditOp) (h : Inv r) (he : EndsFinal r op) : Inv (step cfg r op) := by
  cases op with
  | newStream =>
    obtain ⟨hg, hd, hc⟩ := h.settled
    refine ⟨fun s hs => ?_, fun s hs => ?_, by simp [step, hd], by simp [step, hc]⟩
    · rcases mem_append.1 hs with hs | hs
      · exact h.accounted s hs
      · obtain rfl := mem_singleton.1 hs
        exact ⟨⟨Intervals.Ascending.nil 0, by simp, rfl⟩, rfl, by simp [Has], Nat.le_refl _, by simp, by simp,
          fun _ _ _ => rfl, by simp⟩
    · rcases mem_append.1 hs with hs | hs
      · exact hg s hs
      · obtain rfl := mem_singleton.1 hs
        exact fun _ => rfl
  | stream k off data fin =>
    dsimp only [step]
    exact inv_update h fun s x' hk hA hg hx => stream_spec hA hg hx (he s hk)
  | reset k code finalSize allowed =>
    dsimp only [step]
    exact inv_update h fun s x' _ hA _ hx => reset_spec hA hx
  | stopSending k =>
    dsimp only [step]
    refine inv_update h fun s x' _ hA hg hx => ?_
    cases hx
    exact accounted_stopSending hA hg

/-- A frame that ends below the final size, after StopSending, finishes the stream short. -/
theorem not_settled_of_short (r : CreditRun) (op : CreditOp) (h : Inv r) (he : ¬ EndsFinal r op) :
    ¬ Settled (step cfg r op) := by
  cases op with
  | newStream => exact absurd trivial he
  | reset k code finalSize allowed => exact absurd trivial he
  | stopSending k => exact absurd trivial he
  | stream k off data fin =>
    simp only [EndsFinal, not_forall, not_or, Nat.not_le, Bool.not_eq_true] at he
    obtain ⟨s, hk, hs, hd, hr, n, hn, rfl, hlt⟩ := he
    have hA := h.accounted s (mem_of_getElem? hk)
    obtain ⟨hrn, hmax, hvar⟩ := hA.short hd hr n hn
    have hhn := hA.fin n hn
    have ha : ({ c := r.c, s := s } : Rx).Admissible (off + data.length) false := by
      refine ⟨by omega, fun m hm => ?_, by simp, by simp only; omega, fun hgt => by simp only at hgt; omega⟩
      obtain rfl : n = m := by simpa [hn] using hm
      exact ⟨by omega, by simp⟩
    obtain ⟨x', hx⟩ : ∃ x', (({ c := r.c, s := s } : Rx).counted (off + data.length) false).accept cfg off data =
        .ok x' := ⟨_, if_pos (inr (inr hs))⟩
    obtain ⟨-, -, hread, hhigh, hdone, -⟩ := discard_spec hA ha (inr (inr hs)) hx
    have hon : ({ c := r.c, s := s } : Rx).onStreamFrame cfg off data false = .ok x' := by
      rw [onStreamFrame, admit_of_admissible ha]
      exact hx
    simp only [step, update, hk, hon]
    intro hset
    have hmem : x'.s ∈ r.streams.set k x'.s :=
      mem_set (List.getElem?_eq_some_iff.1 hk).1 _
    have hfin : x'.s.recvDone = true := hdone.2 (inr ⟨hs, counted_isSome (by rw [hn]; rfl)⟩)
    have := hset.1 x'.s hmem (inl hfin)
    simp only at hread hhigh
    omega

/-- The credit of every finished stream is given back in full, all along a run, exactly when no
frame ends below a final size known before StopSending. -/
theorem settled_iff (cfg : RecvConfig) (ops : List CreditOp) :
    (machine cfg).Always Settled ops ↔ (machine cfg).Meets EndsFinal ops :=
  Machine.always_iff_meets inv_init inv_step (fun _ h => h.settled) not_settled_of_short ops

/-- A FIN past a gap, StopSending, and then the bytes of the gap. -/
def stoppedShort : List CreditOp := [.newStream, .stream 0 4 [] true, .stopSending 0, .stream 0 0 [1] false]

theorem stoppedShort_leaks : ¬ (machine ⟨100, 100, 0, false⟩).Always Settled stoppedShort ∧
      ((machine ⟨100, 100, 0, false⟩).run stoppedShort).c.recvData = 4 ∧
      ((machine ⟨100, 100, 0, false⟩).run stoppedShort).c.recvConsumed = 1 := by
  refine ⟨fun h => absurd (h stoppedShort prefix_rfl) ?_, ?_, ?_⟩
  · decide
  · decide
  · decide

end CreditRun
end Fib.Quic
