import Fib.Lib.Ring

/-! `sentQueue` (http3/quic/sent.go): a space's sent packets that are neither acknowledged nor
lost yet, by packet number. -/

namespace Fib.Quic
open List Fib.Ring

/-- What a sent packet carried that loss or acknowledgement matters to. -/
inductive FrameKind where
  | crypto | stream | maxData | maxStreamData | maxStreamsBidi | maxStreamsUni | resetStream | stopSending
  | handshakeDone | retireCID | pathChallenge | newCID | dataBlocked | streamDataBlocked
  | streamsBlockedBidi | streamsBlockedUni | ackFrequency | newToken
deriving DecidableEq

structure SentFrame where
  kind : FrameKind
  fin : Bool
  /-- The stream's number, where the frame is a stream's. -/
  stream : Option ℕ
  off : ℕ
  n : ℕ
deriving DecidableEq

structure SentPacket where
  pn : ℕ
  ackOf : ℕ
  time : ℤ
  size : ℕ
  ackEliciting : Bool
  inFlight : Bool
  early : Bool
  mtuProbe : Bool
  frames : List SentFrame
deriving DecidableEq

/-- The ring's slots are from `base` on; `live` of those in use hold a packet. -/
structure SentQueue where
  ring : Ring (Option SentPacket) := {}
  live : ℕ := 0
  base : ℕ := 0
deriving DecidableEq

namespace SentQueue
section
variable (q : SentQueue)

def maxIdleSlots : ℕ := 1024

def end_ : ℕ := q.base + q.ring.n

def slot (pn : ℕ) : Option SentPacket := q.ring.get (pn - q.base)

/-- The loop of `push`: slots up to the packet's own, all empty. -/
def reserve (r : Ring (Option SentPacket)) : ℕ → Ring (Option SentPacket)
  | 0 => r.append none
  | gap + 1 => reserve (r.append none) gap

/-- `none` where the code panics: the packet is numbered below one already there. -/
def push (p : SentPacket) : Option SentQueue :=
  let q := if q.live = 0 then { q with ring := { q.ring with head := 0, n := 0 }, base := p.pn } else q
  if p.pn < q.end_ then none
  else
    let ring := reserve q.ring (p.pn - q.end_)
    some { q with ring := ring.set (p.pn - q.base) (some p), live := q.live + 1 }

def take (pn : ℕ) : Option SentPacket × SentQueue :=
  if pn < q.base ∨ q.end_ ≤ pn then (none, q)
  else
    match q.slot pn with
    | none => (none, q)
    | some p => (some p, { q with ring := q.ring.set (pn - q.base) none, live := q.live - 1 })

def trimLoop : ℕ → SentQueue → SentQueue
  | 0, q => q
  | n + 1, q =>
    if 0 < q.ring.n ∧ q.ring.get 0 = none then
      trimLoop n { q with ring := q.ring.dropFirst, base := q.base + 1 }
    else q

def trim : SentQueue :=
  let q := trimLoop q.ring.n q
  if q.ring.n = 0 then
    { q with ring := { q.ring with head := 0
                                   slots := if maxIdleSlots < q.ring.slots.length then [] else q.ring.slots } }
  else q

/-- The packets `each` goes through up to `end`, while its function returns true. -/
def upTo (end_ : ℕ) : List SentPacket :=
  (range' q.base (min end_ q.end_ - q.base)).filterMap q.slot

def reset : SentQueue :=
  { q with ring := { slots := q.ring.slots.map fun _ => none, head := 0, n := 0 }, live := 0 }

def packets : List SentPacket := q.ring.view.filterMap id

end

/-- Each packet is in the slot of its number, and `live` counts them. -/
structure Wf (q : SentQueue) : Prop where
  ring : q.ring.Wf
  pn : ∀ i p, q.ring.view[i]? = some (some p) → p.pn = q.base + i
  live : q.live = q.packets.length

theorem wf_empty : Wf {} := ⟨⟨Or.inl rfl, Nat.le_refl _⟩, by simp [view], rfl⟩

variable {q : SentQueue} {p : SentPacket}

theorem mem_packets : p ∈ q.packets ↔ ∃ i : ℕ, q.ring.view[i]? = some (some p) := by
  rw [packets, mem_filterMap]
  simp only [id_eq, exists_eq_right]
  exact mem_iff_getElem?

theorem Wf.pn_lt (h : q.Wf) (hp : p ∈ q.packets) : q.base ≤ p.pn ∧ p.pn < q.end_ := by
  obtain ⟨i, hi⟩ := mem_packets.1 hp
  have h1 := h.pn i p hi
  have h2 : i < q.ring.n := by simpa using (List.getElem?_eq_some_iff.1 hi).1
  simp only [end_]; omega

theorem Wf.sorted (h : q.Wf) : q.packets.Pairwise fun a b => a.pn < b.pn := by
  have hpn := h.pn
  unfold packets
  generalize q.ring.view = l at hpn
  generalize q.base = b at hpn
  induction l generalizing b with
  | nil => simp
  | cons a l ih =>
    have hl := ih (b + 1) fun i p hi => by
      have := hpn (i + 1) p (by simpa using hi)
      omega
    cases a with
    | none => simpa using hl
    | some p =>
      have hp := hpn 0 p (by simp)
      simp only [filterMap_cons, id_eq, pairwise_cons]
      refine ⟨fun c hc => ?_, hl⟩
      obtain ⟨i, hi⟩ := mem_iff_getElem?.1 (by simpa [mem_filterMap] using hc : some c ∈ l)
      have := hpn (i + 1) c (by simpa using hi)
      omega

theorem Wf.slot_eq {pn : ℕ} (hlo : q.base ≤ pn) (hhi : pn < q.end_) : q.ring.view[pn - q.base]? = some (q.slot pn) := by
  simp only [end_] at hhi
  rw [view_getElem?, if_pos (by omega)]
  rfl

theorem reserve_spec {r : Ring (Option SentPacket)} (h : r.Wf) (gap : ℕ) :
    (reserve r gap).Wf ∧ (reserve r gap).view = r.view ++ replicate (gap + 1) none := by
  induction gap generalizing r with
  | zero => exact h.append none
  | succ gap ih =>
    obtain ⟨hw, hv⟩ := h.append none
    obtain ⟨hw', hv'⟩ := ih hw
    refine ⟨hw', ?_⟩
    rw [reserve, hv', hv, append_assoc, replicate_succ]
    rfl

theorem Wf.push (h : q.Wf) (hp : q.end_ ≤ p.pn) :
    ∃ q', q.push p = some q' ∧ q'.Wf ∧ q'.packets = q.packets ++ [p] ∧ q'.end_ = p.pn + 1 := by
  -- an empty queue starts over at the packet
  obtain ⟨q0, hq0, hw, hpk, hle⟩ : ∃ q0, (if q.live = 0 then
      { q with ring := { q.ring with head := 0, n := 0 }, base := p.pn } else q) = q0 ∧ q0.Wf ∧
      q0.packets = q.packets ∧ q0.end_ ≤ p.pn := by
    split_ifs with h0
    · have hnil : q.packets = [] := length_eq_zero_iff.1 (h.live.symm.trans h0)
      exact ⟨_, rfl, ⟨⟨h.ring.size, Nat.zero_le _⟩, by simp [Ring.view], by simp [packets, Ring.view, h0]⟩,
        by simp [packets, Ring.view, ← hnil], by simp [end_]⟩
    · exact ⟨_, rfl, h, rfl, hp⟩
  obtain ⟨hrw, hrv⟩ := reserve_spec hw.ring (p.pn - q0.end_)
  have hn : (reserve q0.ring (p.pn - q0.end_)).n = q0.ring.n + (p.pn - q0.end_ + 1) := by
    have := congrArg length hrv
    simpa using this
  simp only [end_] at hle hn hrv hrw
  have hi : p.pn - q0.base = q0.ring.n + (p.pn - (q0.base + q0.ring.n)) := by omega
  have hv := hrw.view_set (i := p.pn - q0.base) (by omega) (some p)
  have hv' : ((reserve q0.ring (p.pn - (q0.base + q0.ring.n))).set (p.pn - q0.base) (some p)).view =
      q0.ring.view ++ replicate (p.pn - (q0.base + q0.ring.n)) none ++ [some p] := by
    rw [hv, hrv, set_append_right _ _ (by simp; omega), replicate_succ', append_assoc,
      set_append_right _ _ (by simp; omega)]
    simp [hi]
  refine ⟨_, by simp only [SentQueue.push, hq0, end_, if_neg (Nat.not_lt.2 hle)]; rfl, ⟨hrw.set _ _, ?_, ?_⟩, ?_, ?_⟩
  · intro i a ha
    simp only at ha ⊢
    rw [hv'] at ha
    rcases Nat.lt_trichotomy i (q0.ring.n + (p.pn - (q0.base + q0.ring.n))) with hlt | rfl | hgt
    · rw [getElem?_append_left (by simpa using hlt)] at ha
      by_cases hi' : i < q0.ring.n
      · rw [getElem?_append_left (by simpa using hi')] at ha
        exact hw.pn i a ha
      · rw [getElem?_append_right (by simp; omega)] at ha
        simp [getElem?_replicate] at ha
    · rw [getElem?_append_right (by simp)] at ha
      simp only [length_append, Ring.length_view, length_replicate, Nat.sub_self,
        getElem?_cons_zero, Option.some.injEq] at ha
      rw [← ha]
      omega
    · rw [getElem?_eq_none (by simp; omega)] at ha
      cases ha
  · rw [packets, hv', hw.live]
    simp [packets]
  · rw [packets, hv', ← hpk]
    simp [packets]
  · simp only [end_, Ring.set, hn]
    omega

theorem filterMap_set_none {l : List (Option SentPacket)} {i : ℕ} (h : l[i]? = some (some p)) :
    (l.filterMap id).Perm (p :: (l.set i none).filterMap id) := by
  induction l generalizing i with
  | nil => simp at h
  | cons a l ih =>
    cases i with
    | zero =>
      obtain rfl : a = some p := by simpa using h
      simp
    | succ i =>
      have := ih (by simpa using h)
      cases a with
      | none => simpa using this
      | some b =>
        simp only [filterMap_cons, id_eq, set_cons_succ]
        exact (this.cons b).trans (List.Perm.swap p b _)

theorem Wf.take (h : q.Wf) (pn : ℕ) : (q.take pn = (none, q) ∧ ∀ p ∈ q.packets, p.pn ≠ pn) ∨
    ∃ p q', q.take pn = (some p, q') ∧ p.pn = pn ∧ q.packets.Perm (p :: q'.packets) ∧ q'.Wf ∧
      q'.base = q.base ∧ q'.end_ = q.end_ := by
  unfold SentQueue.take
  split_ifs with hout
  · refine Or.inl ⟨rfl, fun p hp => ?_⟩
    have := h.pn_lt hp
    omega
  have hin : q.base ≤ pn ∧ pn < q.end_ := by omega
  have hslot := Wf.slot_eq hin.1 hin.2
  cases hs : q.slot pn with
  | none =>
    refine Or.inl ⟨rfl, fun p hp hpn => ?_⟩
    obtain ⟨i, hi⟩ := mem_packets.1 hp
    have := h.pn i p hi
    rw [show pn - q.base = i by omega, hi, hs] at hslot
    simp at hslot
  | some p =>
    right
    rw [hs] at hslot
    have hlt : pn - q.base < q.ring.n := by simp only [end_] at hin; omega
    have hview := h.ring.view_set hlt none
    have hperm := filterMap_set_none hslot
    rw [← hview] at hperm
    have hlen := hperm.length_eq
    refine ⟨p, _, rfl, ?_, hperm, ⟨h.ring.set _ _, fun i a ha => ?_, ?_⟩, rfl, rfl⟩
    · have := h.pn _ p hslot
      omega
    · rw [hview, getElem?_set] at ha
      split_ifs at ha with h1 h2
      · simp at ha
      · exact h.pn i a ha
    · have hl := h.live
      simp only [packets] at hl ⊢
      simp only [length_cons] at hlen
      omega

theorem trimLoop_spec (h : q.Wf) (n : ℕ) :
    (trimLoop n q).Wf ∧ (trimLoop n q).packets = q.packets ∧ (trimLoop n q).end_ = q.end_ := by
  induction n generalizing q with
  | zero => exact ⟨h, rfl, rfl⟩
  | succ n ih =>
    unfold trimLoop
    split_ifs with hc
    · obtain ⟨hn, h0⟩ := hc
      obtain ⟨hw, hv⟩ := h.ring.dropFirst hn
      have hfirst : q.ring.view[0]? = some none := by
        rw [view_getElem?, if_pos hn, h0]
      obtain ⟨t, ht⟩ : ∃ t, q.ring.view = none :: t := by
        cases hq : q.ring.view with
        | nil => simp [hq] at hfirst
        | cons a t =>
          obtain rfl : a = none := by simpa [hq] using hfirst
          exact ⟨t, rfl⟩
      rw [ht, tail_cons] at hv
      have hpk : ({ q with ring := q.ring.dropFirst, base := q.base + 1 } : SentQueue).packets = q.packets := by
        simp [packets, hv, ht]
      have hq' : Wf { q with ring := q.ring.dropFirst, base := q.base + 1 } := by
        refine ⟨hw, fun i p hi => ?_, by rw [hpk]; exact h.live⟩
        have := h.pn (i + 1) p (by rw [ht]; simpa [hv] using hi)
        simp only; omega
      obtain ⟨h1, h2, h3⟩ := ih hq'
      refine ⟨h1, h2.trans hpk, h3.trans ?_⟩
      simp only [end_, dropFirst]; omega
    · exact ⟨h, rfl, rfl⟩

theorem Wf.trim (h : q.Wf) : q.trim.Wf ∧ q.trim.packets = q.packets ∧ q.trim.end_ = q.end_ := by
  obtain ⟨hw, hp, he⟩ := trimLoop_spec h q.ring.n
  unfold SentQueue.trim
  generalize trimLoop q.ring.n q = t at hw hp he
  dsimp only
  split_ifs with h0 hbig
  · have hv : t.packets = [] := by simp [packets, view, h0]
    refine ⟨⟨⟨Or.inl rfl, by simp [h0]⟩, by simp [view, h0], ?_⟩, ?_, he⟩
    · rw [hw.live, hv]
      simp [packets, view, h0]
    · rw [← hp, hv]
      simp [packets, view, h0]
  · have hv : t.packets = [] := by simp [packets, view, h0]
    refine ⟨⟨⟨hw.ring.size, hw.ring.fits⟩, by simp [view, h0], ?_⟩, ?_, he⟩
    · rw [hw.live, hv]
      simp [packets, view, h0]
    · rw [← hp, hv]
      simp [packets, view, h0]
  · exact ⟨hw, hp, he⟩

theorem Wf.reset (h : q.Wf) : q.reset.Wf ∧ q.reset.packets = [] ∧ q.reset.end_ ≤ q.end_ := by
  refine ⟨⟨⟨?_, Nat.zero_le _⟩, by simp [SentQueue.reset, view], by simp [SentQueue.reset, packets, view]⟩,
    by simp [SentQueue.reset, packets, view], by simp [SentQueue.reset, end_]⟩
  simpa [SentQueue.reset] using h.ring.size

theorem upTo_end (q : SentQueue) : q.upTo q.end_ = q.packets := by
  have hr : q.ring.view = (range' q.base (min q.end_ q.end_ - q.base)).map q.slot := by
    have hn : min q.end_ q.end_ - q.base = q.ring.n := by simp [end_]
    rw [hn, range'_eq_map_range, map_map, view]
    refine map_congr_left fun i _ => ?_
    simp [slot]
  rw [packets, hr, filterMap_map]
  rfl

end SentQueue
end Fib.Quic
