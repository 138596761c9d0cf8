import Fib.Utp.Conn

/-! The packets in flight: what the ring of a sender holds, and that it lets go of a packet only when the receiver
has it. -/

namespace Fib.Utp
open List Function

/-! ### Numbers that wrap -/

theorem sub_true {m n : ℕ} (h : n ≤ m) (h' : m < n + 2 ^ 16) : sub (m % 2 ^ 16) (n % 2 ^ 16) = m - n := by
  unfold sub
  omega

variable {m k : ℕ}

theorem sub_mod (h : k ≤ m) (hk : k ≤ 2 ^ 16) : sub (m % 2 ^ 16) k = (m - k) % 2 ^ 16 := by
  unfold sub
  omega

theorem add_mod : add (m % 2 ^ 16) k = (m + k) % 2 ^ 16 := by
  unfold add
  omega

/-- What of a packet in flight never changes. -/
def OutPacket.key (p : OutPacket) : PacketType × Bytes := (p.typ, p.payload)

namespace Tx

/-- The ring holds the packets `f` says, those from the oldest in flight on, each as it was made. -/
structure Flight (x : Tx) (f : ℕ → Option OutPacket) : Prop where
  seq : x.seqNr = x.next % 2 ^ 16
  base : 2 ^ 16 ≤ x.first
  few : x.inflightPkts ≤ maxInflight
  inTaken : x.inflightPkts ≤ x.taken.length
  ring : x.out.Holds 16 (x.next - x.inflightPkts) f
  mine : ∀ t p, f t = some p → t < x.next ∧ x.taken[t - x.first]? = some p.key

/-- A packet that is not in the ring is one of `got`. -/
def Gone (x : Tx) (f : ℕ → Option OutPacket) (got : ℕ → Prop) : Prop :=
  ∀ t, x.first ≤ t → t < x.next → f t = none → got t

def Sends (x : Tx) (got : ℕ → Prop) : Prop := ∃ f, x.Flight f ∧ x.Gone f got

variable {x : Tx} {f : ℕ → Option OutPacket} {got got' : ℕ → Prop} {t : ℕ} {p : OutPacket}

theorem Sends.mono (h : x.Sends got) (hg : ∀ t, got t → got' t) : x.Sends got' := by
  obtain ⟨f, hf, hgone⟩ := h
  exact ⟨f, hf, fun t h1 h2 h3 => hg t (hgone t h1 h2 h3)⟩

section
variable (h : x.Flight f)
include h

theorem Flight.oldest : x.oldest = (x.next - x.inflightPkts) % 2 ^ 16 := by
  have hfew := h.few
  have hin := h.inTaken
  rw [Tx.oldest, h.seq, sub_mod (by simp only [next]; omega) (by simp only [maxInflight] at hfew; omega)]

theorem Flight.in_window (hp : f t = some p) : x.next - x.inflightPkts ≤ t ∧ t < x.next ∧ x.first ≤ t := by
  have h1 := h.ring.within t (by simp [hp])
  have h2 := h.mine t p hp
  have h3 := h.inTaken
  refine ⟨h1.1, h2.1, ?_⟩
  have := h1.1
  simp only [next] at this
  omega

theorem Flight.get_some {seq : ℕ} (hp : x.out.get seq = some p) : ∃ t, f t = some p ∧ seq = t % 2 ^ 16 := by
  rw [SeqRing.get] at hp
  split at hp
  · next s v hs =>
    split_ifs at hp with he
    rw [Option.some.injEq] at hp
    have hmem : (s, v) ∈ SeqRing.used x.out.slots := by
      simp only [SeqRing.used, mem_filterMap, id, exists_eq_right]
      exact mem_of_getElem? hs
    obtain ⟨t, ht, hts⟩ := h.ring.mem_used.1 hmem
    exact ⟨t, hp ▸ ht, he ▸ hts⟩
  · contradiction

theorem Flight.get (h1 : x.next - x.inflightPkts ≤ t) (h2 : t < x.next) : x.out.get (t % 2 ^ 16) = f t := by
  have hfew := h.few
  have hle := h.ring.le
  simp only [maxInflight] at hfew
  exact h.ring.get (by omega) (by omega)

end

/-! ### Flags -/

section
variable (h : x.Sends got)
include h

theorem Sends.modify (seq : ℕ) {g : OutPacket → OutPacket} (hg : ∀ p, (g p).key = p.key) :
    ({ x with out := x.out.modify seq fun p => some (g p) } : Tx).Sends got := by
  obtain ⟨f, hf, hgone⟩ := h
  cases hp : x.out.get seq with
  | none =>
    have hsame : x.out.modify seq (fun p => some (g p)) = x.out := by rw [SeqRing.modify, hp]
    rw [hsame]
    exact ⟨f, hf, hgone⟩
  | some p =>
    obtain ⟨t, ht, rfl⟩ := hf.get_some hp
    refine ⟨update f t (some (g p)), { hf with ring := ?_, mine := ?_ }, ?_⟩
    · exact hf.ring.modify ht fun p => some (g p)
    · intro u q hq
      by_cases hu : u = t
      · subst hu
        rw [update_self, Option.some.injEq] at hq
        rw [← hq, hg p]
        exact hf.mine u p ht
      · rw [update_of_ne hu] at hq
        exact hf.mine u q hq
    · intro u h1 h2 hu
      by_cases he : u = t
      · rw [he, update_self] at hu
        contradiction
      · rw [update_of_ne he] at hu
        exact hgone u h1 h2 hu

theorem Sends.resendNow (l : List ℕ) : ({ x with resendNow := l } : Tx).Sends got := by
  obtain ⟨f, hf, hgone⟩ := h
  exact ⟨f, { hf with }, hgone⟩

theorem Sends.queueResend (seq : ℕ) : (x.queueResend seq).Sends got := by
  rw [Tx.queueResend]
  split
  · exact h
  · split_ifs
    · exact h
    · exact (h.modify seq (g := fun p => { p with queued := true }) fun _ => rfl).resendNow _

theorem Sends.foldl_queueResend (l : List ℕ) : (l.foldl Tx.queueResend x).Sends got := by
  induction l generalizing x with
  | nil => exact h
  | cons seq l ih => exact ih (h.queueResend seq)

theorem Sends.loseAll (i : ℕ) : (x.loseAll i).Sends got := by
  induction i generalizing x with
  | zero => exact h
  | succ i ih => exact ih (h.modify _ fun _ => rfl)

/-! ### A packet is made -/

theorem Sends.push (hfew : x.inflightPkts < maxInflight) (typ : PacketType) (payload : Bytes) :
    (x.push typ payload).Sends got := by
  obtain ⟨f, hf, hgone⟩ := h
  have hin := hf.inTaken
  have hnext : (x.push typ payload).next = x.next + 1 := by
    simp only [Tx.push, next, length_append, length_singleton]
    omega
  have hbase : (x.push typ payload).next - (x.push typ payload).inflightPkts = x.next - x.inflightPkts := by
    rw [hnext]
    show x.next + 1 - (x.inflightPkts + 1) = _
    omega
  refine ⟨update f x.next (some { typ, payload }), ⟨?_, hf.base, ?_, ?_, ?_, ?_⟩, ?_⟩
  · rw [hnext, ← add_mod, ← hf.seq]
    rfl
  · show x.inflightPkts + 1 ≤ maxInflight
    omega
  · show x.inflightPkts + 1 ≤ (x.taken ++ [(typ, payload)]).length
    rw [length_append, length_singleton]
    omega
  · rw [hbase]
    have hput := hf.ring.put (by norm_num) (t := x.next) (by omega)
      (by simp only [maxInflight] at hfew; simp only [next]; norm_num; omega) ({ typ, payload } : OutPacket)
    rw [← hf.seq, ← hf.oldest] at hput
    exact hput
  · intro t p hp
    rw [hnext]
    by_cases ht : t = x.next
    · subst ht
      rw [update_self, Option.some.injEq] at hp
      refine ⟨by omega, ?_⟩
      show (x.taken ++ [(typ, payload)])[x.next - x.first]? = some p.key
      rw [← hp, show x.next - x.first = x.taken.length by simp [next], List.getElem?_concat_length]
      rfl
    rw [update_of_ne ht] at hp
    obtain ⟨hlt, hget⟩ := hf.mine t p hp
    refine ⟨by omega, ?_⟩
    show (x.taken ++ [(typ, payload)])[t - x.first]? = some p.key
    rw [List.getElem?_append_left, hget]
    exact (List.getElem?_eq_some_iff.1 hget).1
  · intro t h1 h2 ht
    rw [hnext] at h2
    by_cases he : t = x.next
    · rw [he, update_self] at ht
      contradiction
    · rw [update_of_ne he] at ht
      exact hgone t h1 (by omega) ht

end

/-! ### Acknowledgements -/

/-- The fields that acknowledgements leave alone. -/
structure Framed (x x' : Tx) : Prop where
  first : x'.first = x.first
  taken : x'.taken = x.taken
  sbuf : x'.sbuf = x.sbuf
  accepted : x'.accepted = x.accepted
  finQueued : x'.finQueued = x.finQueued
  finSent : x'.finSent = x.finSent
  seqNr : x'.seqNr = x.seqNr

theorem Framed.refl (x : Tx) : Framed x x := ⟨rfl, rfl, rfl, rfl, rfl, rfl, rfl⟩

theorem Framed.trans {x y z : Tx} (h : Framed x y) (h' : Framed y z) : Framed x z :=
  ⟨h'.first.trans h.first, h'.taken.trans h.taken, h'.sbuf.trans h.sbuf, h'.accepted.trans h.accepted,
    h'.finQueued.trans h.finQueued, h'.finSent.trans h.finSent, h'.seqNr.trans h.seqNr⟩

theorem Framed.next {x x' : Tx} (h : Framed x x') : x'.next = x.next := by
  rw [Tx.next, Tx.next, h.first, h.taken]

theorem framed_inflight (x : Tx) (n : ℕ) : Framed x { x with inflightPkts := n } := ⟨rfl, rfl, rfl, rfl, rfl, rfl, rfl⟩

theorem framed_finAcked (x : Tx) (b : Bool) : Framed x { x with finAcked := b } := ⟨rfl, rfl, rfl, rfl, rfl, rfl, rfl⟩

theorem framed_ackPacket (x : Tx) (seq : ℕ) : Framed x (x.ackPacket seq).1 := by
  fun_cases ackPacket x seq <;> exact ⟨rfl, rfl, rfl, rfl, rfl, rfl, rfl⟩

theorem inflight_ackPacket (x : Tx) (seq : ℕ) : (x.ackPacket seq).1.inflightPkts = x.inflightPkts := by
  fun_cases ackPacket x seq <;> rfl

theorem Sends.ackPacket (h : x.Sends got) (ht : got t)
    (hwin : x.next - x.inflightPkts ≤ t ∧ t < x.next) : (x.ackPacket (t % 2 ^ 16)).1.Sends got := by
  obtain ⟨f, hf, hgone⟩ := h
  rw [Tx.ackPacket, hf.get hwin.1 hwin.2]
  cases hp : f t with
  | none => exact ⟨f, hf, hgone⟩
  | some p =>
    simp only
    split_ifs
    · exact ⟨f, hf, hgone⟩
    refine ⟨update f t none, { hf with ring := hf.ring.del hp, mine := ?_ }, ?_⟩
    · intro u q hq
      by_cases hu : u = t
      · rw [hu, update_self] at hq
        contradiction
      · rw [update_of_ne hu] at hq
        exact hf.mine u q hq
    · intro u h1 h2 hu
      by_cases he : u = t
      · exact he ▸ ht
      · rw [update_of_ne he] at hu
        exact hgone u h1 h2 hu

theorem Sends.passOldest (h : x.Sends got) (hn : x.inflightPkts ≠ 0) (hout : x.out.get x.oldest = none) :
    ({ x with inflightPkts := x.inflightPkts - 1 } : Tx).Sends got := by
  obtain ⟨f, hf, hgone⟩ := h
  have hin := hf.inTaken
  have hnext : ({ x with inflightPkts := x.inflightPkts - 1 } : Tx).next = x.next := rfl
  have hle : x.inflightPkts ≤ x.next := by
    simp only [next]
    omega
  rw [hf.oldest, hf.get le_rfl (by omega)] at hout
  refine ⟨f, ⟨hf.seq, hf.base, (Nat.sub_le _ _).trans hf.few, (Nat.sub_le _ _).trans hin, ?_, hf.mine⟩, hgone⟩
  rw [hnext]
  show x.out.Holds 16 (x.next - (x.inflightPkts - 1)) f
  refine hf.ring.shift (by omega) fun t ht => ?_
  have h1 := hf.ring.within t ht
  have hne : t ≠ x.next - x.inflightPkts := by
    rintro rfl
    exact ht hout
  omega

theorem Sends.acked (h : x.Sends got) (hwin : x.next - x.inflightPkts ≤ t ∧ t < x.next)
    (hb : (x.ackPacket (t % 2 ^ 16)).2 = true) : (x.ackPacket (t % 2 ^ 16)).1.out.get (t % 2 ^ 16) = none := by
  obtain ⟨f, hf, hgone⟩ := h
  have hfew := hf.few
  simp only [maxInflight] at hfew
  rw [Tx.ackPacket, hf.get hwin.1 hwin.2] at hb ⊢
  cases hp : f t with
  | none =>
    rw [hf.get hwin.1 hwin.2, hp]
  | some p =>
    simp only [hp] at hb ⊢
    split_ifs at hb ⊢
    have hdel := hf.ring.del hp
    have hle := hdel.le
    rw [hdel.get (by omega) (by omega), update_self]

theorem framed_ackOldest (x : Tx) (acks : ℕ) : Framed x (x.ackOldest acks) := by
  induction acks generalizing x with
  | zero => exact .refl x
  | succ acks ih =>
    have hr := framed_ackPacket x x.oldest
    simp only [ackOldest]
    split_ifs
    · exact (hr.trans (framed_inflight _ _)).trans (ih _)
    · exact hr

theorem Sends.ackOldest (h : x.Sends got) {acks : ℕ} (hle : acks ≤ x.inflightPkts)
    (hgot : ∀ t, x.next - x.inflightPkts ≤ t → t < x.next - x.inflightPkts + acks → got t) :
    (x.ackOldest acks).Sends got := by
  induction acks generalizing x with
  | zero => exact h
  | succ acks ih =>
    obtain ⟨f, hf, -⟩ := id h
    have hin := hf.inTaken
    have hlen : x.inflightPkts ≤ x.next := by
      simp only [next]
      omega
    have hold := hf.oldest
    have hwin : x.next - x.inflightPkts ≤ x.next - x.inflightPkts ∧ x.next - x.inflightPkts < x.next :=
      ⟨le_rfl, by omega⟩
    have hr := h.ackPacket (hgot _ le_rfl (by omega)) hwin
    have hfr := framed_ackPacket x x.oldest
    have hinf := inflight_ackPacket x x.oldest
    rw [← hold] at hr
    simp only [Tx.ackOldest]
    split_ifs with hb
    · have hgone := h.acked hwin (by rw [← hold]; exact hb)
      rw [← hold] at hgone
      have hsame : (x.ackPacket x.oldest).1.oldest = x.oldest := by
        show sub _ _ = sub _ _
        rw [hinf, hfr.seqNr]
      have hpass := hr.passOldest (by omega) (by rw [hsame]; exact hgone)
      refine ih hpass ?_ fun t h1 h2 => ?_
      · show acks ≤ (x.ackPacket x.oldest).1.inflightPkts - 1
        omega
      have hn : (x.ackPacket x.oldest).1.next = x.next := hfr.next
      have h1' : (x.ackPacket x.oldest).1.next - ((x.ackPacket x.oldest).1.inflightPkts - 1) ≤ t := h1
      have h2' : t < (x.ackPacket x.oldest).1.next - ((x.ackPacket x.oldest).1.inflightPkts - 1) + acks := h2
      rw [hn, hinf] at h1' h2'
      exact hgot t (by omega) (by omega)
    · exact hr

theorem framed_skipGone (x : Tx) (n : ℕ) : Framed x (x.skipGone n) := by
  induction n generalizing x with
  | zero => exact .refl x
  | succ n ih =>
    rw [skipGone]
    split_ifs
    · exact .refl x
    · exact .refl x
    · exact (framed_inflight x _).trans (ih _)

theorem Sends.skipGone (h : x.Sends got) (n : ℕ) : (x.skipGone n).Sends got := by
  induction n generalizing x with
  | zero => exact h
  | succ n ih =>
    rw [Tx.skipGone]
    split_ifs with h0 hs
    · exact h
    · exact h
    · exact ih (h.passOldest h0 (by simpa using hs))

theorem framed_ackSelected (x : Tx) (v : ℕ) : Framed x (x.ackSelected v) := by
  rw [ackSelected]
  split_ifs
  · exact .refl x
  · exact framed_ackPacket x v

/-- A set bit names a packet the receiver has; it is not so far from those in flight that it could name another. -/
theorem Sends.ackSelected (h : x.Sends got) (ht : got t) (h1 : t < x.next + 2 ^ 14)
    (h2 : x.next ≤ t + 2 ^ 15) : (x.ackSelected (t % 2 ^ 16)).Sends got := by
  rw [Tx.ackSelected]
  split_ifs with hv
  · exact h
  obtain ⟨f, hf, -⟩ := id h
  have hfew := hf.few
  simp only [maxInflight] at hfew
  refine h.ackPacket ht ?_
  rw [hf.seq] at hv
  simp only [sub] at hv
  omega

theorem framed_foldl_ackSelected (x : Tx) (base : ℕ) (bits : List ℕ) :
    Framed x (bits.foldl (fun x bit => x.ackSelected (add base bit)) x) := by
  induction bits generalizing x with
  | nil => exact .refl x
  | cons bit bits ih => exact (framed_ackSelected x _).trans (ih _)

theorem Sends.foldl_ackSelected (h : x.Sends got) {base : ℕ} {bits : List ℕ}
    (hb : ∀ bit ∈ bits, got (base + bit) ∧ base + bit < x.next + 2 ^ 14) (hbase : x.next ≤ base + 2 ^ 15) :
    (bits.foldl (fun x bit => x.ackSelected (add (base % 2 ^ 16) bit)) x).Sends got := by
  induction bits generalizing x with
  | nil => exact h
  | cons bit bits ih =>
    have hbit := hb bit (mem_cons_self ..)
    have hn := (framed_ackSelected x (add (base % 2 ^ 16) bit)).next
    rw [foldl_cons]
    refine ih ?_ ?_ ?_
    · rw [add_mod]
      exact h.ackSelected hbit.1 hbit.2 (by omega)
    · rw [hn]
      exact fun b hb' => hb b (mem_cons_of_mem _ hb')
    · rw [hn]
      exact hbase

theorem framed_queueResend (x : Tx) (seq : ℕ) : Framed x (x.queueResend seq) := by
  fun_cases queueResend x seq <;> exact ⟨rfl, rfl, rfl, rfl, rfl, rfl, rfl⟩

theorem framed_foldl_queueResend (x : Tx) (l : List ℕ) : Framed x (l.foldl queueResend x) := by
  induction l generalizing x with
  | nil => exact .refl x
  | cons seq l ih => exact (framed_queueResend x seq).trans (ih _)

theorem framed_selectiveAck (x : Tx) (base : ℕ) (mask : List Bool) : Framed x (x.selectiveAck base mask) := by
  rw [selectiveAck]
  split_ifs
  · exact .refl x
  · exact framed_foldl_ackSelected x base _

theorem framed_takeAcks (x : Tx) (h : Packet) (lost : List ℕ) : Framed x (x.takeAcks h lost) := by
  simp only [takeAcks]
  refine Framed.trans ?_ (framed_foldl_queueResend _ lost)
  have hfirst : ∀ b acks, Framed x (({ x with finAcked := b } : Tx).ackOldest acks) := fun b acks =>
    (framed_finAcked x b).trans (framed_ackOldest _ acks)
  split
  · exact ((hfirst _ _).trans (framed_skipGone _ _)).trans (framed_selectiveAck _ _ _)
  · exact (hfirst _ _).trans (framed_skipGone _ _)

/-- What a packet acknowledges, the receiver has: every packet up to the acknowledged number, and those the mask
names. The acknowledgement is not older than half of the circle. -/
structure Acks (x : Tx) (got : ℕ → Prop) (h : Packet) : Prop where
  ack : h.ack = h.ackTrue % 2 ^ 16
  before : h.ackTrue < x.next
  fresh : x.next ≤ h.ackTrue + 2 ^ 15
  has : ∀ t, x.first ≤ t → t ≤ h.ackTrue → got t
  sack : ∀ mask, h.sack = some mask → mask.length ≤ sackBits ∧
    ∀ i, mask[i]? = some true → got (h.ackTrue + 2 + i)

theorem Sends.takeAcks (hs : x.Sends got) {h : Packet} (ha : Acks x got h) (lost : List ℕ) :
    (x.takeAcks h lost).Sends got := by
  obtain ⟨f, hf, -⟩ := id hs
  have hfew := hf.few
  have hin := hf.inTaken
  have hbase := hf.base
  have hbefore := ha.before
  have hfresh := ha.fresh
  simp only [maxInflight] at hfew
  have hx : 2 ^ 16 + x.inflightPkts ≤ x.next := by
    simp only [next]
    omega
  simp only [Tx.takeAcks]
  refine Sends.foldl_queueResend ?_ lost
  have hn : sub h.ack (sub (sub x.seqNr 1) x.inflightPkts) =
      (h.ackTrue + 2 ^ 16 - (x.next - 1 - x.inflightPkts)) % 2 ^ 16 := by
    rw [ha.ack, hf.seq]
    simp only [sub]
    omega
  rw [hn]
  generalize hacks : (if x.inflightPkts < _ then 0 else _) = acks
  have hle : acks ≤ x.inflightPkts := by
    split_ifs at hacks <;> omega
  have hcum : ∀ t, x.next - x.inflightPkts ≤ t → t < x.next - x.inflightPkts + acks → got t := by
    intro t h1 h2
    have hlow : x.first ≤ x.next - x.inflightPkts := by
      simp only [next]
      omega
    refine ha.has t (by omega) ?_
    split_ifs at hacks <;> omega
  have hx : ({ x with finAcked := x.finAcked || decide (x.finSent = true ∧ acks = x.inflightPkts ∧ 0 < acks) } :
      Tx).Sends got := by
    obtain ⟨f, hf, hg⟩ := hs
    exact ⟨f, { hf with }, hg⟩
  have hold := hx.ackOldest hle hcum
  have hfr := framed_ackOldest ({ x with
    finAcked := x.finAcked || decide (x.finSent = true ∧ acks = x.inflightPkts ∧ 0 < acks) } : Tx) acks
  generalize Tx.ackOldest _ acks = y at hold hfr ⊢
  have hskip := hold.skipGone y.inflightPkts
  have hfr' := hfr.trans (framed_skipGone y y.inflightPkts)
  generalize y.skipGone y.inflightPkts = z at hskip hfr' ⊢
  have hnext : z.next = x.next := hfr'.next
  cases hmask : h.sack with
  | none => exact hskip
  | some mask =>
    obtain ⟨hlen, hbits⟩ := ha.sack mask hmask
    simp only [sackBits] at hlen
    simp only [Tx.selectiveAck]
    split_ifs
    · exact hskip
    · rw [ha.ack, add_mod]
      refine hskip.foldl_ackSelected (fun bit hbit => ?_) (by omega)
      simp only [mem_reverse, mem_filter, mem_range, decide_eq_true_eq] at hbit
      exact ⟨hbits bit hbit.2, by omega⟩

theorem Sends.drop (h : x.Sends got) (hg : ∀ t, got' t) : x.drop.Sends got' := by
  obtain ⟨f, hf, -⟩ := h
  refine ⟨fun _ => none, ⟨hf.seq, hf.base, Nat.zero_le _, Nat.zero_le _, hf.ring.reset _, nofun⟩, fun t _ _ _ => hg t⟩

end Tx
end Fib.Utp
