import Fib.Utp.Receiving

/-! What each operation keeps of one side of a connection: `got` is what the other side has of its packets, and
`taken`, from number `first` on, are the packets the other side made. -/

namespace Fib.Utp
open Option Nat List Conn SeqRing

/-- The receiver has the packet: it took it, or kept it ahead. -/
def Got (y : Rx) (t : ℕ) : Prop := t ≤ y.ackTrue ∨ t ∈ y.kept

/-- Nothing was heard of the other side yet. -/
structure Rx.Unsynced (y : Rx) : Prop where
  ack : y.ackTrue = 0
  kept : y.kept = []
  ahead : y.ahead = {}
  count : y.reorderCount = 0
  rbuf : y.rbuf = []
  returned : y.returned = []
  gotFin : y.gotFin = false
  finReached : y.finReached = false
  eof : y.eof = false

/-- The packets made of what was written: its bytes in order, the FIN after all of them. -/
structure Tx.Writes (x : Tx) (state : ConnState) : Prop where
  made : bytesOf x.taken <+: x.accepted
  rest : state ≠ .done → x.accepted = bytesOf x.taken ++ x.sbuf
  last : FinLast x.taken
  fin : ∀ p ∈ x.taken, p.1 = .fin → x.finSent = true
  ended : x.finSent = true → x.finQueued = true ∧ x.sbuf = [] ∧ x.accepted = bytesOf x.taken

open Tx

/-- Every packet in the ring went out at least once. -/
def Tx.Sent (x : Tx) : Prop := ∀ s p, some (s, p) ∈ x.out.slots → 0 < p.transmissions

/-- What a datagram says is so: its packet is one the sender made, and what it acknowledges the sender has. -/
structure Honest (x : Tx) (y : Rx) (h : Packet) : Prop where
  seq : h.seq = h.seqTrue % 2 ^ 16
  low : x.first ≤ h.seqTrue
  high : h.seqTrue ≤ x.next
  made : h.typ ≠ .state → h.typ ≠ .reset → x.taken[h.seqTrue - x.first]? = some (h.typ, h.payload)
  ack : h.typ ≠ .syn → h.typ ≠ .reset → h.ack = h.ackTrue % 2 ^ 16 ∧ h.ackTrue ≤ y.ackTrue
  sack : ∀ mask, h.sack = some mask → mask.length ≤ sackBits ∧ ∀ i, mask[i]? = some true → Got y (h.ackTrue + 2 + i)

namespace Tx
variable {x x' : Tx} {got : ℕ → Prop} {state : ConnState}

theorem Sends.same (h : x.Sends got) (hseq : x'.seqNr = x.seqNr) (hout : x'.out = x.out)
    (hin : x'.inflightPkts = x.inflightPkts) (hfirst : x'.first = x.first) (htaken : x'.taken = x.taken) :
    x'.Sends got := by
  obtain ⟨f, hf, hg⟩ := h
  have hnext : x'.next = x.next := by rw [next, next, hfirst, htaken]
  refine ⟨f, ⟨?_, ?_, ?_, ?_, ?_, ?_⟩, ?_⟩
  · rw [hseq, hnext, hf.seq]
  · rw [hfirst]
    exact hf.base
  · rw [hin]
    exact hf.few
  · rw [hin, htaken]
    exact hf.inTaken
  · rw [hout, hnext, hin]
    exact hf.ring
  · rw [hnext, htaken, hfirst]
    exact hf.mine
  · intro t
    rw [hnext, hfirst]
    exact hg t

theorem Sends.near (h : x.Sends got) {m : ℕ} (hm : ∀ t, got t → t ≤ m) :
    x.next ≤ max x.first (m + 1) + maxInflight := by
  obtain ⟨f, hf, hg⟩ := h
  have hfew := hf.few
  by_cases hle : x.next - x.inflightPkts ≤ x.first
  · omega
  have hnone : f (x.next - x.inflightPkts - 1) = none := by
    by_contra hc
    have := (hf.ring.within _ hc).1
    omega
  have := hm _ (hg (x.next - x.inflightPkts - 1) (by omega) (by omega) hnone)
  omega

/-! ### What is written -/

section
variable (h : x.Writes state)
include h

theorem Writes.framed (hf : Framed x x') : x'.Writes state := by
  refine ⟨?_, ?_, ?_, ?_, ?_⟩
  · rw [hf.taken, hf.accepted]
    exact h.made
  · rw [hf.taken, hf.accepted, hf.sbuf]
    exact h.rest
  · rw [hf.taken]
    exact h.last
  · rw [hf.taken, hf.finSent]
    exact h.fin
  · rw [hf.taken, hf.accepted, hf.sbuf, hf.finSent, hf.finQueued]
    exact h.ended

theorem Writes.drop : x.drop.Writes .done :=
  ⟨h.made, fun hc => absurd rfl hc, h.last, h.fin, fun hf => ⟨(h.ended hf).1, rfl, (h.ended hf).2.2⟩⟩

theorem Writes.moved (hd : state ≠ .done) (state' : ConnState) : x.Writes state' :=
  { h with rest := fun _ => h.rest hd }

theorem Writes.write (hd : state ≠ .done) (hq : x.finQueued = false) (cfg : Config) (b : Bytes) :
    (x.write cfg b).Writes state := by
  have hfs : x.finSent = false := by
    by_contra hc
    have := (h.ended (by simpa using hc)).1
    rw [hq] at this
    contradiction
  refine ⟨h.made.trans (prefix_append _ _), fun _ => ?_, h.last, h.fin, fun hf => ?_⟩
  · simp only [Tx.write]
    rw [h.rest hd, append_assoc]
  · rw [show x.finSent = true from hf] at hfs
    contradiction

end

theorem bytesOf_append (l l' : List (PacketType × Bytes)) : bytesOf (l ++ l') = bytesOf l ++ bytesOf l' :=
  flatMap_append

theorem finLast_concat {l : List (PacketType × Bytes)} (hl : ∀ p ∈ l, p.1 ≠ .fin) (p : PacketType × Bytes) :
    FinLast (l ++ [p]) := by
  intro k hk
  obtain ⟨q, hq, hfin⟩ := map_eq_some_iff.1 hk
  have hlt := (List.getElem?_eq_some_iff.1 hq).1
  rw [length_append, length_singleton] at hlt ⊢
  by_contra hc
  rw [List.getElem?_append_left (by omega)] at hq
  exact hl q (mem_of_getElem? hq) hfin

theorem Writes.no_fin (h : x.Writes state) (hf : x.finSent = false) : ∀ p ∈ x.taken, p.1 ≠ .fin := by
  intro p hp hc
  rw [h.fin p hp hc] at hf
  contradiction

theorem Writes.data (h : x.Writes state) (hd : state ≠ .done) (hs : x.sbuf ≠ []) (n : ℕ) :
    (({ x with sbuf := x.sbuf.drop n } : Tx).push .data (x.sbuf.take n)).Writes state := by
  have hfs : x.finSent = false := by
    by_contra hc
    exact hs (h.ended (by simpa using hc)).2.1
  have hbytes : bytesOf (x.taken ++ [(PacketType.data, x.sbuf.take n)]) = bytesOf x.taken ++ x.sbuf.take n := by
    rw [bytesOf_append]
    simp [bytesOf]
  have hrest : x.accepted = bytesOf (x.taken ++ [(PacketType.data, x.sbuf.take n)]) ++ x.sbuf.drop n := by
    rw [hbytes, append_assoc, take_append_drop, h.rest hd]
  refine ⟨⟨_, hrest.symm⟩, fun _ => hrest, finLast_concat (h.no_fin hfs) _, fun p hp hc => ?_, fun hf => ?_⟩
  · rcases mem_append.1 hp with hp | hp
    · exact h.fin p hp hc
    · rw [mem_singleton.1 hp] at hc
      contradiction
  · rw [show x.finSent = true from hf] at hfs
    contradiction

theorem Writes.finish (h : x.Writes state) (hd : state ≠ .done) (hq : x.finQueued = true) (hf : x.finSent = false)
    (hs : x.sbuf = []) : ({ x.push .fin [] with finSent := true } : Tx).Writes state := by
  have hbytes : bytesOf (x.taken ++ [(PacketType.fin, [])]) = bytesOf x.taken := by
    rw [bytesOf_append]
    simp [bytesOf]
  have hrest : x.accepted = bytesOf (x.taken ++ [(PacketType.fin, [])]) := by
    rw [hbytes, h.rest hd, hs, append_nil]
  refine ⟨⟨[], ?_⟩, fun _ => ?_, finLast_concat (h.no_fin hf) _, fun _ _ _ => rfl, fun _ => ⟨hq, hs, hrest⟩⟩
  · rw [append_nil]
    exact hrest.symm
  · show x.accepted = _ ++ x.sbuf
    rw [hs, append_nil]
    exact hrest

/-! ### Packets that went out -/

theorem sent_of_holds {b : ℕ} {f : ℕ → Option OutPacket} (h : x.out.Holds 16 b f)
    (hf : ∀ t p, f t = some p → 0 < p.transmissions) : x.Sent := by
  intro s p hp
  have hmem : (s, p) ∈ used x.out.slots := by
    simp only [used, mem_filterMap, id, exists_eq_right]
    exact hp
  obtain ⟨t, ht, -⟩ := h.mem_used.1 hmem
  exact hf t p ht

theorem Sent.modify (h : x.Sent) (seq : ℕ) {g : OutPacket → OutPacket}
    (hg : ∀ p, 0 < p.transmissions → 0 < (g p).transmissions) :
    ({ x with out := x.out.modify seq fun p => some (g p) } : Tx).Sent := by
  intro s p hp
  cases hq : x.out.get seq with
  | none =>
    simp only [SeqRing.modify, hq] at hp
    exact h s p hp
  | some q =>
    simp only [SeqRing.modify, hq, map_some] at hp
    rcases mem_or_eq_of_mem_set hp with hp | hp
    · exact h s p hp
    rw [some.injEq, Prod.mk.injEq] at hp
    rw [hp.2]
    refine hg q ?_
    rw [SeqRing.get] at hq
    split at hq
    · next s' v hs =>
      split_ifs at hq
      rw [some.injEq] at hq
      exact hq ▸ h s' v (mem_of_getElem? hs)
    · contradiction

theorem Sent.queueResend (h : x.Sent) (seq : ℕ) : (x.queueResend seq).Sent := by
  rw [Tx.queueResend]
  split
  · exact h
  · split_ifs
    · exact h
    · exact h.modify seq fun _ hp => hp

theorem Sent.loseAll (h : x.Sent) (i : ℕ) : (x.loseAll i).Sent := by
  induction i generalizing x with
  | zero => exact h
  | succ i ih => exact ih (h.modify _ fun _ hp => hp)

theorem framed_out (x : Tx) (r : SeqRing OutPacket) : Framed x { x with out := r } :=
  ⟨rfl, rfl, rfl, rfl, rfl, rfl, rfl⟩

theorem framed_loseAll (x : Tx) (i : ℕ) : Framed x (x.loseAll i) := by
  induction i generalizing x with
  | zero => exact .refl x
  | succ i ih => exact (framed_out x _).trans (ih _)

end Tx

namespace Conn
variable {cfg : Config} {c c' : Conn} {got : ℕ → Prop} {first : ℕ} {taken : List (PacketType × Bytes)}

structure Side (cfg : Config) (c : Conn) (got : ℕ → Prop) (first : ℕ) (taken : List (PacketType × Bytes)) : Prop where
  sends : c.tx.Sends fun t => c.state = .done ∨ got t
  writes : c.tx.Writes c.state
  stored : c.rx.Unsynced ∨ c.rx.Stored first taken
  ahead : c.state ≠ .done → c.rx.Unsynced ∨ c.rx.Ahead cfg first taken
  wire : ∀ h ∈ c.wire, Honest c.tx c.rx h
  opening : c.rx.Unsynced → c.state = .synSent ∨ c.state = .done
  dialed : c.state = .synSent → c.rx.Unsynced ∧ got c.tx.first ∧ c.tx.taken = [(.syn, [])] ∧ c.tx.Sent
  shut : c.rx.readShutdown = c.closed
  lingers : c.lingering = true → c.state = .done ∧ c.rx.finReached = true

/-- A side goes on: it makes more packets, and takes and keeps more. -/
structure Onward (c c' : Conn) : Prop where
  first : c'.tx.first = c.tx.first
  taken : c.tx.taken <+: c'.tx.taken
  ack : c.rx.ackTrue ≤ c'.rx.ackTrue
  kept : c.rx.kept ⊆ c'.rx.kept

theorem Onward.refl (c : Conn) : Onward c c := ⟨rfl, prefix_rfl, le_rfl, List.Subset.refl _⟩

variable {c'' : Conn} {p : Packet} {y : Rx} {x : Tx}

theorem Onward.trans (h : Onward c c') (h' : Onward c' c'') : Onward c c'' :=
  ⟨h'.first.trans h.first, h.taken.trans h'.taken, h.ack.trans h'.ack, List.Subset.trans h.kept h'.kept⟩

theorem Onward.has (h : Onward c c') {t : ℕ} (ht : Got c.rx t) : Got c'.rx t :=
  ht.imp (·.trans h.ack) (h.kept ·)

theorem Onward.honest (h : Onward c c') (hp : Honest c.tx c.rx p) : Honest c'.tx c'.rx p := by
  obtain ⟨l, hl⟩ := h.taken
  have hnext : c.tx.next ≤ c'.tx.next := by
    rw [Tx.next, Tx.next, h.first, ← hl, length_append]
    omega
  refine ⟨hp.seq, h.first ▸ hp.low, hp.high.trans hnext, fun h1 h2 => ?_, fun h1 h2 => ?_, fun mask hm => ?_⟩
  · have hm := hp.made h1 h2
    rw [h.first, ← hl, List.getElem?_append_left (List.getElem?_eq_some_iff.1 hm).1, hm]
  · exact ⟨(hp.ack h1 h2).1, (hp.ack h1 h2).2.trans h.ack⟩
  · exact ⟨(hp.sack mask hm).1, fun i hi => h.has ((hp.sack mask hm).2 i hi)⟩

theorem not_unsynced (h : y.Stored first taken) : ¬ y.Unsynced := by
  intro hu
  have h1 := h.low
  have h2 := h.base
  rw [hu.ack] at h1
  omega

section
variable (h : c.Side cfg got first taken)
include h

theorem Side.synced (hd : c.state ≠ .done) (hs : c.state ≠ .synSent) :
    c.rx.Stored first taken ∧ c.rx.Ahead cfg first taken := by
  have hu : ¬ c.rx.Unsynced := fun hu => (h.opening hu).elim hs hd
  exact ⟨h.stored.resolve_left hu, (h.ahead hd).resolve_left hu⟩

theorem Side.mono {got' : ℕ → Prop} (hg : ∀ t, got t → got' t)
    {taken' : List (PacketType × Bytes)} (ht : taken <+: taken') : c.Side cfg got' first taken' := by
  obtain ⟨l, rfl⟩ := ht
  exact ⟨h.sends.mono fun t => Or.imp_right (hg t), h.writes, h.stored.imp_right (·.more l),
    fun hd => (h.ahead hd).imp_right (·.more l), h.wire, h.opening,
    fun hs => ⟨(h.dialed hs).1, hg _ (h.dialed hs).2.1, (h.dialed hs).2.2⟩, h.shut, h.lingers⟩

/-! ### Changing a part -/

theorem Side.withTx (hs : x.Sends fun t => c.state = .done ∨ got t)
    (hw : x.Writes c.state) (hfirst : x.first = c.tx.first) (htaken : c.tx.taken <+: x.taken)
    (hsyn : c.state = .synSent → x.taken = c.tx.taken ∧ x.Sent) :
    ({ c with tx := x } : Conn).Side cfg got first taken ∧ Onward c { c with tx := x } := by
  have hon : Onward c { c with tx := x } := ⟨hfirst, htaken, le_rfl, List.Subset.refl _⟩
  refine ⟨{ h with sends := hs, writes := hw, wire := fun p hp => hon.honest (h.wire p hp), dialed := fun hst => ?_ },
    hon⟩
  obtain ⟨h1, h2, h3, h4⟩ := h.dialed hst
  refine ⟨h1, ?_, (hsyn hst).1.trans h3, (hsyn hst).2⟩
  show got x.first
  rw [hfirst]
  exact h2

theorem Side.withFlight (hs : x.Sends fun t => c.state = .done ∨ got t)
    (hf : Tx.Framed c.tx x) (hsent : c.state = .synSent → x.Sent) :
    ({ c with tx := x } : Conn).Side cfg got first taken ∧ Onward c { c with tx := x } :=
  h.withTx hs (h.writes.framed hf) hf.first (by rw [hf.taken]) fun hst => ⟨hf.taken, hsent hst⟩

theorem Side.withRx (hst : y.Stored first taken)
    (hah : c.state ≠ .done → y.Ahead cfg first taken) (hl : Rx.Later c.rx y) (hs : c.state ≠ .synSent)
    (hfin : c.rx.finReached = true → c.state = .done → y.finReached = true) :
    ({ c with rx := y } : Conn).Side cfg got first taken ∧ Onward c { c with rx := y } := by
  have hon : Onward c { c with rx := y } := ⟨rfl, prefix_rfl, hl.ack, hl.kept⟩
  exact ⟨⟨h.sends, h.writes, .inr hst, fun hd => .inr (hah hd), fun p hp => hon.honest (h.wire p hp),
    fun hu => absurd hu (not_unsynced hst), fun hc => absurd hc hs, hl.shut.trans h.shut,
    fun hc => ⟨(h.lingers hc).1, hfin (h.lingers hc).2 (h.lingers hc).1⟩⟩, hon⟩

end

theorem onward_ackDue (c : Conn) (b : Bool) : Onward c { c with rx := { c.rx with ackDue := b } } :=
  ⟨rfl, prefix_rfl, le_rfl, List.Subset.refl _⟩

section
variable (h : c.Side cfg got first taken)
include h

theorem Side.ackDue (b : Bool) : ({ c with rx := { c.rx with ackDue := b } } : Conn).Side cfg got first taken := by
  refine ⟨h.sends, h.writes, ?_, fun hd => ?_, fun p hp => ?_, fun hu => ?_, fun hs => ?_, h.shut, h.lingers⟩
  · exact h.stored.imp (fun u => { u with }) fun s => { s with }
  · refine (h.ahead hd).imp (fun u => { u with }) ?_
    rintro ⟨g, w, hf⟩
    exact ⟨g, { w with }, fun d hd => Rx.deliver_none (hf d hd) rfl rfl⟩
  · exact (onward_ackDue c b).honest (h.wire p hp)
  · exact h.opening { hu with }
  · obtain ⟨u, hs⟩ := h.dialed hs
    exact ⟨{ u with }, hs⟩

theorem Side.sentData (b : Bool) : ({ c with sentData := b } : Conn).Side cfg got first taken :=
  { h with }

/-! ### Datagrams go out -/

theorem Side.writePacket {typ : PacketType} {seq seqTrue back : ℕ} {payload : Bytes}
    (hseq : seq = seqTrue % 2 ^ 16) (hlow : c.tx.first ≤ seqTrue) (hhigh : seqTrue ≤ c.tx.next)
    (hmade : typ ≠ .state → typ ≠ .reset → c.tx.taken[seqTrue - c.tx.first]? = some (typ, payload))
    (hsync : typ ≠ .syn → typ ≠ .reset → c.rx.Stored first taken) (hback : back ≤ 1)
    (hmask : typ = .state → 0 < c.rx.reorderCount → c.rx.finReached = false → back = 0 ∧ c.rx.Ahead cfg first taken) :
    (c.writePacket typ seq seqTrue back payload).Side cfg got first taken := by
  refine { h with wire := fun p hp => ?_ }
  rcases mem_append.1 hp with hp | hp
  · exact h.wire p hp
  rw [mem_singleton.1 hp]
  refine ⟨hseq, hlow, hhigh, hmade, fun h1 h2 => ?_, fun mask hm => ?_⟩
  · have hs := hsync h1 h2
    have hb := hs.base
    have hl := hs.low
    refine ⟨?_, sub_le _ _⟩
    show sub c.rx.ackNr back = (c.rx.ackTrue - back) % 2 ^ 16
    rw [hs.ack, sub_mod (by omega) (by omega)]
  split_ifs at hm with hc
  rw [some.injEq] at hm
  obtain ⟨h1, h2, h3⟩ := hc
  obtain ⟨hz, ha⟩ := hmask h1 h2 h3
  subst hm hz
  have hs := hsync (by rw [h1]; decide) (by rw [h1]; decide)
  refine ⟨by simp [Rx.sackMask], fun i hi => .inr ?_⟩
  exact ha.sackMask hs hi

end

theorem onward_writePacket (c : Conn) (typ : PacketType) (seq seqTrue back : ℕ) (payload : Bytes) :
    Onward c (c.writePacket typ seq seqTrue back payload) := ⟨rfl, prefix_rfl, le_rfl, List.Subset.refl _⟩

theorem Side.seqNr (h : c.Side cfg got first taken) : c.tx.seqNr = c.tx.next % 2 ^ 16 := by
  obtain ⟨f, hf, -⟩ := h.sends
  exact hf.seq

theorem Side.writeState (h : c.Side cfg got first taken) (hs : c.rx.Stored first taken)
    (ha : c.rx.finReached = false → c.rx.Ahead cfg first taken) : (c.writeState 0).Side cfg got first taken :=
  h.writePacket h.seqNr (le_add_right _ _) le_rfl (fun hc => absurd rfl hc) (fun _ _ => hs) (zero_le _)
    fun _ _ hf => ⟨rfl, ha hf⟩

/-- What output does: it goes on in the same state. -/
structure Emits (cfg : Config) (got : ℕ → Prop) (first : ℕ) (taken : List (PacketType × Bytes)) (c c' : Conn) :
    Prop where
  side : c'.Side cfg got first taken
  onward : Onward c c'
  state : c'.state = c.state

theorem Emits.trans (h : Emits cfg got first taken c c') (h' : Emits cfg got first taken c' c'') :
    Emits cfg got first taken c c'' :=
  ⟨h'.side, h.onward.trans h'.onward, h'.state.trans h.state⟩

section
variable (h : c.Side cfg got first taken)
include h

theorem Side.emits : Emits cfg got first taken c c := ⟨h, .refl c, rfl⟩

section
variable (hd : c.state ≠ .done)
include hd

theorem Side.transmit (seq : ℕ) : Emits cfg got first taken c (c.transmit seq) := by
  rw [Conn.transmit]
  split
  · exact h.emits
  next p hp =>
  obtain ⟨f, hf, -⟩ := h.sends
  obtain ⟨t, ht, rfl⟩ := hf.get_some hp
  obtain ⟨h1, h2, h3⟩ := hf.in_window ht
  have hfew := hf.few
  simp only [maxInflight] at hfew
  have hsub : c.tx.next - sub c.tx.seqNr (t % 2 ^ 16) = t := by
    rw [hf.seq, sub_true (by omega) (by omega)]
    omega
  have hmine := (hf.mine t p ht).2
  have hwr : (c.writePacket p.typ (t % 2 ^ 16) t (c.ackBack p.typ) p.payload).Side cfg got first taken := by
    refine h.writePacket rfl h3 (by omega) (fun _ _ => hmine) (fun hsyn _ => ?_) ?_ fun hst => ?_
    · by_cases hs : c.state = .synSent
      · -- the only packet before the answer is the SYN
        have htk := (h.dialed hs).2.2.1
        rw [htk] at hmine
        have hz : t - c.tx.first = 0 := by
          have := (List.getElem?_eq_some_iff.1 hmine).1
          simp only [length_singleton] at this
          omega
        rw [hz] at hmine
        have hkey : (PacketType.syn, ([] : Bytes)) = p.key := some.inj hmine
        exact absurd (congrArg Prod.fst hkey).symm hsyn
      · exact (h.synced hd hs).1
    · rw [ackBack]
      split_ifs <;> omega
    · refine fun hpos _ => ⟨by simp [ackBack, hst], ?_⟩
      by_cases hs : c.state = .synSent
      · rw [(h.dialed hs).1.count] at hpos
        contradiction
      · exact (h.synced hd hs).2
  have hmod := hwr.withFlight
    (h.sends.modify (t % 2 ^ 16)
      (g := fun p => { p with needResend := false, transmissions := p.transmissions + 1 }) fun _ => rfl)
    (framed_out _ _)
    fun hs => (h.dialed hs).2.2.2.modify (t % 2 ^ 16)
      (g := fun p => { p with needResend := false, transmissions := p.transmissions + 1 }) fun _ _ => succ_pos _
  rw [hsub]
  exact ⟨hmod.1.sentData _, ⟨rfl, prefix_rfl, le_rfl, List.Subset.refl _⟩, rfl⟩

theorem Side.resendQueued (seq : ℕ) : Emits cfg got first taken c (c.resendQueued seq) := by
  rw [Conn.resendQueued]
  split
  · exact h.emits
  split_ifs
  · have hmod := h.withFlight (h.sends.modify seq (g := fun p => { p with queued := false }) fun _ => rfl)
      (framed_out _ _) fun hs => (h.dialed hs).2.2.2.modify seq (g := fun p => { p with queued := false })
        fun _ hp => hp
    have hmod' : Emits cfg got first taken c _ := ⟨hmod.1, hmod.2, rfl⟩
    exact hmod'.trans (hmod.1.transmit hd seq)
  · exact h.emits

theorem Side.foldl_resendQueued (l : List ℕ) : Emits cfg got first taken c (l.foldl Conn.resendQueued c) := by
  induction l generalizing c with
  | nil => exact h.emits
  | cons seq l ih =>
    have hr := h.resendQueued hd seq
    exact hr.trans (ih hr.side (by rw [hr.state]; exact hd))

theorem Side.resendAll : Emits cfg got first taken c c.resendAll := by
  have hr := h.foldl_resendQueued hd c.tx.resendNow
  simp only [Conn.resendAll]
  generalize c.tx.resendNow.foldl Conn.resendQueued c = d at hr ⊢
  have hn := hr.side.withFlight (hr.side.sends.resendNow []) ⟨rfl, rfl, rfl, rfl, rfl, rfl, rfl⟩
    fun hs => (hr.side.dialed hs).2.2.2
  exact hr.trans ⟨hn.1, hn.2, rfl⟩

theorem Side.resendLost (i : ℕ) (fits : List Bool) : Emits cfg got first taken c (c.resendLost i fits).1 := by
  induction i generalizing c fits with
  | zero => exact h.emits
  | succ i ih =>
    rw [resendLost.eq_def]
    simp only
    split
    · exact ih h hd fits
    split_ifs
    · split
      · next more =>
        have ht := h.transmit hd (sub c.tx.seqNr (i + 1))
        exact ht.trans (ih ht.side (by rw [ht.state]; exact hd) more)
      · exact h.emits
    · exact ih h hd fits

theorem Side.sendData (hs : c.state ≠ .synSent) (hb : c.tx.sbuf ≠ []) (hfew : c.tx.inflightPkts < maxInflight) (n : ℕ) :
    Emits cfg got first taken c (c.sendData n) := by
  have hsends : ({ c.tx with sbuf := c.tx.sbuf.drop n } : Tx).Sends fun t => c.state = .done ∨ got t :=
    h.sends.same rfl rfl rfl rfl rfl
  have hp := h.withTx (hsends.push hfew .data (c.tx.sbuf.take n)) (h.writes.data hd hb n) rfl
    (prefix_append _ _) fun hc => absurd hc hs
  have hp' : Emits cfg got first taken c _ := ⟨hp.1, hp.2, rfl⟩
  exact hp'.trans (hp.1.transmit hd _)

theorem Side.sendNew (hs : c.state ≠ .synSent)
    (fits : List Bool) : Emits cfg got first taken c (c.sendNew cfg fits) := by
  induction fits generalizing c with
  | nil => exact h.emits
  | cons fit more ih =>
    simp only [sendNew]
    split_ifs with h1
    · exact h.emits
    · exact h.emits
    · rw [not_or, not_le] at h1
      have hn := h.sendData hd hs h1.1 (h1.2.trans_le (sub_le _ _)) (min c.tx.sbuf.length cfg.maxPayload)
      exact hn.trans (ih hn.side (by rw [hn.state]; exact hd) (by rw [hn.state]; exact hs))
    · exact h.emits

theorem Side.sendFin (hs : c.state ≠ .synSent) : Emits cfg got first taken c c.sendFin := by
  rw [Conn.sendFin]
  split_ifs with hc
  · obtain ⟨h1, h2, h3, h4⟩ := hc
    have hsends : ({ c.tx.push .fin [] with finSent := true } : Tx).Sends fun t => c.state = .done ∨ got t :=
      (h.sends.push h4 .fin []).same rfl rfl rfl rfl rfl
    have hp := h.withTx hsends (h.writes.finish hd h1 h2 h3) rfl (prefix_append _ _) fun hc => absurd hc hs
    have hp' : Emits cfg got first taken c _ := ⟨hp.1, hp.2, rfl⟩
    exact hp'.trans (hp.1.transmit hd _)
  · exact h.emits

end

theorem Side.ackSent : Emits cfg got first taken c c.ackSent :=
  ⟨h.ackDue false, onward_ackDue c false, rfl⟩

theorem Side.sendAck (hd : c.state ≠ .done) (hs : c.state ≠ .synSent) : Emits cfg got first taken c c.sendAck := by
  rw [Conn.sendAck]
  split_ifs
  · obtain ⟨h1, h2⟩ := h.synced hd hs
    have hw : Emits cfg got first taken c (c.writeState 0) :=
      ⟨h.writeState h1 fun _ => h2, onward_writePacket c _ _ _ _ _, rfl⟩
    exact hw.trans hw.side.ackSent
  · exact h.ackSent

theorem Side.outputOpen (hd : c.state ≠ .done) (hs : c.state ≠ .synSent)
    (fits : List Bool) : Emits cfg got first taken c (c.outputOpen cfg fits) := by
  have hl := h.resendLost hd c.tx.inflightPkts fits
  rw [Conn.outputOpen]
  -- each part leaves the connection open
  have hopen : ∀ {d : Conn}, Emits cfg got first taken c d → d.state ≠ .done ∧ d.state ≠ .synSent := by
    intro d hd'
    rw [hd'.state]
    exact ⟨hd, hs⟩
  have hend : ∀ {d : Conn}, Emits cfg got first taken c d → Emits cfg got first taken c d.sendFin.sendAck := by
    intro d hd'
    have hf := hd'.trans (hd'.side.sendFin (hopen hd').1 (hopen hd').2)
    exact hf.trans (hf.side.sendAck (hopen hf).1 (hopen hf).2)
  split
  · next d fits' he =>
    rw [he] at hl
    exact hend (hl.trans (hl.side.sendNew (hopen hl).1 (hopen hl).2 fits'))
  · next d he =>
    rw [he] at hl
    exact hend hl

theorem Side.output (fits : List Bool) : Emits cfg got first taken c (c.output cfg fits) := by
  rw [Conn.output]
  split_ifs with hd hl
  · obtain ⟨-, hfin⟩ := h.lingers hl.1
    have hst := h.stored.resolve_left fun hu => by rw [hu.finReached] at hfin; contradiction
    have hw : Emits cfg got first taken c (c.writeState 0) :=
      ⟨h.writeState hst fun hf => by rw [hfin] at hf; contradiction, onward_writePacket c _ _ _ _ _, rfl⟩
    exact hw.trans hw.side.ackSent
  · exact h.ackSent
  have hr := (h.sentData false).resendAll hd
  have hz : Emits cfg got first taken c { c with sentData := false } :=
    ⟨h.sentData false, ⟨rfl, prefix_rfl, le_rfl, List.Subset.refl _⟩, rfl⟩
  have hr' := hz.trans hr
  simp only
  split_ifs with hs
  · exact hr'
  · exact hr'.trans (hr'.side.outputOpen (by rw [hr'.state]; exact hd) hs fits)

end

/-! ### The end -/

/-- What any operation but output does: it goes on and makes no packet. -/
structure Hears (cfg : Config) (got : ℕ → Prop) (first : ℕ) (taken : List (PacketType × Bytes)) (c c' : Conn) :
    Prop where
  side : c'.Side cfg got first taken
  onward : Onward c c'
  made : c'.tx.taken = c.tx.taken

theorem Hears.trans (h : Hears cfg got first taken c c') (h' : Hears cfg got first taken c' c'') :
    Hears cfg got first taken c c'' :=
  ⟨h'.side, h.onward.trans h'.onward, h'.made.trans h.made⟩

theorem Side.hears (h : c.Side cfg got first taken) : Hears cfg got first taken c c := ⟨h, .refl c, rfl⟩

theorem Side.marks (h : c.Side cfg got first taken) (b : Bool) :
    Hears cfg got first taken c { c with rx := { c.rx with ackDue := b } } :=
  ⟨h.ackDue b, onward_ackDue c b, rfl⟩

theorem destroy_state (c : Conn) : c.destroy.state = .done := by
  rw [destroy]
  split_ifs with hd
  · exact hd
  · rfl

theorem Side.destroy (h : c.Side cfg got first taken) : Hears cfg got first taken c c.destroy := by
  rw [Conn.destroy]
  split_ifs
  · exact h.hears
  have hon : Onward c { c with
      state := .done
      tx := c.tx.drop
      rx := { c.rx with ahead := c.rx.ahead.reset } } := ⟨rfl, prefix_rfl, le_rfl, List.Subset.refl _⟩
  refine ⟨⟨h.sends.drop fun _ => .inl rfl, h.writes.drop, ?_, fun hc => absurd rfl hc,
    fun p hp => hon.honest (h.wire p hp), fun _ => .inr rfl, nofun, h.shut,
    fun hl => ⟨rfl, (h.lingers hl).2⟩⟩, hon, rfl⟩
  refine h.stored.imp (fun u => ⟨u.1, u.2, ?_, u.4, u.5, u.6, u.7, u.8, u.9⟩) fun s => { s with }
  show c.rx.ahead.reset = {}
  rw [u.ahead]
  rfl

theorem finish_eq (c : Conn) : c.finish = { c.destroy with lingering := c.lingering || c.rx.finReached } := by
  rw [finish, destroy, destroy]
  split_ifs <;> rfl

section
variable (h : c.Side cfg got first taken)
include h

theorem Side.finish : Hears cfg got first taken c c.finish := by
  have hd := h.destroy
  have hfin : c.destroy.rx.finReached = c.rx.finReached := by
    rw [Conn.destroy]
    split_ifs <;> rfl
  rw [finish_eq]
  refine ⟨{ hd.side with lingers := fun hl => ⟨destroy_state c, ?_⟩ }, { hd.onward with }, hd.made⟩
  show c.destroy.rx.finReached = true
  rw [hfin]
  rcases Bool.or_eq_true_iff.1 hl with hl | hl
  · exact (h.lingers hl).2
  · exact hl

theorem Side.abort : Hears cfg got first taken c c.abort := by
  rw [Conn.abort]
  split_ifs
  · exact h.destroy
  · have hw : Hears cfg got first taken c (c.writePacket .reset c.tx.seqNr c.tx.next 0 []) :=
      ⟨h.writePacket h.seqNr (le_add_right _ _) le_rfl (fun _ hc => absurd rfl hc) (fun _ hc => absurd rfl hc)
        (zero_le _) nofun, onward_writePacket c _ _ _ _ _, rfl⟩
    exact hw.trans hw.side.destroy

/-! ### Datagrams come in -/

/-- A datagram of the other side's, neither a SYN nor a RESET: the packet is its own, what it acknowledges it has, it
is not late, and an answer to the SYN is the first of its numbers. -/
structure Comes (c : Conn) (got : ℕ → Prop) (first : ℕ) (taken : List (PacketType × Bytes)) (h : Packet) : Prop where
  base : 2 ^ 16 ≤ first
  last : FinLast taken
  seq : h.seq = h.seqTrue % 2 ^ 16
  high : h.seqTrue ≤ first + taken.length
  made : h.typ ≠ .state → taken[h.seqTrue - first]? = some (h.typ, h.payload)
  acks : c.tx.Acks got h
  late : first + taken.length ≤ h.seqTrue + 2 ^ 15
  near : first + taken.length ≤ max first (c.rx.ackTrue + reorderMax + 1) + maxInflight
  inStep : c.state = .synSent → h.seqTrue = first

theorem Side.synAcked (hs : c.state = .synSent) (h1 : c.tx.inflightPkts = 1) :
    ({ (c.tx.ackPacket (sub c.tx.seqNr 1)).1 with inflightPkts := 0 } : Tx).Sends fun t => c.state = .done ∨ got t := by
  obtain ⟨-, hgot, htk, hsent⟩ := h.dialed hs
  obtain ⟨f, hf, -⟩ := id h.sends
  have hnext : c.tx.next = c.tx.first + 1 := by rw [Tx.next, htk, length_singleton]
  have hold : sub c.tx.seqNr 1 = c.tx.first % 2 ^ 16 := by
    rw [hf.seq, hnext, sub_mod (by omega) (by omega), Nat.add_sub_cancel]
  have hwin : c.tx.next - c.tx.inflightPkts ≤ c.tx.first ∧ c.tx.first < c.tx.next := by omega
  have hb : (c.tx.ackPacket (c.tx.first % 2 ^ 16)).2 = true := by
    rw [Tx.ackPacket]
    split
    · rfl
    next p hp =>
    obtain ⟨t, ht, he⟩ := hf.get_some hp
    have hmem : (t % 2 ^ 16, p) ∈ used c.tx.out.slots := hf.ring.mem_used.2 ⟨t, ht, rfl⟩
    simp only [used, mem_filterMap, id, exists_eq_right] at hmem
    have hpos := hsent _ p hmem
    rw [if_neg (by omega)]
  have hgone := h.sends.acked hwin hb
  have hack := h.sends.ackPacket (.inr hgot) hwin
  have hin := Tx.inflight_ackPacket c.tx (c.tx.first % 2 ^ 16)
  have hfr := Tx.framed_ackPacket c.tx (c.tx.first % 2 ^ 16)
  rw [hold]
  have hpass := hack.passOldest (by omega) (by
    rw [Tx.oldest, hin, hfr.seqNr, h1, hold]
    exact hgone)
  exact hpass.same rfl rfl (by show 0 = _ - 1; omega) rfl rfl

end

theorem framed_answered (c : Conn) (p : Packet) : Tx.Framed c.tx (c.answered p).tx := by
  simp only [answered]
  split_ifs
  · exact (framed_ackPacket c.tx _).trans (framed_inflight _ _)
  · exact .refl _

theorem Side.answered (h : c.Side cfg got first taken) (hs : c.state = .synSent)
    (hp : c.Comes got first taken p) : Hears cfg got first taken c (c.answered p) := by
  obtain ⟨hu, hgot, htk, hsent⟩ := h.dialed hs
  have hfirst := hp.inStep hs
  have hbase := hp.base
  have hd : c.state ≠ .done := by rw [hs]; decide
  have hfr := framed_answered c p
  have hon : Onward c (c.answered p) :=
    ⟨hfr.first, by rw [hfr.taken], by rw [hu.ack]; exact zero_le _, List.Subset.refl _⟩
  have hack : (c.answered p).rx.ackTrue + 1 = first := by
    show p.seqTrue - 1 + 1 = first
    omega
  have hlen : (c.answered p).rx.ackTrue + 1 - first = 0 := by omega
  have hst : (c.answered p).rx.Stored first taken := by
    refine ⟨hbase, ?_, by omega, by omega, fun t ht => ?_, ?_, fun _ => ?_, fun hf => ?_, fun hf => ?_, fun he => ?_⟩
    · show sub p.seq 1 = (p.seqTrue - 1) % 2 ^ 16
      rw [hp.seq, sub_mod (by omega) (by omega)]
    · rw [show (c.answered p).rx.kept = c.rx.kept from rfl, hu.kept] at ht
      contradiction
    · rw [show (c.answered p).rx.returned = c.rx.returned from rfl, hu.returned]
      exact nil_prefix
    · rw [hlen, show (c.answered p).rx.returned = c.rx.returned from rfl,
        show (c.answered p).rx.rbuf = c.rx.rbuf from rfl, hu.returned, hu.rbuf]
      rfl
    · rw [show (c.answered p).rx.gotFin = c.rx.gotFin from rfl, hu.gotFin] at hf
      contradiction
    · rw [show (c.answered p).rx.finReached = c.rx.finReached from rfl, hu.finReached] at hf
      contradiction
    · rw [show (c.answered p).rx.eof = c.rx.eof from rfl, hu.eof] at he
      contradiction
  have hah : (c.answered p).rx.Ahead cfg first taken := by
    refine ⟨fun _ => none, ⟨?_, nofun, fun _ h => absurd rfl h, fun _ t ht => ?_, ∅, by simp, ?_⟩, nofun⟩
    · rw [show (c.answered p).rx.ahead = c.rx.ahead from rfl, hu.ahead]
      exact holds_empty _ _
    · rw [show (c.answered p).rx.kept = c.rx.kept from rfl, hu.kept] at ht
      contradiction
    · rw [show (c.answered p).rx.reorderCount = c.rx.reorderCount from rfl, hu.count]
      rfl
  refine ⟨⟨?_, (h.writes.moved hd _).framed hfr, .inr hst, fun _ => .inr hah, fun q hq => hon.honest (h.wire q hq),
    fun hc => absurd hc (not_unsynced hst), nofun, h.shut, fun hl => ?_⟩, hon, hfr.taken⟩
  · have hsends : (c.answered p).tx.Sends fun t => c.state = .done ∨ got t := by
      show (ite _ _ _ : Tx).Sends _
      split_ifs with hc
      · exact h.synAcked hs hc.2
      · exact h.sends
    exact hsends.mono fun t => Or.imp_left fun hc => absurd hc hd
  · exact absurd (h.lingers hl).1 hd

theorem acks_framed {x' : Tx} (h : x.Acks got p) (hf : Tx.Framed x x') : x'.Acks got p :=
  ⟨h.ack, by rw [hf.next]; exact h.before, by rw [hf.next]; exact h.fresh, by rw [hf.first]; exact h.has, h.sack⟩

/-- The next number expected is found from the packet's own, half of the circle being enough. -/
theorem dist_true (hst : y.Stored first taken) (hseq : p.seq = p.seqTrue % 2 ^ 16)
    (hhigh : p.seqTrue ≤ first + taken.length) (hlate : first + taken.length ≤ p.seqTrue + 2 ^ 15)
    (hnear : first + taken.length ≤ max first (y.ackTrue + reorderMax + 1) + maxInflight)
    (hlt : sub (sub p.seq y.ackNr) 1 < reorderMax) : p.seqTrue = y.ackTrue + 1 + sub (sub p.seq y.ackNr) 1 := by
  have h1 := hst.low
  have h2 := hst.high
  rw [hseq, hst.ack] at hlt ⊢
  simp only [sub, reorderMax, maxInflight] at *
  omega

section
variable (h : c.Side cfg got first taken)
include h

theorem Side.processOpen (hd : c.state ≠ .done) (hs : c.state ≠ .synSent) (hp : c.Comes got first taken p)
    (stale : Bool) (lost : List ℕ) : Hears cfg got first taken c (c.processOpen cfg p stale lost) := by
  rw [Conn.processOpen]
  simp only
  by_cases hlt : reorderMax ≤ sub (sub p.seq c.rx.ackNr) 1
  · rw [if_pos hlt]
    split_ifs
    · exact h.marks true
    · exact h.hears
  rw [if_neg hlt]
  have hacked : Hears cfg got first taken c (if stale then c else { c with tx := c.tx.takeAcks p lost }) ∧
      (if stale then c else { c with tx := c.tx.takeAcks p lost }).state = c.state ∧
      (if stale then c else { c with tx := c.tx.takeAcks p lost }).rx = c.rx := by
    split_ifs
    · exact ⟨h.hears, rfl, rfl⟩
    have ha : c.tx.Acks (fun t => c.state = .done ∨ got t) p :=
      { hp.acks with has := fun t h1 h2 => .inr (hp.acks.has t h1 h2), sack := fun m hm => ⟨(hp.acks.sack m hm).1,
        fun i hi => .inr ((hp.acks.sack m hm).2 i hi)⟩ }
    have hf := framed_takeAcks c.tx p lost
    have hw := h.withFlight (h.sends.takeAcks ha lost) hf fun hc => absurd hc hs
    exact ⟨⟨hw.1, hw.2, hf.taken⟩, rfl, rfl⟩
  generalize (if stale then c else { c with tx := c.tx.takeAcks p lost }) = d at hacked ⊢
  obtain ⟨hh, hstate, hrx⟩ := hacked
  split_ifs with hfin hst
  · exact hh.trans hh.side.finish
  · exact hh
  obtain ⟨hsto, hah⟩ := hh.side.synced (by rw [hstate]; exact hd) (by rw [hstate]; exact hs)
  have hcomes : d.rx.Comes first taken p (sub (sub p.seq c.rx.ackNr) 1) := by
    refine ⟨hp.seq, ?_, by omega, hp.made hst⟩
    rw [hrx] at hsto ⊢
    exact dist_true hsto hp.seq hp.high hp.late hp.near (by omega)
  obtain ⟨h1, h2, h3⟩ := Rx.takeData_spec hp.last hsto hah hcomes
  have hw := hh.side.withRx h1 (fun _ => h2) h3 (by rw [hstate]; exact hs)
    fun _ hc => absurd (hstate.symm.trans hc) hd
  exact hh.trans ⟨hw.1, hw.2, rfl⟩

theorem Side.establish (hd : c.state ≠ .done) (hp : c.Comes got first taken p) :
    Hears cfg got first taken c (c.establish p) ∧ (c.establish p).state = .connected ∧
      Tx.Framed c.tx (c.establish p).tx := by
  rw [Conn.establish]
  cases hs : c.state with
  | synSent => exact ⟨h.answered hs hp, rfl, framed_answered c p⟩
  | synRecv =>
    have hsync := h.synced hd (by rw [hs]; decide)
    exact ⟨⟨⟨h.sends.mono fun t => Or.imp_left fun hc => absurd hc hd, h.writes.moved hd _, h.stored,
      fun _ => h.ahead hd, h.wire, fun hu => absurd hu (not_unsynced hsync.1), nofun, h.shut,
      fun hl => absurd (h.lingers hl).1 hd⟩, ⟨rfl, prefix_rfl, le_rfl, List.Subset.refl _⟩, rfl⟩, rfl, .refl _⟩
  | connected => exact ⟨h.hears, hs, .refl _⟩
  | done => exact absurd hs hd

theorem Side.process (hp : c.Comes got first taken p) (lost : List ℕ) :
    Hears cfg got first taken c (c.process cfg p lost) := by
  rw [Conn.process]
  split_ifs with hd
  · exact h.marks true
  · exact h.hears
  · exact h.hears
  obtain ⟨hh, hst, hf⟩ := h.establish hd hp
  have hack := hh.onward.ack
  have hnear := hp.near
  have hcomes : (c.establish p).Comes got first taken p :=
    { hp with acks := acks_framed hp.acks hf, near := by omega, inStep := fun hc => by rw [hst] at hc; contradiction }
  exact hh.trans (hh.side.processOpen (by rw [hst]; decide) (by rw [hst]; decide) hcomes _ lost)

theorem Side.handle (hp : p.typ ≠ .syn → p.typ ≠ .reset → c.Comes got first taken p) (lost : List ℕ) :
    Hears cfg got first taken c (c.handle cfg p lost) := by
  rw [Conn.handle]
  split
  · exact h.destroy
  · split_ifs
    · exact h.marks true
    · exact h.hears
  · next h1 h2 => exact h.process (hp h2 h1) lost

end

/-! ### Timeouts -/

theorem Side.timeoutTx (h : c.Side cfg got first taken) (due : Due) :
    Hears cfg got first taken c { c with tx := Conn.timeoutTx due c.tx } := by
  have hprobe : ∀ {x : Tx}, x.Sends (fun t => c.state = .done ∨ got t) → Tx.Framed c.tx x →
      (c.state = .synSent → x.Sent) → ∀ seq, (x.queueResend seq).Sends (fun t => c.state = .done ∨ got t) ∧
        Tx.Framed c.tx (x.queueResend seq) ∧ (c.state = .synSent → (x.queueResend seq).Sent) :=
    fun h1 h2 h3 seq => ⟨h1.queueResend seq, h2.trans (framed_queueResend _ seq), fun hc => (h3 hc).queueResend seq⟩
  have hsent : c.state = .synSent → c.tx.Sent := fun hc => (h.dialed hc).2.2.2
  have hall : (Conn.timeoutTx due c.tx).Sends (fun t => c.state = .done ∨ got t) ∧
      Tx.Framed c.tx (Conn.timeoutTx due c.tx) ∧ (c.state = .synSent → (Conn.timeoutTx due c.tx).Sent) := by
    have h1 : (if due.probe then c.tx.queueResend c.tx.oldest else c.tx).Sends (fun t => c.state = .done ∨ got t) ∧
        Tx.Framed c.tx (if due.probe then c.tx.queueResend c.tx.oldest else c.tx) ∧
        (c.state = .synSent → (if due.probe then c.tx.queueResend c.tx.oldest else c.tx).Sent) := by
      split_ifs
      · exact hprobe h.sends (.refl _) hsent _
      · exact ⟨h.sends, .refl _, hsent⟩
    simp only [Conn.timeoutTx]
    generalize (if due.probe then c.tx.queueResend c.tx.oldest else c.tx) = x at h1 ⊢
    split_ifs
    · exact hprobe (h1.1.loseAll _) (h1.2.1.trans (framed_loseAll _ _)) (fun hc => (h1.2.2 hc).loseAll _) _
    · exact h1
  have hw := h.withFlight hall.1 hall.2.1 hall.2.2
  exact ⟨hw.1, hw.2, hall.2.1.taken⟩

theorem Side.checkTimeouts (h : c.Side cfg got first taken) {due : Due}
    (hk : due.keepAlive = true → c.rx.reorderCount = 0 ∨ c.rx.finReached = true) :
    Hears cfg got first taken c (c.checkTimeouts due) := by
  rw [Conn.checkTimeouts]
  split_ifs with hd ha he
  · refine ⟨{ h with lingers := fun hl => ?_ }, ⟨rfl, prefix_rfl, le_rfl, List.Subset.refl _⟩, rfl⟩
    exact h.lingers (Bool.and_eq_true_iff.1 hl).1
  · exact h.abort
  · exact h.destroy
  have ht := h.timeoutTx due
  simp only
  split_ifs with hc
  · have hst := (ht.side.synced hd (by rw [hc.2.1]; decide)).1
    refine ht.trans ⟨ht.side.writePacket ht.side.seqNr (le_add_right _ _) le_rfl (fun hc => absurd rfl hc)
      (fun _ _ => hst) le_rfl fun _ h1 h2 => ?_, onward_writePacket _ _ _ _ _ _, rfl⟩
    rcases hk hc.1 with hz | hf
    · exact absurd hz (by have : 0 < c.rx.reorderCount := h1; omega)
    · rw [show c.rx.finReached = false from h2] at hf
      contradiction
  · exact ht

/-! ### The application -/

variable (h : c.Side cfg got first taken)
include h

theorem Side.write (b : Bytes) : Hears cfg got first taken c (c.write cfg b) := by
  rw [Conn.write]
  split_ifs with hc
  · exact h.hears
  rw [not_or, not_or] at hc
  obtain ⟨-, hq, hd⟩ := hc
  have hsends : (c.tx.write cfg b).Sends fun t => c.state = .done ∨ got t := h.sends.same rfl rfl rfl rfl rfl
  have hw := h.withTx hsends
    (h.writes.write hd (by simpa using hq) cfg b) rfl prefix_rfl fun hs => ⟨rfl, (h.dialed hs).2.2.2⟩
  exact ⟨hw.1, hw.2, rfl⟩

theorem Side.queueFin : Hears cfg got first taken c { c with tx := { c.tx with finQueued := true } } := by
  have hw := h.withTx (x := { c.tx with finQueued := true }) (h.sends.same rfl rfl rfl rfl rfl)
    { h.writes with ended := fun hf => ⟨rfl, (h.writes.ended hf).2⟩ } rfl prefix_rfl
    fun hs => ⟨rfl, (h.dialed hs).2.2.2⟩
  exact ⟨hw.1, hw.2, rfl⟩

theorem Side.closeWrite : Hears cfg got first taken c c.closeWrite := by
  rw [Conn.closeWrite]
  split_ifs
  · exact h.hears
  · exact h.queueFin

theorem Side.read (hlast : FinLast taken) (n : ℕ) : Hears cfg got first taken c (c.read cfg n) := by
  have hsyn : c.rx.Stored first taken → c.state ≠ .synSent := fun hst hs => not_unsynced hst (h.dialed hs).1
  rw [Conn.read]
  by_cases hc : c.closed = true
  · rw [if_pos hc]
    exact h.hears
  have hr : c.rx.readShutdown = false := by rw [h.shut]; simpa using hc
  rw [if_neg hc]
  split_ifs with hb hd hf
  · have hst := h.stored.resolve_left fun hu => hb hu.rbuf
    have hw := h.withRx (hst.take n hr) (fun hc => absurd hd hc) ⟨le_rfl, List.Subset.refl _, rfl⟩ (hsyn hst)
        fun hf _ => hf
    exact ⟨hw.1, hw.2, rfl⟩
  · have hst := h.stored.resolve_left fun hu => hb hu.rbuf
    obtain ⟨g, hwait, -⟩ := (h.synced hd (hsyn hst)).2
    have hwait' : (c.rx.take n).Waiting first taken g :=
      { hwait with }
    have hafter : ((c.rx.take n).afterRead cfg).Stored first taken ∧
        ((c.rx.take n).afterRead cfg).Ahead cfg first taken ∧
        Rx.Later (c.rx.take n) ((c.rx.take n).afterRead cfg) := Rx.afterRead_spec hlast (hst.take n hr) hwait'
    obtain ⟨h1, h2, h3⟩ := hafter
    have hw := h.withRx h1 (fun _ => h2) { h3 with } (hsyn hst) fun _ hc => absurd hc hd
    exact ⟨hw.1, hw.2, rfl⟩
  · have hst := h.stored.resolve_left fun hu => by rw [hu.finReached] at hf; contradiction
    have hall := hst.bytes hr
    rw [not_not.1 hb, append_nil] at hall
    have hst' : ({ c.rx with eof := true } : Rx).Stored first taken :=
      { hst with atEnd := fun _ => ⟨hf, hall⟩ }
    have hah : c.state ≠ .done → ({ c.rx with eof := true } : Rx).Ahead cfg first taken := by
      intro hd
      obtain ⟨g, w, hfull⟩ := (h.synced hd (hsyn hst)).2
      exact ⟨g, { w with }, fun d hd => Rx.deliver_none (hfull d hd) rfl rfl⟩
    have hw := h.withRx hst' hah ⟨le_rfl, List.Subset.refl _, rfl⟩ (hsyn hst) fun hf _ => hf
    exact ⟨hw.1, hw.2, rfl⟩
  · exact h.hears

theorem Side.shuts : Hears cfg got first taken c { c with closed := true, rx := c.rx.shut } := by
  have hon : Onward c { c with
      closed := true
      rx := c.rx.shut } := ⟨rfl, prefix_rfl, le_rfl, List.Subset.refl _⟩
  have hun : c.rx.Unsynced → c.rx.shut.Unsynced := by
    intro u
    refine ⟨u.1, u.2, ?_, rfl, rfl, u.6, u.7, u.8, u.9⟩
    show c.rx.ahead.reset = {}
    rw [u.ahead]
    rfl
  refine ⟨⟨h.sends, h.writes, h.stored.imp hun (·.shut), fun hd => (h.ahead hd).imp hun (·.shut),
    fun p hp => hon.honest (h.wire p hp), fun hu => ?_, fun hs => ⟨hun (h.dialed hs).1, (h.dialed hs).2⟩, rfl,
    h.lingers⟩, hon, rfl⟩
  rcases h.stored with u | st
  · exact h.opening u
  · exact absurd hu (not_unsynced st.shut)

theorem Side.close : Hears cfg got first taken c c.close := by
  rw [Conn.close]
  split_ifs with hc
  · exact h.hears
  have hsh := h.shuts
  simp only
  split_ifs
  · exact hsh
  · exact hsh.trans hsh.side.destroy
  · exact hsh.trans hsh.side.finish
  · exact hsh.trans hsh.side.queueFin

end Conn
end Fib.Utp
