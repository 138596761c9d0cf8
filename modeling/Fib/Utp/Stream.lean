import Fib.Utp.Side

/-! The two sides of a connection as a reliable byte stream: what `Read` returns on one side is a prefix of what
`Write` took on the other, `io.EOF` comes after all of it, and a packet leaves the sender's ring only once the receiver
has it. Two things break it: an answer to the SYN that is not the first of the acceptor's numbers, and a keepalive sent
while packets are kept ahead. -/

namespace Fib.Utp
open Nat List Function

namespace Conn
variable {cfg cfg' : Config} {c p : Conn}

/-- What `p` has of `c`'s stream. -/
structure Reliable (c p : Conn) : Prop where
  inOrder : p.rx.returned <+: c.tx.accepted
  atEnd : p.rx.eof = true → p.rx.returned = c.tx.accepted
  has : c.state ≠ .done → p.closed = false → p.state ≠ .done → ∀ t, c.tx.first ≤ t → t < c.tx.next →
    c.tx.out.get (t % 2 ^ 16) = none → t ≤ p.rx.ackTrue ∨ (p.rx.ahead.get (t % 2 ^ 16)).isSome

/-- A datagram of `p`'s comes to `c` before either side is half of the circle past the numbers in it. -/
def Timely (c p : Conn) : Act → Prop
  | .datagram i _ => ∀ h ∈ p.wire[i]?, h.typ ≠ .syn → h.typ ≠ .reset →
      p.tx.next ≤ h.seqTrue + 2 ^ 15 ∧ c.tx.next ≤ h.ackTrue + 2 ^ 15
  | _ => True

/-- The answer to the SYN has the first of the numbers, and there is no keepalive while packets are kept ahead. -/
def InStep (c p : Conn) : Act → Prop
  | .datagram i _ => ∀ h ∈ p.wire[i]?, h.typ ≠ .syn → h.typ ≠ .reset → c.state = .synSent → h.seqTrue = p.tx.first
  | .timeout due => due.keepAlive = true → c.rx.reorderCount = 0 ∨ c.rx.finReached = true
  | _ => True

instance (c p : Conn) (a : Act) : Decidable (c.Timely p a) := by
  cases a <;> unfold Timely <;> infer_instance

instance (c p : Conn) (a : Act) : Decidable (c.InStep p a) := by
  cases a <;> unfold InStep <;> infer_instance

/-- `c` as it stands to the other side `p`. -/
structure Linked (cfg : Config) (c p : Conn) : Prop where
  side : c.Side cfg (Got p.rx) p.tx.first p.tx.taken
  near : c.tx.next ≤ max c.tx.first (p.rx.ackTrue + reorderMax + 1) + maxInflight

theorem Linked.got_le (h : Linked cfg c p) {t : ℕ} (ht : Got c.rx t) : t ≤ c.rx.ackTrue + reorderMax := by
  rcases ht with ht | ht
  · omega
  · rcases h.side.stored with hu | hs
    · rw [hu.kept] at ht
      contradiction
    · exact (hs.kept t ht).2

theorem Linked.base (h : Linked cfg c p) : 2 ^ 16 ≤ c.tx.first := by
  obtain ⟨f, hf, -⟩ := h.side.sends
  exact hf.base

theorem Linked.ack_lt (h : Linked cfg c p) (hp : Linked cfg' p c) : c.rx.ackTrue < p.tx.next := by
  rcases h.side.stored with hu | hs
  · have := hp.base
    rw [hu.ack, Tx.next]
    omega
  · have := hs.high
    rw [Tx.next]
    omega

section
variable (hc : Linked cfg c p) (hp : Linked cfg' p c)
include hc hp

theorem Linked.comes {h : Packet} (hmem : h ∈ p.wire)
    (h1 : h.typ ≠ .syn) (h2 : h.typ ≠ .reset) (ht : p.tx.next ≤ h.seqTrue + 2 ^ 15 ∧ c.tx.next ≤ h.ackTrue + 2 ^ 15)
    (hs : c.state = .synSent → h.seqTrue = p.tx.first) : c.Comes (Got p.rx) p.tx.first p.tx.taken h := by
  have hh := hp.side.wire h hmem
  have hack := hh.ack h1 h2
  have hlt := hp.ack_lt hc
  exact ⟨hp.base, hp.side.writes.last, hh.seq, hh.high, fun h3 => hh.made h3 h2,
    ⟨hack.1, by omega, ht.2, fun t _ h4 => .inl (h4.trans hack.2), hh.sack⟩, ht.1, hp.near, hs⟩

theorem Linked.act {a : Act} (ht : c.Timely p a) (hi : c.InStep p a) :
    (c.act cfg p.wire a).Side cfg (Got p.rx) p.tx.first p.tx.taken ∧ Onward c (c.act cfg p.wire a) ∧
      ((c.act cfg p.wire a).state = .done → (c.act cfg p.wire a).tx.taken = c.tx.taken) := by
  have hears : ∀ {d : Conn}, Hears cfg (Got p.rx) p.tx.first p.tx.taken c d →
      d.Side cfg (Got p.rx) p.tx.first p.tx.taken ∧ Onward c d ∧ (d.state = .done → d.tx.taken = c.tx.taken) :=
    fun h => ⟨h.side, h.onward, fun _ => h.made⟩
  cases a with
  | write b => exact hears (hc.side.write b)
  | read n => exact hears (hc.side.read hp.side.writes.last n)
  | closeWrite => exact hears hc.side.closeWrite
  | close => exact hears hc.side.close
  | output fits =>
    have ho := hc.side.output fits
    refine ⟨ho.side, ho.onward, fun hd => ?_⟩
    have hd' : c.state = .done := ho.state.symm.trans hd
    show (c.output cfg fits).tx.taken = c.tx.taken
    rw [Conn.output, if_pos hd']
    split_ifs <;> rfl
  | datagram i lost =>
    cases hh : p.wire[i]? with
    | none =>
      have hact : c.act cfg p.wire (.datagram i lost) = c := by simp only [Conn.act, hh]
      rw [hact]
      exact hears hc.side.hears
    | some h =>
      simp only [Conn.act, hh]
      exact hears (hc.side.handle (fun h1 h2 =>
        hc.comes hp (mem_of_getElem? hh) h1 h2 (ht h hh h1 h2) (hi h hh h1 h2)) lost)
  | timeout due => exact hears (hc.side.checkTimeouts hi)

theorem Linked.step {a : Act} (ht : c.Timely p a) (hi : c.InStep p a) :
    Linked cfg (c.act cfg p.wire a) p ∧ Linked cfg' p (c.act cfg p.wire a) := by
  obtain ⟨hside, hon, hmade⟩ := hc.act hp ht hi
  generalize c.act cfg p.wire a = d at hside hon hmade ⊢
  refine ⟨⟨hside, ?_⟩, ⟨?_, ?_⟩⟩
  · by_cases hd : d.state = .done
    · rw [Tx.next, hmade hd, hon.first]
      exact hc.near
    · refine hside.sends.near fun t ht => ?_
      exact hp.got_le (ht.resolve_left hd)
  · rw [hon.first]
    exact hp.side.mono (fun _ => hon.has) hon.taken
  · have := hp.near
    have := hon.ack
    omega

theorem Linked.reliable : Reliable c p := by
  have hw := hc.side.writes
  refine ⟨?_, fun he => ?_, fun h1 h2 h3 t h4 h5 h6 => ?_⟩
  · rcases hp.side.stored with hu | hs
    · rw [hu.returned]
      exact nil_prefix
    · refine hs.inOrder.trans (List.IsPrefix.trans ?_ hw.made)
      obtain ⟨l, hl⟩ := take_prefix (p.rx.ackTrue + 1 - c.tx.first) c.tx.taken
      exact ⟨bytesOf l, by rw [← Tx.bytesOf_append, hl]⟩
  · rcases hp.side.stored with hu | hs
    · rw [hu.eof] at he
      contradiction
    obtain ⟨hf, hret⟩ := hs.atEnd he
    obtain ⟨hle, hfin⟩ := hs.reached hf
    have hlast := hw.last _ hfin
    obtain ⟨q, hq, hqf⟩ := Option.map_eq_some_iff.1 hfin
    have hend := (hw.ended (hw.fin q (mem_of_getElem? hq) hqf)).2.2
    rw [hret, take_of_length_le (by omega), hend]
  · obtain ⟨f, hf, hg⟩ := hc.side.sends
    have hnone : f t = none := by
      by_contra hn
      obtain ⟨q, hq⟩ := Option.ne_none_iff_exists'.1 hn
      rw [hf.get (hf.in_window hq).1 h5] at h6
      exact hn h6
    rcases (hg t h4 h5 hnone).resolve_left h1 with hle | hk
    · exact .inl hle
    rcases hp.side.stored with hu | hs
    · rw [hu.kept] at hk
      contradiction
    obtain ⟨g, w, -⟩ := (hp.side.ahead h3).resolve_left (not_unsynced hs)
    refine (w.held (by rw [hp.side.shut, h2]) t hk).imp_right fun hgt => ?_
    have hbound := (hs.kept t hk).2
    have hwin := w.ring.within t hgt
    have hlen := w.ring.le
    simp only [reorderMax] at hbound
    rw [w.ring.get (by omega) (by omega)]
    exact Option.isSome_iff_ne_none.2 hgt

end

/-! ### The beginning -/

def synPacket : OutPacket := { typ := .syn, payload := [] }

theorem sends_new {first : ℕ} (hbase : 2 ^ 16 ≤ first) (got : ℕ → Prop) :
    ({ seqNr := first % 2 ^ 16, first } : Tx).Sends got :=
  ⟨fun _ => none, ⟨rfl, hbase, zero_le _, zero_le _, SeqRing.holds_empty _ _, nofun⟩,
    fun _ h1 h2 => absurd h2 (not_lt.2 h1)⟩

theorem writes_new {first seqNr : ℕ} (state : ConnState) : ({ seqNr, first } : Tx).Writes state :=
  ⟨prefix_rfl, fun _ => rfl, nofun, nofun, nofun⟩

theorem writes_syn {seqNr : ℕ} (first : ℕ) (state : ConnState) (out : SeqRing OutPacket) :
    ({ seqNr, first, out, inflightPkts := 1, taken := [(.syn, [])] } : Tx).Writes state := by
  refine ⟨⟨[], rfl⟩, fun _ => rfl, fun k hk => ?_, fun p hp => ?_, nofun⟩
  · cases k with
    | zero => simp at hk
    | succ k => simp at hk
  · rw [mem_singleton.1 hp]
    nofun

theorem dial_ring (first : ℕ) : (Tx.push { seqNr := first % 2 ^ 16, first } .syn []).out.Holds 16 first
    (update (fun _ => none) first (some synPacket)) := by
  have hput := (SeqRing.holds_empty 16 first).put (by norm_num) le_rfl (by norm_num) synPacket
  have hold : Tx.oldest { seqNr := first % 2 ^ 16, first } = first % 2 ^ 16 := by
    rw [Tx.oldest, sub_mod (Nat.zero_le _) (Nat.zero_le _), Nat.sub_zero]
  simp only [Tx.push, hold]
  exact hput

theorem dial_get (first : ℕ) :
    (Tx.push { seqNr := first % 2 ^ 16, first } .syn []).out.get (first % 2 ^ 16) = some synPacket := by
  have hle := (dial_ring first).le
  rw [(dial_ring first).get (by omega) (by omega), update_self]

theorem transmit_some {seq : ℕ} {q : OutPacket} (hq : c.tx.out.get seq = some q) :
    c.transmit seq = { c.writePacket q.typ seq (c.tx.next - sub c.tx.seqNr seq) (c.ackBack q.typ) q.payload with
      tx := { c.tx with
        out := c.tx.out.modify seq fun p =>
          some { p with needResend := false, transmissions := p.transmissions + 1 } }
      sentData := c.sentData || decide (q.typ = .data ∨ q.typ = .fin) } := by
  simp only [transmit, hq]

theorem honest_syn {x : Tx} {y : Rx} {h : Packet} (htyp : h.typ = .syn) (hseq : h.seq = h.seqTrue % 2 ^ 16)
    (hfirst : h.seqTrue = x.first) (htaken : x.taken = [(.syn, [])]) (hpay : h.payload = []) (hsack : h.sack = none) :
    Honest x y h := by
  refine ⟨hseq, hfirst.ge, ?_, fun _ _ => ?_, fun hc => absurd htyp hc, fun mask hm => ?_⟩
  · rw [hfirst, Tx.next]
    omega
  · rw [hfirst, Nat.sub_self, htaken, htyp, hpay]
    rfl
  · rw [hsack] at hm
    contradiction

theorem dial_side {first : ℕ} (hbase : 2 ^ 16 ≤ first) {got : ℕ → Prop} (hgot : got first) (first' : ℕ)
    (taken : List (PacketType × Bytes)) : (dial first).Side cfg got first' taken := by
  have hnew : ({ seqNr := first % 2 ^ 16, first } : Tx).Sends fun t => ConnState.synSent = .done ∨ got t :=
    sends_new hbase _
  have hpush := hnew.push (succ_pos 1022) .syn []
  have hsub : (Tx.push { seqNr := first % 2 ^ 16, first } .syn []).next -
      sub (Tx.push { seqNr := first % 2 ^ 16, first } .syn []).seqNr (first % 2 ^ 16) = first := by
    simp only [Tx.push, Tx.next, nil_append, length_singleton]
    rw [add_mod, sub_true (by omega) (by omega)]
    omega
  rw [dial, transmit_some (dial_get first)]
  have hun : ({} : Rx).Unsynced := ⟨rfl, rfl, rfl, rfl, rfl, rfl, rfl, rfl, rfl⟩
  refine ⟨hpush.modify (first % 2 ^ 16)
    fun _ => rfl,
    writes_syn _ _ _, .inl hun, fun _ => .inl hun, fun p hp => ?_, fun _ => .inl rfl,
    fun _ => ⟨hun, hgot, rfl, ?_⟩, rfl, fun hl => absurd hl Bool.false_ne_true⟩
  · rw [mem_singleton.1 hp]
    refine honest_syn rfl (by rw [hsub]) hsub rfl rfl ?_
    simp [synPacket]
  have hmod := (dial_ring first).modify (update_self ..) fun p =>
    some { p with needResend := false, transmissions := p.transmissions + 1 }
  refine Tx.sent_of_holds hmod fun t p ht => ?_
  rw [update_idem] at ht
  by_cases he : t = first
  · rw [he, update_self, Option.some.injEq] at ht
    rw [← ht]
    exact succ_pos _
  · rw [update_of_ne he] at ht
    contradiction

theorem acceptSyn_side {first syn : ℕ} (hbase : 2 ^ 16 ≤ first) (hsyn : 2 ^ 16 ≤ syn) (got : ℕ → Prop) :
    (acceptSyn first syn).Side cfg got syn [(.syn, [])] := by
  have hst : (acceptSyn first syn).rx.Stored syn [(.syn, [])] := by
    refine ⟨hsyn, rfl, Nat.le_succ _, le_rfl, nofun, nil_prefix, fun _ => ?_, nofun, nofun, nofun⟩
    show [] = bytesOf (List.take (syn + 1 - syn) _)
    rw [Nat.add_sub_cancel_left]
    rfl
  have hah : (acceptSyn first syn).rx.Ahead cfg syn [(.syn, [])] :=
    ⟨fun _ => none, ⟨SeqRing.holds_empty _ _, nofun, fun _ h => absurd rfl h, fun _ _ => nofun, ∅, by simp, rfl⟩, nofun⟩
  exact ⟨sends_new hbase _, writes_new _, .inr hst, fun _ => .inr hah, nofun, fun hu => absurd hu (not_unsynced hst),
    nofun, rfl, nofun⟩

end Conn

open Conn

/-- The condition of a step of either side. -/
def Net.Timely (n : Net) : Bool × Act → Prop
  | (true, a) => n.left.Timely n.right a
  | (false, a) => n.right.Timely n.left a

@[inherit_doc Net.Timely]
def Net.InStep (n : Net) : Bool × Act → Prop
  | (true, a) => n.left.InStep n.right a
  | (false, a) => n.right.InStep n.left a

instance (n : Net) : (a : Bool × Act) → Decidable (n.Timely a)
  | (true, a) => inferInstanceAs (Decidable (n.left.Timely n.right a))
  | (false, a) => inferInstanceAs (Decidable (n.right.Timely n.left a))

instance (n : Net) : (a : Bool × Act) → Decidable (n.InStep a)
  | (true, a) => inferInstanceAs (Decidable (n.left.InStep n.right a))
  | (false, a) => inferInstanceAs (Decidable (n.right.InStep n.left a))

/-- Each side's stream reaches the other. -/
structure Net.Reliable (n : Net) : Prop where
  left : n.left.Reliable n.right
  right : n.right.Reliable n.left

variable {cl cr : Config}

theorem linked_init (cl cr : Config) (isn isn' : ℕ) :
    Linked cl (network cl cr isn isn').init.left (network cl cr isn isn').init.right ∧
      Linked cr (network cl cr isn isn').init.right (network cl cr isn isn').init.left := by
  have hfirst : (dial (2 ^ 16 + isn)).tx.first = 2 ^ 16 + isn := by
    rw [dial, transmit]
    split <;> rfl
  have htaken : (dial (2 ^ 16 + isn)).tx.taken = [(.syn, [])] := by
    rw [dial, transmit]
    split <;> rfl
  refine ⟨⟨dial_side (le_add_right _ _) (.inl le_rfl) _ _, ?_⟩, ⟨?_, ?_⟩⟩
  · show (dial (2 ^ 16 + isn)).tx.next ≤
      max (dial (2 ^ 16 + isn)).tx.first (2 ^ 16 + isn + reorderMax + 1) + maxInflight
    rw [Tx.next, hfirst, htaken, length_singleton]
    omega
  · show Side cr _ _ (dial (2 ^ 16 + isn)).tx.first (dial (2 ^ 16 + isn)).tx.taken
    rw [hfirst, htaken]
    exact acceptSyn_side (le_add_right _ _) (le_add_right _ _) _
  · exact le_add_right_of_le (le_max_left _ _)

/-- In every run whose datagrams are not late, whose SYN is answered by the first of the acceptor's numbers and that
sends no keepalive while packets are kept ahead, the two streams are reliable. -/
theorem streams_reliable (cl cr : Config) (isn isn' : ℕ) (ops : List (Bool × Act))
    (h : (network cl cr isn isn').Meets (fun n a => n.Timely a ∧ n.InStep a) ops) :
    (network cl cr isn isn').Always Net.Reliable ops := by
  intro pre hpre
  have hmeets : (network cl cr isn isn').Meets (fun n a => n.Timely a ∧ n.InStep a) pre := by
    obtain ⟨rest, rfl⟩ := hpre
    exact ((network cl cr isn isn').meetsFrom_append.1 h).1
  have hlinked : Linked cl ((network cl cr isn isn').run pre).left ((network cl cr isn isn').run pre).right ∧
      Linked cr ((network cl cr isn isn').run pre).right ((network cl cr isn isn').run pre).left := by
    refine Machine.invariant (I := fun n : Net => Linked cl n.left n.right ∧ Linked cr n.right n.left)
      (linked_init cl cr isn isn') ?_ hmeets
    rintro n ⟨_ | _, a⟩ ⟨hl, hr⟩ ⟨ht, hi⟩
    · exact (hr.step hl ht hi).symm
    · exact hl.step hr ht hi
  exact ⟨hlinked.1.reliable hlinked.2, hlinked.2.reliable hlinked.1⟩

def tiny : Config := { noDelay := true }

/-- The second packet comes before the first and goes ahead of it, and both sides finish. -/
def exchange : List (Bool × Act) :=
  [(false, .output []), (true, .datagram 0 []), (true, .write [1]), (true, .output [true]), (true, .write [2]),
    (true, .closeWrite), (true, .output [true]), (false, .datagram 2 []), (false, .datagram 1 []),
    (false, .datagram 3 []), (false, .read 2), (false, .read 2), (false, .output []), (true, .datagram 1 [])]

theorem shuffled_streams_reliable : (network tiny tiny 65535 7).Always Net.Reliable exchange ∧
    ((network tiny tiny 65535 7).run exchange).right.rx.returned = [1, 2] ∧
    ((network tiny tiny 65535 7).run exchange).right.rx.eof = true :=
  ⟨streams_reliable tiny tiny 65535 7 exchange (by decide +kernel), by decide +kernel, by decide +kernel⟩

/-- The acceptor writes before it hears of the dialer again, and its FIN overtakes the data. -/
def finFirst : List (Bool × Act) :=
  [(false, .write [120]), (false, .closeWrite), (false, .output [true]), (true, .datagram 1 []), (true, .read 1)]

/-- The dialer takes the number of the FIN for the first, and its reader is at the end without the byte. -/
theorem finFirst_not_reliable : (network {} {} 0 0).Meets Net.Timely finFirst ∧
    ¬ ((network {} {} 0 0).run finFirst).Reliable := by
  refine ⟨by decide +kernel, fun h => ?_⟩
  have hend := h.right.atEnd (by decide +kernel)
  exact absurd hend (by decide +kernel)

/-- Of three packets only the third arrives, and the receiver's keepalive is the next datagram to come back. -/
def keptAlive : List (Bool × Act) :=
  [(false, .output []), (true, .datagram 0 []), (true, .write [1]), (true, .output [true]), (true, .write [2]),
    (true, .output [true]), (true, .write [3]), (true, .output [true]), (false, .datagram 3 []),
    (false, .timeout { keepAlive := true }), (true, .datagram 1 [])]

/-- The mask of a keepalive is read one packet too early: the second packet leaves the sender's ring. -/
theorem keptAlive_not_reliable : (network tiny tiny 0 0).Meets Net.Timely keptAlive ∧
    ¬ ((network tiny tiny 0 0).run keptAlive).Reliable := by
  refine ⟨by decide +kernel, fun h => ?_⟩
  have hhas := h.left.has (by decide +kernel) (by decide +kernel) (by decide +kernel) (2 ^ 16 + 2)
    (by decide +kernel) (by decide +kernel) (by decide +kernel)
  exact absurd hhas (by decide +kernel)

end Fib.Utp
