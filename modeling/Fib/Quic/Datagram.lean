import Fib.Quic.Packet

/-! Datagrams: the packets of the three spaces chosen for one, and its size
(`appendDatagram`, http3/quic/send.go; http3/quic/path.go). -/

namespace Fib.Quic
open List

def minInitialDatagram : ℕ := 1200
def maxDatagramLimit : ℕ := 1472
def minPathDatagram : ℕ := 64

def pathBudget (recv sent : ℕ) : ℕ := if 3 * recv > sent then min (3 * recv - sent) (2 ^ 30) else 0

namespace Conn
variable (c : Conn)

def datagramSize (plans : List PacketPlan) : ℕ := (plans.map c.packetSize).sum

/-- The most the next datagram may have, or `none` while nothing may be sent. -/
def datagramLimit : Option ℕ :=
  if !c.isClient && !c.addressValidated && c.bytesSent + c.maxDatagram > 3 * c.bytesRecv then none
  else if c.pathValidated then some c.maxDatagram
  else
    let budget := pathBudget c.pathRecv c.pathSent
    if budget < minPathDatagram then none else some (min c.maxDatagram budget)

/-- The space sends 0-RTT packets: there are early keys and no 1-RTT ones yet. -/
def early (space : SpaceId) : Bool := space == .app && !(c.spaces space).hasTx && c.hasEarlyTx

def silent (space : SpaceId) : Bool :=
  (!(c.spaces space).hasTx && !c.early space) || (c.spaces space).discarded

/-- The loop over the spaces. `room` is what the round's buffer has left, and `plans` the packets chosen. -/
def choosePackets (limit room : ℕ) (congestionOK : Bool) :
    List SpaceId → List PacketPlan → Conn → List PacketPlan × Conn
  | [], plans, c => (plans, c)
  | space :: rest, plans, c =>
    let s := c.spaces space
    if c.silent space then choosePackets limit room congestionOK rest plans c
    else if c.datagramSize plans + c.headerLen space (pnLen s.nextPN s.largestAcked) (c.early space) > room then
      (plans, c)
    else
      let r := c.buildPacket space (limit - c.datagramSize plans) (congestionOK || s.probes > 0) (c.early space)
      choosePackets limit room congestionOK rest (plans ++ r.1.toList) r.2

def padLast (n : ℕ) : List PacketPlan → List PacketPlan
  | [] => []
  | [p] => [{ p with payload := p.payload ++ List.replicate n 0, padded := true }]
  | p :: q :: rest => p :: padLast n (q :: rest)

def padDatagram (plans : List PacketPlan) : List PacketPlan :=
  let pad := plans.any fun p => p.space == .initial && (c.isClient || p.ackEliciting)
  if pad ∧ c.datagramSize plans < minInitialDatagram then
    padLast (minInitialDatagram - c.datagramSize plans) plans
  else plans

/-- The packets of a datagram, none if there is nothing to send or nothing may be sent. -/
def appendDatagram (room : ℕ) (congestionOK : Bool) : List PacketPlan × Conn :=
  match c.datagramLimit with
  | none => ([], c)
  | some limit =>
    let (plans, c) := choosePackets limit room congestionOK [.initial, .handshake, .app] [] c
    (c.padDatagram plans, c)

end Conn

/-! ### The size of a datagram -/

namespace Conn
variable {c : Conn}

theorem datagramSize_congr {c c' : Conn} (h : c'.toLink = c.toLink) (plans : List PacketPlan) :
    c'.datagramSize plans = c.datagramSize plans := by
  have hsize : c'.packetSize = c.packetSize := by
    funext p
    have hd : c'.dcid = c.dcid := congrArg Link.dcid h
    have hsc : c'.scid = c.scid := congrArg Link.scid h
    have ht : c'.token = c.token := congrArg Link.token h
    unfold packetSize headerLen
    rw [hd, hsc, ht]
  rw [datagramSize, hsize, datagramSize]

theorem datagramSize_snoc (plans : List PacketPlan) (p : PacketPlan) :
    c.datagramSize (plans ++ [p]) = c.datagramSize plans + c.packetSize p := by
  simp [datagramSize]

variable {limit : ℕ} {plans : List PacketPlan}

theorem datagramSize_padLast (n : ℕ) (h : plans ≠ []) :
    c.datagramSize (padLast n plans) = c.datagramSize plans + n := by
  induction plans with
  | nil => exact absurd rfl h
  | cons p rest ih =>
    cases rest with
    | nil =>
      simp only [padLast, datagramSize, packetSize, map_cons, map_nil, sum_cons, sum_nil,
        length_append, length_replicate]
      omega
    | cons q rest =>
      have hrest := ih (cons_ne_nil q rest)
      simp only [datagramSize, padLast, map_cons, sum_cons] at hrest ⊢
      omega

theorem padDatagram_le (hmin : minInitialDatagram ≤ limit)
    (h : c.datagramSize plans ≤ limit) : c.datagramSize (c.padDatagram plans) ≤ limit := by
  unfold padDatagram
  dsimp only
  split_ifs with hpad
  · have hne : plans ≠ [] := by
      rintro rfl
      simp at hpad
    rw [datagramSize_padLast _ hne]
    omega
  · exact h

/-- Every stream's data fits whatever comes before it in a packet of a datagram. -/
def StreamsFit (c : Conn) : Prop := ∀ s ∈ c.sendQueue, ∀ len, ∀ limit ≤ c.maxDatagram, s.Fits len limit = true

/-- Only the last of the spaces is the application's, so the streams are as they were until its packet. -/
theorem choosePackets_spec (room : ℕ) (congestionOK : Bool) (hl : limit < 2 ^ 14)
    (hle : limit ≤ c.maxDatagram) (spaces : List SpaceId) (happ : ∀ i ∈ spaces.dropLast, i ≠ .app)
    (plans : List PacketPlan) (hs : c.Sound) :
    (choosePackets limit room congestionOK spaces plans c).2.toLink = c.toLink ∧
      (choosePackets limit room congestionOK spaces plans c).2.Sound ∧
      (c.StreamsFit → c.datagramSize plans ≤ limit →
        c.datagramSize (choosePackets limit room congestionOK spaces plans c).1 ≤ limit) := by
  induction spaces generalizing plans c with
  | nil => exact ⟨rfl, hs, fun _ h => h⟩
  | cons space rest ih =>
    have hrest : ∀ i ∈ rest.dropLast, i ≠ .app := by
      intro i hi
      cases rest with
      | nil => exact absurd hi not_mem_nil
      | cons j rest => exact happ i (mem_cons_of_mem _ hi)
    rw [choosePackets]
    split_ifs with hskip hroom
    · exact ih hle hrest plans hs
    · exact ⟨rfl, hs, fun _ h => h⟩
    obtain ⟨hlink, hsound, hqueue, hsize⟩ := buildPacket_spec space (limit - c.datagramSize plans)
      (congestionOK || (c.spaces space).probes > 0) (c.early space) (by omega) hs
    generalize c.buildPacket space (limit - c.datagramSize plans) (congestionOK || (c.spaces space).probes > 0)
      (c.early space) = r at hlink hsound hqueue hsize ⊢
    obtain ⟨plan, c'⟩ := r
    have hmax : c'.maxDatagram = c.maxDatagram := congrArg Link.maxDatagram hlink
    obtain ⟨hlink', hsound', hlen'⟩ := ih (hmax ▸ hle) hrest (plans ++ plan.toList) hsound
    refine ⟨hlink'.trans hlink, hsound', ?_⟩
    intro hfit hsize'
    have hnew : c.datagramSize (plans ++ plan.toList) ≤ limit := by
      cases plan with
      | none => simpa using hsize'
      | some p =>
        have := hsize p rfl fun s hs len l hl' => hfit s hs len l (by omega)
        rw [Option.toList_some, datagramSize_snoc]
        omega
    cases rest with
    | nil => exact hnew
    | cons j rest =>
      have hne : space ≠ .app := happ space mem_cons_self
      have hfit' : c'.StreamsFit := by
        unfold StreamsFit
        rw [hqueue hne (by simp [early, hne]), hmax]
        exact hfit
      simp only [datagramSize_congr hlink] at hlen'
      exact hlen' hfit' hnew

/-- The limits the configuration and the path set to the size of datagrams. -/
def Sized (c : Conn) : Prop := minInitialDatagram ≤ c.maxDatagram ∧ c.maxDatagram ≤ maxDatagramLimit

theorem datagramLimit_le (h : c.datagramLimit = some limit) : limit ≤ c.maxDatagram := by
  unfold datagramLimit at h
  split_ifs at h with hwait hpath
  · exact (Option.some.inj h).ge
  · dsimp only at h
    split_ifs at h
    rw [← Option.some.inj h]
    exact min_le_left _ _

theorem appendDatagram_spec (room : ℕ) (congestionOK : Bool) (hc : c.Sized) (hs : c.Sound) :
    (c.appendDatagram room congestionOK).2.toLink = c.toLink ∧ (c.appendDatagram room congestionOK).2.Sound ∧
      (c.StreamsFit → c.datagramSize (c.appendDatagram room congestionOK).1 ≤ c.maxDatagram) := by
  unfold appendDatagram
  split
  · exact ⟨rfl, hs, fun _ => Nat.zero_le _⟩
  rename_i limit hlimit
  have hle := datagramLimit_le hlimit
  have hl : limit < 2 ^ 14 := lt_of_le_of_lt (hle.trans hc.2) (by decide)
  obtain ⟨hlink, hsound, hlen⟩ := choosePackets_spec room congestionOK hl hle [.initial, .handshake, .app]
    (by decide) [] hs
  refine ⟨hlink, hsound, ?_⟩
  intro hfit
  rw [← datagramSize_congr hlink]
  refine padDatagram_le hc.1 ?_
  rw [datagramSize_congr hlink]
  exact (hlen hfit (Nat.zero_le _)).trans hle

/-- The buffers and streams are as some histories leave them. -/
structure Reachable (c : Conn) : Prop where
  crypto : ∀ i, ∃ ops, SendRun.machine.Meets SendRun.Sent ops ∧ (SendRun.machine.run ops).buf = (c.spaces i).cryptoSend
  streams : ∀ s ∈ c.sendQueue, s.Reachable

theorem Reachable.sound (h : c.Reachable) : c.Sound := by
  refine ⟨fun i => ?_, fun s hs => (h.streams s hs).holds⟩
  obtain ⟨ops, hops, he⟩ := h.crypto i
  rw [← he]
  exact ⟨_, (Machine.invariant SendRun.inv_init SendRun.inv_step hops).holds⟩

end Conn

/-- A stream's frames keep to their limit exactly if the stream fits, and datagrams keep to theirs if all streams do. -/
theorem appendFrames_within_iff_fits (s : Stream) (c : Credit) (b : Bytes) (limit : ℕ) (hs : s.Reachable)
    (hb : b.length ≤ limit) (hl : limit < 2 ^ 14) (conn : Conn) (room : ℕ) (congestionOK : Bool)
    (hr : conn.Reachable) (hc : conn.Sized) :
    ((Fill.appendFrames limit ⟨s, c, b, []⟩).b.length ≤ limit ↔ s.Fits b.length limit = true) ∧
      (conn.StreamsFit → conn.datagramSize (conn.appendDatagram room congestionOK).1 ≤ conn.maxDatagram) := by
  constructor
  · exact Fill.appendFrames_le_iff hl hs.holds hb
  · intro hfit
    exact (Conn.appendDatagram_spec room congestionOK hc hr.sound).2.2 hfit

def unsentRun : StreamRun :=
  (StreamRun.machine 0 true true).run [.limits 99 { peerMaxData := 99 }, .write [1, 2, 3] true false]

def unsentConn : Conn := { addressValidated := true, spaces := fun _ => { hasTx := true }, sendQueue := [unsentRun.s] }

theorem unsentRun_fits (len limit : ℕ) : unsentRun.s.Fits len limit = true := by
  have hlost : unsentRun.s.send.trimLost.lost = [] := by decide
  simp [Stream.Fits, Stream.retransmitFits, hlost]

theorem unsentConn_within :
    ((Fill.appendFrames 20 ⟨unsentRun.s, unsentRun.c, [], []⟩).b.length ≤ 20 ↔ unsentRun.s.Fits 0 20 = true) ∧
      unsentConn.datagramSize (unsentConn.appendDatagram 65536 true).1 ≤ unsentConn.maxDatagram := by
  have hr : unsentRun.s.Reachable := ⟨0, true, true, _, by decide, rfl⟩
  have hconn : unsentConn.Reachable := by
    refine ⟨fun i => ⟨[], trivial, rfl⟩, fun s hs => ?_⟩
    rw [mem_singleton.1 hs]
    exact hr
  obtain ⟨h1, h2⟩ := appendFrames_within_iff_fits unsentRun.s unsentRun.c [] 20 hr (by decide) (by decide)
    unsentConn 65536 true hconn ⟨by decide, by decide⟩
  refine ⟨h1, h2 fun s hs => ?_⟩
  rw [mem_singleton.1 hs]
  exact fun len limit _ => unsentRun_fits len limit

/-- Two packets are taken for lost, and the first of them turns out to have arrived. -/
def lateAck : List StreamOp :=
  [.limits 4000 { peerMaxData := 4000 }, .write (List.replicate 3000 7) false true, .appendFrames [] 1205,
    .appendFrames [] 1205, .lost ⟨.stream, false, some 0, 0, 1200⟩, .lost ⟨.stream, false, some 0, 1200, 1199⟩,
    .acked ⟨.stream, false, some 0, 0, 1200⟩]

def lateAckRun : StreamRun := (StreamRun.machine 0 true true).run lateAck

def lateAckConn (maxDatagram : ℕ) : Conn :=
  { addressValidated := true, maxDatagram := maxDatagram, dcid := List.replicate 8 1,
    spaces := fun i => { hasTx := i == .app, nextPN := 2, largestAcked := some 0 },
    credit := lateAckRun.c, sendQueue := [lateAckRun.s] }

theorem lateAck_reachable : lateAckRun.s.Reachable :=
  ⟨0, true, true, lateAck, by decide +kernel, rfl⟩

theorem lateAck_overruns :
    lateAckRun.s.Reachable ∧ ¬ (Fill.appendFrames 1174 ⟨lateAckRun.s, lateAckRun.c, [], []⟩).b.length ≤ 1174 ∧
      (lateAckConn 1200).Sized ∧
      ¬ (lateAckConn 1200).datagramSize ((lateAckConn 1200).appendDatagram 65536 true).1 ≤ 1200 :=
  ⟨lateAck_reachable, by decide +kernel, ⟨by decide, by decide⟩, by decide +kernel⟩

end Fib.Quic
