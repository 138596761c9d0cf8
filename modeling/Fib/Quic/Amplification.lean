import Fib.Quic.Datagram

/-! What a server hands to its path before the client's address is validated: the datagrams of its
rounds, and the CONNECTION_CLOSE it sends and repeats (http3/quic/send.go, http3/quic/conn.go). -/

namespace Fib.Quic
open List

inductive CloseError where
  | application (code : ℕ) (reason : Bytes)
  | transport (code : ℕ) (reason : Bytes)
  | other
deriving DecidableEq

def errInternal : ℕ := 0x01
def errApplication : ℕ := 0x0c
def frameConnectionClose : UInt8 := 0x1c
def frameConnectionCloseApp : UInt8 := 0x1d

def appendConnectionClose (oneRTT : Bool) : CloseError → Bytes
  | .application code reason =>
    if oneRTT then varintFrame frameConnectionCloseApp [code, reason.length] ++ reason
    else varintFrame frameConnectionClose [errApplication, 0, 0]
  | .transport code reason =>
    varintFrame frameConnectionClose [code, 0, (reason.take 256).length] ++ reason.take 256
  | .other => varintFrame frameConnectionClose [errInternal, 0, 0]

namespace Conn
variable (c : Conn)

/-- The spaces CONNECTION_CLOSE is sent in: those the peer may be able to read. -/
def closeSpaces (handshakeComplete : Bool) : List SpaceId :=
  [.initial, .handshake, .app].filter fun i =>
    (c.spaces i).hasTx && !(c.spaces i).discarded && (i != .app || handshakeComplete)

def closePlan (err : CloseError) (i : SpaceId) : PacketPlan :=
  let s := c.spaces i
  ⟨i, s.nextPN, pnLen s.nextPN s.largestAcked, appendConnectionClose (i == .app) err, [], 0, false, false, false⟩

def closeRoom (handshakeComplete : Bool) (err : CloseError) : ℕ :=
  c.datagramSize ((c.closeSpaces handshakeComplete).map (c.closePlan err))

/-- The packets of `sendClose`: a client's with an Initial packet are padded. -/
def closePlans (handshakeComplete : Bool) (err : CloseError) : List PacketPlan :=
  let plans := (c.closeSpaces handshakeComplete).map (c.closePlan err)
  if c.isClient ∧ .initial ∈ c.closeSpaces handshakeComplete ∧ c.datagramSize plans < minInitialDatagram then
    padLast (minInitialDatagram - c.datagramSize plans) plans
  else plans

end Conn

/-- A server's connection, what arrived for it and what it handed to its path. -/
structure ServerRun where
  c : Conn
  handshakeComplete : Bool := false
  closed : Bool := false
  /-- The size of the CONNECTION_CLOSE sent, and how many datagrams arrived since. -/
  closePacket : Option ℕ := none
  closingSeen : ℕ := 0
  received : ℕ := 0
  handed : ℕ := 0

inductive ServerOp where
  /-- Datagrams of these sizes arrive, in one call. -/
  | arrive (sizes : List ℕ) (closing : Bool)
  /-- Anything else the connection does: packets read, streams written, timers, a new path. -/
  | become (c : Conn) (handshakeComplete : Bool)
  | datagram (room : ℕ) (congestionOK : Bool)
  | close (err : CloseError)

namespace ServerRun
variable (r : ServerRun)

/-- A power of two is reached among the `n` datagrams that just arrived. -/
def answers (n : ℕ) : Bool := r.closingSeen.size != (r.closingSeen + n).size

/-- `closing` is whether the closing period lasts. -/
def answerClosing (n : ℕ) (closing : Bool) : ServerRun :=
  match r.closePacket with
  | none => r
  | some size =>
    if n = 0 ∨ !closing then r
    else if r.answers n then { r with closingSeen := r.closingSeen + n, handed := r.handed + size }
    else { r with closingSeen := r.closingSeen + n }

def arrive (sizes : List ℕ) (closing : Bool) : ServerRun :=
  let r := { r with received := r.received + sizes.sum }
  if r.closed then r.answerClosing sizes.length closing
  else { r with c := { r.c with bytesRecv := r.c.bytesRecv + sizes.sum } }

/-- The counts stay, a server stays one, and an address once validated stays so. -/
def become (c : Conn) (handshakeComplete : Bool) : ServerRun :=
  { r with c := { c with isClient := false, bytesRecv := r.c.bytesRecv, bytesSent := r.c.bytesSent,
                         addressValidated := r.c.addressValidated || c.addressValidated },
           handshakeComplete := handshakeComplete }

def datagram (room : ℕ) (congestionOK : Bool) : ServerRun :=
  if r.closed then r
  else
    let (plans, c) := r.c.appendDatagram room congestionOK
    let n := c.datagramSize plans
    { r with handed := r.handed + n,
             c := { c with bytesSent := c.bytesSent + n,
                           pathSent := if c.pathValidated then c.pathSent else c.pathSent + n } }

def close (err : CloseError) : ServerRun :=
  if r.closed then r
  else
    let plans := r.c.closePlans r.handshakeComplete err
    if plans = [] then { r with closed := true }
    else { r with closed := true, closePacket := some (r.c.datagramSize plans),
                  handed := r.handed + r.c.datagramSize plans }

def step (r : ServerRun) : ServerOp → ServerRun
  | .arrive sizes closing => r.arrive sizes closing
  | .become c handshakeComplete => r.become c handshakeComplete
  | .datagram room congestionOK => r.datagram room congestionOK
  | .close err => r.close err

def machine : Machine ServerRun ServerOp := ⟨⟨{}, false, false, none, 0, 0, 0⟩, step⟩

/-- The connection is only ever in a state its own history leaves, and builds datagrams from streams
that fit them. -/
def Real (r : ServerRun) : ServerOp → Prop
  | .become c _ => c.Sized ∧ c.Reachable
  | .datagram _ _ => r.c.addressValidated = true ∨ r.c.StreamsFit
  | .arrive _ _ | .close _ => True

/-- What has been handed out is within three times what arrived, until the address is validated. -/
def Within (r : ServerRun) : Prop := r.c.addressValidated = true ∨ r.handed ≤ 3 * r.received

/-- Until the address is validated, CONNECTION_CLOSE goes, and goes again, only within what is left to send. -/
def CloseFits (r : ServerRun) : ServerOp → Prop
  | .close err => r.c.addressValidated = true ∨ r.closed = true ∨
      r.handed + r.c.closeRoom r.handshakeComplete err ≤ 3 * r.received
  | .arrive sizes closing => r.c.addressValidated = true ∨ ∀ size ∈ r.closePacket,
      r.answers sizes.length → closing → r.handed + size ≤ 3 * (r.received + sizes.sum)
  | .become _ _ | .datagram _ _ => True

structure Inv (r : ServerRun) : Prop where
  server : r.c.isClient = false
  sized : r.c.Sized
  sound : r.c.Sound
  open_ : r.closed = false → r.handed = r.c.bytesSent ∧ r.received = r.c.bytesRecv
  quiet : r.closed = false → r.closePacket = none
  within : r.Within

variable {r : ServerRun}

theorem Inv.arrive (h : Inv r) (sizes : List ℕ) (closing : Bool) (hf : r.CloseFits (.arrive sizes closing)) :
    Inv (r.arrive sizes closing) := by
  unfold ServerRun.arrive
  dsimp only
  split_ifs with hc
  · have hclosed : ∀ t : ServerRun, t.c = r.c → t.closed = true → t.Within → Inv t := fun t htc ht hw =>
      ⟨htc ▸ h.server, htc ▸ h.sized, htc ▸ h.sound, by simp [ht], by simp [ht], hw⟩
    have hkept : r.c.addressValidated = true ∨ r.handed ≤ 3 * (r.received + sizes.sum) :=
      h.within.imp id fun hle => by omega
    unfold answerClosing
    split
    · exact hclosed _ rfl hc hkept
    rename_i size hsize
    split_ifs with hnone hans
    · exact hclosed _ rfl hc hkept
    · rw [not_or] at hnone
      exact hclosed _ rfl hc (hf.imp id fun hall => hall size hsize hans (by simpa using hnone.2))
    · exact hclosed _ rfl hc hkept
  · obtain ⟨hh, hr⟩ := h.open_ (by simpa using hc)
    refine ⟨h.server, h.sized, ⟨h.sound.crypto, h.sound.streams⟩, fun _ => ⟨hh, congrArg (· + sizes.sum) hr⟩,
      h.quiet, ?_⟩
    exact h.within.imp id fun hle => by
      show r.handed ≤ 3 * (r.received + sizes.sum)
      omega

theorem Inv.become (h : Inv r) {c : Conn} (handshakeComplete : Bool) (hc : c.Sized ∧ c.Reachable) :
    Inv (r.become c handshakeComplete) := by
  refine ⟨rfl, hc.1, ⟨hc.2.sound.crypto, hc.2.sound.streams⟩, h.open_, h.quiet, ?_⟩
  exact h.within.imp (fun hv => by simp [ServerRun.become, hv]) id

theorem appendDatagram_room {c : Conn} (room : ℕ) (congestionOK : Bool) (hc : c.isClient = false)
    (hv : c.addressValidated = false) : (c.appendDatagram room congestionOK).1 = [] ∨
      c.bytesSent + c.maxDatagram ≤ 3 * c.bytesRecv := by
  by_cases hroom : c.bytesSent + c.maxDatagram ≤ 3 * c.bytesRecv
  · exact .inr hroom
  left
  have hnone : c.datagramLimit = none := by
    unfold Conn.datagramLimit
    rw [if_pos (by simp only [hc, hv, Bool.not_false, Bool.and_self, Bool.true_and, decide_eq_true_eq]; omega)]
  unfold Conn.appendDatagram
  rw [hnone]

theorem Inv.datagram (h : Inv r) (room : ℕ) (congestionOK : Bool) (hf : r.Real (.datagram room congestionOK)) :
    Inv (r.datagram room congestionOK) := by
  unfold ServerRun.datagram
  split_ifs with hc
  · exact h
  obtain ⟨hlink, hsound, hlen⟩ := Conn.appendDatagram_spec room congestionOK h.sized h.sound
  have hroom := appendDatagram_room room congestionOK h.server
  generalize r.c.appendDatagram room congestionOK = d at hlink hsound hlen hroom ⊢
  obtain ⟨plans, c⟩ := d
  dsimp only at hlink hsound hlen hroom ⊢
  obtain ⟨hh, hr⟩ := h.open_ (by simpa using hc)
  have hsent : c.bytesSent = r.c.bytesSent := congrArg Link.bytesSent hlink
  have hrecv : c.bytesRecv = r.c.bytesRecv := congrArg Link.bytesRecv hlink
  have hvalid : c.addressValidated = r.c.addressValidated := congrArg Link.addressValidated hlink
  have hmax : c.maxDatagram = r.c.maxDatagram := congrArg Link.maxDatagram hlink
  rw [Conn.datagramSize_congr hlink]
  refine ⟨(congrArg Link.isClient hlink).trans h.server, ?_, ⟨hsound.crypto, hsound.streams⟩, fun _ => ?_, h.quiet, ?_⟩
  · unfold Conn.Sized
    rw [hmax]
    exact h.sized
  · dsimp only
    omega
  unfold Within
  dsimp only
  rw [hvalid]
  cases hv : r.c.addressValidated with
  | true => exact .inl rfl
  | false =>
    have hsize := hlen (hf.resolve_left (by simp [hv]))
    have hw := h.within.resolve_left (by simp [hv])
    right
    rcases hroom hv with hnil | hle
    · rw [hnil]
      exact hw
    · omega

theorem Inv.closePlans (h : Inv r) (err : CloseError) :
    r.c.datagramSize (r.c.closePlans r.handshakeComplete err) = r.c.closeRoom r.handshakeComplete err := by
  unfold Conn.closePlans Conn.closeRoom
  rw [if_neg (by simp [h.server])]

theorem Inv.close (h : Inv r) (err : CloseError) (hf : r.CloseFits (.close err)) : Inv (r.close err) := by
  unfold ServerRun.close
  dsimp only
  split_ifs with hc hnone
  · exact h
  · exact { h with open_ := nofun, quiet := nofun }
  · refine ⟨h.server, h.sized, h.sound, nofun, nofun, ?_⟩
    rw [h.closePlans]
    exact hf.imp id fun hle => hle.resolve_left hc

theorem Inv.step (h : Inv r) (op : ServerOp) (hreal : r.Real op) (hf : r.CloseFits op) : Inv (r.step op) := by
  cases op with
  | arrive sizes closing => exact h.arrive sizes closing hf
  | become c handshakeComplete => exact h.become handshakeComplete hreal
  | datagram room congestionOK => exact h.datagram room congestionOK hreal
  | close err => exact h.close err hf

theorem Inv.not_within (h : Inv r) (op : ServerOp) (hf : ¬ r.CloseFits op) : ¬ (r.step op).Within := by
  cases op with
  | become c handshakeComplete => exact absurd trivial hf
  | datagram room congestionOK => exact absurd trivial hf
  | close err =>
    simp only [CloseFits, not_or, not_le] at hf
    obtain ⟨hv, hc, hlt⟩ := hf
    have hw := h.within.resolve_left hv
    have hne : r.c.closePlans r.handshakeComplete err ≠ [] := by
      intro hnil
      have := h.closePlans err
      rw [hnil] at this
      simp only [Conn.datagramSize, map_nil, sum_nil] at this
      omega
    simp only [ServerRun.step, ServerRun.close, if_neg hc, if_neg hne, Within, not_or, not_le, h.closePlans]
    exact ⟨hv, hlt⟩
  | arrive sizes closing =>
    simp only [CloseFits, not_or, not_forall, not_le] at hf
    obtain ⟨hv, size, hsize, hans, hclosing, hlt⟩ := hf
    have hc : r.closed = true := by
      by_contra hno
      rw [h.quiet (by simpa using hno)] at hsize
      exact absurd hsize (Option.not_mem_none size)
    have hpacket : r.closePacket = some size := hsize
    have hn : sizes.length ≠ 0 := by
      intro hzero
      simp [answers, hzero] at hans
    have hstep : r.step (.arrive sizes closing) =
        { r with
          received := r.received + sizes.sum
          closingSeen := r.closingSeen + sizes.length
          handed := r.handed + size } := by
      unfold ServerRun.step ServerRun.arrive
      dsimp only
      rw [if_pos hc, answerClosing]
      simp only [hpacket]
      rw [if_neg (by simp [hn, hclosing])]
      exact if_pos hans
    rw [hstep]
    simp only [Within, not_or, not_le]
    exact ⟨hv, hlt⟩

theorem inv_init : Inv machine.init where
  server := rfl
  sized := ⟨le_rfl, by decide⟩
  sound := ⟨fun _ => ⟨[], SendRun.inv_init.holds⟩, fun _ hs => absurd hs not_mem_nil⟩
  open_ := fun _ => ⟨rfl, rfl⟩
  quiet := fun _ => rfl
  within := .inr (Nat.zero_le _)

/-- A server keeps to three times what it received exactly as long as its CONNECTION_CLOSE does. -/
theorem within_iff_close_fits {ops : List ServerOp} (hreal : machine.Meets Real ops) :
    machine.Always Within ops ↔ machine.Meets CloseFits ops :=
  Machine.always_iff_meets_of inv_init (fun _ op hi hr hf => hi.step op hr hf) (fun _ hi => hi.within)
    (fun _ op hi _ hf => hi.not_within op hf) hreal

/-- A server with its part of the handshake to send, to a client whose address is not proven. -/
def flight : List SendOp := [.write (replicate 4000 9)]

def flightConn : Conn :=
  { dcid := replicate 8 1, scid := replicate 8 2,
    spaces := fun i => { hasTx := i == .initial, cryptoSend := (SendRun.machine.run flight).buf } }

theorem flightConn_reachable : flightConn.Reachable :=
  ⟨fun _ => ⟨flight, by decide +kernel, rfl⟩, fun _ hs => absurd hs not_mem_nil⟩

/-- Three datagrams in answer to one of the same size use up what the server may send; an error then ends it. -/
def closeAfterFlight : List ServerOp :=
  [.arrive [1200] false, .become flightConn false, .datagram 65536 true, .datagram 65536 true,
    .datagram 65536 true, .close (.transport 0x0a [])]

theorem streamsFit_of_nil {c : Conn} (h : c.sendQueue = []) : c.StreamsFit := by
  intro s hs
  rw [h] at hs
  exact absurd hs not_mem_nil

theorem closeAfterFlight_real : machine.Meets Real closeAfterFlight :=
  ⟨trivial, ⟨⟨by decide, by decide⟩, flightConn_reachable⟩, .inr (streamsFit_of_nil rfl),
    .inr (streamsFit_of_nil (by decide +kernel)), .inr (streamsFit_of_nil (by decide +kernel)), trivial, trivial⟩

theorem closeAfterFlight_within_iff : machine.Meets Real closeAfterFlight ∧
      (machine.Always Within closeAfterFlight ↔ machine.Meets CloseFits closeAfterFlight) :=
  ⟨closeAfterFlight_real, within_iff_close_fits closeAfterFlight_real⟩

theorem closeAfterFlight_amplifies :
    machine.Meets Real closeAfterFlight ∧ (machine.run closeAfterFlight).c.addressValidated = false ∧
      3 * (machine.run closeAfterFlight).received < (machine.run closeAfterFlight).handed :=
  ⟨closeAfterFlight_real, by decide +kernel, by decide +kernel⟩

end ServerRun
end Fib.Quic
