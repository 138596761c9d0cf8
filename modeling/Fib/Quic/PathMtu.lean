import Fib.Lib.Runs

/-! Path MTU discovery and black hole detection (http3/quic/pmtud.go), with the path changes that start and stop it
(path.go). A probe is a packet of the size asked about; the sizes between one known to be carried and one known not to
be are searched by halves. -/

namespace Fib.Quic.Mtu
open List Nat

def mtuProbeAttempts : ℕ := 3
def mtuSearchStep : ℕ := 20
def mtuBlackHoleLosses : ℕ := 3

/-- Ten minutes, in nanoseconds. -/
def mtuRaiseInterval : ℕ := 600 * 10 ^ 9

def mtuBlackHoleWait : ℕ := 60 * 10 ^ 9

def maxDatagram : ℕ := 1200
def maxDatagramLimit : ℕ := 1472
def maxDatagramIPv6 : ℕ := 1452

/-- What a remote address says of the path. -/
inductive Remote where
  | ipv4
  | other
deriving DecidableEq

def maxDatagramFor : Remote → ℕ
  | .ipv4 => maxDatagramLimit
  | .other => maxDatagramIPv6

/-- A size of the config, as `withDefaults` brings it into range. -/
def clampSize (n : ℕ) : ℕ := min (max n maxDatagram) maxDatagramLimit

/-- The config, and the size the peer takes, of which `parseParams` takes none below 1200. -/
structure MtuConfig where
  maxDatagramSize : ℕ := 0
  maxProbeDatagramSize : ℕ := 0
  disablePathMTUDiscovery : Bool := false
  maxUDPPayloadSize : ℕ := 65527
  carried : maxDatagram ≤ maxUDPPayloadSize := by decide

namespace MtuConfig

/-- A config that names no size to look for has the largest there is. -/
def withDefaults (cfg : MtuConfig) : MtuConfig :=
  { cfg with
    maxDatagramSize := clampSize cfg.maxDatagramSize
    maxProbeDatagramSize :=
      if cfg.maxProbeDatagramSize = 0 then maxDatagramLimit else clampSize cfg.maxProbeDatagramSize }

/-- The config of a connection that begins on the path to `remote`: `newConn` keeps its sizes to what that path carries,
and they stay so on every later path. -/
def forPath (cfg : MtuConfig) (remote : Remote) : MtuConfig :=
  { cfg.withDefaults with
    maxDatagramSize := min cfg.withDefaults.maxDatagramSize (maxDatagramFor remote)
    maxProbeDatagramSize := min cfg.withDefaults.maxProbeDatagramSize (maxDatagramFor remote) }

def allowed (cfg : MtuConfig) : ℕ := min cfg.maxDatagramSize cfg.maxUDPPayloadSize

def probed (cfg : MtuConfig) : ℕ := min cfg.maxProbeDatagramSize cfg.maxUDPPayloadSize

theorem maxDatagram_le_for (r : Remote) : maxDatagram ≤ maxDatagramFor r := by
  cases r <;> decide

theorem le_allowed_forPath (cfg : MtuConfig) (remote : Remote) : maxDatagram ≤ (cfg.forPath remote).allowed :=
  le_min (le_min (le_min (le_max_right _ _) (by decide)) (maxDatagram_le_for remote)) cfg.carried

end MtuConfig

/-- `mtuState`; a time is none where the source's is zero. Not in the source: `searched` is how many sizes the search
that runs has settled. -/
structure MtuState where
  on : Bool := false
  limit : ℕ := 0
  lo : ℕ := 0
  hi : ℕ := 0
  probe : ℕ := 0
  probeAt : Option ℕ := none
  inFlight : Bool := false
  probePN : ℕ := 0
  fails : ℕ := 0
  largeAcked : ℕ
  largeLost : ℕ := 0
  searched : ℕ := 0
deriving DecidableEq

structure MtuPacket where
  pn : ℕ
  size : ℕ
  time : ℕ
  mtuProbe : Bool := false
  ackEliciting : Bool := true
deriving DecidableEq

/-- The size to probe next, or the end of the search, which starts again from the top later unless the path carries the
limit. -/
def MtuState.nextMTUProbe (m : MtuState) (now : ℕ) : MtuState :=
  if m.limit ≤ m.lo then { m with probe := 0 }
  else if m.hi - m.lo < mtuSearchStep then
    { m with hi := m.limit + 1, probe := m.limit, probeAt := some (now + mtuRaiseInterval), searched := 0 }
  else { m with probe := (m.lo + m.hi) / 2, probeAt := none }

/-- A connection's 1-RTT packets in flight, and what it knows of its path. -/
structure MtuConn where
  config : MtuConfig
  remote : Remote
  handshakeComplete : Bool := false
  handshakeConfirmed : Bool := false
  maxDatagram : ℕ := Mtu.maxDatagram
  mtu : MtuState
  sent : List MtuPacket := []
  nextPN : ℕ := 0
  now : ℕ

namespace MtuConn
section
variable (c : MtuConn)

def init (config : MtuConfig) (remote : Remote) (now : ℕ) : MtuConn where
  config := config.forPath remote
  remote := remote
  mtu := { largeAcked := 0 }
  -- no packet is sent at the zero time
  now := now + 1

def setMaxDatagram (size : ℕ) : MtuConn := { c with maxDatagram := min size (maxDatagramFor c.remote) }

def setMtu (m : MtuState) : MtuConn := { c with mtu := m }

/-- The largest size discovery looks for on the path. -/
def mtuLimit : ℕ := min c.config.probed (maxDatagramFor c.remote)

/-- `startMTUDiscoveryLocked`; `dontFragment` is that the path agrees to send datagrams whole or not at all. -/
def startMTUDiscovery (dontFragment : Bool) : MtuConn :=
  if c.config.disablePathMTUDiscovery ∨ ¬ c.handshakeConfirmed ∨ c.mtuLimit ≤ c.maxDatagram ∨ ¬ dontFragment then
    c.setMtu { largeAcked := c.now }
  else
    c.setMtu
      { largeAcked := c.now, on := true, limit := c.mtuLimit, lo := c.maxDatagram, hi := c.mtuLimit + 1,
        probe := c.mtuLimit }

def onHandshakeComplete : MtuConn :=
  if c.handshakeComplete then c else { c.setMaxDatagram c.config.allowed with handshakeComplete := true }

def confirmHandshake (dontFragment : Bool) : MtuConn :=
  if c.handshakeConfirmed ∨ ¬ c.handshakeComplete then c
  else { c with handshakeConfirmed := true }.startMTUDiscovery dontFragment

def rebindHandshake (remote : Remote) : MtuConn :=
  if c.handshakeConfirmed then c else { c with remote := remote }

/-- `migrateLocked` to a path not known before. -/
def migrate (remote : Remote) : MtuConn :=
  if c.handshakeConfirmed then
    ({ c with remote := remote }.setMaxDatagram Mtu.maxDatagram).setMtu { largeAcked := c.now }
  else c

/-- `settlePathLocked` on a path that was validated, a new one or the one before. -/
def settlePath (remote : Remote) (dontFragment : Bool) : MtuConn :=
  if c.handshakeConfirmed then
    ({ c with remote := remote }.setMaxDatagram c.config.allowed).startMTUDiscovery dontFragment
  else c

/-- The part of `mtuProbeDue` that is about discovery. -/
def mtuProbeDue : ℕ :=
  if ¬ c.mtu.on ∨ c.mtu.probe = 0 ∨ c.mtu.inFlight ∨ (c.mtu.probeAt.any fun t => c.now < t) then 0 else c.mtu.probe

def sendProbe : MtuConn :=
  if c.mtuProbeDue = 0 then c
  else
    { c with
      sent := ⟨c.nextPN, c.mtuProbeDue, c.now, true, true⟩ :: c.sent
      nextPN := c.nextPN + 1
      mtu := { c.mtu with inFlight := true, probePN := c.nextPN, probeAt := none } }

def sendPacket (size : ℕ) (ackEliciting : Bool) : MtuConn :=
  { c with sent := ⟨c.nextPN, size, c.now, false, ackEliciting⟩ :: c.sent, nextPN := c.nextPN + 1 }

def forget (p : MtuPacket) : MtuConn := { c with sent := c.sent.filter fun q => q.pn ≠ p.pn }

def isProbe (p : MtuPacket) : Prop := p.mtuProbe ∧ c.mtu.inFlight ∧ p.pn = c.mtu.probePN

end

instance (c : MtuConn) (p : MtuPacket) : Decidable (c.isProbe p) := inferInstanceAs (Decidable (_ ∧ _ ∧ _))

variable (c : MtuConn)

/-- A large packet that arrived makes those lost before it no black hole. -/
def noteLarge (m : MtuState) (p : MtuPacket) : MtuState :=
  if Mtu.maxDatagram < p.size ∧ m.largeAcked < p.time then { m with largeAcked := p.time, largeLost := 0 } else m

def mtuAcked (p : MtuPacket) : MtuConn :=
  let m := noteLarge c.mtu p
  if ¬ c.isProbe p then c.setMtu m
  else
    (c.setMaxDatagram (max c.maxDatagram p.size)).setMtu
      ({ m with inFlight := false, fails := 0, lo := max m.lo p.size, searched := m.searched + 1 }.nextMTUProbe c.now)

def mtuLost (p : MtuPacket) : MtuConn :=
  if p.mtuProbe then
    if ¬ c.isProbe p then c
    else if c.mtu.fails + 1 < mtuProbeAttempts then
      c.setMtu { c.mtu with inFlight := false, fails := c.mtu.fails + 1 }
    else
      c.setMtu
        ({ c.mtu with
          inFlight := false, fails := 0, hi := min c.mtu.hi p.size, searched := c.mtu.searched + 1 }.nextMTUProbe c.now)
  else if p.ackEliciting ∧ Mtu.maxDatagram < p.size ∧ c.mtu.largeAcked < p.time then
    c.setMtu { c.mtu with largeLost := c.mtu.largeLost + 1 }
  else c

def mtuBlackHole : MtuConn :=
  (c.setMaxDatagram Mtu.maxDatagram).setMtu
    (if c.mtu.on then
      { c.mtu with
        largeAcked := c.now, largeLost := 0, lo := Mtu.maxDatagram, hi := c.mtu.limit + 1, inFlight := false,
        fails := 0, probe := c.mtu.limit, probeAt := some (c.now + mtuBlackHoleWait), searched := 0 }
    else { c.mtu with largeAcked := c.now, largeLost := 0 })

def mtuCheckBlackHole : MtuConn :=
  if mtuBlackHoleLosses ≤ c.mtu.largeLost ∧ Mtu.maxDatagram < c.maxDatagram then c.mtuBlackHole else c

/-- A probe timeout, the last of `mtuBlackHolePTOs` in a row if `enough`. -/
def onPTO (enough : Bool) : MtuConn :=
  if c.handshakeConfirmed ∧ enough ∧ Mtu.maxDatagram < c.maxDatagram then c.mtuBlackHole else c

def packet (pn : ℕ) : Option MtuPacket := c.sent.find? fun p => p.pn = pn

end MtuConn

inductive MtuOp where
  | complete
  | confirm (dontFragment : Bool)
  | rebind (remote : Remote)
  | migrate (remote : Remote)
  | settle (remote : Remote) (dontFragment : Bool)
  | probe
  | send (size : ℕ) (ackEliciting : Bool)
  | acked (pn : ℕ)
  | lost (pn : ℕ)
  | check
  | timeout (enough : Bool)
  | tick (d : ℕ)
deriving DecidableEq

namespace MtuConn

def step (c : MtuConn) : MtuOp → MtuConn
  | .complete => c.onHandshakeComplete
  | .confirm dontFragment => c.confirmHandshake dontFragment
  | .rebind remote => c.rebindHandshake remote
  | .migrate remote => c.migrate remote
  | .settle remote dontFragment => c.settlePath remote dontFragment
  | .probe => c.sendProbe
  | .send size ackEliciting => c.sendPacket size ackEliciting
  | .acked pn =>
    match c.packet pn with
    | none => c
    | some p => (c.mtuAcked p).forget p
  | .lost pn =>
    match c.packet pn with
    | none => c
    | some p => (c.mtuLost p).forget p
  | .check => c.mtuCheckBlackHole
  | .timeout enough => c.onPTO enough
  | .tick d => { c with now := c.now + d }

def machine (config : MtuConfig) (remote : Remote) (now : ℕ) : Machine MtuConn MtuOp := ⟨init config remote now, step⟩

/-! ### The search -/

/-- A search between the size the connection sends and `hi`. -/
structure Searching (m : MtuState) (size : ℕ) : Prop where
  lo_eq : m.lo = size
  lt : m.lo < m.hi
  hi_le : m.hi ≤ m.limit + 1
  floor : Mtu.maxDatagram ≤ m.lo
  limit : Mtu.maxDatagram < m.limit
  probe : m.probe = 0 ∨ m.lo < m.probe ∧ m.probe < m.hi
  waits : m.inFlight = true → m.probe ≠ 0
  fails : m.fails < mtuProbeAttempts
  ends : m.searched + (m.hi - m.lo) ≤ m.limit + 1 - Mtu.maxDatagram

variable {m : MtuState} {c : MtuConn} {p : MtuPacket} {size now : ℕ}

theorem nextMTUProbe_fields (m : MtuState) (now : ℕ) :
    (m.nextMTUProbe now).on = m.on ∧ (m.nextMTUProbe now).limit = m.limit ∧ (m.nextMTUProbe now).lo = m.lo ∧
      (m.nextMTUProbe now).inFlight = m.inFlight ∧ (m.nextMTUProbe now).largeAcked = m.largeAcked := by
  unfold MtuState.nextMTUProbe
  split_ifs <;> exact ⟨rfl, rfl, rfl, rfl, rfl⟩

/-- With a size settled, what is left to search is as narrow as it was made, and the next probe is in between. -/
theorem searching_next (hlo : m.lo = size) (hlt : m.lo < m.hi) (hhi : m.hi ≤ m.limit + 1)
    (hfloor : Mtu.maxDatagram ≤ m.lo) (hlimit : Mtu.maxDatagram < m.limit) (hflight : m.inFlight = false)
    (hfails : m.fails = 0) (hends : m.searched + (m.hi - m.lo) ≤ m.limit + 1 - Mtu.maxDatagram) :
    Searching (m.nextMTUProbe now) size := by
  unfold MtuState.nextMTUProbe
  have hstep : mtuSearchStep = 20 := rfl
  have hattempts : m.fails < mtuProbeAttempts := by
    rw [hfails]
    decide
  have hno : m.inFlight = true → False := by
    rw [hflight]
    exact Bool.false_ne_true
  split_ifs with hdone hclose
  · exact ⟨hlo, hlt, hhi, hfloor, hlimit, .inl rfl, fun h => (hno h).elim, hattempts, hends⟩
  · exact ⟨hlo, by dsimp only; omega, le_rfl, hfloor, hlimit, .inr ⟨by dsimp only; omega, lt_succ_self _⟩,
      fun h => (hno h).elim, hattempts, by dsimp only; omega⟩
  · exact ⟨hlo, hlt, hhi, hfloor, hlimit, .inr ⟨by dsimp only; omega, by dsimp only; omega⟩, fun h => (hno h).elim,
      hattempts, hends⟩

/-- What a connection's discovery comes to in any order of what happens to it, after it began with `cfg` on the path to
`r`. -/
structure Ok (cfg : MtuConfig) (r : Remote) (c : MtuConn) : Prop where
  config : c.config = cfg.forPath r
  floor : Mtu.maxDatagram ≤ c.maxDatagram
  search : c.mtu.on = true → Searching c.mtu c.maxDatagram
  carried : c.mtu.on = true → c.mtu.limit ≤ maxDatagramFor c.remote ∧ c.handshakeConfirmed = true
  complete : c.handshakeConfirmed = true → c.handshakeComplete = true
  off : c.mtu.on = false → c.mtu.inFlight = false
  clock : c.mtu.largeAcked ≤ c.now
  sent : ∀ p ∈ c.sent, p.pn < c.nextPN ∧ p.time ≤ c.now
  -- a probe that is not the one waited for was sent before the path was last known to be one, or looked at anew
  probes : ∀ p ∈ c.sent, p.mtuProbe = true →
    if c.isProbe p then p.size = c.mtu.probe else p.time ≤ c.mtu.largeAcked

variable {cfg : MtuConfig} {r : Remote}

theorem ok_init (cfg : MtuConfig) (r : Remote) (now : ℕ) : Ok cfg r (init cfg r now) :=
  ⟨rfl, le_rfl, nofun, nofun, nofun, fun _ => rfl, zero_le _, fun _ hp => absurd hp not_mem_nil,
    fun _ hp => absurd hp not_mem_nil⟩

theorem Ok.allowed (h : Ok cfg r c) : Mtu.maxDatagram ≤ c.config.allowed := by
  rw [h.config]
  exact cfg.le_allowed_forPath r

section
variable (h : Ok cfg r c)
include h

/-- Every probe in flight is forgotten, as the discovery is at a time no earlier than they were sent. -/
theorem stale_probes {c' : MtuConn} (hsent : c'.sent = c.sent) (hflight : c'.mtu.inFlight = false)
    (hlarge : c'.mtu.largeAcked = c.now) :
    ∀ p ∈ c'.sent, p.mtuProbe = true → if c'.isProbe p then p.size = c'.mtu.probe else p.time ≤ c'.mtu.largeAcked := by
  intro p hp _
  rw [if_neg, hlarge]
  · rw [hsent] at hp
    exact (h.sent p hp).2
  · rintro ⟨-, hf, -⟩
    rw [hflight] at hf
    exact Bool.false_ne_true hf

theorem Ok.startMTUDiscovery (dontFragment : Bool) : Ok cfg r (c.startMTUDiscovery dontFragment) := by
  unfold MtuConn.startMTUDiscovery
  split_ifs with hno
  · exact ⟨h.config, h.floor, nofun, nofun, h.complete, fun _ => rfl, le_rfl, h.sent, stale_probes h rfl rfl rfl⟩
  have hconf : c.handshakeConfirmed = true := by
    by_contra hc
    exact hno (.inr (.inl hc))
  have hlt : c.maxDatagram < c.mtuLimit := by
    by_contra hc
    exact hno (.inr (.inr (.inl (not_lt.1 hc))))
  have hfloor := h.floor
  refine ⟨h.config, h.floor, fun _ => ?_, fun _ => ⟨min_le_right _ _, hconf⟩, h.complete,
    fun hoff => absurd hoff (by simp [setMtu]), le_rfl, h.sent, stale_probes h rfl rfl rfl⟩
  exact ⟨rfl, lt_succ_of_lt hlt, le_rfl, hfloor, lt_of_le_of_lt hfloor hlt, .inr ⟨hlt, lt_succ_self _⟩,
    nofun, zero_lt_succ _, by dsimp only [setMtu]; omega⟩

theorem Ok.setPath (remote : Remote) (hsize : Mtu.maxDatagram ≤ size) :
    Ok cfg r (({ c with remote := remote }.setMaxDatagram size).setMtu { largeAcked := c.now }) :=
  ⟨h.config, le_min hsize (MtuConfig.maxDatagram_le_for _), nofun, nofun,
    h.complete, fun _ => rfl, le_rfl, h.sent, stale_probes h rfl rfl rfl⟩

theorem Ok.off_of (hc : ¬ c.handshakeConfirmed = true) : ¬ c.mtu.on = true :=
  fun hon => hc (h.carried hon).2

theorem Ok.onHandshakeComplete : Ok cfg r c.onHandshakeComplete := by
  unfold MtuConn.onHandshakeComplete
  cases hc : c.handshakeComplete with
  | true =>
    rw [if_pos rfl]
    exact h
  | false =>
    have hno := h.off_of fun hconf => Bool.false_ne_true (hc.symm.trans (h.complete hconf))
    rw [if_neg Bool.false_ne_true]
    exact { h with
      floor := le_min h.allowed (MtuConfig.maxDatagram_le_for _)
      search := fun hon => absurd hon hno
      carried := fun hon => absurd hon hno
      complete := fun _ => rfl }

theorem Ok.confirmHandshake (dontFragment : Bool) : Ok cfg r (c.confirmHandshake dontFragment) := by
  unfold MtuConn.confirmHandshake
  split_ifs with hno
  · exact h
  have hcomplete : c.handshakeComplete = true := by
    by_contra hc
    exact hno (.inr hc)
  apply Ok.startMTUDiscovery
  exact { h with carried := fun hon => ⟨(h.carried hon).1, rfl⟩, complete := fun _ => hcomplete }

theorem Ok.rebindHandshake (remote : Remote) : Ok cfg r (c.rebindHandshake remote) := by
  unfold MtuConn.rebindHandshake
  split_ifs with hc
  · exact h
  · exact { h with carried := fun hon => absurd hon (h.off_of hc) }

theorem Ok.migrate (remote : Remote) : Ok cfg r (c.migrate remote) := by
  unfold MtuConn.migrate
  split_ifs
  · exact h.setPath remote le_rfl
  · exact h

theorem Ok.settlePath (remote : Remote) (dontFragment : Bool) : Ok cfg r (c.settlePath remote dontFragment) := by
  unfold MtuConn.settlePath
  split_ifs
  · -- discovery starts from nothing, so that it may as well have been stopped first
    exact (h.setPath remote h.allowed).startMTUDiscovery dontFragment
  · exact h

/-! ### Packets -/

theorem Ok.sendPacket (size : ℕ) (ackEliciting : Bool) : Ok cfg r (c.sendPacket size ackEliciting) := by
  refine { h with sent := fun p hp => ?_, probes := fun p hp hprobe => ?_ }
  · rcases mem_cons.1 hp with rfl | hp
    · exact ⟨lt_succ_self _, le_rfl⟩
    · exact ⟨lt_succ_of_lt (h.sent p hp).1, (h.sent p hp).2⟩
  · rcases mem_cons.1 hp with rfl | hp
    · exact absurd hprobe Bool.false_ne_true
    · exact h.probes p hp hprobe

end

theorem probeDue_ne_zero (h : c.mtuProbeDue ≠ 0) :
    c.mtu.on = true ∧ c.mtu.probe ≠ 0 ∧ c.mtu.inFlight = false ∧ c.mtuProbeDue = c.mtu.probe := by
  unfold mtuProbeDue at h ⊢
  by_cases hno : ¬ c.mtu.on ∨ c.mtu.probe = 0 ∨ c.mtu.inFlight ∨ (c.mtu.probeAt.any fun t => c.now < t)
  · rw [if_pos hno] at h
    exact absurd rfl h
  · rw [if_neg hno]
    rw [not_or, not_or, not_or, not_not] at hno
    exact ⟨hno.1, hno.2.1, Bool.eq_false_iff.2 hno.2.2.1, rfl⟩

theorem Ok.sendProbe (h : Ok cfg r c) : Ok cfg r c.sendProbe := by
  unfold MtuConn.sendProbe
  split_ifs with hno
  · exact h
  obtain ⟨hon, hprobe, hflight, hdue⟩ := probeDue_ne_zero hno
  obtain ⟨h₁, h₂, h₃, h₄, h₅, h₆, -, h₈, h₉⟩ := h.search hon
  refine ⟨h.config, h.floor, fun _ => ⟨h₁, h₂, h₃, h₄, h₅, h₆, fun _ => hprobe, h₈, h₉⟩, h.carried, h.complete,
    fun hoff => absurd (hon.symm.trans hoff) (by decide), h.clock, fun p hp => ?_, fun p hp hmtu => ?_⟩
  · rcases mem_cons.1 hp with rfl | hp
    · exact ⟨lt_succ_self _, le_rfl⟩
    · exact ⟨lt_succ_of_lt (h.sent p hp).1, (h.sent p hp).2⟩
  rcases mem_cons.1 hp with rfl | hp
  · rw [if_pos ⟨rfl, rfl, rfl⟩]
    exact hdue
  -- the one waited for is the one just sent
  have hold := h.probes p hp hmtu
  rw [if_neg fun hi => Bool.false_ne_true (hflight.symm.trans hi.2.1)] at hold
  rw [if_neg fun hi => absurd hi.2.2 (h.sent p hp).1.ne]
  exact hold

theorem Ok.forget (h : Ok cfg r c) (p : MtuPacket) : Ok cfg r (c.forget p) :=
  ⟨h.config, h.floor, h.search, h.carried, h.complete, h.off, h.clock, fun q hq => h.sent q (mem_of_mem_filter hq),
    fun q hq => h.probes q (mem_of_mem_filter hq)⟩

theorem packet_mem {pn : ℕ} (h : c.packet pn = some p) : p ∈ c.sent := mem_of_find?_eq_some h

section
variable (h : Ok cfg r c)
include h

theorem Ok.setLarge {a : ℕ} (n : ℕ) (hle : c.mtu.largeAcked ≤ a) (hnow : a ≤ c.now) :
    Ok cfg r (c.setMtu { c.mtu with largeAcked := a, largeLost := n }) := by
  refine { h with search := fun hon => ?_, clock := hnow, probes := fun p hp hprobe => ?_ }
  · obtain ⟨h₁, h₂, h₃, h₄, h₅, h₆, h₇, h₈, h₉⟩ := h.search hon
    exact ⟨h₁, h₂, h₃, h₄, h₅, h₆, h₇, h₈, h₉⟩
  have hold := h.probes p hp hprobe
  split_ifs with hi
  · rw [if_pos (show c.isProbe p from hi)] at hold
    exact hold
  · rw [if_neg (show ¬ c.isProbe p from hi)] at hold
    exact hold.trans hle

theorem noteLarge_eq (hp : p ∈ c.sent) : ∃ a n, noteLarge c.mtu p =
    { c.mtu with largeAcked := a, largeLost := n } ∧ c.mtu.largeAcked ≤ a ∧ a ≤ c.now := by
  unfold noteLarge
  split_ifs with hl
  · exact ⟨p.time, 0, rfl, hl.2.le, (h.sent p hp).2⟩
  · exact ⟨c.mtu.largeAcked, c.mtu.largeLost, rfl, le_rfl, h.clock⟩

theorem Ok.probe (hp : p ∈ c.sent) (hi : c.isProbe p) : c.mtu.on = true ∧ c.mtu.lo < p.size ∧ p.size < c.mtu.hi := by
  have hon : c.mtu.on = true := by
    by_contra hno
    exact Bool.false_ne_true ((h.off (Bool.eq_false_iff.2 hno)).symm.trans hi.2.1)
  have hsize := h.probes p hp hi.1
  rw [if_pos hi] at hsize
  have hs := h.search hon
  have hin := hs.probe.resolve_left (hs.waits hi.2.1)
  rw [hsize]
  exact ⟨hon, hin⟩

theorem settled_probes {c' : MtuConn} (hi : c.isProbe p)
    (hsent : c'.sent = c.sent.filter fun q => q.pn ≠ p.pn) (hflight : c'.mtu.inFlight = false)
    (hlarge : c.mtu.largeAcked ≤ c'.mtu.largeAcked) :
    ∀ q ∈ c'.sent, q.mtuProbe = true → if c'.isProbe q then q.size = c'.mtu.probe else q.time ≤ c'.mtu.largeAcked := by
  intro q hq hmtu
  rw [hsent] at hq
  obtain ⟨hin, hne⟩ := mem_filter.1 hq
  have hold := h.probes q hin hmtu
  rw [if_neg fun hiq => of_decide_eq_true hne (hiq.2.2.trans hi.2.2.symm)] at hold
  rw [if_neg fun hiq => Bool.false_ne_true (hflight.symm.trans hiq.2.1)]
  exact hold.trans hlarge

/-- What is left of the state once the probe waited for is settled, but for the search itself. -/
theorem Ok.settled (hp : p ∈ c.sent) (hi : c.isProbe p) {m : MtuState} (hsize : Mtu.maxDatagram ≤ size)
    (hsearch : Searching m size) (hon : m.on = c.mtu.on) (hlimit : m.limit = c.mtu.limit) (hflight : m.inFlight = false)
    (hle : c.mtu.largeAcked ≤ m.largeAcked) (hnow : m.largeAcked ≤ c.now) :
    Ok cfg r ({ c with maxDatagram := size, mtu := m }.forget p) := by
  obtain ⟨hon', -⟩ := h.probe hp hi
  refine ⟨h.config, hsize, fun _ => hsearch, fun _ => ?_, h.complete, fun hoff => ?_, hnow,
    fun q hq => h.sent q (mem_of_mem_filter hq), settled_probes h hi rfl hflight hle⟩
  · have hcarried := h.carried hon'
    exact ⟨hlimit.trans_le hcarried.1, hcarried.2⟩
  · exact absurd (hon'.symm.trans (hon.symm.trans hoff)) (by decide)

theorem Ok.mtuAcked (hp : p ∈ c.sent) : Ok cfg r ((c.mtuAcked p).forget p) := by
  obtain ⟨a, n, hm, hle, hnow⟩ := noteLarge_eq h hp
  unfold MtuConn.mtuAcked
  rw [hm]
  by_cases hi : c.isProbe p
  · rw [if_neg (not_not.2 hi)]
    obtain ⟨hon, hlo, hhi⟩ := h.probe hp hi
    obtain ⟨h₁, h₂, h₃, h₄, h₅, h₆, h₇, h₈, h₉⟩ := h.search hon
    have hlimit := (h.carried hon).1
    have hmax : min (max c.maxDatagram p.size) (maxDatagramFor c.remote) = p.size := by omega
    have hlo' : max c.mtu.lo p.size = p.size := max_eq_right hlo.le
    obtain ⟨f₁, f₂, -, f₄, f₆⟩ := nextMTUProbe_fields
      { c.mtu with
        largeAcked := a, largeLost := n, inFlight := false, fails := 0, lo := max c.mtu.lo p.size,
        searched := c.mtu.searched + 1 } c.now
    refine h.settled hp hi ?_ ?_ f₁ f₂ f₄ (f₆.symm ▸ hle) (f₆.symm ▸ hnow)
    · dsimp only [setMaxDatagram]
      omega
    · dsimp only [setMaxDatagram]
      rw [hmax]
      exact searching_next hlo' (by dsimp only; omega) h₃ (by dsimp only; omega) h₅ rfl rfl (by dsimp only; omega)
  · rw [if_pos hi]
    exact (h.setLarge n hle hnow).forget p

theorem Ok.mtuLost (hp : p ∈ c.sent) : Ok cfg r ((c.mtuLost p).forget p) := by
  unfold MtuConn.mtuLost
  by_cases hmtu : p.mtuProbe
  · rw [if_pos hmtu]
    by_cases hi : c.isProbe p
    · rw [if_neg (not_not.2 hi)]
      obtain ⟨hon, hlo, hhi⟩ := h.probe hp hi
      obtain ⟨h₁, h₂, h₃, h₄, h₅, h₆, h₇, h₈, h₉⟩ := h.search hon
      by_cases hagain : c.mtu.fails + 1 < mtuProbeAttempts
      · rw [if_pos hagain]
        exact h.settled hp hi h.floor ⟨h₁, h₂, h₃, h₄, h₅, h₆, nofun, hagain, h₉⟩ rfl rfl rfl le_rfl h.clock
      rw [if_neg hagain]
      obtain ⟨f₁, f₂, -, f₄, f₆⟩ := nextMTUProbe_fields
        { c.mtu with
          inFlight := false, fails := 0, hi := min c.mtu.hi p.size, searched := c.mtu.searched + 1 } c.now
      refine h.settled hp hi h.floor ?_ f₁ f₂ f₄ (f₆.symm ▸ le_rfl) (f₆.symm ▸ h.clock)
      exact searching_next h₁ (by dsimp only; omega) (by dsimp only; omega) h₄ h₅ rfl rfl (by dsimp only; omega)
    · rw [if_pos hi]
      exact h.forget p
  · rw [if_neg hmtu]
    split_ifs
    · exact (h.setLarge _ le_rfl h.clock).forget p
    · exact h.forget p

theorem Ok.mtuBlackHole : Ok cfg r c.mtuBlackHole := by
  have hsize : min Mtu.maxDatagram (maxDatagramFor c.remote) = Mtu.maxDatagram :=
    min_eq_left (MtuConfig.maxDatagram_le_for _)
  unfold MtuConn.mtuBlackHole
  cases hon : c.mtu.on with
  | true =>
    have hlimit := (h.search hon).limit
    rw [if_pos rfl]
    refine ⟨h.config, hsize.ge, fun _ => ?_, fun _ => h.carried hon, h.complete, fun hoff => ?_, le_rfl, h.sent,
      stale_probes h rfl rfl rfl⟩
    · exact ⟨hsize.symm, lt_succ_of_lt hlimit, le_rfl, le_rfl, hlimit, .inr ⟨hlimit, lt_succ_self _⟩,
        nofun, zero_lt_succ _, by dsimp only [setMtu]; omega⟩
    · exact absurd (hon.symm.trans hoff) (by decide)
  | false =>
    rw [if_neg Bool.false_ne_true]
    have hno : c.mtu.on = true → False := fun hon' => Bool.false_ne_true (hon.symm.trans hon')
    exact ⟨h.config, hsize.ge, fun hon' => (hno hon').elim, fun hon' => (hno hon').elim, h.complete, h.off, le_rfl,
      h.sent, stale_probes h rfl (h.off hon) rfl⟩

theorem Ok.step (op : MtuOp) : Ok cfg r (c.step op) := by
  cases op with
  | complete => exact h.onHandshakeComplete
  | confirm dontFragment => exact h.confirmHandshake dontFragment
  | rebind remote => exact h.rebindHandshake remote
  | migrate remote => exact h.migrate remote
  | settle remote dontFragment => exact h.settlePath remote dontFragment
  | probe => exact h.sendProbe
  | send size ackEliciting => exact h.sendPacket size ackEliciting
  | acked pn =>
    simp only [MtuConn.step]
    cases hp : c.packet pn with
    | none => exact h
    | some p => exact h.mtuAcked (packet_mem hp)
  | lost pn =>
    simp only [MtuConn.step]
    cases hp : c.packet pn with
    | none => exact h
    | some p => exact h.mtuLost (packet_mem hp)
  | check =>
    simp only [MtuConn.step, mtuCheckBlackHole]
    split_ifs
    · exact h.mtuBlackHole
    · exact h
  | timeout enough =>
    simp only [MtuConn.step, onPTO]
    split_ifs
    · exact h.mtuBlackHole
    · exact h
  | tick d =>
    exact { h with clock := h.clock.trans (Nat.le_add_right ..), sent := fun p hp => ⟨(h.sent p hp).1,
      (h.sent p hp).2.trans (Nat.le_add_right ..)⟩ }

end

theorem ok_run (config : MtuConfig) (remote : Remote) (now : ℕ) (ops : List MtuOp) :
    Ok config remote ((machine config remote now).run ops) :=
  Machine.invariant_all (ok_init config remote now) (fun _ op h => h.step op) ops

/-! ### What each step may do -/

/-- A size is settled: what is left to search is narrower, and the search goes on halfway, or is over and, unless the
path carries the limit, starts again from the top later. -/
def Narrowed (m m' : MtuState) (now : ℕ) : Prop :=
  ∃ lo hi, lo < hi ∧ hi - lo < m.hi - m.lo ∧ m'.lo = lo ∧
    (m.limit ≤ lo ∧ m'.probe = 0 ∨
      lo < m.limit ∧ hi - lo < mtuSearchStep ∧ m'.hi = m.limit + 1 ∧ m'.probe = m.limit ∧
        m'.probeAt = some (now + mtuRaiseInterval) ∨
      lo < m.limit ∧ mtuSearchStep ≤ hi - lo ∧ m'.hi = hi ∧ m'.probe = (lo + hi) / 2)

theorem narrowed_next {m' : MtuState} (hlimit : m'.limit = m.limit) (hlt : m'.lo < m'.hi)
    (hnarrow : m'.hi - m'.lo < m.hi - m.lo) : Narrowed m (m'.nextMTUProbe now) now := by
  refine ⟨m'.lo, m'.hi, hlt, hnarrow, (nextMTUProbe_fields m' now).2.2.1, ?_⟩
  unfold MtuState.nextMTUProbe
  rw [hlimit]
  split_ifs with hdone hclose
  · exact .inl ⟨hdone, rfl⟩
  · exact .inr (.inl ⟨not_le.1 hdone, hclose, rfl, rfl, rfl⟩)
  · exact .inr (.inr ⟨not_le.1 hdone, not_lt.1 hclose, rfl, rfl⟩)

section
variable (h : Ok cfg r c) (hp : p ∈ c.sent)
include h hp

theorem Ok.narrowed_acked (hi : c.isProbe p) : Narrowed c.mtu (c.mtuAcked p).mtu c.now := by
  obtain ⟨a, n, hm, -, -⟩ := noteLarge_eq h hp
  obtain ⟨-, hlo, hhi⟩ := h.probe hp hi
  unfold MtuConn.mtuAcked
  rw [hm, if_neg (not_not.2 hi)]
  exact narrowed_next rfl (by dsimp only; omega) (by dsimp only; omega)

theorem Ok.narrowed_lost (hi : c.isProbe p) (hlast : mtuProbeAttempts ≤ c.mtu.fails + 1) :
    Narrowed c.mtu (c.mtuLost p).mtu c.now := by
  obtain ⟨-, hlo, hhi⟩ := h.probe hp hi
  unfold MtuConn.mtuLost
  rw [if_pos hi.1, if_neg (not_not.2 hi), if_neg (not_lt.2 hlast)]
  exact narrowed_next rfl (by dsimp only; omega) (by dsimp only; omega)

/-- A probe that is not waited for any more says nothing: if it was large, it was sent too early for that too. -/
theorem Ok.stale (hmtu : p.mtuProbe = true) (hi : ¬ c.isProbe p) : c.mtuAcked p = c ∧ c.mtuLost p = c := by
  have htime := h.probes p hp hmtu
  rw [if_neg hi] at htime
  constructor
  · unfold MtuConn.mtuAcked noteLarge
    rw [if_pos hi, if_neg fun hl => absurd hl.2 (not_lt.2 htime)]
    rfl
  · unfold MtuConn.mtuLost
    rw [if_pos hmtu, if_pos hi]

end

theorem maxDatagram_start (c : MtuConn) (dontFragment : Bool) :
    (c.startMTUDiscovery dontFragment).maxDatagram = c.maxDatagram ∧
      (c.startMTUDiscovery dontFragment).remote = c.remote := by
  unfold startMTUDiscovery
  split_ifs <;> exact ⟨rfl, rfl⟩

theorem maxDatagram_lost (c : MtuConn) (p : MtuPacket) : (c.mtuLost p).maxDatagram = c.maxDatagram := by
  unfold mtuLost
  split_ifs <;> rfl

theorem Ok.stays (h : Ok cfg r c) {op : MtuOp} (hcomplete : op ≠ .complete) (hsettle : ∀ r d, op ≠ .settle r d)
    (hacked : ∀ pn, op ≠ .acked pn) : (c.step op).maxDatagram ≤ c.maxDatagram := by
  cases op with
  | complete => exact absurd rfl hcomplete
  | settle r d => exact absurd rfl (hsettle r d)
  | acked pn => exact absurd rfl (hacked pn)
  | send | tick => exact le_rfl
  | rebind | probe =>
    simp only [MtuConn.step, MtuConn.rebindHandshake, MtuConn.sendProbe]
    split_ifs <;> exact le_rfl
  | confirm dontFragment =>
    simp only [MtuConn.step, MtuConn.confirmHandshake]
    split_ifs
    · exact le_rfl
    · exact (maxDatagram_start _ dontFragment).1.le
  | migrate remote =>
    simp only [MtuConn.step, MtuConn.migrate]
    split_ifs
    · exact (min_le_left _ _).trans h.floor
    · exact le_rfl
  | lost pn =>
    simp only [MtuConn.step]
    cases c.packet pn with
    | none => exact le_rfl
    | some p => exact (maxDatagram_lost c p).le
  | check | timeout =>
    simp only [MtuConn.step, mtuCheckBlackHole, onPTO]
    split_ifs
    · exact (min_le_left _ _).trans h.floor
    · exact le_rfl

theorem Ok.raised_acked (h : Ok cfg r c) (hp : p ∈ c.sent) (hr : c.maxDatagram < (c.mtuAcked p).maxDatagram) :
    c.isProbe p ∧ (c.mtuAcked p).maxDatagram = p.size := by
  unfold MtuConn.mtuAcked at hr ⊢
  by_cases hi : c.isProbe p
  · obtain ⟨hon, hlo, hhi⟩ := h.probe hp hi
    have hlimit := (h.carried hon).1
    have hsize := (h.search hon).lo_eq
    have hle := (h.search hon).hi_le
    rw [if_neg (not_not.2 hi)]
    dsimp only [setMtu, setMaxDatagram]
    exact ⟨hi, by omega⟩
  · rw [if_pos hi] at hr
    exact absurd hr (lt_irrefl _)

/-- The size goes up only as a probe is acknowledged, and to its size; or as the handshake completes or a path is
settled on, and to what the config and the peer allow there. -/
theorem Ok.raised (h : Ok cfg r c) {op : MtuOp} (hr : c.maxDatagram < (c.step op).maxDatagram) :
    (∃ pn p, op = .acked pn ∧ c.packet pn = some p ∧ c.isProbe p ∧ (c.step op).maxDatagram = p.size) ∨
      ((op = .complete ∨ ∃ remote dontFragment, op = .settle remote dontFragment) ∧
        (c.step op).maxDatagram = min c.config.allowed (maxDatagramFor (c.step op).remote)) := by
  cases op with
  | complete =>
    simp only [MtuConn.step, MtuConn.onHandshakeComplete] at hr ⊢
    split_ifs at hr ⊢
    · exact absurd hr (lt_irrefl _)
    · exact .inr ⟨.inl trivial, rfl⟩
  | settle remote dontFragment =>
    simp only [MtuConn.step, MtuConn.settlePath] at hr ⊢
    split_ifs at hr ⊢
    · rw [(maxDatagram_start _ _).1, (maxDatagram_start _ _).2]
      exact .inr ⟨.inr ⟨remote, dontFragment, rfl⟩, rfl⟩
    · exact absurd hr (lt_irrefl _)
  | acked pn =>
    simp only [MtuConn.step] at hr ⊢
    cases hp : c.packet pn with
    | none =>
      rw [hp] at hr
      exact absurd hr (lt_irrefl _)
    | some p =>
      rw [hp] at hr
      exact .inl ⟨pn, p, rfl, hp, h.raised_acked (packet_mem hp) hr⟩
  | _ => exact absurd hr (not_lt.2 (h.stays nofun nofun nofun))

/-- What discovery keeps to, whatever has happened and whatever comes next, on a connection that began with `config` on
the path to `remote`. -/
structure Sound (config : MtuConfig) (remote : Remote) (c : MtuConn) : Prop where
  bounds : c.mtu.on = true → c.mtu.lo < c.mtu.hi ∧ c.mtu.hi ≤ c.mtu.limit + 1 ∧
    (c.mtu.probe = 0 ∨ c.mtu.lo < c.mtu.probe ∧ c.mtu.probe ≤ c.mtu.limit)
  raised : ∀ op, c.maxDatagram < (c.step op).maxDatagram →
    (∃ pn p, op = .acked pn ∧ c.packet pn = some p ∧ c.isProbe p ∧ (c.step op).maxDatagram = p.size) ∨
      ((op = .complete ∨ ∃ r dontFragment, op = .settle r dontFragment) ∧
        (c.step op).maxDatagram = min (config.forPath remote).allowed (maxDatagramFor (c.step op).remote))
  acked : ∀ pn p, c.packet pn = some p → c.isProbe p → Narrowed c.mtu (c.step (.acked pn)).mtu c.now
  lost : ∀ pn p, c.packet pn = some p → c.isProbe p → mtuProbeAttempts ≤ c.mtu.fails + 1 →
    Narrowed c.mtu (c.step (.lost pn)).mtu c.now
  ends : c.mtu.on = true → c.mtu.fails < mtuProbeAttempts ∧
    c.mtu.searched + (c.mtu.hi - c.mtu.lo) ≤ c.mtu.limit + 1 - Mtu.maxDatagram
  stale : ∀ pn p, c.packet pn = some p → p.mtuProbe = true → ¬ c.isProbe p →
    c.step (.acked pn) = c.forget p ∧ c.step (.lost pn) = c.forget p

theorem Ok.sound (h : Ok cfg r c) : Sound cfg r c := by
  refine ⟨fun hon => ?_, fun _ => h.config ▸ h.raised, fun pn p hp hi => ?_, fun pn p hp hi hlast => ?_, fun hon => ?_,
    fun pn p hp hmtu hi => ?_⟩
  · have hs := h.search hon
    have hle := hs.hi_le
    exact ⟨hs.lt, hle, hs.probe.imp_right fun hin => ⟨hin.1, by omega⟩⟩
  · simp only [MtuConn.step, hp]
    exact h.narrowed_acked (packet_mem hp) hi
  · simp only [MtuConn.step, hp]
    exact h.narrowed_lost (packet_mem hp) hi hlast
  · exact ⟨(h.search hon).fails, (h.search hon).ends⟩
  · obtain ⟨hacked, hlost⟩ := h.stale (packet_mem hp) hmtu hi
    simp only [MtuConn.step, hp, hacked, hlost, and_self]

/-- In every order of acknowledgements, losses, timeouts and path changes. -/
theorem mtu_search_sound (config : MtuConfig) (remote : Remote) (now : ℕ) (ops : List MtuOp) :
    Sound config remote ((machine config remote now).run ops) :=
  (ok_run config remote now ops).sound

def allows1400 : MtuConfig := { maxDatagramSize := 1400 }

/-- A client's address changes, and the new path is validated: the size goes from 1200 to 1400 without a probe sent. -/
theorem settled_raises :
    ((machine allows1400 .ipv4 0).run [.complete, .confirm true, .migrate .other]).maxDatagram = 1200 ∧
      ((machine allows1400 .ipv4 0).run
        [.complete, .confirm true, .migrate .other, .settle .other true]).maxDatagram = 1400 ∧
      ((machine allows1400 .ipv4 0).run
        [.complete, .confirm true, .migrate .other, .settle .other true]).nextPN = 0 := by
  decide

end MtuConn
end Fib.Quic.Mtu
