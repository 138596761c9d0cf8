import Fib.Quic.ParamsExact
import Fib.Lib.Runs

/-! The open streams of a connection and the limits on them (`openStreamLocked`, `newStream`, `streamByID`,
`peerStream`, `maybeFinish` in http3/quic/conn.go). A stream is in an array of 64 slots, in that of its sequence
number, or in a map if the slot was taken as it opened. -/

namespace Fib.Quic
open List Function

/-- A power of two. -/
def bySeqSlots : ℕ := 64

def isBidi (id : ℕ) : Bool := id / 2 % 2 = 0
def isClientStream (id : ℕ) : Bool := id % 2 = 0

def streamID (n low : ℕ) : ℕ := 4 * n % 2 ^ 64 + low

/-- The streams of one direction: how many this side opened and may, how many the peer opened, how many of those are
finished, and the limit given to it. `openedBidi`, `peerMaxBidi`, `peerOpenedBidi`, `peerDoneBidi` and `maxBidi` are of
the two-way streams. -/
structure StreamCounts where
  opened : ℕ := 0
  peerMax : ℕ := 0
  peerOpened : ℕ := 0
  peerDone : ℕ := 0
  max : ℕ
  maxStreamsPending : Bool := false
deriving DecidableEq

namespace StreamCounts

/-- A stream of the peer's is finished, of which it may have `incoming` open. -/
def finished (incoming : ℕ) (c : StreamCounts) : StreamCounts :=
  let done := c.peerDone + 1
  if (c.max + 2 ^ 64 - done) % 2 ^ 64 < incoming / 2 + 1 then
    { c with peerDone := done, max := (done + incoming) % 2 ^ 64, maxStreamsPending := true }
  else { c with peerDone := done }

end StreamCounts

inductive StreamError where
  | wrongDirection
  | notOpened
  | tooMany
deriving DecidableEq

def StreamError.code : StreamError → ℕ × String
  | wrongDirection => (0x05, "frame for the wrong direction of a unidirectional stream")
  | notOpened => (0x05, "frame for a stream not yet opened")
  | tooMany => (0x04, "too many streams")

/-- A connection's streams, each by its ID; of two-way streams is what is at `true`. Not in the source: `live` has the
streams set up that are not `done`. -/
structure StreamTable where
  isClient : Bool
  maxIncoming : Bool → UInt64
  counts : Bool → StreamCounts
  bySeq : ℕ → Option ℕ := fun _ => none
  streams : List ℕ := []
  closed : Bool := false
  live : List ℕ := []

open StreamTable

namespace StreamTable
variable (s : StreamTable) (id : ℕ)

def init (isClient : Bool) (maxIncoming : Bool → UInt64) : StreamTable where
  isClient := isClient
  maxIncoming := maxIncoming
  counts bidi := { max := (maxIncoming bidi).toNat }

def slot : ℕ := id / 4 % bySeqSlots

def isLocal : Bool := isClientStream id == s.isClient

def setCounts (bidi : Bool) (c : StreamCounts) : StreamTable :=
  { s with counts := update s.counts bidi c }

def newStream : StreamTable :=
  if s.bySeq (slot id) = none then
    { s with bySeq := update s.bySeq (slot id) (some id), live := id :: s.live }
  else { s with streams := s.streams.insert id, live := id :: s.live }

def streamByID : Option ℕ :=
  if s.bySeq (slot id) = some id then some id else if id ∈ s.streams then some id else none

def held : Bool := ((List.range bySeqSlots).any fun i => s.bySeq i = some id) || id ∈ s.streams

/-- `ready` is that the handshake is complete, or early data may be sent. -/
def openStreamLocked (bidi ready : Bool) : StreamTable :=
  if s.closed ∨ ¬ ready then s
  else
    let c := s.counts bidi
    if c.peerMax ≤ c.opened then s
    else
      (s.setCounts bidi { c with opened := c.opened + 1 }).newStream
        (streamID c.opened ((if bidi then 0 else 2) + if s.isClient then 0 else 1))

/-- One turn of the loop in `peerStream`: the peer's next stream of the kind `low` is set up. -/
def openNext (low : ℕ) (s : StreamTable) : StreamTable :=
  let c := s.counts (isBidi low)
  (s.setCounts (isBidi low) { c with peerOpened := c.peerOpened + 1 }).newStream (streamID c.peerOpened low)

/-- The stream a frame is about, none of one already finished. The peer's streams up to it are opened. -/
def peerStream (recvSide : Bool) : StreamTable × Except StreamError (Option ℕ) :=
  if ¬ isBidi id ∧ s.isLocal id = recvSide then (s, .error .wrongDirection)
  else if s.streamByID id ≠ none then (s, .ok (s.streamByID id))
  else
    let c := s.counts (isBidi id)
    if s.isLocal id then if c.opened ≤ id / 4 then (s, .error .notOpened) else (s, .ok none)
    else if id / 4 < c.peerOpened then (s, .ok none)
    else if c.max ≤ id / 4 then (s, .error .tooMany)
    else
      let s := (openNext (id % 4))^[id / 4 + 1 - c.peerOpened] s
      (s, .ok (s.streamByID id))

def forget : StreamTable :=
  if s.bySeq (slot id) = some id then
    { s with bySeq := update s.bySeq (slot id) none, live := s.live.erase id }
  else { s with streams := s.streams.erase id, live := s.live.erase id }

/-- `maybeFinish` of a stream whose sides are both done. -/
def maybeFinish : StreamTable :=
  if id ∉ s.live then s
  else if s.isLocal id then s.forget id
  else
    (s.forget id).setCounts (isBidi id)
      ((s.counts (isBidi id)).finished (s.maxIncoming (isBidi id)).toNat)

def terminateLocked : StreamTable :=
  if s.closed then s
  else
    { s with
      closed := true
      live := s.live.filter fun id => ¬ s.held id
      streams := []
      bySeq := fun _ => none }

/-- A frame about the stream whose ID is at the front of `b`. -/
def onFrame (b : Bytes) (recvSide : Bool) : StreamTable :=
  if s.closed then s
  else
    match readVarint b with
    | none => s.terminateLocked
    | some (id, _) =>
      match s.peerStream id recvSide with
      | (s, .error _) => s.terminateLocked
      | (s, .ok _) => s

def onMaxStreams (bidi : Bool) (b : Bytes) : StreamTable :=
  if s.closed then s
  else
    match readVarint b with
    | none => s.terminateLocked
    | some (n, _) =>
      if 2 ^ 60 < n then s.terminateLocked
      else if (s.counts bidi).peerMax < n then s.setCounts bidi { s.counts bidi with peerMax := n }
      else s

/-- The peer's parameters have the limits to start with; a client may have them from an earlier connection first.
`matched` is that they name the connection IDs of the handshake. -/
def handlePeerParams (data : Bytes) (matched : Bool) : StreamTable :=
  match parseParams data s.isClient with
  | .error _ => s.terminateLocked
  | .ok p =>
    if ¬ matched then s.terminateLocked
    else (s.setCounts true { s.counts true with peerMax := p.maxStreamsBidi }).setCounts false
      { s.counts false with peerMax := p.maxStreamsUni }

end StreamTable

inductive TableOp where
  | openStream (bidi ready : Bool)
  | frame (b : Bytes) (recvSide : Bool)
  | maxStreams (bidi : Bool) (b : Bytes)
  | params (data : Bytes) (matched : Bool)
  | finish (id : ℕ)
  | close
deriving DecidableEq

namespace StreamTable

def step (s : StreamTable) : TableOp → StreamTable
  | .openStream bidi ready => s.openStreamLocked bidi ready
  | .frame b recvSide => s.onFrame b recvSide
  | .maxStreams bidi b => s.onMaxStreams bidi b
  | .params data matched => s.handlePeerParams data matched
  | .finish id => s.maybeFinish id
  | .close => s.terminateLocked

def machine (isClient : Bool) (maxIncoming : Bool → UInt64) : Machine StreamTable TableOp :=
  ⟨init isClient maxIncoming, step⟩

def isPeers (s : StreamTable) (bidi : Bool) (id : ℕ) : Bool := isBidi id == bidi && !s.isLocal id

def peerOpen (s : StreamTable) (bidi : Bool) : ℕ := s.live.countP (s.isPeers bidi)

/-! ### The array and the map -/

/-- The array and the map hold the streams that are live, each in one place. -/
structure Tables (s : StreamTable) : Prop where
  nodup : s.live.Nodup
  slotted : ∀ i id, s.bySeq i = some id → i = slot id ∧ id ∈ s.live
  mapped : ∀ id ∈ s.streams, id ∈ s.live ∧ s.bySeq (slot id) ≠ some id
  mapNodup : s.streams.Nodup
  held : ∀ id ∈ s.live, s.bySeq (slot id) = some id ∨ id ∈ s.streams

variable {s : StreamTable} {id n low : ℕ} {bidi : Bool}
section
variable (h : Tables s)
include h

theorem Tables.newStream (hnew : id ∉ s.live) : Tables (s.newStream id) := by
  unfold StreamTable.newStream
  split_ifs with hslot
  · refine ⟨nodup_cons.2 ⟨hnew, h.nodup⟩, fun i n hn => ?_, fun n hn => ?_, h.mapNodup, fun n hn => ?_⟩
    · dsimp only at hn ⊢
      rw [update_apply] at hn
      split_ifs at hn with hi
      · cases hn
        exact ⟨hi, mem_cons_self ..⟩
      · exact ⟨(h.slotted i n hn).1, mem_cons_of_mem _ (h.slotted i n hn).2⟩
    · obtain ⟨hlive, hne⟩ := h.mapped n hn
      refine ⟨mem_cons_of_mem _ hlive, fun hn' => ?_⟩
      dsimp only at hn'
      rw [update_apply] at hn'
      split_ifs at hn' with hi
      · exact hnew (Option.some.inj hn' ▸ hlive)
      · exact hne hn'
    · dsimp only
      rw [update_apply]
      rcases mem_cons.1 hn with rfl | hn
      · exact .inl (if_pos rfl)
      · refine (h.held n hn).imp_left fun hin => ?_
        rw [if_neg fun hi => ?_, hin]
        rw [hi, hslot] at hin
        simp at hin
  · refine ⟨nodup_cons.2 ⟨hnew, h.nodup⟩, fun i n hn => ?_, fun n hn => ?_, h.mapNodup.insert, fun n hn => ?_⟩
    · exact ⟨(h.slotted i n hn).1, mem_cons_of_mem _ (h.slotted i n hn).2⟩
    · rcases mem_insert_iff.1 hn with rfl | hn
      · exact ⟨mem_cons_self .., fun hn => hnew (h.slotted _ _ hn).2⟩
      · exact ⟨mem_cons_of_mem _ (h.mapped n hn).1, (h.mapped n hn).2⟩
    · rcases mem_cons.1 hn with rfl | hn
      · exact .inr (mem_insert_self ..)
      · exact (h.held n hn).imp_right mem_insert_of_mem

theorem Tables.forget (id : ℕ) : Tables (s.forget id) := by
  unfold StreamTable.forget
  split_ifs with hslot
  · refine ⟨h.nodup.erase _, fun i n hn => ?_, fun n hn => ?_, h.mapNodup, fun n hn => ?_⟩
    · dsimp only at hn ⊢
      rw [update_apply] at hn
      split_ifs at hn with hi
      obtain ⟨hin, hlive⟩ := h.slotted i n hn
      refine ⟨hin, (h.nodup.mem_erase_iff).2 ⟨fun heq => ?_, hlive⟩⟩
      exact hi (by rw [hin, heq])
    · obtain ⟨hlive, hne⟩ := h.mapped n hn
      refine ⟨(h.nodup.mem_erase_iff).2 ⟨fun heq => ?_, hlive⟩, fun hn' => ?_⟩
      · rw [heq] at hne
        exact hne hslot
      · dsimp only at hn'
        rw [update_apply] at hn'
        split_ifs at hn'
        exact hne hn'
    · obtain ⟨hne, hlive⟩ := (h.nodup.mem_erase_iff).1 hn
      dsimp only
      rw [update_apply]
      refine (h.held n hlive).imp_left fun hin => ?_
      rw [if_neg fun hi => ?_, hin]
      rw [hi, hslot] at hin
      exact hne (Option.some.inj hin).symm
  · refine ⟨h.nodup.erase _, fun i n hn => ?_, fun n hn => ?_, h.mapNodup.erase _, fun n hn => ?_⟩
    · obtain ⟨hin, hlive⟩ := h.slotted i n hn
      refine ⟨hin, (h.nodup.mem_erase_iff).2 ⟨?_, hlive⟩⟩
      rintro rfl
      exact hslot (hin ▸ hn)
    · obtain ⟨hne, hin⟩ := (h.mapNodup.mem_erase_iff).1 hn
      exact ⟨(h.nodup.mem_erase_iff).2 ⟨hne, (h.mapped n hin).1⟩, (h.mapped n hin).2⟩
    · obtain ⟨hne, hlive⟩ := (h.nodup.mem_erase_iff).1 hn
      exact (h.held n hlive).imp_right fun hin => (h.mapNodup.mem_erase_iff).2 ⟨hne, hin⟩

theorem Tables.held_of_mem (hid : id ∈ s.live) : s.held id = true := by
  unfold StreamTable.held
  rcases h.held id hid with hin | hin
  · have hlt : slot id < bySeqSlots := Nat.mod_lt _ (by decide)
    have hany : ((List.range bySeqSlots).any fun i => s.bySeq i = some id) = true :=
      any_eq_true.2 ⟨slot id, mem_range.2 hlt, decide_eq_true hin⟩
    rw [hany, Bool.true_or]
  · rw [decide_eq_true hin, Bool.or_true]

theorem Tables.live_terminate (hc : s.closed = false) : s.terminateLocked.live = [] := by
  unfold terminateLocked
  rw [hc, if_neg Bool.false_ne_true]
  refine filter_eq_nil_iff.2 fun id hid => ?_
  simp [h.held_of_mem hid]

theorem Tables.terminate : Tables s.terminateLocked := by
  cases hc : s.closed with
  | true =>
    unfold terminateLocked
    rw [if_pos hc]
    exact h
  | false =>
    have hlive := h.live_terminate hc
    have hmap : s.terminateLocked.streams = [] := by simp [terminateLocked, hc]
    have hseq : s.terminateLocked.bySeq = fun _ => none := by simp [terminateLocked, hc]
    exact ⟨by rw [hlive]; exact nodup_nil, by simp [hseq], by simp [hmap], by simp [hmap], by simp [hlive]⟩

theorem Tables.streamByID : s.streamByID id = if id ∈ s.live then some id else none := by
  unfold StreamTable.streamByID
  by_cases hid : id ∈ s.live
  · rw [if_pos hid]
    rcases h.held id hid with hin | hin
    · rw [if_pos hin]
    · rw [if_neg (h.mapped id hin).2, if_pos hin]
  · rw [if_neg hid, if_neg fun hin => hid (h.slotted _ _ hin).2, if_neg fun hin => hid (h.mapped id hin).1]

theorem Tables.once (hid : id ∈ s.live) : Xor (s.bySeq (slot id) = some id) (id ∈ s.streams) := by
  rcases h.held id hid with hin | hin
  · exact .inl ⟨hin, fun hmap => (h.mapped id hmap).2 hin⟩
  · exact .inr ⟨hin, (h.mapped id hin).2⟩

end

/-! ### The counters -/

/-- The counters of one direction, of which the peer may have `incoming` streams open. -/
structure Limits (incoming : ℕ) (c : StreamCounts) : Prop where
  opened : c.opened ≤ 2 ^ 60
  peerMax : c.peerMax ≤ 2 ^ 60
  peerOpened : c.peerOpened ≤ 2 ^ 60
  within : c.peerOpened ≤ c.max
  atLeast : incoming ≤ c.max
  atMost : c.max ≤ c.peerDone + incoming
  noWrap : c.max < 2 ^ 64

/-- The limit is raised without wrapping around: it is only once the peer finished half of what it may have open. -/
theorem Limits.finished {incoming : ℕ} {c : StreamCounts} (h : Limits incoming c) (hdone : c.peerDone < c.peerOpened) :
    Limits incoming (c.finished incoming) ∧ c.max ≤ (c.finished incoming).max ∧
      (c.finished incoming).peerDone = c.peerDone + 1 ∧ (c.finished incoming).peerOpened = c.peerOpened ∧
      (c.finished incoming).opened = c.opened := by
  obtain ⟨h₁, h₂, h₃, h₄, h₅, h₆, h₇⟩ := h
  have hsub : (c.max + 2 ^ 64 - (c.peerDone + 1)) % 2 ^ 64 = c.max - (c.peerDone + 1) := by omega
  unfold StreamCounts.finished
  dsimp only
  rw [hsub]
  split_ifs with hraise
  · have hsum : (c.peerDone + 1 + incoming) % 2 ^ 64 = c.peerDone + 1 + incoming := by omega
    rw [hsum]
    exact ⟨⟨h₁, h₂, h₃, by dsimp only; omega, by dsimp only; omega, le_rfl, by dsimp only; omega⟩,
      by dsimp only; omega, rfl, rfl, rfl⟩
  · exact ⟨⟨h₁, h₂, h₃, h₄, h₅, by dsimp only; omega, h₇⟩, le_rfl, rfl, rfl, rfl⟩

/-- How many streams of its kind were opened when the next is. -/
def seqs (s : StreamTable) (id : ℕ) : ℕ :=
  if s.isLocal id then (s.counts (isBidi id)).opened else (s.counts (isBidi id)).peerOpened

/-- What holds of a connection's streams. -/
structure Ok (s : StreamTable) : Prop where
  tables : Tables s
  numbered : ∀ id ∈ s.live, id / 4 < s.seqs id
  counted : ∀ bidi, s.peerOpen bidi + (s.counts bidi).peerDone ≤ (s.counts bidi).peerOpened
  limits : ∀ bidi, Limits (s.maxIncoming bidi).toNat (s.counts bidi)

theorem ok_init (isClient : Bool) (maxIncoming : Bool → UInt64) : Ok (init isClient maxIncoming) := by
  refine ⟨⟨nodup_nil, fun i id h => absurd h (by simp [init]), fun id h => absurd h not_mem_nil,
    nodup_nil, fun id h => absurd h not_mem_nil⟩, fun id h => absurd h not_mem_nil, fun _ => le_rfl,
    fun bidi => ⟨Nat.zero_le _, Nat.zero_le _, Nat.zero_le _, Nat.zero_le _, le_rfl, Nat.le_add_left .., ?_⟩⟩
  exact (maxIncoming bidi).toNat_lt

/-- From one state to a later one no limit went down, and no more streams are finished than the limit was. -/
structure Grows (s s' : StreamTable) : Prop where
  max : ∀ bidi, (s.counts bidi).max ≤ (s'.counts bidi).max
  done : ∀ bidi, (s'.counts bidi).peerDone ≤ (s.counts bidi).max
  config : s'.maxIncoming = s.maxIncoming

theorem Ok.done_le (h : Ok s) (bidi : Bool) : (s.counts bidi).peerDone ≤ (s.counts bidi).max := by
  have hcounted := h.counted bidi
  have hwithin := (h.limits bidi).within
  omega

theorem Ok.grows_of {s' : StreamTable} (h : Ok s) (hconfig : s'.maxIncoming = s.maxIncoming)
    (hcounts : ∀ bidi, (s'.counts bidi).max = (s.counts bidi).max ∧
      (s'.counts bidi).peerDone = (s.counts bidi).peerDone) : Grows s s' :=
  ⟨fun bidi => (hcounts bidi).1.ge, fun bidi => (hcounts bidi).2.trans_le (h.done_le bidi), hconfig⟩

theorem Ok.grows_refl (h : Ok s) : Grows s s := h.grows_of rfl fun _ => ⟨rfl, rfl⟩

theorem newStream_fields (s : StreamTable) (id : ℕ) :
    (s.newStream id).counts = s.counts ∧ (s.newStream id).isClient = s.isClient ∧
      (s.newStream id).maxIncoming = s.maxIncoming ∧ (s.newStream id).live = id :: s.live := by
  unfold newStream
  split_ifs <;> exact ⟨rfl, rfl, rfl, rfl⟩

theorem setCounts_newStream (s : StreamTable) (c : StreamCounts) (d : Bool) :
    ((s.setCounts bidi c).newStream id).counts d = if d = bidi then c else s.counts d := by
  rw [(newStream_fields _ _).1]
  exact update_apply ..

theorem setCounts_newStream_limits {c : StreamCounts} (hmax : c.max = (s.counts bidi).max)
    (hdone : c.peerDone = (s.counts bidi).peerDone) (d : Bool) :
    (((s.setCounts bidi c).newStream id).counts d).max = (s.counts d).max ∧
      (((s.setCounts bidi c).newStream id).counts d).peerDone = (s.counts d).peerDone := by
  rw [setCounts_newStream]
  split_ifs with hd
  · rw [hd]
    exact ⟨hmax, hdone⟩
  · exact ⟨rfl, rfl⟩

theorem Ok.add (h : Ok s) (id : ℕ) (c : StreamCounts) (hnew : s.seqs id ≤ id / 4)
    (hopened : (s.counts (isBidi id)).opened ≤ c.opened)
    (hpeer : (s.counts (isBidi id)).peerOpened + (if s.isLocal id then 0 else 1) ≤ c.peerOpened)
    (hdone : c.peerDone = (s.counts (isBidi id)).peerDone)
    (hlt : id / 4 < if s.isLocal id then c.opened else c.peerOpened)
    (hc : Limits (s.maxIncoming (isBidi id)).toNat c) : Ok ((s.setCounts (isBidi id) c).newStream id) := by
  obtain ⟨-, hclient, hmax, hlive⟩ := newStream_fields (s.setCounts (isBidi id) c) id
  have hlocal : ((s.setCounts (isBidi id) c).newStream id).isLocal = s.isLocal := by
    unfold isLocal
    rw [hclient]
    rfl
  have hnot : id ∉ s.live := fun hin => absurd (h.numbered id hin) (not_lt.2 hnew)
  have htables : Tables (s.setCounts (isBidi id) c) :=
    { h.tables with }
  refine ⟨htables.newStream hnot, fun n hn => ?_, fun bidi => ?_, fun bidi => ?_⟩
  · unfold seqs
    rw [setCounts_newStream, hlocal]
    rw [hlive] at hn
    rcases mem_cons.1 hn with rfl | hn
    · rwa [if_pos rfl]
    have hold := h.numbered n hn
    unfold seqs at hold
    by_cases hb : isBidi n = isBidi id
    · rw [if_pos hb]
      rw [hb] at hold
      split_ifs at hold ⊢ <;> omega
    · rwa [if_neg hb]
  · have hopen : ((s.setCounts (isBidi id) c).newStream id).peerOpen bidi =
        s.peerOpen bidi + if s.isPeers bidi id then 1 else 0 := by
      have hpeers : ((s.setCounts (isBidi id) c).newStream id).isPeers = s.isPeers := by
        unfold isPeers
        rw [hlocal]
      unfold peerOpen
      rw [hlive, hpeers, countP_cons]
      rfl
    have hold := h.counted bidi
    rw [hopen, setCounts_newStream]
    by_cases hb : bidi = isBidi id
    · subst hb
      rw [if_pos rfl, hdone]
      have hp : s.isPeers (isBidi id) id = !s.isLocal id := by simp [isPeers]
      rw [hp]
      cases hl : s.isLocal id with
      | true =>
        rw [hl] at hpeer
        simp only [Bool.not_true, Bool.false_eq_true, if_false, if_true] at hpeer ⊢
        omega
      | false =>
        rw [hl] at hpeer
        simp only [Bool.not_false, Bool.false_eq_true, if_false, if_true] at hpeer ⊢
        omega
    · have hp : s.isPeers bidi id = false := by
        unfold isPeers
        rw [beq_eq_false_iff_ne.2 (Ne.symm hb), Bool.false_and]
      rw [if_neg hb, hp, if_neg Bool.false_ne_true]
      exact hold
  · have hmax' : ((s.setCounts (isBidi id) c).newStream id).maxIncoming = s.maxIncoming := hmax
    rw [setCounts_newStream, hmax']
    split_ifs with hb
    · rw [hb]
      exact hc
    · exact h.limits bidi

theorem isBidi_add (n low : ℕ) : isBidi (4 * n + low) = isBidi low := by
  unfold isBidi
  exact decide_eq_decide.2 (by omega)

theorem isLocal_add (s : StreamTable) (n low : ℕ) : s.isLocal (4 * n + low) = s.isLocal low := by
  unfold isLocal isClientStream
  rw [decide_eq_decide.2 (show (4 * n + low) % 2 = 0 ↔ low % 2 = 0 by omega)]

theorem streamID_eq (h : n ≤ 2 ^ 60) : streamID n low = 4 * n + low := by
  unfold streamID
  omega

theorem Ok.openStreamLocked (h : Ok s) (ready : Bool) :
    Ok (s.openStreamLocked bidi ready) ∧ Grows s (s.openStreamLocked bidi ready) := by
  unfold StreamTable.openStreamLocked
  by_cases hno : s.closed ∨ ¬ ready
  · rw [if_pos hno]
    exact ⟨h, h.grows_refl⟩
  rw [if_neg hno]
  by_cases hfull : (s.counts bidi).peerMax ≤ (s.counts bidi).opened
  · rw [if_pos hfull]
    exact ⟨h, h.grows_refl⟩
  rw [if_neg hfull]
  obtain ⟨h₁, h₂, h₃, h₄, h₅, h₆, h₇⟩ := h.limits bidi
  generalize hlow : (if bidi then 0 else 2) + (if s.isClient then 0 else 1) = low
  have hbidi : isBidi low = bidi ∧ s.isLocal low = true ∧ low < 4 := by
    unfold isLocal
    cases bidi <;> cases hcl : s.isClient <;> rw [hcl] at hlow <;> subst hlow <;> decide
  rw [streamID_eq h₁]
  have hid := isBidi_add (s.counts bidi).opened low
  have hloc : s.isLocal (4 * (s.counts bidi).opened + low) = true := by
    rw [isLocal_add]
    exact hbidi.2.1
  have hseq : (4 * (s.counts bidi).opened + low) / 4 = (s.counts bidi).opened := by omega
  rw [hbidi.1] at hid
  have hadd := h.add (4 * (s.counts bidi).opened + low) { s.counts bidi with opened := (s.counts bidi).opened + 1 }
  rw [hid, hloc, hseq] at hadd
  refine ⟨hadd ?_ (Nat.le_succ _) le_rfl rfl (Nat.lt_succ_self _) ⟨by dsimp only; omega, h₂, h₃, h₄, h₅, h₆, h₇⟩,
    h.grows_of (newStream_fields _ _).2.2.1 (setCounts_newStream_limits rfl rfl)⟩
  unfold seqs
  rw [hid, hloc]
  exact le_rfl

theorem Ok.openNext (h : Ok s) (hlow : low < 4) (hpeer : s.isLocal low = false)
    (hmax : (s.counts (isBidi low)).peerOpened < (s.counts (isBidi low)).max)
    (hsmall : (s.counts (isBidi low)).peerOpened < 2 ^ 60) : Ok (s.openNext low) := by
  unfold StreamTable.openNext
  dsimp only
  rw [streamID_eq hsmall.le]
  obtain ⟨h₁, h₂, h₃, h₄, h₅, h₆, h₇⟩ := h.limits (isBidi low)
  have hid := isBidi_add (s.counts (isBidi low)).peerOpened low
  have hloc : s.isLocal (4 * (s.counts (isBidi low)).peerOpened + low) = false := by
    rw [isLocal_add]
    exact hpeer
  have hseq : (4 * (s.counts (isBidi low)).peerOpened + low) / 4 = (s.counts (isBidi low)).peerOpened := by omega
  have hadd := h.add (4 * (s.counts (isBidi low)).peerOpened + low)
    { s.counts (isBidi low) with peerOpened := (s.counts (isBidi low)).peerOpened + 1 }
  rw [hid, hloc, hseq] at hadd
  refine hadd ?_ le_rfl le_rfl rfl (Nat.lt_succ_self _) ⟨h₁, h₂, by dsimp only; omega, by dsimp only; omega, h₅, h₆, h₇⟩
  unfold seqs
  rw [hid, hloc]
  exact le_rfl

theorem openNext_fields (s : StreamTable) (low : ℕ) :
    (s.openNext low).isClient = s.isClient ∧ (s.openNext low).maxIncoming = s.maxIncoming ∧
      ((s.openNext low).counts (isBidi low)).peerOpened = (s.counts (isBidi low)).peerOpened + 1 ∧
      ∀ bidi, ((s.openNext low).counts bidi).max = (s.counts bidi).max ∧
        ((s.openNext low).counts bidi).peerDone = (s.counts bidi).peerDone := by
  unfold openNext
  refine ⟨(newStream_fields _ _).2.1, (newStream_fields _ _).2.2.1, ?_, setCounts_newStream_limits rfl rfl⟩
  rw [setCounts_newStream, if_pos rfl]

theorem Ok.openNext_iterate (k : ℕ) (h : Ok s) (hlow : low < 4) (hpeer : s.isLocal low = false)
    (hmax : (s.counts (isBidi low)).peerOpened + k ≤ (s.counts (isBidi low)).max)
    (hsmall : (s.counts (isBidi low)).peerOpened + k ≤ 2 ^ 60) :
    Ok ((StreamTable.openNext low)^[k] s) ∧ ((StreamTable.openNext low)^[k] s).maxIncoming = s.maxIncoming ∧
      ∀ bidi, (((StreamTable.openNext low)^[k] s).counts bidi).max = (s.counts bidi).max ∧
        (((StreamTable.openNext low)^[k] s).counts bidi).peerDone = (s.counts bidi).peerDone := by
  induction k generalizing s with
  | zero => exact ⟨h, rfl, fun _ => ⟨rfl, rfl⟩⟩
  | succ k ih =>
    obtain ⟨hclient, hconfig, hopened, hsame⟩ := openNext_fields s low
    have hpeer' : (s.openNext low).isLocal low = false := by
      unfold isLocal
      rw [hclient]
      exact hpeer
    have hmax' := (hsame (isBidi low)).1
    rw [Function.iterate_succ_apply]
    obtain ⟨hok, hconfig', hrest⟩ := ih (h.openNext hlow hpeer (by omega) (by omega)) hpeer' (by omega) (by omega)
    exact ⟨hok, hconfig'.trans hconfig, fun bidi =>
      ⟨(hrest bidi).1.trans (hsame bidi).1, (hrest bidi).2.trans (hsame bidi).2⟩⟩

theorem terminate_fields (s : StreamTable) : s.terminateLocked.counts = s.counts ∧
    s.terminateLocked.maxIncoming = s.maxIncoming ∧ s.terminateLocked.isClient = s.isClient ∧
    s.terminateLocked.live.Sublist s.live := by
  unfold terminateLocked
  split_ifs
  · exact ⟨rfl, rfl, rfl, List.Sublist.refl _⟩
  · exact ⟨rfl, rfl, rfl, filter_sublist⟩

section
variable (h : Ok s)
include h

theorem Ok.terminate : Ok s.terminateLocked ∧ Grows s s.terminateLocked := by
  obtain ⟨hcounts, hmax, hclient, hlive⟩ := terminate_fields s
  have hlocal : s.terminateLocked.isLocal = s.isLocal := by
    unfold isLocal
    rw [hclient]
  refine ⟨⟨h.tables.terminate, fun id hid => ?_, fun bidi => ?_, fun bidi => ?_⟩,
    h.grows_of hmax fun _ => by rw [hcounts]; exact ⟨rfl, rfl⟩⟩
  · unfold seqs
    rw [hcounts, hlocal]
    exact h.numbered id (hlive.subset hid)
  · have hle : s.terminateLocked.peerOpen bidi ≤ s.peerOpen bidi := by
      unfold peerOpen isPeers
      rw [hlocal]
      exact hlive.countP_le
    rw [hcounts]
    exact (Nat.add_le_add_right hle _).trans (h.counted bidi)
  · rw [hcounts, hmax]
    exact h.limits bidi

theorem Ok.peerStream (hid : id < 2 ^ 62) (recvSide : Bool) :
    Ok (s.peerStream id recvSide).1 ∧ Grows s (s.peerStream id recvSide).1 := by
  have hsame : Ok s ∧ Grows s s := ⟨h, h.grows_refl⟩
  unfold StreamTable.peerStream
  by_cases hdir : ¬ isBidi id ∧ s.isLocal id = recvSide
  · rwa [if_pos hdir]
  rw [if_neg hdir]
  by_cases hfound : s.streamByID id ≠ none
  · rwa [if_pos hfound]
  rw [if_neg hfound]
  by_cases hlocal : s.isLocal id
  · rw [if_pos hlocal]
    split_ifs <;> exact hsame
  rw [if_neg hlocal]
  by_cases hold : id / 4 < (s.counts (isBidi id)).peerOpened
  · rwa [if_pos hold]
  rw [if_neg hold]
  by_cases hmany : (s.counts (isBidi id)).max ≤ id / 4
  · rwa [if_pos hmany]
  rw [if_neg hmany]
  have hsplit : 4 * (id / 4) + id % 4 = id := Nat.div_add_mod id 4
  have hbidi : isBidi (id % 4) = isBidi id := by rw [← isBidi_add (id / 4), hsplit]
  have hpeer : s.isLocal (id % 4) = false := by
    rw [← isLocal_add s (id / 4), hsplit]
    exact Bool.eq_false_iff.2 hlocal
  obtain ⟨hok, hconfig, hcounts⟩ := h.openNext_iterate (id / 4 + 1 - (s.counts (isBidi id)).peerOpened)
    (Nat.mod_lt id (by decide)) hpeer (by rw [hbidi]; omega) (by rw [hbidi]; omega)
  exact ⟨hok, h.grows_of hconfig hcounts⟩

theorem Ok.onFrame (b : Bytes) (recvSide : Bool) : Ok (s.onFrame b recvSide) ∧ Grows s (s.onFrame b recvSide) := by
  unfold StreamTable.onFrame
  split_ifs
  · exact ⟨h, h.grows_refl⟩
  cases hb : readVarint b with
  | none => exact h.terminate
  | some x =>
    obtain ⟨id, rest⟩ := x
    obtain ⟨hok, hgrows⟩ := h.peerStream (readVarint_lt hb) recvSide
    dsimp only
    generalize s.peerStream id recvSide = r at hok hgrows ⊢
    obtain ⟨s₁, res⟩ := r
    cases res with
    | ok _ => exact ⟨hok, hgrows⟩
    | error _ =>
      obtain ⟨hok', -⟩ := hok.terminate
      obtain ⟨hcounts, hmax, -, -⟩ := terminate_fields s₁
      refine ⟨hok', ⟨fun bidi => ?_, fun bidi => ?_, hmax.trans hgrows.config⟩⟩
      · rw [hcounts]
        exact hgrows.max bidi
      · rw [hcounts]
        exact hgrows.done bidi

theorem Ok.setPeerMax (bidi : Bool) (hn : n ≤ 2 ^ 60) : Ok (s.setCounts bidi { s.counts bidi with peerMax := n }) ∧
    Grows s (s.setCounts bidi { s.counts bidi with peerMax := n }) := by
  generalize hs : s.setCounts bidi { s.counts bidi with peerMax := n } = s'
  have hcounts : ∀ d, s'.counts d = { s.counts d with peerMax := if d = bidi then n else (s.counts d).peerMax } := by
    intro d
    rw [← hs]
    dsimp only [setCounts]
    rw [update_apply]
    split_ifs with hd
    · rw [hd]
    · rfl
  have hrest : s'.live = s.live ∧ s'.isLocal = s.isLocal ∧ s'.maxIncoming = s.maxIncoming := by
    rw [← hs]
    exact ⟨rfl, rfl, rfl⟩
  obtain ⟨hlive, hlocal, hmax⟩ := hrest
  refine ⟨⟨?_, fun id hid => ?_, fun d => ?_, fun d => ?_⟩, h.grows_of hmax fun d => by rw [hcounts]; exact ⟨rfl, rfl⟩⟩
  · rw [← hs]
    exact { h.tables with }
  · unfold seqs
    rw [hcounts, hlocal]
    rw [hlive] at hid
    exact h.numbered id hid
  · unfold peerOpen isPeers
    rw [hcounts, hlocal, hlive]
    exact h.counted d
  rw [hcounts, hmax]
  obtain ⟨h₁, h₂, h₃, h₄, h₅, h₆, h₇⟩ := h.limits d
  refine ⟨h₁, ?_, h₃, h₄, h₅, h₆, h₇⟩
  split_ifs
  · exact hn
  · exact h₂

theorem Ok.onMaxStreams (bidi : Bool) (b : Bytes) : Ok (s.onMaxStreams bidi b) ∧ Grows s (s.onMaxStreams bidi b) := by
  unfold StreamTable.onMaxStreams
  split_ifs
  · exact ⟨h, h.grows_refl⟩
  cases readVarint b with
  | none => exact h.terminate
  | some x =>
    dsimp only
    split_ifs with hbig
    · exact h.terminate
    · exact h.setPeerMax bidi (not_lt.1 hbig)
    · exact ⟨h, h.grows_refl⟩

theorem Ok.handlePeerParams (data : Bytes) (matched : Bool) :
    Ok (s.handlePeerParams data matched) ∧ Grows s (s.handlePeerParams data matched) := by
  unfold StreamTable.handlePeerParams
  cases hp : parseParams data s.isClient with
  | error e => exact h.terminate
  | ok p =>
    have hsized := sized_of_parseParams hp
    dsimp only
    cases matched with
    | false =>
      rw [if_pos Bool.false_ne_true]
      exact h.terminate
    | true =>
      rw [if_neg (not_not.2 rfl)]
      obtain ⟨h₁, g₁⟩ := h.setPeerMax true hsized.maxStreamsBidi
      obtain ⟨h₂, g₂⟩ := h₁.setPeerMax false hsized.maxStreamsUni
      refine ⟨h₂, ⟨fun bidi => (g₁.max bidi).trans (g₂.max bidi), fun bidi => ?_, g₂.config.trans g₁.config⟩⟩
      have hdone := h.done_le bidi
      cases bidi <;> exact hdone

end

theorem forget_fields (s : StreamTable) (id : ℕ) : (s.forget id).counts = s.counts ∧
    (s.forget id).maxIncoming = s.maxIncoming ∧ (s.forget id).isClient = s.isClient ∧
    (s.forget id).live = s.live.erase id := by
  unfold forget
  split_ifs <;> exact ⟨rfl, rfl, rfl, rfl⟩

theorem peerOpen_forget (bidi : Bool) (hid : id ∈ s.live) :
    (s.forget id).peerOpen bidi + (if s.isPeers bidi id then 1 else 0) = s.peerOpen bidi := by
  obtain ⟨-, -, hclient, hlive⟩ := forget_fields s id
  have hpeers : (s.forget id).isPeers = s.isPeers := by
    unfold isPeers isLocal
    rw [hclient]
  unfold peerOpen
  rw [hpeers, hlive, ← countP_cons]
  exact (perm_cons_erase hid).symm.countP_eq _

theorem Ok.maybeFinish (h : Ok s) (id : ℕ) : Ok (s.maybeFinish id) ∧ Grows s (s.maybeFinish id) := by
  unfold StreamTable.maybeFinish
  by_cases hid : id ∉ s.live
  · rw [if_pos hid]
    exact ⟨h, h.grows_refl⟩
  rw [if_neg hid]
  rw [not_not] at hid
  obtain ⟨hcounts, hmax, hclient, hlive⟩ := forget_fields s id
  have hloc : (s.forget id).isLocal = s.isLocal := by
    unfold isLocal
    rw [hclient]
  have hnum : ∀ n ∈ (s.forget id).live, n / 4 < s.seqs n := by
    intro n hn
    rw [hlive] at hn
    exact h.numbered n (mem_of_mem_erase hn)
  cases hlocal : s.isLocal id with
  | true =>
    rw [if_pos rfl]
    refine ⟨⟨h.tables.forget id, fun n hn => ?_, fun bidi => ?_, fun bidi => ?_⟩,
      h.grows_of hmax fun _ => by rw [hcounts]; exact ⟨rfl, rfl⟩⟩
    · unfold seqs
      rw [hcounts, hloc]
      exact hnum n hn
    · have hopen := peerOpen_forget bidi hid
      rw [hcounts]
      have hcounted := h.counted bidi
      omega
    · rw [hcounts, hmax]
      exact h.limits bidi
  | false =>
    rw [if_neg Bool.false_ne_true]
    have hpeers : ∀ d, s.isPeers d id = (isBidi id == d) := by
      intro d
      simp [isPeers, hlocal]
    have hdone : (s.counts (isBidi id)).peerDone < (s.counts (isBidi id)).peerOpened := by
      have hopen := peerOpen_forget (isBidi id) hid
      rw [hpeers, beq_self_eq_true, if_pos rfl] at hopen
      have hcounted := h.counted (isBidi id)
      omega
    obtain ⟨hlimits, hgrow, hdone', hopened, hown⟩ := (h.limits (isBidi id)).finished hdone
    generalize hc : (s.counts (isBidi id)).finished (s.maxIncoming (isBidi id)).toNat = c at *
    have hcounts' : ∀ d,
        ((s.forget id).setCounts (isBidi id) c).counts d = if d = isBidi id then c else s.counts d := by
      intro d
      dsimp only [setCounts]
      rw [update_apply, hcounts]
    refine ⟨⟨?_, fun n hn => ?_, fun d => ?_, fun d => ?_⟩, ⟨fun d => ?_, fun d => ?_, hmax⟩⟩
    · have ht := h.tables.forget id
      exact { ht with }
    · have hn' := hnum n hn
      have hl : ((s.forget id).setCounts (isBidi id) c).isLocal = s.isLocal := hloc
      unfold seqs at hn' ⊢
      rw [hcounts', hl]
      by_cases hb : isBidi n = isBidi id
      · rw [if_pos hb, hopened, hown]
        rwa [hb] at hn'
      · rwa [if_neg hb]
    · have hopen := peerOpen_forget d hid
      have hcounted := h.counted d
      have hsame : ((s.forget id).setCounts (isBidi id) c).peerOpen d = (s.forget id).peerOpen d := rfl
      rw [hcounts', hsame]
      rw [hpeers] at hopen
      by_cases hb : d = isBidi id
      · subst hb
        rw [beq_self_eq_true, if_pos rfl] at hopen
        rw [if_pos rfl, hdone', hopened]
        omega
      · rw [if_neg hb]
        omega
    · have hm : ((s.forget id).setCounts (isBidi id) c).maxIncoming = s.maxIncoming := hmax
      rw [hcounts', hm]
      split_ifs with hb
      · rw [hb]
        exact hlimits
      · exact h.limits d
    · rw [hcounts']
      split_ifs with hb
      · rw [hb]
        exact hgrow
      · exact le_rfl
    · rw [hcounts']
      split_ifs with hb
      · have hwithin := (h.limits (isBidi id)).within
        rw [hb]
        omega
      · exact h.done_le d

theorem Ok.step (h : Ok s) (op : TableOp) : Ok (s.step op) ∧ Grows s (s.step op) := by
  cases op with
  | openStream bidi ready => exact h.openStreamLocked ready
  | frame b recvSide => exact h.onFrame b recvSide
  | maxStreams bidi b => exact h.onMaxStreams bidi b
  | params data matched => exact h.handlePeerParams data matched
  | finish id => exact h.maybeFinish id
  | close => exact h.terminate

/-- What a connection promises of its streams, whatever it has come to. -/
structure Limited (s : StreamTable) : Prop where
  within : ∀ bidi, s.peerOpen bidi ≤ (s.maxIncoming bidi).toNat
  found : ∀ id, s.streamByID id = if id ∈ s.live then some id else none
  once : ∀ id ∈ s.live, Xor (s.bySeq (slot id) = some id) (id ∈ s.streams)
  slotted : ∀ i id, s.bySeq i = some id → i = slot id ∧ id ∈ s.live
  mapped : s.streams.Nodup ∧ ∀ id ∈ s.streams, id ∈ s.live
  grows : ∀ op, Grows s (s.step op)

theorem Ok.limited (h : Ok s) : Limited s := by
  refine ⟨fun bidi => ?_, fun id => h.tables.streamByID, fun id hid => h.tables.once hid, h.tables.slotted,
    ⟨h.tables.mapNodup, fun id hid => (h.tables.mapped id hid).1⟩, fun op => (h.step op).2⟩
  have hcounted := h.counted bidi
  have hwithin := (h.limits bidi).within
  have hmost := (h.limits bidi).atMost
  omega

theorem ok_run (isClient : Bool) (maxIncoming : Bool → UInt64) (ops : List TableOp) :
    Ok ((machine isClient maxIncoming).run ops) ∧
      ((machine isClient maxIncoming).run ops).maxIncoming = maxIncoming := by
  refine Machine.invariant_all (I := fun t => Ok t ∧ t.maxIncoming = maxIncoming)
    ⟨ok_init isClient maxIncoming, rfl⟩ ?_ ops
  rintro t op ⟨h, hmax⟩
  obtain ⟨hok, hgrows⟩ := h.step op
  exact ⟨hok, hgrows.config.trans hmax⟩

end StreamTable
end Fib.Quic
