import Fib.Rtmp.Chunks
import Fib.Rtmp.Held

/-! What one connection writes its peer hears: the two keep the same state of every chunk stream. -/

namespace Fib.Rtmp
open Nat List Function Message InStream

/-! ### Headers -/

/-- The stream of the reader of what the writer of this one wrote. -/
def OutStream.mirror (o : OutStream) : InStream where
  timestamp := o.timestamp
  delta := o.delta
  length := o.length
  typ := o.typ
  streamID := o.streamID
  ext := o.ext
  extValue := if o.ext = true then o.delta else 0

open OutStream

/-- A message that has a form on the wire, and that the reader takes. -/
structure Message.Fits (limit : ℕ) (m : Message) : Prop where
  typ : m.typ < 2 ^ 8
  streamID : m.streamID < 2 ^ 32
  timestamp : m.timestamp < 2 ^ 32
  payload : m.payload.length < 2 ^ 24
  limit : m.payload.length ≤ limit
  csid : 2 ≤ m.csid ∧ m.csid < 65600

instance (limit : ℕ) (m : Message) : Decidable (m.Fits limit) :=
  decidable_of_iff (m.typ < 2 ^ 8 ∧ m.streamID < 2 ^ 32 ∧ m.timestamp < 2 ^ 32 ∧ m.payload.length < 2 ^ 24 ∧
      m.payload.length ≤ limit ∧ 2 ≤ m.csid ∧ m.csid < 65600)
    ⟨fun ⟨h1, h2, h3, h4, h5, h6⟩ => ⟨h1, h2, h3, h4, h5, h6⟩, fun ⟨h1, h2, h3, h4, h5, h6⟩ => ⟨h1, h2, h3, h4, h5, h6⟩⟩

section Header
variable {o : OutStream} {m : Message} {limit : ℕ}

theorem continues_iff : o.continues m = true ↔
    o.started = true ∧ o.streamID = m.streamID ∧ o.timestamp ≤ m.timestamp := by
  simp [continues, and_assoc]

theorem tsField_le : o.tsField m ≤ m.timestamp := by
  unfold tsField
  split_ifs
  · exact sub_le _ _
  · exact le_rfl

theorem format_le : o.format m ≤ 3 := by
  unfold OutStream.format
  split_ifs <;> decide

theorem format_cases (hfit : m.Fits limit) : (o.format m = 0 ∧ o.tsField m = m.timestamp) ∨
    (1 ≤ o.format m ∧ o.streamID = m.streamID ∧ o.timestamp + o.tsField m = m.timestamp ∧
      (2 ≤ o.format m → o.length = m.payload.length ∧ o.typ = m.typ) ∧ (o.format m = 3 → o.delta = o.tsField m)) := by
  have hlen := hfit.payload
  by_cases hc : o.continues m = true
  · obtain ⟨-, hid, hts⟩ := continues_iff.1 hc
    have hfield : o.tsField m = m.timestamp - o.timestamp := by rw [OutStream.tsField, if_pos hc]
    refine Or.inr ⟨?_, hid, by omega, ?_, ?_⟩
    · rw [OutStream.format, if_pos hc]
      split_ifs <;> decide
    · rw [OutStream.format, if_pos hc]
      split_ifs with h1 h2
      · intro h
        omega
      · intro _
        omega
      · intro _
        omega
    · rw [OutStream.format, if_pos hc]
      split_ifs with h1 h2
      · intro h
        omega
      · intro h
        omega
      · intro _
        omega
  · refine Or.inl ⟨?_, ?_⟩
    · rw [OutStream.format, if_neg hc]
    · rw [OutStream.tsField, if_neg hc]

theorem length_messageHeader {format ts : ℕ} (hf : format ≤ 3) :
    (messageHeader format ts m).length = headerSize format := by
  unfold messageHeader headerSize
  interval_cases format <;> simp

theorem getBE_field (ts : ℕ) : getBE (putBE 3 (min ts extended)) = min ts extended :=
  getBE_putBE (lt_of_le_of_lt (min_le_right _ _) (by decide))

theorem header_slices (v len typ : ℕ) (i : Bytes) :
    slice (putBE 3 v ++ (putBE 3 len ++ (putBE 1 typ ++ i))) 0 3 = putBE 3 v ∧
    slice (putBE 3 v ++ (putBE 3 len ++ (putBE 1 typ ++ i))) 3 3 = putBE 3 len ∧
    slice (putBE 3 v ++ (putBE 3 len ++ (putBE 1 typ ++ i))) 6 1 = putBE 1 typ ∧
    slice (putBE 3 v ++ (putBE 3 len ++ (putBE 1 typ ++ i))) 7 i.length = i := by
  refine ⟨slice_left (length_putBE 3 v) _, ?_, ?_, ?_⟩
  · rw [slice_right (length_putBE 3 v) _ 0 3]
    exact slice_left (length_putBE 3 len) _
  · rw [slice_right (length_putBE 3 v) _ (3 + 0) 1, slice_right (length_putBE 3 len)]
    exact slice_left (length_putBE 1 typ) _
  · rw [slice_right (length_putBE 3 v) _ (3 + (1 + 0)) _, slice_right (length_putBE 3 len),
      slice_right (length_putBE 1 typ), slice, drop_zero, take_length]

theorem head_eq (hfit : m.Fits limit) : o.mirror.head (o.format m) (messageHeader (o.format m) (o.tsField m) m) =
      ⟨if o.format m ≤ 2 then min (o.tsField m) extended else 0, m.payload.length, m.typ, m.streamID⟩ := by
  have hlen : getBE (putBE 3 m.payload.length) = m.payload.length := getBE_putBE hfit.payload
  have htyp : getBE (putBE 1 m.typ) = m.typ := getBE_putBE hfit.typ
  have hid : getLE (putLE 4 m.streamID) = m.streamID := getLE_putLE hfit.streamID
  have hfield := getBE_field (o.tsField m)
  have hslices := header_slices (min (o.tsField m) extended) m.payload.length m.typ
  rcases format_cases (o := o) hfit with ⟨hz, -⟩ | ⟨hone, hsid, -, htwo, -⟩
  · obtain ⟨e1, e2, e3, e4⟩ := hslices (putLE 4 m.streamID)
    rw [length_putLE] at e4
    simp [hz, InStream.head, messageHeader, append_assoc, e1, e2, e3, e4, hlen, htyp, hid, hfield]
  have hf : o.format m ≤ 3 := format_le
  obtain h1 | h2 : o.format m = 1 ∨ 2 ≤ o.format m := by omega
  · obtain ⟨e1, e2, e3, -⟩ := hslices []
    rw [append_nil] at e1 e2 e3
    simp [h1, InStream.head, messageHeader, e1, e2, e3, hlen, htyp, hfield, mirror, hsid]
  obtain ⟨hl, ht⟩ := htwo h2
  have e1 : slice (putBE 3 (min (o.tsField m) extended)) 0 3 = putBE 3 (min (o.tsField m) extended) := by
    have := slice_left (length_putBE 3 (min (o.tsField m) extended)) []
    rwa [append_nil] at this
  obtain h2 | h3 : o.format m = 2 ∨ o.format m = 3 := by omega
  · simp [h2, InStream.head, messageHeader, e1, hfield, mirror, hl, ht, hsid]
  · simp [h3, InStream.head, mirror, hl, ht, hsid]

def extOf (o : OutStream) (m : Message) : Option ℕ := if (o.next m).ext = true then some (o.tsField m) else none

theorem isSome_extOf : (extOf o m).isSome = (o.next m).ext := by
  unfold extOf
  cases (o.next m).ext <;> rfl

theorem next_ext_of_le (h : o.format m ≤ 2) : (o.next m).ext = decide (extended ≤ o.tsField m) := by
  rw [OutStream.next]
  exact if_pos (by omega)

theorem next_ext_of_three (h : o.format m = 3) : (o.next m).ext = o.ext := by
  rw [OutStream.next]
  exact if_neg (by omega)

theorem mirror_next (hfit : m.Fits limit) : (o.next m).mirror =
    ⟨m.timestamp, o.tsField m, m.payload.length, m.typ, m.streamID, (o.next m).ext,
      if (o.next m).ext = true then o.tsField m else 0, []⟩ := by
  have hpay := hfit.payload
  have hlength : m.payload.length % 2 ^ 32 = m.payload.length := mod_eq_of_lt (by omega)
  simp only [OutStream.mirror, OutStream.next, hlength]

theorem start_eq (hfit : m.Fits limit) :
    o.mirror.start (o.format m) ⟨if o.format m ≤ 2 then min (o.tsField m) extended else 0, m.payload.length, m.typ,
      m.streamID⟩ (extOf o m).isSome ((extOf o m).getD 0) = (o.next m).mirror := by
  have hts := hfit.timestamp
  have hf : o.format m ≤ 3 := format_le
  rw [isSome_extOf, mirror_next hfit]
  by_cases h2 : o.format m ≤ 2
  · -- the field is the timestamp or the delta, in the header or after it
    have hfield : (if (o.next m).ext = true then (extOf o m).getD 0 else min (o.tsField m) extended) =
        o.tsField m := by
      rw [extOf, next_ext_of_le h2]
      by_cases hx : extended ≤ o.tsField m
      · simp [hx]
      · simp only [hx, decide_false, Bool.false_eq_true, if_false]
        omega
    have hvalue : (extOf o m).getD 0 = if (o.next m).ext = true then o.tsField m else 0 := by
      unfold extOf
      split_ifs <;> rfl
    have htime : (if o.format m = 0 then o.tsField m else (o.timestamp + o.tsField m) % 2 ^ 32) = m.timestamp := by
      rcases format_cases (o := o) hfit with ⟨hz, heq⟩ | ⟨hone, -, heq, -, -⟩
      · rw [if_pos hz, heq]
      · rw [if_neg (by omega), heq, mod_eq_of_lt hts]
    simp only [start, if_pos h2]
    rw [hfield, hvalue]
    exact congrArg (fun t => mk t _ _ _ _ _ _ _) htime
  · have h3 : o.format m = 3 := by omega
    obtain ⟨hz, -⟩ | ⟨-, -, heq, -, hdelta⟩ := format_cases (o := o) hfit
    · omega
    · have htime : (o.timestamp + o.delta) % 2 ^ 32 = m.timestamp := by
        rw [hdelta h3, heq, mod_eq_of_lt hts]
      simp only [start, if_neg h2, if_neg (by omega : o.format m ≠ 0), mirror, htime]
      rw [next_ext_of_three h3, hdelta h3]

end Header

/-! ### The chunks of a message -/

section
variable (o : OutStream) (m : Message)

def firstChunk (data : Bytes) : Chunk :=
  ⟨o.format m, m.csid, messageHeader (o.format m) (o.tsField m) m, extOf o m, data⟩

def restChunk (data : Bytes) : Chunk := ⟨3, m.csid, [], extOf o m, data⟩

def chunksOf : List Bytes → List Chunk
  | [] => []
  | p :: ps => firstChunk o m p :: ps.map (restChunk o m)

end

theorem intercalate_cons (sep p : Bytes) (ps : List Bytes) :
    sep.intercalate (p :: ps) = p ++ ps.flatMap (sep ++ ·) := by
  induction ps generalizing p with
  | nil => simp [List.intercalate]
  | cons q ps ih =>
    have hcons : sep.intercalate (p :: q :: ps) = p ++ (sep ++ sep.intercalate (q :: ps)) := by
      simp [List.intercalate]
    rw [hcons, ih, flatMap_cons, append_assoc]

theorem pieces_ne_nil (size : ℕ+) (fuel : ℕ) (p : Bytes) : pieces size fuel p ≠ [] := by
  cases fuel with
  | zero => exact cons_ne_nil _ _
  | succ fuel =>
    unfold pieces
    split_ifs <;> exact cons_ne_nil _ _

theorem messageBytes_eq (c : Conn) (m : Message) : c.messageBytes m =
    (chunksOf (c.outStreams m.csid) m (pieces c.outChunkSize m.payload.length m.payload)).flatMap Chunk.bytes := by
  have hext : ∀ o : OutStream, (if (o.next m).ext = true then putBE 4 (o.tsField m) else []) =
      extBytes (extOf o m) := by
    intro o
    unfold extOf
    split_ifs <;> rfl
  obtain ⟨p, ps, hp⟩ := exists_cons_of_ne_nil (pieces_ne_nil c.outChunkSize m.payload.length m.payload)
  have hrest : (fun q => appendBasicHeader 3 m.csid ++ extBytes (extOf (c.outStreams m.csid) m) ++ q) =
      fun q => (restChunk (c.outStreams m.csid) m q).bytes := by
    funext q
    simp [restChunk, Chunk.bytes, append_assoc]
  simp only [Conn.messageBytes, hext, hp, intercalate_cons, hrest, chunksOf, flatMap_cons, flatMap_map]
  simp only [firstChunk, Chunk.bytes, append_assoc]

/-! ### The calls -/

inductive Op
  | write (m : Message)
  | setChunkSize (size : ℤ)
deriving DecidableEq

def Op.message : Op → Message
  | write m => m
  | setChunkSize size => Conn.setChunkSizeMessage size

def Op.apply (cfg : Config) (c : Conn) : Op → Conn
  | write m => (c.writeMessage cfg m).2
  | setChunkSize size => (c.setChunkSize cfg size).2

/-- The message with the chunk stream it goes on. -/
def Message.onStream (m : Message) : Message := { m with chunkStreamID := m.csid }

/-- The connection handles the others itself. -/
def Message.plain (m : Message) : Bool :=
  !([typeSetChunkSize, typeAbort, typeAck, typeWindowAckSize, typeSetPeerBandwidth, typeAggregate].contains m.typ) &&
    !Conn.isPing m

structure Op.Valid (limit : ℕ) (op : Op) : Prop where
  fits : op.message.Fits limit
  plain : ∀ m, op = .write m → m.plain = true

instance decidableValid (limit : ℕ) : (op : Op) → Decidable (op.Valid limit)
  | .write m => decidable_of_iff (m.Fits limit ∧ m.plain = true)
      ⟨fun ⟨h1, h2⟩ => ⟨h1, fun _ he => by cases he; exact h2⟩, fun h => ⟨h.fits, h.plain m rfl⟩⟩
  | .setChunkSize size => decidable_of_iff ((Conn.setChunkSizeMessage size).Fits limit)
      ⟨fun h => ⟨h, nofun⟩, fun h => h.fits⟩

/-- What the reader does about it. -/
def Op.after (c : Conn) : Op → Conn
  | write m => { c with heard := c.heard ++ [m.onStream] }
  | setChunkSize size => { c with inChunkSize := Conn.chunkSizeOf size }

variable {cfg : Config} {op : Op} {limit : ℕ}

theorem chunkSizeOf_le (size : ℤ) : (Conn.chunkSizeOf size : ℕ) ≤ maxChunkSize := by
  rw [Conn.chunkSizeOf, PNat.mk_coe, maxChunkSize]
  omega

theorem message_onStream (hcfg : ∀ ms, cfg.onMessage ms = {}) (h : op.Valid limit) (c : Conn) :
    c.message cfg op.message.onStream = (none, op.after c) := by
  cases op with
  | write m =>
    have hp := h.plain m rfl
    simp only [plain, contains_cons, contains_nil, Bool.or_false, Bool.and_eq_true,
      Bool.not_eq_true', Bool.or_eq_false_iff, beq_eq_false_iff_ne] at hp
    obtain ⟨⟨h1, h2, h3, h5, h6, h22⟩, hping⟩ := hp
    have hping' : Conn.isPing (onStream m) = false := hping
    simp only [Conn.message, Op.message, onStream, h1, h2, h3, h5, h6, h22, if_false]
    simp only [onStream] at hping'
    simp [hping', Conn.onMessage, hcfg, Op.after, onStream]
  | setChunkSize size =>
    have hle := chunkSizeOf_le size
    have hpos := (Conn.chunkSizeOf size).pos
    have hslice : slice (putBE 4 (Conn.chunkSizeOf size)) 0 4 = putBE 4 (Conn.chunkSizeOf size) := by
      have := slice_left (length_putBE 4 (Conn.chunkSizeOf size)) []
      rwa [append_nil] at this
    have hget : getBE (slice (putBE 4 (Conn.chunkSizeOf size)) 0 4) % 2 ^ 31 = Conn.chunkSizeOf size := by
      rw [maxChunkSize] at hle
      rw [hslice, getBE_putBE (by omega)]
      omega
    simp only [Conn.message, Op.message, onStream, Conn.setChunkSizeMessage, if_true, hget, length_putBE]
    rw [if_neg (by omega), if_neg (by omega)]
    rfl

/-! ### Reading a message -/

section Reading
variable {o : OutStream} {c : Conn}

theorem after_setStream (x : ℕ) (s s' : InStream) (p p' : ℤ) :
    (op.after (c.setStream x s p)).setStream x s' p' = (op.after c).setStream x s' p' := by
  cases op <;> simp [Op.after, Conn.setStream]

theorem setStream_setStream (x : ℕ) (s s' : InStream) (p p' : ℤ) :
    (c.setStream x s p).setStream x s' p' = c.setStream x s' p' := by
  simp [Conn.setStream]

theorem after_setStream_comm (x : ℕ) (s : InStream) (p : ℤ) :
    op.after (c.setStream x s p) = (op.after c).setStream x s p := by
  cases op <;> rfl

/-- A connection that reads chunks of a size and owes no acknowledgement. -/
structure Conn.Ready (c : Conn) (size : ℕ) : Prop where
  going : c.Going
  window : c.peerWindow = 0
  size : c.inChunkSize = size

open Conn

theorem after_ready (op : Op) {size : ℕ} (h : c.Ready size) (x : ℕ) (s : InStream) (p : ℤ) :
    ((op.after c).setStream x s p).Going ∧ ((op.after c).setStream x s p).peerWindow = 0 := by
  cases op <;> exact ⟨⟨h.going.closed, h.going.state⟩, h.window⟩

/-- The reader's stream with the front of the message. -/
def partway (o : OutStream) (m : Message) (front : Bytes) : InStream :=
  ⟨m.timestamp, o.tsField m, m.payload.length, m.typ, m.streamID, (o.next m).ext,
    if (o.next m).ext = true then o.tsField m else 0, front⟩

variable {front data : Bytes}

theorem hold_part (hfit : op.message.Fits cfg.maxMessageSize)
    (hlt : front.length + data.length < op.message.payload.length) (off : ℕ) (hheld : c.partialBytes = front.length) :
    c.hold cfg op.message.csid (partway o op.message front) data off =
      (off, none, c.setStream op.message.csid (partway o op.message (front ++ data)) (front ++ data).length) := by
  have hlimit := hfit.limit
  have hlen : (front ++ data).length = front.length + data.length := length_append
  rw [hold, hheld, if_neg (by omega)]
  simp only [partway, InStream.withBuf, hlen]
  rw [if_pos hlt, cast_add]

theorem hold_last (hcfg : ∀ ms, cfg.onMessage ms = {}) (h : op.Valid cfg.maxMessageSize)
    (hall : front ++ data = op.message.payload) (off : ℕ) (hheld : c.partialBytes = front.length) :
    c.hold cfg op.message.csid (partway o op.message front) data off =
      (off, none, (op.after c).setStream op.message.csid (partway o op.message []) 0) := by
  have hlimit := h.fits.limit
  have hlen : (front ++ data).length = front.length + data.length := length_append
  rw [← hall, hlen] at hlimit
  have hfull : ¬ (front ++ data).length < op.message.payload.length := by rw [hall]; exact lt_irrefl _
  have hzero : (front.length : ℤ) + data.length - (front ++ data).length = 0 := by
    rw [hlen]
    omega
  have hmsg : (partway o op.message (front ++ data)).toMessage op.message.csid (front ++ data) =
      op.message.onStream := by
    rw [hall]
    rfl
  have hheld' : ∀ s, (op.after (c.setStream op.message.csid s 0)).partialBytes = 0 := by
    intro s
    cases op <;> rfl
  rw [hold, hheld, if_neg (by omega)]
  dsimp only [partway, InStream.withBuf] at hmsg ⊢
  simp only [hmsg, hzero]
  rw [if_neg hfull, message_onStream hcfg h]
  simp only [hheld', after_setStream]

theorem next_rest (hfit : op.message.Fits cfg.maxMessageSize) {held : ℤ} (hfront : front ≠ [])
    (hdata : data.length = min (op.message.payload.length - front.length) c.inChunkSize) :
    (restChunk o op.message data).Next cfg (c.setStream op.message.csid (partway o op.message front) held)
      (partway o op.message front) (c.setStream op.message.csid (partway o op.message front) held) := by
  have hts := hfit.timestamp
  have hle : o.tsField op.message ≤ op.message.timestamp := tsField_le
  refine ⟨hfit.csid, le_rfl, rfl, ?_, ?_, ?_, hfit.limit, ?_⟩
  · simp [stream, setStream, restChunk]
  · rw [restChunk, isSome_extOf]
    simp [partway]
  · intro v hv
    have hv' : extOf o op.message = some v := hv
    unfold extOf at hv'
    split_ifs at hv' with hx
    cases hv'
    exact ⟨by omega, fun _ => (if_pos hx).symm⟩
  · have hcont : (partway o op.message front).continuing (restChunk o op.message data).format = true := by
      simp [continuing, restChunk, partway, hfront]
    rw [dataLength, if_pos hcont]
    exact hdata

theorem payload_rest (hfront : front ≠ []) (s : InStream) (off : ℕ) :
    c.payload cfg op.message.csid (partway o op.message front) s 3 data off =
      c.hold cfg op.message.csid (partway o op.message front) data off := by
  rw [Conn.payload, if_pos]
  simp [continuing, partway, hfront]

theorem rest_reads_part (hfit : op.message.Fits cfg.maxMessageSize) (hfront : front ≠ [])
    (hlt : front.length + data.length < op.message.payload.length) (hdata : data.length = c.inChunkSize) :
    (restChunk o op.message data).Reads cfg (c.setStream op.message.csid (partway o op.message front) front.length)
      (c.setStream op.message.csid (partway o op.message (front ++ data)) (front ++ data).length) := by
  refine ⟨_, _, next_rest hfit hfront (by omega), ?_⟩
  rw [restChunk, payload_rest hfront, hold_part hfit hlt _ rfl, setStream_setStream]

theorem rest_reads_last (hcfg : ∀ ms, cfg.onMessage ms = {}) (h : op.Valid cfg.maxMessageSize)
    (hfront : front ≠ []) (hall : front ++ data = op.message.payload) (hdata : data.length ≤ c.inChunkSize) :
    (restChunk o op.message data).Reads cfg (c.setStream op.message.csid (partway o op.message front) front.length)
      ((op.after c).setStream op.message.csid (partway o op.message []) 0) := by
  have hlen : front.length + data.length = op.message.payload.length := by rw [← hall, length_append]
  refine ⟨_, _, next_rest h.fits hfront (by omega), ?_⟩
  rw [restChunk, payload_rest hfront, hold_last hcfg h hall _ rfl, after_setStream]

theorem after_countIn (n : ℕ) : op.after (c.countIn n) = (op.after c).countIn n := by
  cases op <;> rfl

theorem countIn_countIn (n m : ℕ) : (c.countIn n).countIn m = c.countIn (n + m) := by
  rw [countIn, countIn, countIn, add_assoc]

theorem setStream_countIn (x : ℕ) (s : InStream) (p : ℤ) (n : ℕ) :
    (c.setStream x s p).countIn n = (c.countIn n).setStream x s p := rfl

theorem Conn.Ready.countIn {size : ℕ} (h : c.Ready size) (n : ℕ) : (c.countIn n).Ready size :=
  ⟨⟨h.going.closed, h.going.state⟩, h.window, h.size⟩

theorem rest_chain (hcfg : ∀ ms, cfg.onMessage ms = {}) (h : op.Valid cfg.maxMessageSize) {size : ℕ+}
    (hc : c.Ready size) {fuel : ℕ} {p : Bytes} (hfront : front ≠ []) (hp : p ≠ []) (hf : p.length ≤ fuel)
    (hall : front ++ p = op.message.payload) :
    ∃ n, Chain cfg (c.setStream op.message.csid (partway o op.message front) front.length)
      ((pieces size fuel p).map (restChunk o op.message))
      (((op.after c).setStream op.message.csid (partway o op.message []) 0).countIn n) := by
  have hlen : front.length + p.length = op.message.payload.length := by rw [← hall, length_append]
  induction fuel generalizing c front p with
  | zero => exact absurd (length_eq_zero_iff.1 (le_zero.1 hf)) hp
  | succ fuel ih =>
    have hpos := size.pos
    rw [pieces]
    split_ifs with hlast
    · obtain ⟨hgoing, hwindow⟩ := after_ready op hc op.message.csid (partway o op.message []) 0
      have hread := rest_reads_last (o := o) hcfg h hfront hall (by rw [hc.size]; exact hlast)
      exact ⟨_, .cons hread hgoing hwindow (.nil _)⟩
    have htake : (p.take size).length = size := length_take_of_le (by omega)
    have hread := rest_reads_part (o := o) h.fits hfront (by omega) (htake.trans hc.size.symm)
    have hp' : p.drop size ≠ [] := by
      rw [Ne, drop_eq_nil_iff]
      exact hlast
    obtain ⟨n, hn⟩ := ih (hc.countIn (restChunk o op.message (p.take size)).bytes.length)
      (by simp [hfront] : front ++ p.take size ≠ []) hp' (by rw [length_drop]; omega)
      (by rw [append_assoc, take_append_drop, hall]) (by
        rw [length_append, htake, length_drop]
        omega)
    rw [after_countIn, ← setStream_countIn, ← setStream_countIn, countIn_countIn] at hn
    exact ⟨_, .cons hread ⟨hc.going.closed, hc.going.state⟩ hc.window hn⟩

theorem next_first (hfit : op.message.Fits cfg.maxMessageSize) {c' : Conn}
    (hs : c.stream (o.format op.message) op.message.csid = some (o.mirror, c'))
    (hdata : data.length = min op.message.payload.length c'.inChunkSize) :
    (firstChunk o op.message data).Next cfg c o.mirror c' := by
  have hts := hfit.timestamp
  have hle : o.tsField op.message ≤ op.message.timestamp := tsField_le
  have hf : o.format op.message ≤ 3 := format_le
  have hfresh : ∀ f, o.mirror.continuing f = false := fun f => rfl
  refine ⟨hfit.csid, hf, length_messageHeader hf, hs, ?_, ?_, ?_, ?_⟩
  · rw [firstChunk]
    simp only [isSome_extOf, head_eq hfit]
    by_cases h2 : o.format op.message ≤ 2
    · rw [next_ext_of_le h2, if_pos h2, decide_eq_true_eq]
      constructor
      · intro hx
        exact Or.inl ⟨h2, min_eq_right hx⟩
      · rintro (⟨-, hx⟩ | ⟨h3, -⟩) <;> omega
    · have h3 : o.format op.message = 3 := by omega
      rw [next_ext_of_three h3]
      simp [h3, mirror]
  · intro v hv
    have hv' : extOf o op.message = some v := hv
    unfold extOf at hv'
    split_ifs at hv' with hx
    cases hv'
    refine ⟨by omega, fun hc => ?_⟩
    rw [hfresh] at hc
    contradiction
  · rw [firstChunk]
    simp only [head_eq hfit]
    exact hfit.limit
  · rw [firstChunk, dataLength]
    simp only [head_eq hfit, hfresh, Bool.false_eq_true, if_false]
    exact hdata

theorem payload_first (hfit : op.message.Fits cfg.maxMessageSize) (data : Bytes) (off : ℕ) :
    c.payload cfg op.message.csid o.mirror (o.mirror.start (o.format op.message)
      (o.mirror.head (o.format op.message) (messageHeader (o.format op.message) (o.tsField op.message) op.message))
      (extOf o op.message).isSome ((extOf o op.message).getD 0)) (o.format op.message) data off =
    if data.length = op.message.payload.length then
      let r := (c.setStream op.message.csid (partway o op.message []) c.partialBytes).message cfg
        ((partway o op.message []).toMessage op.message.csid data)
      (off, r.1, r.2)
    else (c.setStream op.message.csid (partway o op.message []) c.partialBytes).hold cfg op.message.csid
      (partway o op.message []) data off := by
  have hstart : (o.next op.message).mirror = partway o op.message [] := mirror_next hfit
  have hbegin : c.begin op.message.csid o.mirror (partway o op.message []) =
      c.setStream op.message.csid (partway o op.message []) c.partialBytes := by
    rw [Conn.begin]
    congr 1
    exact sub_zero _
  rw [head_eq hfit, start_eq hfit, hstart, Conn.payload, if_neg (by exact Bool.false_ne_true), hbegin]
  rfl

theorem message_chain (hcfg : ∀ ms, cfg.onMessage ms = {}) (h : op.Valid cfg.maxMessageSize) {size : ℕ+} {c' : Conn}
    (hc : c'.Ready size) (hs : c.stream (o.format op.message) op.message.csid = some (o.mirror, c'))
    (hidle : c'.partialBytes = 0) :
    ∃ n, Chain cfg c (chunksOf o op.message (pieces size op.message.payload.length op.message.payload))
      (((op.after c').setStream op.message.csid (partway o op.message []) 0).countIn n) := by
  set p := op.message.payload
  have hlen : op.message.payload.length = p.length := rfl
  by_cases hwhole : p.length ≤ size
  · have hpieces : pieces size p.length p = [p] := by
      cases hl : p.length with
      | zero => rfl
      | succ l => rw [pieces, if_pos (by omega)]
    have hread : (firstChunk o op.message p).Reads cfg c
        ((op.after c').setStream op.message.csid (partway o op.message []) 0) := by
      refine ⟨_, _, next_first h.fits hs (by rw [hc.size]; omega), ?_⟩
      have hmsg : (partway o op.message []).toMessage op.message.csid p = op.message.onStream := rfl
      rw [firstChunk, payload_first h.fits, if_pos rfl, hidle]
      simp only [hmsg, message_onStream hcfg h, after_setStream_comm]
    obtain ⟨hgoing, hwindow⟩ := after_ready op hc op.message.csid (partway o op.message []) 0
    rw [hpieces]
    exact ⟨_, .cons hread hgoing hwindow (.nil _)⟩
  · obtain ⟨l, hl⟩ : ∃ l, p.length = l + 1 := ⟨p.length - 1, by omega⟩
    have hpieces : pieces size p.length p = p.take size :: pieces size l (p.drop size) := by
      rw [hl, pieces, if_neg (by omega)]
    have hpos := size.pos
    have htake : (p.take size).length = size := length_take_of_le (by omega)
    have hfront : p.take size ≠ [] := ne_nil_of_length_pos (by omega)
    have hrest : p.drop size ≠ [] := by
      rw [Ne, drop_eq_nil_iff]
      exact hwhole
    have hread : (firstChunk o op.message (p.take size)).Reads cfg c
        (c'.setStream op.message.csid (partway o op.message (p.take size)) (p.take size).length) := by
      have hne : (p.take size).length ≠ op.message.payload.length := by omega
      refine ⟨_, _, next_first h.fits hs (by rw [hc.size, htake]; omega), ?_⟩
      rw [firstChunk, payload_first h.fits, if_neg hne, hidle,
        hold_part h.fits (by rw [htake, length_nil]; omega) _ rfl, setStream_setStream, nil_append]
    obtain ⟨n, hn⟩ := rest_chain (o := o) hcfg h
      (hc.countIn (firstChunk o op.message (p.take size)).bytes.length) hfront hrest
      (by rw [length_drop]; omega : _ ≤ l) (take_append_drop _ _)
    rw [after_countIn, ← setStream_countIn, ← setStream_countIn, countIn_countIn] at hn
    rw [hpieces]
    exact ⟨_, .cons hread ⟨hc.going.closed, hc.going.state⟩ hc.window hn⟩

end Reading

/-! ### Both ends -/

def Op.heard : Op → List Message
  | write m => [m.onStream]
  | setChunkSize _ => []

/-- The reader is where the writer is. -/
structure Synced (used : Finset ℕ) (w r : Conn) : Prop where
  writing : w.closed = false
  ready : r.Ready w.outChunkSize
  idle : r.partialBytes = 0
  indexed : r.Indexed
  used : ∀ id ∈ r.inIds, id ∈ used
  agrees : ∀ id, r.inStreams id = some (w.outStreams id).mirror ∨ (r.inStreams id = none ∧ w.outStreams id = {})

section Both
variable {used : Finset ℕ} {w r : Conn} {m : Message}

theorem Synced.stream (h : Synced used w r) (hused : m.csid ∈ used) (hcard : used.card ≤ 64) :
    ∃ r', r.stream ((w.outStreams m.csid).format m) m.csid = some ((w.outStreams m.csid).mirror, r') ∧
      r'.Ready w.outChunkSize ∧ r'.partialBytes = 0 ∧ r'.heard = r.heard ∧ r'.Indexed ∧
      (∀ id ∈ r'.inIds, id ∈ used) ∧ m.csid ∈ r'.inIds ∧ ∀ id, id ≠ m.csid → r'.inStreams id = r.inStreams id := by
  obtain ⟨hnodup, hids⟩ := h.indexed
  rcases h.agrees m.csid with hs | ⟨hn, ho⟩
  · refine ⟨r, ?_, h.ready, h.idle, rfl, h.indexed, h.used, ?_, fun _ _ => rfl⟩
    · rw [Conn.stream, hs]
    · rw [hids, hs]
      rfl
  have hnot : m.csid ∉ r.inIds := by
    rw [hids, hn]
    exact Bool.false_ne_true
  have hlt : r.inIds.length < 64 := by
    have hsub : insert m.csid r.inIds.toFinset ⊆ used := by
      intro id hid
      rcases Finset.mem_insert.1 hid with rfl | hid
      · exact hused
      · exact h.used id (mem_toFinset.1 hid)
    have hle := Finset.card_le_card hsub
    rw [Finset.card_insert_of_notMem (by rwa [mem_toFinset]), toFinset_card_of_nodup hnodup] at hle
    omega
  refine ⟨{ r with
    inStreams := update r.inStreams m.csid (some {})
    inIds := m.csid :: r.inIds }, ?_, ?_, h.idle, rfl, ?_, ?_, mem_cons_self, ?_⟩
  · rw [Conn.stream, hn, ho]
    simp only
    rw [if_neg (fun hne => hne rfl), if_neg (not_le.2 hlt)]
    rfl
  · exact ⟨⟨h.ready.going.closed, h.ready.going.state⟩, h.ready.window, h.ready.size⟩
  · refine ⟨nodup_cons.2 ⟨hnot, hnodup⟩, fun id => ?_⟩
    by_cases he : id = m.csid
    · subst he
      simp
    · simp [he, hids]
  · intro id hid
    rcases mem_cons.1 hid with rfl | hid
    · exact hused
    · exact h.used id hid
  · intro id hne
    exact update_of_ne hne _ _

theorem apply_eq (hout : ∀ bs, cfg.output bs = false) (hw : w.closed = false) (op : Op) :
    (op.apply cfg w).sent = w.sent ++ [w.messageBytes op.message] ∧ (op.apply cfg w).closed = false ∧
    (op.apply cfg w).outStreams = update w.outStreams op.message.csid ((w.outStreams op.message.csid).next op.message) ∧
    ∀ c : Conn, c.inChunkSize = w.outChunkSize → (op.after c).inChunkSize = (op.apply cfg w).outChunkSize := by
  have hwrite : ∀ m, w.writeMessage cfg m = (none, { w with
      outStreams := update w.outStreams m.csid ((w.outStreams m.csid).next m)
      sent := w.sent ++ [w.messageBytes m] }) := by
    intro m
    rw [Conn.writeMessage, if_neg (by rw [hw]; decide)]
    simp only [Conn.output, hout, hw, Bool.false_eq_true, if_false]
  cases op with
  | write m =>
    rw [Op.apply, hwrite]
    exact ⟨rfl, hw, rfl, fun c hc => hc⟩
  | setChunkSize size =>
    rw [Op.apply, Conn.setChunkSize, hwrite]
    exact ⟨rfl, hw, rfl, fun c _ => rfl⟩

theorem Synced.apply {wcfg : Config} (hout : ∀ bs, wcfg.output bs = false) (hcfg : ∀ ms, cfg.onMessage ms = {})
    (h : Synced used w r) (hv : op.Valid cfg.maxMessageSize) (hused : op.message.csid ∈ used) (hcard : used.card ≤ 64) :
    ∃ ks r', (op.apply wcfg w).sent = w.sent ++ [ks.flatMap Chunk.bytes] ∧ Chain cfg r ks r' ∧
      Synced used (op.apply wcfg w) r' ∧ r'.heard = r.heard ++ op.heard := by
  obtain ⟨r', hs, hready, hidle, hheard, hindexed, hids, hmem, hothers⟩ := h.stream hused hcard
  obtain ⟨hsent, hclosed, hstreams, hsize⟩ := apply_eq hout h.writing op
  obtain ⟨n, hn⟩ := message_chain hcfg hv hready hs hidle
  have hgoing := (after_ready op hready op.message.csid (partway (w.outStreams op.message.csid) op.message []) 0)
  have hin : (op.after r').inStreams = r'.inStreams ∧ (op.after r').inIds = r'.inIds := by cases op <;> exact ⟨rfl, rfl⟩
  refine ⟨_, _, by rw [hsent, messageBytes_eq], hn, ⟨hclosed, ⟨⟨hgoing.1.closed, hgoing.1.state⟩, hgoing.2, ?_⟩, rfl,
    ⟨?_, ?_⟩, ?_, ?_⟩, ?_⟩
  · exact hsize r' hready.size
  · simp only [Conn.countIn, Conn.setStream, hin.2]
    exact hindexed.1
  · intro id
    simp only [Conn.countIn, Conn.setStream, hin.1, hin.2]
    by_cases he : id = op.message.csid
    · subst he
      simp [hmem]
    · rw [update_of_ne he]
      exact hindexed.2 id
  · simp only [Conn.countIn, Conn.setStream, hin.2]
    exact hids
  · intro id
    simp only [Conn.countIn, Conn.setStream, hin.1, hstreams]
    by_cases he : id = op.message.csid
    · subst he
      rw [update_self, update_self, mirror_next hv.fits]
      exact Or.inl rfl
    · rw [update_of_ne he, update_of_ne he, hothers id he]
      exact h.agrees id
  · rw [← hheard]
    cases op with
    | write m => rfl
    | setChunkSize size => exact (append_nil _).symm

theorem Synced.run {wcfg : Config} (hout : ∀ bs, wcfg.output bs = false) (hcfg : ∀ ms, cfg.onMessage ms = {})
    (hcard : used.card ≤ 64) {ops : List Op} (h : Synced used w r)
    (hops : ∀ op ∈ ops, op.Valid cfg.maxMessageSize ∧ op.message.csid ∈ used) :
    ∃ ks r', (ops.foldl (Op.apply wcfg) w).sent.flatten = w.sent.flatten ++ ks.flatMap Chunk.bytes ∧
      Chain cfg r ks r' ∧ r'.heard = r.heard ++ ops.flatMap Op.heard := by
  induction ops generalizing w r with
  | nil => exact ⟨[], r, by simp, .nil r, by simp⟩
  | cons op ops ih =>
    obtain ⟨hv, hused⟩ := hops op mem_cons_self
    obtain ⟨ks, r1, hsent, hchain, hsynced, hheard⟩ := h.apply hout hcfg hv hused hcard
    obtain ⟨ks', r2, hsent', hchain', hheard'⟩ := ih hsynced fun op' hop => hops op' (mem_cons_of_mem _ hop)
    refine ⟨ks ++ ks', r2, ?_, hchain.append hchain', ?_⟩
    · rw [foldl_cons, hsent', hsent]
      simp [flatMap_append]
    · rw [hheard', hheard, flatMap_cons, append_assoc]

end Both

def established : Conn := { state := .done }

theorem synced_established (used : Finset ℕ) : Synced used established established where
  writing := rfl
  ready := ⟨⟨rfl, rfl⟩, rfl, rfl⟩
  idle := rfl
  indexed := ⟨nodup_nil, fun id => by simp [established]⟩
  used := fun id hid => absurd hid not_mem_nil
  agrees := fun id => Or.inr ⟨rfl, rfl⟩

theorem chunking_lossless (wcfg : Config) (hout : ∀ bs, wcfg.output bs = false) (rcfg : Config)
    (hon : ∀ ms, rcfg.onMessage ms = {}) (ops : List Op) (hops : ∀ op ∈ ops, op.Valid rcfg.maxMessageSize)
    (hids : (ops.map fun op => op.message.csid).toFinset.card ≤ 64) (calls : List Bytes)
    (hcalls : calls.flatten = (ops.foldl (Op.apply wcfg) established).sent.flatten) :
    (Reader.feeds rcfg ⟨established, []⟩ calls).conn.heard = ops.flatMap Op.heard ∧
      ∀ (cfg : Config) (state : Handshake) (any : List Bytes),
        let c := (Reader.feeds cfg ⟨{ state := state }, []⟩ any).conn
        c.partialBytes = c.heldBytes ∧ c.partialBytes ≤ cfg.maxMessageSize := by
  constructor
  · have hsynced := synced_established (ops.map fun op => op.message.csid).toFinset
    obtain ⟨ks, r', hsent, hchain, hheard⟩ := hsynced.run hout hon hids fun op hop =>
      ⟨hops op hop, mem_toFinset.2 (mem_map_of_mem hop)⟩
    have hdue : Due rcfg established [] calls.flatten r' := by
      refine ⟨⟨rfl, rfl⟩, ks, hchain, ?_, fun k _ => k.bytes_pos⟩
      rw [nil_append, hcalls, hsent]
      rfl
    have hfeeds : (Reader.feeds rcfg ⟨established, []⟩ calls).conn = r' := Due.feeds hdue
    rw [hfeeds, hheard]
    rfl
  · intro cfg state any
    have hnew : Conn.Holds cfg { state := state } := (holds_new cfg).same ⟨rfl, rfl, rfl⟩
    have hholds : (Reader.feeds cfg ⟨{ state := state }, []⟩ any).conn.Holds cfg := holds_feeds hnew any
    exact ⟨hholds.counted, hholds.bounded⟩

/-- Messages in chunks of three bytes, with and without extended timestamps, on two streams. -/
def someCalls : List Op :=
  [.setChunkSize 3, .write { typ := 9, streamID := 1, timestamp := 16777215, payload := [1, 2, 3, 4, 5] },
    .write { typ := 9, streamID := 1, timestamp := 33554430, payload := [5, 4, 3, 2, 1] },
    .write { typ := 8, streamID := 1, timestamp := 7, chunkStreamID := 320, payload := [] },
    .write { typ := 9, streamID := 1, timestamp := 33554440, payload := [6, 7, 8, 9] },
    .write { typ := 9, streamID := 1, timestamp := 5, payload := [6, 7] }]

theorem someCalls_lossless :
    (Reader.feeds {} ⟨established, []⟩ ((someCalls.foldl (Op.apply {}) established).sent.flatten.map
      ([·]))).conn.heard =
      someCalls.flatMap Op.heard :=
  (chunking_lossless {} (fun _ => rfl) {} (fun _ => rfl) someCalls (by decide) (by decide) _
    (by decide)).1

end Fib.Rtmp
