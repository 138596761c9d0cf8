import Fib.Lib.Scanner
import Fib.Websocket.Validator

/-! WebSocket frames, RFC 6455: reading the header at the head of a buffer, unmasking, the checks of
a payload, and what a frame that is complete delivers. Permessage-deflate is off. -/

namespace Fib.Websocket
open List

inductive Opcode
  | continuation | text | binary | close | ping | pong
  deriving DecidableEq

/-- The opcodes the source's switch knows; every other one is refused. -/
def Opcode.ofByte (b : UInt8) : Option Opcode :=
  if b = 0x0 then some .continuation
  else if b = 0x1 then some .text
  else if b = 0x2 then some .binary
  else if b = 0x8 then some .close
  else if b = 0x9 then some .ping
  else if b = 0xa then some .pong
  else none

def Opcode.control : Opcode → Bool
  | .close | .ping | .pong => true
  | .continuation | .text | .binary => false

/-- `ErrProtocol`, `ErrMessageTooBig` and `ErrInvalidPayload`. -/
inductive WsError
  | protocol | messageTooBig | invalidPayload
  deriving DecidableEq

structure Event where
  opcode : Opcode
  payload : Bytes
  fin : Bool
  deriving DecidableEq

structure FragmentedMessage where
  opcode : Opcode
  data : Bytes := []
  deriving DecidableEq

structure Settings where
  maxMessageBytes : ℕ
  fromServer : Bool
  perFrame : Bool

/-- Reading from a buffer that may not hold enough: the error `none` asks for more bytes. -/
abbrev Reading := Except (Option WsError)

/-- A reading that more bytes do not change once it does not ask for them. -/
def Stable {α : Type} (f : Bytes → Reading α) : Prop := ∀ b x, f b ≠ .error none → f (b ++ x) = f b

section Stable
variable {α β : Type} {f : Bytes → Reading α} {g : α → Bytes → Reading β}

theorem Stable.const (r : Reading α) : Stable fun _ => r := fun _ _ _ => rfl

theorem Stable.bind (hf : Stable f) (hg : ∀ a, Stable (g a)) : Stable fun b => f b >>= fun a => g a b := by
  intro b x h
  cases ha : f b with
  | error e =>
    cases e with
    | none => simp only [ha] at h; exact absurd rfl h
    | some e => simp only [hf b x (by simp [ha]), ha]; rfl
  | ok a =>
    simp only [ha] at h
    simp only [hf b x (by simp [ha]), ha]
    exact hg a b x h

theorem Stable.ite {c : Prop} [Decidable c] {f' : Bytes → Reading α} (hf : Stable f) (hf' : Stable f') :
    Stable fun b => if c then f b else f' b := by
  by_cases hc : c
  · simpa only [if_pos hc] using hf
  · simpa only [if_neg hc] using hf'

end Stable

def readBytes (offset n : ℕ) (b : Bytes) : Reading Bytes :=
  if b.length < offset + n then .error none else .ok ((b.drop offset).take n)

theorem stable_readBytes (offset n : ℕ) : Stable (readBytes offset n) := by
  intro b x h
  unfold readBytes at h ⊢
  by_cases hb : b.length < offset + n
  · rw [if_pos hb] at h
    exact absurd rfl h
  · rw [if_neg hb, if_neg (by simp; omega), drop_append_of_le_length (by omega),
      take_append_of_le_length (by simp; omega)]

def bigEndian (b : Bytes) : ℕ := b.foldl (fun n c => n * 256 + c.toNat) 0

structure Header where
  opcode : Opcode
  fin : Bool
  payloadLen : ℕ
  offset : ℕ
  mask : Option Bytes
  text : Bool

/-- The checks the first two bytes allow. -/
def checkFirst (s : Settings) (fragment : Option FragmentedMessage) (first second : UInt8) : Reading Opcode :=
  if first &&& 0x30 ≠ 0 ∨ (second &&& 0x80 != 0) = s.fromServer ∨ first &&& 0x40 ≠ 0 then
    .error (some .protocol)
  else
    match Opcode.ofByte (first &&& 0x0f) with
    | none => .error (some .protocol)
    | some opcode =>
      if opcode.control = true ∧ (first &&& 0x80 = 0 ∨ second &&& 0x7f > 125) then .error (some .protocol)
      else if opcode = .continuation ∧ fragment = none then .error (some .protocol)
      else if (opcode = .text ∨ opcode = .binary) ∧ fragment ≠ none then .error (some .protocol)
      else .ok opcode

def readLength (second : UInt8) (b : Bytes) : Reading (ℕ × ℕ) :=
  if second &&& 0x7f = 126 then
    readBytes 2 2 b >>= fun field =>
      if bigEndian field < 126 then .error (some .protocol) else .ok (bigEndian field, 4)
  else if second &&& 0x7f = 127 then
    readBytes 2 8 b >>= fun field =>
      if bigEndian field < 65536 ∨ bigEndian field ≥ 2 ^ 63 then .error (some .protocol)
      else .ok (bigEndian field, 10)
  else .ok ((second &&& 0x7f).toNat, 2)

def checkSize (s : Settings) (fragment : Option FragmentedMessage) (opcode : Opcode) (payloadLen : ℕ) : Reading Unit :=
  let current := (fragment.map fun f => f.data.length).getD 0
  if opcode.control = false ∧ (payloadLen > s.maxMessageBytes ∨ current + payloadLen > s.maxMessageBytes) then
    .error (some .messageTooBig)
  else .ok ()

def readMask (masked : Bool) (offset : ℕ) (b : Bytes) : Reading (Option Bytes × ℕ) :=
  if masked then readBytes offset 4 b >>= fun mask => .ok (some mask, offset + 4)
  else .ok (none, offset)

def readHeader (s : Settings) (fragment : Option FragmentedMessage) (b : Bytes) : Reading Header :=
  readBytes 0 2 b >>= fun two =>
    checkFirst s fragment (two.getD 0 0) (two.getD 1 0) >>= fun opcode =>
      readLength (two.getD 1 0) b >>= fun length =>
        checkSize s fragment opcode length.1 >>= fun _ =>
          readMask (two.getD 1 0 &&& 0x80 != 0) length.2 b >>= fun mask =>
            .ok {
              opcode
              fin := two.getD 0 0 &&& 0x80 != 0
              payloadLen := length.1
              offset := mask.2
              mask := mask.1
              text := opcode == .text ||
                opcode == .continuation && fragment.map (·.opcode) == some .text }

theorem stable_readLength (second : UInt8) : Stable (readLength second) :=
  .ite (.bind (stable_readBytes 2 2) fun _ => .const _)
    (.ite (.bind (stable_readBytes 2 8) fun _ => .const _) (.const _))

theorem stable_readMask (masked : Bool) (offset : ℕ) : Stable (readMask masked offset) :=
  .ite (.bind (stable_readBytes offset 4) fun _ => .const _) (.const _)

theorem stable_readHeader (s : Settings) (fragment : Option FragmentedMessage) : Stable (readHeader s fragment) :=
  .bind (stable_readBytes 0 2) fun _ => .bind (.const _) fun _ => .bind (stable_readLength _) fun _ =>
    .bind (.const _) fun _ => .bind (stable_readMask _ _) fun _ => .const _

section Mask

/-- Bytes of a payload from its `k`th on, masked; masking them again unmasks them. -/
def maskFrom (mask : Bytes) (k : ℕ) (p : Bytes) : Bytes :=
  p.mapIdx fun i c => c ^^^ mask.getD ((k + i) % 4) 0

def applyMask (p mask : Bytes) : Bytes := maskFrom mask 0 p

variable (mask : Bytes) (k : ℕ) (p q : Bytes)

@[simp] theorem length_maskFrom : (maskFrom mask k p).length = p.length := length_mapIdx

theorem maskFrom_append : maskFrom mask k (p ++ q) = maskFrom mask k p ++ maskFrom mask (k + p.length) q := by
  unfold maskFrom
  rw [mapIdx_append]
  simp only [Nat.add_assoc, Nat.add_comm p.length]

theorem drop_maskFrom (n : ℕ) : (maskFrom mask k p).drop n = maskFrom mask (k + n) (p.drop n) := by
  refine ext_getElem? fun i => ?_
  simp only [maskFrom, List.getElem?_drop, List.getElem?_mapIdx, Nat.add_assoc]

def Header.payload (h : Header) (b : Bytes) : Bytes :=
  match h.mask with
  | none => (b.drop h.offset).take h.payloadLen
  | some mask => applyMask ((b.drop h.offset).take h.payloadLen) mask

variable (h : Header) (b x : Bytes)

theorem Header.length_payload : (h.payload b).length = min h.payloadLen (b.length - h.offset) := by
  unfold payload applyMask
  cases h.mask <;> simp

theorem Header.payload_mono : h.payload b <+: h.payload (b ++ x) := by
  have hraw : (b.drop h.offset).take h.payloadLen <+: ((b ++ x).drop h.offset).take h.payloadLen := by
    rw [List.drop_append]
    exact (prefix_append _ _).take _
  obtain ⟨y, hy⟩ := hraw
  unfold payload applyMask
  cases h.mask with
  | none => exact ⟨y, hy⟩
  | some mask =>
    rw [← hy]
    simp only [maskFrom_append]
    exact prefix_append _ _

theorem Header.payload_append (hb : h.offset + h.payloadLen ≤ b.length) : h.payload (b ++ x) = h.payload b := by
  refine ((h.payload_mono b x).eq_of_length ?_).symm
  simp only [length_payload, length_append]
  omega

end Mask

def validCloseCode (code : ℕ) : Bool :=
  if code ≥ 1000 ∧ code ≤ 1014 then code != 1004 && code != 1005 && code != 1006
  else code ≥ 3000 && code ≤ 4999

/-- The payload of a close frame: a code and a reason, or nothing. -/
def checkClose (payload : Bytes) : Except WsError Unit :=
  if payload.length = 1 ∨ payload.length ≥ 2 ∧ validCloseCode (bigEndian (payload.take 2)) = false then
    .error .protocol
  else if payload.length > 2 ∧ Utf8.valid (payload.drop 2) = false then .error .invalidPayload
  else .ok ()

/-- What a complete frame does: the event it emits, and the message that is then being received. -/
structure Delivery where
  event : Option Event
  fragment : Option FragmentedMessage

def deliver (s : Settings) (fragment : Option FragmentedMessage) (h : Header) (payload : Bytes) : Delivery :=
  if h.opcode.control then ⟨some ⟨h.opcode, payload, true⟩, fragment⟩
  else match h.opcode, fragment with
    | .continuation, some f =>
      if s.perFrame then ⟨some ⟨f.opcode, payload, h.fin⟩, if h.fin then none else some f⟩
      else if h.fin then ⟨some ⟨f.opcode, f.data ++ payload, true⟩, none⟩
      else ⟨none, some { f with data := f.data ++ payload }⟩
    | _, _ =>
      if h.fin then ⟨some ⟨h.opcode, payload, true⟩, fragment⟩
      else if s.perFrame then ⟨some ⟨h.opcode, payload, false⟩, some ⟨h.opcode, []⟩⟩
      else ⟨none, some ⟨h.opcode, payload⟩⟩

/-- Whether the message is being held until it is whole: its frames are copied and consumed at once. -/
def held (s : Settings) (h : Header) : Bool :=
  !s.perFrame && (h.opcode == .continuation || !h.opcode.control && !h.fin)

end Fib.Websocket
