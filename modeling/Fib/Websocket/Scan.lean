import Fib.Websocket.Frame

/-! What a WebSocket stream means, whatever pieces it comes in: the scanner that looks at all that
has arrived of the frame at its head and keeps nothing of it between two looks. It emits an error
as its last result. More bytes never change what it has emitted. -/

namespace Fib.Websocket

/-- Between two frames: the message being received over several of them, and where its text stands. -/
inductive Status
  | live (fragment : Option FragmentedMessage) (text : Utf8.State)
  | dead

/-- What is emitted: an error, an event, or nothing for a fragment that is held. -/
abbrev Outcome := Except WsError (Option Event)

/-- Text continues where it stood, and ends between two sequences. -/
def checkText (text : Utf8.State) (fin : Bool) (payload : Bytes) : Except WsError Utf8.State :=
  match Utf8.run text payload with
  | none => .error .invalidPayload
  | some t => if fin then if t = none then .ok none else .error .invalidPayload else .ok t

def textAfter (text : Utf8.State) (h : Header) (payload : Bytes) : Except WsError Utf8.State :=
  if h.opcode.control then
    if h.opcode = .close then (checkClose payload).map fun _ => text else .ok text
  else if h.text then checkText text h.fin payload
  else .ok (if h.fin then none else text)

def scanFrame (s : Settings) (b : Bytes) : Status → Move Status Outcome Empty
  | .dead => .wait .dead
  | .live fragment text =>
    match readHeader s fragment b with
    | .error none => .wait (.live fragment text)
    | .error (some e) => .emit (.error e) 0 .dead
    | .ok h =>
      if b.length < h.offset + h.payloadLen then
        if h.text = true ∧ Utf8.run text (h.payload b) = none then .emit (.error .invalidPayload) 0 .dead
        else .wait (.live fragment text)
      else
        match textAfter text h (h.payload b) with
        | .error e => .emit (.error e) 0 .dead
        | .ok text' =>
          let d := deliver s fragment h (h.payload b)
          .emit (.ok d.event) (h.offset + h.payloadLen) (.live d.fragment text')

/-- Between two messages no text is pending. -/
def Status.Good : Status → Prop
  | .live fragment text => fragment = none → text = none
  | .dead => True

variable {s : Settings} {fragment : Option FragmentedMessage} {text : Utf8.State} {b : Bytes} {h : Header}
section Header

theorem opcode_of_checkFirst {first second : UInt8} {opcode : Opcode}
    (h : checkFirst s fragment first second = .ok opcode) :
    (opcode = .continuation → fragment ≠ none) ∧ (opcode = .text ∨ opcode = .binary → fragment = none) := by
  unfold checkFirst at h
  split_ifs at h
  split at h
  · cases h
  · split_ifs at h with h1 h2 h3
    cases h
    exact ⟨fun hc hf => h2 ⟨hc, hf⟩, fun ht => by_contra fun hf => h3 ⟨ht, hf⟩⟩

/-- What a header that was read says of the message being received. -/
structure Header.Fits (h : Header) (fragment : Option FragmentedMessage) : Prop where
  continues : h.opcode = .continuation → fragment ≠ none
  begins : h.opcode = .text ∨ h.opcode = .binary → fragment = none
  text_iff : h.text = true ↔ h.opcode = .text ∨ h.opcode = .continuation ∧ fragment.map (·.opcode) = some .text

theorem bind_eq_ok {α β : Type} {r : Reading α} {f : α → Reading β} {y : β} (h : r >>= f = .ok y) :
    ∃ a, r = .ok a ∧ f a = .ok y := by
  cases r with
  | error e => cases h
  | ok a => exact ⟨a, rfl, h⟩

theorem fits_of_readHeader (hh : readHeader s fragment b = .ok h) : h.Fits fragment := by
  obtain ⟨two, -, hh⟩ := bind_eq_ok hh
  obtain ⟨opcode, hop, hh⟩ := bind_eq_ok hh
  obtain ⟨length, -, hh⟩ := bind_eq_ok hh
  obtain ⟨-, -, hh⟩ := bind_eq_ok hh
  obtain ⟨mask, -, hh⟩ := bind_eq_ok hh
  cases hh
  obtain ⟨hcont, hbeg⟩ := opcode_of_checkFirst hop
  exact ⟨hcont, hbeg, by simp⟩

theorem Header.Fits.text_not_control (hf : h.Fits fragment) (ht : h.text = true) : h.opcode.control = false := by
  rcases hf.text_iff.1 ht with ho | ⟨ho, -⟩ <;> rw [ho] <;> rfl

end Header

theorem textAfter_text (hf : h.Fits fragment) (ht : h.text = true) (payload : Bytes) :
    textAfter text h payload = checkText text h.fin payload := by
  unfold textAfter
  rw [hf.text_not_control ht, if_pos ht]
  simp

variable {text' : Utf8.State} {payload : Bytes}

theorem textAfter_control (hc : h.opcode.control = true)
    (ht : textAfter text h payload = .ok text') : text' = text := by
  unfold textAfter at ht
  rw [if_pos hc] at ht
  split_ifs at ht
  · cases hk : checkClose payload with
    | error e => rw [hk] at ht; cases ht
    | ok u => rw [hk] at ht; cases ht; rfl
  · cases ht; rfl

theorem textAfter_fin (hc : h.opcode.control = false) (hfin : h.fin = true)
    (ht : textAfter text h payload = .ok text') : text' = none := by
  unfold textAfter at ht
  rw [hc, if_neg Bool.false_ne_true, hfin] at ht
  by_cases htext : h.text = true
  · rw [if_pos htext, checkText] at ht
    split at ht
    · cases ht
    · rw [if_pos rfl] at ht
      split_ifs at ht
      cases ht
      rfl
  · rw [if_neg htext, if_pos rfl] at ht
    cases ht
    rfl

theorem deliver_control (hc : h.opcode.control = true) (payload : Bytes) :
    (deliver s fragment h payload).fragment = fragment := by
  unfold deliver
  rw [if_pos hc]

theorem deliver_fragment (hc : h.opcode.control = false) (hfin : h.fin = false) (payload : Bytes) :
    (deliver s fragment h payload).fragment ≠ none := by
  unfold deliver
  rw [hc, hfin, if_neg Bool.false_ne_true]
  split <;> simp only [Bool.false_eq_true, if_false] <;> split_ifs <;> simp

theorem deliver_good (hg : fragment = none → text = none)
    (ht : textAfter text h payload = .ok text') : (deliver s fragment h payload).fragment = none → text' = none := by
  intro hnone
  cases hc : h.opcode.control with
  | true =>
    rw [deliver_control hc] at hnone
    rw [textAfter_control hc ht, hg hnone]
  | false =>
    cases hfin : h.fin with
    | true => exact textAfter_fin hc hfin ht
    | false => exact absurd hnone (deliver_fragment hc hfin payload)

theorem scanFrame_invalid (hh : readHeader s fragment b = .ok h) (ht : h.text = true)
    (hbad : Utf8.run text (h.payload b) = none) (x : Bytes) (hx : readHeader s fragment (b ++ x) = .ok h) :
    scanFrame s (b ++ x) (.live fragment text) = .emit (.error .invalidPayload) 0 .dead := by
  obtain ⟨y, hy⟩ := h.payload_mono b x
  have hbad' : Utf8.run text (h.payload (b ++ x)) = none := by
    rw [← hy]
    exact Utf8.run_append_eq_none hbad y
  simp only [scanFrame, hx]
  split_ifs with hlen hno
  · rfl
  · exact absurd ⟨ht, hbad'⟩ hno
  · rw [textAfter_text (fits_of_readHeader hh) ht, checkText, hbad']

theorem scanFrame_complete (hh : readHeader s fragment b = .ok h) (hlen : h.offset + h.payloadLen ≤ b.length) :
    scanFrame s b (.live fragment text) =
      match textAfter text h (h.payload b) with
      | .error e => .emit (.error e) 0 .dead
      | .ok text' =>
        .emit (.ok (deliver s fragment h (h.payload b)).event) (h.offset + h.payloadLen)
          (.live (deliver s fragment h (h.payload b)).fragment text') := by
  simp only [scanFrame, hh]
  rw [if_neg (by omega)]

theorem steady_scanFrame (s : Settings) : Scanner.Steady (scanFrame s) fun _ st => st.Good where
  push hg _ := hg
  kept := by
    intro b st hg
    cases st with
    | dead => exact ⟨trivial, fun _ => rfl⟩
    | live fragment text =>
      have hstable := stable_readHeader s fragment b
      cases hh : readHeader s fragment b with
      | error e =>
        cases e with
        | none =>
          simp only [scanFrame, hh]
          exact ⟨hg, fun _ => rfl⟩
        | some e =>
          simp only [scanFrame, hh]
          refine ⟨Nat.zero_le _, trivial, fun x => ?_⟩
          have hx := hstable x (by rw [hh]; nofun)
          rw [hh] at hx
          simp only [scanFrame, hx]
      | ok h =>
        have hpush : ∀ x, readHeader s fragment (b ++ x) = .ok h := fun x => by
          rw [hstable x (by rw [hh]; nofun), hh]
        by_cases hlen : h.offset + h.payloadLen ≤ b.length
        · have hx : ∀ x, scanFrame s (b ++ x) (.live fragment text) = scanFrame s b (.live fragment text) := by
            intro x
            rw [scanFrame_complete (hpush x) (by simp; omega), scanFrame_complete hh hlen, h.payload_append b x hlen]
          rw [scanFrame_complete hh hlen] at hx ⊢
          cases ht : textAfter text h (h.payload b) with
          | error e =>
            rw [ht] at hx
            exact ⟨Nat.zero_le _, trivial, hx⟩
          | ok text' =>
            rw [ht] at hx
            exact ⟨hlen, deliver_good hg ht, hx⟩
        · by_cases hbad : h.text = true ∧ Utf8.run text (h.payload b) = none
          · have hx := scanFrame_invalid hh hbad.1 hbad.2
            have hb := hx [] (hpush [])
            rw [List.append_nil] at hb
            rw [hb]
            exact ⟨Nat.zero_le _, trivial, fun x => hx x (hpush x)⟩
          · simp only [scanFrame, hh]
            rw [if_pos (by omega), if_neg hbad]
            exact ⟨hg, fun _ => rfl⟩

end Fib.Websocket
