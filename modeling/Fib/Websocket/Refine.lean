import Fib.Websocket.Parser
import Fib.Websocket.Scan

/-! One look of the parser at the frame at the head of its buffer is one look of the scanner at the
same bytes: what the parser keeps between two looks at a partial frame, the validator and how many
bytes it has seen, is what a look at all of them would find. -/

namespace Fib.Websocket
open Utf8 List Utf8Validator
variable {s : Settings} {fragment : Option FragmentedMessage} {b x : Bytes} {h : Header}
section Size
variable {second : UInt8} {offset n : ℕ} {masked : Bool}

theorem readBytes_eq_ok {y : Bytes} (hr : readBytes offset n b = .ok y) :
    offset + n ≤ b.length ∧ y = (b.drop offset).take n := by
  unfold readBytes at hr
  split_ifs at hr with hb
  exact ⟨not_lt.1 hb, (Except.ok.inj hr).symm⟩

theorem readBytes_eq_wait (hr : readBytes offset n b = .error none) : b.length < offset + n := by
  unfold readBytes at hr
  split_ifs at hr with hb
  exact hb

theorem two_getD (i : ℕ) (hi : i < 2) : ((b.drop 0).take 2).getD i 0 = b.getD i 0 := by
  simp [List.getD, hi]

def lengthEnd (second : UInt8) : ℕ :=
  if second &&& 0x7f = 126 then 4 else if second &&& 0x7f = 127 then 10 else 2

/-- The payload length the second byte and the field behind it give. -/
def lengthOf (second : UInt8) (b : Bytes) : ℕ :=
  if second &&& 0x7f = 126 then bigEndian ((b.drop 2).take 2)
  else if second &&& 0x7f = 127 then bigEndian ((b.drop 2).take 8)
  else (second &&& 0x7f).toNat

theorem readLength_eq_ok {r : ℕ × ℕ} (hb : 2 ≤ b.length) (hr : readLength second b = .ok r) :
    r.2 = lengthEnd second ∧ r.1 = lengthOf second b ∧ r.2 ≤ b.length := by
  unfold readLength at hr
  unfold lengthEnd lengthOf
  split_ifs at hr ⊢ with h1 h2
  · obtain ⟨y, hy, hr⟩ := bind_eq_ok hr
    obtain ⟨hle, rfl⟩ := readBytes_eq_ok hy
    split_ifs at hr
    cases hr
    exact ⟨rfl, rfl, hle⟩
  · obtain ⟨y, hy, hr⟩ := bind_eq_ok hr
    obtain ⟨hle, rfl⟩ := readBytes_eq_ok hy
    split_ifs at hr
    cases hr
    exact ⟨rfl, rfl, hle⟩
  · cases hr
    exact ⟨rfl, rfl, hb⟩

theorem bind_eq_wait {α β : Type} {r : Reading α} {f : α → Reading β} (h : r >>= f = .error none) :
    r = .error none ∨ ∃ a, r = .ok a ∧ f a = .error none := by
  cases r with
  | error e =>
    cases e with
    | none => exact .inl rfl
    | some e => cases h
  | ok a => exact .inr ⟨a, rfl, h⟩

theorem readLength_eq_wait (hr : readLength second b = .error none) : b.length < lengthEnd second := by
  unfold readLength at hr
  unfold lengthEnd
  split_ifs at hr ⊢ with h1 h2
  · rcases bind_eq_wait hr with hr | ⟨y, -, hr⟩
    · exact readBytes_eq_wait hr
    · split_ifs at hr
      cases hr
  · rcases bind_eq_wait hr with hr | ⟨y, -, hr⟩
    · exact readBytes_eq_wait hr
    · split_ifs at hr
      cases hr

theorem readMask_eq_ok {r : Option Bytes × ℕ} (hb : offset ≤ b.length)
    (hr : readMask masked offset b = .ok r) : r.2 = (if masked then offset + 4 else offset) ∧ r.2 ≤ b.length := by
  unfold readMask at hr
  split_ifs at hr ⊢ with hm
  · obtain ⟨y, hy, hr⟩ := bind_eq_ok hr
    cases hr
    exact ⟨rfl, (readBytes_eq_ok hy).1⟩
  · cases hr
    exact ⟨rfl, hb⟩

theorem readMask_eq_wait (hr : readMask masked offset b = .error none) :
    b.length < if masked then offset + 4 else offset := by
  unfold readMask at hr
  split_ifs at hr ⊢ with hm
  rcases bind_eq_wait hr with hr | ⟨y, -, hr⟩
  · exact readBytes_eq_wait hr
  · cases hr

theorem frameHeaderSize_eq (hb : 2 ≤ b.length) :
    frameHeaderSize b = if b.getD 1 0 &&& 0x80 != 0 then lengthEnd (b.getD 1 0) + 4 else lengthEnd (b.getD 1 0) := by
  unfold frameHeaderSize lengthEnd
  rw [if_neg (by omega)]
  by_cases hm : b.getD 1 0 &&& 0x80 = 0
  · simp only [hm, ne_eq, not_true, if_false, bne_self_eq_false, Bool.false_eq_true]
  · have hne : (b.getD 1 0 &&& 0x80 != 0) = true := by simpa using hm
    simp only [hm, hne, ne_eq, not_false_eq_true, if_true]
    split_ifs <;> rfl

theorem checkFirst_ne_wait (first second : UInt8) : checkFirst s fragment first second ≠ .error none := by
  unfold checkFirst
  split_ifs
  · nofun
  · split
    · nofun
    · split_ifs <;> nofun

theorem checkSize_ne_wait (opcode : Opcode) (n : ℕ) : checkSize s fragment opcode n ≠ .error none := by
  unfold checkSize
  simp only
  split_ifs <;> nofun

/-- A header that was read ends where `frameHeaderSize` says, and with the payload length its field gives. -/
theorem readHeader_size (hh : readHeader s fragment b = .ok h) :
    2 ≤ h.offset ∧ h.offset ≤ b.length ∧ h.offset = frameHeaderSize b ∧ h.payloadLen = lengthOf (b.getD 1 0) b := by
  obtain ⟨two, htwo, hh⟩ := bind_eq_ok hh
  obtain ⟨hb, rfl⟩ := readBytes_eq_ok htwo
  rw [two_getD 1 (by omega)] at hh
  obtain ⟨opcode, -, hh⟩ := bind_eq_ok hh
  obtain ⟨length, hlen, hh⟩ := bind_eq_ok hh
  obtain ⟨-, -, hh⟩ := bind_eq_ok hh
  obtain ⟨mask, hmask, hh⟩ := bind_eq_ok hh
  obtain ⟨hend, hof, hle⟩ := readLength_eq_ok hb hlen
  obtain ⟨hoff, hoffle⟩ := readMask_eq_ok hle hmask
  cases hh
  have htwole : 2 ≤ lengthEnd (b.getD 1 0) := by unfold lengthEnd; split_ifs <;> omega
  refine ⟨?_, hoffle, ?_, hof⟩
  · show 2 ≤ mask.2
    rw [hoff, hend]
    split_ifs <;> omega
  · show mask.2 = _
    rw [hoff, hend, frameHeaderSize_eq hb]

theorem readHeader_wait (hh : readHeader s fragment b = .error none) : b.length < frameHeaderSize b := by
  rcases bind_eq_wait hh with hr | ⟨two, htwo, hh⟩
  · have := readBytes_eq_wait hr
    rw [frameHeaderSize, if_pos (by omega)]
    omega
  obtain ⟨hb, rfl⟩ := readBytes_eq_ok htwo
  rw [two_getD 1 (by omega)] at hh
  rw [frameHeaderSize_eq hb]
  rcases bind_eq_wait hh with hr | ⟨opcode, -, hh⟩
  · exact absurd hr (checkFirst_ne_wait _ _)
  rcases bind_eq_wait hh with hr | ⟨length, hlen, hh⟩
  · have := readLength_eq_wait hr
    split_ifs <;> omega
  obtain ⟨hend, -, hle⟩ := readLength_eq_ok hb hlen
  rcases bind_eq_wait hh with hr | ⟨-, -, hh⟩
  · exact absurd hr (checkSize_ne_wait _ _)
  rcases bind_eq_wait hh with hr | ⟨mask, -, hh⟩
  · have := readMask_eq_wait hr
    rwa [hend] at this
  · cases hh

theorem frameSize_eq_some_iff {n : ℕ} : frameSize b = some n ↔ frameHeaderSize b ≤ b.length ∧
      lengthOf (b.getD 1 0) b ≤ maxInt - frameHeaderSize b ∧ n = frameHeaderSize b + lengthOf (b.getD 1 0) b := by
  show (if b.length < frameHeaderSize b then none
    else if lengthOf (b.getD 1 0) b > maxInt - frameHeaderSize b then none
    else some (frameHeaderSize b + lengthOf (b.getD 1 0) b)) = some n ↔ _
  generalize lengthOf (b.getD 1 0) b = len
  split_ifs with h1 h2
  · simp [Nat.not_le.2 h1]
  · simp [Nat.not_le.2 h2]
  · simp [Nat.not_lt.1 h1, Nat.not_lt.1 h2, eq_comm]

theorem two_le_frameHeaderSize (b : Bytes) : 2 ≤ frameHeaderSize b := by
  unfold frameHeaderSize
  simp only
  split_ifs <;> omega

theorem take_drop_append {o n : ℕ} (hb : o + n ≤ b.length) (x : Bytes) :
    ((b ++ x).drop o).take n = (b.drop o).take n := by
  rw [drop_append_of_le_length (by omega), take_append_of_le_length (by simp; omega)]

theorem frameSize_append {n : ℕ} (hf : frameSize b = some n) (x : Bytes) : frameSize (b ++ x) = some n := by
  obtain ⟨hle, hmax, hn⟩ := frameSize_eq_some_iff.1 hf
  have hb : 2 ≤ b.length := (two_le_frameHeaderSize b).trans hle
  have hget : (b ++ x).getD 1 0 = b.getD 1 0 := by
    simp only [List.getD, List.getElem?_append_left (show 1 < b.length by omega)]
  have hsize : frameHeaderSize (b ++ x) = frameHeaderSize b := by
    rw [frameHeaderSize_eq hb, frameHeaderSize_eq (by simp; omega), hget]
  have hend : lengthEnd (b.getD 1 0) ≤ b.length := by
    rw [frameHeaderSize_eq hb] at hle
    split_ifs at hle <;> omega
  have hlen : lengthOf (b.getD 1 0) (b ++ x) = lengthOf (b.getD 1 0) b := by
    unfold lengthOf
    unfold lengthEnd at hend
    split_ifs at hend ⊢
    · rw [take_drop_append hend]
    · rw [take_drop_append hend]
    · rfl
  rw [frameSize_eq_some_iff, hget, hsize, hlen]
  exact ⟨by simp; omega, hmax, hn⟩

theorem readHeader_of_whole (s : Settings) (fragment : Option FragmentedMessage) (hf : frameSize b = some b.length) :
    readHeader s fragment b ≠ .error none ∧
      ∀ h, readHeader s fragment b = .ok h → h.offset + h.payloadLen = b.length := by
  obtain ⟨hle, -, hn⟩ := frameSize_eq_some_iff.1 hf
  refine ⟨fun hw => absurd (readHeader_wait hw) (not_lt.2 hle), fun h hh => ?_⟩
  obtain ⟨-, -, hoff, hlen⟩ := readHeader_size hh
  rw [hoff, hlen, ← hn]

end Size

section Text
variable {text : Utf8.State} {v : Utf8Validator} {k : ℕ}

theorem writeChunks_state (mask available : Bytes) (i : ℕ) (v : Utf8Validator) :
    (writeChunks mask available i v).map state = run v.state (maskFrom mask i (available.drop i)) := by
  fun_induction writeChunks mask available i v with
  | case1 i v hi hw =>
    have hchunk := write_state v (maskFrom mask i ((available.drop i).take 512))
    rw [hw] at hchunk
    rw [← take_append_drop 512 (available.drop i), maskFrom_append]
    exact (run_append_eq_none hchunk.symm _).symm
  | case2 i v hi v' hw ih =>
    have hchunk := write_state v (maskFrom mask i ((available.drop i).take 512))
    rw [hw] at hchunk
    -- a chunk is cut short only where nothing is left
    have hdrop : available.drop (i + min 512 (available.length - i)) = available.drop (i + 512) := by
      by_cases hlast : 512 ≤ available.length - i
      · rw [Nat.min_eq_left hlast]
      · rw [drop_eq_nil_of_le (by omega), drop_eq_nil_of_le (by omega)]
    rw [ih, ← take_append_drop 512 (available.drop i), maskFrom_append, run_append, ← hchunk,
      length_take, length_drop, drop_drop, hdrop]
    rfl
  | case3 i v hi =>
    rw [drop_eq_nil_of_le (by omega)]
    rfl

/-- The payload of a text frame that has arrived. -/
def arrived (s : Settings) (fragment : Option FragmentedMessage) (b : Bytes) : Bytes :=
  match readHeader s fragment b with
  | .error _ => []
  | .ok h => if h.text then h.payload b else []

theorem arrived_mono (s : Settings) (fragment : Option FragmentedMessage) (b x : Bytes) :
    arrived s fragment b <+: arrived s fragment (b ++ x) := by
  unfold arrived
  cases hh : readHeader s fragment b with
  | error e => exact nil_prefix
  | ok h =>
    have hx := stable_readHeader s fragment b x (by rw [hh]; nofun)
    rw [hx, hh]
    by_cases ht : h.text = true
    · simp only [if_pos ht]
      exact h.payload_mono b x
    · simp only [if_neg ht]
      exact nil_prefix

/-- The validator has seen the first `k` bytes of the text frame at the head of the buffer. -/
structure Checked (s : Settings) (fragment : Option FragmentedMessage) (text : Utf8.State) (b : Bytes)
    (v : Utf8Validator) (k : ℕ) : Prop where
  le : k ≤ (arrived s fragment b).length
  seen : run text ((arrived s fragment b).take k) = some v.state

theorem Checked.push (hc : Checked s fragment text b v k) (x : Bytes) : Checked s fragment text (b ++ x) v k := by
  obtain ⟨y, hy⟩ := arrived_mono s fragment b x
  refine ⟨?_, ?_⟩
  · rw [← hy, length_append]
    exact hc.le.trans (Nat.le_add_right _ _)
  · rw [← hy, take_append_of_le_length hc.le]
    exact hc.seen

theorem Checked.of_zero (hv : v.state = text) : Checked s fragment text b v 0 :=
  ⟨Nat.zero_le _, by rw [take_zero, hv]; rfl⟩

theorem Checked.zero (hc : Checked s fragment text b v k) (hn : arrived s fragment b = []) : v.state = text := by
  have hk : k = 0 := by simpa [hn] using hc.le
  subst hk
  have hseen := hc.seen
  rw [take_zero] at hseen
  exact (Option.some.inj hseen).symm

theorem Checked.run_rest (hc : Checked s fragment text b v k) :
    run v.state ((arrived s fragment b).drop k) = run text (arrived s fragment b) := by
  conv_rhs => rw [← take_append_drop k (arrived s fragment b), run_append, hc.seen]
  rfl

theorem arrived_eq (hh : readHeader s fragment b = .ok h) (ht : h.text = true) :
    arrived s fragment b = h.payload b := by
  simp only [arrived, hh, if_pos ht]

theorem drop_payload (hlen : b.length < h.offset + h.payloadLen) (k : ℕ) : (h.payload b).drop k =
      match h.mask with
      | none => (b.drop h.offset).drop k
      | some mask => maskFrom mask k ((b.drop h.offset).drop k) := by
  have htake : (b.drop h.offset).take h.payloadLen = b.drop h.offset :=
    take_of_length_le (by simp; omega)
  unfold Header.payload
  cases h.mask with
  | none => rw [htake]
  | some mask => simp only [htake, applyMask, drop_maskFrom, Nat.zero_add]

theorem checkPartialText_spec (hc : Checked s fragment text b v k) (hh : readHeader s fragment b = .ok h)
    (ht : h.text = true) (hlen : b.length < h.offset + h.payloadLen) :
    (checkPartialText v k (b.drop h.offset) h.mask).map (fun r => r.1.state) = run text (h.payload b) ∧
      ∀ r, checkPartialText v k (b.drop h.offset) h.mask = some r → r.2 = (h.payload b).length := by
  have hrest := hc.run_rest
  have hle := hc.le
  rw [arrived_eq hh ht] at hrest hle
  have hlen' : (b.drop h.offset).length = (h.payload b).length := by
    rw [h.length_payload, length_drop]
    omega
  unfold checkPartialText
  split_ifs with hk
  · have hall : k = (h.payload b).length := by omega
    refine ⟨?_, fun r hr => ?_⟩
    · rw [← hrest, hall, drop_length]
      rfl
    · cases hr
      exact hall
  refine ⟨?_, fun r hr => ?_⟩
  · rw [← hrest, drop_payload hlen, Option.map_map]
    cases h.mask with
    | none => exact write_state v _
    | some mask => exact writeChunks_state mask _ k v
  · obtain ⟨w, -, rfl⟩ := Option.map_eq_some_iff.1 hr
    exact hlen'

variable {p q : Bytes}

theorem writeText_state (hrun : run v.state p = run text q) : (writeText v p).map state = checkText text false q := by
  have hw := v.write_state p
  rw [hrun] at hw
  unfold writeText checkText
  rw [← hw]
  cases v.write p <;> rfl

theorem endText_state (hrun : run v.state p = run text q) :
    (writeText v p >>= endText).map state = checkText text true q := by
  have hw := v.write_state p
  rw [hrun] at hw
  unfold writeText checkText
  rw [← hw]
  cases v.write p with
  | none => rfl
  | some w =>
    show (endText w).map state =
      if true = true then if w.state = none then .ok none else .error .invalidPayload else .ok w.state
    rw [if_pos rfl, endText]
    by_cases hw : w.state = none
    · rw [if_pos hw, if_pos (complete_iff.2 hw)]
      rfl
    · rw [if_neg hw, if_neg (mt complete_iff.1 hw)]
      rfl

theorem valid_state (p : Bytes) :
    (if valid p then .ok {} else .error .invalidPayload : Except WsError Utf8Validator).map
      state = checkText none true p := by
  unfold checkText
  by_cases hv : valid p = true
  · rw [if_pos hv, (valid_iff_run p).1 hv]
    rfl
  rw [if_neg hv]
  have hne := mt (valid_iff_run p).2 hv
  cases hr : run none p with
  | none => rfl
  | some t =>
    have ht : t ≠ none := fun ht => hne (by rw [hr, ht])
    simp only [if_pos, if_neg ht]
    rfl

/-- The checks of a complete payload, of which the validator has seen a part already. -/
theorem checkPayload_spec (hc : Checked s fragment text b v k) (hg : fragment = none → text = none)
    (hh : readHeader s fragment b = .ok h) :
    (checkPayload v k h (h.payload b)).map state = textAfter text h (h.payload b) := by
  have hfits := fits_of_readHeader hh
  by_cases ht : h.text = true
  · have hrest := hc.run_rest
    rw [arrived_eq hh ht] at hrest
    rw [textAfter_text hfits ht, checkPayload]
    rcases hfits.text_iff.1 ht with hop | ⟨hop, -⟩
    · simp only [hop, if_pos ht]
      by_cases hfin : h.fin = true
      · simp only [hfin, if_true]
        by_cases hk : k = 0
        · rw [if_pos hk, hg (hfits.begins (.inl hop))]
          exact valid_state _
        · rw [if_neg hk]
          exact endText_state hrest
      · simp only [hfin, Bool.false_eq_true, if_false]
        exact writeText_state hrest
    · simp only [hop, if_pos ht]
      by_cases hfin : h.fin = true
      · simp only [hfin, if_true]
        exact endText_state hrest
      · simp only [hfin, Bool.false_eq_true, if_false]
        rw [← writeText_state hrest]
        cases writeText v ((h.payload b).drop k) <;> rfl
  · have hempty : arrived s fragment b = [] := by simp only [arrived, hh, if_neg ht]
    have hv := hc.zero hempty
    unfold checkPayload textAfter
    cases hop : h.opcode with
    | close =>
      simp only [Opcode.control, if_true]
      cases checkClose (h.payload b) with
      | error e => rfl
      | ok u => exact congrArg Except.ok hv
    | ping | pong => exact congrArg Except.ok hv
    | text => exact absurd (hfits.text_iff.2 (.inl hop)) ht
    | binary =>
      simp only [if_neg ht, Opcode.control, Bool.false_eq_true, if_false]
      rw [hg (hfits.begins (.inr hop))] at hv ⊢
      rw [ite_self, ← hv]
      rfl
    | continuation =>
      simp only [if_neg ht, Opcode.control, Bool.false_eq_true, if_false]
      split_ifs
      · rfl
      · exact congrArg Except.ok hv

end Text

namespace Parser
variable {p p' : Parser} {text text' : Utf8.State} {n : ℕ}

theorem consume_eq (p : Parser) (n : ℕ) :
    ∃ flag, p.consume n = { p with buffer := p.buffer.drop n, borrowedBuffer := flag } := by
  unfold consume
  split_ifs with hn
  · exact ⟨false, by rw [hn, drop_length]⟩
  · exact ⟨p.borrowedBuffer, rfl⟩

/-- The parser behind a frame of `n` bytes: the frame is consumed, or is to be on the next call. -/
structure Past (p p' : Parser) (n : ℕ) (text' : Utf8.State) : Prop where
  settings : p'.toSettings = p.toSettings
  tail : p'.borrowedTail = p.borrowedTail
  rest : p'.buffer.drop p'.pendingConsume = p.buffer.drop n
  pending_le : p'.pendingConsume ≤ p'.buffer.length
  text : p'.text.state = text'
  checked : p'.textChecked = 0

/-- The parser with a frame of `n` bytes dealt with and still at the head of the buffer. -/
structure Done (p q : Parser) (n : ℕ) : Prop where
  settings : q.toSettings = p.toSettings
  tail : q.borrowedTail = p.borrowedTail
  rest : q.buffer.drop n = p.buffer.drop n
  le : n ≤ q.buffer.length
  pending : q.pendingConsume = 0
  checked : q.textChecked = 0

variable {q : Parser} {h : Header}

theorem Done.consume (hd : Done p q n) :
    Past p (q.consume n) n q.text.state ∧ (q.consume n).fragment = q.fragment ∧ (q.consume n).pendingConsume = 0 := by
  obtain ⟨flag, hq⟩ := q.consume_eq n
  rw [hq]
  refine ⟨⟨hd.settings, hd.tail, ?_, ?_, rfl, hd.checked⟩, rfl, hd.pending⟩
  · simpa [hd.pending] using hd.rest
  · simp [hd.pending]

theorem Done.finishFrame (hd : Done p q n) (borrowed : Bool) :
    Past p (q.finishFrame n borrowed) n q.text.state ∧ (q.finishFrame n borrowed).fragment = q.fragment := by
  unfold Parser.finishFrame
  split_ifs
  · exact ⟨{ hd with pending_le := hd.le, text := rfl }, rfl⟩
  · exact ⟨hd.consume.1, hd.consume.2.1⟩

theorem unmaskInPlace_eq (p : Parser) (borrowPayload : Bool) (hlen : h.offset + h.payloadLen ≤ p.buffer.length) :
    ∃ buf, p.unmaskInPlace h borrowPayload = { p with buffer := buf } ∧ buf.length = p.buffer.length ∧
      buf.drop (h.offset + h.payloadLen) = p.buffer.drop (h.offset + h.payloadLen) := by
  unfold unmaskInPlace
  split_ifs
  · have hfront : (p.buffer.take h.offset ++ h.payload p.buffer).length = h.offset + h.payloadLen := by
      rw [length_append, h.length_payload, length_take]
      omega
    refine ⟨_, rfl, ?_, ?_⟩
    · rw [length_append, hfront, length_drop]
      omega
    · rw [drop_left' hfront]
  · exact ⟨p.buffer, rfl, rfl, rfl⟩

theorem held_of_event {s : Settings} {fragment : Option FragmentedMessage} {payload : Bytes}
    (he : (deliver s fragment h payload).event = none) : held s h = true := by
  unfold deliver at he
  unfold held
  by_cases hc : h.opcode.control = true
  · rw [if_pos hc] at he
    cases he
  rw [if_neg hc] at he
  split at he
  · rename_i hop
    by_cases hper : s.perFrame = true
    · simp [hper] at he
    · simp [hper, hop]
  by_cases hfin : h.fin = true
  · simp [hfin] at he
  · by_cases hper : s.perFrame = true
    · simp [hper, hfin] at he
    · simp [hper, hfin, hc]

/-- What a look at the buffer did, against what the scanner does with the same bytes. -/
def Matches (p : Parser) (text : Utf8.State) : Next → Prop
  | .failed e => scanFrame p.toSettings p.buffer (.live p.fragment text) = .emit (.error e) 0 .dead
  | .incomplete p' =>
    scanFrame p.toSettings p.buffer (.live p.fragment text) = .wait (.live p.fragment text) ∧
      ∃ v k, p' = { p with text := v, textChecked := k } ∧ Checked p.toSettings p.fragment text p.buffer v k
  | .complete event p' =>
    ∃ n text', scanFrame p.toSettings p.buffer (.live p.fragment text) = .emit (.ok event) n (.live p'.fragment text') ∧
      2 ≤ n ∧ n ≤ p.buffer.length ∧ (∀ m, frameSize p.buffer = some m → m = n) ∧ Past p p' n text' ∧
      (event = none → p'.pendingConsume = 0)

theorem next_matches (borrowPayload : Bool) (hp : p.pendingConsume = 0)
    (hc : Checked p.toSettings p.fragment text p.buffer p.text p.textChecked)
    (hg : p.fragment = none → text = none) : Matches p text (p.next borrowPayload) := by
  unfold next
  cases hh : readHeader p.toSettings p.fragment p.buffer with
  | error e =>
    cases e with
    | none => exact ⟨by simp only [scanFrame, hh], p.text, p.textChecked, rfl, hc⟩
    | some e => simp only [Matches, scanFrame, hh]
  | ok h =>
    obtain ⟨htwo, hoff, hsize, hpay⟩ := readHeader_size hh
    by_cases hlen : p.buffer.length < h.offset + h.payloadLen
    · simp only
      rw [if_pos (by omega)]
      by_cases ht : h.text = true
      · rw [if_pos ht]
        obtain ⟨hrun, hseen⟩ := checkPartialText_spec hc hh ht hlen
        cases hk : checkPartialText p.text p.textChecked (p.buffer.drop h.offset) h.mask with
        | none =>
          rw [hk] at hrun
          simp only [Matches, scanFrame, hh]
          rw [if_pos hlen, if_pos ⟨ht, hrun.symm⟩]
        | some r =>
          rw [hk] at hrun
          have hk2 := hseen r hk
          simp only [Matches, scanFrame, hh]
          refine ⟨?_, r.1, r.2, rfl, ?_⟩
          · rw [if_pos hlen, if_neg (fun hno => by rw [hno.2] at hrun; cases hrun)]
          · refine ⟨?_, ?_⟩
            · rw [arrived_eq hh ht, hk2]
            · rw [arrived_eq hh ht, hk2, take_length, ← hrun]
              rfl
      · rw [if_neg ht]
        refine ⟨?_, p.text, p.textChecked, rfl, hc⟩
        simp only [scanFrame, hh]
        rw [if_pos hlen, if_neg (fun hno => ht hno.1)]
    · simp only
      rw [if_neg (by omega)]
      have hspec := checkPayload_spec hc hg hh
      have hscan : scanFrame p.toSettings p.buffer (.live p.fragment text) = _ :=
        scanFrame_complete hh (not_lt.1 hlen)
      cases hk : checkPayload p.text p.textChecked h (h.payload p.buffer) with
      | error e =>
        rw [hk] at hspec
        rw [← hspec] at hscan
        exact hscan
      | ok v =>
        rw [hk] at hspec
        rw [← hspec] at hscan
        obtain ⟨buf, hbuf, hblen, hbdrop⟩ := p.unmaskInPlace_eq borrowPayload (not_lt.1 hlen)
        simp only [hbuf]
        have hdone : Done p { p with
            buffer := buf
            text := v
            textChecked := 0
            fragment := (deliver p.toSettings p.fragment h (h.payload p.buffer)).fragment }
            (h.offset + h.payloadLen) :=
          ⟨rfl, rfl, hbdrop, hblen ▸ not_lt.1 hlen, hp, rfl⟩
        have hend : ∀ m, frameSize p.buffer = some m → m = h.offset + h.payloadLen := fun m hm => by
          rw [(frameSize_eq_some_iff.1 hm).2.2, hsize, hpay]
        by_cases hheld : held p.toSettings h = true
        · rw [if_pos hheld]
          obtain ⟨hpast, hfrag, hz⟩ := hdone.consume
          exact ⟨_, v.state, by rw [hfrag]; exact hscan, by omega, not_lt.1 hlen, hend, hpast, fun _ => hz⟩
        · rw [if_neg hheld]
          obtain ⟨hpast, hfrag⟩ := hdone.finishFrame borrowPayload
          exact ⟨_, v.state, by rw [hfrag]; exact hscan, by omega, not_lt.1 hlen, hend, hpast,
            fun he => absurd (held_of_event he) hheld⟩

end Parser
end Fib.Websocket
