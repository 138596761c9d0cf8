import Fib.Lib.Bytes
import Mathlib.Data.List.Basic
import Mathlib.Logic.Relation

/-! The bencode `Decoder` over an `io.Reader`: `readValue` collects the bytes of one value in its buffer, checking no
more than it needs to find where the value ends. How long the buffer gets. -/

namespace Fib.Bencode
open Or List Nat

/-- The limits of a decoder. `MaxSize` is such that the length of a string, read up to it digit by digit, stays within
an int. -/
structure Limits where
  maxDepth : ℕ := 256
  maxSize : ℕ := 64 * 2 ^ 20
  maxSize_lt : 10 * maxSize + 9 < 2 ^ 63 := by decide

/-- What the reader under the decoder gives after its last byte. -/
inductive ReaderError where
  | eof
  | other (code : ℕ)
deriving DecidableEq

inductive Msg where
  | invalidByteInInteger
  | invalidByteInLength
  | nestingTooDeep
  | unexpectedE
  | invalidByte
deriving DecidableEq

inductive ReadError where
  | reader (e : ReaderError)
  | unexpectedEOF
  | tooLarge
  | malformed (offset : ℕ) (msg : Msg)
deriving DecidableEq

/-- A decoder over a reader: `offset` counts the bytes of the values before, `err` is the error of the reader once it
has no more bytes. The bytes themselves come in whatever pieces; `bufio.Reader` puts them together. -/
structure Decoder where
  limits : Limits := {}
  offset : ℕ := 0
  err : ReaderError := .eof

/-- Where `readValue` is: the lists and dictionaries open, the bytes collected, and those the reader still has. -/
structure Reading where
  depth : ℕ
  buf : Bytes
  rest : Bytes

/-- What a turn of the loop of `readValue` leads to. -/
inductive Outcome where
  | more (s : Reading)
  | done (buf rest : Bytes)
  | failed (buf : Bytes) (e : ReadError)

def isDigit (c : UInt8) : Bool := 48 ≤ c && c ≤ 57

def digit (c : UInt8) : ℕ := (c - 48).toNat

namespace Decoder
variable (d : Decoder)

/-- `unexpected`: an end of the input inside a value. -/
def unexpected : ReadError :=
  match d.err with
  | .eof => .unexpectedEOF
  | e => .reader e

/-- `syntax`: an error at the last byte collected. -/
def malformed (buf : Bytes) (msg : Msg) : ReadError := .malformed (d.offset + (buf.length - 1)) msg

/-- After an item: the value is complete, or another item follows. -/
def afterItem (depth : ℕ) (buf rest : Bytes) : Outcome :=
  if depth = 0 then .done buf rest else .more ⟨depth, buf, rest⟩

section
variable (depth : ℕ)

def readInt : Bytes → Bytes → Outcome
  | buf, [] => .failed buf d.unexpected
  | buf, c :: rest =>
    if d.limits.maxSize ≤ buf.length then .failed buf .tooLarge
    else if c = 101 then afterItem depth (buf ++ [c]) rest
    else if c ≠ 45 ∧ isDigit c = false then .failed (buf ++ [c]) (d.malformed (buf ++ [c]) .invalidByteInInteger)
    else readInt (buf ++ [c]) rest

/-- The loop over the `n` bytes of a string: the buffer is extended by a chunk, which is then filled. A chunk has a
byte at least, so `n` turns are enough. -/
def readBody : ℕ → ℕ → Bytes → Bytes → Outcome
  | 0, _, buf, rest => afterItem depth buf rest
  | fuel + 1, n, buf, rest =>
    if n = 0 then afterItem depth buf rest
    else
      let chunk := min n (64 * 1024)
      let buf := buf ++ (rest.take chunk ++ replicate (chunk - rest.length) 0)
      if rest.length < chunk then .failed buf d.unexpected
      else readBody fuel (n - chunk) buf (rest.drop chunk)

/-- The loop over the length of a string, past its first digit, and the body. The bytes of the length are collected
unchecked. -/
def readString : ℕ → Bytes → Bytes → Outcome
  | _, buf, [] => .failed buf d.unexpected
  | n, buf, c :: rest =>
    if c = 58 then
      if d.limits.maxSize < n + (buf ++ [c]).length then .failed (buf ++ [c]) .tooLarge
      else d.readBody depth n n (buf ++ [c]) rest
    else if isDigit c = false then .failed (buf ++ [c]) (d.malformed (buf ++ [c]) .invalidByteInLength)
    else if d.limits.maxSize < n * 10 + digit c then .failed (buf ++ [c]) .tooLarge
    else readString (n * 10 + digit c) (buf ++ [c]) rest

end

def readStep (s : Reading) : Outcome :=
  match s.rest with
  | [] => .failed s.buf (if s.buf = [] then .reader d.err else d.unexpected)
  | c :: rest =>
    if d.limits.maxSize ≤ s.buf.length then .failed s.buf .tooLarge
    else
      let buf := s.buf ++ [c]
      if c = 105 then d.readInt s.depth buf rest
      else if isDigit c then d.readString s.depth (digit c) buf rest
      else if c = 108 ∨ c = 100 then
        if d.limits.maxDepth < s.depth + 1 then .failed buf (d.malformed buf .nestingTooDeep)
        else .more ⟨s.depth + 1, buf, rest⟩
      else if c = 101 then
        if s.depth = 0 then .failed buf (d.malformed buf .unexpectedE)
        else afterItem (s.depth - 1) buf rest
      else .failed buf (d.malformed buf .invalidByte)

/-- The loop; the buffer it ends with, and what the reader has left or the error. The buffer only grows, so it is never
longer than in the end. Each turn takes a byte. -/
def readLoop : ℕ → Reading → Bytes × Except ReadError Bytes
  | 0, s => (s.buf, .error d.unexpected)
  | fuel + 1, s =>
    match d.readStep s with
    | .more s => readLoop fuel s
    | .done buf rest => (buf, .ok rest)
    | .failed buf e => (buf, .error e)

def readValue (input : Bytes) : Bytes × Except ReadError Bytes :=
  d.readLoop (input.length + 1) ⟨0, [], input⟩

end Decoder

/-! ### What a turn of the loop collects -/

/-- The bytes of a length that are read: the digits up to the one that takes it past the limit, and the byte that
ends them. -/
def lengthBytes (maxSize : ℕ) : ℕ → Bytes → Bytes
  | _, [] => []
  | n, c :: rest =>
    if isDigit c = true ∧ n * 10 + digit c ≤ maxSize then c :: lengthBytes maxSize (n * 10 + digit c) rest else [c]

namespace Decoder
variable {d : Decoder} {s : Reading} {buf rest : Bytes} {depth fuel n : ℕ}

/-- After an outcome the reading goes on, or is complete, within the limit, and the reader has fewer than `left`
bytes. -/
def Within (d : Decoder) (left : ℕ) : Outcome → Prop
  | .more s => s.buf.length ≤ d.limits.maxSize ∧ s.rest.length < left
  | .done buf _ => buf.length ≤ d.limits.maxSize
  | .failed buf _ => buf.length ≤ d.limits.maxSize + 1

theorem Within.mono {left left' : ℕ} {o : Outcome} (h : d.Within left o) (hle : left ≤ left') : d.Within left' o := by
  cases o with
  | more s => exact ⟨h.1, h.2.trans_le hle⟩
  | done buf rest => exact h
  | failed buf e => exact h

theorem afterItem_within (hb : buf.length ≤ d.limits.maxSize) :
    d.Within (rest.length + 1) (afterItem depth buf rest) := by
  unfold afterItem
  split_ifs
  · exact hb
  · exact ⟨hb, lt_succ_self _⟩

theorem readInt_within (hb : buf.length ≤ d.limits.maxSize) :
    d.Within (rest.length + 1) (d.readInt depth buf rest) := by
  induction rest generalizing buf with
  | nil => exact le_succ_of_le hb
  | cons c rest ih =>
    have hlen : (buf ++ [c]).length = buf.length + 1 := by simp
    rw [readInt]
    split_ifs with hsize
    · exact le_succ_of_le hb
    · exact (afterItem_within (by omega)).mono (by simp)
    · show (buf ++ [c]).length ≤ _
      omega
    · exact (ih (by omega)).mono (by simp)

theorem readBody_within (hb : n + buf.length ≤ d.limits.maxSize) :
    d.Within (rest.length + 1) (d.readBody depth fuel n buf rest) := by
  induction fuel generalizing n buf rest with
  | zero => exact afterItem_within (by omega)
  | succ fuel ih =>
    rw [readBody]
    dsimp only
    split_ifs with hn hlt
    · exact afterItem_within (by omega)
    · show (buf ++ _).length ≤ _
      simp only [length_append, length_take, length_replicate]
      omega
    · refine (ih ?_).mono (by simp)
      simp only [length_append, length_take, length_replicate]
      omega

/-- The buffer has got past the limit, by more than a byte. -/
def Past (d : Decoder) (o : Outcome) : Prop := ∃ buf e, o = .failed buf e ∧ d.limits.maxSize + 1 < buf.length

/-- Only the bytes of a length take the buffer past the limit, and what they lead to is an error. -/
theorem readString_spec (d : Decoder) (depth n : ℕ) (buf rest : Bytes) :
    (buf.length + (lengthBytes d.limits.maxSize n rest).length ≤ d.limits.maxSize + 1 ∧
      d.Within (rest.length + 1) (d.readString depth n buf rest)) ∨
    (d.limits.maxSize + 1 < buf.length + (lengthBytes d.limits.maxSize n rest).length ∧
      d.Past (d.readString depth n buf rest)) := by
  have hfail : ∀ {b : Bytes} {left : ℕ} (e : ReadError),
      (b.length ≤ d.limits.maxSize + 1 ∧ d.Within left (.failed b e)) ∨
      (d.limits.maxSize + 1 < b.length ∧ d.Past (.failed b e)) := by
    intro b left e
    rcases lt_or_ge (d.limits.maxSize + 1) b.length with h | h
    · exact inr ⟨h, b, e, rfl, h⟩
    · exact inl ⟨h, h⟩
  induction rest generalizing n buf with
  | nil => exact hfail _
  | cons c rest ih =>
    have hlen : (buf ++ [c]).length = buf.length + 1 := by simp
    rw [readString]
    split_ifs with hc hsize hd hsize
    · rw [lengthBytes, if_neg (by simp [hc, isDigit]), length_singleton, ← hlen]
      exact hfail _
    · rw [lengthBytes, if_neg (by simp [hc, isDigit]), length_singleton]
      exact inl ⟨by omega, (readBody_within (by omega)).mono (by simp)⟩
    · rw [lengthBytes, if_neg (by simp [hd]), length_singleton, ← hlen]
      exact hfail _
    · rw [lengthBytes, if_neg (by omega), length_singleton, ← hlen]
      exact hfail _
    · rw [lengthBytes, if_pos ⟨by simpa using hd, by omega⟩, length_cons]
      rcases ih (n * 10 + digit c) (buf ++ [c]) with ⟨h, hw⟩ | ⟨h, hp⟩
      · exact inl ⟨by omega, hw.mono (by simp)⟩
      · exact inr ⟨by omega, hp⟩

/-- Where a string starts, the bytes read of its length end by the byte past the limit. -/
def LengthFits (d : Decoder) (s : Reading) : Prop :=
  ∀ c rest, s.rest = c :: rest → isDigit c = true → s.buf.length < d.limits.maxSize →
    s.buf.length + (c :: lengthBytes d.limits.maxSize (digit c) rest).length ≤ d.limits.maxSize + 1

/-- A turn goes on or ends within the limit, unless it reads a length that does not fit. -/
theorem readStep_spec (hb : s.buf.length ≤ d.limits.maxSize) :
    (d.LengthFits s ∧ d.Within s.rest.length (d.readStep s)) ∨ (¬d.LengthFits s ∧ d.Past (d.readStep s)) := by
  unfold readStep
  cases hs : s.rest with
  | nil => exact inl ⟨by simp [LengthFits, hs], le_succ_of_le hb⟩
  | cons c rest =>
    have hlen : (s.buf ++ [c]).length = s.buf.length + 1 := by simp
    have hfits : d.LengthFits s ↔ (isDigit c = true → s.buf.length < d.limits.maxSize →
        (s.buf ++ [c]).length + (lengthBytes d.limits.maxSize (digit c) rest).length ≤ d.limits.maxSize + 1) := by
      simp [LengthFits, hs, add_assoc, add_comm 1]
    simp only [hfits, length_cons]
    split_ifs with hsize hi hd hl hdep he hz
    · exact inl ⟨by omega, le_succ_of_le hb⟩
    · exact inl ⟨by simp [hi, isDigit], readInt_within (by omega)⟩
    · rcases readString_spec d s.depth (digit c) (s.buf ++ [c]) rest with ⟨h, hw⟩ | ⟨h, hp⟩
      · exact inl ⟨fun _ _ => h, hw⟩
      · exact inr ⟨fun hc => by have := hc hd (by omega); omega, hp⟩
    all_goals refine inl ⟨fun hc => absurd hc hd, ?_⟩
    · exact le_succ_of_le (by omega)
    · exact ⟨by show (s.buf ++ [c]).length ≤ _; omega, lt_succ_self _⟩
    · exact le_succ_of_le (by omega)
    · exact afterItem_within (by omega)
    · exact le_succ_of_le (by omega)

/-! ### Whole runs of the loop -/

def ComesTo (d : Decoder) : Reading → Reading → Prop := Relation.ReflTransGen fun s s' => d.readStep s = .more s'

/-- The buffer stays within a byte of the limit, and a value within it, exactly if the lengths of all strings the loop
comes to fit. -/
theorem readLoop_within_iff (hb : s.buf.length ≤ d.limits.maxSize) (hf : s.rest.length < fuel) :
    ((d.readLoop fuel s).1.length ≤ d.limits.maxSize + 1 ∧
      ∀ rest, (d.readLoop fuel s).2 = .ok rest → (d.readLoop fuel s).1.length ≤ d.limits.maxSize) ↔
    ∀ s', d.ComesTo s s' → d.LengthFits s' := by
  induction fuel generalizing s with
  | zero => omega
  | succ fuel ih =>
    simp only [ComesTo, Relation.ReflTransGen.cases_head_iff (a := s), eq_comm (a := s), forall_eq_or_imp]
    rw [readLoop]
    rcases readStep_spec hb with ⟨hfits, hw⟩ | ⟨hno, buf, e, hstep, hlt⟩
    · cases hstep : d.readStep s with
      | more s' =>
        rw [hstep] at hw
        have hlt : s'.rest.length < fuel := hw.2.trans_le (le_of_lt_succ hf)
        simp only [ih hw.1 hlt, Outcome.more.injEq, existsAndEq, true_and, hfits, ComesTo]
      | done buf rest =>
        rw [hstep] at hw
        exact iff_of_true ⟨le_succ_of_le hw, fun _ _ => hw⟩ ⟨hfits, by simp⟩
      | failed buf e =>
        rw [hstep] at hw
        exact iff_of_true ⟨hw, by simp⟩ ⟨hfits, by simp⟩
    · rw [hstep]
      exact iff_of_false (fun h => absurd h.1 (by simpa using hlt)) fun h => hno h.1

/-- `readValue` holds no more than a byte past the limit, and returns no value past it, exactly if the bytes it reads
of each length, up to the digit that takes it past the limit, end by there. -/
theorem readValue_holds_within_iff (d : Decoder) (input : Bytes) :
    ((d.readValue input).1.length ≤ d.limits.maxSize + 1 ∧
      ∀ rest, (d.readValue input).2 = .ok rest → (d.readValue input).1.length ≤ d.limits.maxSize) ↔
    ∀ s, d.ComesTo ⟨0, [], input⟩ s → d.LengthFits s :=
  readLoop_within_iff (zero_le _) (lt_succ_self _)

/-- The zeros in front of a length are all collected. -/
theorem readValue_collects_zeros :
    (readValue { limits := { maxSize := 2 } } [48, 48, 48, 48, 48]).1.length = 5 ∧
    (readValue { limits := { maxSize := 2 } } [48, 48, 48, 48, 48]).2 = .error .unexpectedEOF := by decide

end Decoder
end Fib.Bencode
