import Fib.Hpack.Decoder

/-! Huffman-coded strings as they are decoded (hpack/huffman.go): four bits a step through a table of states. The
table is a parameter. -/

namespace Fib.Hpack
open Except

/-- Where four bits lead, with the symbol they finish if `emit`. -/
structure HuffmanStep where
  next : ℕ
  sym : UInt8
  emit : Bool
  fail : Bool
deriving DecidableEq

/-- The decoder's table: `huffmanSteps` of a state and four bits, and the states the input may end in, of which the root
is one. -/
structure HuffmanTable where
  steps : ℕ → ℕ → HuffmanStep
  accepts : ℕ → Bool
  root : accepts 0 = true

namespace HuffmanTable
variable (T : HuffmanTable)

def nibble (state n : ℕ) (out : Bytes) : Except Err (ℕ × Bytes) :=
  if (T.steps state n).fail then .error .invalidHuffman
  else .ok ((T.steps state n).next, if (T.steps state n).emit then out ++ [(T.steps state n).sym] else out)

def byteStep (state : ℕ) (b : UInt8) (out : Bytes) : Except Err (ℕ × Bytes) :=
  match T.nibble state (b.toNat / 16) out with
  | .error e => .error e
  | .ok (state, out) => T.nibble state (b.toNat % 16) out

/-- The loop of `huffmanDecodeAppend`, from a state on. A `maxLen` of zero is no bound. -/
def decodeFrom (maxLen : ℕ) : ℕ → Bytes → Bytes → Except Err Bytes
  | state, out, [] => if T.accepts state then .ok out else .error .invalidHuffman
  | state, out, b :: s =>
    match T.byteStep state b out with
    | .error e => .error e
    | .ok (state, out) =>
      if 0 < maxLen ∧ maxLen < out.length then .error .stringTooLong else decodeFrom maxLen state out s

def decode (s : Bytes) (maxLen : ℕ) : Except Err Bytes := T.decodeFrom maxLen 0 [] s

/-- What the bytes so far decode to, whatever comes after them. -/
def symbols : ℕ → Bytes → Bytes → Option Bytes
  | _, out, [] => some out
  | state, out, b :: s =>
    match T.byteStep state b out with
    | .error _ => none
    | .ok (state, out) => symbols state out s

variable {T} {state state' n maxLen : ℕ} {b : UInt8} {s out out' plain : Bytes}

theorem nibble_length (h : T.nibble state n out = .ok (state', out')) : out.length ≤ out'.length := by
  unfold nibble at h
  split_ifs at h
  · obtain ⟨-, rfl⟩ := Prod.mk.inj (ok.inj h)
    simp
  · obtain ⟨-, rfl⟩ := Prod.mk.inj (ok.inj h)
    exact le_rfl

theorem byteStep_length (h : T.byteStep state b out = .ok (state', out')) : out.length ≤ out'.length := by
  unfold byteStep at h
  cases hn : T.nibble state (b.toNat / 16) out with
  | error e => simp [hn] at h
  | ok r =>
    rw [hn] at h
    exact (nibble_length hn).trans (nibble_length h)

theorem byteStep_error {e : Err} (h : T.byteStep state b out = .error e) : e = .invalidHuffman := by
  have hnibble : ∀ {state n out}, T.nibble state n out = .error e → e = .invalidHuffman := by
    intro state n out h
    unfold nibble at h
    split_ifs at h
    exact (error.inj h).symm
  unfold byteStep at h
  cases hn : T.nibble state (b.toNat / 16) out with
  | error e' =>
    rw [hn] at h
    exact hnibble (hn.trans h)
  | ok r =>
    rw [hn] at h
    exact hnibble h

theorem decodeFrom_length (h : T.decodeFrom maxLen state out s = .ok plain) : out.length ≤ plain.length := by
  induction s generalizing state out with
  | nil =>
    rw [decodeFrom] at h
    split_ifs at h
    rw [ok.inj h]
  | cons b s ih =>
    rw [decodeFrom] at h
    cases hb : T.byteStep state b out with
    | error e => simp [hb] at h
    | ok r =>
      simp only [hb] at h
      split_ifs at h
      exact (byteStep_length hb).trans (ih h)

theorem decodeFrom_eq_ok (hout : maxLen = 0 ∨ out.length ≤ maxLen) : T.decodeFrom maxLen state out s = .ok plain ↔
    T.decodeFrom 0 state out s = .ok plain ∧ (maxLen = 0 ∨ plain.length ≤ maxLen) := by
  induction s generalizing state out with
  | nil =>
    rw [decodeFrom, decodeFrom]
    constructor
    · intro h
      refine ⟨h, ?_⟩
      split_ifs at h
      rwa [← ok.inj h]
    · exact fun h => h.1
  | cons b s ih =>
    rw [decodeFrom, decodeFrom]
    cases hb : T.byteStep state b out with
    | error e => simp
    | ok r =>
      obtain ⟨state', out'⟩ := r
      simp only [lt_self_iff_false, false_and, if_false]
      by_cases hlong : 0 < maxLen ∧ maxLen < out'.length
      · rw [if_pos hlong]
        constructor
        · intro h
          simp at h
        · rintro ⟨h, hle⟩
          have hlen := decodeFrom_length h
          omega
      · rw [if_neg hlong]
        exact ih (by omega)

theorem decode_eq_ok : T.decode s maxLen = .ok plain ↔
    T.decode s 0 = .ok plain ∧ (maxLen = 0 ∨ plain.length ≤ maxLen) :=
  decodeFrom_eq_ok (by simp)

@[simp] theorem decode_nil : T.decode [] maxLen = .ok [] := by
  rw [decode, decodeFrom, T.root, if_pos rfl]

theorem decodeFrom_zero (state : ℕ) (out s : Bytes) : T.decodeFrom 0 state out s ≠ .error .stringTooLong := by
  induction s generalizing state out with
  | nil =>
    rw [decodeFrom]
    split_ifs <;> simp
  | cons b s ih =>
    rw [decodeFrom]
    cases hb : T.byteStep state b out with
    | error e =>
      rw [byteStep_error hb]
      simp
    | ok r => exact ih r.1 r.2

theorem decodeFrom_tooLong (hmax : 0 < maxLen) (hout : out.length ≤ maxLen) :
    T.decodeFrom maxLen state out s = .error .stringTooLong ↔
      ∃ k plain, T.symbols state out (s.take k) = some plain ∧ maxLen < plain.length := by
  induction s generalizing state out with
  | nil =>
    rw [decodeFrom]
    constructor
    · intro h
      split_ifs at h
      exact absurd (error.inj h) (by decide)
    · rintro ⟨k, plain, h, hlt⟩
      rw [List.take_nil, symbols] at h
      rw [← Option.some.inj h] at hlt
      omega
  | cons b s ih =>
    rw [decodeFrom]
    cases hb : T.byteStep state b out with
    | error e =>
      constructor
      · intro h
        rw [byteStep_error hb] at h
        exact absurd (error.inj h) (by decide)
      rintro ⟨k, plain, h, hlt⟩
      cases k with
      | zero =>
        rw [List.take_zero, symbols] at h
        rw [← Option.some.inj h] at hlt
        omega
      | succ k => simp [symbols, hb] at h
    | ok r =>
      obtain ⟨state', out'⟩ := r
      simp only
      by_cases hlong : 0 < maxLen ∧ maxLen < out'.length
      · rw [if_pos hlong]
        refine ⟨fun _ => ⟨1, out', ?_, hlong.2⟩, fun _ => rfl⟩
        simp [symbols, hb]
      rw [if_neg hlong, ih (by omega)]
      constructor
      · rintro ⟨k, plain, h, hlt⟩
        exact ⟨k + 1, plain, by simpa [symbols, hb] using h, hlt⟩
      rintro ⟨k, plain, h, hlt⟩
      cases k with
      | zero =>
        rw [List.take_zero, symbols] at h
        rw [← Option.some.inj h] at hlt
        omega
      | succ k => exact ⟨k, plain, by simpa [symbols, hb] using h, hlt⟩

end HuffmanTable
end Fib.Hpack
