import Fib.Lib.Utf8

/-! The incremental check of text: bytes of a sequence begun before are taken one at a time, what
follows is checked in bulk up to the sequence its end may cut off. It is the automaton of the
standard, whichever pieces the text comes in. -/

namespace Fib.Websocket
open Utf8 List

structure Utf8Validator where
  need : ℕ := 0
  lo : UInt8 := 0
  hi : UInt8 := 0
  deriving DecidableEq

namespace Utf8Validator
section
variable (v : Utf8Validator)

/-- One byte; none where the source returns false. -/
def step (b : UInt8) : Option Utf8Validator :=
  if v.need ≠ 0 then
    if b < v.lo ∨ b > v.hi then none else some ⟨v.need - 1, 0x80, 0xbf⟩
  else if b < 0x80 then some ⟨v.need, 0x80, 0xbf⟩
  else if b ≥ 0xc2 ∧ b ≤ 0xdf then some ⟨1, 0x80, 0xbf⟩
  else if b = 0xe0 then some ⟨2, 0xa0, 0xbf⟩
  else if b = 0xed then some ⟨2, 0x80, 0x9f⟩
  else if b ≥ 0xe1 ∧ b ≤ 0xef then some ⟨2, 0x80, 0xbf⟩
  else if b = 0xf0 then some ⟨3, 0x90, 0xbf⟩
  else if b ≥ 0xf1 ∧ b ≤ 0xf3 then some ⟨3, 0x80, 0xbf⟩
  else if b = 0xf4 then some ⟨3, 0x80, 0x8f⟩
  else none

/-- The loop that takes bytes while the sequence begun before needs them. -/
def writePending : Utf8Validator → Bytes → Option (Utf8Validator × Bytes)
  | v, [] => some (v, [])
  | v, b :: p =>
    if v.need = 0 then some (v, b :: p)
    else match v.step b with
      | none => none
      | some v' => writePending v' p

/-- The loop over the last bytes: `left` more of them, from the one before `i` down. -/
def tailSearch (p : Bytes) : ℕ → ℕ → ℕ
  | left + 1, i + 1 =>
    if p.getD i 0 &&& 0xc0 ≠ 0x80 then
      if p.getD i 0 ≥ 0xc0 then i else p.length
    else tailSearch p left i
  | _, _ => p.length

def tailStart (p : Bytes) : ℕ := tailSearch p 3 p.length

def write (p : Bytes) : Option Utf8Validator :=
  match v.writePending p with
  | none => none
  | some (v, p) =>
    if v.need ≠ 0 then some v
    else if valid (p.take (tailStart p)) then (p.drop (tailStart p)).foldlM step v
    else none

def complete : Bool := v.need == 0

/-- Where the automaton stands; the bounds matter inside a sequence only. -/
def state : Utf8.State :=
  if v.need = 0 then none else some { v with }

end

variable {v v' : Utf8Validator}

@[simp] theorem state_default : state {} = none := rfl

theorem state_eq_none_iff : v.state = none ↔ v.need = 0 := by
  unfold state
  split_ifs with h <;> simp [h]

theorem complete_iff : v.complete = true ↔ v.state = none := by
  rw [state_eq_none_iff]
  simp [complete]

theorem step_state (v : Utf8Validator) (b : UInt8) : (v.step b).map state = advance v.state b := by
  unfold step
  by_cases hn : v.need = 0
  · rw [if_neg (not_not.2 hn), state_eq_none_iff.2 hn, advance, first, hn]
    simp only [apply_ite (Option.map state)]
    rfl
  rw [if_pos hn, show v.state = some { v with } from if_neg hn, advance]
  by_cases hb : b < v.lo ∨ b > v.hi
  · rw [if_pos hb, if_pos hb]
    rfl
  rw [if_neg hb, if_neg hb]
  by_cases hlast : v.need ≤ 1
  · rw [if_pos hlast]
    simp [state, show v.need - 1 = 0 by omega]
  · rw [if_neg hlast]
    simp [state, show v.need - 1 ≠ 0 by omega]

theorem foldlM_step_state (v : Utf8Validator) (p : Bytes) : (p.foldlM step v).map state = run v.state p := by
  induction p generalizing v with
  | nil => rfl
  | cons b p ih =>
    rw [run_cons, ← step_state, foldlM_cons]
    cases v.step b with
    | none => rfl
    | some v' => exact ih v'

/-- The pending bytes are taken from the front, and what is left is met between two sequences. -/
theorem writePending_state (v : Utf8Validator) (p : Bytes) : match v.writePending p with
    | none => run v.state p = none
    | some (v', q) => run v.state p = run v'.state q ∧ (v'.need ≠ 0 → q = []) := by
  induction p generalizing v with
  | nil => exact ⟨rfl, fun _ => rfl⟩
  | cons b p ih =>
    rw [writePending]
    by_cases hn : v.need = 0
    · rw [if_pos hn]
      exact ⟨rfl, fun h => absurd hn h⟩
    · rw [if_neg hn, run_cons, ← step_state]
      cases hs : v.step b with
      | none => rfl
      | some v' => exact ih v'

theorem cont_bits (b : UInt8) : b &&& 0xc0 = 0x80 ↔ 0x80 ≤ b ∧ b ≤ 0xbf := by
  have h : ∀ x : BitVec 8, UInt8.ofBitVec x &&& 0xc0 = 0x80 ↔ 0x80 ≤ UInt8.ofBitVec x ∧ UInt8.ofBitVec x ≤ 0xbf := by
    decide
  exact h b.toBitVec

/-- The search ends at the end of the string, or at the first byte of a sequence of several. -/
theorem tailSearch_spec (p : Bytes) (left i : ℕ) (hi : i ≤ p.length) : tailSearch p left i = p.length ∨
      tailSearch p left i < p.length ∧ 0xc0 ≤ p.getD (tailSearch p left i) 0 := by
  induction left generalizing i with
  | zero => exact .inl (by unfold tailSearch; rfl)
  | succ left ih =>
    cases i with
    | zero => exact .inl (by unfold tailSearch; rfl)
    | succ i =>
      unfold tailSearch
      split_ifs with hc hge
      · exact .inr ⟨hi, hge⟩
      · exact .inl rfl
      · exact ih i (by omega)

/-- It finds the first byte behind which fewer continuation bytes follow than it looks at. -/
theorem tailSearch_find (x c y : Bytes) {a : UInt8} (ha : 0xc0 ≤ a) (hc : ∀ b ∈ c, 0x80 ≤ b ∧ b ≤ 0xbf) (left : ℕ)
    (hlen : c.length < left) : tailSearch (x ++ a :: (c ++ y)) left (x.length + 1 + c.length) = x.length := by
  induction c using reverseRecOn generalizing left y with
  | nil =>
    obtain ⟨left, rfl⟩ : ∃ l, left = l + 1 := ⟨left - 1, by simp at hlen; omega⟩
    have hget : (x ++ a :: ([] ++ y)).getD x.length 0 = a := by simp
    have hbits : a &&& 0xc0 ≠ 0x80 := fun h => by
      have hle := ((cont_bits a).1 h).2
      exact UInt8.not_lt.2 hle (UInt8.lt_of_lt_of_le (by decide) ha)
    show tailSearch _ (left + 1) (x.length + 1) = x.length
    rw [tailSearch, hget, if_pos hbits, if_pos ha]
  | append_singleton c b ih =>
    obtain ⟨left, rfl⟩ : ∃ l, left = l + 1 := ⟨left - 1, by simp at hlen; omega⟩
    have hget : (x ++ a :: (c ++ [b] ++ y)).getD (x.length + 1 + c.length) 0 = b := by
      rw [show x ++ a :: (c ++ [b] ++ y) = (x ++ a :: c) ++ b :: y by simp,
        show x.length + 1 + c.length = (x ++ a :: c).length by simp; omega]
      simp
    have hbits : b &&& 0xc0 = 0x80 := (cont_bits b).2 (hc b (by simp))
    rw [show x.length + 1 + (c ++ [b]).length = x.length + 1 + c.length + 1 by simp; omega, tailSearch, hget,
      if_neg (not_not.2 hbits)]
    have := ih (b :: y) (fun d hd => hc d (by simp [hd])) left (by simp at hlen; omega)
    simpa using this

/-- Unless the string is refused, what is checked in bulk ends between two sequences. -/
theorem tailStart_boundary {p : Bytes} (h : run none p ≠ none) : run none (p.take (tailStart p)) = some none := by
  rcases tailSearch_spec p 3 p.length le_rfl with hend | ⟨hlt, hge⟩
  · rw [tailStart, hend, take_length]
    cases hs : run none p with
    | none => exact absurd hs h
    | some s =>
      cases s with
      | none => rfl
      | some w =>
        exfalso
        obtain ⟨x, a, c, hc⟩ := cutOff_of_run hs
        have hpos := hc.bounded.need_pos
        have hlen := hc.length_le
        have hfind := tailSearch_find x c [] hc.first_ge hc.rest 3 (by omega)
        have hp : p.length = x.length + 1 + c.length := by rw [hc.eq]; simp; omega
        rw [append_nil, ← hc.eq, ← hp] at hfind
        omega
  · have hlt : tailStart p < p.length := hlt
    have hsplit : p = p.take (tailStart p) ++ p.getD (tailStart p) 0 :: p.drop (tailStart p + 1) := by
      rw [getD_eq_getElem?_getD, getElem?_eq_getElem hlt, Option.getD_some, getElem_cons_drop, take_append_drop]
    rw [hsplit] at h
    exact run_before_first hge h

theorem write_state (v : Utf8Validator) (p : Bytes) : (v.write p).map state = run v.state p := by
  unfold write
  have hpend := writePending_state v p
  cases hw : v.writePending p with
  | none =>
    rw [hw] at hpend
    exact hpend.symm
  | some r =>
    obtain ⟨v', q⟩ := r
    rw [hw] at hpend
    obtain ⟨hrun, hq⟩ := hpend
    rw [hrun]
    show Option.map state (if v'.need ≠ 0 then some v'
      else if valid (q.take (tailStart q)) then (q.drop (tailStart q)).foldlM step v' else none) = _
    by_cases hn : v'.need = 0
    · rw [if_neg (not_not.2 hn), state_eq_none_iff.2 hn]
      by_cases hv : valid (q.take (tailStart q)) = true
      · rw [if_pos hv, foldlM_step_state, state_eq_none_iff.2 hn]
        conv_rhs => rw [← take_append_drop (tailStart q) q]
        rw [run_append, (valid_iff_run _).1 hv]
        rfl
      · rw [if_neg hv]
        by_contra hne
        exact hv ((valid_iff_run _).2 (tailStart_boundary (Ne.symm hne)))
    · rw [if_pos hn, hq hn]
      rfl

theorem foldlM_write_state (v : Utf8Validator) (pieces : List Bytes) :
    (pieces.foldlM write v).map state = run v.state pieces.flatten := by
  induction pieces generalizing v with
  | nil => rfl
  | cons p pieces ih =>
    rw [foldlM_cons, flatten_cons, run_append, ← write_state]
    cases v.write p with
    | none => rfl
    | some v' => exact ih v'

/-- However a string is cut, all writes succeed and the last leaves the validator complete exactly if it is valid; and
a write fails exactly if its piece is the first with a byte after which no valid string goes on. -/
theorem pieces_validated (pieces before : List Bytes) (piece : Bytes) :
    ((∃ v, pieces.foldlM write {} = some v ∧ v.complete = true) ↔ Utf8.valid pieces.flatten = true) ∧
      ((∃ v, before.foldlM write {} = some v ∧ v.write piece = none) ↔
        (∃ x b y, piece = x ++ b :: y ∧ Utf8.Dead (before.flatten ++ x ++ [b])) ∧
          ∀ x b y, before.flatten = x ++ b :: y → ¬ Utf8.Dead (x ++ [b])) := by
  have hall := foldlM_write_state {} pieces
  have hbefore := foldlM_write_state {} before
  rw [state_default] at hall hbefore
  refine ⟨?_, ?_⟩
  · rw [valid_iff_run, ← hall, Option.map_eq_some_iff]
    simp only [complete_iff]
  cases hv : before.foldlM write {} with
  | none =>
    rw [hv] at hbefore
    refine ⟨nofun, fun ⟨_, hlive⟩ => ?_⟩
    obtain ⟨x, b, y, he, hd⟩ := (run_append_eq_none_iff (p := []) nofun).1 hbefore.symm
    exact absurd hd (hlive x b y he)
  | some v =>
    rw [hv] at hbefore
    have hrun : run none before.flatten = some v.state := hbefore.symm
    have hpiece : run none (before.flatten ++ piece) = (v.write piece).map state := by
      rw [run_append, hrun, write_state]
      rfl
    rw [← run_append_eq_none_iff (by rw [hrun]; nofun), hpiece, Option.map_eq_none_iff]
    refine ⟨fun ⟨w, hw, hn⟩ => ⟨Option.some.inj hw ▸ hn, fun x b y he hd => ?_⟩, fun h => ⟨v, rfl, h.1⟩⟩
    have hnone := run_append_eq_none (run_eq_none_iff.2 hd) y
    rw [append_assoc, singleton_append, ← he, hrun] at hnone
    cases hnone

end Utf8Validator
end Fib.Websocket
