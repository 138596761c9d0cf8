import Fib.Lib.Bytes

/-! UTF-8, RFC 3629: the sequences by their first byte, validity of a whole string sequence by
sequence, and the automaton that takes a string a byte at a time. The two agree. -/

namespace Fib.Utf8
open List

/-- What a sequence still needs: the number of continuation bytes, and the bounds of the next one. -/
@[ext] structure Pending where
  need : ℕ
  lo : UInt8
  hi : UInt8
  deriving DecidableEq

abbrev State := Option Pending

/-- What the first byte of a sequence asks for; no sequence begins with the others. -/
def first (b : UInt8) : Option State :=
  if b < 0x80 then some none
  else if 0xc2 ≤ b ∧ b ≤ 0xdf then some (some ⟨1, 0x80, 0xbf⟩)
  else if b = 0xe0 then some (some ⟨2, 0xa0, 0xbf⟩)
  else if b = 0xed then some (some ⟨2, 0x80, 0x9f⟩)
  else if 0xe1 ≤ b ∧ b ≤ 0xef then some (some ⟨2, 0x80, 0xbf⟩)
  else if b = 0xf0 then some (some ⟨3, 0x90, 0xbf⟩)
  else if 0xf1 ≤ b ∧ b ≤ 0xf3 then some (some ⟨3, 0x80, 0xbf⟩)
  else if b = 0xf4 then some (some ⟨3, 0x80, 0x8f⟩)
  else none

def continuation : ℕ → UInt8 → UInt8 → Bytes → Option Bytes
  | 0, _, _, p => some p
  | _ + 1, _, _, [] => none
  | n + 1, lo, hi, b :: p => if lo ≤ b ∧ b ≤ hi then continuation n 0x80 0xbf p else none

def afterSequence : Bytes → Option Bytes
  | [] => none
  | b :: p =>
    match first b with
    | none => none
    | some none => some p
    | some (some w) => continuation w.need w.lo w.hi p

def validWithin : ℕ → Bytes → Bool
  | _, [] => true
  | 0, _ :: _ => false
  | fuel + 1, p@(_ :: _) =>
    match afterSequence p with
    | none => false
    | some q => validWithin fuel q

def valid (p : Bytes) : Bool := validWithin p.length p

/-- The automaton: the state after one more byte, none where no sequence goes on with it. -/
def advance : State → UInt8 → Option State
  | none, b => first b
  | some w, b =>
    if b < w.lo ∨ w.hi < b then none
    else if w.need ≤ 1 then some none
    else some (some ⟨w.need - 1, 0x80, 0xbf⟩)

def run (s : State) (p : Bytes) : Option State := p.foldlM advance s

@[simp] theorem run_nil (s : State) : run s [] = some s := rfl

theorem run_cons (s : State) (b : UInt8) (p : Bytes) : run s (b :: p) = (advance s b).bind (run · p) := rfl

theorem run_append (s : State) (p q : Bytes) : run s (p ++ q) = (run s p).bind (run · q) := by
  simp only [run, foldlM_append]
  rfl

variable {p q : Bytes} {w : Pending} {n : ℕ} {lo hi : UInt8}

theorem run_append_eq_none {s : State} (h : run s p = none) (q : Bytes) : run s (p ++ q) = none := by
  rw [run_append, h]
  rfl

/-- Inside a sequence no more than three bytes are missing, and they are continuation bytes. -/
structure Pending.Bounded (w : Pending) : Prop where
  need_pos : 1 ≤ w.need
  need_le : w.need ≤ 3
  lo_ge : 0x80 ≤ w.lo
  hi_le : w.hi ≤ 0xbf
  lo_le : w.lo ≤ w.hi

theorem first_pending {b : UInt8} (h : first b = some (some w)) : 0xc0 ≤ b ∧ w.Bounded := by
  unfold first at h
  split_ifs at h with h1 h2 h3 h4 h5 h6 h7 h8 <;> cases h
  · exact ⟨UInt8.le_trans (by decide) h2.1, by constructor <;> decide⟩
  · exact ⟨h3 ▸ by decide, by constructor <;> decide⟩
  · exact ⟨h4 ▸ by decide, by constructor <;> decide⟩
  · exact ⟨UInt8.le_trans (by decide) h5.1, by constructor <;> decide⟩
  · exact ⟨h6 ▸ by decide, by constructor <;> decide⟩
  · exact ⟨UInt8.le_trans (by decide) h7.1, by constructor <;> decide⟩
  · exact ⟨h8 ▸ by decide, by constructor <;> decide⟩

theorem first_need {b : UInt8} (h : first b = some (some w)) : 1 ≤ w.need :=
  (first_pending h).2.need_pos

/-- Inside a sequence the automaton takes its continuation bytes and is then between two, where a sequence that is cut
off or goes wrong does not bring it. -/
theorem run_continuation (hn : 1 ≤ n) : (∀ q, continuation n lo hi p = some q → run (some ⟨n, lo, hi⟩) p = run none q) ∧
    (continuation n lo hi p = none → run (some ⟨n, lo, hi⟩) p ≠ some none) := by
  induction n generalizing lo hi p with
  | zero => omega
  | succ n ih =>
    cases p with
    | nil => simp [continuation]
    | cons b p =>
      rw [continuation, run_cons, advance]
      by_cases hb : lo ≤ b ∧ b ≤ hi
      · have hin : ¬ (b < lo ∨ hi < b) := fun hout =>
          hout.elim (fun h => UInt8.not_lt.2 hb.1 h) (fun h => UInt8.not_lt.2 hb.2 h)
        rw [if_pos hb, if_neg hin]
        by_cases hlast : n = 0
        · subst hlast
          exact ⟨fun q h => congrArg (run none) (Option.some.inj h), nofun⟩
        · rw [if_neg (by simp only; omega)]
          exact ih (by omega)
      · have hout : b < lo ∨ hi < b := by
          rcases not_and_or.1 hb with h | h
          · exact .inl (UInt8.not_le.1 h)
          · exact .inr (UInt8.not_le.1 h)
        rw [if_neg hb, if_pos hout]
        exact ⟨nofun, fun _ => nofun⟩

theorem run_afterSequence (h : afterSequence p = some q) : run none p = run none q := by
  cases p with
  | nil => cases h
  | cons b p =>
    rw [run_cons]
    rw [afterSequence] at h
    split at h
    · cases h
    · rename_i hf
      cases h
      rw [advance, hf]
      rfl
    · rename_i w hf
      rw [advance, hf]
      exact (run_continuation (first_need hf)).1 q h

theorem run_afterSequence_none (hp : p ≠ []) (h : afterSequence p = none) : run none p ≠ some none := by
  cases p with
  | nil => exact absurd rfl hp
  | cons b p =>
    rw [run_cons, advance]
    rw [afterSequence] at h
    split at h
    · rename_i hf
      rw [hf]
      nofun
    · cases h
    · rename_i w hf
      rw [hf]
      exact (run_continuation (first_need hf)).2 h

theorem continuation_length (h : continuation n lo hi p = some q) : q.length ≤ p.length := by
  induction n generalizing lo hi p with
  | zero => exact (congrArg List.length (Option.some.inj h)).ge
  | succ n ih =>
    cases p with
    | nil => cases h
    | cons b p =>
      unfold continuation at h
      split_ifs at h
      exact (ih h).trans (Nat.le_succ _)

theorem afterSequence_length (h : afterSequence p = some q) : q.length < p.length := by
  cases p with
  | nil => cases h
  | cons b p =>
    rw [length_cons, Nat.lt_succ_iff]
    rw [afterSequence] at h
    split at h
    · cases h
    · exact (congrArg List.length (Option.some.inj h)).ge
    · exact continuation_length h

theorem valid_iff_run (p : Bytes) : valid p = true ↔ run none p = some none := by
  unfold valid
  -- by the fuel, which the length of what is left never exceeds
  suffices h : ∀ fuel p, p.length ≤ fuel → (validWithin fuel p = true ↔ run none p = some none) from
    h _ _ le_rfl
  intro fuel
  induction fuel with
  | zero =>
    intro p hp
    obtain rfl := eq_nil_of_length_eq_zero (Nat.le_zero.1 hp)
    simp [validWithin]
  | succ fuel ih =>
    intro p hp
    cases p with
    | nil => simp [validWithin]
    | cons b p =>
      rw [validWithin]
      cases hs : afterSequence (b :: p) with
      | none => simpa using run_afterSequence_none (cons_ne_nil b p) hs
      | some q =>
        have hlt := afterSequence_length hs
        rw [run_afterSequence hs]
        exact ih q (by omega)

/-- A string that stops inside a sequence ends with its first byte and the continuation bytes that
have come, of which there are at most two. -/
structure CutOff (p : Bytes) (w : Pending) (x : Bytes) (a : UInt8) (c : Bytes) : Prop where
  eq : p = x ++ a :: c
  first_ge : 0xc0 ≤ a
  rest : ∀ b ∈ c, 0x80 ≤ b ∧ b ≤ 0xbf
  bounded : w.Bounded
  length_le : c.length + w.need ≤ 3

theorem cutOff_of_run (h : run none p = some (some w)) : ∃ x a c, CutOff p w x a c := by
  induction p using List.reverseRecOn generalizing w with
  | nil => cases h
  | append_singleton p b ih =>
    rw [run_append] at h
    cases hs : run none p with
    | none => rw [hs] at h; cases h
    | some s =>
      rw [hs] at h
      have hb : advance s b = some (some w) := by
        cases ha : advance s b with
        | none => simp [run_cons, ha] at h
        | some t => simpa [run_cons, ha] using h
      cases s with
      | none =>
        obtain ⟨hge, hw⟩ := first_pending hb
        exact ⟨p, b, [], rfl, hge, by simp, hw, by simpa using hw.need_le⟩
      | some v =>
        obtain ⟨x, a, c, hc⟩ := ih hs
        rw [advance] at hb
        split_ifs at hb with hin hlast <;> cases hb
        obtain ⟨hlo, hhi⟩ := not_or.1 hin
        refine ⟨x, a, c ++ [b], by simp [hc.eq], hc.first_ge, ?_, ⟨?_, ?_, UInt8.le_refl _, UInt8.le_refl _,
          (by decide : (0x80 : UInt8) ≤ 0xbf)⟩, ?_⟩
        · intro y hy
          rcases mem_append.1 hy with hy | hy
          · exact hc.rest y hy
          · obtain rfl := mem_singleton.1 hy
            exact ⟨UInt8.le_trans hc.bounded.lo_ge (UInt8.not_lt.1 hlo),
              UInt8.le_trans (UInt8.not_lt.1 hhi) hc.bounded.hi_le⟩
        · simp only; omega
        · have := hc.bounded.need_le
          simp only; omega
        · have := hc.length_le
          simp only [length_append, length_singleton]; omega

def Dead (p : Bytes) : Prop := ∀ q, valid (p ++ q) = false

theorem run_completes (hn : w.need = n + 1) (hle : w.lo ≤ w.hi) :
    run (some w) (w.lo :: replicate n 0x80) = some none := by
  induction n generalizing w with
  | zero =>
    rw [run_cons, advance, if_neg (by simpa using hle), if_pos hn.le]
    rfl
  | succ n ih =>
    rw [run_cons, advance, if_neg (by simpa using hle), if_neg (by omega)]
    exact ih (by simp only; omega) (by decide : (0x80 : UInt8) ≤ 0xbf)

/-- The automaton refuses a string once none that is valid begins with it, and not before. -/
theorem run_eq_none_iff : run none p = none ↔ Dead p := by
  constructor
  · intro h q
    rw [← Bool.not_eq_true, valid_iff_run, run_append_eq_none h]
    nofun
  intro h
  cases hs : run none p with
  | none => rfl
  | some s =>
    exfalso
    have hend : ∃ q, run s q = some none := by
      cases s with
      | none => exact ⟨[], rfl⟩
      | some w =>
        obtain ⟨_, _, _, hc⟩ := cutOff_of_run hs
        obtain ⟨n, hn⟩ := Nat.exists_eq_add_of_le' hc.bounded.need_pos
        exact ⟨_, run_completes hn hc.bounded.lo_le⟩
    obtain ⟨q, hq⟩ := hend
    have hq' := h q
    rw [← Bool.not_eq_true, valid_iff_run, run_append, hs] at hq'
    exact hq' hq

theorem run_append_eq_none_iff (hp : run none p ≠ none) :
    run none (p ++ q) = none ↔ ∃ x b y, q = x ++ b :: y ∧ Dead (p ++ x ++ [b]) := by
  constructor
  · intro h
    rcases eq_nil_or_concat q with rfl | ⟨x, b, rfl⟩
    · rw [append_nil] at h
      exact absurd h hp
    · rw [concat_eq_append, ← append_assoc] at h
      exact ⟨x, b, [], by simp, run_eq_none_iff.1 h⟩
  · rintro ⟨x, b, y, rfl, hd⟩
    have hnone := run_append_eq_none (run_eq_none_iff.2 hd) y
    simpa using hnone

theorem run_before_first {x y : Bytes} {a : UInt8} (ha : 0xc0 ≤ a) (h : run none (x ++ a :: y) ≠ none) :
    run none x = some none := by
  rw [run_append] at h
  cases hs : run none x with
  | none => rw [hs] at h; exact absurd rfl h
  | some s =>
    cases s with
    | none => rfl
    | some w =>
      exfalso
      obtain ⟨_, _, _, hc⟩ := cutOff_of_run hs
      rw [hs] at h
      have hhi : w.hi < 0xc0 := UInt8.lt_of_le_of_lt hc.bounded.hi_le (by decide)
      have hout : a < w.lo ∨ w.hi < a := .inr (UInt8.lt_of_lt_of_le hhi ha)
      refine h ?_
      show run (some w) (a :: y) = none
      rw [run_cons, advance, if_pos hout]
      rfl

end Fib.Utf8
