import Fib.Lib.Intervals

/-! `rangeSet`, the packet numbers received in a space (http3/quic/buffer.go):
at most `maxAckRanges` ascending ranges, disjoint and not adjacent. `sort.Search`
over them is the cut between the ranges it passes and the first it stops at. -/

namespace Fib.Quic
open Intervals

/-- The packet numbers from `lo` to `hi`, both included. -/
structure PnRange where
  lo : ℕ
  hi : ℕ
deriving DecidableEq

instance : Interval PnRange := ⟨PnRange.lo, fun r => r.hi + 1⟩

@[simp] theorem start_pnRange (r : PnRange) : start r = r.lo := rfl
@[simp] theorem stop_pnRange (r : PnRange) : stop r = r.hi + 1 := rfl

def maxAckRanges : ℕ := 32

namespace RangeSet
section
variable (r : List PnRange) (pn : ℕ)

/-- The first test of `add`: the set is full and `pn` lies below all of it. -/
def tooOld : Bool :=
  match r with
  | [] => false
  | x :: _ => pn < x.lo && r.length == maxAckRanges

/-- The ranges before the one `sort.Search` finds for `pn`, and those from it on. -/
def below : List PnRange := r.takeWhile fun x => x.hi + 1 < pn
def from_ (r : List PnRange) (pn : ℕ) : List PnRange := r.dropWhile fun x => x.hi + 1 < pn

def seen : Bool :=
  match from_ r pn with
  | [] => false
  | x :: _ => x.lo ≤ pn && pn ≤ x.hi

/-- The `switch` of `add` on the ranges from the one found: `pn` extends it, and may join it
to the next, or is put before it as a range of its own. -/
def join : List PnRange → ℕ → PnRange × List PnRange
  | [], pn => (⟨pn, pn⟩, [])
  | x :: after, pn =>
    if x.hi + 1 = pn then
      match after with
      | y :: rest => if y.lo = pn + 1 then (⟨x.lo, y.hi⟩, rest) else (⟨x.lo, pn⟩, after)
      | [] => (⟨x.lo, pn⟩, [])
    else if x.lo = pn + 1 then (⟨pn, x.hi⟩, after)
    else (⟨pn, pn⟩, x :: after)

def place : List PnRange :=
  below r pn ++ (join (from_ r pn) pn).1 :: (join (from_ r pn) pn).2

/-- The ranges past `maxAckRanges`, of which `add` drops the oldest. -/
def overflow : List PnRange :=
  if maxAckRanges < (place r pn).length then (place r pn).take 1 else []

def add : Bool × List PnRange :=
  if tooOld r pn then (false, r)
  else if seen r pn then (false, r)
  else (true, if maxAckRanges < (place r pn).length then (place r pn).drop 1 else place r pn)

/-- Drops the ranges wholly below `pn`, but never the last one. -/
def forget : List PnRange → ℕ → List PnRange
  | x :: y :: rest, pn => if x.hi < pn then forget (y :: rest) pn else x :: y :: rest
  | r, _ => r

def largest : Option ℕ := r.getLast?.map PnRange.hi

end

variable {r : List PnRange} {pn : ℕ}

theorem le_hi_of_from (h : Ascending 1 r) (pn : ℕ) : ∀ x ∈ from_ r pn, pn ≤ x.hi + 1 := h.le_stop_of_dropWhile pn

theorem hi_lt_of_below (r : List PnRange) (pn : ℕ) : ∀ x ∈ below r pn, x.hi + 1 < pn :=
  stop_lt_of_takeWhile pn

theorem cut (h : Ascending 1 r) (pn : ℕ) : Ascending 1 (below r pn) ∧ Ascending 1 (from_ r pn) ∧
      ∀ a ∈ below r pn, ∀ b ∈ from_ r pn, stop a + 1 ≤ start b := h.cut _

theorem covers_split (r : List PnRange) (pn q : ℕ) :
    Covers r q ↔ Covers (below r pn) q ∨ Covers (from_ r pn) q := covers_cut r _ q

theorem seen_iff (h : Ascending 1 r) (pn : ℕ) : seen r pn ↔ Covers r pn := by
  have hb : ¬ Covers (below r pn) pn :=
    not_covers_of_stop_le fun x hx => by have := hi_lt_of_below r pn x hx; simp; omega
  rw [covers_split r pn, or_iff_right hb]
  obtain ⟨-, hf, -⟩ := cut h pn
  have hle := le_hi_of_from h pn
  unfold seen
  cases hc : from_ r pn with
  | nil => simp
  | cons x after =>
    rw [hc] at hf hle
    obtain ⟨hx, hafter, -⟩ := (ascending_cons 1 x after).1 hf
    have ha : ¬ Covers after pn := not_covers_of_lt_start fun y hy => by
      have := hafter y hy
      have := hle x (by simp)
      simp only [stop_pnRange, start_pnRange] at *; omega
    simp only [covers_cons, or_iff_left ha, start_pnRange, stop_pnRange]
    simp

/-- What `join` makes of the ranges `f`: a range with `pn` in it, below the ranges it leaves. -/
structure Joined (f : List PnRange) (pn : ℕ) (j : PnRange × List PnRange) : Prop where
  le : j.1.lo ≤ j.1.hi
  asc : Ascending 1 j.2
  gap : ∀ b ∈ j.2, j.1.hi + 1 < b.lo
  lo : j.1.lo = pn ∨ ∃ x ∈ f, j.1.lo = x.lo
  mem : ∀ q, (j.1.lo ≤ q ∧ q ≤ j.1.hi) ∨ Covers j.2 q ↔ q = pn ∨ Covers f q

theorem join_spec {f : List PnRange} (hf : Ascending 1 f) (hle : ∀ x ∈ f, pn ≤ x.hi + 1)
    (hpn : ¬ Covers f pn) : Joined f pn (join f pn) := by
  cases f with
  | nil => exact ⟨le_rfl, Ascending.nil 1, by simp [join], Or.inl rfl, by simp [join]; omega⟩
  | cons x after =>
    obtain ⟨hx, hafter, hA⟩ := (ascending_cons 1 x after).1 hf
    have hxle := hle x (by simp)
    simp only [covers_cons, not_or, start_pnRange, stop_pnRange] at hpn hx hafter
    have hgap : ∀ b ∈ after, x.hi + 1 < b.lo := fun b hb => by have := hafter b hb; omega
    dsimp only [join]
    split_ifs with h1 h2
    · cases after with
      | nil =>
        refine ⟨by simp only; omega, Ascending.nil 1, by simp, Or.inr ⟨x, by simp, rfl⟩, fun q => ?_⟩
        simp only [covers_cons, covers_nil, or_false, start_pnRange, stop_pnRange]; omega
      | cons y rest =>
        obtain ⟨hy, hrest, hR⟩ := (ascending_cons 1 y rest).1 hA
        have hxy := hgap y (by simp)
        simp only [start_pnRange, stop_pnRange] at hy hrest
        dsimp only
        split_ifs with h3
        · -- the gap between `x` and `y` was `pn` alone
          refine ⟨by simp only; omega, hR, fun b hb => ?_, Or.inr ⟨x, by simp, rfl⟩, fun q => ?_⟩
          · have := hrest b hb
            simp only; omega
          · simp only [covers_cons, start_pnRange, stop_pnRange]
            by_cases hq : Covers rest q
            · simp [hq]
            · simp only [hq, or_false]; omega
        · refine ⟨by simp only; omega, hA, fun b hb => ?_, Or.inr ⟨x, by simp, rfl⟩, fun q => ?_⟩
          · rcases List.mem_cons.1 hb with rfl | hb
            · simp only; omega
            · have := hrest b hb
              simp only; omega
          · simp only [covers_cons, start_pnRange, stop_pnRange]
            by_cases hq : (y.lo ≤ q ∧ q < y.hi + 1) ∨ Covers rest q
            · simp only [hq, or_true]
            · simp only [hq, or_false]; omega
    · refine ⟨by simp only; omega, hA, hgap, Or.inl rfl, fun q => ?_⟩
      simp only [covers_cons, start_pnRange, stop_pnRange]
      by_cases hq : Covers after q
      · simp [hq]
      · simp only [hq, or_false]; omega
    · refine ⟨le_rfl, hf, fun b hb => ?_, Or.inl rfl, fun q => ?_⟩
      · rcases List.mem_cons.1 hb with rfl | hb
        · simp only; omega
        · have := hgap b hb
          simp only; omega
      · simp only [covers_cons, start_pnRange, stop_pnRange]
        by_cases hq : Covers after q
        · simp [hq]
        · simp only [hq, or_false]; omega

theorem place_spec (h : Ascending 1 r) (hpn : ¬ Covers r pn) :
    Ascending 1 (place r pn) ∧ ∀ q, Covers (place r pn) q ↔ q = pn ∨ Covers r q := by
  obtain ⟨hB, hF, hBF⟩ := cut h pn
  have hlt := hi_lt_of_below r pn
  have hpf : ¬ Covers (from_ r pn) pn := fun hh => hpn ((covers_split r pn pn).2 (Or.inr hh))
  have hj := join_spec hF (le_hi_of_from h pn) hpf
  constructor
  · refine hB.between hj.asc (by have := hj.le; simp only [start_pnRange, stop_pnRange]; omega)
      (fun a ha => ?_) (fun b hb => by have := hj.gap b hb; simp only [start_pnRange, stop_pnRange]; omega)
    rcases hj.lo with hlo | ⟨x, hx, hlo⟩
    · have := hlt a ha
      simp only [start_pnRange, stop_pnRange]; omega
    · have := hBF a ha x hx
      simp only [start_pnRange, stop_pnRange] at this ⊢; omega
  · intro q
    rw [covers_split r pn, place, covers_append, covers_cons, start_pnRange, stop_pnRange, Nat.lt_succ_iff, hj.mem q]
    exact or_left_comm

theorem forget_spec (h : Ascending 1 r) (pn : ℕ) : Ascending 1 (forget r pn) ∧ (forget r pn).length ≤ r.length ∧
      (∀ q, Covers (forget r pn) q → Covers r q) ∧ ∀ q, Covers r q → pn ≤ q → Covers (forget r pn) q := by
  fun_induction forget r pn with
  | case1 x y rest pn hx ih =>
    obtain ⟨ha, hl, hc, hk⟩ := ih h.tail
    refine ⟨ha, by simp only [List.length_cons] at hl ⊢; omega, fun q hq => ?_, fun q hq hle => ?_⟩
    · exact (covers_cons _ _ _).2 (Or.inr (hc q hq))
    · rcases (covers_cons _ _ _).1 hq with hq | hq
      · simp only [start_pnRange, stop_pnRange] at hq; omega
      · exact hk q hq hle
  | case2 x y rest pn hx => exact ⟨h, le_rfl, fun q hq => hq, fun q hq _ => hq⟩
  | case3 r pn hr => exact ⟨h, le_rfl, fun q hq => hq, fun q hq _ => hq⟩

theorem add_of_covers (h : Ascending 1 r) (hpn : Covers r pn) : add r pn = (false, r) := by
  rw [add, (seen_iff h pn).2 hpn]
  simp

theorem add_of_tooOld (h : tooOld r pn = true) : add r pn = (false, r) := by rw [add, h]; simp

variable (h : Ascending 1 r) (hpn : ¬ Covers r pn) (hold : ¬ tooOld r pn = true)
include h hpn hold

/-- A number that is not in the set, nor too old, is taken, and what the set then covers is
what it did, the number, and less the oldest range if there were too many. -/
theorem add_new : (add r pn).1 = true ∧ Ascending 1 (add r pn).2 ∧ ∀ q, Covers (overflow r pn) q ∨
    Covers (add r pn).2 q ↔ q = pn ∨ Covers r q := by
  obtain ⟨hasc, hcov⟩ := place_spec h hpn
  rw [add, overflow, if_neg hold, if_neg (fun hs => hpn ((seen_iff h pn).1 hs))]
  refine ⟨rfl, ?_, fun q => ?_⟩
  · split_ifs
    · exact hasc.drop 1
    · exact hasc
  rw [← hcov q]
  split_ifs
  · rw [← covers_append, List.take_append_drop]
  · simp

theorem not_covers_of_overflow {q : ℕ} (hq : Covers (overflow r pn) q) : ¬ Covers (add r pn).2 q := by
  obtain ⟨hasc, -⟩ := place_spec h hpn
  rw [add, if_neg hold, if_neg (fun hs => hpn ((seen_iff h pn).1 hs))]
  unfold overflow at hq
  split_ifs at hq ⊢ with hlen
  · rw [← List.take_append_drop 1 (place r pn), ascending_append] at hasc
    obtain ⟨a, ha, -, hqa⟩ := hq
    refine not_covers_of_lt_start fun b hb => ?_
    have := hasc.2.2 a ha b hb
    omega
  · simp at hq

end RangeSet
end Fib.Quic
