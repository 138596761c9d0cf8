import Mathlib.Tactic
import Mathlib.Data.List.TakeWhile

/-! Ascending lists of half-open intervals of naturals, the shape in which a
transport keeps what it has received, lost or acknowledged. `Ascending 0` lets
neighbours touch, `Ascending 1` keeps a gap between them. An element is any
type with two end points, so that an interval may carry data. -/

namespace Fib.Intervals
open List

class Interval (α : Type) where
  start : α → ℕ
  stop : α → ℕ

export Interval (start stop)

variable {α : Type} [Interval α]

def Covers (l : List α) (x : ℕ) : Prop := ∃ a ∈ l, start a ≤ x ∧ x < stop a

/-- Every interval holds a point, and each starts `gap` past the end of those before it. -/
structure Ascending (gap : ℕ) (l : List α) : Prop where
  pairs : l.Pairwise fun a b => stop a + gap ≤ start b
  inhabited : ∀ a ∈ l, start a < stop a

@[simp] theorem covers_nil (x : ℕ) : ¬ Covers ([] : List α) x := by simp [Covers]

@[simp] theorem covers_cons (a : α) (l : List α) (x : ℕ) :
    Covers (a :: l) x ↔ (start a ≤ x ∧ x < stop a) ∨ Covers l x := by simp [Covers]

@[simp] theorem covers_append (l m : List α) (x : ℕ) : Covers (l ++ m) x ↔ Covers l x ∨ Covers m x := by
  simp only [Covers, mem_append, or_and_right, exists_or]

instance (l : List α) (x : ℕ) : Decidable (Covers l x) :=
  inferInstanceAs (Decidable (∃ a ∈ l, start a ≤ x ∧ x < stop a))

theorem Ascending.nil (g : ℕ) : Ascending g ([] : List α) := ⟨List.Pairwise.nil, by simp⟩

theorem ascending_cons (g : ℕ) (a : α) (l : List α) :
    Ascending g (a :: l) ↔ start a < stop a ∧ (∀ b ∈ l, stop a + g ≤ start b) ∧ Ascending g l := by
  constructor
  · rintro ⟨hp, hne⟩
    rw [pairwise_cons] at hp
    exact ⟨hne a (by simp), hp.1, hp.2, fun b hb => hne b (by simp [hb])⟩
  · rintro ⟨ha, hl, hp, hne⟩
    exact ⟨pairwise_cons.2 ⟨hl, hp⟩, by simpa [ha] using hne⟩

theorem ascending_append (g : ℕ) (l m : List α) :
    Ascending g (l ++ m) ↔ Ascending g l ∧ Ascending g m ∧ ∀ a ∈ l, ∀ b ∈ m, stop a + g ≤ start b := by
  constructor
  · rintro ⟨hp, hne⟩
    obtain ⟨h1, h2, h3⟩ := pairwise_append.1 hp
    exact ⟨⟨h1, fun a h => hne a (by simp [h])⟩, ⟨h2, fun a h => hne a (by simp [h])⟩, h3⟩
  rintro ⟨⟨h1, i1⟩, ⟨h2, i2⟩, h3⟩
  refine ⟨pairwise_append.2 ⟨h1, h2, h3⟩, fun a ha => ?_⟩
  rcases mem_append.1 ha with h | h
  · exact i1 a h
  · exact i2 a h

variable {l : List α} {g : ℕ}

theorem Ascending.tail (h : Ascending g l) : Ascending g l.tail :=
  ⟨h.pairs.tail, fun a ha => h.inhabited a (mem_of_mem_tail ha)⟩

theorem Ascending.drop (h : Ascending g l) (n : ℕ) : Ascending g (l.drop n) :=
  ⟨h.pairs.drop, fun a ha => h.inhabited a (mem_of_mem_drop ha)⟩

theorem Ascending.between {l m : List α} {a : α} (hl : Ascending g l) (hm : Ascending g m) (ha : start a < stop a)
    (hla : ∀ b ∈ l, stop b + g ≤ start a) (ham : ∀ c ∈ m, stop a + g ≤ start c) : Ascending g (l ++ a :: m) := by
  refine (ascending_append g _ _).2 ⟨hl, (ascending_cons g _ _).2 ⟨ha, ham, hm⟩, fun b hb c hc => ?_⟩
  have h1 := hla b hb
  rcases mem_cons.1 hc with rfl | hc
  · exact h1
  · have h2 := ham c hc
    omega

theorem Ascending.le_stop_of_dropWhile (h : Ascending g l) (x : ℕ) :
    ∀ a ∈ l.dropWhile (fun a => stop a < x), x ≤ stop a := by
  induction l with
  | nil => simp
  | cons b l ih =>
    obtain ⟨hb, hl, hasc⟩ := (ascending_cons g b l).1 h
    by_cases hx : stop b < x
    · simpa [List.dropWhile, hx] using ih hasc
    simp only [List.dropWhile, hx, decide_false, mem_cons, forall_eq_or_imp]
    refine ⟨by omega, fun a ha => ?_⟩
    have := hl a ha
    have := hasc.inhabited a ha
    omega

theorem stop_lt_of_takeWhile (x : ℕ) : ∀ a ∈ l.takeWhile (fun a => stop a < x), stop a < x := by
  intro a ha
  simpa using mem_takeWhile_imp ha

/-- An ascending list, cut where `l.takeWhile` stops: both parts ascend and the first lies below. -/
theorem Ascending.cut (h : Ascending g l) (p : α → Bool) : Ascending g (l.takeWhile p) ∧ Ascending g (l.dropWhile p) ∧
    ∀ a ∈ l.takeWhile p, ∀ b ∈ l.dropWhile p, stop a + g ≤ start b := by
  rw [← ascending_append, takeWhile_append_dropWhile]
  exact h

theorem covers_cut (l : List α) (p : α → Bool) (x : ℕ) :
    Covers l x ↔ Covers (l.takeWhile p) x ∨ Covers (l.dropWhile p) x := by
  rw [← covers_append, takeWhile_append_dropWhile]

theorem not_covers_of_stop_le {x : ℕ} (h : ∀ a ∈ l, stop a ≤ x) : ¬ Covers l x := by
  rintro ⟨a, ha, -, hx⟩
  exact absurd (h a ha) (by omega)

theorem not_covers_of_lt_start {x : ℕ} (h : ∀ a ∈ l, x < start a) : ¬ Covers l x := by
  rintro ⟨a, ha, hx, -⟩
  exact absurd (h a ha) (by omega)

end Fib.Intervals
