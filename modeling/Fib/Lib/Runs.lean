import Mathlib.Tactic

/-! Runs of a step function whose steps have side conditions: what every run meeting a
condition keeps, and when a condition is exactly what a property needs. -/

namespace Fib
open List

structure Machine (σ ι : Type*) where
  init : σ
  step : σ → ι → σ

namespace Machine
variable {σ ι : Type*} (m : Machine σ ι)

def run (ops : List ι) : σ := ops.foldl m.step m.init

def MeetsFrom (P : σ → ι → Prop) : σ → List ι → Prop
  | _, [] => True
  | s, op :: ops => P s op ∧ MeetsFrom P (m.step s op) ops

/-- Each step of the run is taken in a state in which it meets `P`. -/
def Meets (P : σ → ι → Prop) (ops : List ι) : Prop := m.MeetsFrom P m.init ops

/-- `Good` holds in every state the run goes through. -/
def Always (Good : σ → Prop) (ops : List ι) : Prop := ∀ pre, pre <+: ops → Good (m.run pre)

instance decidableMeetsFrom (P : σ → ι → Prop) [∀ s op, Decidable (P s op)] : ∀ s ops, Decidable (m.MeetsFrom P s ops)
  | _, [] => isTrue trivial
  | s, op :: ops => @instDecidableAnd _ _ _ (decidableMeetsFrom P (m.step s op) ops)

instance (P : σ → ι → Prop) [∀ s op, Decidable (P s op)] (ops : List ι) : Decidable (m.Meets P ops) :=
  m.decidableMeetsFrom P m.init ops

@[simp] theorem run_nil : m.run [] = m.init := rfl

@[simp] theorem run_snoc (ops : List ι) (op : ι) : m.run (ops ++ [op]) = m.step (m.run ops) op := by
  simp [run]

variable {ops : List ι} {P Q : σ → ι → Prop}

theorem meetsFrom_append {s : σ} {ops ops' : List ι} :
    m.MeetsFrom P s (ops ++ ops') ↔ m.MeetsFrom P s ops ∧ m.MeetsFrom P (ops.foldl m.step s) ops' := by
  induction ops generalizing s with
  | nil => simp [MeetsFrom]
  | cons op ops ih => simp [MeetsFrom, ih, and_assoc]

@[simp] theorem meets_nil : m.Meets P [] := trivial

theorem meets_snoc {op : ι} : m.Meets P (ops ++ [op]) ↔ m.Meets P ops ∧ P (m.run ops) op := by
  simp [Meets, meetsFrom_append, MeetsFrom, run]

theorem always_snoc {Good : σ → Prop} {op : ι} :
    m.Always Good (ops ++ [op]) ↔ m.Always Good ops ∧ Good (m.step (m.run ops) op) := by
  constructor
  · intro h
    refine ⟨fun pre hpre => h pre (hpre.trans (prefix_append _ _)), ?_⟩
    rw [← run_snoc]
    exact h _ prefix_rfl
  · rintro ⟨h, hl⟩ pre hpre
    rcases prefix_concat_iff.1 hpre with rfl | hpre
    · rwa [run_snoc]
    · exact h pre hpre

variable {m} {P : σ → ι → Prop} {I Good : σ → Prop}

/-- What holds at the start and every step meeting `P` preserves holds after the run. -/
theorem invariant (h0 : I m.init) (hstep : ∀ s op, I s → P s op → I (m.step s op))
    (h : m.Meets P ops) : I (m.run ops) := by
  induction ops using reverseRecOn with
  | nil => exact h0
  | append_singleton ops op ih =>
    obtain ⟨hm, hP⟩ := m.meets_snoc.1 h
    rw [run_snoc]
    exact hstep _ op (ih hm) hP

theorem meets_true (ops : List ι) : m.Meets (fun _ _ => True) ops := by
  induction ops using reverseRecOn with
  | nil => exact m.meets_nil
  | append_singleton ops op ih => exact m.meets_snoc.2 ⟨ih, trivial⟩

/-- What holds at the start and every step preserves holds after every run. -/
theorem invariant_all (h0 : I m.init) (hstep : ∀ s op, I s → I (m.step s op)) (ops : List ι) : I (m.run ops) :=
  invariant h0 (fun s op hs _ => hstep s op hs) (meets_true ops)

theorem meets_and : m.Meets (fun s op => P s op ∧ Q s op) ops ↔ m.Meets P ops ∧ m.Meets Q ops := by
  induction ops using reverseRecOn with
  | nil => simp
  | append_singleton ops op ih =>
    simp only [meets_snoc, ih]
    tauto

/-- A condition that follows, step by step, from one the run meets and what that one keeps. -/
theorem meets_of (h0 : I m.init) (hstep : ∀ s op, I s → P s op → I (m.step s op))
    (hQ : ∀ s op, I s → P s op → Q s op) (h : m.Meets P ops) : m.Meets Q ops := by
  induction ops using reverseRecOn with
  | nil => exact m.meets_nil
  | append_singleton ops op ih =>
    obtain ⟨hm, hP⟩ := m.meets_snoc.1 h
    exact m.meets_snoc.2 ⟨ih hm, hQ _ op (invariant h0 hstep hm) hP⟩

/-- Among the runs that meet `R`, `P` is the exact condition of `Good`: meeting it keeps an invariant that
gives `Good`, and the first step that does not meet it ends in a state without. -/
theorem always_iff_meets_of {R : σ → ι → Prop} (h0 : I m.init) (hstep : ∀ s op, I s → R s op → P s op → I (m.step s op))
    (hgood : ∀ s, I s → Good s) (hbad : ∀ s op, I s → R s op → ¬ P s op → ¬ Good (m.step s op)) (hR : m.Meets R ops) :
    m.Always Good ops ↔ m.Meets P ops := by
  induction ops using reverseRecOn with
  | nil =>
    refine ⟨fun _ => trivial, fun _ pre hpre => ?_⟩
    rw [prefix_nil.1 hpre]
    exact hgood _ h0
  | append_singleton ops op ih =>
    obtain ⟨hRm, hRop⟩ := m.meets_snoc.1 hR
    rw [always_snoc, meets_snoc, ih hRm]
    refine and_congr_right fun hm => ?_
    have hi : I (m.run ops) := invariant h0 (fun s op hs h => hstep s op hs h.1 h.2) (meets_and.2 ⟨hRm, hm⟩)
    exact ⟨fun hg => by_contra fun hP => hbad _ op hi hRop hP hg, fun hP => hgood _ (hstep _ op hi hRop hP)⟩

/-- `P` is the exact condition of `Good` in every run. -/
theorem always_iff_meets (h0 : I m.init) (hstep : ∀ s op, I s → P s op → I (m.step s op))
    (hgood : ∀ s, I s → Good s) (hbad : ∀ s op, I s → ¬ P s op → ¬ Good (m.step s op))
    (ops : List ι) : m.Always Good ops ↔ m.Meets P ops :=
  always_iff_meets_of h0 (fun s op hs _ => hstep s op hs) hgood (fun s op hs _ => hbad s op hs) (meets_true ops)

/-- A property that a step never restores holds all along a run if it holds at its end. -/
theorem always_iff_run (hback : ∀ s op, Good (m.step s op) → Good s) (ops : List ι) :
    m.Always Good ops ↔ Good (m.run ops) := by
  induction ops using reverseRecOn with
  | nil => exact ⟨fun h => h _ prefix_rfl, fun h pre hpre => by rwa [prefix_nil.1 hpre]⟩
  | append_singleton ops op ih =>
    rw [always_snoc, run_snoc, ih]
    exact ⟨fun h => h.2, fun h => ⟨hback _ op h, h⟩⟩

end Machine
end Fib
