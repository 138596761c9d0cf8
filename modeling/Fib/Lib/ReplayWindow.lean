import Mathlib.Tactic

/-! A replay window: of the indices up to the highest one seen, a ring of bits tells which of the last few were. -/

namespace Fib
open List Nat Finset

structure ReplayWindow where
  bits : List Bool
  size : ℕ
  top : ℕ := 0
  started : Bool := false
deriving DecidableEq

namespace ReplayWindow
section
variable (w : ReplayWindow)

/-- A ring of whole words of 64 bits. -/
def init (size : ℕ) : ReplayWindow := { bits := replicate (64 * ((size + 63) / 64)) false, size }

def setBit (bits : List Bool) (i : ℕ) (b : Bool) : List Bool := bits.set (i % bits.length) b

def bit (bits : List Bool) (i : ℕ) : Bool := bits.getD (i % bits.length) false

def check (index : ℕ) : Bool :=
  !w.started || decide (w.top < index) || (decide (w.top - index < w.size) && !bit w.bits index)

/-- The bits of the `n` indices after `i` are cleared. -/
def clearAfter (bits : List Bool) (i : ℕ) : ℕ → List Bool
  | 0 => bits
  | n + 1 => setBit (clearAfter bits i n) (i + n + 1) false

def cleared : List Bool := replicate w.bits.length false

/-- The ring as the highest index moves on to `index`, before `index` itself is marked. -/
def advanced (index : ℕ) : List Bool :=
  if w.bits.length ≤ index - w.top then w.cleared else clearAfter w.bits w.top (index - w.top - 1)

def accept (index : ℕ) : ReplayWindow :=
  if w.started = false then { w with started := true, bits := setBit w.cleared index true, top := index }
  else if w.top < index then { w with bits := setBit (w.advanced index) index true, top := index }
  else { w with bits := setBit w.bits index true }

end

/-! ### The ring -/

@[simp] theorem length_setBit (bits : List Bool) (i : ℕ) (b : Bool) : (setBit bits i b).length = bits.length :=
  length_set

@[simp] theorem length_clearAfter (bits : List Bool) (i n : ℕ) : (clearAfter bits i n).length = bits.length := by
  induction n with
  | zero => rfl
  | succ n ih => rw [clearAfter, length_setBit, ih]

variable {bits : List Bool}

theorem bit_setBit (hpos : 0 < bits.length) (i j : ℕ) (b : Bool) :
    bit (setBit bits i b) j = if i % bits.length = j % bits.length then b else bit bits j := by
  have hj := mod_lt j hpos
  unfold bit
  rw [length_setBit, setBit, getD_eq_getElem?_getD, getD_eq_getElem?_getD, getElem?_set]
  split_ifs with h1 h2
  · rfl
  · rw [h1] at h2
    contradiction
  · rfl

theorem mod_ne_of_lt {m i j : ℕ} (h1 : i < j) (h2 : j < i + m) : i % m ≠ j % m := by
  intro he
  obtain ⟨k, hk⟩ := (Nat.modEq_iff_dvd' h1.le).1 (Nat.ModEq.symm he).symm
  have hpos : 0 < k := by
    rcases Nat.eq_zero_or_pos k with rfl | hk'
    · rw [Nat.mul_zero] at hk
      omega
    · exact hk'
  have := Nat.le_mul_of_pos_right m hpos
  omega

theorem bit_clearAfter (hpos : 0 < bits.length) {i n j : ℕ} (hj : j ≤ i + n)
    (hwin : i + n < j + bits.length) : bit (clearAfter bits i n) j = if i < j then false else bit bits j := by
  induction n with
  | zero => rw [clearAfter, if_neg (by omega)]
  | succ n ih =>
    rw [clearAfter, bit_setBit (by rwa [length_clearAfter]), length_clearAfter]
    by_cases he : j = i + n + 1
    · rw [if_pos (by rw [he]), if_pos (by omega)]
    · rw [if_neg (fun hm => mod_ne_of_lt (by omega : j < i + n + 1) (by omega) hm.symm)]
      exact ih (by omega) (by omega)

@[simp] theorem length_cleared (w : ReplayWindow) : w.cleared.length = w.bits.length :=
  length_replicate

theorem bit_cleared (w : ReplayWindow) (i : ℕ) : bit w.cleared i = false := by
  rw [bit, cleared, getD_eq_getElem?_getD, getElem?_replicate]
  split_ifs <;> rfl

@[simp] theorem length_advanced (w : ReplayWindow) (i : ℕ) : (w.advanced i).length = w.bits.length := by
  unfold advanced
  split_ifs
  · exact length_cleared w
  · exact length_clearAfter _ _ _

theorem bit_advanced {w : ReplayWindow} (hpos : 0 < w.bits.length) {i j : ℕ} (hi : w.top < i) (hj : j < i)
    (hwin : i < j + w.bits.length) : bit (w.advanced i) j = if w.top < j then false else bit w.bits j := by
  unfold advanced
  split_ifs with hfar hnew hnew
  · exact bit_cleared w j
  · omega
  · rw [bit_clearAfter hpos (by omega) (by omega), if_pos hnew]
  · rw [bit_clearAfter hpos (by omega) (by omega), if_neg hnew]

/-! ### What is seen -/

/-- The window tells, of what was seen, what it should. -/
structure Marks (w : ReplayWindow) (seen : Finset ℕ) : Prop where
  size : 0 < w.size ∧ w.size ≤ w.bits.length
  fresh : w.started = false → seen = ∅
  top : w.started = true → w.top ∈ seen ∧ ∀ i ∈ seen, i ≤ w.top
  bits : w.started = true → ∀ i ≤ w.top, w.top < i + w.bits.length → (bit w.bits i = true ↔ i ∈ seen)

variable {w : ReplayWindow} {seen : Finset ℕ} {i : ℕ}

theorem marks_init {size : ℕ} (h : 0 < size) : (init size).Marks ∅ := by
  refine ⟨⟨h, ?_⟩, fun _ => rfl, nofun, nofun⟩
  have : size ≤ 64 * ((size + 63) / 64) := by omega
  rwa [init, length_replicate]

theorem Marks.check_iff (h : w.Marks seen) (hs : w.started = true) :
    w.check i = true ↔ w.top < i ∨ (w.top < i + w.size ∧ i ∉ seen) := by
  have hsize := h.size
  unfold check
  by_cases hlt : w.top < i
  · simp [hlt]
  by_cases hin : w.top < i + w.size
  · have hbit := h.bits hs i (by omega) (by omega)
    have hsub : w.top - i < w.size := by omega
    simp [hs, hlt, hin, hsub, ← hbit]
  · have hsub : ¬ w.top - i < w.size := by omega
    simp [hs, hlt, hin, hsub]

@[simp] theorem accept_started : (w.accept i).started = true := by
  unfold accept
  split_ifs with hs
  · rfl
  · simpa using hs
  · simpa using hs

@[simp] theorem accept_size : (w.accept i).size = w.size := by
  unfold accept
  split_ifs <;> rfl

theorem accept_top : (w.accept i).top = if w.started = true then max w.top i else i := by
  unfold accept
  cases hs : w.started
  · rfl
  · by_cases hlt : w.top < i
    · simp [hlt, max_eq_right hlt.le]
    · simp [hlt, max_eq_left (not_lt.1 hlt)]

theorem marks_setBit {size top : ℕ} (hsize : 0 < size ∧ size ≤ bits.length)
    (hi : i ≤ top ∧ top < i + bits.length) (htop : top ∈ insert i seen) (hmax : ∀ j ∈ seen, j ≤ top)
    (hbits : ∀ j ≤ top, top < j + bits.length → j ≠ i → (bit bits j = true ↔ j ∈ seen)) :
    ReplayWindow.Marks ⟨setBit bits i true, size, top, true⟩ (insert i seen) := by
  refine ⟨?_, nofun, fun _ => ⟨htop, fun j hj => ?_⟩, fun _ j h1 h2 => ?_⟩
  · rwa [length_setBit]
  · rcases mem_insert.1 hj with rfl | hj
    · exact hi.1
    · exact hmax j hj
  simp only [length_setBit] at h1 h2
  rw [bit_setBit (by omega), mem_insert]
  by_cases he : j = i
  · simp [he]
  have hne : i % bits.length ≠ j % bits.length := by
    intro hm
    rcases lt_or_gt_of_ne he with hj | hj
    · exact mod_ne_of_lt hj (by omega) hm.symm
    · exact mod_ne_of_lt hj (by omega) hm
  rw [if_neg hne, hbits j h1 h2 he]
  simp [he]

theorem Marks.accept (h : w.Marks seen) (hc : w.check i = true) : (w.accept i).Marks (insert i seen) := by
  have hsize := h.size
  unfold ReplayWindow.accept
  split_ifs with hs hlt
  · rw [h.fresh hs]
    refine marks_setBit (by rwa [length_cleared]) ⟨le_rfl, ?_⟩ (mem_insert_self _ _) nofun ?_
    · rw [length_cleared]
      omega
    · intro j _ _ _
      simp [bit_cleared]
  · have hstarted : w.started = true := by simpa using hs
    have hmax := (h.top hstarted).2
    rw [hstarted]
    refine marks_setBit (by rwa [length_advanced]) ⟨le_rfl, ?_⟩ (mem_insert_self _ _) ?_ ?_
    · rw [length_advanced]
      omega
    · intro j hj
      exact (hmax j hj).trans hlt.le
    intro j h1 h2 hne
    rw [length_advanced] at h2
    rw [bit_advanced (by omega) hlt (by omega) h2]
    split_ifs with hnew
    · have : j ∉ seen := fun hm => absurd (hmax j hm) (by omega)
      simp [this]
    · exact h.bits hstarted j (by omega) (by omega)
  · have hstarted : w.started = true := by simpa using hs
    obtain ⟨htop, hmax⟩ := h.top hstarted
    have hin : w.top < i + w.size := by
      rcases (h.check_iff hstarted).1 hc with hc | hc
      · exact absurd hc hlt
      · exact hc.1
    rw [hstarted]
    refine marks_setBit hsize ⟨by omega, by omega⟩ (mem_insert_of_mem htop) hmax ?_
    intro j h1 h2 _
    exact h.bits hstarted j h1 h2

end ReplayWindow
end Fib
