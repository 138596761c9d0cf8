import Mathlib.Tactic

/-! Rings of slots whose number is a power of two, the slot of an index found by masking it.
`view` is what a ring holds from its head on, and each operation is one on that list. -/

namespace Fib
open List

/-- `n` slots in use from `head` on. -/
structure Ring (α : Type) where
  slots : List α := []
  head : ℕ := 0
  n : ℕ := 0
deriving DecidableEq

namespace Ring
variable {α : Type}

def at_ (r : Ring α) (i : ℕ) : ℕ := (r.head + i) &&& (r.slots.length - 1)

def set (r : Ring α) (i : ℕ) (a : α) : Ring α := { r with slots := r.slots.set (r.at_ i) a }

def dropFirst (r : Ring α) : Ring α :=
  { r with head := (r.head + 1) &&& (r.slots.length - 1), n := r.n - 1 }

/-- There are no slots, or a power of two of them, and those in use are among them. -/
structure Wf (r : Ring α) : Prop where
  size : r.slots.length = 0 ∨ ∃ k, r.slots.length = 2 ^ k
  fits : r.n ≤ r.slots.length

theorem ext_view {l m : List α} (hlen : l.length = m.length) (h : ∀ i < l.length, l[i]? = m[i]?) : l = m := by
  refine ext_getElem? fun i => ?_
  by_cases hi : i < l.length
  · exact h i hi
  · rw [getElem?_eq_none (by omega), getElem?_eq_none (by omega)]

variable {r : Ring α}

theorem Wf.at_eq (h : r.Wf) (i : ℕ) : r.at_ i = (r.head + i) % r.slots.length ∨ r.slots.length = 0 := by
  rcases h.size with h0 | ⟨k, hk⟩
  · exact Or.inr h0
  · left
    rw [at_, hk, Nat.and_two_pow_sub_one_eq_mod]

theorem Wf.at_lt (h : r.Wf) {i : ℕ} (hs : 0 < r.slots.length) : r.at_ i < r.slots.length := by
  rcases h.at_eq i with he | h0
  · rw [he]
    exact Nat.mod_lt _ hs
  · omega

theorem Wf.at_inj (h : r.Wf) {i j : ℕ} (hi : i < r.slots.length) (hj : j < r.slots.length)
    (he : r.at_ i = r.at_ j) : i = j := by
  rcases h.at_eq i with h1 | h0
  · rcases h.at_eq j with h2 | h0
    · rw [h1, h2] at he
      have hm : i ≡ j [MOD r.slots.length] := Nat.ModEq.add_left_cancel' r.head he
      exact hm.eq_of_lt_of_lt hi hj
    · omega
  · omega

theorem Wf.set (h : r.Wf) (i : ℕ) (a : α) : (r.set i a).Wf :=
  ⟨by simpa [Ring.set] using h.size, by simpa [Ring.set] using h.fits⟩

variable [Inhabited α]

def get (r : Ring α) (i : ℕ) : α := r.slots.getD (r.at_ i) default

/-- Twice as many slots, with those in use at their start. -/
def grow (r : Ring α) : Ring α :=
  { slots := (range r.n).map r.get ++ replicate (max 16 (2 * r.slots.length) - r.n) default
    head := 0
    n := r.n }

def append (r : Ring α) (a : α) : Ring α :=
  let r := if r.n = r.slots.length then r.grow else r
  { r with slots := r.slots.set (r.at_ r.n) a, n := r.n + 1 }

def view (r : Ring α) : List α := (range r.n).map r.get

@[simp] theorem length_view (r : Ring α) : r.view.length = r.n := by simp [view]

theorem view_getElem? (r : Ring α) (i : ℕ) : r.view[i]? = if i < r.n then some (r.get i) else none := by
  unfold view
  split_ifs with h
  · simp [h]
  · simp [h]

theorem Wf.view_set (h : r.Wf) {i : ℕ} (hi : i < r.n) (a : α) : (r.set i a).view = r.view.set i a := by
  have hf := h.fits
  refine ext_view (by simp [Ring.set]) fun j hj => ?_
  have hj' : j < r.n := by simpa [Ring.set] using hj
  have hat : (r.set i a).at_ j = r.at_ j := by simp [Ring.set, at_]
  have hgi := h.at_lt (i := i) (by omega)
  have hgj := h.at_lt (i := j) (by omega)
  rw [view_getElem?, if_pos (by simpa [Ring.set] using hj'), getElem?_set, length_view, if_pos hi,
    view_getElem?, if_pos hj', Ring.get, hat]
  by_cases hij : i = j
  · subst hij
    simp [Ring.set, hgi]
  · have hne : r.at_ i ≠ r.at_ j := fun he => hij (h.at_inj (by omega) (by omega) he)
    simp [Ring.set, Ring.get, hij, hne]

theorem Wf.grow (h : r.Wf) : r.grow.Wf ∧ r.grow.view = r.view ∧ r.grow.n < r.grow.slots.length := by
  have hf := h.fits
  have hlen : r.grow.slots.length = max 16 (2 * r.slots.length) := by
    simp [Ring.grow]; omega
  have hsize : ∃ k, r.grow.slots.length = 2 ^ k := by
    rw [hlen]
    rcases h.size with h0 | ⟨k, hk⟩
    · exact ⟨4, by omega⟩
    by_cases hk4 : k < 3
    · refine ⟨4, ?_⟩
      have : 2 ^ k < 2 ^ 3 := Nat.pow_lt_pow_right (by omega) hk4
      omega
    · refine ⟨k + 1, ?_⟩
      have : 2 ^ 3 ≤ 2 ^ k := Nat.pow_le_pow_right (by omega) (by omega)
      rw [hk, Nat.pow_succ]
      omega
  have hw : r.grow.Wf := ⟨Or.inr hsize, by rw [hlen]; simp only [Ring.grow]; omega⟩
  refine ⟨hw, ?_, by rw [hlen]; simp only [Ring.grow]; omega⟩
  refine ext_view (by simp [Ring.grow]) fun j hj => ?_
  have hj' : j < r.n := by simpa [Ring.grow] using hj
  have hat : r.grow.at_ j = j := by
    rcases hw.at_eq j with he | h0
    · rw [he, Nat.mod_eq_of_lt]
      · simp [Ring.grow]
      · rw [hlen]; simp only [Ring.grow]; omega
    · omega
  rw [view_getElem?, if_pos (by simpa [Ring.grow] using hj'), view_getElem?, if_pos hj', Ring.get, hat]
  simp [Ring.grow, getElem?_append, hj']

theorem Wf.append (h : r.Wf) (a : α) : (r.append a).Wf ∧ (r.append a).view = r.view ++ [a] := by
  -- room for one more first
  obtain ⟨s, hs, hsw, hsv, hsn⟩ : ∃ s, (if r.n = r.slots.length then r.grow else r) = s ∧ s.Wf ∧
      s.view = r.view ∧ s.n < s.slots.length := by
    have hf := h.fits
    split_ifs with hfull
    · exact ⟨_, rfl, h.grow⟩
    · exact ⟨_, rfl, h, rfl, by omega⟩
  have happ : r.append a = { s with slots := s.slots.set (s.at_ s.n) a, n := s.n + 1 } := by
    simp only [Ring.append, hs]
  rw [happ, ← hsv]
  refine ⟨⟨by simpa using hsw.size, by simpa using hsn⟩, ext_view (by simp) fun j hj => ?_⟩
  have hj' : j < s.n + 1 := by simpa using hj
  have hgn := hsw.at_lt (i := s.n) (by omega)
  rw [view_getElem?, if_pos hj']
  have hat : ({ s with slots := s.slots.set (s.at_ s.n) a, n := s.n + 1 } : Ring α).at_ j = s.at_ j := by
    simp [at_]
  rw [Ring.get, hat]
  by_cases hjn : j = s.n
  · subst hjn
    simp [hgn]
  · have hlt : j < s.n := by omega
    have hne : s.at_ s.n ≠ s.at_ j := fun he => hjn (hsw.at_inj hsn (by omega) he).symm
    rw [getElem?_append_left (by simpa using hlt), view_getElem?, if_pos hlt]
    simp [Ring.get, hne]

theorem Wf.dropFirst (h : r.Wf) (hn : 0 < r.n) : r.dropFirst.Wf ∧ r.dropFirst.view = r.view.tail := by
  have hf := h.fits
  have hw : r.dropFirst.Wf := ⟨h.size, by simp only [Ring.dropFirst]; omega⟩
  refine ⟨hw, ext_view (by simp [Ring.dropFirst]) fun j hj => ?_⟩
  have hj' : j < r.n - 1 := by simpa [Ring.dropFirst] using hj
  have hat : r.dropFirst.at_ j = r.at_ (j + 1) := by
    obtain ⟨k, hk⟩ := h.size.resolve_left (by omega)
    simp only [at_, Ring.dropFirst, hk, Nat.and_two_pow_sub_one_eq_mod, Nat.mod_add_mod]
    congr 1
    omega
  rw [view_getElem?, if_pos (by simpa [Ring.dropFirst] using hj'), getElem?_tail, view_getElem?,
    if_pos (by omega), Ring.get, hat]
  rfl

end Ring
end Fib
