import Mathlib.Tactic

/-! Byte strings. -/

namespace Fib
open List

abbrev Bytes := List UInt8

variable {o : ℕ} {d s : Bytes}

theorem prefix_drop_append (h : d <+: s.drop o) (t : Bytes) : d <+: (s ++ t).drop o := by
  rw [List.drop_append]
  exact h.trans (prefix_append _ _)

theorem prefix_drop_add (h : d <+: s.drop o) (k : ℕ) : d.drop k <+: s.drop (o + k) := by
  rw [← drop_drop]
  exact h.drop k

theorem prefix_drop_concat {d e s : Bytes} (h : d <+: s.drop o) (he : e <+: s.drop (o + d.length)) :
    d ++ e <+: s.drop o := by
  obtain ⟨t, ht⟩ := h
  rw [← drop_drop, ← ht, drop_left] at he
  rw [← ht]
  exact (prefix_append_right_inj d).2 he

theorem take_append_of_prefix_drop (h : d <+: s.drop o) : s.take o ++ d = s.take (o + d.length) := by
  rw [take_add, ← prefix_iff_eq_take.1 h]

def index (pat : Bytes) : Bytes → Option ℕ
  | [] => none
  | b :: s => if pat <+: b :: s then some 0 else (index pat s).map (· + 1)

/-- The search from an offset on. -/
def indexFrom (pat : Bytes) (k : ℕ) (s : Bytes) : Option ℕ := (index pat (s.drop k)).map (k + ·)

section Index
variable {pat s : Bytes} {i k : ℕ}

theorem index_eq_some : index pat s = some i → pat <+: s.drop i ∧ ∀ j < i, ¬ pat <+: s.drop j := by
  induction s generalizing i with
  | nil => simp [index]
  | cons b s ih =>
    intro h
    unfold index at h
    split_ifs at h with hp
    · cases h
      exact ⟨hp, fun j hj => absurd hj (Nat.not_lt_zero j)⟩
    obtain ⟨m, hm, rfl⟩ := Option.map_eq_some_iff.1 h
    obtain ⟨hfound, hbefore⟩ := ih hm
    refine ⟨hfound, fun j hj => ?_⟩
    cases j with
    | zero => exact hp
    | succ j => exact hbefore j (by omega)

section
variable (hp : pat ≠ [])
include hp

theorem index_le (h : index pat s = some i) : i + pat.length ≤ s.length := by
  have hpos : 0 < pat.length := length_pos_iff.2 hp
  have hfit : pat.length ≤ s.length - i := by simpa using (index_eq_some h).1.length_le
  omega

theorem index_eq_none : index pat s = none → ∀ j, ¬ pat <+: s.drop j := by
  induction s with
  | nil => simp [hp]
  | cons b s ih =>
    intro h j
    unfold index at h
    split_ifs at h with hpre
    cases j with
    | zero => exact hpre
    | succ j => exact ih (Option.map_eq_none_iff.1 h) j

theorem index_of_first (h : pat <+: s.drop i) (hb : ∀ j < i, ¬ pat <+: s.drop j) : index pat s = some i := by
  cases hi : index pat s with
  | none => exact absurd h (index_eq_none hp hi i)
  | some m =>
    obtain ⟨hm, hbm⟩ := index_eq_some hi
    rcases lt_trichotomy m i with hlt | rfl | hlt
    · exact absurd hm (hb m hlt)
    · rfl
    · exact absurd h (hbm i hlt)

theorem index_append (h : index pat s = some i) (t : Bytes) : index pat (s ++ t) = some i := by
  obtain ⟨hi, hb⟩ := index_eq_some h
  refine index_of_first hp (prefix_drop_append hi t) fun j hj hpre => hb j hj ?_
  have hfit := index_le hp h
  rw [drop_append_of_le_length (by omega)] at hpre
  exact prefix_of_prefix_length_le hpre (prefix_append _ _) (by simp; omega)

theorem index_take (h : index pat s = some i) : index pat (s.take (i + pat.length)) = some i := by
  obtain ⟨hi, hb⟩ := index_eq_some h
  refine index_of_first hp ?_ fun j hj hpre => hb j hj (hpre.trans (( take_prefix _ _).drop j))
  rw [drop_take, Nat.add_sub_cancel_left, ← prefix_iff_eq_take.1 hi]

end

/-- Nothing is found before `k`, however the string goes on. -/
def Passed (pat : Bytes) (k : ℕ) (s : Bytes) : Prop := ∀ t, ∀ j < k, ¬ pat <+: (s ++ t).drop j

theorem Passed.zero : Passed pat 0 s := fun _ j hj => absurd hj (Nat.not_lt_zero j)

theorem Passed.append (h : Passed pat k s) (t : Bytes) : Passed pat k (s ++ t) := by
  intro u j hj
  rw [append_assoc]
  exact h _ j hj

theorem Passed.indexFrom_eq (hp : pat ≠ []) (h : Passed pat k s) : indexFrom pat k s = index pat s := by
  have hbefore : ∀ j < k, ¬ pat <+: s.drop j := by simpa using h []
  unfold indexFrom
  cases hi : index pat (s.drop k) with
  | some m =>
    obtain ⟨hm, hb⟩ := index_eq_some hi
    rw [drop_drop] at hm
    refine (index_of_first hp hm fun j hj => ?_).symm
    rcases lt_or_ge j k with hjk | hkj
    · exact hbefore j hjk
    · have := hb (j - k) (by omega)
      rwa [drop_drop, Nat.add_sub_cancel' hkj] at this
  | none =>
    have hnone := index_eq_none hp hi
    cases hs : index pat s with
    | none => rfl
    | some m =>
      obtain ⟨hm, -⟩ := index_eq_some hs
      rcases lt_or_ge m k with hmk | hkm
      · exact absurd hm (hbefore m hmk)
      · have := hnone (m - k)
        rw [drop_drop, Nat.add_sub_cancel' hkm] at this
        exact absurd hm this

/-- Having searched all of a string, only what could still reach past its end is left to search. -/
theorem Passed.of_index_none (hp : pat ≠ []) (h : index pat s = none) : Passed pat (s.length - (pat.length - 1)) s := by
  intro t j hj hpre
  have hpos : 0 < pat.length := length_pos_iff.2 hp
  rw [drop_append_of_le_length (by omega)] at hpre
  refine index_eq_none hp h j ?_
  exact prefix_of_prefix_length_le hpre (prefix_append _ _) (by simp; omega)

end Index
end Fib
