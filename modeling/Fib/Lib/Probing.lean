import Mathlib.Tactic

/-! Open addressing with linear probing over `n` places, and deletion that moves later items back. A place is a number
below `n`, and empty if it holds zero; an item is looked for from its home on. -/

namespace Fib.Probing
open Nat Function Finset

/-- How far `b` is ahead of `a`, around `n` places. -/
def ahead (n a b : ℕ) : ℕ := (b + n - a) % n

section Ahead
variable {n a b : ℕ}

theorem ahead_eq (ha : a < n) (hb : b < n) : ahead n a b = if a ≤ b then b - a else b + n - a := by
  unfold ahead
  split_ifs with h
  · rw [show b + n - a = b - a + n by omega, add_mod_right, mod_eq_of_lt (by omega)]
  · exact mod_eq_of_lt (by omega)

theorem ahead_lt (hn : 0 < n) : ahead n a b < n := mod_lt _ hn

section
variable (ha : a < n)
include ha

theorem next_eq : (a + 1) % n = if a + 1 = n then 0 else a + 1 := by
  split_ifs with h
  · rw [h, mod_self]
  · exact mod_eq_of_lt (by omega)

theorem next_lt : (a + 1) % n < n := mod_lt _ (by omega)

theorem ahead_self : ahead n a a = 0 := by
  rw [ahead_eq ha ha, if_pos le_rfl, Nat.sub_self]

theorem ahead_eq_zero (hb : b < n) : ahead n a b = 0 ↔ a = b := by
  rw [ahead_eq ha hb]
  split_ifs <;> omega

theorem ahead_next (hb : b < n) (hne : a ≠ b) : ahead n ((a + 1) % n) b + 1 = ahead n a b := by
  rw [ahead_eq (next_lt ha) hb, ahead_eq ha hb, next_eq ha]
  split_ifs <;> omega

theorem ahead_step : ahead n a ((a + 1) % n) ≤ 1 := by
  rw [ahead_eq ha (next_lt ha), next_eq ha]
  split_ifs <;> omega

end

theorem exists_first {P : ℕ → Prop} (h : ∃ e < n, P e) : ∃ e < n, P e ∧ ∀ q < n, ahead n a q < ahead n a e → ¬ P q := by
  classical
  obtain ⟨e, he, hP⟩ := h
  obtain ⟨f, hf, hmin⟩ := exists_min_image ((range n).filter P) (ahead n a) ⟨e, mem_filter.2 ⟨mem_range.2 he, hP⟩⟩
  obtain ⟨hfn, hPf⟩ := mem_filter.1 hf
  refine ⟨f, mem_range.1 hfn, hPf, ?_⟩
  intro q hq hlt hPq
  exact absurd (hmin q (mem_filter.2 ⟨mem_range.2 hq, hPq⟩)) (by omega)

end Ahead

/-! ### Probing -/

/-- The first place from `i` on to stop at, of `fuel` places; none also if a place cannot be looked at. -/
def probe (n : ℕ) (stop : ℕ → Option Bool) : ℕ → ℕ → Option ℕ
  | 0, _ => none
  | fuel + 1, i =>
    match stop i with
    | none => none
    | some true => some i
    | some false => probe n stop fuel ((i + 1) % n)

theorem probe_eq {n : ℕ} {stop : ℕ → Option Bool} {fuel i e : ℕ} (hi : i < n) (he : e < n)
    (hstop : stop e = some true) (hgo : ∀ q < n, ahead n i q < ahead n i e → stop q = some false)
    (hfuel : ahead n i e < fuel) : probe n stop fuel i = some e := by
  induction fuel generalizing i with
  | zero => exact absurd hfuel (not_lt_zero _)
  | succ fuel ih =>
    rw [probe]
    by_cases hie : i = e
    · subst hie
      rw [hstop]
    have hnext := ahead_next hi he hie
    have hpos : ahead n i i < ahead n i e := by
      rw [ahead_self hi]
      omega
    rw [hgo i hi hpos]
    apply ih (next_lt hi)
    · intro q hq hlt
      by_cases hiq : i = q
      · subst hiq
        exact hgo i hi hpos
      · have hq' := ahead_next hi hq hiq
        exact hgo q hq (by omega)
    · omega

/-! ### Tables -/

variable {σ : Type*} [Zero σ]

/-- `slots` has each of `items` once, with no empty place between an item's home and its place. -/
structure Table (n : ℕ) (home : σ → ℕ) (items : Set σ) (slots : ℕ → σ) : Prop where
  home_lt : ∀ a ∈ items, home a < n
  ne_zero : ∀ a ∈ items, a ≠ 0
  held : ∀ a ∈ items, ∃ i < n, slots i = a
  mem : ∀ i < n, slots i ≠ 0 → slots i ∈ items
  inj : ∀ i < n, ∀ j < n, slots i ≠ 0 → slots i = slots j → i = j
  chained : ∀ i < n, slots i ≠ 0 → ∀ q < n,
    ahead n (home (slots i)) q < ahead n (home (slots i)) i → slots q ≠ 0

namespace Table
variable {n : ℕ} {home : σ → ℕ} {items : Set σ} {slots : ℕ → σ}

theorem empty (n : ℕ) (home : σ → ℕ) : Table n home ∅ (fun _ => (0 : σ)) where
  home_lt _ ha := ha.elim
  ne_zero _ ha := ha.elim
  held _ ha := ha.elim
  mem _ _ h := absurd rfl h
  inj _ _ _ _ h _ := absurd rfl h
  chained _ _ h := absurd rfl h

section
variable (h : Table n home items slots)
include h

theorem congr_home {home' : σ → ℕ} (heq : ∀ a ∈ items, home' a = home a) : Table n home' items slots where
  home_lt a ha := by
    rw [heq a ha]
    exact h.home_lt a ha
  ne_zero := h.ne_zero
  held := h.held
  mem := h.mem
  inj := h.inj
  chained i hi hne q hq := by
    rw [heq _ (h.mem i hi hne)]
    exact h.chained i hi hne q hq

theorem exists_empty {s : Finset σ} (hs : ∀ a ∈ items, a ∈ s) (hcard : s.card < n) : ∃ e < n, slots e = 0 := by
  by_contra hfull
  push Not at hfull
  have hle : (range n).card ≤ s.card := by
    apply card_le_card_of_injOn slots
    · intro i hi
      have hlt := mem_range.1 (mem_coe.1 hi)
      exact hs _ (h.mem i hlt (hfull i hlt))
    · intro i hi j hj heq
      have hlt := mem_range.1 (mem_coe.1 hi)
      exact h.inj i hlt j (mem_range.1 (mem_coe.1 hj)) (hfull i hlt) heq
  rw [card_range] at hle
  omega

theorem probe_item (stop : ℕ → Option Bool) {a : σ} (ha : a ∈ items)
    (hit : ∀ i < n, slots i = a → stop i = some true) (hgo : ∀ i < n, slots i ≠ 0 → slots i ≠ a → stop i = some false) :
    ∃ i < n, slots i = a ∧ probe n stop n (home a) = some i := by
  obtain ⟨i, hi, hia⟩ := h.held a ha
  refine ⟨i, hi, hia, ?_⟩
  apply probe_eq (h.home_lt a ha) hi (hit i hi hia)
  · intro q hq hlt
    have hne := h.ne_zero a ha
    have hq0 : slots q ≠ 0 := by
      apply h.chained i hi (hia ▸ hne) q hq
      rw [hia]
      exact hlt
    apply hgo q hq hq0
    intro hqa
    rw [h.inj q hq i hi hq0 (hqa.trans hia.symm)] at hlt
    exact lt_irrefl _ hlt
  · exact ahead_lt (by omega)

end

theorem probe_empty (stop : ℕ → Option Bool) {k : ℕ} (hk : k < n) (hempty : ∃ e < n, slots e = 0)
    (hit : ∀ i < n, slots i = 0 → stop i = some true) (hgo : ∀ i < n, slots i ≠ 0 → stop i = some false) :
    ∃ i < n, slots i = 0 ∧ probe n stop n k = some i ∧ ∀ q < n, ahead n k q < ahead n k i → slots q ≠ 0 := by
  obtain ⟨i, hi, hi0, hfirst⟩ := exists_first hempty
  refine ⟨i, hi, hi0, ?_, hfirst⟩
  exact probe_eq hk hi (hit i hi hi0) (fun q hq hlt => hgo q hq (hfirst q hq hlt)) (ahead_lt (by omega))

/-- An item put in a place, for what was there, with no empty place between its home and that. -/
theorem put (h : Table n home items slots) {a : σ} {i : ℕ} (hi : i < n) (ha : a ≠ 0) (hnew : a ∉ items)
    (hhome : home a < n) (hpath : ∀ q < n, ahead n (home a) q < ahead n (home a) i → slots q ≠ 0) :
    Table n home (insert a (items \ {slots i})) (update slots i a) where
  home_lt b hb := by
    rcases hb with rfl | hb
    · exact hhome
    · exact h.home_lt b hb.1
  ne_zero b hb := by
    rcases hb with rfl | hb
    · exact ha
    · exact h.ne_zero b hb.1
  held b hb := by
    rcases hb with rfl | hb
    · exact ⟨i, hi, update_self ..⟩
    obtain ⟨j, hj, hjb⟩ := h.held b hb.1
    refine ⟨j, hj, ?_⟩
    rw [update_of_ne, hjb]
    rintro rfl
    exact hb.2 hjb.symm
  mem j hj hne := by
    by_cases hji : j = i
    · subst hji
      rw [update_self]
      exact Or.inl rfl
    · rw [update_of_ne hji] at hne ⊢
      refine Or.inr ⟨h.mem j hj hne, ?_⟩
      intro hjs
      exact hji (h.inj j hj i hi hne hjs)
  inj j hj k hk hne heq := by
    by_cases hji : j = i <;> by_cases hki : k = i
    · rw [hji, hki]
    · subst hji
      rw [update_self, update_of_ne hki] at heq
      rw [update_self] at hne
      exact absurd (heq ▸ h.mem k hk (heq ▸ hne)) hnew
    · subst hki
      rw [update_self, update_of_ne hji] at heq
      rw [update_of_ne hji] at hne
      exact absurd (heq ▸ h.mem j hj hne) hnew
    · rw [update_of_ne hji] at hne heq
      rw [update_of_ne hki] at heq
      exact h.inj j hj k hk hne heq
  chained j hj hne q hq hlt := by
    by_cases hqi : q = i
    · subst hqi
      rwa [update_self]
    rw [update_of_ne hqi]
    by_cases hji : j = i
    · subst hji
      rw [update_self] at hlt
      exact hpath q hq hlt
    · rw [update_of_ne hji] at hne hlt
      exact h.chained j hj hne q hq hlt

end Table

/-! ### Taking an item out -/

/-- The places after a hole move back into it, up to the next empty one, unless that would put an item before its
home. -/
def moveBack [DecidableEq σ] (n : ℕ) (home : σ → Option ℕ) : ℕ → ℕ → ℕ → (ℕ → σ) → Option (ℕ → σ)
  | 0, _, _, _ => none
  | fuel + 1, hole, j, slots =>
    if slots j = 0 then some (update slots hole 0)
    else
      match home (slots j) with
      | none => none
      | some k =>
        if ahead n hole j ≤ ahead n k j then
          moveBack n home fuel j ((j + 1) % n) (update slots hole (slots j))
        else moveBack n home fuel hole ((j + 1) % n) slots

/-- On the way: off the hole the table is right, but for items at `j` and beyond that are reached past the hole. -/
structure Moving (n : ℕ) (home : σ → ℕ) (items : Set σ) (hole j : ℕ) (slots : ℕ → σ) : Prop where
  hole_lt : hole < n
  home_lt : ∀ a ∈ items, home a < n
  ne_zero : ∀ a ∈ items, a ≠ 0
  held : ∀ a ∈ items, ∃ i < n, i ≠ hole ∧ slots i = a
  mem : ∀ i < n, i ≠ hole → slots i ≠ 0 → slots i ∈ items
  inj : ∀ i < n, ∀ k < n, i ≠ hole → k ≠ hole → slots i ≠ 0 → slots i = slots k → i = k
  chained : ∀ i < n, i ≠ hole → slots i ≠ 0 → ∀ q < n, q ≠ hole →
    ahead n (home (slots i)) q < ahead n (home (slots i)) i → slots q ≠ 0
  past : ∀ i < n, i ≠ hole → slots i ≠ 0 →
    ahead n (home (slots i)) hole < ahead n (home (slots i)) i → ahead n hole j ≤ ahead n hole i

namespace Moving
variable {n : ℕ} {home : σ → ℕ} {items : Set σ} {slots : ℕ → σ} {hole j : ℕ}

theorem start (h : Table n home items slots) {a : σ} (hn : hole < n) (hhole : slots hole = a) :
    Moving n home (items \ {a}) hole ((hole + 1) % n) slots where
  hole_lt := hn
  home_lt b hb := h.home_lt b hb.1
  ne_zero b hb := h.ne_zero b hb.1
  held b hb := by
    obtain ⟨i, hi, hib⟩ := h.held b hb.1
    refine ⟨i, hi, ?_, hib⟩
    rintro rfl
    exact hb.2 (hib.symm.trans hhole)
  mem i hi hne hi0 := by
    refine ⟨h.mem i hi hi0, ?_⟩
    intro hia
    exact hne (h.inj i hi hole hn hi0 (hia.trans hhole.symm))
  inj i hi k hk _ _ hi0 heq := h.inj i hi k hk hi0 heq
  chained i hi _ hi0 q hq _ hlt := h.chained i hi hi0 q hq hlt
  past i hi hne _ _ := by
    have hstep : ahead n hole i ≠ 0 := fun h0 => hne ((ahead_eq_zero hn hi).1 h0).symm
    have hone := ahead_step hn
    omega

theorem ne_hole {i : ℕ} (h : update slots hole 0 i ≠ 0) : i ≠ hole := by
  rintro rfl
  rw [update_self] at h
  exact h rfl

variable (h : Moving n home items hole j slots) (hj : j < n) (hne : j ≠ hole)
include h hj hne

/-- An empty place ends it: an item reached past the hole would be reached past that place too. -/
theorem finish (hj0 : slots j = 0) : Table n home items (update slots hole 0) where
  home_lt := h.home_lt
  ne_zero := h.ne_zero
  held a ha := by
    obtain ⟨i, hi, hih, hia⟩ := h.held a ha
    exact ⟨i, hi, by rw [update_of_ne hih, hia]⟩
  mem i hi hi0 := by
    have hih := ne_hole hi0
    rw [update_of_ne hih] at hi0 ⊢
    exact h.mem i hi hih hi0
  inj i hi k hk hi0 heq := by
    have hih := ne_hole hi0
    rw [update_of_ne hih] at hi0 heq
    by_cases hkh : k = hole
    · subst hkh
      rw [update_self] at heq
      exact absurd heq hi0
    rw [update_of_ne hkh] at heq
    exact h.inj i hi k hk hih hkh hi0 heq
  chained i hi hi0 q hq hlt := by
    have hih := ne_hole hi0
    rw [update_of_ne hih] at hi0 hlt
    by_cases hqh : q = hole
    · subst hqh
      have hpast := h.past i hi hih hi0 hlt
      have hhome := h.home_lt _ (h.mem i hi hih hi0)
      by_cases hij : i = j
      · exact absurd (hij ▸ hj0) hi0
      refine absurd hj0 (h.chained i hi hih hi0 j hj hne ?_)
      rw [ahead_eq hq hj, ahead_eq hq hi] at hpast
      rw [ahead_eq hhome hq, ahead_eq hhome hi] at hlt
      rw [ahead_eq hhome hj, ahead_eq hhome hi]
      split_ifs at hpast hlt ⊢ <;> omega
    · rw [update_of_ne hqh]
      exact h.chained i hi hih hi0 q hq hqh hlt

theorem move (hj0 : slots j ≠ 0) (hle : ahead n hole j ≤ ahead n (home (slots j)) j) :
    Moving n home items j ((j + 1) % n) (update slots hole (slots j)) where
  hole_lt := hj
  home_lt := h.home_lt
  ne_zero := h.ne_zero
  held a ha := by
    obtain ⟨i, hi, hih, hia⟩ := h.held a ha
    by_cases hij : i = j
    · subst hij
      exact ⟨hole, h.hole_lt, hne.symm, by rw [update_self, hia]⟩
    · exact ⟨i, hi, hij, by rw [update_of_ne hih, hia]⟩
  mem i hi hij hi0 := by
    by_cases hih : i = hole
    · subst hih
      rw [update_self]
      exact h.mem j hj hne hj0
    · rw [update_of_ne hih] at hi0 ⊢
      exact h.mem i hi hih hi0
  inj i hi k hk hij hkj hi0 heq := by
    by_cases hih : i = hole <;> by_cases hkh : k = hole
    · rw [hih, hkh]
    · subst hih
      rw [update_self, update_of_ne hkh] at heq
      exact absurd (h.inj j hj k hk hne hkh hj0 heq).symm hkj
    · subst hkh
      rw [update_self, update_of_ne hih] at heq
      rw [update_of_ne hih] at hi0
      exact absurd (h.inj i hi j hj hih hne hi0 heq) hij
    · rw [update_of_ne hih] at hi0 heq
      rw [update_of_ne hkh] at heq
      exact h.inj i hi k hk hih hkh hi0 heq
  chained i hi hij hi0 q hq hqj hlt := by
    by_cases hqh : q = hole
    · subst hqh
      rwa [update_self]
    rw [update_of_ne hqh]
    by_cases hih : i = hole
    · -- the item that moved: what is before the hole was before `j`
      subst hih
      rw [update_self] at hlt
      apply h.chained j hj hne hj0 q hq hqh
      have hhome := h.home_lt _ (h.mem j hj hne hj0)
      rw [ahead_eq hhome hq, ahead_eq hhome hi] at hlt
      rw [ahead_eq hi hj, ahead_eq hhome hj] at hle
      rw [ahead_eq hhome hq, ahead_eq hhome hj]
      split_ifs at hlt hle ⊢ <;> omega
    · rw [update_of_ne hih] at hi0 hlt
      exact h.chained i hi hih hi0 q hq hqh hlt
  past i hi hij _ _ := by
    have hstep : ahead n j i ≠ 0 := fun h0 => hij ((ahead_eq_zero hj hi).1 h0).symm
    have hone := ahead_step hj
    omega

theorem stay (hj0 : slots j ≠ 0)
    (hlt : ahead n (home (slots j)) j < ahead n hole j) : Moving n home items hole ((j + 1) % n) slots := by
  refine { h with past := fun i hi hih hi0 hlt' => ?_ }
  have hpast := h.past i hi hih hi0 hlt'
  have hhole := h.hole_lt
  by_cases hij : i = j
  · subst hij
    have hhome := h.home_lt _ (h.mem i hi hih hi0)
    rw [ahead_eq hhome hi, ahead_eq hhole hi] at hlt
    rw [ahead_eq hhome hhole, ahead_eq hhome hi] at hlt'
    exfalso
    split_ifs at hlt hlt' <;> omega
  · rw [ahead_eq hhole hj, ahead_eq hhole hi] at hpast
    rw [ahead_eq hhole (next_lt hj), ahead_eq hhole hi, next_eq hj]
    split_ifs at hpast ⊢ <;> omega

theorem moveBack_eq [DecidableEq σ]
    {homeOf : σ → Option ℕ} (hhome : ∀ a ∈ items, homeOf a = some (home a)) {e fuel : ℕ} (he : e < n)
    (he0 : slots e = 0) (heh : e ≠ hole) (hle : ahead n hole j ≤ ahead n hole e) (hfuel : ahead n j e < fuel) :
    ∃ slots', moveBack n homeOf fuel hole j slots = some slots' ∧ Table n home items slots' := by
  induction fuel generalizing hole j slots with
  | zero => exact absurd hfuel (not_lt_zero _)
  | succ fuel ih =>
    have hhole := h.hole_lt
    rw [moveBack]
    by_cases hj0 : slots j = 0
    · rw [if_pos hj0]
      exact ⟨_, rfl, h.finish hj hne hj0⟩
    rw [if_neg hj0, hhome _ (h.mem j hj hne hj0)]
    have hje : j ≠ e := fun hje => hj0 (hje ▸ he0)
    have hnext := ahead_next hj he hje
    -- The step on is still not past `e`, so it is not the hole again.
    have hle' : ahead n hole ((j + 1) % n) ≤ ahead n hole e ∧ (j + 1) % n ≠ hole := by
      rw [ahead_eq hhole hj, ahead_eq hhole he] at hle
      rw [ahead_eq hhole (next_lt hj), ahead_eq hhole he, next_eq hj]
      split_ifs at hle ⊢ <;> omega
    have hone : (j + 1) % n ≠ j ∧ ahead n j ((j + 1) % n) ≤ ahead n j e := by
      have hpos : ahead n j e ≠ 0 := fun h0 => hje ((ahead_eq_zero hj he).1 h0)
      rw [ahead_eq hj he] at hpos ⊢
      rw [ahead_eq hj (next_lt hj), next_eq hj]
      split_ifs at hpos ⊢ <;> omega
    by_cases hback : ahead n hole j ≤ ahead n (home (slots j)) j
    · simp only [if_pos hback]
      apply ih (h.move hj hne hj0 hback) (next_lt hj) hone.1 _ (Ne.symm hje) hone.2
      · omega
      · rw [update_of_ne heh, he0]
    · simp only [if_neg hback]
      exact ih (h.stay hj hne hj0 (by omega)) (next_lt hj) hle'.2 he0 heh hle'.1 (by omega)

end Moving

theorem Table.moveBack [DecidableEq σ] {n : ℕ} {home : σ → ℕ} {items : Set σ} {slots : ℕ → σ}
    (h : Table n home items slots) {a : σ} (ha : a ∈ items) {hole : ℕ} (hhole : hole < n) (hslot : slots hole = a)
    (hempty : ∃ e < n, slots e = 0) (homeOf : σ → Option ℕ) (hhome : ∀ b ∈ items, homeOf b = some (home b)) :
    ∃ slots', Probing.moveBack n homeOf n hole ((hole + 1) % n) slots = some slots' ∧
      Table n home (items \ {a}) slots' := by
  obtain ⟨e, he, he0⟩ := hempty
  have heh : e ≠ hole := by
    rintro rfl
    exact h.ne_zero a ha (hslot.symm.trans he0)
  have hnext := ahead_next hhole he heh.symm
  have hlt := ahead_lt (n := n) (a := hole) (b := e) (by omega)
  apply (Moving.start h hhole hslot).moveBack_eq (next_lt hhole) _ _ he he0 heh _ (by omega)
  · rw [next_eq hhole]
    split_ifs <;> omega
  · intro b hb
    exact hhome b hb.1
  · have hone := ahead_step hhole
    omega

end Fib.Probing
