import Mathlib.Tactic

/-! Values by sequence numbers of `w` bits, in a ring of slots that doubles to cover the numbers in use. The numbers
wrap; `Holds` says what a ring holds in terms of the numbers that do not, all of them within one turn of the ring. -/

namespace Fib
open List Function Option Nat

structure SeqRing (α : Type) where
  slots : List (Option (ℕ × α)) := []
deriving DecidableEq

namespace SeqRing
variable {α : Type}
section
variable (r : SeqRing α)

def get (seq : ℕ) : Option α :=
  match r.slots[seq % r.slots.length]? with
  | some (some (s, v)) => if s = seq then some v else none
  | _ => none

/-- The size doubled until it covers `need`; the fuel is more than the doublings there can be. -/
def growTo (need : ℕ) : ℕ → ℕ → ℕ
  | 0, size => size
  | fuel + 1, size => if size < need then growTo need fuel (2 * size) else size

/-- Puts a used slot of the old array in the new one. -/
def refill (size : ℕ) (slots : List (Option (ℕ × α))) : Option (ℕ × α) → List (Option (ℕ × α))
  | some (s, v) => slots.set (s % size) (some (s, v))
  | none => slots

def rehash (size : ℕ) (old : List (Option (ℕ × α))) : List (Option (ℕ × α)) :=
  old.foldl (refill size) (replicate size none)

/-- The slots once they cover the numbers from `base` to `seq`. -/
def cover (w : ℕ) (r : SeqRing α) (seq base : ℕ) : List (Option (ℕ × α)) :=
  let need := (seq + 2 ^ w - base) % 2 ^ w + 1
  if r.slots.length < need then rehash (growTo need w (max r.slots.length 16)) r.slots else r.slots

def put (w : ℕ) (r : SeqRing α) (seq : ℕ) (v : α) (base : ℕ) : SeqRing α :=
  let slots := r.cover w seq base
  ⟨slots.set (seq % slots.length) (some (seq, v))⟩

def modify (seq : ℕ) (g : α → Option α) : SeqRing α :=
  match r.get seq with
  | some v => ⟨r.slots.set (seq % r.slots.length) ((g v).map fun v => (seq, v))⟩
  | none => r

def del (seq : ℕ) : SeqRing α := r.modify seq fun _ => none

def reset : SeqRing α := ⟨replicate r.slots.length none⟩

end

/-- A slot holds one number, so that to delete it takes away no other. -/
theorem get_del_ne {r : SeqRing α} {seq seq' : ℕ} (hne : seq ≠ seq') : (r.del seq).get seq' = r.get seq' := by
  cases hv : r.get seq with
  | none => rw [del, modify, hv]
  | some v =>
    rw [del, modify, hv]
    by_cases hm : seq % r.slots.length = seq' % r.slots.length
    · have hslot : r.slots[seq % r.slots.length]? = some (some (seq, v)) := by
        unfold get at hv
        split at hv
        · rename_i s u hslot
          split_ifs at hv with hs
          rw [hslot, hs, Option.some.inj hv]
        · contradiction
      have hlt := (List.getElem?_eq_some_iff.1 hslot).1
      simp only [get, length_set, ← hm, List.getElem?_set_self hlt, hslot, Option.map_none, if_neg hne]
    · simp only [get, length_set, List.getElem?_set_ne hm]

/-- The ring holds the values of `f`, whose numbers are within one turn from `b` on. -/
structure Holds (w : ℕ) (r : SeqRing α) (b : ℕ) (f : ℕ → Option α) : Prop where
  size : r.slots.length = 0 ∨ ∃ k ≤ w, r.slots.length = 2 ^ k
  within : ∀ t, f t ≠ none → b ≤ t ∧ t < b + r.slots.length
  slot : ∀ t, b ≤ t → t < b + r.slots.length →
    r.slots[t % r.slots.length]? = some ((f t).map fun v => (t % 2 ^ w, v))

variable {w : ℕ} {r : SeqRing α} {b : ℕ} {f : ℕ → Option α}

theorem Holds.dvd (h : r.Holds w b f) (hl : r.slots.length ≠ 0) : r.slots.length ∣ 2 ^ w := by
  rcases h.size with h0 | ⟨k, hk, hlen⟩
  · exact absurd h0 hl
  · rw [hlen]
    exact pow_dvd_pow 2 hk

theorem Holds.le (h : r.Holds w b f) : r.slots.length ≤ 2 ^ w := by
  rcases h.size with h0 | ⟨k, hk, hlen⟩
  · rw [h0]
    exact Nat.zero_le _
  · rw [hlen]
    exact Nat.pow_le_pow_right (by norm_num) hk

theorem holds_empty (w b : ℕ) : ({} : SeqRing α).Holds w b fun _ => none :=
  ⟨.inl rfl, fun _ h => absurd rfl h, fun t h1 h2 => by simp at h2; omega⟩

theorem Holds.reset (h : r.Holds w b f) (b' : ℕ) : r.reset.Holds w b' fun _ => none := by
  refine ⟨by simpa [SeqRing.reset] using h.size, fun _ h => absurd rfl h, fun t h1 h2 => ?_⟩
  simp only [SeqRing.reset, length_replicate] at h2 ⊢
  simp only [map_none]
  rw [List.getElem?_replicate, if_pos]
  exact Nat.mod_lt _ (by omega)

theorem exists_in_window {n : ℕ} (hn : 0 < n) (b i : ℕ) : ∃ t, b ≤ t ∧ t < b + n ∧ t % n = i % n := by
  have hlt := Nat.mod_lt (i + n * b - b) hn
  refine ⟨b + (i + n * b - b) % n, by omega, by omega, ?_⟩
  have hle : b ≤ n * b := Nat.le_mul_of_pos_left b hn
  rw [Nat.add_mod, Nat.mod_mod, ← Nat.add_mod]
  have : b + (i + n * b - b) = i + n * b := by omega
  rw [this, Nat.add_mul_mod_self_left]

theorem eq_of_window {n b t t' : ℕ} (h : t % n = t' % n) (h1 : b ≤ t) (h2 : t < b + n) (h3 : b ≤ t')
    (h4 : t' < b + n) : t = t' := by
  have hm : t - b ≡ t' - b [MOD n] := by
    have : t - b + b ≡ t' - b + b [MOD n] := by
      rw [Nat.sub_add_cancel h1, Nat.sub_add_cancel h3]
      exact h
    exact Nat.ModEq.add_right_cancel' b this
  have := hm.eq_of_lt_of_lt (by omega) (by omega)
  omega

section
variable (h : r.Holds w b f)
include h

theorem Holds.slot_of (hl : r.slots.length ≠ 0) (t : ℕ) :
    ∃ t', b ≤ t' ∧ t' < b + r.slots.length ∧ t' % r.slots.length = t % r.slots.length ∧
      r.slots[t % 2 ^ w % r.slots.length]? = some ((f t').map fun v => (t' % 2 ^ w, v)) := by
  obtain ⟨t', h1, h2, h3⟩ := exists_in_window (pos_of_ne_zero hl) b t
  refine ⟨t', h1, h2, h3, ?_⟩
  rw [mod_mod_of_dvd _ (h.dvd hl), ← h3]
  exact h.slot t' h1 h2

variable {t : ℕ}

/-- A number less than a full circle from those of the window is found exactly if it is one of them. -/
theorem Holds.get (h1 : t < b + 2 ^ w) (h2 : b + r.slots.length ≤ t + 2 ^ w) : r.get (t % 2 ^ w) = f t := by
  by_cases hl : r.slots.length = 0
  · have hf : f t = none := by
      by_contra hc
      have := h.within t hc
      omega
    have hs : r.slots = [] := length_eq_zero_iff.1 hl
    simp [SeqRing.get, hs, hf]
  obtain ⟨t', h1', h2', hmod, hslot⟩ := h.slot_of hl t
  have heq : t' % 2 ^ w = t % 2 ^ w → t' = t := by
    intro he
    have hle := h.le
    by_contra hne
    rcases Nat.lt_or_gt_of_ne hne with hlt | hlt
    · exact hne (eq_of_window he le_rfl (by omega) hlt.le (by omega))
    · exact hne (eq_of_window he hlt.le (by omega) le_rfl (by omega))
  rw [SeqRing.get, hslot]
  cases hv : f t' with
  | none =>
    simp only [map_none]
    by_contra hc
    have hin := h.within t (Ne.symm hc)
    have : t' = t := eq_of_window hmod h1' h2' hin.1 hin.2
    exact hc (this ▸ hv.symm)
  | some v =>
    simp only [map_some]
    split_ifs with he
    · rw [← heq he, hv]
    · by_contra hc
      have hin := h.within t (Ne.symm hc)
      have : t' = t := eq_of_window hmod h1' h2' hin.1 hin.2
      exact he (by rw [this])

theorem Holds.shift {b' : ℕ} (hb : b ≤ b') (hf : ∀ t, f t ≠ none → b' ≤ t) : r.Holds w b' f := by
  refine ⟨h.size, fun t ht => ⟨hf t ht, by have := h.within t ht; omega⟩, fun t h1 h2 => ?_⟩
  obtain ⟨t', h1', h2', hmod⟩ := exists_in_window (by omega : 0 < r.slots.length) b t
  have hslot := h.slot t' h1' h2'
  rw [hmod] at hslot
  rw [hslot]
  cases hv : f t' with
  | none =>
    cases hw : f t with
    | none => rfl
    | some v =>
      have hin := h.within t (by simp [hw])
      have : t' = t := eq_of_window hmod h1' h2' hin.1 hin.2
      rw [this, hw] at hv
      contradiction
  | some v =>
    have hin := hf t' (by simp [hv])
    have : t' = t := eq_of_window hmod hin (by omega) h1 h2
    rw [← this, hv]

theorem Holds.set (h1 : b ≤ t) (h2 : t < b + r.slots.length) (x : Option α) :
    (⟨r.slots.set (t % 2 ^ w % r.slots.length) (x.map fun v => (t % 2 ^ w, v))⟩ : SeqRing α).Holds w b
      (update f t x) := by
  have hl : r.slots.length ≠ 0 := by omega
  refine ⟨by simpa using h.size, fun u hu => ?_, fun u h3 h4 => ?_⟩
  · rw [length_set]
    by_cases he : u = t
    · rw [he]
      exact ⟨h1, h2⟩
    · rw [update_of_ne he] at hu
      exact h.within u hu
  simp only [length_set] at h4 ⊢
  rw [mod_mod_of_dvd _ (h.dvd hl)]
  by_cases he : u = t
  · subst he
    rw [getElem?_set_self (mod_lt _ (by omega)), update_self]
  · have hne : t % r.slots.length ≠ u % r.slots.length := fun hm => he (eq_of_window hm h1 h2 h3 h4).symm
    rw [getElem?_set_ne hne, update_of_ne he]
    exact h.slot u h3 h4

theorem Holds.modify {v : α} (hv : f t = some v) (g : α → Option α) :
    (r.modify (t % 2 ^ w) g).Holds w b (update f t (g v)) := by
  have hin := h.within t (by simp [hv])
  have hle := h.le
  have hget : r.get (t % 2 ^ w) = some v := by rw [h.get (by omega) (by omega), hv]
  rw [SeqRing.modify, hget]
  exact h.set hin.1 hin.2 (g v)

theorem Holds.del {v : α} (hv : f t = some v) : (r.del (t % 2 ^ w)).Holds w b (update f t none) := h.modify hv _

end

/-! ### Growing -/

theorem growTo_spec {need fuel size : ℕ} {k : ℕ} (hk : size = 2 ^ k) (hfuel : need ≤ 2 ^ fuel * size) :
    need ≤ growTo need fuel size ∧
      (∃ j, growTo need fuel size = 2 ^ j) ∧ (growTo need fuel size = size ∨ growTo need fuel size < 2 * need) := by
  induction fuel generalizing size k with
  | zero => exact ⟨by simpa [growTo] using hfuel, ⟨k, hk⟩, .inl rfl⟩
  | succ fuel ih =>
    rw [growTo]
    split_ifs with hlt
    · have hk' : 2 * size = 2 ^ (k + 1) := by
        rw [hk]
        ring
      obtain ⟨h1, h2, h3⟩ := ih hk' (by rw [pow_succ] at hfuel; linarith)
      refine ⟨h1, h2, .inr ?_⟩
      rcases h3 with h3 | h3 <;> omega
    · exact ⟨by omega, ⟨k, hk⟩, .inl rfl⟩

def used (slots : List (Option (ℕ × α))) : List (ℕ × α) := slots.filterMap id

theorem length_refill_foldl (size : ℕ) (old acc : List (Option (ℕ × α))) :
    (old.foldl (refill size) acc).length = acc.length := by
  induction old generalizing acc with
  | nil => rfl
  | cons s old ih =>
    rw [foldl_cons, ih]
    cases s with
    | none => rfl
    | some x => simp [refill]

variable {old acc : List (Option (ℕ × α))} {x : ℕ × α}

theorem refill_other {size i : ℕ} (h : ∀ x ∈ used old, x.1 % size ≠ i) :
    (old.foldl (refill size) acc)[i]? = acc[i]? := by
  induction old generalizing acc with
  | nil => rfl
  | cons s old ih =>
    rw [foldl_cons]
    cases s with
    | none => exact ih fun x hx => h x hx
    | some x =>
      rw [ih fun y hy => h y (mem_cons_of_mem _ hy)]
      have hx := h x (mem_cons_self ..)
      obtain ⟨s, v⟩ := x
      exact getElem?_set_ne hx

theorem refill_used {size : ℕ} (huniq : ∀ y ∈ used old, y.1 % size = x.1 % size → y = x) (hacc : acc.length = size)
    (hs : 0 < size) (hx : x ∈ used old ∨ acc[x.1 % size]? = some (some x)) :
    (old.foldl (refill size) acc)[x.1 % size]? = some (some x) := by
  induction old generalizing acc with
  | nil => exact hx.resolve_left nofun
  | cons s old ih =>
    rw [foldl_cons]
    cases s with
    | none => exact ih huniq hacc hx
    | some y =>
      have hset : (refill size acc (some y))[y.1 % size]? = some (some y) := by
        obtain ⟨s, v⟩ := y
        exact getElem?_set_self (by rw [hacc]; exact mod_lt _ hs)
      refine ih (fun z hz => huniq z (mem_cons_of_mem _ hz)) (by simp [refill, hacc]) ?_
      by_cases hy : y.1 % size = x.1 % size
      · have hyx := huniq y (mem_cons_self ..) hy
        rw [hyx] at hset
        exact .inr (hyx ▸ hset)
      rcases hx with hx | hx
      · rcases mem_cons.1 (show x ∈ y :: used old from hx) with rfl | hx
        · exact absurd rfl hy
        · exact .inl hx
      · right
        obtain ⟨s, v⟩ := y
        rw [← hx]
        exact getElem?_set_ne hy

variable (h : r.Holds w b f)
include h

theorem Holds.mem_used : x ∈ used r.slots ↔ ∃ t, f t = some x.2 ∧ x.1 = t % 2 ^ w := by
  simp only [used, mem_filterMap, id, exists_eq_right]
  constructor
  · intro hx
    obtain ⟨i, hi, hix⟩ := mem_iff_getElem.1 hx
    obtain ⟨t, h1, h2, hmod⟩ := exists_in_window (by omega : 0 < r.slots.length) b i
    have hslot := h.slot t h1 h2
    rw [hmod, mod_eq_of_lt hi, getElem?_eq_getElem hi, hix, some.injEq] at hslot
    cases hv : f t with
    | none => simp [hv] at hslot
    | some v =>
      simp only [hv, map_some, some.injEq] at hslot
      exact ⟨t, by rw [hslot, hv], by rw [hslot]⟩
  · rintro ⟨t, hv, hx⟩
    have hin := h.within t (by simp [hv])
    have hslot := h.slot t hin.1 hin.2
    rw [hv, map_some, ← hx] at hslot
    exact mem_of_getElem? hslot

theorem Holds.rehash {j : ℕ} (hj : j ≤ w) (hlen : r.slots.length ≤ 2 ^ j) :
    (⟨rehash (2 ^ j) r.slots⟩ : SeqRing α).Holds w b f := by
  have hpos : 0 < 2 ^ j := Nat.two_pow_pos j
  have hl : (SeqRing.rehash (2 ^ j) r.slots).length = 2 ^ j := by
    rw [SeqRing.rehash, length_refill_foldl, length_replicate]
  have hdvd : 2 ^ j ∣ 2 ^ w := pow_dvd_pow 2 hj
  refine ⟨.inr ⟨j, hj, hl⟩, fun t ht => ?_, fun t h1 h2 => ?_⟩
  · have := h.within t ht
    simp only [hl]
    omega
  simp only [hl] at h2 ⊢
  -- the used slot of another number of the window goes elsewhere
  have hother : ∀ y ∈ used r.slots, y.1 % 2 ^ j = t % 2 ^ j → f t = some y.2 ∧ y.1 = t % 2 ^ w := by
    intro y hy hm
    obtain ⟨u, hu, hyu⟩ := h.mem_used.1 hy
    have hin := h.within u (by simp [hu])
    rw [hyu, Nat.mod_mod_of_dvd _ hdvd] at hm
    have hut := eq_of_window hm hin.1 (by omega) h1 h2
    exact ⟨hut ▸ hu, hut ▸ hyu⟩
  cases hv : f t with
  | none =>
    rw [SeqRing.rehash, refill_other, List.getElem?_replicate, if_pos (Nat.mod_lt _ hpos), map_none]
    intro y hy hm
    rw [(hother y hy hm).1] at hv
    contradiction
  | some v =>
    have hx : (t % 2 ^ w, v) ∈ used r.slots := h.mem_used.2 ⟨t, hv, rfl⟩
    have hmod : (t % 2 ^ w) % 2 ^ j = t % 2 ^ j := Nat.mod_mod_of_dvd _ hdvd
    have hin : (SeqRing.rehash (2 ^ j) r.slots)[(t % 2 ^ w) % 2 ^ j]? = some (some (t % 2 ^ w, v)) := by
      refine refill_used (x := (t % 2 ^ w, v)) (fun y hy hm => ?_) length_replicate hpos (.inl hx)
      rw [hmod] at hm
      obtain ⟨h1, h2⟩ := hother y hy hm
      rw [hv, some.injEq] at h1
      exact Prod.ext h2 h1.symm
    rwa [hmod] at hin

theorem Holds.cover (hw : 4 ≤ w) {t : ℕ} (h1 : b ≤ t) (h2 : t < b + 2 ^ (w - 1)) :
    (⟨r.cover w (t % 2 ^ w) (b % 2 ^ w)⟩ : SeqRing α).Holds w b f ∧
      t < b + (r.cover w (t % 2 ^ w) (b % 2 ^ w)).length := by
  have hhalf : 2 ^ w = 2 * 2 ^ (w - 1) := by
    rw [← pow_succ']
    congr 1
    omega
  -- the distance of the two numbers, which do not wrap here
  have hneed : (t % 2 ^ w + 2 ^ w - b % 2 ^ w) % 2 ^ w = t - b := by
    have hb := Nat.mod_lt b (Nat.two_pow_pos w)
    have hm : (t % 2 ^ w + 2 ^ w - b % 2 ^ w) ≡ t - b [MOD 2 ^ w] := by
      have hadd : (t % 2 ^ w + 2 ^ w - b % 2 ^ w) + b % 2 ^ w ≡ (t - b) + b % 2 ^ w [MOD 2 ^ w] := by
        rw [Nat.sub_add_cancel (by omega)]
        have h3 : t % 2 ^ w + 2 ^ w ≡ t [MOD 2 ^ w] := by
          simp [Nat.ModEq]
        have h4 : (t - b) + b % 2 ^ w ≡ (t - b) + b [MOD 2 ^ w] := Nat.ModEq.add_left _ (Nat.mod_modEq _ _)
        rw [Nat.sub_add_cancel h1] at h4
        exact h3.trans h4.symm
      exact Nat.ModEq.add_right_cancel' _ hadd
    rw [hm, Nat.mod_eq_of_lt (by omega)]
  simp only [SeqRing.cover, hneed]
  split_ifs with hlt
  · have hsize : ∃ k ≤ w, max r.slots.length 16 = 2 ^ k := by
      rcases Nat.le_total r.slots.length 16 with hle | hle
      · exact ⟨4, hw, by rw [Nat.max_eq_right hle]; norm_num⟩
      · rw [Nat.max_eq_left hle]
        rcases h.size with h0 | ⟨k, hk, hl⟩
        · omega
        · exact ⟨k, hk, hl⟩
    obtain ⟨k, hk, hmax⟩ := hsize
    have hfuel : t - b + 1 ≤ 2 ^ w * max r.slots.length 16 := by
      have : 1 ≤ max r.slots.length 16 := by omega
      calc t - b + 1 ≤ 2 ^ w * 1 := by omega
        _ ≤ 2 ^ w * max r.slots.length 16 := Nat.mul_le_mul_left _ this
    obtain ⟨g1, ⟨j, hj⟩, g4⟩ := growTo_spec hmax hfuel
    have hjw : j ≤ w := by
      rcases g4 with g4 | g4
      · rw [hj, hmax] at g4
        rw [Nat.pow_right_injective (le_refl 2) g4]
        exact hk
      · have hle : 2 ^ j ≤ 2 ^ w := by
          rw [hj] at g4
          omega
        exact (Nat.pow_le_pow_iff_right (by norm_num)).1 hle
    have hr := h.rehash hjw (by rw [← hj]; omega)
    rw [hj]
    refine ⟨hr, ?_⟩
    have hlen : (SeqRing.rehash (2 ^ j) r.slots).length = 2 ^ j := by
      rw [SeqRing.rehash, length_refill_foldl, length_replicate]
    rw [hlen, ← hj]
    omega
  · exact ⟨h, by omega⟩

/-- A number at most half a circle from the window's beginning is put in, whatever the ring has to grow by. -/
theorem Holds.put (hw : 4 ≤ w) {t : ℕ} (h1 : b ≤ t) (h2 : t < b + 2 ^ (w - 1)) (v : α) :
    (r.put w (t % 2 ^ w) v (b % 2 ^ w)).Holds w b (update f t (some v)) := by
  obtain ⟨hc, hlt⟩ := h.cover hw h1 h2
  exact hc.set h1 hlt (some v)

end SeqRing
end Fib
