import Mathlib.Data.List.Sort
import Mathlib.Tactic

/-! Decode times recovered from presentation times, and when the guesses for the first pictures spoil them. -/

namespace Fib.Rtpcodec
open List

def duration (x : ℤ) : ℤ := x.bmod (2 ^ 64)

structure DtsExtractor where
  reorder : ℕ
  frame : ℤ
  top : List ℤ := []
  count : ℕ := 0
  first : ℤ := 0
  last : ℤ := 0
deriving DecidableEq

namespace DtsExtractor
variable (e : DtsExtractor)

def depth : ℕ := min e.reorder 16

/-- The largest times with one more. `BinarySearch` and `Insert` put it before the first that is not less. -/
def keep (pts : ℤ) : List ℤ :=
  let top := e.top.orderedInsert (· ≤ ·) pts
  if e.depth + 1 < top.length then top.drop (top.length - (e.depth + 1)) else top

def next (pts : ℤ) : ℤ × DtsExtractor :=
  let first := if e.count = 0 then pts else e.first
  let top := e.keep pts
  let dts := if e.depth ≤ e.count then top.headD 0
    else duration (first - duration ((e.depth - e.count : ℕ) * e.frame))
  let dts := min (max (max dts e.last) 0) pts
  (dts, { e with top := top, count := e.count + 1, first := first, last := max dts e.last })

end DtsExtractor

section
variable (n : ℕ) (frame : ℤ) (pts : ℕ → ℤ)

/-- The extractor after the first pictures of a stream in decode order. -/
def after : ℕ → DtsExtractor
  | 0 => { reorder := n, frame }
  | i + 1 => ((after i).next (pts i)).2

def dts (i : ℕ) : ℤ := ((after n frame pts i).next (pts i)).1

def seen (i : ℕ) : List ℤ := (range i).map pts

/-- Of `total` pictures each follows at most `n` that are shown later. -/
def Reordered (total : ℕ) : Prop := ∀ i < total, (seen pts i).countP (pts i < ·) ≤ n

/-- The `n + 1`-th largest: at most `n` are larger, and more are not less. -/
def NthLargest (l : List ℤ) (x : ℤ) : Prop := l.countP (x < ·) ≤ n ∧ n < l.countP (x ≤ ·)

/-- What decode times are for. -/
structure Usable (total : ℕ) : Prop where
  ordered : ∀ j < total, ∀ i ≤ j, dts n frame pts i ≤ dts n frame pts j
  before : ∀ i < total, dts n frame pts i ≤ pts i
  settled : ∀ i < total, n ≤ i → NthLargest n (seen pts (i + 1)) (dts n frame pts i)

/-- What a picture's decode time is guessed to be while there are too few. -/
def guess (j : ℕ) : ℤ := max (duration (pts 0 - duration ((n - j : ℕ) * frame))) 0

/-- No picture is shown before the decode times guessed for earlier ones; nor, if there are enough pictures to settle,
before any guessed time. -/
def Foreseen (total : ℕ) : Prop :=
  ∀ j < n, ∀ k ≤ n, k < total → j < k ∨ n < total → min (guess n frame pts j) (pts j) ≤ pts k

end

variable {n total i : ℕ} {frame : ℤ} {pts : ℕ → ℤ} {l l' top : List ℤ} {x y : ℤ}

/-! ### The largest times -/

theorem seen_succ (pts : ℕ → ℤ) (i : ℕ) : seen pts (i + 1) = seen pts i ++ [pts i] := by simp [seen, range_succ]

theorem length_seen (pts : ℕ → ℤ) (i : ℕ) : (seen pts i).length = i := by simp [seen]

section
variable (h : NthLargest n l x)
include h

theorem NthLargest.lt_countP (hlt : y < x) : n < l.countP (y < ·) := by
  refine h.2.trans_le (countP_mono_left fun a _ ha => ?_)
  simp only [decide_eq_true_eq] at ha ⊢
  omega

theorem NthLargest.le_of_sublist (h' : NthLargest n l' y) (hs : l <+ l') : x ≤ y := by
  by_contra hlt
  exact absurd ((h.lt_countP (not_le.1 hlt)).trans_le hs.countP_le) (not_lt.2 h'.1)

theorem NthLargest.of_forall_le (hy : ∀ a ∈ l, y ≤ a) : y ≤ x := by
  by_contra hlt
  have hall : l.countP (x < ·) = l.length :=
    countP_eq_length.2 fun a ha => decide_eq_true ((not_le.1 hlt).trans_le (hy a ha))
  exact absurd (h.2.trans_le countP_le_length) (not_lt.2 (hall ▸ h.1))

theorem NthLargest.le_of_mem (hl : l.length = n + 1) (hy : y ∈ l) : x ≤ y := by
  have hall : l.countP (x ≤ ·) = l.length := countP_le_length.antisymm (hl ▸ h.2)
  simpa using countP_eq_length.1 hall y hy

theorem NthLargest.le_last (hl : l = l' ++ [y]) (hy : l'.countP (y < ·) ≤ n) : x ≤ y := by
  by_contra hlt
  have hcount := h.lt_countP (not_le.1 hlt)
  simp [hl] at hcount
  omega

end

/-- The largest of a list, from the least. -/
structure Tops (n : ℕ) (l top : List ℤ) : Prop where
  sorted : top.Pairwise (· ≤ ·)
  length : top.length = min l.length (n + 1)
  rest : ∃ rest, rest ++ top ~ l ∧ ∀ a ∈ rest, ∀ b ∈ top, a ≤ b

theorem Tops.nthLargest (h : Tops n l (x :: top)) (hl : n < l.length) : NthLargest n l x := by
  obtain ⟨rest, hperm, hle⟩ := h.rest
  have hlen := h.length
  have hsort := pairwise_cons.1 h.sorted
  rw [length_cons] at hlen
  constructor
  · have hrest : rest.countP (x < ·) = 0 := countP_eq_zero.2 fun a ha => by simpa using hle a ha x mem_cons_self
    rw [← hperm.countP_eq, countP_append, hrest, countP_cons_of_neg (by simp)]
    have := countP_le_length (p := (x < ·)) (l := top)
    omega
  · have hall : (x :: top).countP (x ≤ ·) = (x :: top).length := countP_eq_length.2 fun a ha => by
      rcases mem_cons.1 ha with rfl | ha
      · simp
      · simpa using hsort.1 a ha
    rw [← hperm.countP_eq, countP_append, hall, length_cons]
    omega

theorem Tops.keep {e : DtsExtractor} (hn : e.depth = n) (h : Tops n l e.top) (x : ℤ) :
    Tops n (l ++ [x]) (e.keep x) := by
  subst hn
  obtain ⟨rest, hperm, hle⟩ := h.rest
  have hlen := h.length
  have hsort := h.sorted.orderedInsert x e.top
  have hins := perm_orderedInsert (· ≤ ·) x e.top
  have hall : rest ++ e.top.orderedInsert (· ≤ ·) x ~ l ++ [x] :=
    ((hins.append_left rest).trans perm_middle).trans ((hperm.cons x).trans (perm_append_singleton x l).symm)
  have hlen' := hins.length_eq
  rw [length_cons] at hlen'
  unfold DtsExtractor.keep
  dsimp only
  split_ifs with hlong
  · rw [show (e.top.orderedInsert (· ≤ ·) x).length - (e.depth + 1) = 1 by omega]
    cases htop : e.top.orderedInsert (· ≤ ·) x with
    | nil => simp [htop] at hlong
    | cons t top =>
      rw [htop] at hsort hins hall hlen' hlong
      rw [pairwise_cons] at hsort
      rw [length_cons] at hlen' hlong
      refine ⟨hsort.2, ?_, rest ++ [t], by simpa using hall, fun a ha b hb => ?_⟩
      · rw [drop_one, tail_cons, length_append, length_singleton]
        omega
      rcases mem_append.1 ha with ha | ha
      · -- the one left out is the new one, or not less than those left out before
        rcases mem_cons.1 (hins.subset mem_cons_self) with rfl | ht
        · exact hle a ha b (hins.cons_inv.subset hb)
        · exact (hle a ha t ht).trans (hsort.1 b hb)
      · rw [mem_singleton.1 ha]
        exact hsort.1 b hb
  · have hshort : l.length ≤ e.depth := by omega
    have hnil : rest = [] := by
      have := hperm.length_eq
      rw [length_append] at this
      exact length_eq_zero_iff.1 (by omega)
    exact ⟨hsort, by rw [length_append, length_singleton]; omega, [], by simpa [hnil] using hall, by simp⟩

/-! ### The extractor -/

theorem last_le_iff (i : ℕ) (x : ℤ) : (after n frame pts i).last ≤ x ↔ 0 ≤ x ∧ ∀ j < i, dts n frame pts j ≤ x := by
  induction i with
  | zero => simp [after]
  | succ i ih =>
    show max (dts n frame pts i) (after n frame pts i).last ≤ x ↔ _
    rw [max_le_iff, ih, Nat.forall_lt_succ_right, and_comm, and_assoc]

section
variable (hn : n ≤ 16)
include hn

theorem after_spec (frame : ℤ) (pts : ℕ → ℤ) (i : ℕ) : (after n frame pts i).count = i ∧
    (after n frame pts i).depth = n ∧ (after n frame pts i).frame = frame ∧
    (i ≠ 0 → (after n frame pts i).first = pts 0) ∧ Tops n (seen pts i) (after n frame pts i).top := by
  induction i with
  | zero =>
    exact ⟨rfl, min_eq_left hn, rfl, fun h => absurd rfl h, ⟨.nil, by simp [after, seen], [], by simp [after, seen]⟩⟩
  | succ i ih =>
    obtain ⟨hc, hr, hf, hfirst, htop⟩ := ih
    refine ⟨congrArg (· + 1) hc, hr, hf, fun _ => ?_, ?_⟩
    · show (if (after n frame pts i).count = 0 then pts i else (after n frame pts i).first) = pts 0
      rw [hc]
      split_ifs with h0
      · rw [h0]
      · exact hfirst h0
    · rw [seen_succ]
      exact htop.keep hr (pts i)

/-- The time settled on is taken unless an earlier picture's was later. -/
theorem dts_late (frame : ℤ) (pts : ℕ → ℤ) (hi : n ≤ i) : ∃ x, NthLargest n (seen pts (i + 1)) x ∧
    (x ≤ pts i → 0 ≤ x → (∀ j < i, dts n frame pts j ≤ x) → dts n frame pts i = x) := by
  obtain ⟨hc, hr, -, -, -⟩ := after_spec hn frame pts i
  have htops : Tops n (seen pts (i + 1)) ((after n frame pts i).keep (pts i)) :=
    (after_spec hn frame pts (i + 1)).2.2.2.2
  have hlen := length_seen pts (i + 1)
  cases hkeep : (after n frame pts i).keep (pts i) with
  | nil => have := htops.length; simp [hkeep, hlen] at this
  | cons x rest =>
    rw [hkeep] at htops
    refine ⟨x, htops.nthLargest (by omega), fun hle h0 hlast => ?_⟩
    have hmax := (last_le_iff i _).2 ⟨h0, hlast⟩
    simp only [dts, DtsExtractor.next, hc, hr, if_pos hi, hkeep, headD_cons]
    rw [max_eq_left hmax, max_eq_left h0, min_eq_left hle]

theorem dts_early (hi : i < n) :
    dts n frame pts i = min (max (guess n frame pts i) (after n frame pts i).last) (pts i) := by
  obtain ⟨hc, hr, hf, -, -⟩ := after_spec hn frame pts i
  have h0 : (if (after n frame pts i).count = 0 then pts i else (after n frame pts i).first) = pts 0 :=
    (after_spec hn frame pts (i + 1)).2.2.2.1 (Nat.succ_ne_zero i)
  rw [hc] at h0
  simp only [dts, DtsExtractor.next, hc, hr, hf, if_neg (not_le.2 hi), h0]
  rw [max_right_comm]
  rfl

theorem guess_le_dts (hi : i < n) : min (guess n frame pts i) (pts i) ≤ dts n frame pts i := by
  rw [dts_early hn hi]
  exact min_le_min_right _ (le_max_left _ _)

/-- An early picture's decode time is one guessed for it or for one before it, or its own time. -/
theorem dts_early_le (hx : 0 ≤ x) (hi : i < n) (h : ∀ j ≤ i, min (guess n frame pts j) (pts j) ≤ x) :
    dts n frame pts i ≤ x := by
  induction i using Nat.strong_induction_on with
  | _ i ih =>
    rw [dts_early hn hi]
    rcases min_le_iff.1 (h i le_rfl) with hg | hp
    · have hlast : (after n frame pts i).last ≤ x :=
        (last_le_iff i x).2 ⟨hx, fun j hj => ih j hj (hj.trans hi) fun l hl => h l (hl.trans hj.le)⟩
      exact (min_le_left _ _).trans (max_le hg hlast)
    · exact (min_le_right _ _).trans hp

end

/-- Decode times do what they are for exactly if the pictures come as foreseen. -/
theorem usable_iff_foreseen (n total : ℕ) (frame : ℤ) (pts : ℕ → ℤ) (hn : n ≤ 16)
    (hpts : ∀ i < total, 0 ≤ pts i) (hdepth : Reordered n pts total) :
    Usable n frame pts total ↔ Foreseen n frame pts total := by
  constructor
  · intro h j hj k hk hkt hor
    refine (guess_le_dts hn hj).trans ?_
    by_cases ht : n < total
    · have hmem : pts k ∈ seen pts (n + 1) := mem_map.2 ⟨k, by simpa using hk, rfl⟩
      exact (h.ordered n ht j hj.le).trans ((h.settled n ht le_rfl).le_of_mem (length_seen _ _) hmem)
    · exact (h.ordered k hkt j (hor.resolve_right ht).le).trans (h.before k hkt)
  · intro h
    have hlate : ∀ i < total, n ≤ i → NthLargest n (seen pts (i + 1)) (dts n frame pts i) ∧
        ∀ j < i, dts n frame pts j ≤ dts n frame pts i := by
      intro i
      induction i using Nat.strong_induction_on with
      | _ i ih =>
        intro hit hi
        obtain ⟨x, hx, htake⟩ := dts_late hn frame pts hi
        have hsub : ∀ j ≤ i, seen pts (j + 1) <+ seen pts (i + 1) := fun j hj =>
          (range_sublist.2 (Nat.succ_le_succ hj)).map pts
        have hlast : ∀ j < i, dts n frame pts j ≤ x := by
          intro j hj
          rcases Nat.lt_or_ge j n with hjn | hjn
          · obtain ⟨y, hy, -⟩ := dts_late hn frame pts (le_refl n)
            refine le_trans (hy.of_forall_le fun a ha => ?_) (hy.le_of_sublist hx (hsub n hi))
            obtain ⟨k, hk, rfl⟩ := mem_map.1 ha
            rw [mem_range] at hk
            refine dts_early_le hn (hpts k (by omega)) hjn fun l hl => ?_
            exact h l (hl.trans_lt hjn) k (by omega) (by omega) (.inr (by omega))
          · exact (ih j hj (by omega) hjn).1.le_of_sublist hx (hsub j hj.le)
        have h0 : 0 ≤ x := hx.of_forall_le fun a ha => by
          obtain ⟨k, hk, rfl⟩ := mem_map.1 ha
          exact hpts k (by rw [mem_range] at hk; omega)
        rw [htake (hx.le_last (seen_succ pts i) (hdepth i hit)) h0 hlast]
        exact ⟨hx, hlast⟩
    refine ⟨?_, fun i _ => min_le_right _ _, fun i hit hi => (hlate i hit hi).1⟩
    intro j hj i hij
    rcases hij.eq_or_lt with rfl | hlt
    · exact le_rfl
    rcases Nat.lt_or_ge j n with hjn | hjn
    · rw [dts_early hn hjn]
      refine le_min ((((last_le_iff j _).1 le_rfl).2 i hlt).trans (le_max_right _ _)) ?_
      refine dts_early_le hn (hpts j hj) (hlt.trans hjn) fun l hl => ?_
      exact h l (by omega) j hjn.le hj (.inl (by omega))
    · exact (hlate j hj hjn).2 i hlt

/-- Frames of forty, of which the second is shown after the third. -/
def swapped : ℕ → ℤ
  | 0 => 80
  | 1 => 160
  | 2 => 120
  | _ => 200

theorem swapped_usable : Foreseen 1 40 swapped 4 ∧ Usable 1 40 swapped 4 := by
  have hreorder : Reordered 1 swapped 4 := by
    unfold Reordered
    decide
  have hforeseen : Foreseen 1 40 swapped 4 := by
    unfold Foreseen
    decide
  exact ⟨hforeseen,
    (usable_iff_foreseen 1 4 40 swapped (by decide) (by decide) hreorder).2 hforeseen⟩

/-- A picture shown before the first one, as a leading picture is, with a depth of two and frames of ten. -/
def leading : ℕ → ℤ
  | 0 => 100
  | _ => 50

theorem leading_goes_back : Reordered 2 leading 2 ∧ dts 2 10 leading 0 = 80 ∧ dts 2 10 leading 1 = 50 := by
  refine ⟨?_, by decide, by decide⟩
  unfold Reordered
  decide

end Fib.Rtpcodec
