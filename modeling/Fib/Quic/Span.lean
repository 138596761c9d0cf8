import Fib.Lib.Intervals

/-! `span` and `addSpan` (http3/quic/buffer.go): byte ranges of a stream, kept sorted,
disjoint and merged where they touch. -/

namespace Fib.Quic
open List Intervals

/-- The byte range `[off, end_)` of a stream. -/
structure Span where
  off : ℕ
  end_ : ℕ
deriving DecidableEq

instance : Interval Span := ⟨Span.off, Span.end_⟩

@[simp] theorem start_span (s : Span) : start s = s.off := rfl
@[simp] theorem stop_span (s : Span) : stop s = s.end_ := rfl

/-- The loop of `addSpan`: `s` grows over the spans it reaches. -/
def absorb (s : Span) : List Span → Span × List Span
  | [] => (s, [])
  | p :: rest =>
    if p.off ≤ s.end_ then absorb ⟨min s.off p.off, max s.end_ p.end_⟩ rest else (s, p :: rest)

def addSpan (spans : List Span) (s : Span) : List Span :=
  if s.end_ ≤ s.off then spans
  else
    let grown := absorb s (spans.dropWhile fun p => p.end_ < s.off)
    (spans.takeWhile fun p => p.end_ < s.off) ++ grown.1 :: grown.2

/-- What `absorb` makes of the spans `l`. -/
structure Absorbed (s : Span) (l : List Span) (g : Span × List Span) : Prop where
  lt : g.1.off < g.1.end_
  asc : Ascending 1 g.2
  gap : ∀ b ∈ g.2, g.1.end_ < b.off
  off : g.1.off = s.off ∨ ∃ p ∈ l, g.1.off = p.off
  sub : g.2 ⊆ l
  mem : ∀ x, (g.1.off ≤ x ∧ x < g.1.end_) ∨ Covers g.2 x ↔ (s.off ≤ x ∧ x < s.end_) ∨ Covers l x

theorem absorb_spec (s : Span) (hs : s.off < s.end_) {l : List Span} (hl : Ascending 1 l)
    (hle : ∀ p ∈ l, s.off ≤ p.end_) : Absorbed s l (absorb s l) := by
  induction l generalizing s with
  | nil => exact ⟨hs, Ascending.nil 1, by simp [absorb], Or.inl rfl, by simp [absorb], by simp [absorb]⟩
  | cons p rest ih =>
    obtain ⟨hp, hrest, hR⟩ := (ascending_cons 1 p rest).1 hl
    simp only [start_span, stop_span] at hp hrest
    have hsp := hle p (by simp)
    dsimp only [absorb]
    split_ifs with h
    · have hmin : ∀ q ∈ rest, min s.off p.off ≤ q.end_ := fun q hq => by
        have := hle q (by simp [hq]); omega
      have hi := ih ⟨min s.off p.off, max s.end_ p.end_⟩ (by simp only; omega) hR hmin
      refine ⟨hi.lt, hi.asc, hi.gap, ?_, subset_cons_of_subset p hi.sub, fun x => ?_⟩
      · rcases hi.off with ho | ⟨q, hq, ho⟩
        · rcases Nat.le_total s.off p.off with hle' | hle'
          · left; rw [ho]; simp only; omega
          · right; exact ⟨p, by simp, by rw [ho]; simp only; omega⟩
        · exact Or.inr ⟨q, by simp [hq], ho⟩
      rw [hi.mem x, covers_cons]
      simp only [start_span, stop_span]
      by_cases hx : Covers rest x
      · simp [hx]
      · simp only [hx, or_false]; omega
    · refine ⟨hs, hl, fun b hb => ?_, Or.inl rfl, List.Subset.refl _, fun x => Iff.rfl⟩
      rcases mem_cons.1 hb with rfl | hb
      · simp only; omega
      · have := hrest b hb
        simp only; omega

variable {spans : List Span} {s : Span}

theorem addSpan_spec (h : Ascending 1 spans) (s : Span) : Ascending 1 (addSpan spans s) ∧
      ∀ x, Covers (addSpan spans s) x ↔ Covers spans x ∨ (s.off ≤ x ∧ x < s.end_) := by
  unfold addSpan
  split_ifs with hs
  · exact ⟨h, fun x => by rw [or_iff_left]; omega⟩
  obtain ⟨hB, hD, hBD⟩ := h.cut fun p => p.end_ < s.off
  have hg := absorb_spec s (by omega) hD (h.le_stop_of_dropWhile s.off)
  refine ⟨hB.between hg.asc hg.lt (fun a ha => ?_) hg.gap, fun x => ?_⟩
  · rcases hg.off with ho | ⟨p, hp, ho⟩
    · have : a.end_ < s.off := stop_lt_of_takeWhile s.off a ha
      simp only [start_span, stop_span]; omega
    · have := hBD a ha p hp
      simp only [start_span, stop_span] at this ⊢; omega
  · rw [covers_cut spans (fun p => p.end_ < s.off), covers_append, covers_cons]
    simp only [start_span, stop_span]
    rw [hg.mem x]
    tauto

theorem addSpan_head (h : Ascending 1 spans) {g : Span} {rest : List Span}
    (he : addSpan spans s = g :: rest) : g ∈ spans ∨ rest ⊆ spans := by
  unfold addSpan at he
  split_ifs at he with hs
  · exact Or.inl (he ▸ mem_cons_self)
  have hD := (h.cut fun p => p.end_ < s.off).2.1
  have hg := absorb_spec s (by omega) hD (h.le_stop_of_dropWhile s.off)
  cases ht : spans.takeWhile fun p => p.end_ < s.off with
  | nil =>
    rw [ht, nil_append, cons.injEq] at he
    exact Or.inr fun p hp => (dropWhile_sublist _).subset (hg.sub (he.2 ▸ hp))
  | cons a t =>
    rw [ht, cons_append, cons.injEq] at he
    have hmem : g ∈ spans.takeWhile fun p => p.end_ < s.off := by simp [ht, he.1]
    exact Or.inl ((takeWhile_sublist _).subset hmem)

theorem addSpan_ne_nil (h : s.off < s.end_) : addSpan spans s ≠ [] := by
  rw [addSpan, if_neg (by omega)]
  simp

theorem end_le_of_addSpan (h : Ascending 1 spans) {n : ℕ}
    (hs : s.end_ ≤ n) (hle : ∀ p ∈ spans, p.end_ ≤ n) : ∀ p ∈ addSpan spans s, p.end_ ≤ n := by
  obtain ⟨hasc, hcov⟩ := addSpan_spec h s
  intro p hp
  have hlt : p.off < p.end_ := hasc.inhabited p hp
  rcases (hcov (p.end_ - 1)).1 ⟨p, hp, by simp only [start_span, stop_span]; omega⟩ with
    ⟨q, hq, -, hx⟩ | hx
  · have := hle q hq
    simp only [stop_span] at hx; omega
  · omega

end Fib.Quic
