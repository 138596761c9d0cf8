import Fib.Lib.Bytes

/-! Scanners of a byte stream that arrives in pieces: a step looks at what is buffered and goes on,
emits a result and consumes its bytes, waits for more, or refuses the stream. A scanner whose steps
do not change their mind when more arrives emits the same results however the stream is cut. -/

namespace Fib
open List

inductive Move (σ ρ ε : Type*)
  | next (s : σ)
  | emit (r : ρ) (n : ℕ) (s : σ)
  | wait (s : σ)
  | fail (e : ε)

namespace Scanner
variable {σ ρ ε : Type*} (step : Bytes → σ → Move σ ρ ε)

/-- The scan of `b` from `s` gets to `s'` with `b'` left, emitting `o` on the way. -/
inductive Reach : Bytes → σ → List ρ → Bytes → σ → Prop
  | refl (b : Bytes) (s : σ) : Reach b s [] b s
  | next {b b' : Bytes} {s s' t : σ} {o : List ρ} :
      step b s = .next s' → Reach b s' o b' t → Reach b s o b' t
  | emit {b b' : Bytes} {s s' t : σ} {r : ρ} {n : ℕ} {o : List ρ} :
      step b s = .emit r n s' → Reach (b.drop n) s' o b' t → Reach b s (r :: o) b' t

/-- How the scan of what is buffered ends: waiting, with what is left, or refused. -/
inductive Halt (σ : Type*)
  | stuck (b : Bytes) (s : σ)
  | refused

def Halt.isRefused : Halt σ → Bool
  | .stuck _ _ => false
  | .refused => true

inductive Drain : Bytes → σ → List ρ → Halt σ → Prop
  | wait {b : Bytes} {s s' : σ} : step b s = .wait s' → Drain b s [] (.stuck b s')
  | fail {b : Bytes} {s : σ} {e : ε} : step b s = .fail e → Drain b s [] .refused
  | next {b : Bytes} {s s' : σ} {o : List ρ} {h : Halt σ} :
      step b s = .next s' → Drain b s' o h → Drain b s o h
  | emit {b : Bytes} {s s' : σ} {r : ρ} {n : ℕ} {o : List ρ} {h : Halt σ} :
      step b s = .emit r n s' → Drain (b.drop n) s' o h → Drain b s (r :: o) h

/-- The pieces are fed one after another, each one drained; a refusal ends the stream. -/
inductive Feeds : Bytes → σ → List Bytes → List ρ → Bool → Prop
  | nil (b : Bytes) (s : σ) : Feeds b s [] [] false
  | stuck {b b' p : Bytes} {s t : σ} {ps : List Bytes} {o o' : List ρ} {refused : Bool} :
      Drain step (b ++ p) s o (.stuck b' t) → Feeds b' t ps o' refused →
      Feeds b s (p :: ps) (o ++ o') refused
  | refused {b p : Bytes} {s : σ} {ps : List Bytes} {o : List ρ} :
      Drain step (b ++ p) s o .refused → Feeds b s (p :: ps) o true

/-- What a step of a scan does not take back when more arrives. -/
def Kept (Good : Bytes → σ → Prop) (b : Bytes) (s : σ) : Move σ ρ ε → Prop
  | .next s' => Good b s' ∧ ∀ x, step (b ++ x) s = .next s'
  | .emit r n s' => n ≤ b.length ∧ Good (b.drop n) s' ∧ ∀ x, step (b ++ x) s = .emit r n s'
  | .wait s' => Good b s' ∧ ∀ x, step (b ++ x) s' = step (b ++ x) s
  | .fail _ => True

/-- No step changes its mind when more arrives, as long as `Good` holds, except that one which
refuses may not have refused. -/
structure Steady (Good : Bytes → σ → Prop) : Prop where
  push : ∀ {b s}, Good b s → ∀ x, Good (b ++ x) s
  kept : ∀ {b s}, Good b s → Kept step Good b s (step b s)

/-- After `u` the stream is refused by a step that would not have refused it, had `v` arrived too. -/
def Premature (u v : Bytes) (s : σ) (o : List ρ) : Prop :=
  ∃ b t e, Reach step u s o b t ∧ step b t = .fail e ∧ ∀ e', step (b ++ v) t ≠ .fail e'

variable {step} {Good : Bytes → σ → Prop} {b b' : Bytes} {s t s' : σ} {o o' : List ρ} {h h' : Halt σ}
section
variable (st : Steady step Good) (hg : Good b s)
include st hg

theorem Steady.next (hs : step b s = .next s') : Good b s' ∧ ∀ x, step (b ++ x) s = .next s' := by
  have := st.kept hg
  rwa [hs] at this

theorem Steady.emit {r : ρ} {n : ℕ} (hs : step b s = .emit r n s') :
    n ≤ b.length ∧ Good (b.drop n) s' ∧ ∀ x, step (b ++ x) s = .emit r n s' := by
  have := st.kept hg
  rwa [hs] at this

theorem Steady.wait (hs : step b s = .wait s') : Good b s' ∧ ∀ x, step (b ++ x) s' = step (b ++ x) s := by
  have := st.kept hg
  rwa [hs] at this

end

theorem Reach.trans (hr : Reach step b s o b' t) {b'' : Bytes} {t' : σ} (hr' : Reach step b' t o' b'' t') :
    Reach step b s (o ++ o') b'' t' := by
  induction hr with
  | refl => exact hr'
  | next hs _ ih => exact .next hs (ih hr')
  | emit hs _ ih => exact .emit hs (ih hr')

theorem Reach.drain (hr : Reach step b s o b' t) (hd : Drain step b' t o' h) : Drain step b s (o ++ o') h := by
  induction hr with
  | refl => exact hd
  | next hs _ ih => exact .next hs (ih hd)
  | emit hs _ ih => exact .emit hs (ih hd)

theorem Drain.congr (he : step b s = step b t) (hd : Drain step b s o h) : Drain step b t o h := by
  cases hd with
  | wait hs => exact .wait (he ▸ hs)
  | fail hs => exact .fail (he ▸ hs)
  | next hs hd => exact .next (he ▸ hs) hd
  | emit hs hd => exact .emit (he ▸ hs) hd

theorem Drain.det (hd : Drain step b s o h) (hd' : Drain step b s o' h') : o = o' ∧ h = h' := by
  induction hd generalizing o' with
  | wait hs => cases hd' <;> simp_all
  | fail hs => cases hd' <;> simp_all
  | next hs _ ih =>
    cases hd' with
    | next hs' hd' =>
      rw [hs] at hs'
      cases hs'
      exact ih hd'
    | wait hs' | fail hs' | emit hs' => rw [hs] at hs'; cases hs'
  | emit hs _ ih =>
    cases hd' with
    | emit hs' hd' =>
      rw [hs] at hs'
      cases hs'
      obtain ⟨rfl, rfl⟩ := ih hd'
      exact ⟨rfl, rfl⟩
    | wait hs' | fail hs' | next hs' => rw [hs] at hs'; cases hs'

theorem Drain.reach_fail (hd : Drain step b s o .refused) : ∃ b' t e, Reach step b s o b' t ∧ step b' t = .fail e := by
  generalize hh : (Halt.refused : Halt σ) = h at hd
  induction hd with
  | wait hs => cases hh
  | fail hs => exact ⟨_, _, _, .refl _ _, hs⟩
  | next hs _ ih =>
    obtain ⟨b', t, e, hr, hf⟩ := ih hh
    exact ⟨b', t, e, .next hs hr, hf⟩
  | emit hs _ ih =>
    obtain ⟨b', t, e, hr, hf⟩ := ih hh
    exact ⟨b', t, e, .emit hs hr, hf⟩

theorem Drain.reach_wait {t' : σ} (hd : Drain step b s o (.stuck b' t')) :
    ∃ t, Reach step b s o b' t ∧ step b' t = .wait t' := by
  generalize hh : Halt.stuck b' t' = h at hd
  induction hd with
  | wait hs => cases hh; exact ⟨_, .refl _ _, hs⟩
  | fail hs => cases hh
  | next hs _ ih =>
    obtain ⟨t, hr, hw⟩ := ih hh
    exact ⟨t, .next hs hr, hw⟩
  | emit hs _ ih =>
    obtain ⟨t, hr, hw⟩ := ih hh
    exact ⟨t, .emit hs hr, hw⟩

theorem Feeds.det {ps : List Bytes} {refused refused' : Bool} (hf : Feeds step b s ps o refused)
    (hf' : Feeds step b s ps o' refused') : o = o' ∧ refused = refused' := by
  induction hf generalizing o' with
  | nil => cases hf'; exact ⟨rfl, rfl⟩
  | stuck hd _ ih =>
    cases hf' with
    | stuck hd' hf' =>
      obtain ⟨rfl, hh⟩ := hd.det hd'
      cases hh
      obtain ⟨rfl, rfl⟩ := ih hf'
      exact ⟨rfl, rfl⟩
    | refused hd' => cases (hd.det hd').2
  | refused hd =>
    cases hf' with
    | stuck hd' => cases (hd.det hd').2
    | refused hd' => exact ⟨(hd.det hd').1, rfl⟩

theorem Feeds.single {p : Bytes} {refused : Bool} (hf : Feeds step b s [p] o refused) :
    ∃ h, Drain step (b ++ p) s o h ∧ h.isRefused = refused := by
  cases hf with
  | stuck hd hf =>
    cases hf
    rw [append_nil]
    exact ⟨_, hd, rfl⟩
  | refused hd => exact ⟨_, hd, rfl⟩

section Steady
variable (st : Steady step Good)
include st
section
variable (hg : Good b s)
include hg

theorem Reach.good (hr : Reach step b s o b' t) : Good b' t := by
  induction hr with
  | refl => exact hg
  | next hs _ ih => exact ih (st.next hg hs).1
  | emit hs _ ih => exact ih (st.emit hg hs).2.1

theorem Reach.push (hr : Reach step b s o b' t) (x : Bytes) : Reach step (b ++ x) s o (b' ++ x) t := by
  induction hr with
  | refl => exact .refl _ _
  | next hs _ ih =>
    obtain ⟨hg', hs'⟩ := st.next hg hs
    exact .next (hs' x) (ih hg')
  | emit hs _ ih =>
    obtain ⟨hn, hg', hs'⟩ := st.emit hg hs
    refine .emit (hs' x) ?_
    rw [drop_append_of_le_length hn]
    exact ih hg'

theorem Drain.resume (hd : Drain step b s o (.stuck b' t)) {x : Bytes}
    (hd' : Drain step (b' ++ x) t o' h) : Drain step (b ++ x) s (o ++ o') h := by
  obtain ⟨u, hr, hw⟩ := hd.reach_wait
  refine (hr.push st hg x).drain (hd'.congr ?_)
  exact (st.wait (hr.good st hg) hw).2 x

theorem Drain.stuck_good (hd : Drain step b s o (.stuck b' t)) : Good b' t ∧ step b' t = .wait t := by
  obtain ⟨u, hr, hw⟩ := hd.reach_wait
  obtain ⟨hgt, he⟩ := st.wait (hr.good st hg) hw
  refine ⟨hgt, ?_⟩
  have := he []
  rw [append_nil] at this
  rw [this, hw]

theorem Premature.resume (hd : Drain step b s o (.stuck b' t)) {x v : Bytes}
    (hp : Premature step (b' ++ x) v t o') : Premature step (b ++ x) v s (o ++ o') := by
  obtain ⟨w, hr, hw⟩ := hd.reach_wait
  have hsame := (st.wait (hr.good st hg) hw).2
  have hpush := hr.push st hg x
  obtain ⟨c, u, e, hreach, hfail, hno⟩ := hp
  cases hreach with
  | refl =>
    refine ⟨_, w, e, by simpa using hpush, (hsame x).symm.trans hfail, fun e' => ?_⟩
    rw [append_assoc, ← hsame, ← append_assoc]
    exact hno e'
  | next hs hreach => exact ⟨c, u, e, hpush.trans (.next ((hsame x).symm.trans hs) hreach), hfail, hno⟩
  | emit hs hreach => exact ⟨c, u, e, hpush.trans (.emit ((hsame x).symm.trans hs) hreach), hfail, hno⟩

end

variable {ps : List Bytes} {refused : Bool}

/-- A stream fed in pieces is scanned as the whole of it is, unless a cut makes a step refuse it
that would not have refused it. -/
theorem Feeds.whole (hf : Feeds step b s ps o refused) (hg : Good b s)
    (hw : step b s = .wait s) : (∃ h, Drain step (b ++ ps.flatten) s o h ∧ h.isRefused = refused) ∨
      refused = true ∧ ∃ k, Premature step (b ++ (ps.take k).flatten) (ps.drop k).flatten s o := by
  induction hf with
  | nil b s => exact .inl ⟨_, by simpa using Drain.wait hw, rfl⟩
  | @stuck b b' p s t ps o o' refused hd _ ih =>
    obtain ⟨hgt, hwt⟩ := hd.stuck_good st (st.push hg p)
    rcases ih hgt hwt with ⟨h, hd', hr⟩ | ⟨hr, k, hp⟩
    · left
      refine ⟨h, ?_, hr⟩
      simpa [append_assoc] using hd.resume st (st.push hg p) hd'
    · right
      refine ⟨hr, k + 1, ?_⟩
      simpa [append_assoc] using hp.resume st (st.push hg p) hd
  | @refused b p s ps o hd =>
    obtain ⟨c, t, e, hr, hfail⟩ := hd.reach_fail
    by_cases hno : ∃ e', step (c ++ ps.flatten) t = .fail e'
    · obtain ⟨e', he'⟩ := hno
      left
      refine ⟨.refused, ?_, rfl⟩
      have := (hr.push st (st.push hg p) ps.flatten).drain (.fail he')
      simpa [append_assoc] using this
    · right
      refine ⟨rfl, 1, c, t, e, by simpa using hr, hfail, ?_⟩
      simpa using hno

/-- What a stream fed in pieces gives, a scan of the whole of it reaches. -/
theorem Feeds.reach (hf : Feeds step b s ps o refused) (hg : Good b s) (hw : step b s = .wait s) :
    ∃ b' t, Reach step (b ++ ps.flatten) s o b' t := by
  rcases hf.whole st hg hw with ⟨h, hd, -⟩ | ⟨-, k, b', t, -, hr, -⟩
  · cases h with
    | stuck => exact ⟨_, hd.reach_wait.imp fun _ h => h.1⟩
    | refused =>
      obtain ⟨b', t, -, hr, -⟩ := hd.reach_fail
      exact ⟨b', t, hr⟩
  · refine ⟨b' ++ (ps.drop k).flatten, t, ?_⟩
    have hpush := hr.push st (st.push hg _) (ps.drop k).flatten
    rwa [append_assoc, ← flatten_append, take_append_drop] at hpush

theorem Feeds.waits (hf : Feeds step b s ps o refused) (hr : refused = false) (hg : Good b s) (hw : step b s = .wait s)
    (k : ℕ) : ∃ o' b' t, Drain step (b ++ (ps.take k).flatten) s o' (.stuck b' t) := by
  induction hf generalizing k with
  | nil b s => exact ⟨[], b, s, by simpa using Drain.wait hw⟩
  | @stuck b b' p s t ps o o' refused hd _ ih =>
    cases k with
    | zero => exact ⟨[], b, s, by simpa using Drain.wait hw⟩
    | succ k =>
      obtain ⟨hgt, hwt⟩ := hd.stuck_good st (st.push hg p)
      obtain ⟨o'', c, u, hd'⟩ := ih hr hgt hwt k
      exact ⟨o ++ o'', c, u, by simpa [append_assoc] using hd.resume st (st.push hg p) hd'⟩
  | refused hd => cases hr

end Steady
end Scanner
end Fib
