import Fib.Lib.Bytes

/-! Streams of instructions that arrive in pieces. A parser looks at the front of what has arrived: it takes an
instruction, fails, or wants more. Bytes that are no instruction yet are kept for the next piece. A parser that does not
change its mind as more arrives carries out the same instructions however the stream is cut. -/

namespace Fib
open List

inductive Parse (α : Type*) where
  | more
  | fail
  | took (v : α) (n : ℕ)
deriving DecidableEq

namespace Parse
variable {α β σ : Type*}

/-- What a parser makes of some bytes it makes of all their continuations, unless it wants more. -/
structure Stable (p : Bytes → Parse α) : Prop where
  fail : ∀ {b : Bytes}, p b = .fail → ∀ x, p (b ++ x) = .fail
  took : ∀ {b : Bytes} {v : α} {n : ℕ}, p b = .took v n → ∀ x, p (b ++ x) = .took v n
  size : ∀ {b : Bytes} {v : α} {n : ℕ}, p b = .took v n → 0 < n ∧ n ≤ b.length

def seq (p : Bytes → Parse α) (f : α → Bytes → Parse β) (b : Bytes) : Parse β :=
  match p b with
  | .more => .more
  | .fail => .fail
  | .took v k =>
    match f v (b.drop k) with
    | .more => .more
    | .fail => .fail
    | .took w n => .took w (k + n)

/-- What was taken is looked at, and may not do. -/
def check (p : Bytes → Parse α) (f : α → Option β) (b : Bytes) : Parse β :=
  match p b with
  | .more => .more
  | .fail => .fail
  | .took v k =>
    match f v with
    | none => .fail
    | some w => .took w k

/-- The first byte says which parser it is. -/
def byHead (f : UInt8 → Bytes → Parse α) : Bytes → Parse α
  | [] => .more
  | c :: b => f c (c :: b)

variable {p : Bytes → Parse α} {b : Bytes} {f : α → Bytes → Parse β}

theorem Stable.of_kept (hk : ∀ {b : Bytes}, p b ≠ .more → ∀ x, p (b ++ x) = p b)
    (hs : ∀ {b : Bytes} {v : α} {n : ℕ}, p b = .took v n → 0 < n ∧ n ≤ b.length) : Stable p :=
  ⟨fun h x => (hk (by simp [h]) x).trans h, fun h x => (hk (by simp [h]) x).trans h, hs⟩

theorem Stable.kept (hp : Stable p) (h : p b ≠ .more) (x : Bytes) : p (b ++ x) = p b := by
  cases hb : p b with
  | more => exact absurd hb h
  | fail => exact hp.fail hb x
  | took v n => exact hp.took hb x

theorem Stable.byHead {f : UInt8 → Bytes → Parse α} (hf : ∀ c, Stable (f c)) : Stable (byHead f) := by
  refine .of_kept (fun {b} h x => ?_) fun {b v n} h => ?_
  · cases b with
    | nil => simp [Parse.byHead] at h
    | cons c b => exact (hf c).kept h x
  · cases b with
    | nil => simp [Parse.byHead] at h
    | cons c b => exact (hf c).size h

theorem seq_eq_took {w : β} {m : ℕ}
    (h : seq p f b = .took w m) : ∃ v k n, p b = .took v k ∧ f v (b.drop k) = .took w n ∧ m = k + n := by
  unfold Parse.seq at h
  cases hb : p b with
  | more => simp [hb] at h
  | fail => simp [hb] at h
  | took v k =>
    cases hv : f v (b.drop k) with
    | more => simp [hb, hv] at h
    | fail => simp [hb, hv] at h
    | took w' n =>
      simp only [hb, hv, took.injEq] at h
      exact ⟨v, k, n, rfl, h.1 ▸ hv, h.2.symm⟩

theorem Stable.seq (hp : Stable p) (hf : ∀ v, Stable (f v)) : Stable (seq p f) := by
  refine .of_kept (fun {b} h x => ?_) fun {b w m} h => ?_
  · unfold Parse.seq at h ⊢
    cases hb : p b with
    | more => simp [hb] at h
    | fail => rw [hp.fail hb]
    | took v k =>
      rw [hp.took hb]
      dsimp only
      rw [drop_append_of_le_length (hp.size hb).2, (hf v).kept fun hv => h (by simp [hb, hv])]
  · obtain ⟨v, k, n, hb, hv, rfl⟩ := seq_eq_took h
    have hk := hp.size hb
    have hn := (hf v).size hv
    rw [length_drop] at hn
    omega

theorem check_eq_took {f : α → Option β} {w : β} {n : ℕ} (h : check p f b = .took w n) :
    ∃ v, p b = .took v n ∧ f v = some w := by
  unfold Parse.check at h
  cases hb : p b with
  | more => simp [hb] at h
  | fail => simp [hb] at h
  | took v k =>
    cases hv : f v with
    | none => simp [hb, hv] at h
    | some w' =>
      simp only [hb, hv, took.injEq] at h
      obtain ⟨rfl, rfl⟩ := h
      exact ⟨v, rfl, hv⟩

theorem Stable.check (f : α → Option β) (hp : Stable p) : Stable (check p f) := by
  refine .of_kept (fun {b} h x => ?_) fun {b w m} h => ?_
  · unfold Parse.check at h ⊢
    rw [hp.kept fun hb => h (by simp [hb])]
  · obtain ⟨v, hv, -⟩ := check_eq_took h
    exact hp.size hv

/-! ### Draining -/

/-- What is left of a stream: the state, the bytes no instruction took, and whether one failed. -/
structure Left (σ : Type*) where
  state : σ
  rest : Bytes
  failed : Bool
deriving DecidableEq

/-- Carries out the instructions at the front of some bytes, at most `fuel` of them. -/
def drain (step : σ → Bytes → Parse σ) : ℕ → σ → Bytes → Left σ
  | 0, s, b => ⟨s, b, false⟩
  | fuel + 1, s, b =>
    if b = [] then ⟨s, b, false⟩
    else
      match step s b with
      | .more => ⟨s, b, false⟩
      | .fail => ⟨s, b, true⟩
      | .took s' n => drain step fuel s' (b.drop n)

/-- Every instruction takes a byte at least, so that there is fuel enough. -/
def drainAll (step : σ → Bytes → Parse σ) (s : σ) (b : Bytes) : Left σ := drain step b.length s b

variable {step : σ → Bytes → Parse σ}

theorem drain_fuel (hs : ∀ s, Stable (step s)) {fuel : ℕ} {s : σ} (h : b.length ≤ fuel) :
    drain step fuel s b = drainAll step s b := by
  unfold drainAll
  induction hn : b.length using Nat.strong_induction_on generalizing fuel s b with
  | _ n ih =>
    cases b with
    | nil =>
      obtain rfl : n = 0 := hn.symm
      cases fuel <;> simp [drain]
    | cons c b =>
      obtain ⟨k, rfl⟩ : ∃ k, fuel = k + 1 := ⟨fuel - 1, by simp only [length_cons] at h; omega⟩
      obtain ⟨m, rfl⟩ : ∃ m, n = m + 1 := ⟨b.length, by simpa using hn.symm⟩
      simp only [drain, cons_ne_nil, if_false]
      cases hc : step s (c :: b) with
      | more => rfl
      | fail => rfl
      | took s' j =>
        have hj := (hs s).size hc
        have hlen : ((c :: b).drop j).length < m + 1 := by
          rw [length_drop]
          omega
        have hk : ((c :: b).drop j).length ≤ k := by
          rw [length_cons] at h hn
          omega
        have hm : ((c :: b).drop j).length ≤ m := Nat.le_of_lt_succ hlen
        exact (ih _ hlen hk rfl).trans (ih _ hlen hm rfl).symm

theorem drainAll_nil (step : σ → Bytes → Parse σ) (s : σ) : drainAll step s [] = ⟨s, [], false⟩ := rfl

section
variable (hs : ∀ s, Stable (step s))
include hs

theorem drainAll_of_ne {s : σ} (hb : b ≠ []) :
    drainAll step s b = match step s b with
      | .more => ⟨s, b, false⟩
      | .fail => ⟨s, b, true⟩
      | .took s' n => drainAll step s' (b.drop n) := by
  obtain ⟨m, hm⟩ : ∃ m, b.length = m + 1 := ⟨b.length - 1, by have := length_pos_iff.2 hb; omega⟩
  unfold drainAll
  rw [hm, drain, if_neg hb]
  cases hc : step s b with
  | more => rfl
  | fail => rfl
  | took s' n =>
    have hn := (hs s).size hc
    refine drain_fuel hs ?_
    rw [length_drop]
    omega

theorem drainAll_append (s : σ) (b x : Bytes) : drainAll step s (b ++ x) =
      if (drainAll step s b).failed then ⟨(drainAll step s b).state, (drainAll step s b).rest ++ x, true⟩
      else drainAll step (drainAll step s b).state ((drainAll step s b).rest ++ x) := by
  induction hn : b.length using Nat.strong_induction_on generalizing s b with
  | _ n ih =>
    by_cases hb : b = []
    · subst hb
      rw [drainAll_nil, if_neg Bool.false_ne_true]
    have hbx : b ++ x ≠ [] := by simp [hb]
    rw [drainAll_of_ne hs hb]
    cases hc : step s b with
    | more => rw [if_neg Bool.false_ne_true]
    | fail =>
      rw [drainAll_of_ne hs hbx, (hs s).fail hc]
      rfl
    | took s' j =>
      have hj := (hs s).size hc
      rw [drainAll_of_ne hs hbx, (hs s).took hc]
      dsimp only
      rw [drop_append_of_le_length hj.2]
      refine ih _ ?_ s' (b.drop j) rfl
      rw [length_drop]
      omega

theorem drainAll_invariant {R : σ → σ → Prop} (hrefl : ∀ s, R s s) (htrans : ∀ {a b c}, R a b → R b c → R a c)
    (hstep : ∀ {s b s' n}, step s b = .took s' n → R s s') (s : σ) (b : Bytes) : R s (drainAll step s b).state := by
  induction hn : b.length using Nat.strong_induction_on generalizing s b with
  | _ n ih =>
    by_cases hb : b = []
    · subst hb
      exact hrefl s
    rw [drainAll_of_ne hs hb]
    cases hc : step s b with
    | more => exact hrefl s
    | fail => exact hrefl s
    | took s' j =>
      have hj := (hs s).size hc
      refine htrans (hstep hc) (ih _ ?_ s' _ rfl)
      rw [length_drop]
      omega

end

/-! ### Feeding -/

/-- One piece is fed to what the pieces before it left; after a failure nothing is done. -/
def feed (step : σ → Bytes → Parse σ) (l : Left σ) (data : Bytes) : Left σ :=
  if l.failed then l else drainAll step l.state (l.rest ++ data)

/-- What is left is the same, but for the bytes left after a failure. -/
structure Same (l l' : Left σ) : Prop where
  state : l.state = l'.state
  failed : l.failed = l'.failed
  rest : l.failed = false → l.rest = l'.rest

theorem Same.refl (l : Left σ) : Same l l := ⟨rfl, rfl, fun _ => rfl⟩

theorem Same.trans {l l' l'' : Left σ} (h : Same l l') (h' : Same l' l'') : Same l l'' :=
  ⟨h.state.trans h'.state, h.failed.trans h'.failed, fun hf => (h.rest hf).trans (h'.rest (h.failed ▸ hf))⟩

theorem feed_failed {l : Left σ} (h : l.failed = true) (ps : List Bytes) : ps.foldl (feed step) l = l := by
  induction ps with
  | nil => rfl
  | cons p ps ih => rw [foldl_cons, feed, if_pos h, ih]

theorem feed_append (hs : ∀ s, Stable (step s)) (l : Left σ) (p q : Bytes) :
    Same (feed step (feed step l p) q) (feed step l (p ++ q)) := by
  unfold feed
  cases hl : l.failed with
  | true =>
    rw [if_pos rfl, if_pos rfl, if_pos hl]
    exact Same.refl l
  | false =>
    rw [if_neg Bool.false_ne_true, if_neg Bool.false_ne_true, ← append_assoc,
      drainAll_append hs l.state (l.rest ++ p) q]
    split_ifs with hf
    · exact ⟨rfl, hf, fun h => absurd (hf.symm.trans h) (by decide)⟩
    · exact Same.refl _

theorem feed_pieces (hs : ∀ s, Stable (step s)) (l : Left σ) (p : Bytes) (ps : List Bytes) :
    Same ((p :: ps).foldl (feed step) l) (feed step l (p :: ps).flatten) := by
  induction ps generalizing l p with
  | nil =>
    rw [flatten_cons, flatten_nil, append_nil]
    exact Same.refl _
  | cons q ps ih =>
    rw [foldl_cons, flatten_cons]
    exact (ih (feed step l p) q).trans (feed_append hs l p _)

end Parse
end Fib
