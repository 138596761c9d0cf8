import Fib.Quic.Rtt
import Fib.Quic.Packet

/-! Acknowledgement ranges: what a history of `add` and `forget` leaves in a `rangeSet` (http3/quic/buffer.go), and
that the ACK frame `appendAck` writes of it is read by `handleAckFrame` as the same ranges (http3/quic/frames.go).
`csub` is the subtraction of both, on which neither underflows. -/

namespace Fib.Quic
open List Option Intervals RangeSet

/-! ### Histories of a set -/

inductive RangeOp where
  | add (pn : ℕ)
  | forget (pn : ℕ)
deriving DecidableEq

def rangeStep (r : List PnRange) : RangeOp → List PnRange
  | .add pn => (add r pn).2
  | .forget pn => forget r pn

def rangeMachine : Machine (List PnRange) RangeOp := ⟨[], rangeStep⟩

def Numbered (_ : List PnRange) : RangeOp → Prop
  | .add pn => pn < 2 ^ 62
  | .forget _ => True

/-- What `rangeSet` promises of itself. -/
structure AckSet (r : List PnRange) : Prop where
  asc : Ascending 1 r
  few : r.length ≤ maxAckRanges
  small : ∀ q, Covers r q → q < 2 ^ 62

namespace RangeSet
variable {r f : List PnRange} {pn : ℕ}

theorem length_join (f : List PnRange) (pn : ℕ) : (join f pn).2.length ≤ f.length := by
  unfold join
  split
  · exact le_rfl
  split_ifs
  · split
    · split_ifs <;> simp only [length_cons] <;> omega
    · exact Nat.zero_le _
  · exact Nat.le_succ _
  · exact le_rfl

theorem length_place (r : List PnRange) (pn : ℕ) : (place r pn).length ≤ r.length + 1 := by
  have hcut : r.length = (below r pn).length + (from_ r pn).length := by
    rw [← length_append, below, from_, takeWhile_append_dropWhile]
  have hj := length_join (from_ r pn) pn
  rw [place, length_append, length_cons]
  omega

theorem length_add (h : r.length ≤ maxAckRanges) (pn : ℕ) : (add r pn).2.length ≤ maxAckRanges := by
  have hp := length_place r pn
  unfold add
  split_ifs with ho hs hl
  · exact h
  · exact h
  · simp only [length_drop]
    omega
  · exact Nat.le_of_not_lt hl

/-- A number that leaves as many ranges after its own as there were stands before the first of them. -/
theorem lt_lo_of_join {x : PnRange} {after : List PnRange} (hpn : ¬ Covers (x :: after) pn) (hle : pn ≤ x.hi + 1)
    (hlen : (join (x :: after) pn).2.length = after.length + 1) : pn < x.lo := by
  rw [covers_cons, not_or, start_pnRange, stop_pnRange] at hpn
  unfold join at hlen
  dsimp only at hlen
  split_ifs at hlen with h1 h2
  · split at hlen
    · split_ifs at hlen <;> simp only [length_cons] at hlen <;> omega
    · simp at hlen
  · simp at hlen
  · omega

variable (h : Ascending 1 r)
include h

theorem not_covers_overflow (hlen : r.length ≤ maxAckRanges) (hpn : ¬ Covers r pn)
    (hold : ¬ tooOld r pn = true) : ¬ Covers (overflow r pn) pn := by
  unfold overflow
  split_ifs with hover
  · have hcut : r = below r pn ++ from_ r pn := (takeWhile_append_dropWhile).symm
    have hfull : r.length = maxAckRanges := by
      have := length_place r pn
      omega
    cases hb : below r pn with
    | cons x xs =>
      -- the first range lies below the number
      have hx : x.hi + 1 < pn := hi_lt_of_below r pn x (by rw [hb]; exact mem_cons_self ..)
      rw [place, hb, cons_append, take_succ_cons, take_zero, covers_cons]
      simp only [start_pnRange, stop_pnRange, covers_nil, or_false]
      omega
    | nil =>
      -- the number would stand before all the ranges of a full set, and is too old
      rw [hb, nil_append] at hcut
      rw [place, hb, nil_append, length_cons, ← hcut] at hover
      cases hr : r with
      | nil => rw [hr] at hfull; cases hfull
      | cons x after =>
        have hle : pn ≤ x.hi + 1 := by
          refine le_hi_of_from h pn x ?_
          rw [← hcut, hr]
          exact mem_cons_self ..
        have hj := length_join (x :: after) pn
        rw [hr] at hover hfull hpn hold
        rw [length_cons] at hfull hj
        have hlt := lt_lo_of_join hpn hle (by omega)
        exact absurd (by simp [tooOld, hlt, hfull]) hold
  · exact covers_nil pn

theorem covers_add (hlen : r.length ≤ maxAckRanges) (hold : ¬ tooOld r pn = true) : Covers (add r pn).2 pn := by
  by_cases hpn : Covers r pn
  · rw [add_of_covers h hpn]
    exact hpn
  · obtain ⟨-, -, hcov⟩ := add_new h hpn hold
    exact ((hcov pn).2 (.inl rfl)).resolve_left (not_covers_overflow h hlen hpn hold)

theorem covers_of_add {q : ℕ} (hq : Covers (add r pn).2 q) : q = pn ∨ Covers r q := by
  by_cases hold : tooOld r pn = true
  · rw [add_of_tooOld hold] at hq
    exact .inr hq
  · by_cases hpn : Covers r pn
    · rw [add_of_covers h hpn] at hq
      exact .inr hq
    · exact ((add_new h hpn hold).2.2 q).1 (.inr hq)

theorem ascending_add (pn : ℕ) : Ascending 1 (add r pn).2 := by
  by_cases hold : tooOld r pn = true
  · rw [add_of_tooOld hold]
    exact h
  · by_cases hpn : Covers r pn
    · rw [add_of_covers h hpn]
      exact h
    · exact (add_new h hpn hold).2.1

end RangeSet

theorem ackSet_step (r : List PnRange) (op : RangeOp) (h : AckSet r) (hn : Numbered r op) :
    AckSet (rangeStep r op) := by
  cases op with
  | add pn =>
    refine ⟨ascending_add h.asc pn, length_add h.few pn, fun q hq => ?_⟩
    rcases covers_of_add h.asc hq with rfl | hq
    · exact hn
    · exact h.small q hq
  | forget pn =>
    obtain ⟨hasc, hlen, hsub, -⟩ := forget_spec h.asc pn
    exact ⟨hasc, hlen.trans h.few, fun q hq => h.small q (hsub q hq)⟩

theorem ackSet_run {ops : List RangeOp} (h : rangeMachine.Meets Numbered ops) : AckSet (rangeMachine.run ops) :=
  Machine.invariant ⟨Ascending.nil 1, Nat.zero_le _, fun q hq => absurd hq (covers_nil q)⟩ ackSet_step h

/-! ### The frame with its subtractions checked -/

/-- `a - b` of two `uint64`s, or none if it underflows. -/
def csub (a b : ℕ) : Option ℕ := if b ≤ a then some (a - b) else none

theorem csub_eq {a b : ℕ} (h : b ≤ a) : csub a b = some (a - b) := if_pos h

def checkedRanges : ℕ → List PnRange → Bytes → Option Bytes
  | _, [], b => some b
  | prev, r :: rest, b => do
    let gap ← csub (← csub prev r.hi) 2
    let length ← csub r.hi r.lo
    checkedRanges r.lo rest (appendVarint (appendVarint b gap) length)

/-- `appendAck`, which has no frame to write of an empty set. -/
def checkedAck (space : SpaceId) (s : SendSpace) (b : Bytes) : Option Bytes :=
  match s.recv.reverse with
  | [] => none
  | largest :: rest => do
    let delay := if space = .app then s.ackDelay else 0
    let length ← csub largest.hi largest.lo
    checkedRanges largest.lo rest ([largest.hi, delay, rest.length, length].foldl appendVarint (b ++ [frameAck]))

def checkedReadRanges : ℕ → ℕ → Bytes → Option (List PnRange × Bytes)
  | 0, _, b => some ([], b)
  | count + 1, smallest, b => do
    let (gap, b) ← readVarint b
    let (length, b) ← readVarint b
    if smallest < gap + 2 then none
    else
      let hi ← csub (← csub smallest gap) 2
      if hi < length then none
      else
        let lo ← csub hi length
        let (ranges, b) ← checkedReadRanges count lo b
        some (⟨lo, hi⟩ :: ranges, b)

def checkedReadAck (ecn : Bool) (b : Bytes) : Option (AckFrame × Bytes) := do
  let (largest, b) ← readVarint b
  let (delay, b) ← readVarint b
  let (count, b) ← readVarint b
  let (first, b) ← readVarint b
  if largest < first ∨ 2 ^ 16 < count then none
  else
    let smallest ← csub largest first
    let (ranges, b) ← checkedReadRanges count smallest b
    let b ← readEcn ecn b
    some (⟨delay, ⟨smallest, largest⟩, ranges⟩, b)

theorem checkedReadRanges_eq (count smallest : ℕ) (b : Bytes) :
    checkedReadRanges count smallest b = readRanges count smallest b := by
  induction count generalizing smallest b with
  | zero => rfl
  | succ count ih =>
    simp only [checkedReadRanges, readRanges]
    refine bind_congr fun ⟨gap, b₁⟩ _ => bind_congr fun ⟨length, b₂⟩ _ => ?_
    by_cases hgap : smallest < gap + 2
    · rw [if_pos hgap, if_pos (.inl hgap)]
    rw [if_neg hgap, csub_eq (by omega), bind_eq_bind, bind_some, csub_eq (by omega), bind_some]
    by_cases hlen : smallest - gap - 2 < length
    · rw [if_pos hlen, if_pos (.inr hlen)]
    · rw [if_neg hlen, if_neg (not_or.2 ⟨hgap, hlen⟩), csub_eq (by omega), bind_some, ih]

theorem checkedReadAck_eq (ecn : Bool) (b : Bytes) : checkedReadAck ecn b = readAck ecn b := by
  unfold checkedReadAck readAck
  refine bind_congr fun ⟨largest, b₁⟩ _ => bind_congr fun ⟨delay, b₂⟩ _ =>
    bind_congr fun ⟨count, b₃⟩ _ => bind_congr fun ⟨first, b₄⟩ _ => ?_
  dsimp only
  split_ifs with hbad
  · rfl
  · rw [csub_eq (by omega), bind_eq_bind, bind_some, checkedReadRanges_eq]

/-! ### Writing and reading -/

/-- Ranges from the largest down, as a frame lists them. -/
def Descending (l : List PnRange) : Prop :=
  l.Pairwise (fun a b => b.hi + 2 ≤ a.lo) ∧ ∀ a ∈ l, a.lo ≤ a.hi ∧ a.hi < 2 ^ 62

theorem descending_cons {a : PnRange} {l : List PnRange} :
    Descending (a :: l) ↔ (∀ b ∈ l, b.hi + 2 ≤ a.lo) ∧ (a.lo ≤ a.hi ∧ a.hi < 2 ^ 62) ∧ Descending l := by
  unfold Descending
  rw [pairwise_cons, forall_mem_cons]
  tauto

theorem AckSet.descending {r : List PnRange} (h : AckSet r) : Descending r.reverse := by
  refine ⟨pairwise_reverse.2 (h.asc.pairs.imp fun hab => ?_), fun a ha => ?_⟩
  · rw [stop_pnRange, start_pnRange] at hab
    omega
  · have hin := mem_reverse.1 ha
    have hlt := h.asc.inhabited a hin
    rw [start_pnRange, stop_pnRange] at hlt
    exact ⟨by omega, h.small a.hi ⟨a, hin, by rw [start_pnRange]; omega, by rw [stop_pnRange]; omega⟩⟩

def rangeBytes : ℕ → List PnRange → Bytes
  | _, [] => []
  | prev, r :: rest =>
    appendVarint [] (prev - r.hi - 2) ++ (appendVarint [] (r.hi - r.lo) ++ rangeBytes r.lo rest)

theorem foldl_rangeBytes (rest : List PnRange) (b : Bytes) (prev : ℕ) :
    (rest.foldl (fun (b, prev) r => (appendVarint (appendVarint b (prev - r.hi - 2)) (r.hi - r.lo), r.lo))
      (b, prev)).1 = b ++ rangeBytes prev rest := by
  induction rest generalizing b prev with
  | nil => rw [foldl_nil, rangeBytes, append_nil]
  | cons r rest ih =>
    rw [foldl_cons, ih, rangeBytes, appendVarint_eq, appendVarint_eq b, append_assoc, append_assoc]

variable {rest : List PnRange} {largest : PnRange}

theorem checkedRanges_eq {prev : ℕ} (h : Descending rest) (hprev : ∀ r ∈ rest, r.hi + 2 ≤ prev)
    (b : Bytes) : checkedRanges prev rest b = some (b ++ rangeBytes prev rest) := by
  induction rest generalizing prev b with
  | nil => rw [checkedRanges, rangeBytes, append_nil]
  | cons r rest ih =>
    obtain ⟨hgap, hr, hrest⟩ := descending_cons.1 h
    have hp := hprev r (mem_cons_self ..)
    rw [checkedRanges, csub_eq (by omega), bind_eq_bind, bind_some, csub_eq (by omega),
      bind_some, csub_eq hr.1, bind_some, ih hrest hgap,
      rangeBytes, appendVarint_eq, appendVarint_eq b, append_assoc, append_assoc]

theorem readRanges_rangeBytes {prev : ℕ} (h : Descending rest)
    (hprev : ∀ r ∈ rest, r.hi + 2 ≤ prev) (hsmall : prev < 2 ^ 62) (tail : Bytes) :
    readRanges rest.length prev (rangeBytes prev rest ++ tail) = some (rest, tail) := by
  induction rest generalizing prev with
  | nil => rfl
  | cons r rest ih =>
    obtain ⟨hgap, hr, hrest⟩ := descending_cons.1 h
    have hp := hprev r (mem_cons_self ..)
    have hback : prev - (prev - r.hi - 2) - 2 = r.hi := by omega
    have hlo : r.hi - (r.hi - r.lo) = r.lo := by omega
    rw [length_cons, readRanges, rangeBytes, append_assoc, readVarint_appendVarint (by omega), bind_eq_bind, bind_some]
    dsimp only
    rw [append_assoc, readVarint_appendVarint (by omega), bind_some]
    rw [if_neg (by omega), hback, hlo, ih hrest hgap (by omega)]
    rfl

def ackBody (delay : ℕ) (largest : PnRange) (rest : List PnRange) : Bytes :=
  appendVarint [] largest.hi ++ (appendVarint [] delay ++ (appendVarint [] rest.length ++
    (appendVarint [] (largest.hi - largest.lo) ++ rangeBytes largest.lo rest)))

theorem foldl_appendVarint (delay n : ℕ) (largest : PnRange) (b : Bytes) :
    [largest.hi, delay, n, largest.hi - largest.lo].foldl appendVarint b =
      b ++ (appendVarint [] largest.hi ++ (appendVarint [] delay ++ (appendVarint [] n ++
        appendVarint [] (largest.hi - largest.lo)))) := by
  simp only [foldl_cons, foldl_nil]
  rw [appendVarint_eq, appendVarint_eq (appendVarint (appendVarint b largest.hi) delay),
    appendVarint_eq (appendVarint b largest.hi), appendVarint_eq b]
  simp

def toldDelay (space : SpaceId) (s : SendSpace) : ℕ := if space = .app then s.ackDelay else 0

theorem appendAck_eq {space : SpaceId} {s : SendSpace} (h : s.recv.reverse = largest :: rest) (b : Bytes) :
    appendAck space s b = b ++ frameAck :: ackBody (toldDelay space s) largest rest := by
  simp only [appendAck, h]
  rw [foldl_appendVarint, foldl_rangeBytes, ackBody, toldDelay]
  simp

theorem checkedAck_eq {space : SpaceId} {s : SendSpace} (h : s.recv.reverse = largest :: rest)
    (hd : Descending (largest :: rest)) (b : Bytes) : checkedAck space s b = some (appendAck space s b) := by
  obtain ⟨hgap, hl, hrest⟩ := descending_cons.1 hd
  rw [appendAck_eq h]
  simp only [checkedAck, h]
  rw [csub_eq hl.1, bind_eq_bind, bind_some, checkedRanges_eq hrest hgap, foldl_appendVarint, ackBody, toldDelay]
  simp

theorem readAck_ackBody {delay : ℕ} (hdelay : delay < 2 ^ 62)
    (hd : Descending (largest :: rest)) (hlen : rest.length ≤ 2 ^ 16) (tail : Bytes) :
    readAck false (ackBody delay largest rest ++ tail) = some (⟨delay, largest, rest⟩, tail) := by
  obtain ⟨hgap, hl, hrest⟩ := descending_cons.1 hd
  have hlo : largest.hi - (largest.hi - largest.lo) = largest.lo := by omega
  rw [readAck, ackBody, append_assoc, readVarint_appendVarint hl.2, bind_eq_bind, bind_some]
  dsimp only
  rw [append_assoc, readVarint_appendVarint hdelay, bind_some]
  rw [append_assoc, readVarint_appendVarint (by omega), bind_some]
  rw [append_assoc, readVarint_appendVarint (by omega), bind_some]
  rw [if_neg (by omega), hlo, readRanges_rangeBytes hrest hgap (by omega)]
  rfl

/-! ### The delay -/

/-- `uint64(now.Sub(s.largestRecvTime).Microseconds()) >> c.local.ackDelayExponent`, of a time in nanoseconds. The
exponent this side uses is 3. -/
def delayOf (elapsed : ℤ) : ℕ := ((elapsed.tdiv 1000) % 2 ^ 64).toNat >>> 3

theorem delayOf_lt (elapsed : ℤ) : delayOf elapsed < 2 ^ 62 := by
  unfold delayOf
  rw [Nat.shiftRight_eq_div_pow]
  omega

/-- After every history of packet numbers added and forgotten the set ascends, with gaps, and holds at most 32 ranges;
what it does not take is too old for a full set, and what it takes is all that it gains; and the ACK frame written of it
is read as its ranges, from the largest down, with nothing subtracted that underflows. -/
theorem ack_ranges_exact (ops : List RangeOp) (hops : rangeMachine.Meets Numbered ops) :
    Ascending 1 (rangeMachine.run ops) ∧ (rangeMachine.run ops).length ≤ 32 ∧
    (∀ pn, (tooOld (rangeMachine.run ops) pn = true ∧ add (rangeMachine.run ops) pn = (false, rangeMachine.run ops)) ∨
      Covers (add (rangeMachine.run ops) pn).2 pn) ∧
    (∀ pn q, Covers (add (rangeMachine.run ops) pn).2 q → q = pn ∨ Covers (rangeMachine.run ops) q) ∧
    (∀ pn q, Covers (forget (rangeMachine.run ops) pn) q → Covers (rangeMachine.run ops) q) ∧
    ∀ (space : SpaceId) (s : SendSpace) (elapsed : ℤ) (tail : Bytes), s.recv = rangeMachine.run ops → s.recv ≠ [] →
      s.ackDelay = delayOf elapsed →
      ∃ body first more, checkedAck space s [] = some (frameAck :: body) ∧
        appendAck space s [] = frameAck :: body ∧
        checkedReadAck false (body ++ tail) = some (⟨toldDelay space s, first, more⟩, tail) ∧
        first :: more = (rangeMachine.run ops).reverse := by
  have hset := ackSet_run hops
  refine ⟨hset.asc, hset.few, fun pn => ?_, fun pn q => covers_of_add hset.asc,
    fun pn q => (forget_spec hset.asc pn).2.2.1 q, ?_⟩
  · by_cases hold : tooOld (rangeMachine.run ops) pn = true
    · exact .inl ⟨hold, add_of_tooOld hold⟩
    · exact .inr (covers_add hset.asc hset.few hold)
  intro space s elapsed tail hrecv hne hdelay
  obtain ⟨first, more, hrev⟩ := exists_cons_of_ne_nil (mt reverse_eq_nil_iff.1 hne)
  have hd : Descending (first :: more) := by
    rw [← hrev, hrecv]
    exact hset.descending
  have hlen : more.length ≤ 2 ^ 16 := by
    have hr := congrArg List.length hrev
    have hf := hset.few
    rw [length_reverse, length_cons, hrecv] at hr
    have hmax : maxAckRanges = 32 := rfl
    omega
  have htold : toldDelay space s < 2 ^ 62 := by
    unfold toldDelay
    split_ifs
    · rw [hdelay]
      exact delayOf_lt elapsed
    · decide
  refine ⟨ackBody (toldDelay space s) first more, first, more, ?_, appendAck_eq hrev [], ?_, by rw [← hrev, hrecv]⟩
  · rw [checkedAck_eq hrev hd, appendAck_eq hrev]
    rfl
  · rw [checkedReadAck_eq, readAck_ackBody htold hd hlen]

/-- Thirty-two numbers, each apart from the next. -/
def apart : List RangeOp := (List.range 32).map fun i => .add (2 * i + 2)

/-- The set is full, and a number below all of it is not taken. -/
theorem too_old_not_added : ¬ Covers (add (rangeMachine.run apart) 0).2 0 := by
  decide +kernel

theorem apart_numbered : rangeMachine.Meets Numbered apart := by
  have hall : ∀ (r : List PnRange) (ops : List RangeOp), (∀ op ∈ ops, Numbered [] op) →
      rangeMachine.MeetsFrom Numbered r ops := by
    intro r ops
    induction ops generalizing r with
    | nil => exact fun _ => trivial
    | cons op ops ih =>
      intro h
      exact ⟨h op (mem_cons_self ..), ih _ fun o ho => h o (mem_cons_of_mem _ ho)⟩
  apply hall
  intro op hop
  obtain ⟨i, hi, rfl⟩ := mem_map.1 hop
  have hlt := mem_range.1 hi
  simp only [Numbered]
  omega

theorem apart_read_back : ∃ body first more, appendAck .app { recv := rangeMachine.run apart } [] = frameAck :: body ∧
      checkedReadAck false body = some (⟨0, first, more⟩, []) ∧ first :: more = (rangeMachine.run apart).reverse := by
  obtain ⟨-, -, -, -, -, hframe⟩ := ack_ranges_exact apart apart_numbered
  have hne : rangeMachine.run apart ≠ [] := by
    intro hnil
    have hlen : (rangeMachine.run apart).length = 32 := by decide +kernel
    rw [hnil] at hlen
    cases hlen
  generalize rangeMachine.run apart = r at hframe hne ⊢
  obtain ⟨body, first, more, -, happend, hread, hrev⟩ := hframe .app { recv := r } 0 [] rfl hne rfl
  rw [append_nil] at hread
  exact ⟨body, first, more, happend, hread, hrev⟩

end Fib.Quic
