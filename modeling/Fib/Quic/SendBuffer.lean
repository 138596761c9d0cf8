import Fib.Lib.Bytes
import Fib.Quic.Span

/-! `sendBuffer` (http3/quic/buffer.go): what a stream has been given to send, until
the peer acknowledges it. Offsets are naturals: a stream's stay below 2^62. The pool's
buffers are values here, so `mem` is only whether a run is the pool's to take back. -/

namespace Fib.Quic
open List Or Intervals

structure SendPiece where
  off : ℕ
  data : Bytes
  mem : Bool
deriving DecidableEq

def SendPiece.end_ (p : SendPiece) : ℕ := p.off + p.data.length

structure Part where
  data : Bytes
  owned : Bool
deriving DecidableEq

structure SendBuffer where
  base : ℕ := 0
  size : ℕ := 0
  pieces : List SendPiece := []
  cur : ℕ := 0
  next : ℕ := 0
  lost : List Span := []
  acked : List Span := []
deriving DecidableEq

open SendBuffer

namespace SendBuffer
variable (b : SendBuffer)

def end_ : ℕ := b.base + b.size

def add (p : SendPiece) : SendBuffer :=
  { b with pieces := b.pieces ++ [p], size := b.size + p.data.length }

/-- Copies `p` in: into the last run where that is the pool's, else as a run of its own. -/
def write (p : Bytes) : SendBuffer :=
  if p = [] then b
  else
    match b.pieces.getLast? with
    | some t =>
      if t.mem then
        { b with pieces := b.pieces.dropLast ++ [{ t with data := t.data ++ p }],
                 size := b.size + p.length }
      else b.add ⟨b.end_, p, true⟩
    | none => b.add ⟨b.end_, p, true⟩

def adopt (p : Bytes) : SendBuffer :=
  if p = [] then b else b.add ⟨b.end_, p, true⟩

def writeParts (parts : List Part) : SendBuffer :=
  parts.foldl (fun b p => if p.data = [] then b else b.add ⟨b.end_, p.data, p.owned⟩) b

/-- `hasLost` lets go of the lost ranges below `base` before it answers. -/
def trimLost : SendBuffer :=
  { b with lost := b.lost.dropWhile fun s => s.end_ ≤ b.base }

def hasLost : Bool := !b.trimLost.lost.isEmpty

def runAt : List SendPiece → ℕ → Bytes
  | [], _ => []
  | p :: ps, off => if off < p.end_ then p.data.drop (off - p.off) else runAt ps off

/-- The loop of `popLost` over the lost ranges: the offset, the data and the ranges left. -/
def popLostFrom (b : SendBuffer) (n : ℕ) : List Span → ℕ × Bytes × List Span
  | [] => (0, [], [])
  | s :: rest =>
    if s.end_ ≤ b.base then popLostFrom b n rest
    else
      let off := max s.off b.base
      -- a range with nothing kept there is not sent again
      if runAt b.pieces off = [] then popLostFrom b n rest
      else
        let data := ((runAt b.pieces off).take n).take (s.end_ - off)
        if data = [] then popLostFrom b n rest
        else
          (off, data, if s.end_ ≤ off + data.length then rest else ⟨off + data.length, s.end_⟩ :: rest)

def popLost (n : ℕ) : (ℕ × Bytes) × SendBuffer :=
  if n = 0 then ((0, []), b)
  else
    let r := popLostFrom b n b.lost
    ((r.1, r.2.1), { b with lost := r.2.2 })

/-- Where the loop of `popNew` leaves `cur`: the first run from it on that ends past `next`. -/
def seek : ℕ :=
  b.cur + ((b.pieces.drop b.cur).takeWhile fun p => p.end_ ≤ b.next).length

def popNew (n : ℕ) : (ℕ × Bytes) × SendBuffer :=
  if b.end_ ≤ b.next ∨ n = 0 then ((b.next, []), b)
  else
    match b.pieces[b.seek]? with
    | none => ((b.next, []), { b with cur := b.seek })
    | some p =>
      let data := (p.data.drop (b.next - p.off)).take n
      ((b.next, data), { b with cur := b.seek, next := b.next + data.length })

/-- Lets go of the bytes before `off`: whole runs are dropped, the run they end in is cut. -/
def dropTo (off : ℕ) : SendBuffer :=
  let kept := b.pieces.dropWhile fun p => p.end_ ≤ off
  let cut := match kept with
    | [] => []
    | p :: ps => if p.off < off then ⟨off, p.data.drop (off - p.off), p.mem⟩ :: ps else p :: ps
  { b with
    pieces := cut
    cur := if cut = [] then 0 else b.cur - (b.pieces.length - kept.length)
    size := b.size - min (off - b.base) b.size
    base := off }

/-- The end of the acknowledged bytes that `onAck` moves `base` to, and the spans it keeps. -/
def onAckBase (off n : ℕ) : Option ℕ × List Span :=
  if b.acked = [] ∧ off ≤ b.base then (some (off + n), b.acked)
  else
    match addSpan b.acked ⟨off, off + n⟩ with
    | [] => (none, [])
    | s :: rest => if b.base < s.off then (none, s :: rest) else (some s.end_, rest)

/-- How `onAck` ends: `base` moves on to `newBase`, within what the buffer holds. -/
def advance (newBase : ℕ) : SendBuffer :=
  if min newBase b.end_ ≤ b.base then b else b.dropTo (min newBase b.end_)

def onAck (off n : ℕ) : SendBuffer :=
  match b.onAckBase off n with
  | (none, acked) => { b with acked := acked }
  | (some newBase, acked) => { b with acked := acked }.advance newBase

def onLost (off n : ℕ) : SendBuffer :=
  if off + n ≤ max off b.base then b
  else { b with lost := addSpan b.lost ⟨max off b.base, off + n⟩ }

def allAcked : Bool := b.pieces.isEmpty

end SendBuffer

/-! ### The runs of a buffer -/

/-- The runs follow one another from `o` on, and none is empty. -/
def Contig : ℕ → List SendPiece → Prop
  | _, [] => True
  | o, p :: ps => p.off = o ∧ p.data ≠ [] ∧ Contig (o + p.data.length) ps

def content (ps : List SendPiece) : Bytes := (ps.map SendPiece.data).flatten

@[simp] theorem content_nil : content [] = [] := rfl

@[simp] theorem content_cons (p : SendPiece) (ps : List SendPiece) :
    content (p :: ps) = p.data ++ content ps := by simp [content]

@[simp] theorem content_append (ps qs : List SendPiece) :
    content (ps ++ qs) = content ps ++ content qs := by simp [content]

variable {ps qs : List SendPiece}

theorem contig_append {o : ℕ} : Contig o (ps ++ qs) ↔ Contig o ps ∧ Contig (o + (content ps).length) qs := by
  induction ps generalizing o with
  | nil => simp [Contig]
  | cons p ps ih =>
    simp only [cons_append, Contig, ih, content_cons, length_append, ← Nat.add_assoc, and_assoc]

theorem Contig.eq_nil_iff {o : ℕ} (h : Contig o ps) : ps = [] ↔ content ps = [] := by
  cases ps with
  | nil => simp
  | cons p ps => simp [h.2.1]

/-- The bytes `runAt` gives for an offset within the runs: some, and those that are there. -/
theorem runAt_spec {o x : ℕ} (h : Contig o ps) (hx : o ≤ x) (hlt : x < o + (content ps).length) :
    runAt ps x ≠ [] ∧ runAt ps x <+: (content ps).drop (x - o) := by
  induction ps generalizing o with
  | nil => simp at hlt; omega
  | cons p ps ih =>
    obtain ⟨rfl, hne, hps⟩ := h
    simp only [content_cons, length_append] at hlt ⊢
    unfold runAt
    split_ifs with hin
    · simp only [SendPiece.end_] at hin
      refine ⟨by simp; omega, ?_⟩
      rw [drop_append_of_le_length (by omega)]
      exact prefix_append _ _
    simp only [SendPiece.end_] at hin
    have := ih hps (by omega) (by omega)
    rw [drop_append]
    rw [show p.data.drop (x - p.off) = [] by simp; omega, nil_append]
    rwa [show x - p.off - p.data.length = x - (p.off + p.data.length) by omega]

theorem runAt_append {x : ℕ} (h : ∀ p ∈ ps, p.end_ ≤ x) : runAt (ps ++ qs) x = runAt qs x := by
  induction ps with
  | nil => rfl
  | cons p ps ih =>
    have := h p (by simp)
    rw [cons_append, runAt, if_neg (by omega)]
    exact ih fun q hq => h q (by simp [hq])

theorem runAt_eq_of_takeWhile (ps : List SendPiece) (x : ℕ) : runAt ps x =
      match ps[(ps.takeWhile fun p => p.end_ ≤ x).length]? with
      | none => []
      | some p => p.data.drop (x - p.off) := by
  induction ps with
  | nil => rfl
  | cons p ps ih =>
    unfold runAt
    by_cases h : x < p.end_
    · simp [h]
    · simp [h, Nat.le_of_not_lt h, ih]

/-- Dropping the runs below `off` and cutting the one it falls in leaves the bytes from it on. -/
theorem contig_drop {o off : ℕ} (h : Contig o ps) (ho : o ≤ off)
    (hle : off ≤ o + (content ps).length) : ∃ cut, (match ps.dropWhile (fun p => p.end_ ≤ off) with
        | [] => []
        | p :: ps => if p.off < off then ⟨off, p.data.drop (off - p.off), p.mem⟩ :: ps else p :: ps) = cut ∧
      Contig off cut ∧ content cut = (content ps).drop (off - o) ∧
      cut.length = (ps.dropWhile fun p => p.end_ ≤ off).length ∧
      cut.map SendPiece.end_ = (ps.dropWhile fun p => p.end_ ≤ off).map SendPiece.end_ := by
  induction ps generalizing o with
  | nil => exact ⟨[], by simp, trivial, by simp, by simp, by simp⟩
  | cons p ps ih =>
    obtain ⟨rfl, hne, hps⟩ := h
    simp only [content_cons, length_append] at hle ⊢
    by_cases hp : p.end_ ≤ off
    · simp only [dropWhile_cons, hp, decide_true, if_true]
      simp only [SendPiece.end_] at hp
      obtain ⟨cut, hcut, hc, hcont, hlen, hend⟩ := ih hps hp (by omega)
      refine ⟨cut, hcut, hc, ?_, hlen, hend⟩
      rw [hcont, drop_append, show p.data.drop (off - p.off) = [] by simp; omega, nil_append]
      congr 1
      omega
    · simp only [dropWhile_cons, hp, decide_false, Bool.false_eq_true, if_false]
      simp only [SendPiece.end_] at hp
      by_cases hoff : p.off < off
      · refine ⟨_, if_pos hoff, ⟨rfl, by simp; omega, ?_⟩, ?_, by simp, ?_⟩
        · rw [length_drop]
          rwa [show off + (p.data.length - (off - p.off)) = p.off + p.data.length by omega]
        · rw [content_cons, drop_append_of_le_length (by omega)]
        · simp only [map_cons, SendPiece.end_, length_drop, cons.injEq, and_true]
          omega
      · obtain rfl : p.off = off := by omega
        exact ⟨_, if_neg (by omega), ⟨rfl, hne, hps⟩, by simp, by simp, by simp⟩

namespace SendBuffer

/-- The buffer holds what is left of `written` from `base` on, and its spans and its cursor
keep to what has been sent of it. -/
structure Holds (written : Bytes) (b : SendBuffer) : Prop where
  contig : Contig b.base b.pieces
  content : content b.pieces = written.drop b.base
  end_eq : b.end_ = written.length
  base_le : b.base ≤ b.next
  next_le : b.next ≤ written.length
  cur_le : b.cur ≤ b.pieces.length - 1
  before : ∀ p ∈ b.pieces.take b.cur, p.end_ ≤ b.next
  acked_asc : Ascending 1 b.acked
  acked_off : ∀ s ∈ b.acked, b.base < s.off
  acked_end : ∀ s ∈ b.acked, s.end_ ≤ b.next
  lost_asc : Ascending 1 b.lost
  lost_end : ∀ s ∈ b.lost, s.end_ ≤ b.next

/-- The offset is below `base` or in a span acknowledged beyond it. -/
def Acked (b : SendBuffer) (x : ℕ) : Prop := x < b.base ∨ Covers b.acked x

section
variable (b : SendBuffer)
include b

theorem onLost_same (off n : ℕ) :
    (b.onLost off n).base = b.base ∧ (b.onLost off n).next = b.next ∧ (b.onLost off n).acked = b.acked := by
  unfold onLost
  split_ifs <;> exact ⟨rfl, rfl, rfl⟩

/-- What a write leaves as it is. -/
structure SameSpans (b b' : SendBuffer) : Prop where
  base : b'.base = b.base
  next : b'.next = b.next
  lost : b'.lost = b.lost
  acked : b'.acked = b.acked

theorem sameSpans_write (p : Bytes) : SameSpans b (b.write p) := by
  fun_cases write b p <;> exact ⟨rfl, rfl, rfl, rfl⟩

theorem sameSpans_adopt (p : Bytes) : SameSpans b (b.adopt p) := by
  unfold adopt
  split_ifs <;> exact ⟨rfl, rfl, rfl, rfl⟩

theorem sameSpans_writeParts (parts : List Part) : SameSpans b (b.writeParts parts) := by
  unfold writeParts
  induction parts generalizing b with
  | nil => exact ⟨rfl, rfl, rfl, rfl⟩
  | cons p parts ih =>
    have h := ih (if p.data = [] then b else b.add ⟨b.end_, p.data, p.owned⟩)
    refine ⟨h.base.trans ?_, h.next.trans ?_, h.lost.trans ?_, h.acked.trans ?_⟩ <;> split_ifs <;> rfl

end

variable {W p : Bytes} {b : SendBuffer} {n off : ℕ} {s : Span} {l rest : List Span}
section
variable (h : Holds W b)
include h

/-- Runs after the ones there, or more bytes in the last of them, hold what is written next. -/
theorem Holds.extend {ps : List SendPiece} (hc : Contig b.base ps)
    (hcont : Fib.Quic.content ps = Fib.Quic.content b.pieces ++ p) (htake : ps.take b.cur = b.pieces.take b.cur)
    (hlen : b.pieces.length ≤ ps.length) : Holds (W ++ p) { b with pieces := ps, size := b.size + p.length } := by
  have hend : b.base + b.size = W.length := h.end_eq
  refine ⟨hc, ?_, ?_, h.base_le, ?_, ?_, ?_, h.acked_asc, h.acked_off, h.acked_end, h.lost_asc, h.lost_end⟩
  · have hle : b.base ≤ W.length := by omega
    rw [hcont, h.content, drop_append_of_le_length hle]
  · simp only [end_, length_append]; omega
  · have := h.next_le
    simp only [length_append]; omega
  · have := h.cur_le
    simp only; omega
  · simp only [htake]
    exact h.before

theorem Holds.length_content : b.base + (Fib.Quic.content b.pieces).length = b.end_ := by
  have hend : b.base + b.size = W.length := h.end_eq
  rw [h.content, length_drop, h.end_eq]
  omega

theorem Holds.add (hp : p ≠ []) (m : Bool) : Holds (W ++ p) (b.add ⟨b.end_, p, m⟩) := by
  have hcur := h.cur_le
  refine h.extend (contig_append.2 ⟨h.contig, h.length_content.symm, hp, trivial⟩) (by simp) ?_ (by simp)
  exact take_append_of_le_length (by omega)

theorem Holds.write (p : Bytes) : Holds (W ++ p) (b.write p) := by
  unfold SendBuffer.write
  by_cases hp : p = []
  · rw [if_pos hp, hp, append_nil]; exact h
  rw [if_neg hp]
  split
  · rename_i t ht
    split_ifs with hm
    · obtain ⟨ps, hps⟩ := getLast?_eq_some_iff.1 ht
      have hc := h.contig
      have hcur := h.cur_le
      rw [hps] at hc hcur
      obtain ⟨hc, ho, hne, -⟩ := contig_append.1 hc
      simp only [hps, dropLast_concat, length_append, length_singleton] at hcur ⊢
      refine h.extend (contig_append.2 ⟨hc, ho, by simp [hp], trivial⟩) (by simp [hps]) ?_ (by simp [hps])
      rw [hps, take_append_of_le_length (by omega), take_append_of_le_length (by omega)]
    · exact h.add hp true
  · exact h.add hp true

theorem Holds.adopt (p : Bytes) : Holds (W ++ p) (b.adopt p) := by
  unfold SendBuffer.adopt
  split_ifs with hp
  · rw [hp, append_nil]; exact h
  · exact h.add hp true

theorem Holds.writeParts (parts : List Part) : Holds (W ++ (parts.map Part.data).flatten) (b.writeParts parts) := by
  induction parts generalizing W b with
  | nil => simpa [writeParts] using h
  | cons p parts ih =>
    rw [map_cons, flatten_cons, ← append_assoc]
    refine ih (b := if p.data = [] then b else b.add ⟨b.end_, p.data, p.owned⟩) ?_
    split_ifs with hp
    · rw [hp, append_nil]; exact h
    · exact h.add hp _

theorem Holds.runAt {x : ℕ} (hx : b.base ≤ x)
    (hlt : x < W.length) : runAt b.pieces x ≠ [] ∧ runAt b.pieces x <+: W.drop x := by
  have hlen := h.length_content
  rw [h.end_eq] at hlen
  have hr := runAt_spec h.contig hx (by omega)
  rwa [h.content, drop_drop, show b.base + (x - b.base) = x by omega] at hr

theorem Holds.trimLost : Holds W b.trimLost :=
  { h with lost_asc := (h.lost_asc.cut _).2.1, lost_end := fun s hs => h.lost_end s ((dropWhile_sublist _).subset hs) }

end

theorem covers_trimLost (b : SendBuffer) {x : ℕ} (hx : Covers b.lost x) : x < b.base ∨ Covers b.trimLost.lost x := by
  rw [covers_cut b.lost fun s => s.end_ ≤ b.base] at hx
  rcases hx with ⟨s, hs, -, hlt⟩ | hx
  · have : s.end_ ≤ b.base := by simpa using mem_takeWhile_imp hs
    simp only [stop_span] at hlt
    exact inl (by omega)
  · exact inr hx

theorem Holds.popNew (h : Holds W b) (n : ℕ) : ∃ data c, (b.popNew n).1 = (b.next, data) ∧
      (b.popNew n).2 = { b with cur := c, next := b.next + data.length } ∧
      data <+: W.drop b.next ∧ Holds W (b.popNew n).2 := by
  unfold SendBuffer.popNew
  split_ifs with hn
  · exact ⟨[], b.cur, rfl, rfl, nil_prefix, h⟩
  obtain ⟨hlt, -⟩ := not_or.1 hn
  have hlt' : b.next < W.length := by rw [← h.end_eq]; omega
  obtain ⟨hne, hpre⟩ := h.runAt h.base_le hlt'
  -- the runs before `cur` end at or before `next`, so the search from `cur` is the search from the start
  have hrun : SendBuffer.runAt b.pieces b.next =
      match b.pieces[b.seek]? with
      | none => []
      | some p => p.data.drop (b.next - p.off) := by
    conv_lhs => rw [← take_append_drop b.cur b.pieces]
    rw [runAt_append h.before, runAt_eq_of_takeWhile, List.getElem?_drop]
    rfl
  cases hp : b.pieces[b.seek]? with
  | none => simp [hp] at hrun; exact absurd hrun hne
  | some p =>
    simp only [hp] at hrun
    rw [hrun] at hpre hne
    have hdata : (p.data.drop (b.next - p.off)).take n <+: W.drop b.next :=
      ( take_prefix _ _).trans hpre
    have hlen := hdata.length_le
    rw [length_drop] at hlen
    have hseek : b.seek < b.pieces.length := (List.getElem?_eq_some_iff.1 hp).1
    refine ⟨_, b.seek, rfl, rfl, hdata, h.contig, h.content, h.end_eq, ?_, ?_, ?_, fun q hq => ?_, h.acked_asc,
      h.acked_off, fun s hs => ?_, h.lost_asc, fun s hs => ?_⟩
    · have := h.base_le
      simp only; omega
    · simp only; omega
    · simp only; omega
    · have hq' : q.end_ ≤ b.next := by
        simp only [seek, take_add, mem_append] at hq
        rcases hq with hq | hq
        · exact h.before q hq
        · rw [← prefix_iff_eq_take.1 ( takeWhile_prefix _)] at hq
          simpa using mem_takeWhile_imp hq
      simp only; omega
    · have := h.acked_end s hs
      simp only; omega
    · have := h.lost_end s hs
      simp only; omega

/-- What `popLost` leaves of the lost ranges once it has taken `data` at `off`. -/
structure Taken (b : SendBuffer) (W : Bytes) (n : ℕ) (l : List Span) (r : ℕ × Bytes × List Span) : Prop where
  asc : Ascending 1 r.2.2
  end_le : ∀ s ∈ r.2.2, s.end_ ≤ b.next
  within : r.2.1 = [] ∨ r.1 + r.2.1.length ≤ b.next
  data : r.2.1 <+: W.drop r.1
  short : r.2.1.length ≤ n
  sub : ∀ x, Covers r.2.2 x → Covers l x
  kept : ∀ x, Covers l x → x < b.base ∨ (r.1 ≤ x ∧ x < r.1 + r.2.1.length) ∨ Covers r.2.2 x

theorem Taken.skip {r : ℕ × Bytes × List Span} (ht : Taken b W n l r) (hs : s.end_ ≤ b.base) :
    Taken b W n (s :: l) r := by
  refine { ht with sub := fun x hx => (covers_cons s l x).2 (inr (ht.sub x hx)), kept := fun x hx => ?_ }
  rcases (covers_cons s l x).1 hx with hx | hx
  · simp only [stop_span] at hx
    exact inl (by omega)
  · exact ht.kept x hx

theorem Holds.popLostFrom (h : Holds W b) (hn : n ≠ 0)
    (hl : Ascending 1 l) (hle : ∀ s ∈ l, s.end_ ≤ b.next) : Taken b W n l (popLostFrom b n l) := by
  induction l with
  | nil => exact ⟨Ascending.nil 1, by simp [SendBuffer.popLostFrom], inl rfl, nil_prefix,
      Nat.zero_le _, fun _ hx => hx, by simp⟩
  | cons s rest ih =>
    obtain ⟨hs, hgap, hrest⟩ := (ascending_cons 1 s rest).1 hl
    simp only [start_span, stop_span] at hs hgap
    have hsn := hle s (by simp)
    have hi := ih hrest fun q hq => hle q (by simp [hq])
    dsimp only [SendBuffer.popLostFrom]
    by_cases hb : s.end_ ≤ b.base
    · rw [if_pos hb]
      exact hi.skip hb
    have hlt : max s.off b.base < W.length := by
      have := h.next_le
      omega
    obtain ⟨hne, hpre⟩ := h.runAt (by omega) hlt
    have hpos := length_pos_iff.2 hne
    rw [if_neg hb, if_neg hne]
    generalize hd : ((SendBuffer.runAt b.pieces (max s.off b.base)).take n).take (s.end_ - max s.off b.base) = data
    have hdl : data.length ≤ s.end_ - max s.off b.base := by rw [← hd]; exact length_take_le _ _
    have hdn : data.length ≤ n := by rw [← hd, length_take, length_take]; omega
    have hdp : 0 < data.length := by
      rw [← hd, length_take, length_take]; omega
    have hdw : data <+: W.drop (max s.off b.base) := by
      rw [← hd]
      exact (( take_prefix _ _).trans ( take_prefix _ _)).trans hpre
    rw [if_neg (length_pos_iff.1 hdp)]
    by_cases hall : s.end_ ≤ max s.off b.base + data.length
    · simp only [if_pos hall]
      refine ⟨hrest, fun q hq => hle q (by simp [hq]), inr (by simp only; omega), hdw, hdn,
        fun x hx => (covers_cons s rest x).2 (inr hx), fun x hx => ?_⟩
      rcases (covers_cons s rest x).1 hx with hx | hx
      · simp only [start_span, stop_span] at hx ⊢
        omega
      · exact inr (inr hx)
    · simp only [if_neg hall]
      refine ⟨(ascending_cons 1 _ rest).2 ⟨by simp only [start_span, stop_span]; omega, hgap, hrest⟩,
        fun q hq => ?_, inr (by simp only; omega), hdw, hdn, fun x hx => ?_, fun x hx => ?_⟩
      · rcases mem_cons.1 hq with rfl | hq
        · exact hsn
        · exact hle q (by simp [hq])
      · rw [covers_cons] at hx ⊢
        refine hx.imp_left fun hx => ?_
        simp only [start_span, stop_span] at hx ⊢
        omega
      rw [covers_cons] at hx ⊢
      rcases hx with hx | hx
      · simp only [start_span, stop_span] at hx ⊢
        omega
      · exact inr (inr (inr hx))

theorem Holds.popLost (h : Holds W b) (n : ℕ) :
    ∃ off data l, b.popLost n = ((off, data), { b with lost := l }) ∧ Taken b W n b.lost (off, data, l) := by
  unfold SendBuffer.popLost
  split_ifs with hn
  · exact ⟨0, [], b.lost, rfl, h.lost_asc, h.lost_end, inl rfl, nil_prefix, Nat.zero_le _,
      fun _ hx => hx, fun _ hx => inr (inr hx)⟩
  · exact ⟨_, _, _, rfl, h.popLostFrom hn h.lost_asc h.lost_end⟩

theorem Holds.popLost_head (h : Holds W b)
    (hl : b.lost = s :: rest) (hs : b.base < s.end_) (hn : n ≠ 0) : ∃ data, data ≠ [] ∧ data.length =
        min (min n (SendBuffer.runAt b.pieces (max s.off b.base)).length) (s.end_ - max s.off b.base) ∧
      b.popLost n = ((max s.off b.base, data), { b with
        lost := if s.end_ ≤ max s.off b.base + data.length then rest
          else ⟨max s.off b.base + data.length, s.end_⟩ :: rest }) := by
  have hasc := h.lost_asc
  rw [hl] at hasc
  have hs' := ((ascending_cons 1 s rest).1 hasc).1
  simp only [start_span, stop_span] at hs'
  have hend := h.lost_end s (by simp [hl])
  have hnext := h.next_le
  obtain ⟨hne, -⟩ := h.runAt (x := max s.off b.base) (by omega) (by omega)
  have hpos := length_pos_iff.2 hne
  have hdata : ((SendBuffer.runAt b.pieces (max s.off b.base)).take n).take (s.end_ - max s.off b.base) ≠ [] := by
    rw [← length_pos_iff, length_take, length_take]
    omega
  refine ⟨_, hdata, ?_, ?_⟩
  · rw [length_take, length_take]
    omega
  · unfold SendBuffer.popLost
    rw [if_neg hn, hl, SendBuffer.popLostFrom, if_neg (by omega)]
    rw [if_neg hne, if_neg hdata]

theorem base_lt_of_trimLost (h : b.trimLost.lost = s :: rest) : b.base < s.end_ := by
  have hhead := head?_dropWhile_not (fun s : Span => decide (s.end_ ≤ b.base)) b.lost
  unfold trimLost at h
  dsimp only at h
  rw [h] at hhead
  simpa using hhead

theorem popNew_short (b : SendBuffer) (n : ℕ) : (b.popNew n).1.1 = b.next ∧ (b.popNew n).1.2.length ≤ n := by
  unfold popNew
  split_ifs
  · exact ⟨rfl, Nat.zero_le _⟩
  · split
    · exact ⟨rfl, Nat.zero_le _⟩
    · exact ⟨rfl, length_take_le _ _⟩

section
variable (h : Holds W b)
include h

theorem Holds.lost (hl : Ascending 1 l) (hle : ∀ s ∈ l, s.end_ ≤ b.next) : Holds W { b with lost := l } :=
  { h with lost_asc := hl, lost_end := hle }

theorem Holds.popLost_holds (n : ℕ) : Holds W (b.popLost n).2 := by
  obtain ⟨off, data, l, he, ht⟩ := h.popLost n
  rw [he]
  exact h.lost ht.asc ht.end_le

theorem Holds.onLost (hn : n = 0 ∨ off + n ≤ b.next) : Holds W (b.onLost off n) ∧
      ∀ x, Covers (b.onLost off n).lost x ↔ Covers b.lost x ∨ (b.base ≤ x ∧ off ≤ x ∧ x < off + n) := by
  unfold SendBuffer.onLost
  split_ifs with he
  · refine ⟨h, fun x => ?_⟩
    rw [or_iff_left]
    omega
  obtain ⟨hasc, hcov⟩ := addSpan_spec h.lost_asc ⟨max off b.base, off + n⟩
  refine ⟨h.lost hasc (end_le_of_addSpan h.lost_asc (by simp only; omega) h.lost_end), fun x => ?_⟩
  simp only [hcov x]
  refine or_congr_right ?_
  omega

theorem Holds.dropTo (hb : b.base ≤ off)
    (hn : off ≤ b.next) (ha : ∀ s ∈ b.acked, off < s.off) : Holds W (b.dropTo off) := by
  have hend : b.base + b.size = W.length := h.end_eq
  have hnl := h.next_le
  have hcontent := h.length_content
  obtain ⟨cut, hcut, hc, hcont, hlen, hends⟩ :=
    contig_drop h.contig hb (by rw [hcontent, h.end_eq]; omega)
  unfold SendBuffer.dropTo
  simp only [hcut]
  -- the runs kept are those after the `d` dropped ones
  obtain ⟨d, hd, hkept⟩ : ∃ d, d = b.pieces.length - (b.pieces.dropWhile fun p => p.end_ ≤ off).length ∧
      (b.pieces.dropWhile fun p => p.end_ ≤ off) = b.pieces.drop d := by
    refine ⟨_, rfl, suffix_iff_eq_drop.1 (dropWhile_suffix _)⟩
  rw [← hd]
  have hkl : (b.pieces.drop d).length = b.pieces.length - d := length_drop
  rw [hkept] at hlen hends
  have hcur := h.cur_le
  refine ⟨hc, ?_, ?_, hn, hnl, ?_, fun p hp => ?_, h.acked_asc, ha, h.acked_end, h.lost_asc, h.lost_end⟩
  · rw [hcont, h.content, drop_drop, show b.base + (off - b.base) = off by omega]
  · simp only [end_]; omega
  · simp only
    split_ifs with he
    · omega
    · omega
  split_ifs at hp with he
  · simp at hp
  have hmem : p.end_ ∈ ((b.pieces.drop d).take (b.cur - d)).map SendPiece.end_ := by
    rw [map_take, ← hends, ← map_take]
    exact mem_map_of_mem hp
  obtain ⟨q, hq, hqe⟩ := mem_map.1 hmem
  rw [← hqe]
  refine h.before q ?_
  rw [← drop_take] at hq
  exact mem_of_mem_drop hq

theorem Holds.acked (hl : Ascending 1 l)
    (hoff : ∀ s ∈ l, b.base < s.off) (hle : ∀ s ∈ l, s.end_ ≤ b.next) : Holds W { b with acked := l } :=
  { h with acked_asc := hl, acked_off := hoff, acked_end := hle }

theorem Holds.advance {newBase : ℕ}
    (hn : newBase ≤ b.next) (hl : Ascending 1 l) (hoff : ∀ s ∈ l, max b.base newBase < s.off)
    (hle : ∀ s ∈ l, s.end_ ≤ b.next) :
    ∃ b', { b with acked := l }.advance newBase = b' ∧ Holds W b' ∧ b'.base = max b.base newBase ∧
      b'.acked = l ∧ b'.next = b.next ∧ b'.lost = b.lost := by
  have hnl := h.next_le
  have h1 : Holds W { b with acked := l } :=
    h.acked hl (fun s hs => by have := hoff s hs; omega) hle
  have hmin : min newBase ({ b with acked := l } : SendBuffer).end_ = newBase := by
    have : ({ b with acked := l } : SendBuffer).end_ = W.length := h1.end_eq
    omega
  unfold SendBuffer.advance
  rw [hmin]
  by_cases hbase : newBase ≤ b.base
  · exact ⟨_, if_pos hbase, h1, by simp only; omega, rfl, rfl, rfl⟩
  · refine ⟨_, if_neg hbase, h1.dropTo (by simp only; omega) hn (fun s hs => ?_), ?_, rfl, rfl, rfl⟩
    · have := hoff s hs
      omega
    · simp only [SendBuffer.dropTo]; omega

theorem Holds.onAck_zero (off : ℕ) : b.onAck off 0 = b := by
  have hadd : addSpan b.acked ⟨off, off + 0⟩ = b.acked := if_pos (Nat.le_refl _)
  unfold onAck onAckBase
  rw [hadd]
  split_ifs with hfast
  · have hle : min off b.end_ ≤ b.base := by omega
    exact if_pos hle
  cases hb : b.acked with
  | nil => simp [← hb]
  | cons s rest =>
    have := h.acked_off s (by simp [hb])
    simp [this, ← hb]

end

/-- What an acknowledgement of sent bytes leaves. -/
structure AckedTo (W : Bytes) (b : SendBuffer) (off n : ℕ) (b' : SendBuffer) : Prop where
  holds : Holds W b'
  next : b'.next = b.next
  lost : b'.lost = b.lost
  acked : ∀ x, b'.Acked x ↔ b.Acked x ∨ (off ≤ x ∧ x < off + n)

theorem Holds.onAck (h : Holds W b) (hn : n = 0 ∨ off + n ≤ b.next) : AckedTo W b off n (b.onAck off n) := by
  rcases Nat.eq_zero_or_pos n with rfl | hpos
  · rw [h.onAck_zero]
    exact ⟨h, rfl, rfl, fun x => by rw [or_iff_left]; omega⟩
  replace hn : off + n ≤ b.next := by omega
  unfold SendBuffer.onAck onAckBase
  split_ifs with hfast
  · obtain ⟨ha, hoff⟩ := hfast
    obtain ⟨b', he, hH, hb, hac, hnx, hlo⟩ := h.advance hn h.acked_asc (by simp [ha]) h.acked_end
    dsimp only
    rw [he]
    refine ⟨hH, hnx, hlo, fun x => ?_⟩
    simp only [Acked, hb, hac, ha, covers_nil, or_false]
    omega
  · obtain ⟨hasc, hcov⟩ := addSpan_spec h.acked_asc ⟨off, off + n⟩
    have hends := end_le_of_addSpan h.acked_asc (s := ⟨off, off + n⟩) hn h.acked_end
    have hhead := @addSpan_head _ ⟨off, off + n⟩ h.acked_asc
    cases hs : addSpan b.acked ⟨off, off + n⟩ with
    | nil => exact absurd hs (addSpan_ne_nil (by simp only; omega))
    | cons s rest =>
      rw [hs] at hasc hcov hends
      obtain ⟨hlt, hgap, hrest⟩ := (ascending_cons 1 s rest).1 hasc
      simp only [start_span, stop_span] at hlt hgap
      by_cases hb : b.base < s.off
      · simp only [if_pos hb]
        refine ⟨h.acked hasc (fun q hq => ?_) hends, rfl, rfl, fun x => ?_⟩
        · rcases mem_cons.1 hq with rfl | hq
          · exact hb
          · have := hgap q hq
            omega
        · simp only [Acked, hcov x, or_assoc]
      · -- the span that reaches `base` is the one added to, so those after it were there before
        have hsub : rest ⊆ b.acked := by
          rcases hhead hs with hin | hsub
          · exact absurd (h.acked_off s hin) hb
          · exact hsub
        obtain ⟨b', he, hH, hbase, hac, hnx, hlo⟩ := h.advance (hends s (by simp)) hrest
          (fun q hq => by have := h.acked_off q (hsub hq); have := hgap q hq; omega)
          fun q hq => hends q (by simp [hq])
        simp only [if_neg hb, he]
        refine ⟨hH, hnx, hlo, fun x => ?_⟩
        have hx := hcov x
        simp only [covers_cons, start_span, stop_span] at hx
        simp only [Acked, hbase, hac, or_assoc, ← hx]
        by_cases hr : Covers rest x
        · simp only [hr, or_true]
        · simp only [hr, or_false]; omega

end SendBuffer
end Fib.Quic
