import Fib.Lib.Bytes
import Fib.Lib.Intervals

/-! `recvBuffer` (http3/quic/buffer.go): a stream reassembled from frames that arrive out of
order, overlap or repeat. -/

namespace Fib.Quic
open List Or Intervals

structure Segment where
  off : ℕ
  data : Bytes
deriving DecidableEq

open Segment

def Segment.end_ (s : Segment) : ℕ := s.off + s.data.length

instance : Interval Segment := ⟨off, end_⟩

@[simp] theorem start_segment (s : Segment) : start s = s.off := rfl
@[simp] theorem stop_segment (s : Segment) : stop s = s.off + s.data.length := rfl

def minRecvSegments : ℕ := 1024

def recvSegmentLimit (window : ℕ) : ℕ := min (max (window >>> 9) minRecvSegments) (1 <<< 20)

structure RecvBuffer where
  offset : ℕ := 0
  segments : List Segment := []
  buffered : ℤ := 0
deriving DecidableEq

namespace RecvBuffer
section
variable (r : RecvBuffer) (off : ℕ) (data : Bytes) (limit : ℕ)

def held (segs : List Segment) : ℤ := (segs.map fun s => (s.data.length : ℤ)).sum

/-- The data up to where the segment after it starts, which has the bytes from there on. -/
def trim : List Segment → Bytes
  | [] => data
  | t :: _ => if t.off < off + data.length then data.take (t.off - off) else data

def continues (before : List Segment) (off : ℕ) : Bool := before.getLast?.any fun p => p.end_ = off

/-- The segments with `data` between `before` and `rest`, added to the segment it continues. -/
def splice (before : List Segment) (off : ℕ) (data : Bytes) (rest : List Segment) : List Segment :=
  match before.getLast? with
  | none => ⟨off, data⟩ :: rest
  | some p =>
    if p.end_ = off then before.dropLast ++ ⟨p.off, p.data ++ data⟩ :: rest else before ++ ⟨off, data⟩ :: rest

/-- The end of `push`: `data` goes between the segments `before` it and those `after`, of which
the ones it covers whole give way. -/
def place (before : List Segment) (off : ℕ) (data : Bytes) (after : List Segment) (limit : ℕ) : Bool × RecvBuffer :=
  let covered := after.takeWhile fun s => s.end_ ≤ off + data.length
  let rest := after.dropWhile fun s => s.end_ ≤ off + data.length
  let data := trim off data rest
  if data = [] then (true, r)
  else if continues before off ∨ covered ≠ [] ∨ r.segments.length < limit then
    (true, { r with segments := splice before off data rest
                    buffered := r.buffered - held covered + data.length })
  else (false, r)

/-- `push` once the data starts at or past `offset`. -/
def store : Bool × RecvBuffer :=
  let before := r.segments.takeWhile fun s => s.end_ ≤ off
  match r.segments.dropWhile fun s => s.end_ ≤ off with
  | [] => r.place before off data [] limit
  | s :: after =>
    if s.off ≤ off then
      -- it starts inside a segment, which has those bytes already
      if off + data.length ≤ s.end_ then (true, r)
      else r.place (before ++ [s]) s.end_ (data.drop (s.end_ - off)) after limit
    else r.place before off data (s :: after) limit

def push : Bool × RecvBuffer :=
  if off + data.length ≤ r.offset ∨ data = [] then (true, r)
  else if off < r.offset then r.store r.offset (data.drop (r.offset - off)) limit
  else r.store off data limit

def take : Option Bytes × Bool × RecvBuffer :=
  if r.segments ≠ [] ∨ r.offset < off then (none, r.push off data limit)
  else if off + data.length ≤ r.offset then (none, true, r)
  else (some (data.drop (r.offset - off)), true, { r with offset := off + data.length })

def pop : Option Bytes × RecvBuffer :=
  match r.segments with
  | [] => (none, r)
  | s :: rest =>
    if r.offset < s.off then (none, r)
    else
      (some (s.data.drop (r.offset - s.off)),
        { offset := s.end_, segments := rest, buffered := r.buffered - s.data.length })

/-- The segments ascend, hold nothing delivered, and are what `buffered` counts. -/
structure Ordered (r : RecvBuffer) : Prop where
  asc : Ascending 0 r.segments
  above : ∀ s ∈ r.segments, r.offset ≤ s.off
  held : r.buffered = held r.segments

/-- The segments hold bytes of `S`. -/
def Agrees (S : Bytes) (segs : List Segment) : Prop := ∀ s ∈ segs, s.data <+: S.drop s.off

/-- What storing `data` at `off` makes of the buffer. -/
structure Stored (r : RecvBuffer) (off : ℕ) (data : Bytes) (r' : RecvBuffer) : Prop where
  ordered : Ordered r'
  offset : r'.offset = r.offset
  covers : ∀ x, Covers r'.segments x ↔
    Covers r.segments x ∨ (r.offset ≤ x ∧ off ≤ x ∧ x < off + data.length)
  agrees : ∀ S, Agrees S r.segments → data <+: S.drop off → Agrees S r'.segments

/-- The data was stored, or it would have made more than `limit` segments and nothing changed. -/
def StoredOr (q : Bool × RecvBuffer) : Prop :=
  (q.1 = true ∧ Stored r off data q.2) ∨ (q = (false, r) ∧ limit ≤ r.segments.length)

end

@[simp] theorem held_nil : held [] = 0 := rfl

@[simp] theorem held_cons (s : Segment) (l : List Segment) : held (s :: l) = s.data.length + held l := by
  simp [held]

@[simp] theorem held_append (l m : List Segment) : held (l ++ m) = held l + held m := by simp [held]

/-- What is left of the data once the segments after it keep theirs. -/
structure Trimmed (off : ℕ) (data : Bytes) (rest : List Segment) (d : Bytes) : Prop where
  pre : d <+: data
  below : ∀ s ∈ rest, off + d.length ≤ s.off
  reach : ∀ e, e ≤ off + data.length → (∀ s ∈ rest, e ≤ s.off) → e ≤ off + d.length
  cut : ∀ x, off + d.length ≤ x → x < off + data.length → Covers rest x

variable {off limit : ℕ} {data : Bytes} {rest before : List Segment} {r : RecvBuffer}

theorem trim_spec (hr : Ascending 0 rest) (hoff : ∀ s ∈ rest, off ≤ s.off)
    (hend : ∀ s ∈ rest, off + data.length < s.end_) : Trimmed off data rest (trim off data rest) := by
  cases rest with
  | nil => exact ⟨prefix_rfl, by simp, fun e he _ => he, fun x h1 h2 => by simp only [trim] at h1; omega⟩
  | cons t rest =>
    obtain ⟨-, hrest, -⟩ := (ascending_cons 0 t rest).1 hr
    have ht := hoff t (by simp)
    have hte := hend t (by simp)
    simp only [end_] at hte
    simp only [stop_segment, start_segment] at hrest
    dsimp only [trim]
    split_ifs with h
    · have hlen : (data.take (t.off - off)).length = t.off - off := by
        rw [length_take]; omega
      refine ⟨ take_prefix _ _, fun s hs => ?_, fun e he hall => ?_, fun x h1 h2 => ?_⟩
      · rw [hlen]
        rcases mem_cons.1 hs with rfl | hs
        · omega
        · have := hrest s hs
          omega
      · have := hall t (by simp)
        omega
      · rw [hlen] at h1
        refine (covers_cons t rest x).2 (inl ?_)
        simp only [start_segment, stop_segment]
        omega
    · refine ⟨prefix_rfl, fun s hs => ?_, fun e he _ => he, fun x h1 h2 => by omega⟩
      rcases mem_cons.1 hs with rfl | hs
      · omega
      · have := hrest s hs
        omega

/-- What `splice` makes of segments below and above the data. -/
structure Spliced (before : List Segment) (off : ℕ) (data : Bytes) (rest l : List Segment) : Prop where
  asc : Ascending 0 l
  held : held l = held before + data.length + held rest
  covers : ∀ x, Covers l x ↔ Covers before x ∨ (off ≤ x ∧ x < off + data.length) ∨ Covers rest x
  agrees : ∀ S, Agrees S before → Agrees S rest → data <+: S.drop off → Agrees S l
  above : ∀ o, o ≤ off → (∀ s ∈ before, o ≤ s.off) → (∀ s ∈ rest, o ≤ s.off) → ∀ s ∈ l, o ≤ s.off

section
variable (hb : Ascending 0 before) (hr : Ascending 0 rest) (hd : data ≠ []) (hbo : ∀ s ∈ before, s.end_ ≤ off)
  (hro : ∀ s ∈ rest, off + data.length ≤ s.off)
include hb hr hd hbo hro

theorem spliced_between : Spliced before off data rest (before ++ ⟨off, data⟩ :: rest) where
  asc := hb.between hr (by simp [length_pos_iff.2 hd]) hbo hro
  held := by simp [add_assoc]
  covers x := by simp
  agrees S hB hR hD := by
    simp only [Agrees, mem_append, mem_cons]
    rintro s (hs | rfl | hs)
    · exact hB s hs
    · exact hD
    · exact hR s hs
  above o ho hB hR := by
    simp only [mem_append, mem_cons]
    rintro s (hs | rfl | hs)
    · exact hB s hs
    · exact ho
    · exact hR s hs

theorem splice_spec : Spliced before off data rest (splice before off data rest) := by
  unfold splice
  split
  · rename_i hn
    obtain rfl := List.getLast?_eq_none_iff.1 hn
    exact spliced_between hb hr hd hbo hro
  rename_i p hp
  obtain ⟨init, rfl⟩ := List.getLast?_eq_some_iff.1 hp
  split_ifs with hoff
  · rw [dropLast_concat]
    obtain ⟨hi, hps, hip⟩ := (ascending_append 0 init [p]).1 hb
    simp only [mem_singleton, forall_eq, stop_segment, start_segment] at hip
    have hpl : p.off + p.data.length = off := hoff
    have hp0 : p.off < p.off + p.data.length := hps.inhabited p (by simp)
    -- the last segment and the data together are one segment after `init`
    have hsp : Spliced init p.off (p.data ++ data) rest (init ++ ⟨p.off, p.data ++ data⟩ :: rest) := by
      refine spliced_between hi hr (by simp [hd]) hip fun s hs => ?_
      have := hro s hs
      rw [length_append]; omega
    refine ⟨hsp.asc, ?_, fun x => ?_, fun S hB hR hD => ?_, fun o ho hB hR => ?_⟩
    · rw [hsp.held]
      simp only [length_append, held_append, held_cons, held_nil]
      push_cast
      ring
    · rw [hsp.covers x]
      simp only [covers_append, covers_cons, covers_nil, or_false, start_segment, stop_segment, length_append]
      by_cases hc : Covers init x ∨ Covers rest x
      · tauto
      · obtain ⟨h1, h2⟩ := not_or.1 hc
        simp only [h1, h2, false_or, or_false]
        omega
    · have hpS : p.data <+: S.drop p.off := hB p (by simp)
      refine hsp.agrees S (fun s hs => hB s (by simp [hs])) hR (prefix_drop_concat hpS ?_)
      rwa [hpl]
    · exact hsp.above o (hB p (by simp)) (fun s hs => hB s (by simp [hs])) hR
  · exact spliced_between hb hr hd hbo hro

end

variable {after l : List Segment}

theorem lt_end_of_dropWhile (h : Ascending 0 l) (x : ℕ) : ∀ s ∈ l.dropWhile (fun s => s.end_ ≤ x), x < s.end_ := by
  have := h.le_stop_of_dropWhile (x + 1)
  simp only [Nat.lt_succ_iff, Nat.succ_le_iff] at this
  exact this

theorem end_le_of_takeWhile {x : ℕ} : ∀ s ∈ l.takeWhile (fun s => s.end_ ≤ x), s.end_ ≤ x := fun s hs => by
  simpa using mem_takeWhile_imp hs

theorem Ordered.stored_self (h : Ordered r)
    (hc : ∀ x, r.offset ≤ x → off ≤ x → x < off + data.length → Covers r.segments x) : Stored r off data r where
  ordered := h
  offset := rfl
  covers x := ⟨inl, fun hx => hx.elim id fun ⟨h1, h2, h3⟩ => hc x h1 h2 h3⟩
  agrees _ hS _ := hS

theorem place_spec (h : Ordered r) (data : Bytes)
    (hs : r.segments = before ++ after) (hb : ∀ s ∈ before, s.end_ ≤ off) (ha : ∀ s ∈ after, off ≤ s.off)
    (ho : r.offset ≤ off) (limit : ℕ) : StoredOr r off data limit (r.place before off data after limit) := by
  obtain ⟨hB, hA, -⟩ := (ascending_append 0 before after).1 (hs ▸ h.asc)
  obtain ⟨hC, hR, hCR⟩ := hA.cut fun s => s.end_ ≤ off + data.length
  have htr := trim_spec hR (fun s hs => ha s ((dropWhile_sublist _).subset hs))
    (lt_end_of_dropWhile hA (off + data.length))
  unfold place
  set covered := after.takeWhile fun s => s.end_ ≤ off + data.length with hcov
  set rest := after.dropWhile fun s => s.end_ ≤ off + data.length with hrest
  have hsegs : ∀ x, Covers r.segments x ↔ Covers before x ∨ Covers covered x ∨ Covers rest x := fun x => by
    rw [hs, covers_append, ← covers_append covered rest, hcov, hrest, takeWhile_append_dropWhile]
  by_cases hd : trim off data rest = []
  · rw [if_pos hd]
    refine inl ⟨rfl, h.stored_self fun x _ h2 h3 => ?_⟩
    rw [hd] at htr
    exact (hsegs x).2 (inr (inr (htr.cut x h2 h3)))
  rw [if_neg hd]
  by_cases hgo : continues before off ∨ covered ≠ [] ∨ r.segments.length < limit
  · rw [if_pos hgo]
    have hsp := splice_spec hB hR hd hb htr.below
    have hcin : ∀ x, Covers covered x → off ≤ x ∧ x < off + (trim off data rest).length := by
      rintro x ⟨s, hs, h1, h2⟩
      have hso := ha s ((takeWhile_sublist _).subset hs)
      have hse := htr.reach (s.off + s.data.length) (end_le_of_takeWhile s hs) (hCR s hs)
      simp only [start_segment, stop_segment] at h1 h2
      omega
    refine inl ⟨rfl, ⟨hsp.asc, ?_, ?_⟩, rfl, fun x => ?_, fun S hS hdS => ?_⟩
    · refine hsp.above r.offset ho (fun s hs' => h.above s ?_) fun s hs' => h.above s ?_
      · simp [hs, hs']
      · simp [hs, (dropWhile_sublist _).subset hs']
    · have hheld : held after = held covered + held rest := by
        rw [← held_append, hcov, hrest, takeWhile_append_dropWhile]
      have := h.held
      rw [hs, held_append, hheld] at this
      rw [hsp.held, this]
      ring
    · have hpre := htr.pre.length_le
      rw [hsp.covers x, hsegs x]
      constructor
      · rintro (hx | hx | hx)
        · exact inl (inl hx)
        · exact inr (by omega)
        · exact inl (inr (inr hx))
      rintro ((hx | hx | hx) | ⟨-, h2, h3⟩)
      · exact inl hx
      · exact inr (inl (hcin x hx))
      · exact inr (inr hx)
      · by_cases hx : x < off + (trim off data rest).length
        · exact inr (inl ⟨h2, hx⟩)
        · exact inr (inr (htr.cut x (by omega) h3))
    · refine hsp.agrees S (fun s hs' => hS s ?_) (fun s hs' => hS s ?_) (htr.pre.trans hdS)
      · simp [hs, hs']
      · simp [hs, (dropWhile_sublist _).subset hs']
  · rw [if_neg hgo]
    simp only [not_or, not_lt] at hgo
    exact inr ⟨rfl, hgo.2.2⟩

theorem store_spec (h : Ordered r) (data : Bytes) (ho : r.offset ≤ off) (limit : ℕ) :
    StoredOr r off data limit (r.store off data limit) := by
  have happ := (takeWhile_append_dropWhile (p := fun s : Segment => s.end_ ≤ off) (l := r.segments)).symm
  have hbelow := end_le_of_takeWhile (l := r.segments) (x := off)
  have hafter := lt_end_of_dropWhile h.asc off
  unfold store
  cases hd : r.segments.dropWhile fun s => s.end_ ≤ off with
  | nil => exact place_spec h data (hd ▸ happ) hbelow (by simp) ho limit
  | cons s after =>
    rw [hd] at happ hafter
    have hrest : Ascending 0 (s :: after) := hd ▸ (h.asc.cut _).2.1
    obtain ⟨-, hgt, -⟩ := (ascending_cons 0 s after).1 hrest
    have hse := hafter s (by simp)
    simp only [end_, stop_segment, start_segment] at hse hgt
    dsimp only
    split_ifs with hin hall
    · -- the segment has all of the data
      refine inl ⟨rfl, h.stored_self fun x _ h2 h3 => ⟨s, by rw [happ]; simp, ?_⟩⟩
      simp only [end_, start_segment, stop_segment] at hall ⊢
      omega
    · have hb : ∀ t ∈ (r.segments.takeWhile fun s => s.end_ ≤ off) ++ [s], t.end_ ≤ s.end_ := fun t ht => by
        rcases mem_append.1 ht with ht | ht
        · have := hbelow t ht
          simp only [end_] at this ⊢; omega
        · rw [mem_singleton.1 ht]
      have hp := place_spec h (data.drop (s.end_ - off)) (by simpa using happ) hb hgt (by simp only [end_]; omega) limit
      refine hp.imp_left fun ⟨hok, hst⟩ => ⟨hok, hst.ordered, hst.offset, fun x => ?_, fun S hS hdS => ?_⟩
      · rw [hst.covers x]
        simp only [end_, length_drop] at hall ⊢
        by_cases hx : Covers r.segments x
        · simp only [hx, true_or]
        · have hxs : ¬ (s.off ≤ x ∧ x < s.off + s.data.length) := fun hx' => hx ⟨s, by rw [happ]; simp, hx'⟩
          simp only [hx, false_or]
          omega
      · refine hst.agrees S hS ?_
        have hk := prefix_drop_add hdS (s.end_ - off)
        rwa [show off + (s.end_ - off) = s.end_ by simp only [end_]; omega] at hk
    · refine place_spec h data happ hbelow (fun t ht => ?_) ho limit
      rcases mem_cons.1 ht with rfl | ht
      · omega
      · have := hgt t ht
        omega

theorem push_spec (h : Ordered r) (off : ℕ) (data : Bytes) (limit : ℕ) :
    StoredOr r off data limit (r.push off data limit) := by
  unfold push
  split_ifs with hnone hlt
  · refine inl ⟨rfl, h.stored_self fun x h1 h2 h3 => ?_⟩
    rcases hnone with hn | rfl
    · omega
    · simp at h3; omega
  · refine (store_spec h (data.drop (r.offset - off)) (Nat.le_refl _) limit).imp_left fun ⟨hok, hst⟩ =>
      ⟨hok, hst.ordered, hst.offset, fun x => ?_, fun S hS hdS => hst.agrees S hS ?_⟩
    · rw [hst.covers x, length_drop]
      refine or_congr_right ?_
      omega
    · have hk := prefix_drop_add hdS (r.offset - off)
      rwa [show off + (r.offset - off) = r.offset by omega] at hk
  · exact store_spec h data (by omega) limit

theorem length_splice (hc : continues before off = false) (data : Bytes)
    (rest : List Segment) : (splice before off data rest).length = before.length + 1 + rest.length := by
  unfold splice
  unfold continues at hc
  split
  · rename_i hn
    rw [List.getLast?_eq_none_iff.1 hn]
    simp; omega
  rename_i p hp
  rw [hp] at hc
  have hne : p.end_ ≠ off := by simpa using hc
  rw [if_neg hne]
  simp; omega

/-- With room for one segment more than it holds, a buffer refuses nothing, so what it refuses
for `limit` would have left it with more segments than that. -/
theorem lt_length_of_place (hs : r.segments = before ++ after) (hf : (r.place before off data after limit).1 = false) :
    limit < (r.place before off data after (r.segments.length + 1)).2.segments.length := by
  unfold place at hf ⊢
  dsimp only at hf ⊢
  by_cases hd : trim off data (after.dropWhile fun s => s.end_ ≤ off + data.length) = []
  · simp [hd] at hf
  rw [if_neg hd] at hf ⊢
  rw [if_pos (inr (inr (Nat.lt_succ_self _)))]
  split_ifs at hf with hgo
  simp only [not_or, not_lt, ne_eq, not_not, Bool.not_eq_true] at hgo
  obtain ⟨hc, hcov, hlim⟩ := hgo
  have hrest : after.dropWhile (fun s => s.end_ ≤ off + data.length) = after := by
    conv_rhs => rw [← takeWhile_append_dropWhile (p := fun s : Segment => s.end_ ≤ off + data.length)
      (l := after), hcov, nil_append]
  simp only [length_splice hc, hrest]
  rw [hs, length_append] at hlim
  omega

theorem lt_length_of_store (hf : (r.store off data limit).1 = false) :
    limit < (r.store off data (r.segments.length + 1)).2.segments.length := by
  have happ := (takeWhile_append_dropWhile (p := fun s : Segment => s.end_ ≤ off) (l := r.segments)).symm
  unfold store at hf ⊢
  cases hd : r.segments.dropWhile fun s => s.end_ ≤ off with
  | nil =>
    rw [hd] at happ hf
    exact lt_length_of_place happ hf
  | cons s after =>
    rw [hd] at happ hf
    dsimp only at hf ⊢
    split_ifs at hf ⊢ with hin hall
    · exact lt_length_of_place (by simpa using happ) hf
    · exact lt_length_of_place happ hf

/-- What the frame leaves is within `limit` segments. -/
def Fits (r : RecvBuffer) (off : ℕ) (data : Bytes) (limit : ℕ) : Prop :=
  (r.take off data (r.segments.length + 1)).2.2.segments.length ≤ limit

instance (r : RecvBuffer) (off : ℕ) (data : Bytes) (limit : ℕ) : Decidable (r.Fits off data limit) :=
  inferInstanceAs (Decidable (_ ≤ _))

theorem take_of_fits (h : r.Fits off data limit) : (r.take off data limit).2.1 = true := by
  unfold Fits take at h
  unfold take
  split_ifs at h ⊢ with hseg hend
  · by_contra hf
    rw [Bool.not_eq_true] at hf
    unfold push at h hf
    split_ifs at h hf with hnone hlt
    · exact absurd (lt_length_of_store hf) (Nat.not_lt.2 h)
    · exact absurd (lt_length_of_store hf) (Nat.not_lt.2 h)
  · rfl
  · rfl

/-! ### What has arrived -/

/-- The byte at `x` has been delivered or waits in a segment. -/
def Has (r : RecvBuffer) (x : ℕ) : Prop := x < r.offset ∨ Covers r.segments x

/-- A step that hands on `d`, where the buffer comes to have the bytes `new` too. -/
structure Hands (r : RecvBuffer) (new : ℕ → Prop) (d : Bytes) (r' : RecvBuffer) : Prop where
  ordered : Ordered r'
  offset : r'.offset = r.offset + d.length
  has : ∀ x, r'.Has x ↔ r.Has x ∨ new x

theorem take_spec (h : Ordered r) (hok : (r.take off data limit).2.1 = true) :
    Hands r (fun x => off ≤ x ∧ x < off + data.length) ((r.take off data limit).1.getD []) (r.take off data limit).2.2 ∧
      ∀ S, Agrees S r.segments → data <+: S.drop off → Agrees S (r.take off data limit).2.2.segments ∧
        (r.take off data limit).1.getD [] <+: S.drop r.offset := by
  unfold take at hok ⊢
  split_ifs at hok ⊢ with hseg hend
  · rcases push_spec h off data limit with ⟨-, hst⟩ | ⟨he, -⟩
    · refine ⟨⟨hst.ordered, hst.offset, fun x => ?_⟩, fun S hS hd => ⟨hst.agrees S hS hd, by simp⟩⟩
      simp only [Has, hst.offset, hst.covers x]
      by_cases hx : Covers r.segments x
      · simp only [hx, true_or, or_true]
      · simp only [hx, false_or, or_false]; omega
    · simp [he] at hok
  · refine ⟨⟨h, rfl, fun x => ?_⟩, fun S hS _ => ⟨hS, by simp⟩⟩
    unfold Has
    by_cases hx : Covers r.segments x
    · simp only [hx, or_true, true_or]
    · simp only [hx, or_false]; omega
  · obtain ⟨hnil, hoff⟩ : r.segments = [] ∧ off ≤ r.offset := by simpa using hseg
    have hlen : (data.drop (r.offset - off)).length = off + data.length - r.offset := by
      rw [length_drop]; omega
    refine ⟨⟨⟨h.asc, by simp [hnil], h.held⟩, ?_, fun x => ?_⟩, fun S hS hd => ⟨hS, ?_⟩⟩
    · simp only [Option.getD_some, hlen]; omega
    · simp only [Has, hnil, covers_nil, or_false]; omega
    · have hk := prefix_drop_add hd (r.offset - off)
      rwa [show off + (r.offset - off) = r.offset by omega] at hk

theorem pop_none (h : Ordered r) (hp : r.pop.1 = none) : ¬ r.Has r.offset := by
  unfold pop at hp
  rintro (hx | hx)
  · omega
  cases hs : r.segments with
  | nil => simp [hs] at hx
  | cons s rest =>
    rw [hs] at hp hx
    dsimp only at hp
    split_ifs at hp with hlt
    obtain ⟨-, hgt, -⟩ := (ascending_cons 0 s rest).1 (hs ▸ h.asc)
    refine not_covers_of_lt_start (fun t ht => ?_) hx
    rcases mem_cons.1 ht with rfl | ht
    · exact hlt
    · have := hgt t ht
      simp only [stop_segment, start_segment] at this ⊢
      omega

theorem pop_some (h : Ordered r) {d : Bytes} (hp : r.pop.1 = some d) :
    Hands r (fun _ => False) d r.pop.2 ∧ r.pop.2.segments.length + 1 = r.segments.length ∧
      ∀ S, Agrees S r.segments → Agrees S r.pop.2.segments ∧ d <+: S.drop r.offset := by
  unfold pop at hp ⊢
  cases hs : r.segments with
  | nil => simp [hs] at hp
  | cons s rest =>
    rw [hs] at hp
    dsimp only at hp ⊢
    split_ifs at hp ⊢ with hlt
    obtain ⟨hs0, hgt, hrest⟩ := (ascending_cons 0 s rest).1 (hs ▸ h.asc)
    simp only [stop_segment, start_segment] at hs0 hgt
    -- the first segment starts where delivery has got to
    have hoff : s.off = r.offset := by
      have := h.above s (by simp [hs])
      omega
    obtain rfl : s.data = d := by simpa [hoff] using hp
    have hheld := h.held
    rw [hs, held_cons] at hheld
    refine ⟨⟨⟨hrest, hgt, by simp only; omega⟩, by simp [end_, hoff], fun x => ?_⟩, rfl,
      fun S hS => ⟨fun t ht => hS t (by simp [ht]), hoff ▸ hS s (by simp)⟩⟩
    simp only [Has, hs, covers_cons, start_segment, stop_segment, end_, or_false]
    by_cases hx : Covers rest x
    · simp only [hx, or_true]
    · simp only [hx, or_false]; omega

end RecvBuffer
end Fib.Quic
