import Fib.Http.Phases

/-! Where a connection's reads are cut makes no difference to the requests they carry, except in one
place: a last-chunk line that takes a chunked body past what it may take on the wire. -/

namespace Fib.Http
open List Passed Scanner
section Grammar
variable (lib : Library) (config : Config)

/-- A whole head: the first blank line in it ends it, it is not too large, and it is framed as `frame`. -/
structure IsHead (h : Bytes) (frame : FrameInfo) : Prop where
  ends : index headEnd h = some (h.length - 4)
  short : h.length ≤ config.maxHeaderBytes
  frames : headFrame lib config h = .ok frame

/-- Whole chunks within the limits, which carry `decoded` bytes. -/
inductive Chunks : Bytes → ℕ → Prop
  | nil : Chunks [] 0
  | snoc {c line data : Bytes} {decoded : ℕ} : Chunks c decoded → IsChunkLine line data.length →
      data.length ≠ 0 → Allowed config c.length decoded data.length line.length →
      Chunks (c ++ (line ++ (data ++ crlf))) (decoded + data.length)

/-- A trailer section that has not ended yet, and may still. -/
structure TrailerOpen (t : Bytes) : Prop where
  noBlank : ¬ crlf <+: t
  noEnd : index headEnd t = none
  short : t.length ≤ config.maxHeaderBytes

/-- A whole message and the request it carries. -/
inductive IsMessage : Bytes → Request → Prop
  | sized {h body : Bytes} {frame : FrameInfo} {req : Request} : IsHead lib config h frame →
      frame.chunked = false → h.length + body.length = frame.end_ →
      receive lib config frame (h ++ body) = .ok req → IsMessage (h ++ body) req
  | chunked {h c l t : Bytes} {frame : FrameInfo} {decoded : ℕ} {req : Request} : IsHead lib config h frame →
      frame.chunked = true → Chunks config c decoded → IsChunkLine l 0 →
      trailerVerdict config (h ++ (c ++ (l ++ t))) h.length (c.length + l.length) (index headEnd t) =
        .ok (some (h ++ (c ++ (l ++ t))).length) →
      receive lib config { frame with end_ := (h ++ (c ++ (l ++ t))).length } (h ++ (c ++ (l ++ t))) = .ok req →
      IsMessage (h ++ (c ++ (l ++ t))) req

inductive Messages : Bytes → List Request → Prop
  | nil : Messages [] []
  | cons {m rest : Bytes} {req : Request} {reqs : List Request} : IsMessage lib config m req →
      Messages rest reqs → Messages (m ++ rest) (req :: reqs)

/-- What a connection has carried when it stands in an unfinished trailer section: whole messages `pre`,
then a chunked request's head `h`, its chunks `c`, its last-chunk line `l` and its trailer so far `t`. -/
structure InTrailer (w pre h c l t : Bytes) : Prop where
  whole : w = pre ++ (h ++ (c ++ (l ++ t)))
  messages : ∃ reqs, Messages lib config pre reqs
  head : ∃ frame, IsHead lib config h frame ∧ frame.chunked = true
  chunks : ∃ decoded, Chunks config c decoded
  last : IsChunkLine l 0
  trailer : TrailerOpen config t

/-- A read ends inside the last-chunk line of a chunked body, more than `raw` bytes into the body, and
all that the connection carries ends in the trailer section behind that line. -/
def CutInLastLine (pieces : List Bytes) : Prop :=
  ∃ pre h c l t, InTrailer lib config pieces.flatten pre h c l t ∧
    ∃ k, (pre ++ h).length + config.raw < (pieces.take k).flatten.length ∧
      (pieces.take k).flatten.length < (pre ++ h ++ c ++ l).length

end Grammar

section Lemmas
variable {lib : Library} {config : Config} {b h c l t x : Bytes} {frame : FrameInfo} {decoded : ℕ}
section
variable (hh : IsHead lib config h frame)
include hh

theorem IsHead.four_le : 4 ≤ h.length := by
  have := index_le headEnd_ne_nil hh.ends
  rw [headEnd_length] at this
  omega

theorem IsHead.headerEnd_eq : frame.headerEnd = h.length :=
  (headFrame_spec hh.frames).1

theorem IsHead.step (x : Bytes) : phaseStep lib config (h ++ x) (.head 0) =
      .next (if frame.chunked then .chunked frame {} else .sized frame) := by
  have h4 := hh.four_le
  have hi := index_append headEnd_ne_nil hh.ends x
  rw [phaseStep, headStep, zero.indexFrom_eq headEnd_ne_nil, hi]
  dsimp only
  rw [Nat.sub_add_cancel h4, if_neg (by have := hh.short; omega), take_left, hh.frames]

end

/-- Where the scan stands behind the chunks `c`. -/
def behind (c : Bytes) (decoded : ℕ) : ChunkScan := { at_ := c.length, decoded := decoded }

theorem Chunks.length_le (hc : Chunks config c decoded) : c.length ≤ config.raw := by
  cases hc with
  | nil => simp
  | snoc _ _ _ ha =>
    have := ha.2
    simp only [length_append, crlf, length_cons, length_nil]
    omega

theorem Chunks.moves (hc : Chunks config c decoded) (hf : frame.headerEnd = h.length) (x : Bytes) :
    Moves lib config (h ++ (c ++ x)) (.chunked frame {}) (.chunked frame (behind c decoded)) := by
  induction hc generalizing x with
  | nil => exact .refl _ _
  | @snoc c line data decoded hc hline hne ha ih =>
    have hm := ih (line ++ (data ++ crlf) ++ x)
    simp only [append_assoc] at hm ⊢
    have hstep : chunkMove config (h ++ (c ++ (line ++ (data ++ (crlf ++ x))))) frame.headerEnd (behind c decoded) =
        .chunk (behind (c ++ (line ++ (data ++ crlf))) (decoded + data.length)) := by
      have hdrop : (h ++ (c ++ (line ++ (data ++ (crlf ++ x))))).drop (frame.headerEnd + (behind c decoded).at_) =
          line ++ (data ++ (crlf ++ x)) := by
        rw [hf, ← drop_drop, drop_left]
        exact drop_left
      refine chunkMove_chunk_iff.2 ⟨data.length, line.length, hne, by simpa using hline.1, ?_, ha, ?_, ?_⟩
      · rw [hdrop]
        exact hline.parse _
      · rw [Nat.add_assoc, ← drop_drop, hdrop, ← drop_drop, drop_left, drop_left]
        exact prefix_append _ _
      · simp [behind, crlf, Nat.add_assoc]
    refine hm.trans (.next ?_ (.refl _ _))
    rw [phaseStep_chunk rfl, chunkStep, hstep]

/-- Where the scan stands behind the last-chunk line `l`. -/
def behindLast (c l : Bytes) (decoded : ℕ) : ChunkScan :=
  { at_ := c.length + l.length, decoded := decoded, trailer := true }

theorem IsChunkLine.last_step (hl : IsChunkLine l 0) (hf : frame.headerEnd = h.length) (x : Bytes) :
    phaseStep lib config (h ++ (c ++ (l ++ x))) (.chunked frame (behind c decoded)) =
      .next (.chunked frame (behindLast c l decoded)) := by
  have hm : chunkMove config (h ++ (c ++ (l ++ x))) frame.headerEnd (behind c decoded) =
      .last (behindLast c l decoded) := by
    refine chunkMove_last_iff.2 ⟨l.length, by simpa using hl.1, ?_, rfl⟩
    rw [hf, ← drop_drop, drop_left]
    exact (congrArg parseChunkLine drop_left).trans (hl.parse x)
  rw [phaseStep_chunk rfl, chunkStep, hm]

theorem moves_to_trailer (hh : IsHead lib config h frame) (hch : frame.chunked = true)
    (hc : Chunks config c decoded) (hl : IsChunkLine l 0) (x : Bytes) :
    Moves lib config (h ++ (c ++ (l ++ x))) (.head 0) (.chunked frame (behindLast c l decoded)) := by
  have hhead := hh.step (c ++ (l ++ x))
  rw [if_pos hch] at hhead
  refine .next hhead ?_
  exact (hc.moves hh.headerEnd_eq (l ++ x)).trans (.next (hl.last_step hh.headerEnd_eq x) (.refl _ _))

theorem drop_parts : (h ++ (c ++ (l ++ x))).drop (h.length + (c.length + l.length)) = x := by
  rw [← drop_drop, drop_left, ← drop_drop, drop_left, drop_left]

theorem trailer_step (decoded : ℕ) (hh : IsHead lib config h frame) (x : Bytes) :
    phaseStep lib config (h ++ (c ++ (l ++ x))) (.chunked frame (behindLast c l decoded)) =
      match trailerVerdict config (h ++ (c ++ (l ++ x))) h.length (c.length + l.length) (index headEnd x) with
      | .error e => .fail e
      | .ok none => .wait (.chunked frame { behindLast c l decoded with trailerScan := x.length - 3 })
      | .ok (some end_) => finish lib config (h ++ (c ++ (l ++ x))) { frame with end_ := end_ } := by
  have hdrop : (h ++ (c ++ (l ++ x))).drop (frame.headerEnd + (behindLast c l decoded).at_) = x := by
    rw [hh.headerEnd_eq]
    exact drop_parts
  have hs : Scanned (h ++ (c ++ (l ++ x))) frame (behindLast c l decoded) := by
    have h4 := hh.four_le
    have hend := hh.headerEnd_eq
    refine ⟨by omega, ?_, by simp [behindLast], zero⟩
    simp only [behindLast, length_append]
    omega
  rw [phaseStep_trailer rfl, trailerStep_eq hs, hdrop, hh.headerEnd_eq]
  rfl

theorem verdict_append {end_ : ℕ}
    (hv : trailerVerdict config (h ++ (c ++ (l ++ t))) h.length (c.length + l.length) (index headEnd t) =
      .ok (some end_)) (x : Bytes) :
    trailerVerdict config (h ++ (c ++ (l ++ (t ++ x)))) h.length (c.length + l.length) (index headEnd (t ++ x)) =
      .ok (some end_) := by
  have hle : h.length + (c.length + l.length) ≤ (h ++ (c ++ (l ++ t))).length := by
    simp only [length_append]
    omega
  have hv' : trailerVerdict config (h ++ (c ++ (l ++ t))) h.length (c.length + l.length)
      (index headEnd ((h ++ (c ++ (l ++ t))).drop (h.length + (c.length + l.length)))) = .ok (some end_) := by
    rwa [drop_parts]
  have hx := (trailerVerdict_done hle hv').2 x
  simp only [append_assoc] at hx
  rwa [drop_parts] at hx

theorem IsMessage.reach {m : Bytes} {req : Request} (hm : IsMessage lib config m req) (x : Bytes) :
    Reach (phaseStep lib config) (m ++ x) (.head 0) [req] x (.head 0) := by
  cases hm with
  | @sized h body frame req hh hch hend hr =>
    have hhead := hh.step (body ++ x)
    rw [if_neg (by simp [hch]), ← append_assoc] at hhead
    have hlen : (h ++ body).length = frame.end_ := by rw [length_append, hend]
    have hfin : phaseStep lib config (h ++ body ++ x) (.sized frame) = .emit req frame.end_ (.head 0) := by
      rw [phaseStep, sizedStep, if_neg (by simp; omega), finish, ← hlen, take_left, hr]
    refine .next hhead (.emit hfin ?_)
    rw [← hlen, drop_left]
    exact .refl _ _
  | @chunked h c l t frame decoded req hh hch hc hl hv hr =>
    have hstep := trailer_step (c := c) (l := l) decoded hh (t ++ x)
    have hmoves := moves_to_trailer hh hch hc hl (t ++ x)
    rw [verdict_append hv x] at hstep
    generalize hm : h ++ (c ++ (l ++ t)) = m at hr hv hstep ⊢
    have happ : m ++ x = h ++ (c ++ (l ++ (t ++ x))) := by simp [← hm]
    rw [← happ] at hstep hmoves
    dsimp only at hstep
    rw [finish, take_left, hr] at hstep
    have hlast : Reach (phaseStep lib config) ((m ++ x).drop m.length) (.head 0) [] x (.head 0) := by
      rw [drop_left]
      exact .refl _ _
    exact hmoves.trans (.emit hstep hlast)

variable {pre : Bytes} {reqs : List Request} {s s' : Phase} {e : ParseError}

theorem Messages.reach (hm : Messages lib config pre reqs) (x : Bytes) :
    Reach (phaseStep lib config) (pre ++ x) (.head 0) reqs x (.head 0) := by
  induction hm with
  | nil => exact .refl _ _
  | @cons m rest req reqs hmsg _ ih =>
    rw [append_assoc]
    exact (hmsg.reach (rest ++ x)).trans ih

theorem InTrailer.drain {w : Bytes} (ht : InTrailer lib config w pre h c l t) :
    ∃ reqs b s, Drain (phaseStep lib config) w (.head 0) reqs (.stuck b s) := by
  obtain ⟨reqs, hm⟩ := ht.messages
  obtain ⟨frame, hh, hch⟩ := ht.head
  obtain ⟨decoded, hc⟩ := ht.chunks
  have hstep := trailer_step (c := c) (l := l) decoded hh t
  have hopen : trailerVerdict config (h ++ (c ++ (l ++ t))) h.length (c.length + l.length) (index headEnd t) =
      .ok none := by
    refine trailerVerdict_none_iff.2 ⟨?_, ht.trailer.noEnd, ?_⟩
    · rw [drop_parts]
      exact ht.trailer.noBlank
    · have := ht.trailer.short
      simp only [length_append]
      omega
  rw [hopen] at hstep
  rw [ht.whole]
  exact ⟨_, _, _, (hm.reach _).drain ((moves_to_trailer hh hch hc ht.last t).drain (.wait hstep))⟩

theorem InTrailer.cut_refused {w u : Bytes} (ht : InTrailer lib config w pre h c l t) (hu : u <+: w)
    (hlo : (pre ++ h).length + config.raw < u.length) (hhi : u.length < (pre ++ h ++ c ++ l).length) :
    ∃ reqs, Drain (phaseStep lib config) u (.head 0) reqs .refused := by
  obtain ⟨reqs, hm⟩ := ht.messages
  obtain ⟨frame, hh, hch⟩ := ht.head
  obtain ⟨decoded, hc⟩ := ht.chunks
  have hraw := hc.length_le
  simp only [length_append] at hlo hhi
  have hj : u.length - (pre.length + h.length + c.length) ≤ l.length := by omega
  obtain ⟨l₁, hl₁, hlen⟩ : ∃ l₁, l₁ <+: l ∧ l₁.length = u.length - (pre.length + h.length + c.length) :=
    ⟨_, take_prefix _ _, length_take_of_le hj⟩
  have hu' : u = pre ++ (h ++ (c ++ l₁)) := by
    have hpre : pre ++ (h ++ (c ++ l₁)) <+: w := by
      rw [ht.whole]
      obtain ⟨r, rfl⟩ := hl₁
      exact ⟨r ++ t, by simp⟩
    refine (prefix_of_prefix_length_le hu hpre ?_).eq_of_length ?_ <;> simp only [length_append] <;> omega
  have hfail : chunkMove config (h ++ (c ++ l₁)) frame.headerEnd (behind c decoded) = .fail .bodyTooLarge := by
    have hdrop : (h ++ (c ++ l₁)).drop (h.length + c.length) = l₁ := by
      rw [← drop_drop, drop_left, drop_left]
    unfold chunkMove
    rw [hh.headerEnd_eq]
    dsimp only [behind]
    rw [hdrop, ht.last.parse_part hl₁ (by omega)]
    dsimp only
    rw [if_pos rfl, if_pos]
    simp only [length_append]
    omega
  have hhead := hh.step (c ++ l₁)
  rw [if_pos hch] at hhead
  have hmoves : Moves lib config (h ++ (c ++ l₁)) (.head 0) (.chunked frame (behind c decoded)) :=
    .next hhead (hc.moves hh.headerEnd_eq l₁)
  have hstep : phaseStep lib config (h ++ (c ++ l₁)) (.chunked frame (behind c decoded)) = .fail .bodyTooLarge := by
    rw [phaseStep_chunk rfl, chunkStep, hfail]
  rw [hu']
  exact ⟨_, (hm.reach _).drain (hmoves.drain (.fail hstep))⟩

/-- What is buffered when the scan stands in a phase, told by the grammar. -/
def Stands (lib : Library) (config : Config) (b : Bytes) : Phase → Prop
  | .head k => k = 0
  | .sized frame => ∃ h x, IsHead lib config h frame ∧ frame.chunked = false ∧ b = h ++ x
  | .chunked frame scan => ∃ h c decoded x, IsHead lib config h frame ∧ frame.chunked = true ∧
      Chunks config c decoded ∧ (scan = behind c decoded ∧ b = h ++ (c ++ x) ∨
        ∃ l, IsChunkLine l 0 ∧ scan = behindLast c l decoded ∧ b = h ++ (c ++ (l ++ x)))

theorem stands_next (hs : Stands lib config b s) (hstep : phaseStep lib config b s = .next s') :
    Stands lib config b s' := by
  cases s with
  | head k =>
    obtain rfl := hs
    rw [phaseStep, headStep, zero.indexFrom_eq headEnd_ne_nil] at hstep
    cases hi : index headEnd b with
    | none =>
      rw [hi] at hstep
      split_ifs at hstep
    | some i =>
      rw [hi] at hstep
      dsimp only at hstep
      split_ifs at hstep with hmax
      split at hstep
      · cases hstep
      rename_i frame hf
      have hle : i + 4 ≤ b.length := index_le headEnd_ne_nil hi
      have hlen : (b.take (i + 4)).length = i + 4 := by rw [length_take, min_eq_left hle]
      have hh : IsHead lib config (b.take (i + 4)) frame := by
        refine ⟨?_, by omega, hf⟩
        rw [hlen, Nat.add_sub_cancel]
        exact index_take headEnd_ne_nil hi
      cases hstep
      split_ifs with hch
      · exact ⟨_, [], 0, b.drop (i + 4), hh, hch, .nil, .inl ⟨rfl, by simp⟩⟩
      · exact ⟨_, b.drop (i + 4), hh, by simpa using hch, by simp⟩
  | sized frame =>
    rw [phaseStep, sizedStep, finish] at hstep
    split_ifs at hstep
    split at hstep <;> cases hstep
  | chunked frame scan =>
    obtain ⟨h, c, decoded, x, hh, hch, hc, ⟨rfl, rfl⟩ | ⟨l, -, rfl, rfl⟩⟩ := hs
    · rw [phaseStep_chunk rfl, chunkStep] at hstep
      have hdrop : (h ++ (c ++ x)).drop (frame.headerEnd + (behind c decoded).at_) = x := by
        rw [hh.headerEnd_eq, ← drop_drop, drop_left]
        exact drop_left
      split at hstep
      · cases hstep
      · cases hstep
      · rename_i scan' hm
        cases hstep
        obtain ⟨n, hn, hp, rfl⟩ := chunkMove_last_iff.1 hm
        rw [hdrop] at hp
        obtain ⟨hle, hline⟩ := isChunkLine_of_parse hp hn
        refine ⟨h, c, decoded, x.drop n, hh, hch, hc, .inr ⟨x.take n, hline, ?_, by simp⟩⟩
        simp [behindLast, behind, min_eq_left hle]
      · rename_i scan' hm
        cases hstep
        obtain ⟨size, n, hz, hn, hp, ha, hterm, rfl⟩ := chunkMove_chunk_iff.1 hm
        rw [hdrop] at hp
        obtain ⟨hle, hline⟩ := isChunkLine_of_parse hp hn
        rw [Nat.add_assoc, ← drop_drop, hdrop] at hterm
        have hfit := (crlf_prefix_iff.1 hterm).1
        obtain ⟨line, data, rest, rfl, rfl, rfl⟩ :
            ∃ line data rest, line.length = n ∧ data.length = size ∧ x = line ++ (data ++ (crlf ++ rest)) := by
          obtain ⟨rest, hrest⟩ := hterm
          refine ⟨x.take n, (x.drop n).take size, rest, by simp [hle], by simp; omega, ?_⟩
          rw [hrest, ← drop_drop, take_append_drop, take_append_drop]
        rw [take_left] at hline
        refine ⟨h, c ++ (line ++ (data ++ crlf)), decoded + data.length, rest, hh, hch,
          .snoc hc hline hz ha, .inl ⟨?_, by simp⟩⟩
        simp [behind, crlf, Nat.add_assoc]
    · rw [trailer_step decoded hh x] at hstep
      split at hstep
      · cases hstep
      · cases hstep
      · rw [finish] at hstep
        split at hstep <;> cases hstep

theorem stands_emit {r : Request} {n : ℕ} (hs : Stands lib config b s)
    (hstep : phaseStep lib config b s = .emit r n s') : IsMessage lib config (b.take n) r ∧ s' = .head 0 := by
  cases s with
  | head k =>
    rw [phaseStep, headStep] at hstep
    split at hstep
    · split_ifs at hstep
    · split_ifs at hstep
      split at hstep <;> cases hstep
  | sized frame =>
    obtain ⟨h, x, hh, hch, rfl⟩ := hs
    rw [phaseStep, sizedStep, finish] at hstep
    split_ifs at hstep with hle
    split at hstep
    · cases hstep
    rename_i req hr
    cases hstep
    have hend := (headFrame_spec hh.frames).2
    rw [hh.headerEnd_eq] at hend
    rw [length_append] at hle
    have htake : (h ++ x).take frame.end_ = h ++ x.take (frame.end_ - h.length) := by
      rw [take_append, take_of_length_le hend]
    rw [htake] at hr ⊢
    exact ⟨.sized hh hch (by rw [length_take]; omega) hr, rfl⟩
  | chunked frame scan =>
    obtain ⟨h, c, decoded, x, hh, hch, hc, ⟨rfl, rfl⟩ | ⟨l, hl, rfl, rfl⟩⟩ := hs
    · rw [phaseStep_chunk rfl, chunkStep] at hstep
      split at hstep <;> cases hstep
    rw [trailer_step decoded hh x] at hstep
    split at hstep
    · cases hstep
    · cases hstep
    rename_i end_ hv
    rw [finish] at hstep
    split at hstep
    · cases hstep
    rename_i req hr
    cases hstep
    refine ⟨?_, rfl⟩
    have hle : h.length + (c.length + l.length) ≤ (h ++ (c ++ (l ++ x))).length := by
      simp only [length_append]
      omega
    have hv' : trailerVerdict config (h ++ (c ++ (l ++ x))) h.length (c.length + l.length)
        (index headEnd ((h ++ (c ++ (l ++ x))).drop (h.length + (c.length + l.length)))) = .ok (some end_) := by
      rwa [drop_parts]
    have hend := (trailerVerdict_done hle hv').1
    have hpast := trailerVerdict_past hv
    have htake := trailerVerdict_take hv'
    obtain ⟨t, ht⟩ : ∃ t, (h ++ (c ++ (l ++ x))).take end_ = h ++ (c ++ (l ++ t)) := by
      refine ⟨x.take (end_ - h.length - c.length - l.length), ?_⟩
      rw [take_append, take_append, take_append, take_of_length_le (by omega),
        take_of_length_le (by omega), take_of_length_le (by omega)]
    have hlen : (h ++ (c ++ (l ++ t))).length = end_ := by
      rw [← ht, length_take, min_eq_left hend]
    rw [ht] at hr htake ⊢
    rw [drop_parts] at htake
    refine .chunked hh hch hc hl ?_ ?_
    · rw [hlen]
      exact htake
    · rw [hlen]
      exact hr

theorem reach_messages {b' : Bytes} (hr : Reach (phaseStep lib config) b s reqs b' s') (hs : Stands lib config b s)
    (hg : Phase.Good b s) : ∃ pre, b = pre ++ b' ∧ Messages lib config pre reqs ∧ Stands lib config b' s' := by
  induction hr with
  | refl => exact ⟨[], rfl, .nil, hs⟩
  | next hstep _ ih => exact ih (stands_next hs hstep) (phases_steady.next hg hstep).1
  | @emit b b' s s' t r n o hstep _ ih =>
    obtain ⟨hm, rfl⟩ := stands_emit hs hstep
    obtain ⟨pre, hpre, hms, hst⟩ := ih rfl (phases_steady.emit hg hstep).2.1
    refine ⟨b.take n ++ pre, ?_, .cons hm hms, hst⟩
    rw [append_assoc, ← hpre, take_append_drop]

theorem head_fail_persists (h : phaseStep lib config b (.head 0) = .fail e) (x : Bytes) :
    ∃ e', phaseStep lib config (b ++ x) (.head 0) = .fail e' := by
  rw [phaseStep, headStep, zero.indexFrom_eq headEnd_ne_nil] at h ⊢
  cases hi : index headEnd b with
  | none =>
    rw [hi] at h
    split_ifs at h with hlong
    cases hix : index headEnd (b ++ x) with
    | none => exact ⟨_, if_pos (by rw [length_append]; omega)⟩
    | some i =>
      have hpast : b.length - 3 ≤ i := by
        by_contra hlt
        exact of_index_none headEnd_ne_nil hi x i (by rw [headEnd_length]; omega) (index_eq_some hix).1
      exact ⟨_, if_pos (by omega)⟩
  | some i =>
    have hle : i + 4 ≤ b.length := index_le headEnd_ne_nil hi
    rw [hi] at h
    rw [index_append headEnd_ne_nil hi]
    dsimp only at h ⊢
    rw [take_append_of_le_length hle]
    exact ⟨e, h⟩

theorem finish_fail_append (hle : frame.end_ ≤ b.length) (h : finish lib config b frame = .fail e)
    (x : Bytes) : finish lib config (b ++ x) frame = .fail e := by
  unfold finish at h ⊢
  rwa [take_append_of_le_length hle]

/-- What was refused stays refused, unless it was a last-chunk line cut past the wire bound. -/
theorem fail_persists (hs : Stands lib config b s) (hg : Phase.Good b s)
    (hfail : phaseStep lib config b s = .fail e) (x : Bytes) : (∃ e', phaseStep lib config (b ++ x) s = .fail e') ∨
      ∃ h c rest frame decoded l, IsHead lib config h frame ∧ frame.chunked = true ∧ Chunks config c decoded ∧
        s = .chunked frame (behind c decoded) ∧ b = h ++ (c ++ rest) ∧ IsChunkLine l 0 ∧
        config.raw < (c ++ rest).length ∧ rest.length < l.length ∧ l <+: rest ++ x := by
  cases s with
  | head k =>
    obtain rfl := hs
    exact .inl (head_fail_persists hfail x)
  | sized frame =>
    left
    rw [phaseStep, sizedStep] at hfail ⊢
    split_ifs at hfail with hle
    rw [if_neg (by rw [length_append]; omega)]
    exact ⟨e, finish_fail_append (by omega) hfail x⟩
  | chunked frame scan =>
    obtain ⟨h, c, decoded, rest, hh, hch, hc, ⟨rfl, rfl⟩ | ⟨l, hl, rfl, rfl⟩⟩ := hs
    · have hfail' : chunkMove config (h ++ (c ++ rest)) frame.headerEnd (behind c decoded) = .fail e := by
        rw [phaseStep_chunk rfl, chunkStep] at hfail
        split at hfail <;> cases hfail
        assumption
      have hdrop : (h ++ (c ++ rest)).drop (frame.headerEnd + (behind c decoded).at_) = rest := by
        rw [hh.headerEnd_eq, ← drop_drop, drop_left]
        exact drop_left
      rcases chunkMove_fail_append hg.within hfail' x with ⟨e', he'⟩ | ⟨l, hl, hraw, hpart, hpre⟩
      · left
        rw [phaseStep_chunk rfl, chunkStep, he']
        exact ⟨e', rfl⟩
      · right
        rw [hdrop] at hpart hpre
        rw [hh.headerEnd_eq, length_append, Nat.add_sub_cancel_left] at hraw
        exact ⟨h, c, rest, frame, decoded, l, hh, hch, hc, rfl, rfl, hl, hraw, hpart, hpre⟩
    · left
      have hmax : 2 ≤ config.maxHeaderBytes := by
        have := hh.four_le
        have := hh.short
        omega
      have hle : h.length + (c.length + l.length) ≤ (h ++ (c ++ (l ++ rest))).length := by
        simp only [length_append]
        omega
      have hstep := trailer_step (c := c) (l := l) decoded hh (rest ++ x)
      rw [trailer_step decoded hh rest] at hfail
      have happ : h ++ (c ++ (l ++ rest)) ++ x = h ++ (c ++ (l ++ (rest ++ x))) := by simp
      rw [happ]
      cases hv : trailerVerdict config (h ++ (c ++ (l ++ rest))) h.length (c.length + l.length)
          (index headEnd rest) with
      | error e₀ =>
        obtain ⟨e', he'⟩ := trailerVerdict_error hle hmax (by rw [drop_parts]; exact hv) x
        rw [happ, drop_parts] at he'
        rw [he'] at hstep
        exact ⟨e', hstep⟩
      | ok found =>
        rw [hv] at hfail
        cases found with
        | none => cases hfail
        | some end_ =>
          have hend := (trailerVerdict_done hle (by rw [drop_parts]; exact hv)).1
          rw [verdict_append hv x] at hstep
          dsimp only at hfail hstep
          rw [← happ, finish_fail_append hend hfail] at hstep
          rw [← happ]
          exact ⟨e, hstep⟩

/-- Where a cut makes the parser refuse what it would not have refused, the rest is refused all the
same, or the cut is inside a last-chunk line whose trailer section is still open. -/
theorem premature_cases {u v : Bytes} (hp : Premature (phaseStep lib config) u v (.head 0) reqs) :
    Drain (phaseStep lib config) (u ++ v) (.head 0) reqs .refused ∨
      ∃ pre h c l t, InTrailer lib config (u ++ v) pre h c l t ∧
        (pre ++ h).length + config.raw < u.length ∧ u.length < (pre ++ h ++ c ++ l).length := by
  obtain ⟨b, s, e, hreach, hfail, hno⟩ := hp
  have hg : Phase.Good u (.head 0) := zero
  have hgs := hreach.good phases_steady hg
  obtain ⟨pre, rfl, hms, hst⟩ := reach_messages hreach rfl hg
  rcases fail_persists hst hgs hfail v with ⟨e', he'⟩ | hcut
  · exact absurd he' (hno e')
  obtain ⟨h, c, rest, frame, decoded, l, hh, hch, hc, rfl, rfl, hl, hraw, hpart, t, ht⟩ := hcut
  have hwhole : h ++ (c ++ rest) ++ v = h ++ (c ++ (l ++ t)) := by
    rw [ht]
    simp
  have hpush := hreach.push phases_steady hg v
  rw [hwhole] at hpush
  have hmoves := hpush.trans (.next (hl.last_step hh.headerEnd_eq t) (.refl _ _))
  rw [append_nil] at hmoves
  have hstep := trailer_step (c := c) (l := l) decoded hh t
  cases hv : trailerVerdict config (h ++ (c ++ (l ++ t))) h.length (c.length + l.length) (index headEnd t) with
  | error e₀ =>
    left
    rw [hv] at hstep
    have := hmoves.drain (.fail hstep)
    rwa [append_nil] at this
  | ok found =>
    rw [length_append] at hraw
    cases found with
    | some end_ =>
      have hend := (trailerVerdict_some_iff.1 hv).1
      have hpast := trailerVerdict_past hv
      omega
    | none =>
      right
      obtain ⟨hblank, hend, hshort⟩ := trailerVerdict_none_iff.1 hv
      rw [drop_parts] at hblank
      refine ⟨pre, h, c, l, t, ⟨?_, ⟨_, hms⟩, ⟨frame, hh, hch⟩, ⟨decoded, hc⟩, hl, hblank, hend, ?_⟩, ?_, ?_⟩
      · rw [append_assoc, hwhole]
      · simp only [length_append] at hshort
        omega
      · simp only [length_append]
        omega
      · simp only [length_append]
        omega

end Lemmas

section Connection
variable (lib : Library) (config : Config)

theorem idle_waits : phaseStep lib config [] (.head 0) = .wait (.head 0) := rfl

theorem idle_good : Phase.Good ({} : Parser).buffer ({} : Parser).phase := zero

theorem fedRequests_feeds (pieces : List Bytes) : Feeds (phaseStep lib (newConfig config)) [] (.head 0) pieces
    (fedRequests lib config pieces).1 (fedRequests lib config pieces).2 :=
  feedAll_spec feedOne_feeds (fun _ => ⟨rfl, rfl⟩) idle_good pieces

section
variable (overwrite : Bytes → Bytes)
include overwrite

theorem roundEnded_own (p : Parser) :
    (p.own.roundEnded overwrite).buffer = p.buffer ∧ (p.own.roundEnded overwrite).phase = p.phase := ⟨rfl, rfl⟩

theorem borrowedRequests_feeds (pieces : List Bytes) :
    Feeds (phaseStep lib (newConfig config)) [] (.head 0) pieces (borrowedRequests lib config overwrite pieces).1
      (borrowedRequests lib config overwrite pieces).2 :=
  feedAll_spec feedBorrowed_feeds (roundEnded_own overwrite) idle_good pieces

/-- Bytes parsed where they were read and bytes copied first carry the same requests. -/
theorem borrowedRequests_eq (pieces : List Bytes) :
    borrowedRequests lib config overwrite pieces = fedRequests lib config pieces := by
  obtain ⟨hreqs, hrefused⟩ :=
    (borrowedRequests_feeds lib config overwrite pieces).det (fedRequests_feeds lib config pieces)
  exact Prod.ext hreqs hrefused

end

/-- The requests a connection carries and whether it is then refused do not depend on where its reads
are cut, exactly when no cut is inside a last-chunk line past the wire bound with the trailer section
behind it still open. Where the bytes were parsed makes no difference. -/
theorem requests_same_iff_no_cut (pieces : List Bytes) :
    (fedRequests lib config pieces = fedRequests lib config [pieces.flatten] ∧
      ∀ overwrite, borrowedRequests lib config overwrite pieces = fedRequests lib config pieces) ↔
      ¬ CutInLastLine lib (newConfig config) pieces := by
  have hfeeds := fedRequests_feeds lib config pieces
  obtain ⟨halt, hwhole, hhalt⟩ := (fedRequests_feeds lib config [pieces.flatten]).single
  rw [nil_append] at hwhole
  constructor
  · rintro ⟨hsame, -⟩ ⟨pre, h, c, l, t, hin, k, hlo, hhi⟩
    obtain ⟨reqs, b, s, hdrain⟩ := hin.drain
    obtain ⟨-, rfl⟩ := hwhole.det hdrain
    have hnot : (fedRequests lib config pieces).2 = false := by
      rw [hsame]
      exact hhalt.symm
    obtain ⟨reqs', b', s', hwaits⟩ := hfeeds.waits phases_steady hnot zero (idle_waits _ _) k
    have hprefix : (pieces.take k).flatten <+: pieces.flatten := by
      refine ⟨(pieces.drop k).flatten, ?_⟩
      rw [← flatten_append, take_append_drop]
    obtain ⟨reqs'', hrefused⟩ := hin.cut_refused hprefix hlo hhi
    cases (hwaits.det hrefused).2
  · intro hno
    refine ⟨?_, fun overwrite => borrowedRequests_eq lib config overwrite pieces⟩
    have hagree : ∃ h, Drain (phaseStep lib (newConfig config)) pieces.flatten (.head 0)
        (fedRequests lib config pieces).1 h ∧ h.isRefused = (fedRequests lib config pieces).2 := by
      rcases hfeeds.whole phases_steady zero (idle_waits _ _) with ⟨h, hd, hr⟩ | ⟨hr, k, hp⟩
      · exact ⟨h, hd, hr⟩
      rcases premature_cases hp with hd | ⟨pre, h, c, l, t, hin, hlo, hhi⟩
      · rw [nil_append, ← flatten_append, take_append_drop] at hd
        exact ⟨_, hd, hr.symm⟩
      · rw [nil_append, ← flatten_append, take_append_drop] at hin
        exact absurd ⟨pre, h, c, l, t, hin, k, hlo, hhi⟩ hno
    obtain ⟨h, hd, hr⟩ := hagree
    obtain ⟨hreqs, rfl⟩ := hd.det hwhole
    exact Prod.ext hreqs (hr.symm.trans hhalt)

/-- However its bytes are cut, a connection hands on the messages they begin with, each once and in order, and what
is left of them when it is not refused begins with no whole message. -/
theorem requests_are_the_messages (pieces : List Bytes) : ∃ pre rest, pieces.flatten = pre ++ rest ∧
    Messages lib (newConfig config) pre (fedRequests lib config pieces).1 ∧
      ((fedRequests lib config pieces).2 = false → ∀ m req, m <+: rest → ¬ IsMessage lib (newConfig config) m req) := by
  have hfeeds := fedRequests_feeds lib config pieces
  obtain ⟨rest, s, hreach⟩ := hfeeds.reach phases_steady zero (idle_waits _ _)
  obtain ⟨pre, hsplit, hms, -⟩ := reach_messages hreach rfl zero
  refine ⟨pre, rest, hsplit, hms, ?_⟩
  rintro hok m req ⟨y, rfl⟩ hm
  rcases hfeeds.whole phases_steady zero (idle_waits _ _) with ⟨h, hd, -⟩ | ⟨hr, -⟩
  · -- A scan of the whole would not stop before one more message.
    obtain ⟨h', hy, -⟩ := (fedRequests_feeds lib config [y]).single
    rw [hsplit] at hd
    have hmore := (hd.det ((hms.reach (m ++ y)).drain ((hm.reach y).drain hy))).1
    simpa using congrArg length hmore
  · cases hok.symm.trans hr

end Connection

section LongExtension

/-- The head of `POST / HTTP/1.1`, with `Host: a` and `Transfer-Encoding: chunked`. -/
def uploadHead : Bytes :=
  [80, 79, 83, 84, 32, 47, 32, 72, 84, 84, 80, 47, 49, 46, 49, 13, 10, 72, 111, 115, 116, 58, 32, 97, 13, 10,
   84, 114, 97, 110, 115, 102, 101, 114, 45, 69, 110, 99, 111, 100, 105, 110, 103, 58, 32,
   99, 104, 117, 110, 107, 101, 100, 13, 10, 13, 10]

/-- A library that reads that one head, and leaves the rest aside. -/
def uploadLibrary : Library where
  parseRequestHead head :=
    if head = uploadHead then .ok (⟨[[72, 111, 115, 116]], true, [chunkedName], -1, false⟩, true)
    else .error "malformed HTTP request"
  splitTransferCodings _ := .ok none
  readRequest _ := .error "unexpected EOF"
  decodeWhole _ body _ := .ok body

def smallLimits : Config := { maxHeaderBytes := 64, maxBodyBytes := 10 }

/-- A last-chunk line with an extension of 80 bytes, read in two pieces and nothing behind it. -/
def longExtension : List Bytes :=
  [uploadHead ++ [48, 59] ++ List.replicate 78 97, List.replicate 2 97 ++ crlf]

theorem longExtension_differs : fedRequests uploadLibrary smallLimits longExtension = ([], true) ∧
      fedRequests uploadLibrary smallLimits [longExtension.flatten] = ([], false) := by
  decide +kernel

end LongExtension
end Fib.Http
