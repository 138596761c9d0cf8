import Fib.Lib.Scanner
import Fib.Http.Parser

/-! The parser as a scanner of its connection: what it waits for is a phase, and `feedOne` takes the
scanner's steps up to the next request. -/

namespace Fib.Http
open List Passed Scanner

/-- What the parser is looking for: the end of a head, the bytes a head counted, or the end of a
chunked body. -/
inductive Phase
  | head (scan : ℕ)
  | sized (frame : FrameInfo)
  | chunked (frame : FrameInfo) (scan : ChunkScan)

def Parser.phase (p : Parser) : Phase :=
  match p.awaiting with
  | none => .head p.headerScan
  | some frame => if frame.chunked then .chunked frame p.chunks else .sized frame

open Http.Parser
variable {p : Parser} {frame : FrameInfo}

theorem Parser.phase_head (h : p.awaiting = none) : p.phase = .head p.headerScan := by
  rw [phase, h]

theorem Parser.phase_chunked (h : p.awaiting = some frame)
    (hc : frame.chunked = true) : p.phase = .chunked frame p.chunks := by
  rw [phase, h]
  exact if_pos hc

theorem Parser.phase_sized (h : p.awaiting = some frame) (hc : frame.chunked = false) : p.phase = .sized frame := by
  rw [phase, h]
  exact if_neg (by simp [hc])

abbrev PhaseMove := Move Phase Request ParseError

section Step
variable (lib : Library) (config : Config) (b : Bytes) (frame : FrameInfo)

def finish : PhaseMove :=
  match receive lib config frame (b.take frame.end_) with
  | .error e => .fail e
  | .ok req => .emit req frame.end_ (.head 0)

def headStep (scan : ℕ) : PhaseMove :=
  match indexFrom headEnd scan b with
  | none =>
    if b.length > config.maxHeaderBytes then .fail .headerTooLarge else .wait (.head (b.length - 3))
  | some i =>
    if i + 4 > config.maxHeaderBytes then .fail .headerTooLarge
    else
      match headFrame lib config (b.take (i + 4)) with
      | .error e => .fail e
      | .ok frame => .next (if frame.chunked then .chunked frame {} else .sized frame)

def sizedStep : PhaseMove :=
  if frame.end_ > b.length then .wait (.sized frame) else finish lib config b frame

def chunkStep (scan : ChunkScan) : PhaseMove :=
  match chunkMove config b frame.headerEnd scan with
  | .fail e => .fail e
  | .arriving => .wait (.chunked frame scan)
  | .last scan => .next (.chunked frame scan)
  | .chunk scan => .next (.chunked frame scan)

def trailerStep (scan : ChunkScan) : PhaseMove :=
  match trailerEnd config b frame.headerEnd scan with
  | (_, .error e) => .fail e
  | (scan, .ok none) => .wait (.chunked frame scan)
  | (_, .ok (some end_)) => finish lib config b { frame with end_ := end_ }

def phaseStep : Phase → PhaseMove
  | .head scan => headStep lib config b scan
  | .sized frame => sizedStep lib config b frame
  | .chunked frame scan =>
    if scan.trailer then trailerStep lib config b frame scan else chunkStep config b frame scan

end Step

/-- The head and what has been scanned of a chunked body are buffered, and nothing the scan has
passed over will be found there. -/
structure Scanned (b : Bytes) (frame : FrameInfo) (scan : ChunkScan) : Prop where
  pos : 0 < frame.headerEnd
  within : frame.headerEnd + scan.at_ ≤ b.length
  start : scan.trailer = false → scan.trailerScan = 0
  passed : Passed headEnd scan.trailerScan (b.drop (frame.headerEnd + scan.at_))

def Phase.Good (b : Bytes) : Phase → Prop
  | .head scan => Passed headEnd scan b
  | .sized frame => 0 < frame.headerEnd ∧ frame.headerEnd ≤ frame.end_ ∧ frame.headerEnd ≤ b.length
  | .chunked frame scan => Scanned b frame scan

section Lemmas
variable {lib : Library} {config : Config} {b x : Bytes} {frame : FrameInfo} {scan : ChunkScan}

theorem phaseStep_trailer (ht : scan.trailer = true) :
    phaseStep lib config b (.chunked frame scan) = trailerStep lib config b frame scan := if_pos ht

theorem phaseStep_chunk (ht : scan.trailer = false) :
    phaseStep lib config b (.chunked frame scan) = chunkStep config b frame scan := if_neg (by simp [ht])

theorem headFrame_spec {head : Bytes} (h : headFrame lib config head = .ok frame) :
    frame.headerEnd = head.length ∧ frame.headerEnd ≤ frame.end_ := by
  unfold headFrame at h
  split at h
  · cases h
  · split_ifs at h <;> cases h <;> simp

variable {s : Phase}

theorem finish_kept (hle : frame.end_ ≤ b.length)
    (hs : ∀ x, phaseStep lib config (b ++ x) s = finish lib config (b ++ x) frame) :
    Kept (phaseStep lib config) Phase.Good b s (finish lib config b frame) := by
  have happ : ∀ x, finish lib config (b ++ x) frame = finish lib config b frame := by
    intro x
    unfold finish
    rw [take_append_of_le_length hle]
  cases hr : receive lib config frame (b.take frame.end_) with
  | error e =>
    have hf : finish lib config b frame = .fail e := by simp [finish, hr]
    rw [hf]
    trivial
  | ok req =>
    have hf : finish lib config b frame = .emit req frame.end_ (.head 0) := by simp [finish, hr]
    rw [hf]
    exact ⟨hle, zero, fun x => by rw [hs, happ, hf]⟩

theorem headStep_kept {k : ℕ} (hg : Passed headEnd k b) :
    Kept (phaseStep lib config) Phase.Good b (.head k) (headStep lib config b k) := by
  have hstep : ∀ x, phaseStep lib config (b ++ x) (.head k) = headStep lib config (b ++ x) k := fun _ => rfl
  unfold headStep at hstep ⊢
  rw [hg.indexFrom_eq headEnd_ne_nil]
  cases hi : index headEnd b with
  | none =>
    split_ifs
    · trivial
    · have hp : Passed headEnd (b.length - 3) b := of_index_none headEnd_ne_nil hi
      refine ⟨hp, fun x => ?_⟩
      rw [hstep, phaseStep, headStep, (hp.append x).indexFrom_eq headEnd_ne_nil,
        (hg.append x).indexFrom_eq headEnd_ne_nil]
  | some i =>
    have hle : i + 4 ≤ b.length := index_le headEnd_ne_nil hi
    dsimp only
    split_ifs with hmax
    · trivial
    cases hf : headFrame lib config (b.take (i + 4)) with
    | error e => trivial
    | ok frame =>
      obtain ⟨hend, hle'⟩ := headFrame_spec hf
      rw [length_take, min_eq_left hle] at hend
      refine ⟨?_, fun x => ?_⟩
      · split_ifs
        · exact ⟨by omega, by show _ + 0 ≤ _; omega, fun _ => rfl, zero⟩
        · exact ⟨by omega, hle', by omega⟩
      · rw [hstep, (hg.append x).indexFrom_eq headEnd_ne_nil, index_append headEnd_ne_nil hi]
        dsimp only
        rw [if_neg hmax, take_append_of_le_length hle, hf]

theorem sizedStep_kept (hg : Phase.Good b (.sized frame)) :
    Kept (phaseStep lib config) Phase.Good b (.sized frame) (sizedStep lib config b frame) := by
  unfold sizedStep
  split_ifs with hle
  · exact ⟨hg, fun _ => rfl⟩
  · refine finish_kept (by omega) fun x => ?_
    rw [phaseStep, sizedStep, if_neg (by simp; omega)]

section
variable (hg : Scanned b frame scan)
include hg

theorem Scanned.drop_append (x : Bytes) :
    (b ++ x).drop (frame.headerEnd + scan.at_) = b.drop (frame.headerEnd + scan.at_) ++ x :=
  drop_append_of_le_length hg.within

theorem Scanned.push (x : Bytes) : Scanned (b ++ x) frame scan where
  pos := hg.pos
  within := by
    have := hg.within
    simp
    omega
  start := hg.start
  passed := by
    rw [hg.drop_append]
    exact hg.passed.append x

theorem chunkStep_kept (ht : scan.trailer = false) :
    Kept (phaseStep lib config) Phase.Good b (.chunked frame scan) (chunkStep config b frame scan) := by
  have hstep : ∀ x, phaseStep lib config (b ++ x) (.chunked frame scan) = chunkStep config (b ++ x) frame scan :=
    fun _ => phaseStep_chunk ht
  have hwithin := hg.within
  unfold chunkStep at hstep ⊢
  cases hm : chunkMove config b frame.headerEnd scan with
  | fail e => trivial
  | arriving => exact ⟨hg, fun _ => rfl⟩
  | last scan' =>
    obtain ⟨n, hn, hp, hscan⟩ := chunkMove_last_iff.1 hm
    refine ⟨?_, fun x => ?_⟩
    · have hle := (isChunkLine_of_parse hp hn).1
      rw [length_drop] at hle
      subst hscan
      refine ⟨hg.pos, by dsimp only; omega, by simp, ?_⟩
      rw [hg.start ht]
      exact zero
    · have hx : chunkMove config (b ++ x) frame.headerEnd scan = .last scan' := by
        refine chunkMove_last_iff.2 ⟨n, hn, ?_, hscan⟩
        rw [hg.drop_append]
        exact parseChunkLine_append hp hn x
      rw [hstep, hx]
  | chunk scan' =>
    obtain ⟨size, n, hz, hn, hp, ha, hterm, hscan⟩ := chunkMove_chunk_iff.1 hm
    refine ⟨?_, fun x => ?_⟩
    · have hend := (crlf_prefix_iff.1 hterm).1
      subst hscan
      refine ⟨hg.pos, by dsimp only; omega, fun _ => hg.start ht, ?_⟩
      rw [hg.start ht]
      exact zero
    · have hx : chunkMove config (b ++ x) frame.headerEnd scan = .chunk scan' := by
        refine chunkMove_chunk_iff.2 ⟨size, n, hz, hn, ?_, ha, prefix_drop_append hterm x, hscan⟩
        rw [hg.drop_append]
        exact parseChunkLine_append hp hn x
      rw [hstep, hx]

theorem trailerStep_eq : trailerStep lib config b frame scan =
    match trailerVerdict config b frame.headerEnd scan.at_ (index headEnd (b.drop (frame.headerEnd + scan.at_))) with
    | .error e => .fail e
    | .ok none => .wait (.chunked frame
        { scan with trailerScan := (b.drop (frame.headerEnd + scan.at_)).length - 3 })
    | .ok (some end_) => finish lib config b { frame with end_ := end_ } := by
  unfold trailerStep trailerEnd
  dsimp only
  rw [hg.passed.indexFrom_eq headEnd_ne_nil]
  rcases trailerVerdict config b frame.headerEnd scan.at_ _ with e | _ | end_ <;> rfl

theorem trailerStep_kept (ht : scan.trailer = true) :
    Kept (phaseStep lib config) Phase.Good b (.chunked frame scan) (trailerStep lib config b frame scan) := by
  rw [trailerStep_eq hg]
  cases hv : trailerVerdict config b frame.headerEnd scan.at_
      (index headEnd (b.drop (frame.headerEnd + scan.at_))) with
  | error e => trivial
  | ok found =>
    cases found with
    | none =>
      have hpassed := of_index_none headEnd_ne_nil (trailerVerdict_none_iff.1 hv).2.1
      have hg' : Scanned b frame { scan with trailerScan := (b.drop (frame.headerEnd + scan.at_)).length - 3 } :=
        ⟨hg.pos, hg.within, fun h => by simp [ht] at h, hpassed⟩
      refine ⟨hg', fun x => ?_⟩
      have ht' : ({ scan with trailerScan := (b.drop (frame.headerEnd + scan.at_)).length - 3 } : ChunkScan).trailer =
        true := ht
      rw [phaseStep_trailer ht', phaseStep_trailer ht, trailerStep_eq (hg'.push x), trailerStep_eq (hg.push x)]
    | some end_ =>
      obtain ⟨hle, hx⟩ := trailerVerdict_done hg.within hv
      refine finish_kept hle fun x => ?_
      rw [phaseStep_trailer ht, trailerStep_eq (hg.push x), hx]

end

theorem Phase.Good.push (hg : Phase.Good b s) (x : Bytes) : Phase.Good (b ++ x) s := by
  cases s with
  | head k => exact append hg x
  | sized frame =>
    obtain ⟨hpos, hend, hle⟩ := hg
    refine ⟨hpos, hend, ?_⟩
    rw [length_append]
    omega
  | chunked frame scan => exact Scanned.push hg x

theorem phases_steady : Steady (phaseStep lib config) Phase.Good where
  push := Phase.Good.push
  kept := by
    intro b s hg
    cases s with
    | head k => exact headStep_kept hg
    | sized frame => exact sizedStep_kept hg
    | chunked frame scan =>
      cases ht : scan.trailer with
      | true =>
        rw [phaseStep_trailer ht]
        exact trailerStep_kept hg ht
      | false =>
        rw [phaseStep_chunk ht]
        exact chunkStep_kept hg ht

theorem phaseStep_emit_pos {s s' : Phase} {r : Request} {n : ℕ} (hg : Phase.Good b s)
    (h : phaseStep lib config b s = .emit r n s') : 0 < n := by
  have hfinish : ∀ frame : FrameInfo, finish lib config b frame = .emit r n s' → n = frame.end_ := by
    intro frame hf
    unfold finish at hf
    split at hf <;> cases hf
    rfl
  cases s with
  | head k =>
    rw [phaseStep, headStep] at h
    split at h
    · split_ifs at h
    · split_ifs at h
      split at h <;> cases h
  | sized frame =>
    obtain ⟨hpos, hend, -⟩ := hg
    rw [phaseStep, sizedStep] at h
    split_ifs at h
    have := hfinish _ h
    omega
  | chunked frame scan =>
    cases ht : scan.trailer with
    | true =>
      rw [phaseStep_trailer ht, trailerStep_eq hg] at h
      split at h
      · cases h
      · cases h
      rename_i end_ hv
      have hn := hfinish _ h
      have := trailerVerdict_past hv
      dsimp only at hn
      omega
    | false =>
      rw [phaseStep_chunk ht, chunkStep] at h
      split at h <;> cases h

end Lemmas

section Refinement
variable {lib : Library} {config : Config} {b : Bytes} {frame : FrameInfo} {scan scan' : ChunkScan}

/-- The scanner gets from `s` to `t` on what is buffered, with nothing emitted. -/
abbrev Moves (lib : Library) (config : Config) (b : Bytes) (s t : Phase) : Prop :=
  Reach (phaseStep lib config) b s [] b t

/-- What the loop over the chunks comes to is what the scanner does next in `t`. -/
def ScanEnds (lib : Library) (config : Config) (b : Bytes) (frame : FrameInfo) (scan : ChunkScan) (t : Phase) :
    Except ParseError Bool → Prop
  | .error e => phaseStep lib config b t = .fail e
  | .ok false => phaseStep lib config b t = .wait (.chunked frame scan)
  | .ok true => t = .chunked frame scan ∧ scan.trailer = true

variable {feed : Parser → Bytes → Parser × Except ParseError (Option Request)} {fuel : ℕ}

theorem scanChunks_spec {r : Except ParseError Bool} (hg : Scanned b frame scan)
    (hfuel : b.length < frame.headerEnd + scan.at_ + fuel)
    (h : scanChunks config b frame.headerEnd fuel scan = (scan', r)) :
    ∃ t, Moves lib config b (.chunked frame scan) t ∧ Phase.Good b t ∧ ScanEnds lib config b frame scan' t r := by
  induction fuel generalizing scan with
  | zero =>
    have := hg.within
    omega
  | succ fuel ih =>
    unfold scanChunks at h
    cases ht : scan.trailer with
    | true =>
      rw [if_pos ht] at h
      cases h
      exact ⟨_, .refl _ _, hg, rfl, ht⟩
    | false =>
      rw [if_neg (by simp [ht])] at h
      have hgood : Phase.Good b (.chunked frame scan) := hg
      have hstep : phaseStep lib config b (.chunked frame scan) = chunkStep config b frame scan := phaseStep_chunk ht
      unfold chunkStep at hstep
      cases hm : chunkMove config b frame.headerEnd scan with
      | fail e =>
        rw [hm] at h hstep
        cases h
        exact ⟨_, .refl _ _, hg, hstep⟩
      | arriving =>
        rw [hm] at h hstep
        cases h
        exact ⟨_, .refl _ _, hg, hstep⟩
      | last scan₁ =>
        rw [hm] at h hstep
        cases h
        obtain ⟨n, -, -, hscan⟩ := chunkMove_last_iff.1 hm
        refine ⟨_, .next hstep (.refl _ _), (phases_steady.next hgood hstep).1, rfl, ?_⟩
        rw [hscan]
      | chunk scan₁ =>
        rw [hm] at h hstep
        obtain ⟨size, n, -, -, -, -, -, hscan⟩ := chunkMove_chunk_iff.1 hm
        have hat : scan₁.at_ = scan.at_ + n + size + 2 := by rw [hscan]
        obtain ⟨t, hr, hgt, hends⟩ := ih (phases_steady.next hgood hstep).1 (by omega) h
        exact ⟨t, .next hstep hr, hgt, hends⟩

/-- What framing comes to is what the scanner does next in `t`; it waits in the phase of `p`. -/
def Frames (lib : Library) (config : Config) (b : Bytes) (p : Parser) (t : Phase) :
    Except ParseError (Option FrameInfo) → Prop
  | .error e => phaseStep lib config b t = .fail e
  | .ok none => phaseStep lib config b t = .wait p.phase
  | .ok (some frame) => phaseStep lib config b t = finish lib config b frame ∧ p.awaiting = none

variable {r : Except ParseError (Option FrameInfo)} {p p' : Parser}

theorem chunkedFrame_spec (hc : frame.chunked = true) (hg : Scanned p.buffer frame p.chunks)
    (h : p.chunkedFrame config frame = (p', r)) :
    p'.buffer = p.buffer ∧ ∃ t, Moves lib config p.buffer (.chunked frame p.chunks) t ∧
      Frames lib config p.buffer p' t r := by
  unfold chunkedFrame chunkedEnd at h
  dsimp only at h
  rcases hs : scanChunks config p.buffer frame.headerEnd (p.buffer.length + 1) p.chunks with ⟨scan, v⟩
  obtain ⟨t, hm, -, hends⟩ : ∃ t, Moves lib config _ _ t ∧ _ := scanChunks_spec hg (by omega) hs
  rw [hs] at h
  match v, hends with
  | .error e, hends =>
    cases h
    exact ⟨rfl, t, hm, hends⟩
  | .ok false, hends =>
    cases h
    refine ⟨rfl, t, hm, ?_⟩
    rw [Frames, phase_chunked rfl hc]
    exact hends
  | .ok true, hends =>
    obtain ⟨rfl, ht⟩ := hends
    have hstep : phaseStep lib config p.buffer (.chunked frame scan) = trailerStep lib config p.buffer frame scan :=
      phaseStep_trailer ht
    rw [trailerStep] at hstep
    dsimp only at h
    rcases htr : trailerEnd config p.buffer frame.headerEnd scan with ⟨scan₁, e | _ | end_⟩
    · rw [htr] at h hstep
      cases h
      exact ⟨rfl, _, hm, hstep⟩
    · rw [htr] at h hstep
      cases h
      refine ⟨rfl, _, hm, ?_⟩
      rw [Frames, phase_chunked rfl hc]
      exact hstep
    · rw [htr] at h hstep
      cases h
      exact ⟨rfl, _, hm, hstep, rfl⟩

theorem sizedFrame_spec {q : Parser}
    (h : (if frame.end_ > b.length then (p, .ok none) else (q, .ok (some frame))) = (p', r))
    (hb : p.buffer = b) (hp : p.phase = .sized frame) (hq : q.buffer = b ∧ q.awaiting = none) :
    p'.buffer = b ∧ Frames lib config b p' (.sized frame) r := by
  have hstep : phaseStep lib config b (.sized frame) = sizedStep lib config b frame := rfl
  unfold sizedStep at hstep
  split_ifs at h hstep
  · cases h
    refine ⟨hb, ?_⟩
    rw [Frames, hp]
    exact hstep
  · cases h
    exact ⟨hq.1, hstep, hq.2⟩

theorem headFrame_moves (ha : p.awaiting = none)
    (hg : Passed headEnd p.headerScan p.buffer) (h : p.frameLength lib config = (p', r)) : p'.buffer = p.buffer ∧
      ∃ t, Moves lib config p.buffer (.head p.headerScan) t ∧ Frames lib config p.buffer p' t r := by
  have hgood : Phase.Good p.buffer (.head p.headerScan) := hg
  have hstep : phaseStep lib config p.buffer (.head p.headerScan) = headStep lib config p.buffer p.headerScan := rfl
  unfold frameLength at h
  unfold headStep at hstep
  rw [ha] at h
  cases hi : indexFrom headEnd p.headerScan p.buffer with
  | none =>
    rw [hi] at h hstep
    split_ifs at h hstep with hmax
    · cases h
      exact ⟨rfl, _, .refl _ _, hstep⟩
    · cases h
      refine ⟨rfl, _, .refl _ _, ?_⟩
      rw [Frames, phase_head rfl]
      exact hstep
  | some i =>
    rw [hi] at h hstep
    dsimp only at h hstep
    split_ifs at h hstep with hmax
    · cases h
      exact ⟨rfl, _, .refl _ _, hstep⟩
    cases hf : headFrame lib config (p.buffer.take (i + 4)) with
    | error e =>
      rw [hf] at h hstep
      cases h
      exact ⟨rfl, _, .refl _ _, hstep⟩
    | ok frame =>
      rw [hf] at h hstep
      dsimp only at h hstep
      have hg' := (phases_steady.next hgood hstep).1
      cases hc : frame.chunked with
      | true =>
        rw [if_pos hc] at h hg' hstep
        have hs : Scanned p.buffer frame ({ p with chunks := {} } : Parser).chunks := hg'
        obtain ⟨hb, t, hm, hfr⟩ := chunkedFrame_spec hc hs h
        exact ⟨hb, t, .next hstep hm, hfr⟩
      | false =>
        have hc' : ¬ frame.chunked = true := by simp [hc]
        rw [if_neg hc'] at h hstep
        obtain ⟨hb, hfr⟩ := sizedFrame_spec h rfl (phase_sized rfl hc) ⟨rfl, ha⟩
        exact ⟨hb, _, .next hstep (.refl _ _), hfr⟩

theorem frameLength_spec (hg : Phase.Good p.buffer p.phase) (h : p.frameLength lib config = (p', r)) :
    p'.buffer = p.buffer ∧ ∃ t, Moves lib config p.buffer p.phase t ∧ Frames lib config p.buffer p' t r := by
  cases ha : p.awaiting with
  | none =>
    rw [phase_head ha] at hg ⊢
    exact headFrame_moves ha hg h
  | some frame =>
    unfold frameLength at h
    rw [ha] at h
    dsimp only at h
    cases hc : frame.chunked with
    | true =>
      rw [if_pos hc] at h
      rw [phase_chunked ha hc] at hg ⊢
      exact chunkedFrame_spec hc hg h
    | false =>
      rw [if_neg (by simp [hc])] at h
      obtain ⟨hb, hfr⟩ := sizedFrame_spec h rfl (phase_sized ha hc) ⟨rfl, rfl⟩
      rw [phase_sized ha hc]
      exact ⟨hb, _, .refl _ _, hfr⟩

/-- What one call of the parser comes to is what the scanner does next in `t`. -/
def Calls (lib : Library) (config : Config) (b : Bytes) (p : Parser) (t : Phase) :
    Except ParseError (Option Request) → Prop
  | .error e => phaseStep lib config b t = .fail e
  | .ok none => phaseStep lib config b t = .wait p.phase ∧ p.buffer = b
  | .ok (some req) => ∃ n, phaseStep lib config b t = .emit req n p.phase ∧ p.buffer = b.drop n

theorem feedOne_spec {r : Except ParseError (Option Request)}
    (hg : Phase.Good p.buffer p.phase) (h : p.feedOne lib config = (p', r)) :
    ∃ t, Moves lib config p.buffer p.phase t ∧ Calls lib config p.buffer p' t r := by
  unfold Parser.feedOne at h
  rcases hf : p.frameLength lib config with ⟨q, e | _ | frame⟩
  · obtain ⟨hb, t, hm, hfr⟩ := frameLength_spec hg hf
    rw [hf] at h
    cases h
    exact ⟨t, hm, hfr⟩
  · obtain ⟨hb, t, hm, hfr⟩ := frameLength_spec hg hf
    rw [hf] at h
    cases h
    exact ⟨t, hm, hfr, hb⟩
  obtain ⟨hb, t, hm, hfin, haw⟩ := frameLength_spec hg hf
  rw [hf] at h
  dsimp only at h
  rw [hb] at h
  unfold finish at hfin
  cases hr : receive lib config frame (p.buffer.take frame.end_) with
  | error e =>
    rw [hr] at h hfin
    cases h
    exact ⟨t, hm, hfin⟩
  | ok req =>
    rw [hr] at h hfin
    cases h
    refine ⟨t, hm, frame.end_, ?_, ?_⟩
    · have hphase : (q.consume frame.end_).phase = .head 0 := by
        unfold Parser.consume Parser.phase
        split_ifs <;> simp [Parser.discard, haw]
      rw [hphase]
      exact hfin
    · unfold Parser.consume
      split_ifs with hall
      · simp [Parser.discard, hall, hb]
      · simp [hb]

/-- A way of feeding the parser adds the bytes to what is buffered and parses one request. -/
def FeedsOne (lib : Library) (config : Config)
    (feed : Parser → Bytes → Parser × Except ParseError (Option Request)) : Prop :=
  ∀ (p : Parser) (data : Bytes), Phase.Good p.buffer p.phase →
    ∃ q : Parser, q.buffer = p.buffer ++ data ∧ q.phase = p.phase ∧ feed p data = q.feedOne lib config

theorem appendBuffer_spec (p : Parser) (data : Bytes) :
    (p.appendBuffer data).buffer = p.buffer ++ data ∧ (p.appendBuffer data).phase = p.phase := by
  unfold appendBuffer
  split_ifs with h0
  · rw [length_eq_zero_iff.1 h0, append_nil]
    exact ⟨rfl, rfl⟩
  · exact ⟨rfl, rfl⟩

theorem feedOne_feeds : FeedsOne lib config (Parser.FeedOne lib config) := by
  intro p data _
  exact ⟨p.appendBuffer data, (appendBuffer_spec p data).1, (appendBuffer_spec p data).2, rfl⟩

/-- Nothing is awaited while nothing is buffered, so that bytes may be borrowed then. -/
theorem awaiting_of_empty (hg : Phase.Good p.buffer p.phase) (hb : p.buffer.length = 0) : p.awaiting = none := by
  cases ha : p.awaiting with
  | none => rfl
  | some frame =>
    cases hc : frame.chunked with
    | true =>
      rw [phase_chunked ha hc] at hg
      have := hg.pos
      have := hg.within
      omega
    | false =>
      rw [phase_sized ha hc] at hg
      obtain ⟨hpos, -, hle⟩ := hg
      omega

theorem feedBorrowed_feeds : FeedsOne lib config (Parser.feedBorrowed lib config) := by
  intro p data hg
  unfold feedBorrowed
  split_ifs with h0
  · refine ⟨_, ?_, ?_, rfl⟩
    · rw [length_eq_zero_iff.1 h0.1, nil_append]
    · rw [phase_head (awaiting_of_empty hg h0.1)]
      rfl
  · exact ⟨_, (appendBuffer_spec p data).1, (appendBuffer_spec p data).2, rfl⟩

theorem feedRound_spec (hfeed : FeedsOne lib config feed) {data : Bytes} {reqs : List Request}
    {refused : Bool} (hg : Phase.Good p.buffer p.phase) (hfuel : (p.buffer ++ data).length < fuel)
    (h : feedRound feed fuel p data = (p', reqs, refused)) :
    Drain (phaseStep lib config) (p.buffer ++ data) p.phase reqs
      (if refused then .refused else .stuck p'.buffer p'.phase) := by
  induction fuel generalizing p data reqs with
  | zero => omega
  | succ fuel ih =>
    obtain ⟨q, hb, hp, hq⟩ := hfeed p data hg
    have hgq := hg.push data
    rw [← hb, ← hp] at hgq ⊢
    rw [← hb] at hfuel
    unfold feedRound at h
    rw [hq] at h
    rcases hone : q.feedOne lib config with ⟨q', e | _ | req⟩
    · obtain ⟨t, hm, hstep⟩ := feedOne_spec hgq hone
      rw [hone] at h
      cases h
      exact hm.drain (.fail hstep)
    · obtain ⟨t, hm, hstep, hb'⟩ := feedOne_spec hgq hone
      rw [hone] at h
      cases h
      have := hm.drain (.wait hstep)
      rwa [hb']
    obtain ⟨t, hm, n, hstep, hb'⟩ := feedOne_spec hgq hone
    rw [hone] at h
    dsimp only at h
    rcases hrest : feedRound feed fuel q' [] with ⟨p₁, reqs₁, refused₁⟩
    rw [hrest] at h
    cases h
    have hgt := hm.good phases_steady hgq
    have hpos := phaseStep_emit_pos hgt hstep
    obtain ⟨hle, hgood, -⟩ := phases_steady.emit hgt hstep
    rw [← hb'] at hgood
    have hlen := congrArg List.length hb'
    rw [length_drop] at hlen
    have hdrain := ih hgood (by rw [append_nil]; omega) hrest
    rw [append_nil, hb'] at hdrain
    exact hm.drain (.emit hstep hdrain)

theorem feedAll_spec {endRound : Parser → Parser} (hfeed : FeedsOne lib config feed)
    (hend : ∀ p, (endRound p).buffer = p.buffer ∧ (endRound p).phase = p.phase)
    (hg : Phase.Good p.buffer p.phase) (pieces : List Bytes) :
    Feeds (phaseStep lib config) p.buffer p.phase pieces (feedAll feed endRound p pieces).1
      (feedAll feed endRound p pieces).2 := by
  induction pieces generalizing p with
  | nil => exact .nil _ _
  | cons data pieces ih =>
    unfold feedAll
    rcases hr : feedRound feed (p.buffer.length + data.length + 1) p data with ⟨q, reqs, refused⟩
    have hd := feedRound_spec hfeed hg (by simp) hr
    cases refused with
    | true => exact .refused hd
    | false =>
      obtain ⟨hgq, -⟩ := hd.stuck_good phases_steady (hg.push data)
      obtain ⟨hb, hp⟩ := hend q
      have hrest := ih (by rwa [hb, hp])
      rw [hb, hp] at hrest
      exact .stuck hd hrest

end Refinement
end Fib.Http
