import Fib.Lib.Bytes
import Mathlib.Data.List.DropRight

/-! Chunked bodies that arrive in pieces: the chunk-size line, the trailer section, and the scan that
finds the end of the body and remembers how far it got. -/

namespace Fib.Http
open List

/-- What a request is refused for, with the text that follows `ErrMalformed`. -/
inductive ParseError
  | headerTooLarge
  | bodyTooLarge
  | malformed (msg : String)
  | unsupportedTransferEncoding (msg : String)
  deriving DecidableEq

structure Config where
  maxHeaderBytes : ℕ
  maxBodyBytes : ℕ

def crlf : Bytes := [13, 10]

def headEnd : Bytes := [13, 10, 13, 10]

def errBareLF : ParseError := .malformed "bare LF in the header section"
def errObsFold : ParseError := .malformed "obsolete line folding in the header section"
def errChunkLine : ParseError := .malformed "invalid chunk size line"
def errChunkLineTooLong : ParseError := .malformed "chunk size line too long"
def errChunkTerminator : ParseError := .malformed "invalid chunk terminator"

def isBlank (c : UInt8) : Bool := c = 32 || c = 9

/-- The check of each line of a head or trailer section; `last` is the byte before. -/
def lineErrorAfter (foldOK : Bool) : UInt8 → Bytes → Option ParseError
  | _, [] => none
  | last, c :: block =>
    if c = 10 then
      if last ≠ 13 then some errBareLF
      else if !foldOK && (block.head?.any isBlank) then some errObsFold
      else lineErrorAfter foldOK c block
    else lineErrorAfter foldOK c block

def headLineError (block : Bytes) (foldOK : Bool) : Option ParseError := lineErrorAfter foldOK 0 block

def maxChunkLine : ℕ := 1024

def maxInt64 : ℕ := 2 ^ 63 - 1

def hexDigit (c : UInt8) : Option ℕ :=
  if 48 ≤ c ∧ c ≤ 57 then some (c.toNat - 48)
  else if 97 ≤ c ∧ c ≤ 102 then some (c.toNat - 97 + 10)
  else if 65 ≤ c ∧ c ≤ 70 then some (c.toNat - 65 + 10)
  else none

def hexSize : ℕ → Bytes → Option ℕ
  | size, [] => some size
  | size, c :: line =>
    match hexDigit c with
    | none => none
    | some d => hexSize (size * 16 + d) line

def chunkLineSize (line : Bytes) : Except ParseError ℕ :=
  if 13 ∈ line then .error errChunkLine
  else
    let line := (line.rdropWhile isBlank).takeWhile (· ≠ 59)
    if line.length = 0 ∨ line.length > 16 then .error errChunkLine
    else
      match hexSize 0 line with
      | none => .error errChunkLine
      | some size => if size > maxInt64 then .error errChunkLine else .ok size

/-- The size of a chunk and the length of its line with the CRLF, zero while it is still arriving. -/
def parseChunkLine (b : Bytes) : Except ParseError (ℕ × ℕ) :=
  match (b.take maxChunkLine).idxOf? 10 with
  | none => if b.length ≥ maxChunkLine then .error errChunkLineTooLong else .ok (0, 0)
  | some lf =>
    if lf = 0 ∨ b.getD (lf - 1) 0 ≠ 13 then .error errChunkLine
    else
      match chunkLineSize (b.take (lf - 1)) with
      | .error e => .error e
      | .ok size => .ok (size, lf + 1)

section ChunkLine
variable {b l line : Bytes} {size n : ℕ} {e : ParseError}

/-- What a chunk-size line says: `l` is all of it before its LF. -/
def lineMeaning (l : Bytes) : Except ParseError (ℕ × ℕ) :=
  if l.length = 0 ∨ l.getD (l.length - 1) 0 ≠ 13 then .error errChunkLine
  else
    match chunkLineSize (l.take (l.length - 1)) with
    | .error e => .error e
    | .ok size => .ok (size, l.length + 1)

theorem chunkLine_cases (b : Bytes) :
    (10 ∉ b ∧ b.length < maxChunkLine) ∨ (10 ∉ b.take maxChunkLine ∧ maxChunkLine ≤ b.length) ∨
      ∃ l r, b = l ++ 10 :: r ∧ 10 ∉ l ∧ l.length < maxChunkLine := by
  by_cases h : 10 ∈ b.take maxChunkLine
  · obtain ⟨l, r, hl, hn⟩ := eq_append_cons_of_mem h
    refine .inr (.inr ⟨l, r ++ b.drop maxChunkLine, ?_, hn, ?_⟩)
    · calc b = b.take maxChunkLine ++ b.drop maxChunkLine := (take_append_drop _ _).symm
        _ = _ := by rw [hl]; simp
    · have := congrArg length hl
      simp at this
      omega
  · rcases lt_or_ge b.length maxChunkLine with hlt | hge
    · rw [take_of_length_le hlt.le] at h
      exact .inl ⟨h, hlt⟩
    · exact .inr (.inl ⟨h, hge⟩)

theorem parseChunkLine_open (h : 10 ∉ b) (hb : b.length < maxChunkLine) : parseChunkLine b = .ok (0, 0) := by
  have hnone : (b.take maxChunkLine).idxOf? 10 = none :=
    idxOf?_eq_none_iff.2 fun hm => h (mem_of_mem_take hm)
  unfold parseChunkLine
  rw [hnone]
  exact if_neg (by omega)

theorem parseChunkLine_long (h : 10 ∉ b.take maxChunkLine) (hb : maxChunkLine ≤ b.length) :
    parseChunkLine b = .error errChunkLineTooLong := by
  unfold parseChunkLine
  rw [idxOf?_eq_none_iff.2 h]
  exact if_pos hb

theorem parseChunkLine_line (h : 10 ∉ l) (hl : l.length < maxChunkLine) (r : Bytes) :
    parseChunkLine (l ++ 10 :: r) = lineMeaning l := by
  have hat : ((l ++ 10 :: r).take maxChunkLine).idxOf? 10 = some l.length := by
    rw [idxOf?_eq_some_iff]
    refine ⟨by simp; omega, by simp, fun j hj hjl => h ?_⟩
    simp only [getElem_take, getElem_append_left hj] at hjl
    exact hjl ▸ getElem_mem hj
  have hbyte : l.length ≠ 0 → (l ++ 10 :: r).getD (l.length - 1) 0 = l.getD (l.length - 1) 0 := by
    intro h0
    simp only [getD_eq_getElem?_getD]
    rw [getElem?_append_left (by omega)]
  unfold parseChunkLine lineMeaning
  rw [hat]
  dsimp only
  rw [take_append_of_le_length (by omega)]
  by_cases h0 : l.length = 0
  · simp [h0]
  · rw [hbyte h0]

theorem parseChunkLine_error_append (h : parseChunkLine b = .error e) (x : Bytes) :
    parseChunkLine (b ++ x) = .error e := by
  rcases chunkLine_cases b with ⟨hn, hb⟩ | ⟨hn, hb⟩ | ⟨l, r, rfl, hn, hl⟩
  · rw [parseChunkLine_open hn hb] at h
    cases h
  · rw [← h, parseChunkLine_long hn hb]
    apply parseChunkLine_long
    · rwa [take_append_of_le_length hb]
    · simp; omega
  · rw [parseChunkLine_line hn hl] at h
    rw [append_assoc, cons_append, parseChunkLine_line hn hl, h]

def IsChunkLine (line : Bytes) (size : ℕ) : Prop := line ≠ [] ∧ parseChunkLine line = .ok (size, line.length)

theorem lineMeaning_length (h : lineMeaning l = .ok (size, n)) : n = l.length + 1 := by
  unfold lineMeaning at h
  split_ifs at h
  split at h
  · cases h
  · simp only [Except.ok.injEq, Prod.mk.injEq] at h
    exact h.2.symm

section
variable (h : IsChunkLine line size)
include h

theorem IsChunkLine.shape :
    ∃ l, line = l ++ [10] ∧ 10 ∉ l ∧ l.length < maxChunkLine ∧ lineMeaning l = .ok (size, line.length) := by
  obtain ⟨hne, hp⟩ := h
  rcases chunkLine_cases line with ⟨hn, hb⟩ | ⟨hn, hb⟩ | ⟨l, r, rfl, hn, hl⟩
  · rw [parseChunkLine_open hn hb] at hp
    simp only [Except.ok.injEq, Prod.mk.injEq] at hp
    exact absurd (length_eq_zero_iff.1 hp.2.symm) hne
  · rw [parseChunkLine_long hn hb] at hp
    cases hp
  rw [parseChunkLine_line hn hl] at hp
  have hlen := lineMeaning_length hp
  have hr : r = [] := by
    rw [← length_eq_zero_iff]
    simp only [length_append, length_cons] at hlen
    omega
  subst hr
  exact ⟨l, rfl, hn, hl, hp⟩

theorem IsChunkLine.parse (x : Bytes) : parseChunkLine (line ++ x) = .ok (size, line.length) := by
  obtain ⟨l, rfl, hn, hl, hm⟩ := h.shape
  rw [append_assoc, singleton_append, parseChunkLine_line hn hl, hm]

theorem IsChunkLine.parse_part (hb : b <+: line) (hlt : b.length < line.length) : parseChunkLine b = .ok (0, 0) := by
  obtain ⟨l, rfl, hn, hl, hm⟩ := h.shape
  simp only [length_append, length_singleton] at hlt
  have hbl : b <+: l := prefix_of_prefix_length_le hb (prefix_append _ _) (by omega)
  exact parseChunkLine_open (fun hm => hn (hbl.subset hm)) (lt_of_le_of_lt hbl.length_le hl)

end

variable (h : parseChunkLine b = .ok (size, n)) (hn : n ≠ 0)
include h hn

theorem isChunkLine_of_parse : n ≤ b.length ∧ IsChunkLine (b.take n) size := by
  rcases chunkLine_cases b with ⟨h10, hb⟩ | ⟨h10, hb⟩ | ⟨l, r, rfl, h10, hl⟩
  · rw [parseChunkLine_open h10 hb] at h
    simp at h
    exact absurd h.2.symm hn
  · rw [parseChunkLine_long h10 hb] at h
    cases h
  rw [parseChunkLine_line h10 hl] at h
  obtain rfl := lineMeaning_length h
  have htake : (l ++ 10 :: r).take (l.length + 1) = l ++ [10] := by
    rw [take_length_add_append]
    rfl
  refine ⟨by simp, ?_, ?_⟩
  · rw [htake]
    simp
  · rw [htake, parseChunkLine_line h10 hl, h]
    simp

theorem parseChunkLine_append (x : Bytes) : parseChunkLine (b ++ x) = .ok (size, n) := by
  obtain ⟨hle, hline⟩ := isChunkLine_of_parse h hn
  have := hline.parse (b.drop n ++ x)
  rwa [← append_assoc, take_append_drop, length_take, min_eq_left hle] at this

end ChunkLine

/-- How far the scan of a chunked body has got, counted from the body's start. -/
structure ChunkScan where
  at_ : ℕ := 0
  decoded : ℕ := 0
  trailer : Bool := false
  trailerScan : ℕ := 0
  deriving DecidableEq

def Config.raw (config : Config) : ℕ := config.maxBodyBytes + config.maxHeaderBytes

/-- What the scan does with the chunk-size line it stands before. -/
inductive ChunkMove
  | fail (e : ParseError)
  | arriving
  | last (scan : ChunkScan)
  | chunk (scan : ChunkScan)

def chunkMove (config : Config) (data : Bytes) (start : ℕ) (scan : ChunkScan) : ChunkMove :=
  let offset := start + scan.at_
  match parseChunkLine (data.drop offset) with
  | .error e => .fail e
  | .ok (size, n) =>
    if n = 0 then
      if data.length - start > config.raw then .fail .bodyTooLarge else .arriving
    else if size = 0 then
      -- the wire bound is not looked at here, though the line may have passed it
      .last { scan with at_ := offset + n - start, trailer := true }
    else if size > config.maxBodyBytes - scan.decoded ∨ offset + n - start + size + 2 > config.raw then
      .fail .bodyTooLarge
    else
      let chunkEnd := offset + n + size
      if chunkEnd + 2 > data.length then .arriving
      else if data.getD chunkEnd 0 ≠ 13 ∨ data.getD (chunkEnd + 1) 0 ≠ 10 then .fail errChunkTerminator
      else .chunk { scan with decoded := scan.decoded + size, at_ := chunkEnd + 2 - start }

theorem crlf_prefix_iff {b : Bytes} {i : ℕ} :
    crlf <+: b.drop i ↔ i + 2 ≤ b.length ∧ b.getD i 0 = 13 ∧ b.getD (i + 1) 0 = 10 := by
  rw [crlf]
  constructor
  · rintro ⟨t, ht⟩
    have hlen := congrArg length ht
    have h0 := congrArg (·[0]?) ht
    have h1 := congrArg (·[1]?) ht
    simp only [length_append, length_cons, length_nil, length_drop] at hlen
    simp only [getElem?_drop, cons_append, nil_append, getElem?_cons_zero, getElem?_cons_succ] at h0 h1
    refine ⟨by omega, ?_, ?_⟩
    · rw [getD_eq_getElem?_getD, ← Nat.add_zero i, ← h0]
      rfl
    · rw [getD_eq_getElem?_getD, ← h1]
      rfl
  · rintro ⟨hle, h0, h1⟩
    rw [drop_eq_getElem_cons (by omega), drop_eq_getElem_cons (by omega)]
    rw [getD_eq_getElem?_getD, getElem?_eq_getElem (by omega), Option.getD_some] at h0 h1
    rw [h0, h1]
    exact ⟨_, rfl⟩

section ChunkMove
variable {config : Config} {data : Bytes} {start : ℕ} {scan scan' : ChunkScan}

theorem chunkMove_last_iff : chunkMove config data start scan = .last scan' ↔
    ∃ n, n ≠ 0 ∧ parseChunkLine (data.drop (start + scan.at_)) = .ok (0, n) ∧
      scan' = { scan with at_ := scan.at_ + n, trailer := true } := by
  constructor
  · intro h
    unfold chunkMove at h
    dsimp only at h
    split at h
    · cases h
    rename_i size n hp
    split_ifs at h with hn _ hz
    cases h
    subst hz
    exact ⟨n, hn, hp, by rw [Nat.add_assoc, Nat.add_sub_cancel_left]⟩
  · rintro ⟨n, hn, hp, rfl⟩
    unfold chunkMove
    simp only [hp, hn, if_false, if_true]
    rw [Nat.add_assoc, Nat.add_sub_cancel_left]

/-- A chunk of `size` bytes whose line takes `n` is within the limits, behind chunks that took `at_` and
carried `decoded`. -/
def Allowed (config : Config) (at_ decoded size n : ℕ) : Prop :=
  size ≤ config.maxBodyBytes - decoded ∧ at_ + n + size + 2 ≤ config.raw

theorem chunkMove_chunk_iff : chunkMove config data start scan = .chunk scan' ↔
    ∃ size n, size ≠ 0 ∧ n ≠ 0 ∧ parseChunkLine (data.drop (start + scan.at_)) = .ok (size, n) ∧
      Allowed config scan.at_ scan.decoded size n ∧ crlf <+: data.drop (start + scan.at_ + n + size) ∧
      scan' = { scan with decoded := scan.decoded + size, at_ := scan.at_ + n + size + 2 } := by
  have hsub : ∀ n size, start + scan.at_ + n + size + 2 - start = scan.at_ + n + size + 2 := by omega
  have hsub' : ∀ n, start + scan.at_ + n - start = scan.at_ + n := by omega
  constructor
  · intro h
    unfold chunkMove at h
    dsimp only at h
    split at h
    · cases h
    rename_i size n hp
    split_ifs at h with hn _ hz hbig hpart hterm
    cases h
    rw [not_or, not_not, not_not] at hterm
    rw [not_or, hsub'] at hbig
    refine ⟨size, n, hz, hn, hp, ⟨by omega, by omega⟩, crlf_prefix_iff.2 ⟨by omega, hterm⟩, ?_⟩
    rw [hsub]
  · rintro ⟨size, n, hz, hn, hp, ⟨hbody, hraw⟩, hterm, rfl⟩
    obtain ⟨hle, h13, h10⟩ := crlf_prefix_iff.1 hterm
    unfold chunkMove
    simp only [hp, hn, hz, if_false, hsub, hsub']
    rw [if_neg (by omega), if_neg (by omega), if_neg (by rw [h13, h10]; simp)]

/-- A refusal stands when more arrives, unless a chunk-size line that was still arriving past the wire
bound turns out to be the last-chunk line. -/
theorem chunkMove_fail_append {e : ParseError} (hle : start + scan.at_ ≤ data.length)
    (h : chunkMove config data start scan = .fail e) (x : Bytes) :
    (∃ e', chunkMove config (data ++ x) start scan = .fail e') ∨
      ∃ l, IsChunkLine l 0 ∧ config.raw < data.length - start ∧
        (data.drop (start + scan.at_)).length < l.length ∧ l <+: data.drop (start + scan.at_) ++ x := by
  have hdrop : (data ++ x).drop (start + scan.at_) = data.drop (start + scan.at_) ++ x :=
    drop_append_of_le_length hle
  have hlen : (data.drop (start + scan.at_)).length = data.length - (start + scan.at_) := length_drop
  unfold chunkMove at h ⊢
  dsimp only at h ⊢
  rw [hdrop, length_append]
  generalize data.drop (start + scan.at_) = rest at h hlen ⊢
  rcases hp : parseChunkLine rest with e₀ | ⟨size, n⟩
  · rw [parseChunkLine_error_append hp]
    exact .inl ⟨_, rfl⟩
  rw [hp] at h
  dsimp only at h
  by_cases hn : n = 0
  · subst hn
    rw [if_pos rfl] at h
    split_ifs at h with hraw
    rcases hp' : parseChunkLine (rest ++ x) with e₀ | ⟨size', n'⟩
    · exact .inl ⟨_, rfl⟩
    dsimp only
    by_cases hn' : n' = 0
    · rw [if_pos hn', if_pos (by omega)]
      exact .inl ⟨_, rfl⟩
    obtain ⟨hle', hline⟩ := isChunkLine_of_parse hp' hn'
    have hpart : rest.length < n' := by
      by_contra hge
      have hrest := hline.parse (rest.drop n')
      rw [take_append_of_le_length (by omega), take_append_drop, hp, length_take] at hrest
      simp only [Except.ok.injEq, Prod.mk.injEq] at hrest
      omega
    rw [if_neg hn']
    by_cases hz : size' = 0
    · subst hz
      refine .inr ⟨_, hline, hraw, ?_, take_prefix _ _⟩
      rw [length_take]
      omega
    · rw [if_neg hz, if_pos (by omega)]
      exact .inl ⟨_, rfl⟩
  · rw [if_neg hn] at h
    rw [parseChunkLine_append hp hn]
    dsimp only
    rw [if_neg hn]
    split_ifs at h ⊢ with hz hbig hpart hterm hpart' hterm'
    · exact .inl ⟨_, rfl⟩
    · omega
    · exact .inl ⟨_, rfl⟩
    exfalso
    apply hterm'
    have hget : ∀ i < data.length, (data ++ x).getD i 0 = data.getD i 0 := by
      intro i hi
      simp only [getD_eq_getElem?_getD]
      rw [getElem?_append_left hi]
    rwa [hget _ (by omega), hget _ (by omega)]

end ChunkMove

/-- The loop of `chunkedEnd`: true once the trailer section begins, false while chunks are arriving. -/
def scanChunks (config : Config) (data : Bytes) (start : ℕ) : ℕ → ChunkScan → ChunkScan × Except ParseError Bool
  | 0, scan => (scan, .ok false)
  | fuel + 1, scan =>
    if scan.trailer then (scan, .ok true)
    else
      match chunkMove config data start scan with
      | .fail e => (scan, .error e)
      | .arriving => (scan, .ok false)
      | .last scan => (scan, .ok true)
      | .chunk scan => scanChunks config data start fuel scan

def trailerDone (end_ start raw : ℕ) : Except ParseError (Option ℕ) :=
  if end_ - start > raw then .error .bodyTooLarge else .ok (some end_)

/-- Where the trailer section that starts at `at_` ends, with `found` where its blank line was found;
none while it is still arriving. -/
def trailerVerdict (config : Config) (data : Bytes) (start at_ : ℕ) (found : Option ℕ) : Except ParseError (Option ℕ) :=
  let offset := start + at_
  let rest := data.drop offset
  if crlf <+: rest then trailerDone (offset + 2) start config.raw
  else
    match found with
    | none => if rest.length > config.maxHeaderBytes then .error .headerTooLarge else .ok none
    | some i =>
      if i + 4 > config.maxHeaderBytes then .error .headerTooLarge
      else
        match headLineError (rest.take (i + 4)) true with
        | some e => .error e
        | none => trailerDone (offset + i + 4) start config.raw

/-- The part of `chunkedEnd` behind its loop, which looks for the end of the trailer section. -/
def trailerEnd (config : Config) (data : Bytes) (start : ℕ) (scan : ChunkScan) :
    ChunkScan × Except ParseError (Option ℕ) :=
  let rest := data.drop (start + scan.at_)
  match trailerVerdict config data start scan.at_ (indexFrom headEnd scan.trailerScan rest) with
  | .ok none => ({ scan with trailerScan := rest.length - 3 }, .ok none)
  | verdict => (scan, verdict)

section Trailer
variable {config : Config} {data : Bytes} {start at_ end_ : ℕ}

theorem headEnd_ne_nil : headEnd ≠ [] := by decide

theorem headEnd_length : headEnd.length = 4 := rfl

theorem trailerDone_some_iff {end' raw : ℕ} :
    trailerDone end' start raw = .ok (some end_) ↔ end_ = end' ∧ end_ - start ≤ raw := by
  unfold trailerDone
  split_ifs with hraw
  · constructor
    · intro h
      cases h
    · rintro ⟨rfl, h⟩
      omega
  simp only [Except.ok.injEq, Option.some.injEq]
  constructor
  · rintro rfl
    exact ⟨rfl, by omega⟩
  · rintro ⟨rfl, -⟩
    rfl

theorem trailerDone_ne_none {raw : ℕ} : trailerDone end_ start raw ≠ .ok none := by
  unfold trailerDone
  split_ifs <;> simp

variable {found : Option ℕ}

theorem trailerVerdict_none_iff : trailerVerdict config data start at_ found = .ok none ↔
    ¬ crlf <+: data.drop (start + at_) ∧ found = none ∧ data.length - (start + at_) ≤ config.maxHeaderBytes := by
  unfold trailerVerdict
  dsimp only
  by_cases hc : crlf <+: data.drop (start + at_)
  · rw [if_pos hc]
    exact ⟨fun h => absurd h trailerDone_ne_none, fun h => absurd hc h.1⟩
  rw [if_neg hc]
  cases found with
  | none =>
    dsimp only
    rw [length_drop]
    split_ifs with hlong
    · constructor
      · intro h
        cases h
      · intro h
        exact absurd h.2.2 (by omega)
    · exact ⟨fun _ => ⟨hc, rfl, by omega⟩, fun _ => rfl⟩
  | some i =>
    refine ⟨fun h => ?_, fun h => by cases h.2.1⟩
    dsimp only at h
    split_ifs at h
    split at h
    · cases h
    · exact absurd h trailerDone_ne_none

theorem trailerVerdict_some_iff :
    trailerVerdict config data start at_ found = .ok (some end_) ↔ end_ - start ≤ config.raw ∧
      (crlf <+: data.drop (start + at_) ∧ end_ = start + at_ + 2 ∨
        ¬ crlf <+: data.drop (start + at_) ∧ ∃ i, found = some i ∧ i + 4 ≤ config.maxHeaderBytes ∧
          headLineError ((data.drop (start + at_)).take (i + 4)) true = none ∧ end_ = start + at_ + i + 4) := by
  unfold trailerVerdict
  by_cases hc : crlf <+: data.drop (start + at_)
  · rw [if_pos hc, trailerDone_some_iff]
    simp only [hc, true_and, not_true_eq_false, false_and, or_false]
    exact and_comm
  rw [if_neg hc]
  simp only [hc, false_and, not_false_eq_true, true_and, false_or]
  cases found with
  | none =>
    constructor
    · intro h
      split_ifs at h
      cases h
    · rintro ⟨-, i, hi, -⟩
      cases hi
  | some i =>
    dsimp only
    constructor
    · intro h
      split_ifs at h with hmax
      split at h
      · cases h
      · rename_i hline
        obtain ⟨he, hraw⟩ := trailerDone_some_iff.1 h
        exact ⟨hraw, i, rfl, by omega, hline, he⟩
    · rintro ⟨hraw, i', hi, hmax, hline, he⟩
      cases hi
      rw [if_neg (by omega), hline]
      exact trailerDone_some_iff.2 ⟨he, hraw⟩

theorem trailerVerdict_past (h : trailerVerdict config data start at_ found = .ok (some end_)) :
    start + at_ < end_ := by
  obtain ⟨-, ⟨-, he⟩ | ⟨-, i, -, -, -, he⟩⟩ := trailerVerdict_some_iff.1 h <;> omega

theorem trailerVerdict_take
    (h : trailerVerdict config data start at_ (index headEnd (data.drop (start + at_))) = .ok (some end_)) :
    trailerVerdict config (data.take end_) start at_
      (index headEnd ((data.take end_).drop (start + at_))) = .ok (some end_) := by
  have hdrop : (data.take end_).drop (start + at_) = (data.drop (start + at_)).take (end_ - (start + at_)) :=
    drop_take
  obtain ⟨hraw, hcase⟩ := trailerVerdict_some_iff.1 h
  refine trailerVerdict_some_iff.2 ⟨hraw, ?_⟩
  rw [hdrop]
  rcases hcase with ⟨hc, rfl⟩ | ⟨hc, i, hi, hmax, hline, rfl⟩
  · left
    refine ⟨?_, rfl⟩
    rw [Nat.add_sub_cancel_left]
    exact prefix_of_prefix_length_le hc ( take_prefix _ _) (by
      have := hc.length_le
      simp only [crlf, length_cons, length_nil, length_take] at this ⊢
      omega)
  · right
    have hsub : start + at_ + i + 4 - (start + at_) = i + headEnd.length := by
      rw [headEnd_length]
      omega
    rw [hsub]
    refine ⟨fun hpre => hc (hpre.trans ( take_prefix _ _)), i, index_take headEnd_ne_nil hi, hmax, ?_, rfl⟩
    rw [take_take, headEnd_length, min_self]
    exact hline

theorem trailerVerdict_done (hle : start + at_ ≤ data.length)
    (h : trailerVerdict config data start at_ (index headEnd (data.drop (start + at_))) = .ok (some end_)) :
    end_ ≤ data.length ∧ ∀ x, trailerVerdict config (data ++ x) start at_
      (index headEnd ((data ++ x).drop (start + at_))) = .ok (some end_) := by
  have hdrop : ∀ x, (data ++ x).drop (start + at_) = data.drop (start + at_) ++ x :=
    fun x => drop_append_of_le_length hle
  obtain ⟨hraw, ⟨hc, rfl⟩ | ⟨hc, i, hi, hmax, hline, rfl⟩⟩ := trailerVerdict_some_iff.1 h
  · have hfit := (crlf_prefix_iff.1 hc).1
    exact ⟨hfit, fun x => trailerVerdict_some_iff.2 ⟨hraw, .inl ⟨prefix_drop_append hc x, rfl⟩⟩⟩
  have hfit : i + 4 ≤ (data.drop (start + at_)).length := index_le headEnd_ne_nil hi
  refine ⟨by rw [length_drop] at hfit; omega, fun x => trailerVerdict_some_iff.2 ⟨hraw, .inr ?_⟩⟩
  rw [hdrop]
  refine ⟨fun hpre => hc ?_, i, index_append headEnd_ne_nil hi x, hmax,
    by rwa [take_append_of_le_length hfit], rfl⟩
  exact prefix_of_prefix_length_le hpre (prefix_append _ _) (by
    simp only [crlf, length_cons, length_nil]
    omega)

/-- A trailer section refused before all of it arrived is refused with the rest of it too. -/
theorem trailerVerdict_error (hle : start + at_ ≤ data.length) (hmax : 2 ≤ config.maxHeaderBytes) {e : ParseError}
    (h : trailerVerdict config data start at_ (index headEnd (data.drop (start + at_))) = .error e) (x : Bytes) :
    ∃ e', trailerVerdict config (data ++ x) start at_ (index headEnd ((data ++ x).drop (start + at_))) = .error e' := by
  have hdrop : (data ++ x).drop (start + at_) = data.drop (start + at_) ++ x := drop_append_of_le_length hle
  unfold trailerVerdict at h ⊢
  dsimp only at h ⊢
  rw [hdrop]
  generalize hrest : data.drop (start + at_) = rest at h ⊢
  by_cases hc : crlf <+: rest
  · rw [if_pos hc] at h
    rw [if_pos (hc.trans (prefix_append _ _))]
    exact ⟨e, h⟩
  rw [if_neg hc] at h
  have hc' : 2 ≤ rest.length → ¬ crlf <+: rest ++ x := fun h2 hpre =>
    hc (prefix_of_prefix_length_le hpre (prefix_append _ _) h2)
  cases hi : index headEnd rest with
  | none =>
    rw [hi] at h
    split_ifs at h with hlong
    rw [if_neg (hc' (by omega))]
    cases hix : index headEnd (rest ++ x) with
    | none => exact ⟨_, if_pos (by rw [length_append]; omega)⟩
    | some i =>
      -- it ends past what was there, which was too long already
      have hpast : rest.length - 3 ≤ i := by
        by_contra hlt
        have hfound := (index_eq_some hix).1
        exact Passed.of_index_none headEnd_ne_nil hi x i (by rw [headEnd_length]; omega) hfound
      exact ⟨_, if_pos (by omega)⟩
  | some i =>
    have hfit : i + 4 ≤ rest.length := index_le headEnd_ne_nil hi
    rw [hi] at h
    rw [if_neg (hc' (by omega)), index_append headEnd_ne_nil hi]
    dsimp only at h ⊢
    rw [take_append_of_le_length hfit]
    exact ⟨e, h⟩

end Trailer

/-- The end of the chunked body that starts at `start`, or none while it is still arriving. -/
def chunkedEnd (config : Config) (data : Bytes) (start : ℕ) (scan : ChunkScan) :
    ChunkScan × Except ParseError (Option ℕ) :=
  match scanChunks config data start (data.length + 1) scan with
  | (scan, .error e) => (scan, .error e)
  | (scan, .ok false) => (scan, .ok none)
  | (scan, .ok true) => trailerEnd config data start scan

end Fib.Http
