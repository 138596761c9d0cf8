import Fib.Qpack.Recent

/-! The strings an HPACK decoder remembers (`recent`, `coded` and `long` of hpack/hpack.go): it emits what a decoder
that remembers nothing emits. How a string is read is a parameter of the decoder here; reading each one afresh it is
that of `Fib.Hpack.Decoder`. -/

namespace Fib.Hpack
open List

def recentStrings : ℕ := 8
def maxRecentString : ℕ := 64
def maxLongString : ℕ := 1024

structure CodedString where
  coded : Bytes := []
  plain : Bytes := []
deriving DecidableEq

structure Caches where
  recent : List Bytes := replicate recentStrings []
  nextRecent : ℕ := 0
  coded : List CodedString := replicate recentStrings {}
  nextCoded : ℕ := 0
  long : CodedString := {}
  longHuffman : Bool := false
deriving DecidableEq

namespace Caches
section
variable (c : Caches) (maxStringLength : ℕ) (raw : Bytes)

/-- `raw` is the long literal remembered, as it came, and coded the same way. -/
def isLong (huffman : Bool) : Bool :=
  c.longHuffman = huffman ∧ c.long.coded = raw ∧ (maxStringLength = 0 ∨ c.long.plain.length ≤ maxStringLength)

def setRecent (s : Bytes) : Caches :=
  { c with recent := c.recent.set c.nextRecent s, nextRecent := (c.nextRecent + 1) % recentStrings }

def setCoded (s : CodedString) : Caches :=
  { c with coded := c.coded.set c.nextCoded s, nextCoded := (c.nextCoded + 1) % recentStrings }

def setLong (s : CodedString) (huffman : Bool) : Caches := { c with long := s, longHuffman := huffman }

/-- `raw` as a string: for a short one, the string it was before if that is still there. -/
def intern : Bytes × Caches :=
  if raw = [] then ([], c)
  else if maxRecentString < raw.length then (raw, c)
  else
    match c.recent.find? (fun s => s = raw) with
    | some s => (s, c)
    | none => (raw, c.setRecent raw)

def remember (coded plain : Bytes) : Caches :=
  if coded.length ≤ maxRecentString ∧ plain ≠ [] then c.setCoded ⟨coded, plain⟩
  else if coded.length ≤ maxLongString then c.setLong ⟨coded, plain⟩ true
  else c

/-- The string `raw` was decoded to before, if it is remembered. -/
def known : Option Bytes :=
  if raw.length ≤ maxRecentString then (c.coded.find? fun s => s.coded = raw).map CodedString.plain
  else if c.isLong maxStringLength raw true then some c.long.plain
  else none

/-- The Huffman-coded branch of `readString`. -/
def readCoded (T : HuffmanTable) (maxStringLength : ℕ) (c : Caches) (raw : Bytes) : Except Err Bytes × Caches :=
  match c.known maxStringLength raw with
  | some plain => (.ok plain, c)
  | none =>
    match T.decode raw maxStringLength with
    | .error e => (.error e, c)
    | .ok plain => (.ok (c.intern plain).1, (c.intern plain).2.remember raw (c.intern plain).1)

def readRaw (c : Caches) (raw : Bytes) : Except Err Bytes × Caches :=
  if 0 < maxStringLength ∧ maxStringLength < raw.length then (.error .stringTooLong, c)
  else if raw.length ≤ maxRecentString ∨ maxLongString < raw.length then (.ok (c.intern raw).1, (c.intern raw).2)
  else if c.isLong maxStringLength raw false then (.ok c.long.plain, c)
  else (.ok raw, c.setLong ⟨raw, raw⟩ false)

def withRest (rest : Bytes) : Except Err Bytes × Caches → Except Err (Bytes × Bytes) × Caches
  | (.error e, c) => (.error e, c)
  | (.ok s, c) => (.ok (s, rest), c)

def readString (T : HuffmanTable) (maxStringLength : ℕ) (c : Caches) (block : Bytes) :
    Except Err (Bytes × Bytes) × Caches :=
  match readInt 7 block with
  | .error e => (.error e, c)
  | .ok (length, rest) =>
    if rest.length < length then (.error .truncated, c)
    else if 128 ≤ (block.headD 0).toNat then
      withRest (rest.drop length) (c.readCoded T maxStringLength (rest.take length))
    else withRest (rest.drop length) (c.readRaw maxStringLength (rest.take length))

end

/-- What is remembered is right: a coded string is beside what it decodes to. -/
structure Ok (T : HuffmanTable) (maxStringLength : ℕ) (c : Caches) : Prop where
  coded : ∀ s ∈ c.coded, T.decode s.coded maxStringLength = .ok s.plain
  huffman : c.longHuffman = true → T.decode c.long.coded maxStringLength = .ok c.long.plain
  plain : c.longHuffman = false → c.long.plain = c.long.coded

variable {T : HuffmanTable} {maxStringLength : ℕ} {c : Caches} {raw plain : Bytes}

theorem ok_empty (T : HuffmanTable) (maxStringLength : ℕ) : Ok T maxStringLength {} where
  coded := by
    intro s hs
    rw [eq_of_mem_replicate hs]
    exact HuffmanTable.decode_nil
  huffman h := absurd h Bool.false_ne_true
  plain _ := rfl

theorem Ok.setRecent (h : c.Ok T maxStringLength) (s : Bytes) : (c.setRecent s).Ok T maxStringLength :=
  { h with }

theorem Ok.setCoded (h : c.Ok T maxStringLength) {s : CodedString}
    (hs : T.decode s.coded maxStringLength = .ok s.plain) : (c.setCoded s).Ok T maxStringLength := by
  refine ⟨?_, h.huffman, h.plain⟩
  intro s' hs'
  rcases mem_or_eq_of_mem_set hs' with hmem | rfl
  · exact h.coded s' hmem
  · exact hs

theorem intern_fst (c : Caches) (raw : Bytes) : (c.intern raw).1 = raw := by
  unfold intern
  split_ifs with hnil
  · exact hnil.symm
  · rfl
  · cases hf : c.recent.find? (fun s => s = raw) with
    | none => rfl
    | some s => simpa using find?_some hf

section
variable (h : c.Ok T maxStringLength)
include h

theorem Ok.intern (raw : Bytes) : (c.intern raw).2.Ok T maxStringLength := by
  unfold Caches.intern
  split_ifs
  · exact h
  · exact h
  · cases c.recent.find? (fun s => s = raw) with
    | none => exact h.setRecent raw
    | some s => exact h

theorem Ok.remember (hdecode : T.decode raw maxStringLength = .ok plain) :
    (c.remember raw plain).Ok T maxStringLength := by
  unfold Caches.remember
  split_ifs
  · exact h.setCoded hdecode
  · exact ⟨h.coded, fun _ => hdecode, fun hlong => absurd hlong.symm Bool.false_ne_true⟩
  · exact h

/-- A hit is what decoding would give: the bound is the one the string was decoded under. -/
theorem Ok.known (hk : c.known maxStringLength raw = some plain) : T.decode raw maxStringLength = .ok plain := by
  unfold Caches.known at hk
  split_ifs at hk with hshort hlong
  · obtain ⟨s, hfind, rfl⟩ := Option.map_eq_some_iff.1 hk
    have hcoded : s.coded = raw := by simpa using find?_some hfind
    rw [← hcoded]
    exact h.coded s (mem_of_find?_eq_some hfind)
  · obtain ⟨hhuffman, hcoded, -⟩ := of_decide_eq_true hlong
    rw [← hcoded, ← Option.some.inj hk]
    exact h.huffman hhuffman

theorem readCoded_eq (raw : Bytes) : (c.readCoded T maxStringLength raw).1 = T.decode raw maxStringLength ∧
    (c.readCoded T maxStringLength raw).2.Ok T maxStringLength := by
  unfold readCoded
  cases hk : c.known maxStringLength raw with
  | some plain => exact ⟨(h.known hk).symm, h⟩
  | none =>
    cases hd : T.decode raw maxStringLength with
    | error e => exact ⟨rfl, h⟩
    | ok plain =>
      simp only [intern_fst, true_and]
      exact (h.intern plain).remember hd

theorem readRaw_eq (raw : Bytes) : (c.readRaw maxStringLength raw).1 =
        (if 0 < maxStringLength ∧ maxStringLength < raw.length then .error .stringTooLong else .ok raw) ∧
      (c.readRaw maxStringLength raw).2.Ok T maxStringLength := by
  unfold readRaw
  by_cases hlong : 0 < maxStringLength ∧ maxStringLength < raw.length
  · rw [if_pos hlong, if_pos hlong]
    exact ⟨rfl, h⟩
  rw [if_neg hlong, if_neg hlong]
  split_ifs with hshort hhit
  · exact ⟨congrArg _ (intern_fst c raw), h.intern raw⟩
  · obtain ⟨hhuffman, hcoded, -⟩ := of_decide_eq_true hhit
    refine ⟨?_, h⟩
    rw [h.plain hhuffman, hcoded]
  · exact ⟨rfl, h.coded, fun hhuffman => absurd hhuffman Bool.false_ne_true, fun _ => rfl⟩

end

theorem withRest_snd (rest : Bytes) (r : Except Err Bytes × Caches) : (withRest rest r).2 = r.2 := by
  obtain ⟨_ | _, _⟩ := r <;> rfl

theorem withRest_fst (rest : Bytes) (r : Except Err Bytes × Caches) :
    (withRest rest r).1 = r.1.map fun s => (s, rest) := by
  obtain ⟨_ | _, _⟩ := r <;> rfl

theorem readString_eq (d : Decoder) (h : c.Ok T d.maxStringLength) (block : Bytes) :
    (c.readString T d.maxStringLength block).1 = d.readString T.decode block ∧
      (c.readString T d.maxStringLength block).2.Ok T d.maxStringLength := by
  unfold readString Decoder.readString
  cases hi : readInt 7 block with
  | error e => exact ⟨rfl, h⟩
  | ok r =>
    obtain ⟨length, rest⟩ := r
    simp only [bind, Except.bind, pure, Except.pure, throw, throwThe, MonadExceptOf.throw]
    by_cases htrunc : rest.length < length
    · rw [if_pos htrunc, if_pos htrunc]
      exact ⟨rfl, h⟩
    rw [if_neg htrunc, if_neg htrunc]
    by_cases hhuffman : 128 ≤ (block.headD 0).toNat
    · obtain ⟨hfst, hok⟩ := readCoded_eq h (rest.take length)
      rw [if_pos hhuffman, if_pos hhuffman, withRest_fst, withRest_snd, hfst]
      refine ⟨?_, hok⟩
      cases T.decode (rest.take length) d.maxStringLength <;> rfl
    · obtain ⟨hfst, hok⟩ := readRaw_eq h (rest.take length)
      rw [if_neg hhuffman, if_neg hhuffman, withRest_fst, withRest_snd, hfst]
      refine ⟨?_, hok⟩
      split_ifs <;> rfl

end Caches

/-! ### Decoding, however strings are read -/

/-- Why a block was not decoded to its end: it is wrong, or `emit` would not have the field. -/
inductive Stop (ε : Type*) where
  | failed (e : Err)
  | emit (e : ε)
deriving DecidableEq

/-- What one turn of the loop of `Decode` comes to. -/
inductive Turn where
  | stop (e : Err)
  | field (table : DynamicTable) (f : HeaderField) (rest : Bytes)
  | resize (size : ℕ) (rest : Bytes)
deriving DecidableEq

structure BlockDecoder (ρ : Type*) where
  decoder : Decoder
  reader : ρ

structure Decoded (ρ ε : Type*) where
  after : BlockDecoder ρ
  fields : List HeaderField
  err : Option (Stop ε)

section Blocks
variable {ρ ε : Type*} (read : ρ → Bytes → Except Err (Bytes × Bytes) × ρ)
section
variable (d : Decoder) (t : DynamicTable)

def readName (r : ρ) (index : ℕ) (rest : Bytes) : Except Err (Bytes × Bytes) × ρ :=
  if 0 < index then
    match t.field index with
    | none => (.error .invalidIndex, r)
    | some named => (.ok (named.name, rest), r)
  else read r rest

def readValue (name : Bytes) (r : ρ) (rest : Bytes) : Except Err (HeaderField × Bytes) × ρ :=
  match read r rest with
  | (.error e, r) => (.error e, r)
  | (.ok (value, rest), r) => (.ok (⟨name, value⟩, rest), r)

def readLiteral (n : ℕ) (r : ρ) (block : Bytes) : Except Err (HeaderField × Bytes) × ρ :=
  match readInt n block with
  | .error e => (.error e, r)
  | .ok (index, rest) =>
    match readName read t r index rest with
    | (.error e, r) => (.error e, r)
    | (.ok (name, rest), r) => readValue read name r rest

def literalTurn (add : Bool) : Except Err (HeaderField × Bytes) × ρ → Turn × ρ
  | (.error e, r) => (.stop e, r)
  | (.ok (f, rest), r) => (.field (if add then t.add f else t) f rest, r)

def indexedTurn (block : Bytes) : Turn :=
  match readInt 7 block with
  | .error e => .stop e
  | .ok (index, rest) =>
    match t.field index with
    | none => .stop .invalidIndex
    | some f => .field t f rest

/-- A size update, only before the first field. -/
def resizeTurn (start : Bool) (block : Bytes) : Turn :=
  if start = false then .stop .invalidSizeUpdate
  else
    match readInt 5 block with
    | .error e => .stop e
    | .ok (size, rest) => if d.allowedMaxSize < size then .stop .invalidSizeUpdate else .resize size rest

def turn (start : Bool) (r : ρ) (b : UInt8) (block : Bytes) : Turn × ρ :=
  if 128 ≤ b.toNat then (indexedTurn d.table (b :: block), r)
  else if 64 ≤ b.toNat then literalTurn d.table true (readLiteral read d.table 6 r (b :: block))
  else if 32 ≤ b.toNat then (resizeTurn d start (b :: block), r)
  else literalTurn d.table false (readLiteral read d.table 4 r (b :: block))

def Decoder.setTable : Decoder := { d with table := t }

def Decoder.resize (size : ℕ) : Decoder :=
  { d with table := d.table.setMaxSize size, mustShrink := false }

end

variable (emit : List HeaderField → HeaderField → Option ε)

/-- The loop of `Decode`; `emit` is told the fields there were before. -/
def decodeFrom : ℕ → BlockDecoder ρ → Bool → List HeaderField → Bytes → Decoded ρ ε
  | _, d, _, fields, [] => ⟨d, fields, none⟩
  | 0, d, _, fields, _ :: _ => ⟨d, fields, some (.failed .truncated)⟩
  | fuel + 1, d, start, fields, b :: block =>
    match turn read d.decoder start d.reader b block with
    | (.stop e, r) => ⟨⟨d.decoder, r⟩, fields, some (.failed e)⟩
    | (.resize size rest, r) => decodeFrom fuel ⟨d.decoder.resize size, r⟩ start fields rest
    | (.field t f rest, r) =>
      match emit fields f with
      | some e => ⟨⟨d.decoder.setTable t, r⟩, fields ++ [f], some (.emit e)⟩
      | none => decodeFrom fuel ⟨d.decoder.setTable t, r⟩ false (fields ++ [f]) rest

def BlockDecoder.decode (d : BlockDecoder ρ) (block : Bytes) : Decoded ρ ε :=
  if d.decoder.mustShrink = true ∧ (block.headD 0).toNat / 32 ≠ 1 then
    ⟨d, [], some (.failed .invalidSizeUpdate)⟩
  else decodeFrom read emit block.length d true [] block

end Blocks

def readAfresh (T : HuffmanTable) (maxStringLength : ℕ) (_ : Unit) (block : Bytes) :
    Except Err (Bytes × Bytes) × Unit :=
  (({ Decoder.new 0 with maxStringLength := maxStringLength } : Decoder).readString T.decode block, ())

/-! ### Two ways to read strings -/

/-- The same comes of both, and they stay related. -/
def Alike {ρ σ α : Type*} (R : ρ → σ → Prop) (x : α × ρ) (y : α × σ) : Prop := x.1 = y.1 ∧ R x.2 y.2

section Alike
variable {ρ σ ε : Type*} {R : ρ → σ → Prop} {read : ρ → Bytes → Except Err (Bytes × Bytes) × ρ}
  {read' : σ → Bytes → Except Err (Bytes × Bytes) × σ} {r : ρ} {r' : σ}
section
variable (hread : ∀ r r', R r r' → ∀ b, Alike R (read r b) (read' r' b))
include hread

theorem readName_alike (h : R r r') (t : DynamicTable) (index : ℕ) (rest : Bytes) :
    Alike R (readName read t r index rest) (readName read' t r' index rest) := by
  unfold readName
  split_ifs
  · cases t.field index <;> exact ⟨rfl, h⟩
  · exact hread r r' h rest

theorem readValue_alike (h : R r r')
    (name rest : Bytes) : Alike R (readValue read name r rest) (readValue read' name r' rest) := by
  have hvalue := hread r r' h rest
  unfold readValue
  generalize read r rest = x at hvalue ⊢
  generalize read' r' rest = y at hvalue ⊢
  obtain ⟨x, s⟩ := x
  obtain ⟨y, s'⟩ := y
  obtain ⟨rfl, hs⟩ := hvalue
  cases x <;> exact ⟨rfl, hs⟩

theorem readLiteral_alike (h : R r r') (t : DynamicTable) (n : ℕ) (block : Bytes) :
    Alike R (readLiteral read t n r block) (readLiteral read' t n r' block) := by
  unfold readLiteral
  cases readInt n block with
  | error e => exact ⟨rfl, h⟩
  | ok i =>
    obtain ⟨index, rest⟩ := i
    have hname := readName_alike hread h t index rest
    simp only
    generalize readName read t r index rest = x at hname ⊢
    generalize readName read' t r' index rest = y at hname ⊢
    obtain ⟨x, s⟩ := x
    obtain ⟨y, s'⟩ := y
    obtain ⟨rfl, hs⟩ := hname
    cases x with
    | error e => exact ⟨rfl, hs⟩
    | ok x => exact readValue_alike hread hs x.1 x.2

end

theorem literalTurn_alike {x : Except Err (HeaderField × Bytes) × ρ} {y : Except Err (HeaderField × Bytes) × σ}
    (h : Alike R x y) (t : DynamicTable) (add : Bool) : Alike R (literalTurn t add x) (literalTurn t add y) := by
  obtain ⟨x, s⟩ := x
  obtain ⟨y, s'⟩ := y
  obtain ⟨rfl, hs⟩ := h
  cases x <;> exact ⟨rfl, hs⟩

theorem turn_alike (hread : ∀ r r', R r r' → ∀ b, Alike R (read r b) (read' r' b)) (h : R r r')
    (d : Decoder) (start : Bool) (b : UInt8) (block : Bytes) :
    Alike R (turn read d start r b block) (turn read' d start r' b block) := by
  unfold turn
  split_ifs
  · exact ⟨rfl, h⟩
  · exact literalTurn_alike (readLiteral_alike hread h d.table 6 (b :: block)) d.table true
  · exact ⟨rfl, h⟩
  · exact literalTurn_alike (readLiteral_alike hread h d.table 4 (b :: block)) d.table false

structure Decoded.Alike (R : ρ → σ → Prop) (x : Decoded ρ ε) (y : Decoded σ ε) : Prop where
  decoder : x.after.decoder = y.after.decoder
  reader : R x.after.reader y.after.reader
  fields : x.fields = y.fields
  err : x.err = y.err

variable (hread : ∀ r r', R r r' → ∀ b, Hpack.Alike R (read r b) (read' r' b)) (h : R r r')
  (emit : List HeaderField → HeaderField → Option ε)
include hread h emit

theorem decodeFrom_alike (fuel : ℕ) (d : Decoder) (start : Bool) (fields : List HeaderField) (block : Bytes) :
    Decoded.Alike R (decodeFrom read emit fuel ⟨d, r⟩ start fields block)
      (decodeFrom read' emit fuel ⟨d, r'⟩ start fields block) := by
  induction fuel generalizing r r' d start fields block with
  | zero => cases block <;> exact ⟨rfl, h, rfl, rfl⟩
  | succ fuel ih =>
    cases block with
    | nil => exact ⟨rfl, h, rfl, rfl⟩
    | cons b block =>
      have hturn := turn_alike hread h d start b block
      simp only [decodeFrom]
      generalize turn read d start r b block = x at hturn ⊢
      generalize turn read' d start r' b block = y at hturn ⊢
      obtain ⟨x, s⟩ := x
      obtain ⟨y, s'⟩ := y
      obtain ⟨rfl, hs⟩ := hturn
      cases x with
      | stop e => exact ⟨rfl, hs, rfl, rfl⟩
      | resize size rest => exact ih hs (d.resize size) start fields rest
      | field t f rest =>
        simp only
        cases emit fields f with
        | some e => exact ⟨rfl, hs, rfl, rfl⟩
        | none => exact ih hs (d.setTable t) false (fields ++ [f]) rest

theorem decode_alike (d : Decoder) (block : Bytes) :
    Decoded.Alike R (BlockDecoder.decode read emit ⟨d, r⟩ block) (BlockDecoder.decode read' emit ⟨d, r'⟩ block) := by
  unfold BlockDecoder.decode
  split_ifs
  · exact ⟨rfl, h, rfl, rfl⟩
  · exact decodeFrom_alike hread h emit block.length d true [] block

end Alike

/-! ### Reading each string afresh -/

section Afresh
variable {T : HuffmanTable} {m : ℕ}

theorem readLiteral_afresh (d : Decoder) (hd : d.maxStringLength = m) (n : ℕ) (block : Bytes) :
    readLiteral (readAfresh T m) d.table n () block = (d.readLiteral T.decode n block, ()) := by
  have hstring : ∀ b, readAfresh T m () b = (d.readString T.decode b, ()) := by
    intro b
    rw [← hd]
    rfl
  unfold readLiteral Decoder.readLiteral
  cases readInt n block with
  | error e => rfl
  | ok i =>
    obtain ⟨index, rest⟩ := i
    simp only [bind, Except.bind, pure, Except.pure, throw, throwThe, MonadExceptOf.throw, readName, readValue]
    split_ifs with hindex
    · cases d.table.field index with
      | none => rfl
      | some named =>
        simp only [hstring]
        cases d.readString T.decode rest <;> rfl
    rw [hstring]
    cases d.readString T.decode rest with
    | error e => rfl
    | ok name =>
      simp only [hstring]
      cases d.readString T.decode name.2 <;> rfl

/-- Reading each string afresh, for an `emit` that has every field, is decoding as `Fib.Hpack.Decoder` has it. -/
theorem decodeFrom_afresh {ε : Type*} (fuel : ℕ) (d : Decoder) (hd : d.maxStringLength = m) (start : Bool)
    (fields : List HeaderField) (block : Bytes) :
    decodeFrom (readAfresh T m) (fun _ _ => (none : Option ε)) fuel ⟨d, ()⟩ start fields block =
      ⟨⟨(d.decodeFrom T.decode fuel start fields block).decoder, ()⟩,
        (d.decodeFrom T.decode fuel start fields block).fields,
        (d.decodeFrom T.decode fuel start fields block).err.map .failed⟩ := by
  induction fuel generalizing d start fields block with
  | zero => cases block <;> rfl
  | succ fuel ih =>
    cases block with
    | nil => rfl
    | cons b block =>
      simp only [decodeFrom, Decoder.decodeFrom, turn, indexedTurn, resizeTurn, readLiteral_afresh d hd]
      split_ifs
      · cases readInt 7 (b :: block) with
        | error e => rfl
        | ok i =>
          simp only
          cases d.table.field i.1 with
          | none => rfl
          | some f => exact ih d hd false (fields ++ [f]) i.2
      · cases d.readLiteral T.decode 6 (b :: block) with
        | error e => rfl
        | ok l => exact ih (d.setTable (d.table.add l.1)) hd false (fields ++ [l.1]) l.2
      · rfl
      · cases readInt 5 (b :: block) with
        | error e => rfl
        | ok i =>
          simp only
          split_ifs
          · rfl
          · exact ih (d.resize i.1) hd start fields i.2
      · cases d.readLiteral T.decode 4 (b :: block) with
        | error e => rfl
        | ok l => exact ih d hd false (fields ++ [l.1]) l.2

end Afresh

/-! ### Runs -/

inductive BlockOp (ε : Type*) where
  | decode (block : Bytes) (emit : List HeaderField → HeaderField → Option ε)
  | setAllowedMaxSize (n : ℕ)

/-- A connection's decoder. Not in the source: `log` has the fields each block emitted and the error it ended with. -/
structure BlockRun (ρ ε : Type*) where
  dec : BlockDecoder ρ
  log : List (List HeaderField × Option (Stop ε)) := []

namespace BlockRun
variable {ρ ε : Type*}

def step (read : ρ → Bytes → Except Err (Bytes × Bytes) × ρ) (s : BlockRun ρ ε) : BlockOp ε → BlockRun ρ ε
  | .decode block emit =>
    let r := s.dec.decode read emit block
    ⟨r.after, s.log ++ [(r.fields, r.err)]⟩
  | .setAllowedMaxSize n =>
    { s with dec := { s.dec with decoder := { s.dec.decoder with
        allowedMaxSize := n, mustShrink := s.dec.decoder.mustShrink ∨ n < s.dec.decoder.table.maxSize } } }

/-- A decoder that remembers strings, from its start, with its `MaxStringLength`. -/
def machine (ε : Type*) (T : HuffmanTable) (maxTableSize maxStringLength : ℕ) :
    Machine (BlockRun Caches ε) (BlockOp ε) :=
  ⟨{ dec := ⟨{ Decoder.new maxTableSize with maxStringLength := maxStringLength }, {}⟩ },
    step (Caches.readString T maxStringLength)⟩

def plainMachine (ε : Type*) (T : HuffmanTable) (maxTableSize maxStringLength : ℕ) :
    Machine (BlockRun Unit ε) (BlockOp ε) :=
  ⟨{ dec := ⟨{ Decoder.new maxTableSize with maxStringLength := maxStringLength }, ()⟩ },
    step (readAfresh T maxStringLength)⟩

structure Agrees (T : HuffmanTable) (maxStringLength : ℕ) (s : BlockRun Caches ε) (s' : BlockRun Unit ε) : Prop where
  decoder : s.dec.decoder = s'.dec.decoder
  caches : s.dec.reader.Ok T maxStringLength
  log : s.log = s'.log

variable {T : HuffmanTable} {m : ℕ} {s : BlockRun Caches ε} {s' : BlockRun Unit ε}

theorem Agrees.step (h : Agrees T m s s') (op : BlockOp ε) :
    Agrees T m (s.step (Caches.readString T m) op) (s'.step (readAfresh T m) op) := by
  obtain ⟨⟨d, c⟩, log⟩ := s
  obtain ⟨⟨d', u⟩, log'⟩ := s'
  obtain ⟨hdecoder, hcaches, hlog⟩ := h
  subst hdecoder hlog
  cases op with
  | decode block emit =>
    -- The caches are right whatever the other side's reader is: it has no state.
    have hread : ∀ (c : Caches) (u : Unit), c.Ok T m → ∀ b,
        Alike (fun c _ => c.Ok T m) (c.readString T m b) (readAfresh T m u b) := by
      intro c u hc b
      exact Caches.readString_eq { Decoder.new 0 with maxStringLength := m } hc b
    obtain ⟨h₁, h₂, h₃, h₄⟩ := decode_alike hread hcaches emit d block
    simp only [BlockRun.step]
    rw [h₃, h₄]
    exact ⟨h₁, h₂, rfl⟩
  | setAllowedMaxSize n => exact ⟨rfl, hcaches, rfl⟩

theorem agrees_run (T : HuffmanTable) (maxTableSize maxStringLength : ℕ) (ops : List (BlockOp ε)) :
    Agrees T maxStringLength ((machine ε T maxTableSize maxStringLength).run ops)
      ((plainMachine ε T maxTableSize maxStringLength).run ops) := by
  induction ops using reverseRecOn with
  | nil => exact ⟨rfl, Caches.ok_empty T maxStringLength, rfl⟩
  | append_singleton ops op ih =>
    rw [Machine.run_snoc, Machine.run_snoc]
    exact ih.step op

end BlockRun

/-- Whatever blocks an HPACK decoder is given, and whatever sections a QPACK one, each emits the fields and ends with
the errors of a decoder that remembers no string. -/
theorem remembered_strings_transparent (T : HuffmanTable) :
    (∀ (ε : Type) (maxTableSize maxStringLength : ℕ) (ops : List (BlockOp ε)),
      ((BlockRun.machine ε T maxTableSize maxStringLength).run ops).log =
        ((BlockRun.plainMachine ε T maxTableSize maxStringLength).run ops).log) ∧
    ∀ (maxCapacity maxBlocked : ℕ) (ops : List Qpack.DecoderOp),
      ((Qpack.Decoder.machine T maxCapacity maxBlocked).run ops).log =
        ((Qpack.Decoder.plainMachine T maxCapacity maxBlocked).run ops).log := by
  constructor
  · intro ε maxTableSize maxStringLength ops
    exact (BlockRun.agrees_run T maxTableSize maxStringLength ops).log
  · intro maxCapacity maxBlocked ops
    exact (Qpack.Decoder.agrees_run T maxCapacity maxBlocked ops).log

end Fib.Hpack
