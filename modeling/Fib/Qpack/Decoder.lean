import Fib.Qpack.Table
import Fib.Lib.Runs

/-! The QPACK decoder (http3/qpack/decoder.go and qpack.go): the dynamic table the peer's encoder stream fills, and the
field sections that refer to it. How a section's strings are read is a parameter of its decoding, since a decoder may
remember strings and need not. -/

namespace Fib.Qpack
open Parse
open Hpack (HuffmanTable)

inductive DecoderInstr where
  | ack (streamID : ℕ)
  | cancel (streamID : ℕ)
  | increment (n : ℕ)
deriving DecidableEq

def DecoderInstr.bytes : DecoderInstr → Bytes
  | ack streamID => appendInt [] 0x80 7 streamID
  | cancel streamID => appendInt [] 0x40 6 streamID
  | increment n => appendInt [] 0x00 6 n

/-- `decoderTable`; `pending` is the source's `in`. -/
structure DecoderTable where
  table : Table := {}
  maxCapacity : ℕ
  maxBlocked : ℕ
  blocked : List ℕ := []
  told : ℕ := 0
  pending : Bytes := []
  out : List DecoderInstr := []
deriving DecidableEq

/-! ### The encoder stream -/

section
variable (T : HuffmanTable) (maxCapacity : ℕ)

def insertValue (t : Table) (name : Bytes) : Bytes → Parse Table :=
  check (parseString T 7 (4 * maxCapacity) maxCapacity) fun value => t.insert ⟨name, value⟩

/-- The encoder instruction that starts with `c`, and the table it leaves. -/
def instructionOf (t : Table) (c : UInt8) : Bytes → Parse Table :=
  if 128 ≤ c.toNat then
    -- Insert With Name Reference
    seq
      (check (parseInt 6) fun i =>
        (if c.toNat / 64 % 2 = 1 then staticTable[i]? else t.fromLast i).map HeaderField.name)
      (insertValue T maxCapacity t)
  else if 64 ≤ c.toNat then
    -- Insert With Literal Name
    seq (parseString T 5 (4 * maxCapacity) maxCapacity) (insertValue T maxCapacity t)
  else if 32 ≤ c.toNat then
    -- Set Dynamic Table Capacity
    check (parseInt 5) fun capacity => if maxCapacity < capacity then none else some (t.setCapacity capacity)
  else
    -- Duplicate
    check (parseInt 5) fun i => (t.fromLast i).bind t.insert

def instruction (t : Table) : Bytes → Parse Table := byHead (instructionOf T maxCapacity t)

end

namespace DecoderTable
variable (d : DecoderTable)

def owe : DecoderTable :=
  if d.told < d.table.inserted then
    { d with out := d.out ++ [.increment (d.table.inserted - d.told)], told := d.table.inserted }
  else d

def feedEncoder (T : HuffmanTable) (d : DecoderTable) (data : Bytes) : DecoderTable × Option Err :=
  let r := drainAll (instruction T d.maxCapacity) d.table (d.pending ++ data)
  if r.failed then
    ({ d with table := r.state, pending := if d.pending = [] then [] else d.pending ++ data }, some .encoderStream)
  else ({ d with table := r.state, pending := r.rest }.owe, none)

def cancel (d : DecoderTable) (streamID : ℕ) : DecoderTable :=
  { d with blocked := d.blocked.filter (· ≠ streamID), out := d.out ++ [.cancel streamID] }

/-- `AppendInstructions`: what there is to send, which is forgotten. -/
def takeInstructions : Bytes × DecoderTable := (d.out.flatMap DecoderInstr.bytes, { d with out := [] })

/-! ### What sections refer to -/

def maxEntries : ℕ := d.maxCapacity / entryOverhead

/-- A section's required insert count, of an encoded one that is not zero. -/
def requiredInsertCount (encoded : ℕ) : Except Err ℕ :=
  let full := 2 * d.maxEntries
  if full < encoded then .error .decompression
  else
    let maxValue := d.table.inserted + d.maxEntries
    let ric := maxValue / full * full + encoded - 1
    if maxValue < ric then
      if ric ≤ full then .error .decompression
      else if ric - full = 0 then .error .decompression
      else .ok (ric - full)
    else if ric = 0 then .error .decompression
    else .ok ric

def block (streamID : ℕ) : DecoderTable × Err :=
  if streamID ∈ d.blocked then (d, .blocked)
  else if d.maxBlocked ≤ d.blocked.length then (d, .decompression)
  else ({ d with blocked := streamID :: d.blocked }, .blocked)

def acknowledge (streamID ric : ℕ) : DecoderTable :=
  if ric = 0 then d
  else
    { d with
      blocked := d.blocked.filter (· ≠ streamID)
      out := d.out ++ [.ack streamID]
      told := max d.told ric }

end DecoderTable

/-- The entry of absolute index `abs`, and one past it, if a section of required insert count `ric` may refer to it. -/
def referred (t : Table) (abs ric : ℕ) : Option (HeaderField × ℕ) :=
  if ric ≤ abs then none else (t.entry abs).map fun f => (f, abs + 1)

def relative (t : Option Table) (base i ric : ℕ) : Option (HeaderField × ℕ) :=
  t.bind fun t => if base ≤ i then none else referred t (base - 1 - i) ric

def postBase (t : Option Table) (base i ric : ℕ) : Option (HeaderField × ℕ) :=
  t.bind fun t => if ric ≤ i then none else referred t (base + i) ric

/-! ### Sections -/

/-- The start of a section. It refers to the dynamic table if `dynamic`, which is of a required insert count above
zero. -/
structure SectionStart where
  dynamic : Bool
  ric : ℕ
  base : ℕ
  rest : Bytes
deriving DecidableEq

def requiredCount (dyn : Option DecoderTable) (encoded : ℕ) : Except Err ℕ :=
  if encoded = 0 then .ok 0
  else
    match dyn with
    | none => .error .decompression
    | some d => d.requiredInsertCount encoded

/-- The base of a section whose required insert count is `ric`. -/
def sectionBase (encoded ric : ℕ) (sign : Bool) (delta : ℕ) (rest : Bytes) : Except Err SectionStart :=
  if encoded = 0 then .ok ⟨false, 0, 0, rest⟩
  else if sign = false then .ok ⟨true, ric, ric + delta, rest⟩
  else if ric ≤ delta then .error .decompression
  else .ok ⟨true, ric, ric - delta - 1, rest⟩

def sectionStart (dyn : Option DecoderTable) (block : Bytes) : Except Err SectionStart :=
  match readInt 8 block with
  | .error e => .error e
  | .ok (encoded, rest) =>
    match requiredCount dyn encoded with
    | .error e => .error e
    | .ok ric =>
      match readInt 7 rest with
      | .error e => .error e
      | .ok (delta, after) => sectionBase encoded ric (128 ≤ (rest.headD 0).toNat) delta after

inductive Stop where
  | failed (e : Err)
  | overSize
  | finished (largest : ℕ)
deriving DecidableEq

structure Lines (ρ : Type*) where
  reader : ρ
  fields : List HeaderField
  stop : Stop

structure Decoded (ρ : Type*) where
  reader : ρ
  dyn : Option DecoderTable
  fields : List HeaderField
  err : Option Err

section Lines
variable {ρ : Type*} (read : ℕ → ℕ → ρ → Bytes → Except Err (Bytes × Bytes) × ρ) (t : Option Table)
  (base ric maxSize : ℕ)

/-- The entry a line refers to with an index of an `n`-bit prefix, and one past its absolute index. -/
def refer (static post : Bool) (n : ℕ) (b : Bytes) : Except Err (HeaderField × ℕ × Bytes) :=
  match readInt n b with
  | .error e => .error e
  | .ok (i, rest) =>
    match if static then staticTable[i]?.map fun f => (f, 0) else if post then postBase t base i ric
      else relative t base i ric with
    | none => .error .decompression
    | some (f, top) => .ok (f, top, rest)

def readValue (name : Bytes) (top : ℕ) (r : ρ) (b : Bytes) : Except Err (HeaderField × ℕ × Bytes) × ρ :=
  match read 7 maxSize r b with
  | (.error e, r) => (.error e, r)
  | (.ok (value, rest), r) => (.ok (⟨name, value⟩, top, rest), r)

def readNamed (static post : Bool) (n : ℕ) (r : ρ) (b : Bytes) : Except Err (HeaderField × ℕ × Bytes) × ρ :=
  match refer t base ric static post n b with
  | .error e => (.error e, r)
  | .ok (f, top, rest) => readValue read maxSize f.name top r rest

/-- One field line, one past the largest index it refers to, and what follows it. -/
def readLine (r : ρ) (b : Bytes) : Except Err (HeaderField × ℕ × Bytes) × ρ :=
  let c := (b.headD 0).toNat
  if 128 ≤ c then (refer t base ric (c / 64 % 2 = 1) false 6 b, r)
  else if 64 ≤ c then readNamed read t base ric maxSize (c / 16 % 2 = 1) false 4 r b
  else if 32 ≤ c then
    match read 3 maxSize r b with
    | (.error e, r) => (.error e, r)
    | (.ok (name, rest), r) => readValue read maxSize name 0 r rest
  else if 16 ≤ c then (refer t base ric false true 4 b, r)
  else readNamed read t base ric maxSize false true 3 r b

/-- The loop of `decode`, over at most `fuel` lines. -/
def decodeFrom : ℕ → ρ → ℕ → ℕ → List HeaderField → Bytes → Lines ρ
  | _, r, _, largest, fields, [] => ⟨r, fields, .finished largest⟩
  | 0, r, _, _, fields, _ :: _ => ⟨r, fields, .failed .decompression⟩
  | fuel + 1, r, size, largest, fields, c :: b =>
    match readLine read t base ric maxSize r (c :: b) with
    | (.error e, r) => ⟨r, fields, .failed e⟩
    | (.ok (f, top, rest), r) =>
      if 0 < maxSize ∧ maxSize < size + entrySize f then ⟨r, fields, .overSize⟩
      else decodeFrom fuel r (size + entrySize f) (max largest top) (fields ++ [f]) rest

end Lines

/-- The end of a section: unless it failed, or refers to less than it said, the encoder hears of it. -/
def endSection (d : DecoderTable) (streamID ric : ℕ) : Stop → DecoderTable × Option Err
  | .failed e => (d, some e)
  | .overSize => (d.acknowledge streamID ric, some .tooLarge)
  | .finished largest => if largest ≠ ric then (d, some .decompression) else (d.acknowledge streamID ric, none)

def endStatic : Stop → Option Err
  | .failed e => some e
  | .overSize => some .tooLarge
  | .finished largest => if largest ≠ 0 then some .decompression else none

/-- `decode` of a section of a stream; `start` has the reader at the section's first string. -/
def decode {ρ : Type*} (read : ℕ → ℕ → ρ → Bytes → Except Err (Bytes × Bytes) × ρ) (start : ρ → ρ) (r : ρ)
    (dyn : Option DecoderTable) (block : Bytes) (maxSize streamID : ℕ) : Decoded ρ :=
  match sectionStart dyn block with
  | .error e => ⟨r, dyn, [], some e⟩
  | .ok s =>
    match if s.dynamic then dyn else none with
    | none =>
      let l := decodeFrom read none s.base s.ric maxSize s.rest.length (start r) 0 0 [] s.rest
      ⟨l.reader, dyn, l.fields, endStatic l.stop⟩
    | some d =>
      if d.table.inserted < s.ric then ⟨r, (d.block streamID).1, [], some (d.block streamID).2⟩
      else
        let l := decodeFrom read (some d.table) s.base s.ric maxSize s.rest.length (start r) 0 0 [] s.rest
        ⟨l.reader, (endSection d streamID s.ric l.stop).1, l.fields, (endSection d streamID s.ric l.stop).2⟩

/-! ### Remembered strings -/

def recentStrings : ℕ := 16
def maxRecentString : ℕ := 256

/-- A string as a line encoded it, with a prefix of `n` bits, and what it decoded to. -/
structure RecentString where
  encoded : Bytes := []
  decoded : Bytes := []
  n : ℕ := 0
deriving DecidableEq

/-- What a decoder remembers of the last section's strings, by place. -/
structure Recents where
  recent : List RecentString := List.replicate recentStrings {}
  place : ℕ := 0
deriving DecidableEq

namespace Recents

def start (d : Recents) : Recents := { d with place := 0 }

/-- The string remembered in the next place, if the one at the front of `b` is encoded as it was and would be taken. -/
def hit (d : Recents) (n maxLen : ℕ) (b : Bytes) : Option (Bytes × Bytes) :=
  match d.recent[d.place]?, readInt n b with
  | some r, .ok (length, after) =>
    let stop := b.length - after.length + length
    if length ≤ after.length ∧ (maxLen = 0 ∨ length ≤ maxLen) ∧ stop ≤ maxRecentString ∧ r.n = n ∧
        r.encoded = b.take stop ∧ (maxLen = 0 ∨ r.decoded.length ≤ maxLen) then
      some (r.decoded, b.drop stop)
    else none
  | _, _ => none

def remember (d : Recents) (n : ℕ) (b s rest : Bytes) : Recents :=
  let encoded := b.take (b.length - rest.length)
  if encoded.length ≤ maxRecentString then { d with recent := d.recent.set d.place ⟨encoded, s, n⟩ } else d

/-- `Decoder.readString`. -/
def read (T : HuffmanTable) (n maxLen : ℕ) (d : Recents) (b : Bytes) : Except Err (Bytes × Bytes) × Recents :=
  if recentStrings ≤ d.place then (readString T n maxLen b, d)
  else
    match d.hit n maxLen b with
    | some r => (.ok r, { d with place := d.place + 1 })
    | none =>
      match readString T n maxLen b with
      | .error e => (.error e, { d with place := d.place + 1 })
      | .ok (s, rest) => (.ok (s, rest), { d.remember n b s rest with place := d.place + 1 })

end Recents

def readPlain (T : HuffmanTable) (n maxLen : ℕ) (_ : Unit) (b : Bytes) : Except Err (Bytes × Bytes) × Unit :=
  (readString T n maxLen b, ())

inductive DecoderOp where
  | feedEncoder (data : Bytes)
  | sections (block : Bytes) (maxSize streamID : ℕ)
  | cancel (streamID : ℕ)
  | takeInstructions
deriving DecidableEq

/-- A connection's decoder, whose `reader` is what it remembers of strings. Not in the source: `log` has what came of
each call, the fields of a section and the error. -/
structure Decoder (ρ : Type*) where
  reader : ρ
  dyn : Option DecoderTable := none
  log : List (List HeaderField × Option Err) := []

namespace Decoder

/-- `EnableDynamic`; a capacity of zero leaves the table off. -/
def enableDynamic {ρ : Type*} (reader : ρ) (maxCapacity maxBlocked : ℕ) : Decoder ρ where
  reader := reader
  dyn := if maxCapacity = 0 then none else some { maxCapacity := maxCapacity, maxBlocked := maxBlocked }

section
variable {ρ : Type*} (T : HuffmanTable) (read : ℕ → ℕ → ρ → Bytes → Except Err (Bytes × Bytes) × ρ) (start : ρ → ρ)

def appendSection (d : Decoder ρ) (block : Bytes) (maxSize streamID : ℕ) : Decoded ρ :=
  decode read start d.reader d.dyn block maxSize streamID

def step (d : Decoder ρ) : DecoderOp → Decoder ρ
  | .feedEncoder data =>
    match d.dyn with
    | none => { d with log := d.log ++ [([], some .encoderStream)] }
    | some t => { d with dyn := some (t.feedEncoder T data).1, log := d.log ++ [([], (t.feedEncoder T data).2)] }
  | .sections block maxSize streamID =>
    let s := d.appendSection read start block maxSize streamID
    ⟨s.reader, s.dyn, d.log ++ [(s.fields, s.err)]⟩
  | .cancel streamID => { d with dyn := d.dyn.map fun t => t.cancel streamID }
  | .takeInstructions => { d with dyn := d.dyn.map fun t => t.takeInstructions.2 }

end

/-- A decoder that remembers strings by their place, from its start. -/
def machine (T : HuffmanTable) (maxCapacity maxBlocked : ℕ) : Machine (Decoder Recents) DecoderOp :=
  ⟨enableDynamic {} maxCapacity maxBlocked, step T (Recents.read T) Recents.start⟩

def plainMachine (T : HuffmanTable) (maxCapacity maxBlocked : ℕ) : Machine (Decoder Unit) DecoderOp :=
  ⟨enableDynamic () maxCapacity maxBlocked, step T (readPlain T) id⟩

end Decoder

def noHuffman : HuffmanTable := ⟨fun _ _ => ⟨0, 0, false, true⟩, fun _ => true, rfl⟩

def oneInsertion : Bytes := [0x3f, 33, 0x41, 97, 0x01, 98]

end Fib.Qpack
