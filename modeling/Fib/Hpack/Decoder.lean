import Fib.Lib.Bytes

/-! HPACK (RFC 7541) as it is decoded: the dynamic table, the integers and strings of a header block, and the
decoder that reads one. The Huffman code is a parameter. What the decoder remembers of literals it decoded lately
only saves decoding them again, as `Fib.Hpack.Caches` shows, and is left out here. -/

namespace Fib.Hpack

structure HeaderField where
  name : Bytes
  value : Bytes
deriving DecidableEq

def HeaderField.size (f : HeaderField) : ℕ := f.name.length + f.value.length + 32

inductive Err where
  | invalidIndex
  | integerOverflow
  | truncated
  | invalidHuffman
  | stringTooLong
  | invalidSizeUpdate
deriving DecidableEq

/-- RFC 7541 Appendix A. Index `i + 1` is the `i`th. -/
def staticTable : List HeaderField :=
  [(":authority", ""), (":method", "GET"), (":method", "POST"), (":path", "/"), (":path", "/index.html"),
    (":scheme", "http"), (":scheme", "https"), (":status", "200"), (":status", "204"), (":status", "206"),
    (":status", "304"), (":status", "400"), (":status", "404"), (":status", "500"), ("accept-charset", ""),
    ("accept-encoding", "gzip, deflate"), ("accept-language", ""), ("accept-ranges", ""), ("accept", ""),
    ("access-control-allow-origin", ""), ("age", ""), ("allow", ""), ("authorization", ""), ("cache-control", ""),
    ("content-disposition", ""), ("content-encoding", ""), ("content-language", ""), ("content-length", ""),
    ("content-location", ""), ("content-range", ""), ("content-type", ""), ("cookie", ""), ("date", ""), ("etag", ""),
    ("expect", ""), ("expires", ""), ("from", ""), ("host", ""), ("if-match", ""), ("if-modified-since", ""),
    ("if-none-match", ""), ("if-range", ""), ("if-unmodified-since", ""), ("last-modified", ""), ("link", ""),
    ("location", ""), ("max-forwards", ""), ("proxy-authenticate", ""), ("proxy-authorization", ""), ("range", ""),
    ("referer", ""), ("refresh", ""), ("retry-after", ""), ("server", ""), ("set-cookie", ""),
    ("strict-transport-security", ""), ("transfer-encoding", ""), ("user-agent", ""), ("vary", ""), ("via", ""),
    ("www-authenticate", "")].map fun f => ⟨f.1.toUTF8.toList, f.2.toUTF8.toList⟩

structure DynamicTable where
  entries : List HeaderField := []
  size : ℕ := 0
  maxSize : ℕ
deriving DecidableEq

namespace DynamicTable
variable (t : DynamicTable)

def evictFrom (maxSize : ℕ) : ℕ → List HeaderField → ℕ × List HeaderField
  | size, [] => (size, [])
  | size, f :: fs => if maxSize < size then evictFrom maxSize (size - f.size) fs else (size, f :: fs)

/-- The oldest entries go until the table fits. -/
def evict : DynamicTable :=
  { t with
    size := (evictFrom t.maxSize t.size t.entries).1
    entries := (evictFrom t.maxSize t.size t.entries).2 }

def add (f : HeaderField) : DynamicTable :=
  { t with size := t.size + f.size, entries := t.entries ++ [f] }.evict

def setMaxSize (n : ℕ) : DynamicTable := { t with maxSize := n }.evict

/-- Index 1 is the newest entry. -/
def get (index : ℕ) : Option HeaderField :=
  if index < 1 ∨ t.entries.length < index then none else t.entries[t.entries.length - index]?

/-- `field`: the static table first, then the dynamic. -/
def field (index : ℕ) : Option HeaderField :=
  if index = 0 then none
  else if index ≤ 61 then staticTable[index - 1]?
  else t.get (index - 61)

end DynamicTable

def readIntFrom (value shift : ℕ) : Bytes → Except Err (ℕ × Bytes)
  | [] => .error .truncated
  | b :: rest =>
    let value := value + b.toNat % 128 * 2 ^ shift
    if b.toNat < 128 then .ok (value, rest)
    else if 56 ≤ shift + 7 then .error .integerOverflow
    else readIntFrom value (shift + 7) rest

def readInt (n : ℕ) : Bytes → Except Err (ℕ × Bytes)
  | [] => .error .truncated
  | b :: rest =>
    let value := b.toNat % 2 ^ n
    if value < 2 ^ n - 1 then .ok (value, rest) else readIntFrom value 0 rest

structure Decoder where
  table : DynamicTable
  allowedMaxSize : ℕ
  mustShrink : Bool := false
  /-- Zero is no bound. -/
  maxStringLength : ℕ := 0
deriving DecidableEq

namespace Decoder

def new (maxTableSize : ℕ) : Decoder := { table := { maxSize := maxTableSize }, allowedMaxSize := maxTableSize }

/-- What a block decoded to: the decoder after it, the fields emitted, and the error it ended with. -/
structure Result where
  decoder : Decoder
  fields : List HeaderField
  err : Option Err
deriving DecidableEq

variable (huffman : Bytes → ℕ → Except Err Bytes)

/-- `readString`; `huffman` decodes what is coded, to no more bytes than `MaxStringLength` allows. -/
def readString (d : Decoder) (block : Bytes) : Except Err (Bytes × Bytes) := do
  let (length, rest) ← readInt 7 block
  if rest.length < length then throw .truncated
  let raw := rest.take length
  if 128 ≤ (block.headD 0).toNat then
    let plain ← huffman raw d.maxStringLength
    pure (plain, rest.drop length)
  else if 0 < d.maxStringLength ∧ d.maxStringLength < raw.length then throw .stringTooLong
  else pure (raw, rest.drop length)

/-- `readLiteral`, of a field whose name index has an `n`-bit prefix. -/
def readLiteral (d : Decoder) (n : ℕ) (block : Bytes) : Except Err (HeaderField × Bytes) := do
  let (index, rest) ← readInt n block
  let (name, rest) ←
    if 0 < index then
      match d.table.field index with
      | none => throw .invalidIndex
      | some named => pure (named.name, rest)
    else d.readString huffman rest
  let (value, rest) ← d.readString huffman rest
  pure (⟨name, value⟩, rest)

/-- The loop of `Decode`, over at most `fuel` fields and size updates. -/
def decodeFrom : ℕ → Decoder → Bool → List HeaderField → Bytes → Result
  | _, d, _, fields, [] => ⟨d, fields, none⟩
  | 0, d, _, fields, _ :: _ => ⟨d, fields, some .truncated⟩
  | fuel + 1, d, start, fields, b :: block =>
    if 128 ≤ b.toNat then
      match readInt 7 (b :: block) with
      | .error e => ⟨d, fields, some e⟩
      | .ok (index, rest) =>
        match d.table.field index with
        | none => ⟨d, fields, some .invalidIndex⟩
        | some f => decodeFrom fuel d false (fields ++ [f]) rest
    else if 64 ≤ b.toNat then
      match d.readLiteral huffman 6 (b :: block) with
      | .error e => ⟨d, fields, some e⟩
      | .ok (f, rest) => decodeFrom fuel { d with table := d.table.add f } false (fields ++ [f]) rest
    else if 32 ≤ b.toNat then
      if start = false then ⟨d, fields, some .invalidSizeUpdate⟩
      else
        match readInt 5 (b :: block) with
        | .error e => ⟨d, fields, some e⟩
        | .ok (size, rest) =>
          if d.allowedMaxSize < size then ⟨d, fields, some .invalidSizeUpdate⟩
          else decodeFrom fuel { d with table := d.table.setMaxSize size, mustShrink := false } start fields rest
    else
      match d.readLiteral huffman 4 (b :: block) with
      | .error e => ⟨d, fields, some e⟩
      | .ok (f, rest) => decodeFrom fuel d false (fields ++ [f]) rest

/-- `Decode`: each turn of the loop takes a byte at least, so the block's length is fuel enough. -/
def decode (d : Decoder) (block : Bytes) : Result :=
  if d.mustShrink = true ∧ (block.headD 0).toNat / 32 ≠ 1 then ⟨d, [], some .invalidSizeUpdate⟩
  else d.decodeFrom huffman block.length true [] block

end Decoder

end Fib.Hpack
