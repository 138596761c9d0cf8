import Fib.Hpack.Huffman
import Fib.Lib.Instructions

/-! QPACK's tables, integers and strings (http3/qpack). The dynamic table is its entries in the order they were
inserted; the source keeps them in a ring. The Huffman code is a parameter. -/

namespace Fib.Qpack
open List
open Hpack (HuffmanTable)

structure HeaderField where
  name : Bytes
  value : Bytes
deriving DecidableEq

def entryOverhead : ℕ := 32

def entrySize (f : HeaderField) : ℕ := f.name.length + f.value.length + entryOverhead

inductive Err where
  | decompression
  | tooLarge
  | blocked
  | encoderStream
  | decoderStream
deriving DecidableEq

/-- RFC 9204 appendix A. -/
def staticTable : List HeaderField :=
  [(":authority", ""), (":path", "/"), ("age", "0"), ("content-disposition", ""), ("content-length", "0"),
    ("cookie", ""), ("date", ""), ("etag", ""), ("if-modified-since", ""), ("if-none-match", ""),
    ("last-modified", ""), ("link", ""), ("location", ""), ("referer", ""), ("set-cookie", ""),
    (":method", "CONNECT"), (":method", "DELETE"), (":method", "GET"), (":method", "HEAD"), (":method", "OPTIONS"),
    (":method", "POST"), (":method", "PUT"), (":scheme", "http"), (":scheme", "https"), (":status", "103"),
    (":status", "200"), (":status", "304"), (":status", "404"), (":status", "503"), ("accept", "*/*"),
    ("accept", "application/dns-message"), ("accept-encoding", "gzip, deflate, br"), ("accept-ranges", "bytes"),
    ("access-control-allow-headers", "cache-control"), ("access-control-allow-headers", "content-type"),
    ("access-control-allow-origin", "*"), ("cache-control", "max-age=0"), ("cache-control", "max-age=2592000"),
    ("cache-control", "max-age=604800"), ("cache-control", "no-cache"), ("cache-control", "no-store"),
    ("cache-control", "public, max-age=31536000"), ("content-encoding", "br"), ("content-encoding", "gzip"),
    ("content-type", "application/dns-message"), ("content-type", "application/javascript"),
    ("content-type", "application/json"), ("content-type", "application/x-www-form-urlencoded"),
    ("content-type", "image/gif"), ("content-type", "image/jpeg"), ("content-type", "image/png"),
    ("content-type", "text/css"), ("content-type", "text/html; charset=utf-8"), ("content-type", "text/plain"),
    ("content-type", "text/plain;charset=utf-8"), ("range", "bytes=0-"),
    ("strict-transport-security", "max-age=31536000"),
    ("strict-transport-security", "max-age=31536000; includesubdomains"),
    ("strict-transport-security", "max-age=31536000; includesubdomains; preload"), ("vary", "accept-encoding"),
    ("vary", "origin"), ("x-content-type-options", "nosniff"), ("x-xss-protection", "1; mode=block"),
    (":status", "100"), (":status", "204"), (":status", "206"), (":status", "302"), (":status", "400"),
    (":status", "403"), (":status", "421"), (":status", "425"), (":status", "500"), ("accept-language", ""),
    ("access-control-allow-credentials", "FALSE"), ("access-control-allow-credentials", "TRUE"),
    ("access-control-allow-headers", "*"), ("access-control-allow-methods", "get"),
    ("access-control-allow-methods", "get, post, options"), ("access-control-allow-methods", "options"),
    ("access-control-expose-headers", "content-length"), ("access-control-request-headers", "content-type"),
    ("access-control-request-method", "get"), ("access-control-request-method", "post"), ("alt-svc", "clear"),
    ("authorization", ""), ("content-security-policy", "script-src 'none'; object-src 'none'; base-uri 'none'"),
    ("early-data", "1"), ("expect-ct", ""), ("forwarded", ""), ("if-range", ""), ("origin", ""),
    ("purpose", "prefetch"), ("server", ""), ("timing-allow-origin", "*"), ("upgrade-insecure-requests", "1"),
    ("user-agent", ""), ("x-forwarded-for", ""), ("x-frame-options", "deny"), ("x-frame-options", "sameorigin")].map
    fun f => ⟨f.1.toUTF8.toList, f.2.toUTF8.toList⟩

/-! ### Integers and strings -/

def readIntFrom (v shift : ℕ) : Bytes → Except Err (ℕ × Bytes)
  | [] => .error .decompression
  | c :: b =>
    if c.toNat < 128 then .ok (v + c.toNat * 2 ^ shift, b)
    else if 56 ≤ shift + 7 then .error .decompression
    else readIntFrom (v + c.toNat % 128 * 2 ^ shift) (shift + 7) b

/-- An integer with an `n`-bit prefix (RFC 7541 section 5.1). -/
def readInt (n : ℕ) : Bytes → Except Err (ℕ × Bytes)
  | [] => .error .decompression
  | c :: b => if c.toNat % 2 ^ n < 2 ^ n - 1 then .ok (c.toNat % 2 ^ n, b) else readIntFrom (c.toNat % 2 ^ n) 0 b

/-- The bytes of `v` after the first of an integer that it is too large for. -/
def appendIntRest (v : ℕ) : Bytes :=
  if h : v < 128 then [UInt8.ofNat v] else UInt8.ofNat (v % 128 + 128) :: appendIntRest (v / 128)
termination_by v
decreasing_by omega

def appendInt (dst : Bytes) (first n v : ℕ) : Bytes :=
  if v < 2 ^ n - 1 then dst ++ [UInt8.ofNat (first + v)]
  else dst ++ UInt8.ofNat (first + (2 ^ n - 1)) :: appendIntRest (v - (2 ^ n - 1))

/-- The bytes of an integer after its first `k`, where some may be still to come. -/
def parseIntFrom (v shift k : ℕ) : Bytes → Parse ℕ
  | [] => .more
  | c :: b =>
    if c.toNat < 128 then .took (v + c.toNat * 2 ^ shift) (k + 1)
    else if 56 ≤ shift + 7 then .fail
    else parseIntFrom (v + c.toNat % 128 * 2 ^ shift) (shift + 7) (k + 1) b

def parseInt (n : ℕ) : Bytes → Parse ℕ
  | [] => .more
  | c :: b =>
    if c.toNat % 2 ^ n < 2 ^ n - 1 then .took (c.toNat % 2 ^ n) 1 else parseIntFrom (c.toNat % 2 ^ n) 0 1 b

section
variable (T : HuffmanTable)

/-- A Huffman-coded string, with the errors QPACK has for HPACK's. -/
def huffmanString (maxLen : ℕ) (raw : Bytes) : Except Err Bytes :=
  match T.decode raw maxLen with
  | .ok s => .ok s
  | .error .stringTooLong => .error .tooLarge
  | .error _ => .error .decompression

/-- The string some bytes stand for, Huffman coded or as they are. A `maxLen` of zero is no bound. -/
def plainString (huffman : Bool) (maxLen : ℕ) (raw : Bytes) : Except Err Bytes :=
  if 0 < maxLen ∧ maxLen < raw.length then .error .tooLarge
  else if huffman then huffmanString T maxLen raw
  else .ok raw

/-- The Huffman flag, in the bit just above a prefix of `n` bits. -/
def huffmanFlag (n : ℕ) (c : UInt8) : Bool := c.toNat / 2 ^ n % 2 == 1

/-- A string whose length has an `n`-bit prefix. -/
def readString (n maxLen : ℕ) (b : Bytes) : Except Err (Bytes × Bytes) :=
  match readInt n b with
  | .error e => .error e
  | .ok (length, rest) =>
    if rest.length < length then .error .decompression
    else
      match plainString T (huffmanFlag n (b.headD 0)) maxLen (rest.take length) with
      | .error e => .error e
      | .ok s => .ok (s, rest.drop length)

/-- A string of which some may be still to come. One whose encoding is longer than `maxRaw` fails before it has come. -/
def parseString (n maxRaw maxLen : ℕ) (b : Bytes) : Parse Bytes :=
  match parseInt n b with
  | .more => .more
  | .fail => .fail
  | .took length k =>
    if maxRaw < length then .fail
    else if b.length - k < length then .more
    else
      match readString T n maxLen (b.take (k + length)) with
      | .error _ => .fail
      | .ok (s, _) => .took s (k + length)

end

/-! ### The dynamic table -/

structure Table where
  entries : List HeaderField := []
  inserted : ℕ := 0
  size : ℕ := 0
  capacity : ℕ := 0
deriving DecidableEq

namespace Table
variable (t : Table)

def dropped : ℕ := t.inserted - t.entries.length

def entry (abs : ℕ) : Option HeaderField :=
  if abs < t.inserted ∧ t.dropped ≤ abs then t.entries[abs - t.dropped]? else none

/-- The oldest entries go while the rest, with `more`, is beyond the capacity. -/
def evictFrom (capacity more : ℕ) : ℕ → List HeaderField → ℕ × List HeaderField
  | size, [] => (size, [])
  | size, f :: fs =>
    if capacity < size + more then evictFrom capacity more (size - entrySize f) fs else (size, f :: fs)

def makeRoom (more : ℕ) : Table :=
  { t with
    size := (evictFrom t.capacity more t.size t.entries).1
    entries := (evictFrom t.capacity more t.size t.entries).2 }

def add (f : HeaderField) : Table :=
  { t with entries := t.entries ++ [f], inserted := t.inserted + 1, size := t.size + entrySize f }

/-- The decoder's `insert`, none of an entry that is beyond the capacity. -/
def insert (f : HeaderField) : Option Table :=
  if t.capacity < entrySize f then none else some ((t.makeRoom (entrySize f)).add f)

def setCapacity (capacity : ℕ) : Table := { t with capacity := capacity }.makeRoom 0

def fromLast (i : ℕ) : Option HeaderField := if t.inserted ≤ i then none else t.entry (t.inserted - 1 - i)

end Table

/-! ### Parsing does not depend on what comes after -/

open Parse

theorem kept_parseIntFrom {v shift k : ℕ} {b : Bytes} (h : parseIntFrom v shift k b ≠ .more) (x : Bytes) :
    parseIntFrom v shift k (b ++ x) = parseIntFrom v shift k b := by
  induction b generalizing v shift k with
  | nil => simp [parseIntFrom] at h
  | cons c b ih =>
    simp only [cons_append, parseIntFrom] at h ⊢
    split_ifs at h ⊢
    · rfl
    · rfl
    · exact ih h

theorem parseIntFrom_size {v shift k w m : ℕ} {b : Bytes} (h : parseIntFrom v shift k b = .took w m) :
    k < m ∧ m ≤ k + b.length := by
  induction b generalizing v shift k with
  | nil => simp [parseIntFrom] at h
  | cons c b ih =>
    simp only [parseIntFrom, length_cons] at h ⊢
    split_ifs at h
    · obtain ⟨-, rfl⟩ := by simpa only [took.injEq] using h
      omega
    · have := ih h
      omega

theorem stable_parseInt (n : ℕ) : Stable (parseInt n) := by
  refine .of_kept (fun {b} h x => ?_) fun {b v k} h => ?_
  · cases b with
    | nil => simp [parseInt] at h
    | cons c b =>
      simp only [parseInt, cons_append] at h ⊢
      split_ifs at h ⊢
      · rfl
      · exact kept_parseIntFrom h x
  · cases b with
    | nil => simp [parseInt] at h
    | cons c b =>
      simp only [parseInt] at h
      split_ifs at h
      · obtain ⟨-, rfl⟩ := by simpa only [took.injEq] using h
        simp
      · have := parseIntFrom_size h
        rw [length_cons]
        omega

theorem stable_parseString (T : HuffmanTable) (n maxRaw maxLen : ℕ) : Stable (parseString T n maxRaw maxLen) := by
  have hint := stable_parseInt n
  refine .of_kept (fun {b} h x => ?_) fun {b s m} h => ?_
  · unfold parseString at h ⊢
    cases hb : parseInt n b with
    | more => simp [hb] at h
    | fail => rw [hint.fail hb]
    | took length k =>
      have hk := hint.size hb
      rw [hint.took hb]
      simp only [hb] at h ⊢
      by_cases hraw : maxRaw < length
      · rw [if_pos hraw, if_pos hraw]
      rw [if_neg hraw] at h ⊢
      by_cases hshort : b.length - k < length
      · simp [hshort] at h
      have hlong : ¬ (b ++ x).length - k < length := by
        rw [length_append]
        omega
      rw [if_neg hraw, if_neg hshort, if_neg hlong, take_append_of_le_length (by omega)]
  · unfold parseString at h
    cases hb : parseInt n b with
    | more => simp [hb] at h
    | fail => simp [hb] at h
    | took length k =>
      have hk := hint.size hb
      simp only [hb] at h
      split_ifs at h
      cases hr : readString T n maxLen (b.take (k + length)) with
      | error e => simp [hr] at h
      | ok r =>
        simp only [hr, took.injEq] at h
        omega

end Fib.Qpack
