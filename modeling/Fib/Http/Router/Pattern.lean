import Fib.Lib.Bytes

/-! The pattern of a route: how `parsePattern` splits one into segments, and which paths it matches, with which
values. What a regular expression takes is a parameter. -/

namespace Fib.Http.Router

def ascii (s : String) : Bytes := s.toList.map fun c => UInt8.ofNat c.toNat

def slash : UInt8 := 47
def star : UInt8 := 42
def opening : UInt8 := 123
def closing : UInt8 := 125
def colon : UInt8 := 58

inductive SegmentKind where
  | static
  | param
  | catchAll
deriving DecidableEq

structure Segment where
  kind : SegmentKind
  text : Bytes := []
  name : Bytes := []
  tail : UInt8 := 0
deriving DecidableEq

inductive PatternError where
  | noSlash
  | catchAllNotLast (name : Bytes)
  | invalidName (name : Bytes)
  | noExpression (name : Bytes)
  | starNotLast
  | unmatched
  | unclosed
  | notStatic (name : Bytes)
  | twice (key : Bytes)
deriving DecidableEq

/-- Where the brace that closes the parameter is, of a text with `depth` braces open before it. -/
def paramEnd : ℕ → Bytes → Option ℕ
  | _, [] => none
  | depth, b :: rest =>
    if b = opening then (paramEnd (depth + 1) rest).map (· + 1)
    else if b = closing then if depth ≤ 1 then some 0 else (paramEnd (depth - 1) rest).map (· + 1)
    else (paramEnd depth rest).map (· + 1)

/-- What is before and after the first colon, if there is one. -/
def cut (s : Bytes) : Bytes × Option Bytes :=
  match s.dropWhile (· != colon) with
  | [] => (s, none)
  | _ :: after => (s.takeWhile (· != colon), some after)

def dots : Bytes := ascii "..."

def isSpecial (b : UInt8) : Bool := b == opening || b == closing || b == star

/-- The segment between two braces; `last` if the pattern ends there. -/
def paramSegment (body : Bytes) (last : Bool) : Except PatternError Segment :=
  let expr := (cut body).2
  let isCatchAll := expr.isNone && dots.isSuffixOf (cut body).1
  let name := if isCatchAll then (cut body).1.take ((cut body).1.length - 3) else (cut body).1
  if isCatchAll && !last then .error (.catchAllNotLast name)
  else if name = [] ∨ name.any (fun b => b == slash || isSpecial b) = true then .error (.invalidName name)
  else if expr = some [] then .error (.noExpression name)
  else .ok { kind := if isCatchAll then .catchAll else .param, text := expr.getD [], name }

def parseSegments : ℕ → Bytes → Except PatternError (List Segment)
  | 0, _ => .ok []
  | _ + 1, [] => .ok []
  | fuel + 1, b :: rest =>
    if b = opening then
      match paramEnd 1 rest with
      | none => .error .unclosed
      | some i => do
        let s ← paramSegment (rest.take i) (rest.drop (i + 1)).isEmpty
        return s :: (← parseSegments fuel (rest.drop (i + 1)))
    else if b = star then if rest = [] then .ok [{ kind := .catchAll, name := [star] }] else .error .starNotLast
    else if b = closing then .error .unmatched
    else do
      let text := b :: rest.takeWhile fun b => !isSpecial b
      return { kind := .static, text } :: (← parseSegments fuel (rest.dropWhile fun b => !isSpecial b))

/-- A parameter with the byte that ends its value: the first of the text after it. -/
def withTail (s : Segment) (rest : List Segment) : Except PatternError Segment :=
  if s.kind = .param then
    match rest with
    | [] => .ok { s with tail := slash }
    | next :: _ =>
      if next.kind = .static then .ok { s with tail := next.text.headD slash } else .error (.notStatic s.name)
  else .ok s

def setTails : List Segment → Except PatternError (List Segment)
  | [] => .ok []
  | s :: rest => do
    let s ← withTail s rest
    return s :: (← setTails rest)

def keysOf (segments : List Segment) : List Bytes :=
  (segments.filter fun s => s.kind ≠ .static).map Segment.name

/-- The first key that is among those before it. -/
def firstTwice : List Bytes → List Bytes → Option Bytes
  | _, [] => none
  | seen, key :: rest => if key ∈ seen then some key else firstTwice (seen ++ [key]) rest

def parsePattern (pattern : Bytes) : Except PatternError (List Segment) :=
  if pattern.head? ≠ some slash then .error .noSlash
  else do
    let segments ← setTails (← parseSegments pattern.length pattern)
    match firstTwice [] (keysOf segments) with
    | some key => .error (.twice key)
    | none => .ok segments

/-! ### What a pattern matches -/

/-- A pattern, letter by letter: a byte of its text, a parameter, or what takes the rest. -/
inductive Letter where
  | ch (b : UInt8)
  | param (tail : UInt8) (expr : Bytes)
  | catchAll
deriving DecidableEq

def Segment.letters (s : Segment) : List Letter :=
  match s.kind with
  | .static => s.text.map .ch
  | .param => [.param s.tail s.text]
  | .catchAll => [.catchAll]

def lettersOf (segments : List Segment) : List Letter := segments.flatMap Segment.letters

/-- Where a value ends, `none` if nowhere. -/
def valueEnd : Bytes → UInt8 → Option ℕ
  | [], tail => if tail = slash then some 0 else none
  | b :: rest, tail => if b = tail then some 0 else if b = slash then none else (valueEnd rest tail).map (· + 1)

def allDigits (s : Bytes) : Bool := s.all (fun b => 48 ≤ b && b ≤ 57) && !s.isEmpty

/-- The expression between `^` and `$`. -/
def anchored (expr : Bytes) : Bytes :=
  let expr := if expr.head? = some 94 then expr else 94 :: expr
  if expr.getLast? = some 36 then expr else expr ++ [36]

def valueMatcher (re : Bytes → Bytes → Bool) (expr : Bytes) : Bytes → Bool :=
  if expr = ascii "[0-9]+" ∨ expr = ascii "\\d+" then allDigits else re (anchored expr)

def paramValue (re : Bytes → Bytes → Bool) (tail : UInt8) (expr path : Bytes) : Option Bytes :=
  match valueEnd path tail with
  | some (k + 1) =>
    if expr = [] ∨ valueMatcher re expr (path.take (k + 1)) = true then some (path.take (k + 1)) else none
  | _ => none

def matchPath (re : Bytes → Bytes → Bool) : List Letter → Bytes → Option (List Bytes)
  | [], path => if path = [] then some [] else none
  | .ch b :: ls, path => if path.head? = some b then matchPath re ls path.tail else none
  | .param tail expr :: ls, path =>
    match paramValue re tail expr path with
    | some value => (matchPath re ls (path.drop value.length)).map (value :: ·)
    | none => none
  | .catchAll :: ls, path => if ls = [] then some [path] else none

end Fib.Http.Router
