import Fib.Http.Router.Pattern

/-! The radix tree of a Router: how routes are added to it and how a path is searched in it. The tree is a value, so
that what the source writes into a node is here the node with its child replaced. The fallbacks of `Route` and
middleware are left out. -/

namespace Fib.Http.Router

inductive Handler where
  | func (id : ℕ)
  | router (id : ℕ)
deriving DecidableEq

inductive MountKind where
  | notMounted
  | mountExact
  | mountRest
deriving DecidableEq

structure Endpoint where
  handler : Handler
  pattern : Bytes
  keys : List Bytes
  mount : MountKind
deriving DecidableEq

def routeMethods : List Bytes :=
  ["GET", "HEAD", "POST", "PUT", "PATCH", "DELETE", "CONNECT", "OPTIONS", "TRACE"].map ascii

def methodGet : ℕ := 0
def methodHead : ℕ := 1

def methodIndex (method : Bytes) : Option ℕ := routeMethods.findIdx? (· = method)

structure Endpoints where
  methods : ℕ → Option Endpoint := fun _ => none
  custom : List (Bytes × Endpoint) := []
  any : Option Endpoint := none
  allow : Bytes := []

inductive RouteError where
  | pattern (e : PatternError)
  | emptyMethod
  | invalidMethod (method : Bytes)
  | noSlash (pattern : Bytes)
  | catchAllMount (pattern : Bytes)
  | twice (method pattern : Bytes)
deriving DecidableEq

namespace Endpoints
variable (e : Endpoints)

def lookup (e : Endpoints) (index : Option ℕ) (method : Bytes) : Option Endpoint :=
  (match index with
    | some i => (e.methods i).or (if i = methodHead then e.methods methodGet else none)
    | none => e.custom.lookup method).or e.any

def allows (i : ℕ) : Bool :=
  (e.methods i).isSome || i == methodHead && (e.methods methodGet).isSome

/-- The methods a 405 names: those of `routeMethods` in its order, and the others sorted. -/
def allowed : List Bytes :=
  (routeMethods.zipIdx.filter fun m => e.allows m.2).map Prod.fst ++
    (e.custom.map Prod.fst).mergeSort fun a b => decide (a ≤ b)

def updateAllow : Endpoints :=
  { e with allow := if e.any.isSome then [] else (ascii ", ").intercalate e.allowed }

def setAny (ep : Endpoint) : Endpoints := { e with any := some ep }

def setMethod (i : ℕ) (ep : Endpoint) : Endpoints :=
  { e with methods := Function.update e.methods i (some ep) }

def setCustom (method : Bytes) (ep : Endpoint) : Endpoints :=
  { e with custom := e.custom ++ [(method, ep)] }

def set (method : Bytes) (ep : Endpoint) : Except RouteError Endpoints :=
  if method = [] then
    if e.any.isSome then .error (.twice (ascii "any method of") ep.pattern) else .ok (e.setAny ep).updateAllow
  else match methodIndex method with
    | some i =>
      if (e.methods i).isSome then .error (.twice method ep.pattern) else .ok (e.setMethod i ep).updateAllow
    | none =>
      if (e.custom.lookup method).isSome then .error (.twice method ep.pattern)
      else .ok (e.setCustom method ep).updateAllow

end Endpoints

/-- `pre` is the source's `prefix`. A parameter node has a tail, and an expression if its value must match one. -/
structure Node where
  pre : Bytes := []
  indices : Bytes := []
  statics : List Node := []
  params : List Node := []
  catchAll : Option Node := none
  eps : Option Endpoints := none
  tail : UInt8 := 0
  expr : Bytes := []

def commonPrefix : Bytes → Bytes → ℕ
  | a :: as, b :: bs => if a = b then commonPrefix as bs + 1 else 0
  | _, _ => 0

namespace Node

abbrev Change := Node → Except RouteError Node

variable (n : Node)

/-- The node above `child`, which keeps what its prefix has after the first `common` bytes. -/
def split (child : Node) (common : ℕ) : Node :=
  { pre := child.pre.take common, indices := (child.pre.drop common).take 1,
    statics := [{ child with pre := child.pre.drop common }] }

def addStatic (b : UInt8) (child : Node) : Node :=
  { n with indices := n.indices ++ [b], statics := n.statics ++ [child] }

def setStatic (i : ℕ) (child : Node) : Node := { n with statics := n.statics.set i child }

def insertStatic : ℕ → Bytes → Change → Change
  | 0, _, change, n => change n
  | _ + 1, [], change, n => change n
  | fuel + 1, b :: rest, change, n =>
    match n.indices.findIdx? (· = b) with
    | none => (change { pre := b :: rest }).map (n.addStatic b)
    | some i =>
      let child := n.statics.getD i {}
      let common := commonPrefix (b :: rest) child.pre
      let child := if common < child.pre.length then child.split common else child
      (insertStatic fuel ((b :: rest).drop common) change child).map (n.setStatic i)

def setParam (i : ℕ) (child : Node) : Node := { n with params := n.params.set i child }

/-- Where a new parameter goes: before the first one without an expression if it has one. -/
def paramPlace (expr : Bytes) : ℕ :=
  if expr = [] then n.params.length else n.params.findIdx fun p => decide (p.expr = [])

def addParam (s : Segment) (child : Node) : Node :=
  { n with params := n.params.insertIdx (n.paramPlace s.text) child }

def paramChild (s : Segment) (change : Change) : Except RouteError Node :=
  match n.params.findIdx? fun c => decide (c.tail = s.tail ∧ c.expr = s.text) with
  | some i => (change (n.params.getD i {})).map (n.setParam i)
  | none => (change { tail := s.tail, expr := s.text }).map (n.addParam s)

def setCatchAll (child : Node) : Node := { n with catchAll := some child }

def insert : List Segment → Change → Change
  | [], change, n => change n
  | s :: rest, change, n =>
    match s.kind with
    | .static => insertStatic s.text.length s.text (insert rest change) n
    | .param => n.paramChild s (insert rest change)
    | .catchAll => (insert rest change (n.catchAll.getD {})).map n.setCatchAll

def setEps (e : Endpoints) : Node := { n with eps := some e }

/-- `endpointsOf().set`. -/
def setEndpoint (method : Bytes) (ep : Endpoint) : Change := fun n =>
  ((n.eps.getD {}).set method ep).map n.setEps

end Node

/-! ### The search -/

structure RouteState where
  ep : Option Endpoint := none
  keys : List Bytes := []
  values : List Bytes := []
  mounts : List Bytes := []
  rest : Bytes := []
  mounted : Bool := false
  raw : Bool := false
deriving DecidableEq

structure Search where
  st : Option RouteState
  method : Bytes
  ep : Option Endpoint := none
  allow : Bytes := []

namespace Search
variable (s : Search)

def index : Option ℕ := methodIndex s.method

def values (s : Search) : List Bytes := (s.st.getD {}).values

def depth : ℕ := s.values.length

def setValues (values : List Bytes) : Search := { s with st := some { s.st.getD {} with values := values } }

def push (value : Bytes) : Search := s.setValues (s.values ++ [value])

def pop (mark : ℕ) : Search := if s.st.isSome then s.setValues (s.values.take mark) else s

def found (ep : Endpoint) : Search := { s with ep := some ep }

def noteAllow (allow : Bytes) : Search := if s.allow = [] then { s with allow := allow } else s

/-- Whether the routes that end at a node serve the request. A node without any serves none. -/
def accept (eps : Option Endpoints) : Bool × Search :=
  match eps with
  | none => (false, s)
  | some e =>
    match e.lookup s.index s.method with
    | some ep => (true, s.found ep)
    | none => (false, s.noteAllow e.allow)

end Search

/-- What trying some children of a node came to: `on` if the loop goes on with one. -/
inductive Tried where
  | found (s : Search)
  | missed (s : Search)
  | on (n : Node) (s : Search) (path : Bytes)

def Tried.of (r : Bool × Search) : Tried := if r.1 = true then .found r.2 else .missed r.2

namespace Node

def tryCatchAll (n : Node) (s : Search) (path : Bytes) : Bool × Search :=
  match n.catchAll with
  | none => (false, s)
  | some c => if c.eps.isSome then (s.push path).accept c.eps else (false, s)

def tryStatic (n : Node) (find : Node → Search → Bytes → Bool × Search) (s : Search) (path : Bytes) : Tried :=
  match n.indices.findIdx? (path.head? = some ·) with
  | none => .missed s
  | some i =>
    let c := n.statics.getD i {}
    if c.pre.isPrefixOf path then
      if n.params.isEmpty && n.catchAll.isNone then .on c s (path.drop c.pre.length)
      else .of (find c s (path.drop c.pre.length))
    else .missed s

/-- The parameters in turn. The last one is left to the loop if there is no catch-all to try after it. -/
def tryParams (re : Bytes → Bytes → Bool) (noCatchAll : Bool) (find : Node → Search → Bytes → Bool × Search) :
    List Node → Search → Bytes → Tried
  | [], s, _ => .missed s
  | c :: rest, s, path =>
    match paramValue re c.tail c.expr path with
    | none => tryParams re noCatchAll find rest s path
    | some value =>
      if rest.isEmpty && noCatchAll then .on c (s.push value) (path.drop value.length)
      else
        let r := find c (s.push value) (path.drop value.length)
        if r.1 = true then .found r.2 else tryParams re noCatchAll find rest (r.2.pop s.depth) path

/-- The loop of `find`. Each round takes at least a byte off the path, so that its length bounds the rounds. -/
def walk (re : Bytes → Bytes → Bool) : ℕ → ℕ → Node → Search → Bytes → Bool × Search
  | 0, _, _, s, _ => (false, s)
  | fuel + 1, base, n, s, path =>
    let find := fun (c : Node) (s : Search) path => walk re fuel s.depth c s path
    let catchAll := fun (s : Search) =>
      let r := n.tryCatchAll s path
      if r.1 = true then r else (false, r.2.pop base)
    if path = [] then
      let r := s.accept n.eps
      if r.1 = true then r else catchAll r.2
    else
      match n.tryStatic find s path with
      | .found s => (true, s)
      | .on c s path => walk re fuel base c s path
      | .missed s =>
        match tryParams re n.catchAll.isNone find n.params s path with
        | .found s => (true, s)
        | .on c s path => walk re fuel base c s path
        | .missed s => catchAll s

def find (re : Bytes → Bytes → Bool) (n : Node) (s : Search) (path : Bytes) : Bool × Search :=
  walk re (path.length + 1) s.depth n s path

end Node
end Fib.Http.Router
