import Fib.Http.Router.Finds

/-! Routers as they are registered and as they serve: `Handle`, `Method` and `Mount`, and `dispatch`, which a mounted
Router goes on from where the Mount left off. -/

namespace Fib.Http.Router
open List

/-! ### Registration -/

structure Added where
  method : Bytes
  pattern : Bytes
  handler : Handler
  mount : MountKind
deriving DecidableEq

def Added.endpoint (a : Added) (segments : List Segment) : Endpoint := ⟨a.handler, a.pattern, keysOf segments, a.mount⟩

def Node.add (n : Node) (a : Added) : Except RouteError Node :=
  match parsePattern a.pattern with
  | .error e => .error (.pattern e)
  | .ok segments => Node.insert segments (Node.setEndpoint a.method (a.endpoint segments)) n

inductive Registration where
  | handle (pattern : Bytes) (handler : Handler)
  | method (method pattern : Bytes) (handler : Handler)
  | mount (pattern : Bytes) (handler : Handler)
deriving DecidableEq

def isBlank (b : UInt8) : Bool := b == 32 || b == 9

def isMethodByte (b : UInt8) : Bool := 32 < b && b < 127 && b ∉ ascii "()<>@,;:\\\"/[]?=\x7b\x7d"

def checkMethod (method : Bytes) : Except RouteError Unit :=
  if method = [] then .error .emptyMethod
  else if method.all isMethodByte then .ok () else .error (.invalidMethod method)

/-- `handle`, of a Router that no `Route` made. -/
def handle (method pattern : Bytes) (handler : Handler) : Except RouteError (List Added) :=
  if pattern.head? ≠ some slash then .error (.noSlash pattern) else .ok [⟨method, pattern, handler, .notMounted⟩]

/-- The method a `Handle`'s pattern begins with, and the pattern after it. -/
def splitMethod (pattern : Bytes) : Bytes × Bytes :=
  (pattern.takeWhile fun b => !isBlank b, (pattern.dropWhile fun b => !isBlank b).dropWhile isBlank)

def trimSlash (pattern : Bytes) : Bytes := if pattern.getLast? = some slash then pattern.dropLast else pattern

def checked (method pattern : Bytes) (handler : Handler) : Except RouteError (List Added) :=
  match checkMethod method with
  | .error e => .error e
  | .ok () => handle method pattern handler

def Registration.adds : Registration → Except RouteError (List Added)
  | .handle pattern handler =>
    if pattern.any isBlank then checked (splitMethod pattern).1 (splitMethod pattern).2 handler
    else Router.handle [] pattern handler
  | .method m pattern handler => checked m pattern handler
  | .mount pattern handler =>
    if star ∈ pattern ∨ (ascii "...\x7d").isSuffixOf pattern = true then .error (.catchAllMount pattern)
    else .ok ((if trimSlash pattern = [] then [] else [⟨[], trimSlash pattern, handler, .mountExact⟩]) ++
      [⟨[], trimSlash pattern ++ [slash, star], handler, .mountRest⟩])

def register (n : Node) (g : Registration) : Except RouteError Node :=
  match g.adds with
  | .error e => .error e
  | .ok as => as.foldlM Node.add n

def build (gs : List Registration) : Except RouteError Node := gs.foldlM register {}

def Added.route (a : Added) : List Letter × Route :=
  let segments := (parsePattern a.pattern).toOption.getD []
  (lettersOf segments, ⟨a.method, a.endpoint segments⟩)

def routesOf (gs : List Registration) : Routes := gs.flatMap fun g => (g.adds.toOption.getD []).map Added.route

variable {n n' : Node} {L : Routes} {gs : List Registration} {segments : List Segment} {ls : List Letter}
  {as : List Added} {s : Segment} {r : Route} {p : Bytes} {a : Added}

theorem add_represents (h : Represents n L) (ha : n.add a = .ok n') : Represents n' (L ++ [a.route]) := by
  unfold Node.add at ha
  split at ha
  · simp at ha
  rename_i segments hp
  have hroute : a.route = (lettersOf segments ++ [], ⟨a.method, a.endpoint segments⟩) := by
    rw [append_nil, Added.route, hp]
    rfl
  rw [hroute]
  exact (adds_insert (adds_setEndpoint _ _) segments n n' L h ha).1

theorem foldlM_add_represents (h : Represents n L)
    (ha : as.foldlM Node.add n = .ok n') : Represents n' (L ++ as.map Added.route) := by
  induction as generalizing n L with
  | nil =>
    cases ha
    simpa using h
  | cons a as ih =>
    rw [foldlM_cons] at ha
    rcases hx : n.add a with e | n₁
    · rw [hx] at ha
      simp [bind, Except.bind] at ha
    · rw [hx] at ha
      have := ih (add_represents h hx) ha
      rwa [append_assoc] at this

theorem foldlM_register_represents (h : Represents n L)
    (hg : gs.foldlM register n = .ok n') : Represents n' (L ++ routesOf gs) := by
  induction gs generalizing n L with
  | nil =>
    cases hg
    simpa [routesOf] using h
  | cons g gs ih =>
    rw [foldlM_cons] at hg
    rcases hx : register n g with e | n₁
    · rw [hx] at hg
      simp [bind, Except.bind] at hg
    rw [hx] at hg
    unfold register at hx
    rcases hadds : g.adds with e | as
    · rw [hadds] at hx
      simp at hx
    rw [hadds] at hx
    have hrep := ih (foldlM_add_represents h hx) hg
    have hcons : routesOf (g :: gs) = as.map Added.route ++ routesOf gs := by
      rw [routesOf, flatMap_cons, hadds]
      rfl
    rwa [hcons, ← append_assoc]

theorem build_represents (h : build gs = .ok n) : Represents n (routesOf gs) := by
  have := foldlM_register_represents (represents_nil [] 0 []) h
  rwa [nil_append] at this

theorem keys_length_of_mem (h : (ls, r) ∈ routesOf gs) : r.ep.keys.length = (ls.filter Letter.hasValue).length := by
  obtain ⟨g, -, hm⟩ := mem_flatMap.1 h
  obtain ⟨a, -, ha⟩ := mem_map.1 hm
  cases ha
  exact keysOf_length _

/-! ### The pattern of a Mount -/

theorem except_bind_ok {α β : Type} {x : Except PatternError α} {f : α → Except PatternError β} {y : β}
    (h : (x >>= f) = .ok y) : ∃ a, x = .ok a ∧ f a = .ok y := by
  cases x with
  | error e => simp [bind, Except.bind] at h
  | ok a => exact ⟨a, rfl, h⟩

theorem keysOf_cons_ne_nil {rest : List Segment} (h : s.kind ≠ .static) : keysOf (s :: rest) ≠ [] := by
  simp [keysOf, h]

theorem paramSegment_kind {body : Bytes} {last : Bool} (h : paramSegment body last = .ok s) : s.kind ≠ .static := by
  unfold paramSegment at h
  dsimp only at h
  split_ifs at h <;> cases h <;> simp

theorem keysOf_parseSegments_ne_nil {fuel : ℕ} (hfuel : p.length ≤ fuel)
    (hlast : p.getLast? = some star) (h : parseSegments fuel p = .ok segments) : keysOf segments ≠ [] := by
  induction fuel generalizing p segments with
  | zero =>
    obtain rfl : p = [] := length_eq_zero_iff.1 (by omega)
    simp at hlast
  | succ fuel ih =>
    cases p with
    | nil => simp at hlast
    | cons b rest =>
      rw [parseSegments] at h
      split_ifs at h with h1 h2 h3 h4
      · split at h
        · simp at h
        · obtain ⟨s, hs, h⟩ := except_bind_ok h
          obtain ⟨tail, -, h⟩ := except_bind_ok h
          cases h
          exact keysOf_cons_ne_nil (paramSegment_kind hs)
      · cases h
        simp [keysOf]
      obtain ⟨tail, htail, h⟩ := except_bind_ok h
      cases h
      have hsplit :
          b :: rest = (b :: rest.takeWhile fun b => !isSpecial b) ++ rest.dropWhile fun b => !isSpecial b := by
        rw [cons_append, takeWhile_append_dropWhile]
      have hne : (rest.dropWhile fun b => !isSpecial b) ≠ [] := by
        intro hnil
        have hall : ∀ x ∈ rest, (!isSpecial x) = true := by
          have htake := takeWhile_append_dropWhile (p := fun b => !isSpecial b) (l := rest)
          rw [hnil, append_nil] at htake
          intro x hx
          rw [← htake] at hx
          exact all_eq_true.1 all_takeWhile x hx
        rcases eq_nil_or_concat' rest with rfl | ⟨init, x, rfl⟩
        · simp only [List.getLast?_singleton, Option.some.injEq] at hlast
          exact h2 hlast
        have hx : x = star := by
          rw [← cons_append, List.getLast?_concat] at hlast
          exact Option.some.inj hlast
        have := hall x (by simp)
        rw [hx] at this
        cases this
      have hlast' : (rest.dropWhile fun b => !isSpecial b).getLast? = some star := by
        rw [hsplit, List.getLast?_append_of_ne_nil _ hne] at hlast
        exact hlast
      have hlen : (rest.dropWhile fun b => !isSpecial b).length ≤ fuel := by
        have := (dropWhile_sublist (l := rest) fun b => !isSpecial b).length_le
        simp only [length_cons] at hfuel
        omega
      have hkeys : ∀ text, keysOf ({ kind := .static, text := text } :: tail) = keysOf tail := fun text => rfl
      rw [hkeys]
      exact ih hlen hlast' htail

theorem keysOf_setTails {segments' : List Segment} (h : setTails segments = .ok segments') :
    keysOf segments' = keysOf segments := by
  induction segments generalizing segments' with
  | nil =>
    cases h
    rfl
  | cons s rest ih =>
    rw [setTails] at h
    obtain ⟨s', hs, h⟩ := except_bind_ok h
    obtain ⟨rest', hrest, h⟩ := except_bind_ok h
    cases h
    have hsame : s'.kind = s.kind ∧ s'.name = s.name := by
      unfold withTail at hs
      split_ifs at hs
      · split at hs
        · cases hs
          exact ⟨rfl, rfl⟩
        · split_ifs at hs
          cases hs
          exact ⟨rfl, rfl⟩
      · cases hs
        exact ⟨rfl, rfl⟩
    have := ih hrest
    unfold keysOf at this ⊢
    rw [filter_cons, filter_cons, hsame.1]
    split_ifs
    · rw [map_cons, map_cons, hsame.2, this]
    · exact this

theorem keysOf_parsePattern_ne_nil (hlast : p.getLast? = some star)
    (h : parsePattern p = .ok segments) : keysOf segments ≠ [] := by
  unfold parsePattern at h
  split_ifs at h
  obtain ⟨segments₀, hparse, h⟩ := except_bind_ok h
  obtain ⟨segments', htails, h⟩ := except_bind_ok h
  split at h
  · simp at h
  · cases h
    rw [keysOf_setTails htails]
    exact keysOf_parseSegments_ne_nil le_rfl hlast hparse

/-- What holds of an element that a step takes holds of all that were taken. -/
theorem forall_of_foldlM {α β ε : Type} {f : β → α → Except ε β} {P : α → Prop} {l : List α} {b b' : β}
    (hf : ∀ b b' a, f b a = .ok b' → P a) (h : l.foldlM f b = .ok b') : ∀ a ∈ l, P a := by
  induction l generalizing b with
  | nil => simp
  | cons a l ih =>
    rw [foldlM_cons] at h
    cases hx : f b a with
    | error e => simp [hx, bind, Except.bind] at h
    | ok b₁ =>
      rw [hx] at h
      exact forall_mem_cons.2 ⟨hf b b₁ a hx, ih h⟩

theorem foldlM_add_parsed (h : as.foldlM Node.add n = .ok n') :
    ∀ a ∈ as, ∃ segments, parsePattern a.pattern = .ok segments := by
  refine forall_of_foldlM (fun n n' a hx => ?_) h
  unfold Node.add at hx
  split at hx
  · simp at hx
  · rename_i segments hp
    exact ⟨segments, hp⟩

theorem foldlM_register_parsed (h : gs.foldlM register n = .ok n') :
    ∀ g ∈ gs, ∀ a ∈ g.adds.toOption.getD [], ∃ segments, parsePattern a.pattern = .ok segments := by
  refine forall_of_foldlM (fun n n' g hx => ?_) h
  unfold register at hx
  rcases hadds : g.adds with e | as
  · rw [hadds] at hx
    simp at hx
  · rw [hadds] at hx
    exact foldlM_add_parsed hx

theorem getLast?_of_mountRest {g : Registration} (h : a ∈ g.adds.toOption.getD [])
    (hm : a.mount = .mountRest) : a.pattern.getLast? = some star := by
  have hhandle : ∀ m p f, ∀ a ∈ (handle m p f).toOption.getD [], a.mount ≠ .mountRest := by
    intro m p f a ha
    unfold handle at ha
    split_ifs at ha
    · simp [Except.toOption] at ha
    · obtain rfl := mem_singleton.1 ha
      simp
  have hchecked : ∀ m p f, ∀ a ∈ (checked m p f).toOption.getD [], a.mount ≠ .mountRest := by
    intro m p f a ha
    unfold checked at ha
    split at ha
    · simp [Except.toOption] at ha
    · exact hhandle m p f a ha
  cases g with
  | handle pattern handler =>
    rw [Registration.adds] at h
    split_ifs at h
    · exact absurd hm (hchecked _ _ _ a h)
    · exact absurd hm (hhandle _ _ _ a h)
  | method m pattern handler => exact absurd hm (hchecked _ _ _ a h)
  | mount pattern handler =>
    rw [Registration.adds] at h
    split_ifs at h with h1 h2
    · simp [Except.toOption] at h
    · rcases mem_append.1 h with h | h
      · simp at h
      · obtain rfl := mem_singleton.1 h
        simp
    rcases mem_append.1 h with h | h
    · obtain rfl := mem_singleton.1 h
      simp at hm
    · obtain rfl := mem_singleton.1 h
      simp

theorem keys_ne_nil_of_mountRest (hb : build gs = .ok n)
    (h : (ls, r) ∈ routesOf gs) (hm : r.ep.mount = .mountRest) : r.ep.keys ≠ [] := by
  obtain ⟨g, hg, hmem⟩ := mem_flatMap.1 h
  obtain ⟨a, ha, har⟩ := mem_map.1 hmem
  obtain ⟨segments, hp⟩ := foldlM_register_parsed hb g hg a ha
  obtain ⟨-, rfl⟩ := Prod.mk.inj har
  rw [hp]
  exact keysOf_parsePattern_ne_nil (getLast?_of_mountRest ha hm) hp

/-! ### Dispatch -/

/-- The route state a Context has: none, one that an endpoint shares, or its own. -/
inductive ContextRoute where
  | none
  | shared (ep : Endpoint)
  | own (st : RouteState)
deriving DecidableEq

structure Context where
  method : Bytes
  url : Option (Bytes × Bytes)
  route : ContextRoute := .none
deriving DecidableEq

def RouteState.taken (st : RouteState) : RouteState :=
  { st with mounted := false, mounts := st.mounts ++ [(st.ep.map Endpoint.pattern).getD []], ep := none }

namespace Context
variable (c : Context)

def path (c : Context) : Bytes :=
  match c.url with
  | .none => []
  | some (path, raw) => if raw = [] then path else raw

def isRaw : Bool :=
  match c.url with
  | .none => false
  | some (_, raw) => raw ≠ []

def cleared : Option RouteState :=
  match c.route with
  | .own _ => some { raw := c.isRaw }
  | _ => if c.isRaw = true then some { raw := true } else .none

/-- The path to route and the route state: what a Mount left, or those of the request. -/
def start : Bytes × Option RouteState :=
  match c.route with
  | .own st =>
    if st.mounted = true then (st.rest, some st.taken) else (c.path, c.cleared)
  | _ => (c.path, c.cleared)

def withRoute (st : Option RouteState) : Context :=
  { c with route := match st with
    | .none => .none
    | some st => .own st }

end Context

def restOf (mount : MountKind) (path : Bytes) (values : List Bytes) : Bytes :=
  match mount with
  | .mountRest => path.drop (path.length - (values.getLastD []).length - 1)
  | _ => [slash]

def stateFor (ep : Endpoint) (path : Bytes) (base : List Bytes) (st : RouteState) : RouteState :=
  let keys := if base = [] then ep.keys else if ep.keys ≠ [] then base ++ ep.keys else st.keys
  match ep.mount with
  | .notMounted => { st with ep := some ep, keys := keys }
  | mount => { st with ep := some ep, keys := keys, mounted := true, rest := restOf mount path st.values }

inductive Outcome where
  | notFound (c : Context)
  | methodNotAllowed (c : Context) (allow : Bytes)
  | serve (ep : Endpoint) (c : Context)

def Context.served (c : Context) (ep : Endpoint) (path : Bytes) (base : List Bytes) (st : Option RouteState) :
    Context :=
  if st.isNone = true ∧ ep.mount = .notMounted then { c with route := .shared ep }
  else { c with route := .own (stateFor ep path base (st.getD {})) }

def dispatch (re : Bytes → Bytes → Bool) (root : Node) (c : Context) : Outcome :=
  let path := c.start.1
  let st := c.start.2
  let base := (st.getD {}).keys
  let r := root.find re { st := st, method := c.method } path
  match r.1, r.2.ep with
  | true, some ep => .serve ep (c.served ep path base r.2.st)
  | _, _ =>
    if r.2.allow = [] then .notFound (c.withRoute r.2.st) else .methodNotAllowed (c.withRoute r.2.st) r.2.allow

/-- The request through the Routers, up to a handler that is none. -/
def serveHTTP (re : Bytes → Bytes → Bool) (roots : ℕ → Node) : ℕ → ℕ → Context → Option (Endpoint × Context)
  | 0, _, _ => none
  | fuel + 1, id, c =>
    match dispatch re (roots id) c with
    | .serve ep c' =>
      match ep.handler with
      | .func _ => some (ep, c')
      | .router j => serveHTTP re roots fuel j c'
    | _ => none

def shown (unescape : Bytes → Option Bytes) (raw : Bool) (v : Bytes) : Bytes :=
  if raw = true then (unescape v).getD v else v

def Context.params (unescape : Bytes → Option Bytes) (c : Context) : List (Bytes × Bytes) :=
  match c.route with
  | .own st => st.keys.zipIdx.map fun k => (k.1, shown unescape st.raw (st.values.getD k.2 []))
  | _ => []

end Fib.Http.Router
