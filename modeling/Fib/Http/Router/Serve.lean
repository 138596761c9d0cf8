import Fib.Http.Router.Dispatch

/-! Routers find the route the rules name, and through any chain of Mounts a handler sees the parameters of the Mounts
and then those of its route, with the values its own pattern matched. -/

namespace Fib.Http.Router
open List Context

/-! ### What the rules say of a request -/

/-- A request at a Router with a path and the parameters so far, and what it comes to: the parameters its handler sees
and the route. A Mount hands on what it leaves of the path, and a Router that is the handler of a plain route starts
anew. -/
inductive Served (re : Bytes → Bytes → Bool) (tables : ℕ → Routes) (method request : Bytes) :
    ℕ → Bytes → List (Bytes × Bytes) → List (Bytes × Bytes) → Endpoint → Prop where
  | func {id f : ℕ} {path : Bytes} {acc : List (Bytes × Bytes)} {ls : List Letter} {r : Route} {vs : List Bytes}
      (best : Best re method (tables id) path ls r vs) (hf : r.ep.handler = .func f) :
      Served re tables method request id path acc (acc ++ r.ep.keys.zip vs) r.ep
  | mounted {id j : ℕ} {path : Bytes} {acc ps : List (Bytes × Bytes)} {ls : List Letter} {r : Route} {vs : List Bytes}
      {ep : Endpoint} (best : Best re method (tables id) path ls r vs) (hj : r.ep.handler = .router j)
      (hm : r.ep.mount ≠ .notMounted)
      (rest : Served re tables method request j (restOf r.ep.mount path vs) (acc ++ r.ep.keys.zip vs) ps ep) :
      Served re tables method request id path acc ps ep
  | handled {id j : ℕ} {path : Bytes} {acc ps : List (Bytes × Bytes)} {ls : List Letter} {r : Route} {vs : List Bytes}
      {ep : Endpoint} (best : Best re method (tables id) path ls r vs) (hj : r.ep.handler = .router j)
      (hm : r.ep.mount = .notMounted) (rest : Served re tables method request j request [] ps ep) :
      Served re tables method request id path acc ps ep

variable {L : Routes} {re : Bytes → Bytes → Bool} {ls ls' : List Letter}

theorem before_asymm {a b : Letter} (h : Before L a b) : ¬ Before L b a := by
  cases a <;> cases b <;> simp only [Before, not_false_eq_true] at h ⊢
  rintro (⟨h1, h2⟩ | ⟨h1, h2⟩) <;> rcases h with ⟨h3, h4⟩ | ⟨h3, h4⟩
  · exact h3 h2
  · exact h1 (h3.1 h2)
  · exact h3 (h1.1 h4)
  · omega

theorem over_asymm (h : Over L ls ls') : ¬ Over L ls' ls := by
  induction ls generalizing L ls' with
  | nil =>
    cases ls' with
    | nil => simp [Over] at h
    | cons b ls' => simp [Over]
  | cons a ls ih =>
    cases ls' with
    | nil => simp [Over] at h
    | cons b ls' =>
      by_cases hab : a = b
      · subst hab
        simp only [Over, if_true] at h ⊢
        exact ih h
      · rw [Over, if_neg hab] at h
        rw [Over, if_neg (Ne.symm hab)]
        exact before_asymm h

theorem Best.unique {method path : Bytes} {r r' : Route} {vs vs' : List Bytes} (h : Best re method L path ls r vs)
    (h' : Best re method L path ls' r' vs') : r = r' ∧ vs = vs' := by
  have hls : ls = ls' ∧ r = r' := by
    rcases h.preferred ls' r' h'.mem (by simp [h'.matched]) h'.serves with ⟨h1, h2⟩ | ⟨h1, h2⟩ | h1
    · exact ⟨h1.symm, h2.symm⟩
    · rcases h'.preferred ls r h.mem (by simp [h.matched]) h.serves with ⟨-, h3⟩ | ⟨-, h3⟩ | h3
      · exact ⟨h1.symm, h3⟩
      · omega
      · subst h1
        exact absurd h3 (over_asymm h3)
    rcases h'.preferred ls r h.mem (by simp [h.matched]) h.serves with ⟨h3, h4⟩ | ⟨h3, -⟩ | h3
    · exact ⟨h3, h4⟩
    · subst h3
      exact absurd h1 (over_asymm h1)
    · exact absurd h3 (over_asymm h1)
  obtain ⟨rfl, rfl⟩ := hls
  exact ⟨rfl, Option.some.inj (h.matched.symm.trans h'.matched)⟩

/-! ### The parameters -/

def Context.state (c : Context) : RouteState :=
  match c.route with
  | .own st => st
  | _ => {}

theorem params_eq (unescape : Bytes → Option Bytes) (c : Context) (h : c.state.keys.length = c.state.values.length) :
    c.params unescape = (c.state.keys.zip c.state.values).map fun p => (p.1, shown unescape c.state.raw p.2) := by
  unfold params
  unfold state at h ⊢
  cases hr : c.route with
  | none => rfl
  | shared ep => rfl
  | own st =>
    simp only [hr] at h ⊢
    refine ext_getElem (by simp [h]) fun i h1 h2 => ?_
    have hi : i < st.values.length := by
      rw [length_map, length_zipIdx] at h1
      omega
    simp [getD_eq_getElem?_getD, List.getElem?_eq_getElem hi]

theorem restOf_append (mount : MountKind) (path : Bytes) {us vs : List Bytes} (h : vs ≠ [] ∨ mount ≠ .mountRest) :
    restOf mount path (us ++ vs) = restOf mount path vs := by
  cases mount with
  | notMounted => rfl
  | mountExact => rfl
  | mountRest =>
    have hne : vs ≠ [] := h.resolve_right fun hn => hn rfl
    simp only [restOf]
    rw [getLastD_eq_getLast?, getLastD_eq_getLast?, List.getLast?_append_of_ne_nil _ hne]

/-- What `start` leaves to go on from. -/
def Context.base (c : Context) : RouteState := c.start.2.getD {}

/-- A Context handed to a Router: `acc` are the parameters so far and `path` what is left to route. -/
structure Handed (c₀ c : Context) (acc : List (Bytes × Bytes)) (path : Bytes) : Prop where
  method : c.method = c₀.method
  url : c.url = c₀.url
  path : c.start.1 = path
  pairs : c.base.keys.zip c.base.values = acc
  length : c.base.keys.length = c.base.values.length
  raw : c.base.raw = c₀.isRaw

theorem Context.base_mounted (c : Context) : c.base.mounted = false := by
  have hcleared : (c.cleared.getD {}).mounted = false := by
    unfold cleared
    split
    · rfl
    · split_ifs <;> rfl
  unfold base start
  split
  · split_ifs
    · rfl
    · exact hcleared
  · exact hcleared

/-- A Context that no Mount left anything for starts with the request's own path and no parameters. -/
theorem handed_fresh {c₀ c : Context} (hm : c.method = c₀.method) (hu : c.url = c₀.url) (h : c.state.mounted = false) :
    Handed c₀ c [] c₀.path := by
  have hpath : c.path = c₀.path := by rw [path, path, hu]
  have hraw : c.isRaw = c₀.isRaw := by rw [isRaw, isRaw, hu]
  have hstart : c.start = (c.path, c.cleared) := by
    unfold start
    unfold state at h
    split
    · rename_i st hr
      rw [hr] at h
      rw [if_neg (by rw [h]; decide)]
    · rfl
  have hcleared : c.cleared.getD {} = { raw := c.isRaw } := by
    unfold cleared
    split
    · rfl
    split_ifs with hc
    · rw [hc]
      rfl
    · have : c.isRaw = false := by simpa using hc
      rw [this]
      rfl
  have hbase : c.base = { raw := c.isRaw } := by rw [base, hstart, hcleared]
  exact ⟨hm, hu, by rw [hstart, hpath], by rw [hbase]; rfl, by rw [hbase], by rw [hbase, hraw]⟩

structure Given (c c' : Context) (ep : Endpoint) (path : Bytes) (vs : List Bytes) : Prop where
  method : c'.method = c.method
  url : c'.url = c.url
  keys : c'.state.keys = c.base.keys ++ ep.keys
  values : c'.state.values = c.base.values ++ vs
  raw : c'.state.raw = c.base.raw
  mounted : ep.mount ≠ .notMounted → ∃ st, c'.route = .own st ∧ st.mounted = true ∧ st.rest = restOf ep.mount path vs
  unmounted : ep.mount = .notMounted → c'.state.mounted = false

/-- The routes have a key for each value, and a Mount's for the rest of the path has one. -/
structure Keyed (L : Routes) : Prop where
  length : ∀ ls r, (ls, r) ∈ L → r.ep.keys.length = (ls.filter Letter.hasValue).length
  rest : ∀ ls r, (ls, r) ∈ L → r.ep.mount = .mountRest → r.ep.keys ≠ []

theorem given_of_found {c : Context} {ls : List Letter} {r : Route}
    {vs : List Bytes} {s' : Search} (hL : Keyed L) (hb : Best re c.method L c.start.1 ls r vs)
    (hv : s'.values = c.base.values ++ vs) (hs : ({ st := c.start.2, method := c.method } : Search).Same s') :
    Given c (c.served r.ep c.start.1 c.base.keys s'.st) r.ep c.start.1 vs := by
  have hlen : vs.length = r.ep.keys.length := by
    rw [hL.length ls r hb.mem, matchPath_length hb.matched]
  have hst : (s'.st.getD {}).withoutValues = c.base.withoutValues := hs.st
  unfold served
  split_ifs with hshared
  · -- The state is the endpoint's own: nothing was pushed, and there was nothing before.
    have hnone : s'.st = none := by simpa using hshared.1
    have hstart : c.start.2 = none := by
      by_contra hne
      have := hs.isSome (Option.isSome_iff_ne_none.2 hne)
      rw [hnone] at this
      simp at this
    have hbase : c.base = {} := by rw [base, hstart]; rfl
    have hvs : vs = [] := by
      rw [Search.values, hnone, hbase] at hv
      simpa using hv.symm
    have hkeys : r.ep.keys = [] := length_eq_zero_iff.1 (by rw [← hlen, hvs]; rfl)
    refine ⟨rfl, rfl, ?_, ?_, ?_, fun hm => absurd hshared.2 hm, fun _ => rfl⟩
    · rw [hbase, hkeys]
      rfl
    · rw [hbase, hvs]
      rfl
    · rw [hbase]
      rfl
  · have hk : (s'.st.getD {}).keys = c.base.keys := by simpa using congrArg RouteState.keys hst
    have hr : (s'.st.getD {}).raw = c.base.raw := by simpa using congrArg RouteState.raw hst
    have hm : (s'.st.getD {}).mounted = false := (congrArg RouteState.mounted hst).trans c.base_mounted
    have hvals : (s'.st.getD {}).values = c.base.values ++ vs := hv
    have hkeys : (if c.base.keys = [] then r.ep.keys else if r.ep.keys ≠ [] then c.base.keys ++ r.ep.keys
        else (s'.st.getD {}).keys) = c.base.keys ++ r.ep.keys := by
      split_ifs with h1 h2
      · rw [h1, nil_append]
      · rfl
      · rw [hk, not_not.1 h2, append_nil]
    have hrest : restOf r.ep.mount c.start.1 (s'.st.getD {}).values = restOf r.ep.mount c.start.1 vs := by
      rw [hvals]
      refine restOf_append _ _ ?_
      by_cases hmr : r.ep.mount = .mountRest
      · refine .inl fun hvs => hL.rest ls r hb.mem hmr (length_eq_zero_iff.1 ?_)
        rw [← hlen, hvs]
        rfl
      · exact .inr hmr
    unfold stateFor
    rw [hkeys]
    split
    · rename_i hmount
      exact ⟨rfl, rfl, rfl, hvals, hr, fun hne => absurd hmount hne, fun _ => hm⟩
    · rename_i hmount
      exact ⟨rfl, rfl, rfl, hvals, hr, fun _ => ⟨_, rfl, rfl, hrest⟩, fun he => absurd he hmount⟩

theorem dispatch_spec (re : Bytes → Bytes → Bool) {root : Node} (hroot : Represents root L) (hL : Keyed L)
    (c : Context) : (∃ ls r vs c', Best re c.method L c.start.1 ls r vs ∧ dispatch re root c = .serve r.ep c' ∧
        Given c c' r.ep c.start.1 vs) ∨ Fails re c.method L c.start.1 ∧ ∀ ep c', dispatch re root c ≠ .serve ep c' := by
  have hfind : Finds re L { st := c.start.2, method := c.method } c.start.1 _
    (root.find re { st := c.start.2, method := c.method } c.start.1) := find_finds hroot
  unfold dispatch
  dsimp only
  generalize root.find re { st := c.start.2, method := c.method } c.start.1 = res at hfind
  cases hfind with
  | found best ep values same =>
    refine .inl ⟨_, _, _, _, best, ?_, given_of_found hL best values same⟩
    simp only [ep]
    rfl
  | missed fails values same =>
    refine .inr ⟨fails, fun ep c' => ?_⟩
    split_ifs <;> simp

/-! ### Chains of Mounts -/

section
variable {re : Bytes → Bytes → Bool} {roots : ℕ → Node} {tables : ℕ → Routes} {c₀ c c' : Context}
  {acc : List (Bytes × Bytes)} {path : Bytes} {r : Route} {vs : List Bytes}
section
variable (h : Handed c₀ c acc path)
include h
variable (hg : Given c c' r.ep path vs)
include hg

theorem Handed.pairs_given : c'.state.keys.zip c'.state.values = acc ++ r.ep.keys.zip vs := by
  rw [hg.keys, hg.values, zip_append h.length, h.pairs]

theorem Handed.length_given (hlen : r.ep.keys.length = vs.length) : c'.state.keys.length = c'.state.values.length := by
  rw [hg.keys, hg.values, length_append, length_append, h.length, hlen]

theorem Handed.params (hlen : r.ep.keys.length = vs.length) (unescape : Bytes → Option Bytes) :
    c'.params unescape = (acc ++ r.ep.keys.zip vs).map fun p => (p.1, shown unescape c₀.isRaw p.2) := by
  rw [params_eq unescape c' (h.length_given hg hlen), h.pairs_given hg, hg.raw, h.raw]

theorem Handed.mounted (hlen : r.ep.keys.length = vs.length)
    (hm : r.ep.mount ≠ .notMounted) : Handed c₀ c' (acc ++ r.ep.keys.zip vs) (restOf r.ep.mount path vs) := by
  obtain ⟨st, hroute, hmounted, hrest⟩ := hg.mounted hm
  have hstate : c'.state = st := by rw [state, hroute]
  have hstart : c'.start = (st.rest, some st.taken) := by
    rw [start, hroute]
    exact if_pos hmounted
  have hpairs := h.pairs_given hg
  have hlength := h.length_given hg hlen
  have hraw := hg.raw.trans h.raw
  rw [hstate] at hpairs hlength hraw
  refine ⟨hg.method.trans h.method, hg.url.trans h.url, by rw [hstart, hrest], ?_, ?_, ?_⟩ <;>
    rw [base, hstart]
  · exact hpairs
  · exact hlength
  · exact hraw

theorem Handed.handled (hm : r.ep.mount = .notMounted) : Handed c₀ c' [] c₀.path :=
  handed_fresh (hg.method.trans h.method) (hg.url.trans h.url) (hg.unmounted hm)

end

variable {ep : Endpoint} {id : ℕ} (hroots : ∀ id, Represents (roots id) (tables id)) (hL : ∀ id, Keyed (tables id))
include hroots hL

theorem served_of_serveHTTP (fuel : ℕ) (h : Handed c₀ c acc path) (hs : serveHTTP re roots fuel id c = some (ep, c')) :
    ∃ ps, Served re tables c₀.method c₀.path id path acc ps ep ∧
      ∀ unescape, c'.params unescape = ps.map fun p => (p.1, shown unescape c₀.isRaw p.2) := by
  induction fuel generalizing id c acc path with
  | zero => simp [serveHTTP] at hs
  | succ fuel ih =>
    rw [serveHTTP] at hs
    rcases dispatch_spec re (hroots id) (hL id) c with ⟨ls, r, vs, c₁, best, hd, hg⟩ | ⟨-, hno⟩
    · rw [h.method, h.path] at best
      rw [h.path] at hg
      have hlen : r.ep.keys.length = vs.length := by
        rw [(hL id).length ls r best.mem, matchPath_length best.matched]
      rw [hd] at hs
      dsimp only at hs
      rcases hh : r.ep.handler with f | j
      · rw [hh] at hs
        cases hs
        exact ⟨_, .func best hh, h.params hg hlen⟩
      rw [hh] at hs
      by_cases hm : r.ep.mount = .notMounted
      · obtain ⟨ps, hps, hparams⟩ := ih (h.handled hg hm) hs
        exact ⟨ps, .handled best hh hm hps, hparams⟩
      · obtain ⟨ps, hps, hparams⟩ := ih (h.mounted hg hlen hm) hs
        exact ⟨ps, .mounted best hh hm hps, hparams⟩
    · split at hs
      · rename_i ep' c₁ hd
        exact absurd hd (hno ep' c₁)
      · simp at hs

theorem serveHTTP_of_served {ps : List (Bytes × Bytes)}
    (hs : Served re tables c₀.method c₀.path id path acc ps ep) (h : Handed c₀ c acc path) :
    ∃ fuel c', serveHTTP re roots fuel id c = some (ep, c') ∧
      ∀ unescape, c'.params unescape = ps.map fun p => (p.1, shown unescape c₀.isRaw p.2) := by
  -- One Router: the route found is the one that the rules name.
  have hone : ∀ {id path acc c ls r vs}, Best re c₀.method (tables id) path ls r vs → Handed c₀ c acc path →
      ∃ c₁, dispatch re (roots id) c = .serve r.ep c₁ ∧ Given c c₁ r.ep path vs ∧ r.ep.keys.length = vs.length := by
    intro id path acc c ls r vs best h
    rcases dispatch_spec re (hroots id) (hL id) c with ⟨ls', r', vs', c₁, best', hd, hg⟩ | ⟨hf, -⟩
    · rw [h.method, h.path] at best'
      obtain ⟨rfl, rfl⟩ := best.unique best'
      rw [h.path] at hg
      refine ⟨c₁, hd, hg, ?_⟩
      rw [(hL id).length ls r best.mem, matchPath_length best.matched]
    · rw [h.method, h.path] at hf
      exact absurd best.serves (hf ls r best.mem (by simp [best.matched]))
  induction hs generalizing c with
  | func best hf =>
    obtain ⟨c₁, hd, hg, hlen⟩ := hone best h
    refine ⟨1, c₁, ?_, h.params hg hlen⟩
    rw [serveHTTP, hd]
    dsimp only
    rw [hf]
  | mounted best hj hm rest ih =>
    obtain ⟨c₁, hd, hg, hlen⟩ := hone best h
    obtain ⟨fuel, c', hrun, hparams⟩ := ih (h.mounted hg hlen hm)
    refine ⟨fuel + 1, c', ?_, hparams⟩
    rw [serveHTTP, hd]
    dsimp only
    rw [hj]
    exact hrun
  | handled best hj hm rest ih =>
    obtain ⟨c₁, hd, hg, hlen⟩ := hone best h
    obtain ⟨fuel, c', hrun, hparams⟩ := ih (h.handled hg hm)
    refine ⟨fuel + 1, c', ?_, hparams⟩
    rw [serveHTTP, hd]
    dsimp only
    rw [hj]
    exact hrun

end

/-! ### Routers as they are registered -/

theorem keyed_routesOf {gs : List Registration} {n : Node} (h : build gs = .ok n) : Keyed (routesOf gs) :=
  ⟨fun _ _ hm => keys_length_of_mem hm, fun _ _ hm hr => keys_ne_nil_of_mountRest h hm hr⟩

/-- The search succeeds exactly when a route serves the request, and finds the one preferred to every other; and
Routers that mount one another come to what the rules say, with the parameters they say. -/
theorem router_finds_preferred (re : Bytes → Bytes → Bool) (unescape : Bytes → Option Bytes)
    (tables : ℕ → List Registration) (roots : ℕ → Node) (hroots : ∀ id, build (tables id) = .ok (roots id)) :
    (∀ id (s : Search) path,
      ((roots id).find re s path).1 = true ↔
        ∃ ls r, (ls, r) ∈ routesOf (tables id) ∧ matchPath re ls path ≠ none ∧ r.serves s.method) ∧
    (∀ id (s : Search) path, ((roots id).find re s path).1 = true →
      ∃ ls r vs, Best re s.method (routesOf (tables id)) path ls r vs ∧
        ((roots id).find re s path).2.ep = some r.ep ∧ ((roots id).find re s path).2.values = s.values ++ vs) ∧
    (∀ id (s : Search) path, ((roots id).find re s path).1 = false → ((roots id).find re s path).2.values = s.values) ∧
    (∀ id (c : Context), c.state.mounted = false →
      (∀ ep ps, Served re (fun id => routesOf (tables id)) c.method c.path id c.path [] ps ep →
        ∃ fuel c', serveHTTP re roots fuel id c = some (ep, c') ∧
          c'.params unescape = ps.map fun p => (p.1, shown unescape c.isRaw p.2)) ∧
      ∀ fuel ep c', serveHTTP re roots fuel id c = some (ep, c') →
        ∃ ps, Served re (fun id => routesOf (tables id)) c.method c.path id c.path [] ps ep ∧
          c'.params unescape = ps.map fun p => (p.1, shown unescape c.isRaw p.2)) := by
  have hrep : ∀ id, Represents (roots id) (routesOf (tables id)) := fun id => build_represents (hroots id)
  have hkeyed : ∀ id, Keyed (routesOf (tables id)) := fun id => keyed_routesOf (hroots id)
  have hfinds : ∀ id (s : Search) path, Finds re (routesOf (tables id)) s path s.depth ((roots id).find re s path) :=
    fun id s path => find_finds (hrep id)
  refine ⟨fun id s path => ?_, fun id s path hok => ?_, fun id s path hno => ?_,
    fun id c hc => ⟨fun ep ps hs => ?_, ?_⟩⟩
  · have h := hfinds id s path
    generalize (roots id).find re s path = res at h
    cases h with
    | found best ep values same =>
      exact ⟨fun _ => ⟨_, _, best.mem, by simp [best.matched], best.serves⟩, fun _ => rfl⟩
    | missed fails values same =>
      refine ⟨fun hx => absurd hx Bool.false_ne_true, ?_⟩
      rintro ⟨ls, r, hm, hne, hs⟩
      exact absurd hs (fails ls r hm hne)
  · have h := hfinds id s path
    generalize (roots id).find re s path = res at h hok
    cases h with
    | found best ep values same => exact ⟨_, _, _, best, ep, values⟩
    | missed fails values same => exact absurd hok Bool.false_ne_true
  · have h := hfinds id s path
    generalize (roots id).find re s path = res at h hno
    cases h with
    | found best ep values same => exact absurd hno.symm Bool.false_ne_true
    | missed fails values same => exact values.trans take_length
  · obtain ⟨fuel, c', hrun, hparams⟩ := serveHTTP_of_served hrep hkeyed hs (handed_fresh rfl rfl hc)
    exact ⟨fuel, c', hrun, hparams unescape⟩
  · intro fuel ep c' hrun
    obtain ⟨ps, hs, hparams⟩ := served_of_serveHTTP hrep hkeyed fuel (handed_fresh rfl rfl hc) hrun
    exact ⟨ps, hs, hparams unescape⟩

def anyValue : Bytes → Bytes → Bool := fun _ _ => true

/-- Three routes that part at a parameter. The first and the third have the parameter that ends at a dash. -/
def dashed : List Registration :=
  [.handle (ascii "/\x7ba\x7d-x") (.func 1), .handle (ascii "/\x7bb\x7d") (.func 2),
    .handle (ascii "/\x7bc\x7d-y") (.func 3)]

/-- Both the second and the third route match, without an expression, and the third is found: what counts is when its
parameter was first registered, by the first route. -/
theorem later_route_found :
    (routesOf dashed).map (fun x => (matchPath anyValue x.1 (ascii "/1-y")).isSome) = [false, true, true] ∧
      (build dashed).toOption.map (fun n =>
        (n.find anyValue { st := none, method := ascii "GET" } (ascii "/1-y")).2.ep.map Endpoint.handler) =
          some (some (.func 3)) := by
  decide

def tenants : ℕ → List Registration
  | 0 => [.mount (ascii "/\x7btenant\x7d") (.router 1)]
  | _ => [.handle (ascii "GET /users/\x7bid:[0-9]+\x7d") (.func 1), .handle (ascii "/users/\x7bname\x7d") (.func 2)]

def tenantRoots (id : ℕ) : Node := (build (tenants id)).toOption.getD {}

theorem except_eq_ok {α : Type} {x : Except RouteError α} {d : α} (h : x.toOption.isSome = true) :
    x = .ok (x.toOption.getD d) := by
  cases x with
  | error e => simp [Except.toOption] at h
  | ok a => rfl

theorem tenants_served : (∀ id, build (tenants id) = .ok (tenantRoots id)) ∧
    ∃ ps, Served anyValue (fun id => routesOf (tenants id)) (ascii "GET") (ascii "/acme/users/7") 0
      (ascii "/acme/users/7") [] ps ⟨.func 1, ascii "/users/\x7bid:[0-9]+\x7d", [ascii "id"], .notMounted⟩ := by
  have hroots : ∀ id, build (tenants id) = .ok (tenantRoots id) := by
    intro id
    refine except_eq_ok ?_
    match id with
    | 0 => decide
    | _ + 1 => exact (by decide : (build (tenants 1)).toOption.isSome = true)
  refine ⟨hroots, ?_⟩
  have h := (router_finds_preferred anyValue some tenants tenantRoots hroots).2.2.2 0
    ⟨ascii "GET", some (ascii "/acme/users/7", []), .none⟩ rfl
  have hrun : (serveHTTP anyValue tenantRoots 2 0 ⟨ascii "GET", some (ascii "/acme/users/7", []), .none⟩).map Prod.fst =
      some ⟨.func 1, ascii "/users/\x7bid:[0-9]+\x7d", [ascii "id"], .notMounted⟩ := by
    decide
  obtain ⟨⟨ep, c'⟩, hsome, hep⟩ := Option.map_eq_some_iff.1 hrun
  obtain ⟨ps, hps, -⟩ := h.2 2 ep c' hsome
  exact ⟨ps, hep ▸ hps⟩

end Fib.Http.Router
