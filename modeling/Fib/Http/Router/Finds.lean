import Fib.Http.Router.Represents

/-! The search of the tree finds the route the rules name, and leaves its values, and only those, on the route
state. -/

namespace Fib.Http.Router
open List Search Node
variable {re : Bytes → Bytes → Bool}

/-! ### The route state -/

def RouteState.withoutValues (st : RouteState) : RouteState := { st with values := [] }

@[simp] theorem RouteState.keys_withoutValues (st : RouteState) : st.withoutValues.keys = st.keys := rfl

@[simp] theorem RouteState.raw_withoutValues (st : RouteState) : st.withoutValues.raw = st.raw := rfl

/-- What a search leaves as it is: all but the values, the route found and the `Allow` field. -/
structure Search.Same (s s' : Search) : Prop where
  method : s'.method = s.method
  st : (s'.st.getD {}).withoutValues = (s.st.getD {}).withoutValues
  isSome : s.st.isSome = true → s'.st.isSome = true

theorem Search.Same.rfl {s : Search} : s.Same s := ⟨Eq.refl _, Eq.refl _, fun h => h⟩

theorem Search.Same.trans {s s' s'' : Search} (h : s.Same s') (h' : s'.Same s'') : s.Same s'' :=
  ⟨h'.method.trans h.method, h'.st.trans h.st, fun hs => h'.isSome (h.isSome hs)⟩

section
variable (s : Search)
include s

theorem Search.same_setValues (values : List Bytes) : s.Same (s.setValues values) :=
  ⟨rfl, rfl, fun _ => rfl⟩

theorem Search.same_push (v : Bytes) : s.Same (s.push v) := s.same_setValues _

@[simp] theorem Search.values_push (v : Bytes) : (s.push v).values = s.values ++ [v] := rfl

theorem Search.same_pop (mark : ℕ) : s.Same (s.pop mark) := by
  unfold pop
  split_ifs
  · exact s.same_setValues _
  · exact .rfl

@[simp] theorem Search.values_pop (mark : ℕ) : (s.pop mark).values = s.values.take mark := by
  unfold pop
  split_ifs with h
  · rfl
  · have hn : s.st = none := by simpa using h
    simp [values, hn]

theorem Search.accept_spec {eps : Option Endpoints} {es : List Route}
    (h : Endpoints.setAll es = .ok (eps.getD {})) : s.Same (s.accept eps).2 ∧ (s.accept eps).2.values = s.values ∧
      ((s.accept eps).1 = true → ∃ r, Endpoints.Chosen es s.method r ∧ (s.accept eps).2.ep = some r.ep) ∧
      ((s.accept eps).1 = false → ∀ r ∈ es, ¬ r.serves s.method) := by
  have hh := Endpoints.holds_setAll h
  unfold accept
  split
  · refine ⟨.rfl, rfl, fun he => absurd he Bool.false_ne_true, fun _ => hh.unserved ?_⟩
    simp only [Option.getD_none, Endpoints.lookup]
    cases methodIndex s.method <;> simp
  rename_i e
  split
  · rename_i ep hl
    refine ⟨⟨rfl, rfl, fun hs => hs⟩, rfl, fun _ => ?_, fun he => absurd he.symm Bool.false_ne_true⟩
    obtain ⟨r, hr, rfl⟩ := hh.chosen hl
    exact ⟨r, hr, rfl⟩
  rename_i hl
  have hnote : ∀ allow, s.Same (s.noteAllow allow) ∧ (s.noteAllow allow).values = s.values := by
    intro allow
    unfold noteAllow
    split_ifs
    · exact ⟨⟨rfl, rfl, fun hs => hs⟩, rfl⟩
    · exact ⟨.rfl, rfl⟩
  exact ⟨(hnote _).1, (hnote _).2, fun he => absurd he Bool.false_ne_true, fun _ => hh.unserved hl⟩

end

/-! ### Routes that go on with a letter -/

/-- No route that goes on with the letter serves the request. -/
def FailsAt (re : Bytes → Bytes → Bool) (method : Bytes) (L : Routes) (path : Bytes) (a : Letter) : Prop :=
  ∀ ls r, (a :: ls, r) ∈ L → matchPath re (a :: ls) path ≠ none → ¬ r.serves method

section
variable {method path path' : Bytes} {L : Routes} {a : Letter} {ls w : List Letter} {r : Route} {vs : List Bytes}
  {f : List Bytes → List Bytes}

theorem fails_of_failsAt (hend : path = [] → ∀ r ∈ ended L, ¬ r.serves method)
    (h : ∀ a, FailsAt re method L path a) : Fails re method L path := by
  intro ls r hm hne
  cases ls with
  | nil =>
    have hp : path = [] := by
      by_contra hp
      exact hne (by simp [matchPath, hp])
    exact hend hp r (mem_ended.2 hm)
  | cons a ls => exact h a ls r hm hne

/-- At the path's end only a catch-all goes on. -/
theorem failsAt_nil (ha : a ≠ .catchAll) : FailsAt re method L [] a := by
  intro ls r _ hne
  refine absurd ?_ hne
  cases a with
  | ch b => simp [matchPath]
  | param t e =>
    have hnone : paramValue re t e [] = none := by
      unfold paramValue valueEnd
      split_ifs <;> rfl
    rw [matchPath, hnone]
  | catchAll => exact absurd rfl ha

theorem FailsAt.lift (hcov : ∀ ls r, (a :: ls, r) ∈ L → w <+: a :: ls)
    (hmatch : ∀ ls, matchPath re (w ++ ls) path = (matchPath re ls path').map f)
    (h : Fails re method (underAll w L) path') : FailsAt re method L path a := by
  intro ls r hm hne
  obtain ⟨t, ht⟩ := hcov ls r hm
  rw [← ht] at hm hne
  refine h t r (mem_underAll.2 hm) fun hn => hne ?_
  rw [hmatch, hn]
  rfl

/-- The best of them is the best of all, if no route that goes on otherwise is preferred and serves the request. -/
theorem Best.lift (hp : path ≠ []) {w₀ : List Letter} (hw : w = a :: w₀)
    (hcov : ∀ ls r, (a :: ls, r) ∈ L → w <+: a :: ls)
    (hmatch : ∀ ls, matchPath re (w ++ ls) path = (matchPath re ls path').map f)
    (hothers : ∀ b, b ≠ a → FailsAt re method L path b ∨ Before L a b)
    (h : Best re method (underAll w L) path' ls r vs) : Best re method L path (w ++ ls) r (f vs) := by
  refine ⟨mem_underAll.1 h.mem, by rw [hmatch, h.matched]; rfl, h.serves, fun ls' r' hm hne hs => ?_⟩
  cases ls' with
  | nil => exact absurd (by simp [matchPath, hp]) hne
  | cons b ls' =>
    by_cases hb : b = a
    · subst hb
      obtain ⟨t, ht⟩ := hcov ls' r' hm
      rw [← ht] at hm hne ⊢
      have hne' : matchPath re t path' ≠ none := by
        intro hn
        rw [hmatch, hn] at hne
        exact hne rfl
      rcases h.preferred t r' (mem_underAll.2 hm) hne' hs with ⟨rfl, rfl⟩ | ⟨rfl, hr⟩ | ho
      · exact .inl ⟨rfl, rfl⟩
      · exact .inr (.inl ⟨rfl, hr⟩)
      · exact .inr (.inr ((over_append w ls t).2 ho))
    · rcases hothers b hb with hf | hbefore
      · exact absurd hs (hf ls' r' hm hne)
      · refine .inr (.inr ?_)
        rw [hw]
        exact over_of_before (Ne.symm hb) hbefore

theorem best_end (h : Endpoints.Chosen (ended L) method r) : Best re method L [] [] r [] := by
  obtain ⟨hr, hs, hall⟩ := h
  refine ⟨mem_ended.1 hr, rfl, hs, fun ls' r' hm hne hs' => ?_⟩
  cases ls' with
  | nil =>
    rcases hall r' (mem_ended.2 hm) hs' with rfl | hrank
    · exact .inl ⟨rfl, rfl⟩
    · exact .inr (.inl ⟨rfl, hrank⟩)
  | cons a ls' =>
    by_cases ha : a = .catchAll
    · subst ha
      exact .inr (.inr trivial)
    · exact absurd hs' (failsAt_nil ha ls' r' hm hne)

theorem best_catchAll (hend : path = [] → ∀ r ∈ ended L, ¬ r.serves method)
    (hothers : ∀ b, b ≠ .catchAll → FailsAt re method L path b)
    (h : Endpoints.Chosen (ended (under .catchAll L)) method r) : Best re method L path [.catchAll] r [path] := by
  obtain ⟨hr, hs, hall⟩ := h
  refine ⟨mem_under.1 (mem_ended.1 hr), by simp [matchPath], hs, fun ls' r' hm hne hs' => ?_⟩
  cases ls' with
  | nil =>
    have hp : path = [] := by
      by_contra hp
      exact hne (by simp [matchPath, hp])
    exact absurd hs' (hend hp r' (mem_ended.2 hm))
  | cons b ls' =>
    by_cases hb : b = .catchAll
    · subst hb
      obtain rfl : ls' = [] := by
        by_contra hl
        exact hne (by simp [matchPath, hl])
      rcases hall r' (mem_ended.2 (mem_under.2 hm)) hs' with rfl | hrank
      · exact .inl ⟨rfl, rfl⟩
      · exact .inr (.inl ⟨rfl, hrank⟩)
    · exact absurd hs' (hothers b hb ls' r' hm hne)

theorem failsAt_catchAll (h : ∀ r ∈ ended (under .catchAll L), ¬ r.serves method) :
    FailsAt re method L path .catchAll := by
  intro ls r hm hne
  obtain rfl : ls = [] := by
    by_contra hl
    exact hne (by simp [matchPath, hl])
  exact h r (mem_ended.2 (mem_under.2 hm))

end

/-! ### The search -/

/-- What a search below a node comes to: the best route with its values pushed, or none, and the values taken back to
`base`. -/
inductive Finds (re : Bytes → Bytes → Bool) (L : Routes) (s : Search) (path : Bytes) (base : ℕ) :
    Bool × Search → Prop where
  | found {s' : Search} {ls : List Letter} {r : Route} {vs : List Bytes} (best : Best re s.method L path ls r vs)
      (ep : s'.ep = some r.ep) (values : s'.values = s.values ++ vs) (same : s.Same s') :
      Finds re L s path base (true, s')
  | missed {s' : Search} (fails : Fails re s.method L path) (values : s'.values = s.values.take base)
      (same : s.Same s') : Finds re L s path base (false, s')

/-- What trying some children comes to. `done` are the letters of which no route serves the request if it misses. -/
def Tried.Ok (re : Bytes → Bytes → Bool) (L : Routes) (s : Search) (path : Bytes) (done : Letter → Prop) : Tried → Prop
  | .found s' => ∀ base, Finds re L s path base (true, s')
  | .missed s' => (∀ a, done a → FailsAt re s.method L path a) ∧ s'.values = s.values ∧ s.Same s'
  | .on c s' path' => path'.length < path.length ∧ s.depth ≤ s'.depth ∧ ∃ L', Represents c L' ∧
      ∀ base res, base ≤ s.depth → Finds re L' s' path' base res → Finds re L s path base res

def FindsBelow (re : Bytes → Bytes → Bool) (path : Bytes) (find : Node → Search → Bytes → Bool × Search) : Prop :=
  ∀ c L s path', Represents c L → path'.length < path.length → Finds re L s path' s.depth (find c s path')

variable {n : Node} {L : Routes} {s : Search} {path : Bytes} {find : Node → Search → Bytes → Bool × Search}

theorem matchPath_drop {w path : Bytes} (h : w <+: path) (ls : List Letter) :
    matchPath re (w.map .ch ++ ls) path = (matchPath re ls (path.drop w.length)).map id := by
  rw [matchPath_static, if_pos h, Option.map_id, id]

theorem failsAt_ch {method : Bytes} {b : UInt8} (h : path.head? ≠ some b) : FailsAt re method L path (.ch b) := by
  intro ls r _ hne
  exact absurd (by rw [matchPath, if_neg h]) hne

theorem length_drop_lt {v : Bytes} (hp : path ≠ []) (hv : v ≠ []) : (path.drop v.length).length < path.length := by
  have h1 := length_pos_iff.2 hp
  have h2 := length_pos_iff.2 hv
  rw [length_drop]
  omega

/-- A route that goes on with the path's byte has a static child that begins with it. -/
theorem failsAt_index {method : Bytes} (hn : Represents n L)
    (hi : n.indices.findIdx? (fun b => path.head? = some b) = none) (b : UInt8) :
    FailsAt re method L path (.ch b) := by
  intro ls r hm hne
  by_cases hb : path.head? = some b
  · obtain ⟨c, hc, t, ht⟩ := hn.static.covers b ls r hm
    obtain ⟨b', hb', hhead⟩ := hn.static.pre_head hc
    have hfirst := congrArg List.head? ht
    rw [List.head?_append, map_ch_head hhead] at hfirst
    obtain rfl : b' = b := by simpa using hfirst
    exact absurd (List.findIdx?_eq_none_iff.1 hi b' hb') (by simp [hb])
  · exact failsAt_ch hb ls r hm hne

section
variable {c : Node} {b : UInt8} (hp : path ≠ []) (hb : c.pre.head? = some b)
  (hrep : Represents c (underAll (c.pre.map .ch) L))
  (hcov : ∀ ls r, (.ch b :: ls, r) ∈ L → c.pre.map .ch <+: .ch b :: ls)
  (hrest : ∀ b', b' ≠ b → FailsAt re s.method L path (.ch b')) (hpfx : c.pre <+: path)
include hp hb hcov hpfx

theorem Best.static {method : Bytes} {ls : List Letter} {r : Route} {vs : List Bytes}
    (hothers : ∀ a, a ≠ .ch b → FailsAt re method L path a ∨ Before L (.ch b) a)
    (best : Best re method (underAll (c.pre.map .ch) L) (path.drop c.pre.length) ls r vs) :
    Best re method L path (c.pre.map .ch ++ ls) r vs := by
  obtain ⟨p, hpre⟩ := head?_eq_some_iff.1 hb
  exact best.lift hp (by rw [hpre]; rfl) hcov (matchPath_drop hpfx) hothers

include hrep hrest

theorem tryStatic_on (hn : Represents n L) (hparams : n.params = []) (hcatch : n.catchAll = none) :
    (Tried.on c s (path.drop c.pre.length)).Ok re L s path fun a => ∃ b, a = .ch b := by
  have hothers : ∀ a, a ≠ .ch b → FailsAt re s.method L path a := by
    intro a ha
    cases a with
    | ch b' => exact hrest b' fun he => ha (he ▸ rfl)
    | param t e =>
      intro ls r hm
      have := hn.param.covers t e ls r hm
      rw [hparams] at this
      cases this
    | catchAll => exact failsAt_catchAll (by simp [hn.catchAll hcatch, ended])
  refine ⟨length_drop_lt hp (ne_nil_of_mem (mem_of_mem_head? hb)), le_rfl, _, hrep, fun base res _ hres => ?_⟩
  cases hres with
  | found best ep values same =>
    exact .found (best.static hp hb hcov hpfx fun a ha => .inl (hothers a ha)) ep values same
  | missed fails values same =>
    refine .missed (fails_of_failsAt (fun he => absurd he hp) fun a => ?_) values same
    by_cases ha : a = .ch b
    · subst ha
      exact FailsAt.lift hcov (matchPath_drop hpfx) fails
    · exact hothers a ha

theorem tryStatic_below (hfind : FindsBelow re path find) :
    (Tried.of (find c s (path.drop c.pre.length))).Ok re L s path fun a => ∃ b, a = .ch b := by
  have hres := hfind c _ s _ hrep (length_drop_lt hp (ne_nil_of_mem (mem_of_mem_head? hb)))
  generalize find c s (path.drop c.pre.length) = res at hres
  cases hres with
  | found best ep values same =>
    intro base
    refine .found (best.static hp hb hcov hpfx fun a ha => ?_) ep values same
    cases a with
    | ch b' => exact .inl (hrest b' fun he => ha (he ▸ rfl))
    | param t e => exact .inr trivial
    | catchAll => exact .inr trivial
  | missed fails values same =>
    refine ⟨?_, values.trans (take_length), same⟩
    rintro _ ⟨b', rfl⟩
    by_cases hbb : b' = b
    · subst hbb
      exact FailsAt.lift hcov (matchPath_drop hpfx) fails
    · exact hrest b' hbb

end

theorem tryStatic_ok (hn : Represents n L) (hp : path ≠ []) (hfind : FindsBelow re path find) :
    (n.tryStatic find s path).Ok re L s path fun a => ∃ b, a = .ch b := by
  have static := hn.static
  unfold tryStatic
  split
  · rename_i hi
    refine ⟨?_, rfl, .rfl⟩
    rintro _ ⟨b', rfl⟩
    exact failsAt_index hn hi b'
  · rename_i i hi
    obtain ⟨hlt, hpi, -⟩ := List.findIdx?_eq_some_iff_getElem.1 hi
    have hsl : i < n.statics.length := static.firsts.length_eq ▸ hlt
    have hpb : path.head? = some n.indices[i] := of_decide_eq_true hpi
    have hget : n.statics.getD i {} = n.statics[i] := by
      rw [getD_eq_getElem?_getD, List.getElem?_eq_getElem hsl]
      rfl
    have hhead : n.statics[i].pre.head? = some n.indices[i] := static.firsts.get hlt hsl
    have hrep := hn.statics _ (getElem_mem hsl)
    have hcov : ∀ ls r, (.ch n.indices[i] :: ls, r) ∈ L → n.statics[i].pre.map .ch <+: .ch n.indices[i] :: ls :=
      fun ls r hm => static.pre_prefix (List.getElem?_eq_getElem hlt) (List.getElem?_eq_getElem hsl) hm
    have hrest : ∀ b', b' ≠ n.indices[i] → FailsAt re s.method L path (.ch b') := fun b' hb' =>
      failsAt_ch (by rw [hpb]; simpa using Ne.symm hb')
    rw [hget]
    dsimp only
    generalize n.statics[i] = c at hhead hrep hcov
    generalize n.indices[i] = b at hpb hhead hcov hrest
    split_ifs with hpfx hempty
    · simp only [Bool.and_eq_true, List.isEmpty_iff, Option.isNone_iff_eq_none] at hempty
      exact tryStatic_on hp hhead hrep hcov hrest ( isPrefixOf_iff_prefix.1 hpfx) hn hempty.1 hempty.2
    · exact tryStatic_below hp hhead hrep hcov hrest ( isPrefixOf_iff_prefix.1 hpfx) hfind
    · refine ⟨?_, rfl, .rfl⟩
      rintro _ ⟨b', rfl⟩
      by_cases hbb : b' = b
      · subst hbb
        intro ls r hm hne
        obtain ⟨t, ht⟩ := hcov ls r hm
        rw [← ht, matchPath_static, if_neg fun hx => hpfx ( isPrefixOf_iff_prefix.2 hx)] at hne
        exact absurd rfl hne
      · exact hrest b' hbb

theorem matchPath_param {t : UInt8} {e value : Bytes} (h : paramValue re t e path = some value) (ls : List Letter) :
    matchPath re ([.param t e] ++ ls) path = (matchPath re ls (path.drop value.length)).map (value :: ·) := by
  rw [singleton_append, matchPath, h]

theorem Tried.Ok.of_same {s₀ : Search} {done : Letter → Prop} {t : Tried} (hv : s.values = s₀.values) (hs : s₀.Same s)
    (h : t.Ok re L s path done) : t.Ok re L s₀ path done := by
  have hfinds : ∀ base res, Finds re L s path base res → Finds re L s₀ path base res := by
    intro base res hres
    cases hres with
    | found best ep values same => exact .found (hs.method ▸ best) ep (hv ▸ values) (hs.trans same)
    | missed fails values same => exact .missed (hs.method ▸ fails) (hv ▸ values) (hs.trans same)
  cases t with
  | found s' => exact fun base => hfinds base _ (h base)
  | missed s' => exact ⟨fun a ha => hs.method ▸ h.1 a ha, h.2.1.trans hv, hs.trans h.2.2⟩
  | on c s' path' =>
    obtain ⟨hlen, hdepth, L', hrep, hlift⟩ := h
    have hd : s.depth = s₀.depth := congrArg List.length hv
    exact ⟨hlen, hd ▸ hdepth, L', hrep, fun base res hb hres => hfinds base res (hlift base res (hd ▸ hb) hres)⟩

/-- The parameters that are left to try, when no route that goes on otherwise serves the request but those with a
catch-all. -/
theorem tryParams_ok (hp : path ≠ []) (hfind : FindsBelow re path find) {noCatchAll : Bool}
    (hcatch : noCatchAll = true → under .catchAll L = []) (todo : List Node)
    (hord : (todo.map Node.letter).Pairwise (Before L)) (hrep : ∀ c ∈ todo, Represents c (under c.letter L))
    (hdone : ∀ a, a ∉ todo.map Node.letter → a ≠ .catchAll → FailsAt re s.method L path a) :
    (Node.tryParams re noCatchAll find todo s path).Ok re L s path fun a => a ≠ .catchAll := by
  induction todo generalizing s with
  | nil => exact ⟨fun a ha => hdone a (by simp) ha, rfl, .rfl⟩
  | cons c rest ih =>
    rw [map_cons, pairwise_cons] at hord
    have hcov : ∀ ls r, (c.letter :: ls, r) ∈ L → [c.letter] <+: c.letter :: ls := fun ls r _ => ⟨ls, rfl⟩
    have hdone' : FailsAt re s.method L path c.letter →
        ∀ a, a ∉ rest.map letter → a ≠ .catchAll → FailsAt re s.method L path a := by
      intro hf a ha hne
      by_cases hc : a = c.letter
      · exact hc ▸ hf
      · exact hdone a (by simp [hc, ha]) hne
    unfold tryParams
    split
    · rename_i hv
      refine ih hord.2 (fun c' hc' => hrep c' (mem_cons_of_mem _ hc')) (hdone' fun ls r _ hne => ?_)
      exact absurd (by rw [letter, matchPath, hv]) hne
    rename_i value hv
    have hvne := paramValue_some hv
    have hshort := length_drop_lt hp hvne
    have hothers : ∀ a, a ≠ c.letter → FailsAt re s.method L path a ∨ Before L c.letter a := by
      intro a ha
      by_cases hcatch : a = .catchAll
      · exact .inr (hcatch ▸ trivial)
      by_cases hmem : a ∈ rest.map letter
      · exact .inr (hord.1 a hmem)
      · exact .inl (hdone a (by simp [ha, hmem]) hcatch)
    have hrepc := hrep c mem_cons_self
    have hfound : ∀ {s' ls r vs} base, Best re s.method (under c.letter L) (path.drop value.length) ls r vs →
        s'.ep = some r.ep → s'.values = s.values ++ [value] ++ vs → s.Same s' → Finds re L s path base (true, s') := by
      intro s' ls r vs base best ep values same
      have hlift : Best re s.method L path ([c.letter] ++ ls) r (value :: vs) :=
        Best.lift hp rfl hcov (matchPath_param hv) hothers best
      exact .found hlift ep (by rw [values, append_assoc]; rfl) same
    have hfails : Fails re s.method (under c.letter L) (path.drop value.length) → FailsAt re s.method L path c.letter :=
      fun hf => FailsAt.lift (w := [c.letter]) hcov (matchPath_param hv) hf
    split_ifs with hlast
    · simp only [Bool.and_eq_true, List.isEmpty_iff] at hlast
      refine ⟨hshort, by simp [depth], _, hrepc, fun base res hb hres => ?_⟩
      cases hres with
      | found best ep values same => exact hfound base best ep values ((s.same_push value).trans same)
      | missed fails values same =>
        refine .missed (fails_of_failsAt (fun he => absurd he hp) fun a => ?_) ?_ ((s.same_push value).trans same)
        · by_cases ha : a = .catchAll
          · exact ha ▸ failsAt_catchAll (by simp [hcatch hlast.2, ended])
          · exact hdone' (hfails fails) a (by simp [hlast.1]) ha
        · rw [values, values_push, take_append_of_le_length hb]
    · have hres := hfind c _ (s.push value) _ hrepc hshort
      dsimp only
      generalize find c (s.push value) (path.drop value.length) = res at hres
      cases hres with
      | found best ep values same =>
        rw [if_pos rfl]
        exact fun base => hfound base best ep values ((s.same_push value).trans same)
      | missed fails values same =>
        rename_i s'
        rw [if_neg Bool.false_ne_true]
        have hvals : (s'.pop s.depth).values = s.values := by
          rw [values_pop, values, depth, depth, values_push, take_length]
          exact take_left
        have hsame := ((s.same_push value).trans same).trans (s'.same_pop s.depth)
        refine Tried.Ok.of_same hvals hsame (ih hord.2 (fun c' hc' => hrep c' (mem_cons_of_mem _ hc')) ?_)
        rw [hsame.method]
        exact hdone' (hfails fails)

theorem tryCatchAll_ok (hn : Represents n L) (s : Search) (path : Bytes) :
    s.Same (n.tryCatchAll s path).2 ∧ (∃ extra, (n.tryCatchAll s path).2.values = s.values ++ extra) ∧
      ((n.tryCatchAll s path).1 = true → (n.tryCatchAll s path).2.values = s.values ++ [path] ∧
        ∃ r, Endpoints.Chosen (ended (under .catchAll L)) s.method r ∧ (n.tryCatchAll s path).2.ep = some r.ep) ∧
      ((n.tryCatchAll s path).1 = false → ∀ r ∈ ended (under .catchAll L), ¬ r.serves s.method) := by
  unfold tryCatchAll
  split
  · rename_i hc
    refine ⟨.rfl, ⟨[], by simp⟩, by simp, fun _ => ?_⟩
    rw [hn.catchAll hc]
    simp [ended]
  rename_i c hc
  obtain ⟨hsame, hvals, htrue, hfalse⟩ := (s.push path).accept_spec (hn.rest c hc).eps
  split_ifs with hsome
  · exact ⟨(s.same_push path).trans hsame, ⟨[path], hvals⟩, fun he => ⟨hvals, htrue he⟩, hfalse⟩
  · refine ⟨.rfl, ⟨[], by simp⟩, by simp, fun _ => ?_⟩
    have hnone : c.eps = none := by simpa using hsome
    rw [hnone] at hfalse
    exact hfalse rfl

/-- The parameters that are tried once the static children have missed. -/
theorem tryParams_static (hn : Represents n L) (hp : path ≠ []) (hfind : FindsBelow re path find) {s' : Search}
    (hstatic : (Tried.missed s').Ok re L s path fun a => ∃ b, a = .ch b) :
    (tryParams re n.catchAll.isNone find n.params s' path).Ok re L s path fun a => a ≠ .catchAll := by
  obtain ⟨hfails, hv, hs⟩ := hstatic
  refine Tried.Ok.of_same hv hs (tryParams_ok hp hfind (fun h => hn.catchAll (by simpa using h)) n.params
    hn.param.ordered hn.params fun a ha hne => ?_)
  rw [hs.method]
  cases a with
  | ch b => exact hfails _ ⟨b, rfl⟩
  | param t e => exact fun ls r hm => absurd (hn.param.covers t e ls r hm) ha
  | catchAll => exact absurd rfl hne

/-- The catch-all is what is left when nothing else serves the request. -/
theorem tryCatchAll_finds {base : ℕ} (hn : Represents n L) (hbase : base ≤ s.depth) {s' : Search}
    (hv : s'.values = s.values) (hs : s.Same s') (hend : path = [] → ∀ r ∈ ended L, ¬ r.serves s.method)
    (hothers : ∀ a, a ≠ .catchAll → FailsAt re s.method L path a) :
    Finds re L s path base (if (n.tryCatchAll s' path).1 = true then n.tryCatchAll s' path
      else (false, (n.tryCatchAll s' path).2.pop base)) := by
  obtain ⟨hsame, ⟨extra, hextra⟩, htrue, hfalse⟩ := tryCatchAll_ok hn s' path
  rw [hs.method] at htrue hfalse
  split_ifs with hc
  · obtain ⟨hvals, r, hr, hep⟩ := htrue hc
    have hpair : n.tryCatchAll s' path = (true, (n.tryCatchAll s' path).2) := Prod.ext hc rfl
    rw [hpair]
    exact .found (best_catchAll hend hothers hr) hep (by rw [hvals, hv]) (hs.trans hsame)
  refine .missed (fails_of_failsAt hend fun a => ?_) ?_ ((hs.trans hsame).trans (same_pop _ _))
  · by_cases ha : a = .catchAll
    · exact ha ▸ failsAt_catchAll (hfalse (by simpa using hc))
    · exact hothers a ha
  · rw [values_pop, hextra, hv, take_append_of_le_length hbase]

/-- The loop: with enough rounds it comes to what the rules say. -/
theorem walk_finds (fuel : ℕ) {base : ℕ} (hn : Represents n L) (hfuel : path.length < fuel) (hbase : base ≤ s.depth) :
    Finds re L s path base (n.walk re fuel base s path) := by
  induction fuel generalizing n L s path base with
  | zero => omega
  | succ fuel ih =>
    have hfind : FindsBelow re path fun c s path => c.walk re fuel s.depth s path := by
      intro c L' s' path' hc hlt
      exact ih hc (by omega) le_rfl
    rw [walk]
    split_ifs with hp
    · subst hp
      obtain ⟨hsame, hvals, htrue, hfalse⟩ := s.accept_spec hn.eps
      dsimp only
      by_cases hc : (s.accept n.eps).1 = true
      · rw [if_pos hc]
        obtain ⟨r, hr, hep⟩ := htrue hc
        have hpair : s.accept n.eps = (true, (s.accept n.eps).2) := Prod.ext hc rfl
        rw [hpair]
        exact .found (best_end hr) hep (by rw [hvals, append_nil]) hsame
      rw [if_neg hc]
      exact tryCatchAll_finds hn hbase hvals hsame (fun _ => hfalse (by simpa using hc)) fun _ => failsAt_nil
    · have hstatic := tryStatic_ok (s := s) hn hp hfind
      generalize n.tryStatic (fun c s path => c.walk re fuel s.depth s path) s path = t at hstatic
      dsimp only
      cases t with
      | found s' => exact hstatic base
      | on c s' path' =>
        obtain ⟨hshort, hdepth, L', hrep, hlift⟩ := hstatic
        exact hlift base _ hbase (ih hrep (by omega) (hbase.trans hdepth))
      | missed s' =>
        have hparams := tryParams_static hn hp hfind hstatic
        dsimp only
        generalize tryParams re n.catchAll.isNone (fun c s path => c.walk re fuel s.depth s path) n.params s' path
          = t at hparams
        cases t with
        | found s'' => exact hparams base
        | on c s'' path' =>
          obtain ⟨hshort, hdepth, L', hrep, hlift⟩ := hparams
          exact hlift base _ hbase (ih hrep (by omega) (hbase.trans hdepth))
        | missed s'' =>
          obtain ⟨hfails', hv', hs'⟩ := hparams
          exact tryCatchAll_finds hn hbase hv' hs' (fun he => absurd he hp) hfails'

theorem find_finds (hn : Represents n L) : Finds re L s path s.depth (n.find re s path) :=
  walk_finds _ hn (Nat.lt_succ_self _) le_rfl

end Fib.Http.Router
