import Fib.Http.Router.Preferred

/-! The routes of one pattern: `lookup` finds the one the rules name for a method. -/

namespace Fib.Http.Router
open Endpoints List Option

namespace Endpoints

def setAll (es : List Route) : Except RouteError Endpoints := es.foldlM (fun e r => e.set r.method r.ep) {}

theorem setAll_snoc (es : List Route) (r : Route) :
    setAll (es ++ [r]) = (setAll es).bind fun e => e.set r.method r.ep := by
  unfold setAll
  rw [foldlM_append]
  simp only [foldlM_cons, foldlM_nil, bind_pure]
  rfl

structure Holds (e : Endpoints) (es : List Route) : Prop where
  any : ∀ ep, e.any = some ep ↔ ∃ r ∈ es, r.method = [] ∧ r.ep = ep
  methods : ∀ i ep, e.methods i = some ep ↔ ∃ r ∈ es, r.method ≠ [] ∧ methodIndex r.method = some i ∧ r.ep = ep
  custom : ∀ m ep, e.custom.lookup m = some ep ↔
    ∃ r ∈ es, r.method ≠ [] ∧ methodIndex r.method = none ∧ r.method = m ∧ r.ep = ep

variable {m m' : Bytes} {ep : Endpoint} {e : Endpoints} {es : List Route} {l : List (Bytes × Endpoint)}

theorem lookup_snoc_ne (h : m' ≠ m) : (l ++ [(m, ep)]).lookup m' = l.lookup m' := by
  rw [lookup_append]
  have hb : (m' == m) = false := beq_eq_false_iff_ne.2 h
  have hnone : [(m, ep)].lookup m' = none := by simp [lookup_cons, hb]
  rw [hnone, or_none]

theorem lookup_snoc_self (h : l.lookup m = none) : (l ++ [(m, ep)]).lookup m = some ep := by
  rw [lookup_append, h]
  simp

theorem Holds.set {e' : Endpoints} {r : Route} (h : e.Holds es) (hs : e.set r.method r.ep = .ok e') :
    e'.Holds (es ++ [r]) := by
  have hex : ∀ (P : Route → Prop), (∃ x ∈ es ++ [r], P x) ↔ (∃ x ∈ es, P x) ∨ P r := by
    intro P
    simp
  unfold Endpoints.set at hs
  by_cases hm : r.method = []
  · rw [if_pos hm] at hs
    split_ifs at hs with ha
    cases hs
    refine ⟨fun ep => ?_, fun i ep => ?_, fun m ep => ?_⟩
    · rw [hex, ← h.any]
      have hnone : e.any = none := by simpa using ha
      simp [updateAllow, setAny, hnone, hm]
    · rw [hex, ← h.methods]
      simp [updateAllow, setAny, hm]
    · rw [hex, ← h.custom]
      simp [updateAllow, setAny, hm]
  rw [if_neg hm] at hs
  split at hs
  · rename_i i hi
    split_ifs at hs with ha
    cases hs
    have hnone : e.methods i = none := by simpa using ha
    refine ⟨fun ep => ?_, fun j ep => ?_, fun m ep => ?_⟩
    · rw [hex, ← h.any]
      simp [updateAllow, setMethod, hm]
    · rw [hex, ← h.methods]
      by_cases hj : j = i
      · subst hj
        simp [updateAllow, setMethod, hnone, hm, hi]
      · simp [updateAllow, setMethod, Function.update_of_ne hj, hi, Ne.symm hj]
    · rw [hex, ← h.custom]
      simp [updateAllow, setMethod, hi]
  · rename_i hi
    split_ifs at hs with ha
    cases hs
    have hnone : e.custom.lookup r.method = none := not_isSome_iff_eq_none.1 ha
    refine ⟨fun ep => ?_, fun j ep => ?_, fun m ep => ?_⟩
    · rw [hex, ← h.any]
      simp [updateAllow, setCustom, hm]
    · rw [hex, ← h.methods]
      simp [updateAllow, setCustom, hi]
    rw [hex, ← h.custom]
    by_cases hmm : m = r.method
    · subst hmm
      simp only [updateAllow, setCustom, lookup_snoc_self hnone, hnone]
      simp [hm, hi]
    · simp only [updateAllow, setCustom, lookup_snoc_ne hmm]
      simp [Ne.symm hmm]

theorem holds_setAll (h : setAll es = .ok e) : e.Holds es := by
  induction es using List.reverseRecOn generalizing e with
  | nil =>
    cases h
    exact ⟨by simp, by simp, by simp⟩
  | append_singleton es r ih =>
    rw [setAll_snoc] at h
    rcases hp : setAll es with err | e₀
    · rw [hp] at h
      simp [Except.bind] at h
    · rw [hp] at h
      exact (ih hp).set h

theorem methodIndex_inj {i : ℕ} (h : methodIndex m = some i) (h' : methodIndex m' = some i) : m = m' := by
  unfold methodIndex at h h'
  obtain ⟨hi, hm, -⟩ := List.findIdx?_eq_some_iff_getElem.1 h
  obtain ⟨hi', hm', -⟩ := List.findIdx?_eq_some_iff_getElem.1 h'
  rw [← of_decide_eq_true hm, ← of_decide_eq_true hm']

theorem methodIndex_get : methodIndex (ascii "GET") = some methodGet := by decide

theorem methodIndex_head : methodIndex (ascii "HEAD") = some methodHead := by decide

def Chosen (es : List Route) (method : Bytes) (r : Route) : Prop :=
  r ∈ es ∧ r.serves method ∧ ∀ r' ∈ es, r'.serves method → r' = r ∨ r.rank method < r'.rank method

theorem Holds.eq_of_method (h : e.Holds es) {r r' : Route} (hr : r ∈ es)
    (hr' : r' ∈ es) (hm : r.method = r'.method) : r = r' := by
  have hep : r.ep = r'.ep := by
    by_cases hn : r.method = []
    · have h1 := (h.any r.ep).2 ⟨r, hr, hn, rfl⟩
      have h2 := (h.any r'.ep).2 ⟨r', hr', hm ▸ hn, rfl⟩
      exact some.inj (h1.symm.trans h2)
    rcases hi : methodIndex r.method with _ | i
    · have h1 := (h.custom r.method r.ep).2 ⟨r, hr, hn, hi, rfl, rfl⟩
      have h2 := (h.custom r.method r'.ep).2 ⟨r', hr', hm ▸ hn, hm ▸ hi, hm.symm, rfl⟩
      exact some.inj (h1.symm.trans h2)
    · have h1 := (h.methods i r.ep).2 ⟨r, hr, hn, hi, rfl⟩
      have h2 := (h.methods i r'.ep).2 ⟨r', hr', hm ▸ hn, hm ▸ hi, rfl⟩
      exact some.inj (h1.symm.trans h2)
  cases r
  cases r'
  simp_all

def exact (e : Endpoints) (method : Bytes) : Option Endpoint :=
  match methodIndex method with
  | some i => e.methods i
  | none => e.custom.lookup method

theorem Holds.exact_iff (h : e.Holds es) {method : Bytes} (hm : method ≠ [])
    : e.exact method = some ep ↔ ∃ r ∈ es, r.method = method ∧ r.ep = ep := by
  unfold exact
  split
  · rename_i i hi
    rw [h.methods]
    constructor
    · rintro ⟨r, hr, -, hri, hep⟩
      exact ⟨r, hr, methodIndex_inj hri hi, hep⟩
    · rintro ⟨r, hr, rfl, hep⟩
      exact ⟨r, hr, hm, hi, hep⟩
  · rename_i hi
    rw [h.custom]
    constructor
    · rintro ⟨r, hr, -, -, hrm, hep⟩
      exact ⟨r, hr, hrm, hep⟩
    · rintro ⟨r, hr, rfl, hep⟩
      exact ⟨r, hr, hm, hi, rfl, hep⟩

theorem lookup_eq (e : Endpoints) (method : Bytes) : e.lookup (methodIndex method) method =
    ((e.exact method).or (if method = ascii "HEAD" then e.exact (ascii "GET") else none)).or e.any := by
  have hget : e.exact (ascii "GET") = e.methods methodGet := by rw [exact, methodIndex_get]
  unfold lookup
  rw [hget]
  congr 1
  rcases hi : methodIndex method with _ | i
  · have hne : method ≠ ascii "HEAD" := by
      rintro rfl
      rw [methodIndex_head] at hi
      simp at hi
    rw [if_neg hne, or_none, exact, hi]
  have hiff : i = methodHead ↔ method = ascii "HEAD" := by
    constructor
    · rintro rfl
      exact methodIndex_inj hi methodIndex_head
    · rintro rfl
      exact some.inj (hi.symm.trans methodIndex_head)
  simp only [hiff, exact, hi]

variable {e : Endpoints} {es : List Route} {method : Bytes}

theorem Holds.exact_none (h : e.Holds es) (hm : method ≠ []) (hn : e.exact method = none) :
    ∀ r ∈ es, r.method ≠ method := by
  intro r hr hrm
  have := (h.exact_iff hm).2 ⟨r, hr, hrm, rfl⟩
  rw [hn] at this
  simp at this

theorem Holds.chosen (h : e.Holds es) (hl : e.lookup (methodIndex method) method = some ep) :
    ∃ r, Chosen es method r ∧ r.ep = ep := by
  have hget : ascii "GET" ≠ [] := by decide
  have hgh : ascii "GET" ≠ ascii "HEAD" := by decide
  rw [lookup_eq] at hl
  by_cases hm : method = []
  · -- An empty method is served by a route for any, if by one at all.
    subst hm
    have hserve : ∀ r : Route, r.serves [] → r.method = [] := by
      rintro r (hr | hr | ⟨hr, -⟩)
      · exact hr
      · exact hr
      · cases hr
    have hnone : e.exact [] = none := by
      rcases hx : e.exact [] with _ | ep'
      · rfl
      · obtain ⟨r, hr, hne, -, hrm, -⟩ := (h.custom [] ep').1 hx
        exact absurd hrm hne
    rw [hnone, if_neg (by decide), or_none, none_or] at hl
    obtain ⟨r, hr, hrm, hep⟩ := (h.any ep).1 hl
    exact ⟨r, ⟨hr, .inl hrm, fun r' hr' hs => .inl (h.eq_of_method hr' hr ((hserve r' hs).trans hrm.symm))⟩, hep⟩
  rcases hx : e.exact method with _ | ep'
  · have hno := h.exact_none hm hx
    rw [hx, none_or] at hl
    rcases hy : (if method = ascii "HEAD" then e.exact (ascii "GET") else none) with _ | ep'
    · rw [hy, none_or] at hl
      obtain ⟨r, hr, hrm, hep⟩ := (h.any ep).1 hl
      refine ⟨r, ⟨hr, .inl hrm, fun r' hr' hs => .inl (h.eq_of_method hr' hr ?_)⟩, hep⟩
      rcases hs with hs | hs | ⟨hhead, hs⟩
      · exact hs.trans hrm.symm
      · exact absurd hs (hno r' hr')
      · rw [if_pos hhead] at hy
        exact absurd hs (h.exact_none hget hy r' hr')
    · rw [hy, some_or] at hl
      cases hl
      split_ifs at hy with hhead
      obtain ⟨r, hr, hrm, hep⟩ := (h.exact_iff hget).1 hy
      refine ⟨r, ⟨hr, .inr (.inr ⟨hhead, hrm⟩), fun r' hr' hs => ?_⟩, hep⟩
      rcases hs with hs | hs | ⟨-, hs⟩
      · refine .inr ?_
        rw [Route.rank, Route.rank, if_neg (hrm ▸ hget), if_neg (by rw [hrm, hhead]; exact hgh), if_pos hs]
        decide
      · exact absurd hs (hno r' hr')
      · exact .inl (h.eq_of_method hr' hr (hs.trans hrm.symm))
  · rw [hx, some_or, some_or] at hl
    cases hl
    obtain ⟨r, hr, hrm, hep⟩ := (h.exact_iff hm).1 hx
    refine ⟨r, ⟨hr, .inr (.inl hrm), fun r' hr' hs => ?_⟩, hep⟩
    by_cases hsame : r'.method = method
    · exact .inl (h.eq_of_method hr' hr (hsame.trans hrm.symm))
    · refine .inr ?_
      rw [Route.rank, Route.rank, if_neg (hrm ▸ hm), if_pos hrm, if_neg hsame]
      split_ifs <;> decide

theorem Holds.unserved (h : e.Holds es) (hl : e.lookup (methodIndex method) method = none) :
    ∀ r ∈ es, ¬ r.serves method := by
  rw [lookup_eq, or_eq_none_iff, or_eq_none_iff] at hl
  obtain ⟨⟨hx, hy⟩, hz⟩ := hl
  intro r hr hs
  have hany : r.method ≠ [] := by
    intro hrm
    have := (h.any r.ep).2 ⟨r, hr, hrm, rfl⟩
    rw [hz] at this
    simp at this
  rcases hs with hs | hs | ⟨hhead, hs⟩
  · exact hany hs
  · exact h.exact_none (hs ▸ hany) hx r hr hs
  · rw [if_pos hhead] at hy
    exact h.exact_none (by decide) hy r hr hs

end Endpoints
end Fib.Http.Router
