import Fib.Http.Router.Tree

/-! The rules of the Router: which routes serve a request, and which of them is preferred. Routes are told by the
letters of their patterns, in the order they were registered. -/

namespace Fib.Http.Router
open List

structure Route where
  method : Bytes
  ep : Endpoint
deriving DecidableEq

def Route.serves (r : Route) (method : Bytes) : Prop :=
  r.method = [] ∨ r.method = method ∨ method = ascii "HEAD" ∧ r.method = ascii "GET"

instance (r : Route) (method : Bytes) : Decidable (r.serves method) := by
  unfold Route.serves
  infer_instance

/-- Among routes of one pattern, that for the method comes first, and one for any last. -/
def Route.rank (r : Route) (method : Bytes) : ℕ :=
  if r.method = [] then 2 else if r.method = method then 0 else 1

/-- Routes by what is left of their patterns at a place, in the order they were registered. -/
abbrev Routes := List (List Letter × Route)

def under (a : Letter) (L : Routes) : Routes :=
  L.filterMap fun x =>
    match x.1 with
    | l :: ls => if l = a then some (ls, x.2) else none
    | [] => none

def underAll : List Letter → Routes → Routes
  | [], L => L
  | a :: w, L => underAll w (under a L)

def ended (L : Routes) : List Route :=
  L.filterMap fun x => if x.1 = [] then some x.2 else none

def firstAt (a : Letter) (L : Routes) : ℕ := L.findIdx fun x => x.1.head? = some a

/-- Static text over a parameter with an expression, over one without, in the order they were first registered
there, over a catch-all. -/
def Before (L : Routes) : Letter → Letter → Prop
  | .ch _, .param _ _ => True
  | .ch _, .catchAll => True
  | .param t e, .param t' e' =>
    e ≠ [] ∧ e' = [] ∨ (e = [] ↔ e' = []) ∧ firstAt (.param t e) L < firstAt (.param t' e') L
  | .param _ _, .catchAll => True
  | _, _ => False

/-- The pattern `ls` is preferred to `ls'` at the first place where they part. One that ends there is preferred to a
catch-all. -/
def Over : Routes → List Letter → List Letter → Prop
  | L, a :: ls, b :: ls' => if a = b then Over (under a L) ls ls' else Before L a b
  | _, [], .catchAll :: _ => True
  | _, _, _ => False

/-- The route serves the request, with the values, and is preferred to every other one that does. -/
structure Best (re : Bytes → Bytes → Bool) (method : Bytes) (L : Routes) (path : Bytes) (ls : List Letter) (r : Route)
    (vs : List Bytes) : Prop where
  mem : (ls, r) ∈ L
  matched : matchPath re ls path = some vs
  serves : r.serves method
  preferred : ∀ ls' r', (ls', r') ∈ L → matchPath re ls' path ≠ none → r'.serves method →
    (ls' = ls ∧ r' = r) ∨ (ls' = ls ∧ r.rank method < r'.rank method) ∨ Over L ls ls'

def Fails (re : Bytes → Bytes → Bool) (method : Bytes) (L : Routes) (path : Bytes) : Prop :=
  ∀ ls r, (ls, r) ∈ L → matchPath re ls path ≠ none → ¬ r.serves method

/-! ### Routes by letter -/

section
variable {L : Routes} {a : Letter} {ls w : List Letter} {r : Route}

theorem mem_under : (ls, r) ∈ under a L ↔ (a :: ls, r) ∈ L := by
  unfold under
  rw [mem_filterMap]
  constructor
  · rintro ⟨⟨x, r'⟩, hx, he⟩
    cases x with
    | nil => simp at he
    | cons l x =>
      simp only at he
      split_ifs at he with hl
      cases he
      exact hl ▸ hx
  · intro h
    exact ⟨_, h, by simp⟩

theorem mem_underAll : (ls, r) ∈ underAll w L ↔ (w ++ ls, r) ∈ L := by
  induction w generalizing L with
  | nil => rfl
  | cons a w ih => rw [underAll, ih, mem_under]; rfl

theorem mem_ended : r ∈ ended L ↔ ([], r) ∈ L := by
  unfold ended
  rw [mem_filterMap]
  constructor
  · rintro ⟨⟨x, r'⟩, hx, he⟩
    split_ifs at he with hn
    subst hn
    exact Option.some.inj he ▸ hx
  · intro h
    exact ⟨_, h, by simp⟩

@[simp] theorem underAll_nil : underAll w [] = [] := by
  induction w with
  | nil => rfl
  | cons a w ih => exact ih

theorem under_append (L L' : Routes) : under a (L ++ L') = under a L ++ under a L' := filterMap_append

theorem underAll_append (L L' : Routes) : underAll w (L ++ L') = underAll w L ++ underAll w L' := by
  induction w generalizing L L' with
  | nil => rfl
  | cons a w ih => rw [underAll, under_append, ih]; rfl

theorem underAll_concat (w w' : List Letter) : underAll (w ++ w') L = underAll w' (underAll w L) := by
  induction w generalizing L with
  | nil => rfl
  | cons a w ih => exact ih

theorem ended_append (L L' : Routes) : ended (L ++ L') = ended L ++ ended L' := filterMap_append

theorem under_self : under a [(a :: ls, r)] = [(ls, r)] := by simp [under]

theorem under_other (h : ls.head? ≠ some a) : under a [(ls, r)] = [] := by
  cases ls with
  | nil => rfl
  | cons l ls =>
    have hl : l ≠ a := fun hl => h (by rw [hl]; rfl)
    simp [under, hl]

theorem underAll_self : underAll w [(w ++ ls, r)] = [(ls, r)] := by
  induction w with
  | nil => rfl
  | cons a w ih => rw [cons_append, underAll, under_self, ih]

theorem ended_cons : ended [(a :: ls, r)] = [] := by simp [ended]

theorem firstAt_append {L' : Routes} (h : ∃ x ∈ L, x.1.head? = some a) : firstAt a (L ++ L') = firstAt a L := by
  obtain ⟨x, hx, he⟩ := h
  unfold firstAt
  rw [findIdx_append, if_pos]
  exact findIdx_lt_length_of_exists ⟨x, hx, by simpa using he⟩

theorem firstAt_lt (h : ∃ x ∈ L, x.1.head? = some a) : firstAt a L < L.length := by
  obtain ⟨x, hx, he⟩ := h
  exact findIdx_lt_length_of_exists ⟨x, hx, by simpa using he⟩

theorem firstAt_new (h : ∀ x ∈ L, x.1.head? ≠ some a) : firstAt a (L ++ [(a :: ls, r)]) = L.length := by
  unfold firstAt
  have hlen : L.findIdx (fun x => decide (x.1.head? = some a)) = L.length :=
    findIdx_eq_length.2 fun x hx => by simpa using h x hx
  rw [findIdx_append, if_neg (by rw [hlen]; exact lt_irrefl _)]
  simp

theorem over_append (w : List Letter) (ls ls' : List Letter) :
    Over L (w ++ ls) (w ++ ls') ↔ Over (underAll w L) ls ls' := by
  induction w generalizing L with
  | nil => rfl
  | cons a w ih => rw [cons_append, cons_append, Over, if_pos rfl, ih]; rfl

theorem over_of_before {b : Letter} {ls' : List Letter} (hne : a ≠ b) (h : Before L a b) :
    Over L (a :: ls) (b :: ls') := by
  rw [Over, if_neg hne]
  exact h

end

/-! ### What a path matches -/

variable {re : Bytes → Bytes → Bool}

theorem matchPath_static (w path : Bytes) (ls : List Letter) :
    matchPath re (w.map .ch ++ ls) path = if w <+: path then matchPath re ls (path.drop w.length) else none := by
  induction w generalizing path with
  | nil => simp
  | cons b w ih =>
    rw [map_cons, cons_append, matchPath]
    cases path with
    | nil => simp
    | cons c path =>
      by_cases hb : c = b
      · subst hb
        simp [ih, cons_prefix_cons]
      · simp [hb, cons_prefix_cons, Ne.symm hb]

theorem paramValue_some {tail : UInt8} {expr path value : Bytes} (h : paramValue re tail expr path = some value) :
    value ≠ [] := by
  unfold paramValue at h
  split at h
  · rename_i k hk
    split_ifs at h
    cases h
    cases path with
    | nil =>
      simp only [valueEnd] at hk
      split_ifs at hk
      simp at hk
    | cons b path => simp
  · simp at h

def Letter.hasValue : Letter → Bool
  | .ch _ => false
  | _ => true

open Letter

theorem matchPath_length {ls : List Letter} {path : Bytes} {vs : List Bytes} (h : matchPath re ls path = some vs) :
    vs.length = (ls.filter hasValue).length := by
  induction ls generalizing path vs with
  | nil =>
    rw [matchPath] at h
    split_ifs at h
    cases h
    rfl
  | cons l ls ih =>
    cases l with
    | ch b =>
      rw [matchPath] at h
      split_ifs at h
      simpa [hasValue] using ih h
    | param t e =>
      rw [matchPath] at h
      split at h
      · rename_i value _
        obtain ⟨vs', hvs, rfl⟩ := Option.map_eq_some_iff.1 h
        rw [length_cons, ih hvs]
        rfl
      · simp at h
    | catchAll =>
      rw [matchPath] at h
      split_ifs at h with hl
      subst hl
      cases h
      rfl

theorem keysOf_length (segments : List Segment) :
    (keysOf segments).length = ((lettersOf segments).filter hasValue).length := by
  induction segments with
  | nil => rfl
  | cons s rest ih =>
    simp only [keysOf, lettersOf, flatMap_cons, filter_append, length_append, length_map] at ih ⊢
    rw [← ih, filter_cons, Segment.letters]
    cases hk : s.kind with
    | static =>
      have hnil : ∀ t : Bytes, (t.map ch).filter hasValue = [] := by
        intro t
        rw [filter_eq_nil_iff]
        intro l hl
        obtain ⟨b, -, rfl⟩ := mem_map.1 hl
        simp [hasValue]
      simp [hnil]
    | param =>
      rw [if_pos (by decide), length_cons, Nat.add_comm]
      rfl
    | catchAll =>
      rw [if_pos (by decide), length_cons, Nat.add_comm]
      rfl

end Fib.Http.Router
