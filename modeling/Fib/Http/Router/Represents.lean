import Fib.Http.Router.Lookup

/-! The tree holds the routes that were added to it: what is below a node are the routes that have its letters, and
the parameters stand in the order in which they are preferred. -/

namespace Fib.Http.Router
open List Letter

def Node.letter (n : Node) : Letter := .param n.tail n.expr

open Node

/-- The static children of a node: no two begin alike, and each route that goes on with text goes on with the whole
prefix of one. -/
structure StaticShape (indices : Bytes) (statics : List Node) (L : Routes) : Prop where
  firsts : List.Forall₂ (fun b c => c.pre.head? = some b) indices statics
  nodup : indices.Nodup
  covers : ∀ b ls r, (.ch b :: ls, r) ∈ L → ∃ c ∈ statics, c.pre.map .ch <+: .ch b :: ls

/-- The letters of the parameter children: those the routes go on with, in the order of preference. -/
structure ParamShape (letters : List Letter) (L : Routes) : Prop where
  ordered : letters.Pairwise (Before L)
  live : ∀ a ∈ letters, ∃ x ∈ L, x.1.head? = some a
  covers : ∀ t e ls r, (.param t e :: ls, r) ∈ L → .param t e ∈ letters

inductive Represents : Node → Routes → Prop where
  | intro {n : Node} {L : Routes} (eps : Endpoints.setAll (ended L) = .ok (n.eps.getD {}))
      (static : StaticShape n.indices n.statics L) (param : ParamShape (n.params.map letter) L)
      (catchAll : n.catchAll = none → under .catchAll L = [])
      (statics : ∀ c ∈ n.statics, Represents c (underAll (c.pre.map .ch) L))
      (params : ∀ c ∈ n.params, Represents c (under c.letter L))
      (rest : ∀ c, n.catchAll = some c → Represents c (under .catchAll L)) : Represents n L

namespace Represents
variable {n : Node} {L : Routes} (h : Represents n L)
include h

theorem eps : Endpoints.setAll (ended L) = .ok (n.eps.getD {}) := by
  cases h
  assumption

theorem static : StaticShape n.indices n.statics L := by
  cases h
  assumption

theorem param : ParamShape (n.params.map letter) L := by
  cases h
  assumption

theorem catchAll : n.catchAll = none → under .catchAll L = [] := by
  cases h
  assumption

theorem statics : ∀ c ∈ n.statics, Represents c (underAll (c.pre.map .ch) L) := by
  cases h
  assumption

theorem params : ∀ c ∈ n.params, Represents c (under c.letter L) := by
  cases h
  assumption

theorem rest : ∀ c, n.catchAll = some c → Represents c (under .catchAll L) := by
  cases h
  assumption

end Represents

theorem represents_nil (pre : Bytes) (tail : UInt8) (expr : Bytes) :
    Represents { pre := pre, tail := tail, expr := expr } [] := by
  refine .intro rfl ⟨.nil, nodup_nil, ?_⟩ ⟨List.Pairwise.nil, ?_, ?_⟩ (fun _ => rfl) ?_ ?_ ?_ <;> simp

variable {change : Node.Change} {w : List Letter} {r : Route} {L : Routes}

theorem Represents.withPre {n : Node} (h : Represents n L) (pre : Bytes) : Represents { n with pre := pre } L :=
  .intro h.eps h.static h.param h.catchAll h.statics h.params h.rest

section
variable {L : Routes} {a b : Letter} {ls w : List Letter} {r : Route}

theorem before_append {L' : Routes} (ha : ∃ x ∈ L, x.1.head? = some a) (hb : ∃ x ∈ L, x.1.head? = some b)
    (h : Before L a b) : Before (L ++ L') a b := by
  cases a <;> cases b <;> try exact h
  rename_i t e t' e'
  simp only [Before] at h ⊢
  rwa [firstAt_append ha, firstAt_append hb]

theorem under_append_other (h : ls.head? ≠ some a) : under a (L ++ [(ls, r)]) = under a L := by
  rw [under_append, under_other h, append_nil]

theorem underAll_other (hw : w.head? = some a) (h : ls.head? ≠ some a) : underAll w [(ls, r)] = [] := by
  cases w with
  | nil => simp at hw
  | cons a' w =>
    obtain rfl : a' = a := by simpa using hw
    rw [underAll, under_other h, underAll_nil]

theorem underAll_append_other (hw : w.head? = some a) (h : ls.head? ≠ some a) :
    underAll w (L ++ [(ls, r)]) = underAll w L := by
  rw [underAll_append, underAll_other hw h, append_nil]

variable {indices : Bytes} {statics : List Node} {c : Node} {b : UInt8} {letters : List Letter}
section
variable (h : StaticShape indices statics L)
include h

theorem StaticShape.append_other
    (hl : ∀ b, ls.head? ≠ some (.ch b)) : StaticShape indices statics (L ++ [(ls, r)]) := by
  refine ⟨h.firsts, h.nodup, fun b ls' r' hm => ?_⟩
  rcases mem_append.1 hm with hm | hm
  · exact h.covers b ls' r' hm
  · obtain ⟨rfl, -⟩ := Prod.mk.inj (mem_singleton.1 hm)
    exact absurd rfl (hl b)

theorem StaticShape.pre_head (hc : c ∈ statics) : ∃ b ∈ indices, c.pre.head? = some b := by
  obtain ⟨i, hi, rfl⟩ := getElem_of_mem hc
  have hlen := h.firsts.length_eq
  exact ⟨indices[i], getElem_mem _, h.firsts.get (by omega) hi⟩

theorem StaticShape.head_of {i : ℕ} (hi : indices[i]? = some b) (hc : statics[i]? = some c) : c.pre.head? = some b := by
  obtain ⟨hi', rfl⟩ := List.getElem?_eq_some_iff.1 hi
  obtain ⟨hc', rfl⟩ := List.getElem?_eq_some_iff.1 hc
  exact h.firsts.get hi' hc'

end

theorem map_ch_head {p : Bytes} (h : p.head? = some b) : (p.map ch).head? = some (.ch b) := by
  rw [head?_map, h]
  rfl

section
variable (h : ParamShape letters L)
include h

theorem ParamShape.ordered_append (L' : Routes) : letters.Pairwise (Before (L ++ L')) :=
  h.ordered.imp_of_mem fun ha hb hab => before_append (h.live _ ha) (h.live _ hb) hab

theorem ParamShape.live_append (L' : Routes) : ∀ a ∈ letters, ∃ x ∈ L ++ L', x.1.head? = some a := by
  intro a ha
  obtain ⟨x, hx, he⟩ := h.live a ha
  exact ⟨x, mem_append_left _ hx, he⟩

theorem ParamShape.append_other
    (hl : ∀ t e, ls.head? = some (.param t e) → .param t e ∈ letters) : ParamShape letters (L ++ [(ls, r)]) := by
  refine ⟨h.ordered_append _, h.live_append _, fun t e ls' r' hm => ?_⟩
  rcases mem_append.1 hm with hm | hm
  · exact h.covers t e ls' r' hm
  · obtain ⟨rfl, -⟩ := Prod.mk.inj (mem_singleton.1 hm)
    exact hl t e rfl

end

theorem not_before_self (a : Letter) : ¬ Before L a a := by
  cases a <;> simp [Before]

theorem ParamShape.nodup (h : ParamShape letters L) : letters.Nodup := by
  refine List.Pairwise.imp (fun {a b} hab he => ?_) h.ordered
  subst he
  exact not_before_self _ hab

theorem insertIdx_eq_take_append {α : Type} (a : α) {k : ℕ} {l : List α} (h : k ≤ l.length) :
    l.insertIdx k a = l.take k ++ a :: l.drop k := by
  induction k generalizing l with
  | zero => simp
  | succ k ih =>
    cases l with
    | nil => simp at h
    | cons b l => simpa using ih (by simpa using h)

def Letter.plain : Letter → Bool
  | .param _ e => e = []
  | _ => false

/-- A new parameter comes after those of its kind, and before those without an expression if it has one. -/
theorem ParamShape.insert (h : ParamShape letters L) {t : UInt8} {e : Bytes}
    (hp : ∀ l ∈ letters, ∃ t e, l = .param t e) (hnew : .param t e ∉ letters) :
    ParamShape (letters.insertIdx (if e = [] then letters.length else letters.findIdx plain) (.param t e))
      (L ++ [(.param t e :: w, r)]) := by
  set k := if e = [] then letters.length else letters.findIdx plain with hk
  have hkl : k ≤ letters.length := by
    rw [hk]
    split_ifs
    · exact le_rfl
    · exact findIdx_le_length
  have hfirst : ∀ l ∈ letters,
      firstAt l (L ++ [(.param t e :: w, r)]) < firstAt (.param t e) (L ++ [(.param t e :: w, r)]) := by
    intro l hl
    rw [firstAt_append (h.live l hl), firstAt_new]
    · exact firstAt_lt (h.live l hl)
    intro x hx he
    obtain ⟨ls', r'⟩ := x
    cases ls' with
    | nil => simp at he
    | cons a ls' =>
      obtain rfl : a = .param t e := by simpa using he
      exact hnew (h.covers t e ls' r' hx)
  have hbefore : ∀ l ∈ letters.take k, Before (L ++ [(.param t e :: w, r)]) l (.param t e) := by
    intro l hl
    obtain ⟨t', e', rfl⟩ := hp l (mem_of_mem_take hl)
    by_cases he' : e' = []
    · refine .inr ⟨?_, hfirst _ (mem_of_mem_take hl)⟩
      by_cases he : e = []
      · simp [he, he']
      -- Of those before the first without an expression, none is without one.
      rw [if_neg he] at hk
      obtain ⟨i, hi, hli⟩ := getElem_of_mem hl
      rw [getElem_take] at hli
      rw [length_take] at hi
      have := not_of_lt_findIdx (show i < letters.findIdx plain by omega)
      rw [hli] at this
      simp [plain, he'] at this
    · by_cases he : e = []
      · exact .inl ⟨he', he⟩
      · exact .inr ⟨by simp [he, he'], hfirst _ (mem_of_mem_take hl)⟩
  have hafter : ∀ l ∈ letters.drop k, Before (L ++ [(.param t e :: w, r)]) (.param t e) l := by
    intro l hl
    obtain ⟨t', e', rfl⟩ := hp l (mem_of_mem_drop hl)
    by_cases he : e = []
    · rw [hk, if_pos he, drop_length] at hl
      simp at hl
    rw [if_neg he] at hk
    refine .inl ⟨he, ?_⟩
    obtain ⟨i, hi, hli⟩ := getElem_of_mem hl
    rw [getElem_drop] at hli
    rw [length_drop] at hi
    have hlt : letters.findIdx plain < letters.length := by omega
    have hplain := findIdx_getElem (w := hlt)
    by_contra hne
    cases i with
    | zero =>
      simp only [Nat.add_zero, hk] at hli
      rw [hli] at hplain
      simp [plain, hne] at hplain
    | succ i =>
      have hord := (pairwise_iff_getElem.1 h.ordered) k (k + (i + 1)) (by omega) (by omega) (by omega)
      rw [hli] at hord
      obtain ⟨t₀, e₀, h₀⟩ := hp _ (getElem_mem (show k < letters.length by omega))
      rw [h₀] at hord
      have he₀ : e₀ = [] := by
        simp only [← hk, h₀] at hplain
        simpa [plain] using hplain
      simp [Before, he₀, hne] at hord
  rw [insertIdx_eq_take_append _ hkl]
  refine ⟨?_, fun a ha => ?_, fun t' e' ls' r' hm => ?_⟩
  · rw [pairwise_append, pairwise_cons]
    have hord := h.ordered_append [(.param t e :: w, r)]
    refine ⟨hord.sublist (take_sublist _ _), ⟨hafter, hord.sublist (drop_sublist _ _)⟩, fun a ha b hb => ?_⟩
    rcases mem_cons.1 hb with rfl | hb
    · exact hbefore a ha
    · rw [← take_append_drop k letters, pairwise_append] at hord
      exact hord.2.2 a ha b hb
  · rcases mem_append.1 ha with ha | ha
    · exact h.live_append _ a (mem_of_mem_take ha)
    · rcases mem_cons.1 ha with rfl | ha
      · exact ⟨_, mem_append_right _ (mem_singleton_self _), rfl⟩
      · exact h.live_append _ a (mem_of_mem_drop ha)
  · rcases mem_append.1 hm with hm | hm
    · have := h.covers t' e' ls' r' hm
      rw [← take_append_drop k letters, mem_append] at this
      simp only [mem_append, mem_cons]
      tauto
    · obtain ⟨hl, -⟩ := Prod.mk.inj (mem_singleton.1 hm)
      obtain ⟨hl, -⟩ := cons.inj hl
      simp [hl]

/-- The routes that go on with the first byte of a static child go on with all of its prefix. -/
theorem StaticShape.pre_prefix (h : StaticShape indices statics L) {i : ℕ} (hi : indices[i]? = some b)
    (hc : statics[i]? = some c) (hm : (.ch b :: ls, r) ∈ L) : c.pre.map .ch <+: .ch b :: ls := by
  obtain ⟨c', hc', hp⟩ := h.covers b ls r hm
  obtain ⟨j, hj, rfl⟩ := getElem_of_mem hc'
  have hlen := h.firsts.length_eq
  have hhead : (statics[j]).pre.head? = some indices[j] := h.firsts.get (by omega) hj
  have hb : indices[j] = b := by
    obtain ⟨t, ht⟩ := hp
    have := congrArg List.head? ht
    rw [List.head?_append, map_ch_head hhead] at this
    simpa using this
  obtain ⟨hi', hib⟩ := List.getElem?_eq_some_iff.1 hi
  have hij : j = i := (h.nodup.getElem_inj_iff).1 (hb.trans hib.symm)
  subst hij
  obtain ⟨_, rfl⟩ := List.getElem?_eq_some_iff.1 hc
  exact hp

end

/-! ### Common prefixes -/

theorem take_commonPrefix (a b : Bytes) : a.take (commonPrefix a b) = b.take (commonPrefix a b) := by
  induction a generalizing b with
  | nil => simp [commonPrefix]
  | cons x a ih =>
    cases b with
    | nil => simp [commonPrefix]
    | cons y b =>
      simp only [commonPrefix]
      split_ifs with hxy
      · rw [take_succ_cons, take_succ_cons, ih b, hxy]
      · rfl

theorem commonPrefix_pos {a b : Bytes} {x : UInt8} (ha : a.head? = some x) (hb : b.head? = some x) :
    0 < commonPrefix a b := by
  cases a with
  | nil => simp at ha
  | cons y a =>
    cases b with
    | nil => simp at hb
    | cons z b =>
      obtain rfl : y = x := by simpa using ha
      obtain rfl : z = y := by simpa using hb
      simp [commonPrefix]

/-! ### Adding a route -/

/-- The change adds the route under the letters, and leaves the node's own. -/
def Adds (change : Node.Change) (w : List Letter) (r : Route) : Prop :=
  ∀ n n' L, Represents n L → change n = .ok n' →
    Represents n' (L ++ [(w, r)]) ∧ n'.pre = n.pre ∧ n'.letter = n.letter

theorem except_map_ok {α β : Type} {x : Except RouteError α} {f : α → β} {y : β} (h : x.map f = .ok y) :
    ∃ a, x = .ok a ∧ f a = y := by
  cases x with
  | error e => simp [Except.map] at h
  | ok a => exact ⟨a, rfl, Except.ok.inj h⟩

theorem Represents.statics_append {n : Node} {L : Routes} {w : List Letter} {r : Route} (h : Represents n L)
    (hw : ∀ b, w.head? ≠ some (.ch b)) : ∀ c ∈ n.statics, Represents c (underAll (c.pre.map .ch) (L ++ [(w, r)])) := by
  intro c hc
  obtain ⟨b, -, hb⟩ := h.static.pre_head hc
  rw [underAll_append_other (map_ch_head hb) (hw b)]
  exact h.statics c hc

theorem adds_setEndpoint (method : Bytes) (ep : Endpoint) : Adds (setEndpoint method ep) [] ⟨method, ep⟩ := by
  intro n n' L h hc
  obtain ⟨e, he, rfl⟩ := except_map_ok hc
  refine ⟨.intro ?_ (h.static.append_other (by simp)) (h.param.append_other (by simp)) (fun hn => ?_)
    (h.statics_append (by simp)) (fun c hc => ?_) fun c hc => ?_, rfl, rfl⟩
  · have hend : ended [(([] : List Letter), (⟨method, ep⟩ : Route))] = [⟨method, ep⟩] := rfl
    rw [ended_append, hend, Endpoints.setAll_snoc, h.eps]
    exact he
  · rw [under_append_other (by simp)]
    exact h.catchAll hn
  · rw [under_append_other (by simp)]
    exact h.params c hc
  · rw [under_append_other (by simp)]
    exact h.rest c hc

theorem adds_catchAll (hch : Adds change w r) :
    Adds (fun n => (change (n.catchAll.getD {})).map n.setCatchAll) (.catchAll :: w) r := by
  intro n n' L h hc
  obtain ⟨child, hchild, rfl⟩ := except_map_ok hc
  have hold : Represents (n.catchAll.getD {}) (under .catchAll L) := by
    rcases hn : n.catchAll with _ | c
    · rw [h.catchAll hn]
      exact represents_nil [] 0 []
    · exact h.rest c hn
  obtain ⟨hnew, -, -⟩ := hch _ _ _ hold hchild
  refine ⟨.intro ?_ (h.static.append_other (by simp)) (h.param.append_other (by simp)) (fun hn => ?_)
    (h.statics_append (by simp)) (fun c hc => ?_) fun c hc => ?_, rfl, rfl⟩
  · rw [ended_append, ended_cons, append_nil]
    exact h.eps
  · simp [setCatchAll] at hn
  · rw [under_append_other (by simp [letter])]
    exact h.params c hc
  · obtain rfl : child = c := Option.some.inj hc
    rw [under_append, under_self]
    exact hnew

section
variable {n : Node} {L : Routes} {t : UInt8} {e : Bytes} {w : List Letter} {r : Route}

theorem Represents.withParams (h : Represents n L) {params : List Node}
    (hparam : ParamShape (params.map letter) (L ++ [(.param t e :: w, r)]))
    (hparams : ∀ c ∈ params, Represents c (under c.letter (L ++ [(.param t e :: w, r)]))) :
    Represents { n with params := params } (L ++ [(.param t e :: w, r)]) := by
  have hcatch : under .catchAll (L ++ [(.param t e :: w, r)]) = under .catchAll L := under_append_other (by simp)
  refine .intro ?_ (h.static.append_other (by simp)) hparam (fun hn => ?_) (h.statics_append (by simp)) hparams
    fun c hc => ?_
  · rw [ended_append, ended_cons, append_nil]
    exact h.eps
  · rw [hcatch]
    exact h.catchAll hn
  · rw [hcatch]
    exact h.rest c hc

variable {child : Node}

theorem represents_setParam (h : Represents n L) {i : ℕ} (hi : i < n.params.length)
    (hletter : n.params[i].letter = .param t e) (hsame : child.letter = .param t e)
    (hchild : Represents child (under (.param t e) L ++ [(w, r)])) :
    Represents (n.setParam i child) (L ++ [(.param t e :: w, r)]) := by
  have hmap : (n.params.set i child).map letter = n.params.map letter := by
    rw [map_set, hsame, ← hletter]
    refine ext_getElem (by simp) fun j h1 h2 => ?_
    rw [getElem_set]
    split_ifs with hij
    · subst hij
      simp
    · rfl
  refine h.withParams ?_ fun c hc => ?_
  · rw [hmap]
    refine h.param.append_other fun t' e' he => ?_
    rw [← Option.some.inj he, ← hletter]
    exact mem_map_of_mem (getElem_mem hi)
  obtain ⟨j, hj⟩ := mem_iff_getElem?.1 hc
  by_cases hij : i = j
  · subst hij
    rw [List.getElem?_set_self hi] at hj
    cases hj
    rw [hsame, under_append, under_self]
    exact hchild
  rw [List.getElem?_set_ne hij] at hj
  obtain ⟨hlen, rfl⟩ := List.getElem?_eq_some_iff.1 hj
  have hne : n.params[j].letter ≠ .param t e := by
    rw [← hletter]
    intro he
    refine hij ((List.getElem?_inj (by simpa using hi) h.param.nodup).1 ?_)
    simp [hi, hlen, he]
  rw [under_append_other (by simpa using Ne.symm hne)]
  exact h.params _ (getElem_mem hlen)

theorem represents_addParam (h : Represents n L) {s : Segment} (hs : param s.tail s.text ∉ n.params.map letter)
    (hsame : child.letter = .param s.tail s.text) (hchild : Represents child [(w, r)]) :
    Represents (n.addParam s child) (L ++ [(.param s.tail s.text :: w, r)]) := by
  have hplain : (n.params.map letter).findIdx plain = n.params.findIdx fun p => decide (p.expr = []) := by
    rw [findIdx_map]
    rfl
  refine h.withParams ?_ fun c hc => ?_
  · have hins := h.param.insert (w := w) (r := r) (fun l hl => ?_) hs
    · simp only [paramPlace, map_insertIdx, hsame]
      rwa [length_map, hplain] at hins
    · obtain ⟨c, -, rfl⟩ := mem_map.1 hl
      exact ⟨_, _, rfl⟩
  rcases eq_or_mem_of_mem_insertIdx hc with rfl | hc
  · have hnone : under (.param s.tail s.text) L = [] := by
      rw [eq_nil_iff_forall_not_mem]
      rintro ⟨ls', r'⟩ hm
      exact hs (h.param.covers _ _ _ _ (mem_under.1 hm))
    rw [hsame, under_append, under_self, hnone]
    exact hchild
  · have hne : c.letter ≠ .param s.tail s.text := fun he => hs (he ▸ mem_map_of_mem hc)
    rw [under_append_other (by simpa using Ne.symm hne)]
    exact h.params c hc

end

theorem adds_param (hch : Adds change w r) (s : Segment) :
    Adds (fun n => n.paramChild s change) (.param s.tail s.text :: w) r := by
  intro n n' L h hc
  have hc : n.paramChild s change = .ok n' := hc
  unfold paramChild at hc
  split at hc
  · rename_i i hi
    obtain ⟨child, hchild, rfl⟩ := except_map_ok hc
    obtain ⟨hlt, hp, -⟩ := findIdx?_eq_some_iff_getElem.1 hi
    have hletter : n.params[i].letter = .param s.tail s.text := by
      have := of_decide_eq_true hp
      rw [letter, this.1, this.2]
    rw [getD_eq_getElem?_getD, getElem?_eq_getElem hlt, Option.getD_some] at hchild
    obtain ⟨hnew, -, hsame⟩ := hch _ _ _ (h.params _ (getElem_mem hlt)) hchild
    exact ⟨represents_setParam h hlt hletter (hsame.trans hletter) (hletter ▸ hnew), rfl, rfl⟩
  · rename_i hi
    obtain ⟨child, hchild, rfl⟩ := except_map_ok hc
    obtain ⟨hnew, -, hsame⟩ := hch _ _ _ (represents_nil [] s.tail s.text) hchild
    refine ⟨represents_addParam h (fun hm => ?_) hsame hnew, rfl, rfl⟩
    obtain ⟨c, hc, he⟩ := mem_map.1 hm
    have := findIdx?_eq_none_iff.1 hi c hc
    simp only [letter, param.injEq] at he
    exact absurd he (of_decide_eq_false this)

/-- The node put above a child of which only the first bytes are shared has the same routes below it. -/
theorem represents_split {c : Node} {common : ℕ} (hlt : common < c.pre.length)
    (hc : Represents c (underAll (c.pre.map .ch) L))
    (hall : ∀ ls r, ((c.pre.take common).map .ch ++ ls, r) ∈ L → (c.pre.drop common).map .ch <+: ls) :
    Represents (c.split common) (underAll ((c.pre.take common).map .ch) L) := by
  obtain ⟨b, rest, hdrop⟩ : ∃ b rest, c.pre.drop common = b :: rest := by
    cases hd : c.pre.drop common with
    | nil =>
      rw [drop_eq_nil_iff] at hd
      omega
    | cons b rest => exact ⟨b, rest, rfl⟩
  have hhead : ∀ ls r, (ls, r) ∈ underAll ((c.pre.take common).map .ch) L → ls.head? = some (.ch b) := by
    intro ls r hm
    obtain ⟨t, rfl⟩ := hall ls r (mem_underAll.1 hm)
    rw [hdrop]
    rfl
  have hnil : ended (underAll ((c.pre.take common).map .ch) L) = [] := by
    rw [eq_nil_iff_forall_not_mem]
    intro r hm
    exact absurd (hhead [] r (mem_ended.1 hm)) (by simp)
  refine .intro ?_ ⟨?_, ?_, fun b' ls r hm => ?_⟩ ⟨List.Pairwise.nil, by simp [split], fun t e ls r hm => ?_⟩
    (fun _ => ?_) (fun c' hc' => ?_) (by simp [split]) (by simp [split])
  · rw [hnil]
    rfl
  · simp [split, hdrop]
  · simp [split, hdrop]
  · refine ⟨_, mem_singleton_self _, ?_⟩
    exact hall _ r (mem_underAll.1 hm)
  · exact absurd (hhead _ r hm) (by simp)
  · rw [eq_nil_iff_forall_not_mem]
    rintro ⟨ls, r⟩ hm
    exact absurd (hhead _ r (mem_under.1 hm)) (by simp)
  · obtain rfl := mem_singleton.1 hc'
    rw [← underAll_concat, ← map_append, take_append_drop]
    exact hc.withPre _

section
variable {n : Node} {L : Routes} {b : UInt8} {i : ℕ} {w : List Letter} {r : Route}

theorem Represents.withStatics (h : Represents n L) {indices : Bytes} {statics : List Node}
    (hstatic : StaticShape indices statics (L ++ [(.ch b :: w, r)]))
    (hstatics : ∀ c ∈ statics, Represents c (underAll (c.pre.map .ch) (L ++ [(.ch b :: w, r)]))) :
    Represents { n with indices := indices, statics := statics } (L ++ [(.ch b :: w, r)]) := by
  have hcatch : under .catchAll (L ++ [(.ch b :: w, r)]) = under .catchAll L := under_append_other (by simp)
  refine .intro ?_ hstatic (h.param.append_other (by simp)) (fun hn => ?_) hstatics (fun c hc => ?_) fun c hc => ?_
  · rw [ended_append, ended_cons, append_nil]
    exact h.eps
  · rw [hcatch]
    exact h.catchAll hn
  · rw [under_append_other (by simp [letter])]
    exact h.params c hc
  · rw [hcatch]
    exact h.rest c hc

variable {c : Node}

theorem underAll_pre_other {b' : UInt8} (hc : c.pre.head? = some b') (hne : b' ≠ b) :
    underAll (c.pre.map .ch) (L ++ [(.ch b :: w, r)]) = underAll (c.pre.map .ch) L :=
  underAll_append_other (map_ch_head hc) (by simpa using Ne.symm hne)

theorem represents_addStatic (h : Represents n L) (hb : b ∉ n.indices) {child : Node} {rest : Bytes}
    (hpre : child.pre = b :: rest) (hchild : Represents child [(w, r)]) :
    Represents (n.addStatic b child) (L ++ [((b :: rest).map .ch ++ w, r)]) := by
  have static := h.static
  have hnone : underAll ((b :: rest).map .ch) L = [] := by
    rw [eq_nil_iff_forall_not_mem]
    rintro ⟨ls, r'⟩ hm
    obtain ⟨c, hc, t, ht⟩ := static.covers b _ r' (mem_underAll.1 hm)
    obtain ⟨b', hb', hhead⟩ := static.pre_head hc
    have hfirst := congrArg head? ht
    rw [head?_append, map_ch_head hhead] at hfirst
    obtain rfl : b' = b := by simpa using hfirst
    exact hb hb'
  refine h.withStatics ⟨?_, ?_, fun b' ls r' hm => ?_⟩ fun c hc => ?_
  · refine rel_append static.firsts (List.Forall₂.cons ?_ .nil)
    rw [hpre]
    rfl
  · exact List.Nodup.append static.nodup (nodup_singleton _) (disjoint_singleton.2 hb)
  · rcases mem_append.1 hm with hm | hm
    · obtain ⟨c, hc, hp⟩ := static.covers b' ls r' hm
      exact ⟨c, mem_append_left _ hc, hp⟩
    · refine ⟨child, mem_append_right _ (mem_singleton_self _), ?_⟩
      obtain ⟨hl, -⟩ := Prod.mk.inj (mem_singleton.1 hm)
      rw [hl, hpre]
      exact prefix_append _ _
  · rcases mem_append.1 hc with hc | hc
    · obtain ⟨b', hb', hhead⟩ := static.pre_head hc
      have hne : b' ≠ b := fun he => hb (he ▸ hb')
      have hsame : underAll (c.pre.map .ch) (L ++ [((b :: rest).map .ch ++ w, r)]) = underAll (c.pre.map .ch) L :=
        underAll_pre_other hhead hne
      exact hsame ▸ h.statics c hc
    · obtain rfl := mem_singleton.1 hc
      have hself : underAll ((b :: rest).map .ch) [((b :: rest).map .ch ++ w, r)] = [(w, r)] := underAll_self
      rw [hpre, underAll_append, hnone]
      exact hself ▸ hchild

/-- A static child is replaced by one with the first bytes of its prefix and the route below it. -/
theorem represents_setStatic (h : Represents n L) (hib : n.indices[i]? = some b) {c child : Node}
    (hic : n.statics[i]? = some c) (hpre : child.pre <+: c.pre) (hhead : child.pre.head? = some b) {ls : List Letter}
    (hls : .ch b :: ls = child.pre.map .ch ++ w)
    (hchild : Represents child (underAll (child.pre.map .ch) L ++ [(w, r)])) :
    Represents (n.setStatic i child) (L ++ [(.ch b :: ls, r)]) := by
  have static := h.static
  obtain ⟨hil, hib'⟩ := List.getElem?_eq_some_iff.1 hib
  obtain ⟨hsl, hic'⟩ := List.getElem?_eq_some_iff.1 hic
  have hlen := static.firsts.length_eq
  refine h.withStatics ⟨?_, static.nodup, fun b' ls' r' hm => ?_⟩ fun c' hc' => ?_
  · rw [List.forall₂_iff_get]
    refine ⟨by simpa using hlen, fun j h1 h2 => ?_⟩
    simp only [get_eq_getElem, getElem_set]
    split_ifs with hij
    · subst hij
      rw [hhead, hib']
    · exact static.firsts.get h1 (by simpa using h2)
  · rcases mem_append.1 hm with hm | hm
    · obtain ⟨c₀, hc₀, hp₀⟩ := static.covers b' ls' r' hm
      obtain ⟨j, hj, rfl⟩ := getElem_of_mem hc₀
      by_cases hij : i = j
      · subst hij
        rw [hic'] at hp₀
        exact ⟨child, mem_set hsl _, (hpre.map _).trans hp₀⟩
      · refine ⟨n.statics[j], ?_, hp₀⟩
        exact mem_of_getElem? (by rw [List.getElem?_set_ne hij, List.getElem?_eq_getElem hj])
    · refine ⟨child, mem_set hsl _, ?_⟩
      obtain ⟨hl, -⟩ := Prod.mk.inj (mem_singleton.1 hm)
      rw [hl, hls]
      exact prefix_append _ _
  · obtain ⟨j, hj⟩ := mem_iff_getElem?.1 hc'
    by_cases hij : i = j
    · subst hij
      rw [List.getElem?_set_self hsl] at hj
      cases hj
      rw [underAll_append, hls, underAll_self]
      exact hchild
    rw [List.getElem?_set_ne hij] at hj
    obtain ⟨hjl, rfl⟩ := List.getElem?_eq_some_iff.1 hj
    have hjhead : (n.statics[j]).pre.head? = some n.indices[j] := static.firsts.get (by omega) hjl
    rw [underAll_pre_other hjhead fun he => ?_]
    · exact h.statics _ (getElem_mem hjl)
    · refine hij ((List.getElem?_inj hil static.nodup).1 ?_)
      rw [hib, List.getElem?_eq_getElem (by omega), he]

theorem represents_cut (h : Represents n L) (hib : n.indices[i]? = some b) (hic : n.statics[i]? = some c)
    {common : ℕ} (hpos : 0 < common) :
    Represents (if common < c.pre.length then c.split common else c) (underAll ((c.pre.take common).map .ch) L) ∧
      (if common < c.pre.length then c.split common else c).pre = c.pre.take common := by
  have hc := h.statics c (mem_of_getElem? hic)
  split_ifs with hshort
  · refine ⟨represents_split hshort hc fun ls r' hm => ?_, rfl⟩
    have hhead := h.static.head_of hib hic
    obtain ⟨t, ht⟩ : ∃ t, (c.pre.take common).map ch = .ch b :: t := by
      obtain ⟨k, rfl⟩ := Nat.exists_eq_succ_of_ne_zero hpos.ne'
      rcases hp : c.pre with _ | ⟨b', p⟩
      · rw [hp] at hhead
        simp at hhead
      · rw [hp] at hhead
        obtain rfl : b' = b := by simpa using hhead
        exact ⟨(p.take k).map .ch, rfl⟩
    have hm' : (.ch b :: (t ++ ls), r') ∈ L := by
      rw [ht] at hm
      exact hm
    have hpfx := h.static.pre_prefix hib hic hm'
    have hwhole : c.pre.map ch = (c.pre.take common).map .ch ++ (c.pre.drop common).map .ch := by
      rw [← map_append, take_append_drop]
    rw [hwhole, ← cons_append, ← ht] at hpfx
    exact (prefix_append_right_inj _).1 hpfx
  · rw [take_of_length_le (by omega)]
    exact ⟨hc, rfl⟩

end

theorem adds_static (hch : Adds change w r) (fuel : ℕ) (text : Bytes)
    (hfuel : text.length ≤ fuel) : Adds (insertStatic fuel text change) (text.map .ch ++ w) r := by
  induction fuel generalizing text with
  | zero =>
    obtain rfl : text = [] := length_eq_zero_iff.1 (by omega)
    exact hch
  | succ fuel ih =>
    cases text with
    | nil => exact hch
    | cons b rest =>
      intro n n' L h hc
      simp only [insertStatic] at hc
      split at hc
      · rename_i hi
        obtain ⟨child, hchild, rfl⟩ := except_map_ok hc
        obtain ⟨hnew, hpre, -⟩ := hch _ _ _ (represents_nil (b :: rest) 0 []) hchild
        refine ⟨represents_addStatic h (fun hmem => ?_) hpre hnew, rfl, rfl⟩
        exact absurd (List.findIdx?_eq_none_iff.1 hi b hmem) (by simp)
      rename_i i hi
      obtain ⟨child', hchild', rfl⟩ := except_map_ok hc
      obtain ⟨hlt, hp, -⟩ := List.findIdx?_eq_some_iff_getElem.1 hi
      have hib : n.indices[i]? = some b := List.getElem?_eq_some_iff.2 ⟨hlt, of_decide_eq_true hp⟩
      obtain ⟨c, hic⟩ : ∃ c, n.statics[i]? = some c :=
        ⟨_, List.getElem?_eq_getElem (h.static.firsts.length_eq ▸ hlt)⟩
      have hhead := h.static.head_of hib hic
      rw [getD_eq_getElem?_getD, hic, Option.getD_some] at hchild'
      have hpos : 0 < commonPrefix (b :: rest) c.pre := commonPrefix_pos rfl hhead
      have htake := take_commonPrefix (b :: rest) c.pre
      obtain ⟨hrep, hpre⟩ := represents_cut h hib hic hpos
      have hshorter : ((b :: rest).drop (commonPrefix (b :: rest) c.pre)).length ≤ fuel := by
        simp only [length_drop, length_cons] at hfuel ⊢
        omega
      obtain ⟨hnew, hpre', -⟩ := ih _ hshorter _ _ _ hrep hchild'
      rw [hpre] at hpre'
      refine ⟨represents_setStatic h hib hic (hpre' ▸ take_prefix _ _) ?_ ?_ (hpre' ▸ hnew), rfl, rfl⟩
      · obtain ⟨k, hk⟩ := Nat.exists_eq_succ_of_ne_zero hpos.ne'
        rw [hpre', ← htake, hk]
        rfl
      · rw [hpre', ← htake, ← append_assoc, ← map_append, take_append_drop]
        rfl

theorem adds_insert (hch : Adds change w r) (segments : List Segment) :
    Adds (Node.insert segments change) (lettersOf segments ++ w) r := by
  induction segments with
  | nil => exact hch
  | cons s rest ih =>
    have hletters : lettersOf (s :: rest) ++ w = s.letters ++ (lettersOf rest ++ w) := by
      rw [lettersOf, flatMap_cons, append_assoc]
      rfl
    rw [hletters, Segment.letters]
    intro n n' L h hc
    rw [Node.insert] at hc
    cases hk : s.kind with
    | static =>
      rw [hk] at hc
      exact adds_static ih _ s.text le_rfl n n' L h hc
    | param =>
      rw [hk] at hc
      exact adds_param ih s n n' L h hc
    | catchAll =>
      rw [hk] at hc
      exact adds_catchAll ih n n' L h hc

end Fib.Http.Router
