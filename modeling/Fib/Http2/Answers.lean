import Fib.Lib.Runs

/-! The answers that handlers leave for whoever holds a connection's mutex (`respond`, `postAnswer`,
`sendAnswersLocked`, `lock` and `unlock`, http/h2_server.go), by the atomic steps of any number of goroutines. An
answer stands for the node it is queued in. -/

namespace Fib.Http2.Answers
open Function List

/-- What a holder of `mu` goes on with once it has sent what was queued. -/
inductive After
  | hold
  | answer
  | release
deriving DecidableEq

/-- Where the holder of `mu` is, before its next atomic step. -/
inductive Held (α : Type*)
  | look (k : After)
  | take (k : After)
  | send (l : List α) (k : After)
  | holding
  | answering
  | releasing
deriving DecidableEq

/-- Where a goroutine is, `inside` while it holds `mu`. -/
inductive Pc (α : Type*)
  | out
  | responding (a : α) (fits : Bool)
  | posting (a : α)
  | loaded (a : α) (head : Option α)
  | posted
  | locking (k : After)
  | inside
  | released
  | retry
deriving DecidableEq

def After.held {α : Type*} : After → Held α
  | .hold => .holding
  | .answer => .answering
  | .release => .releasing

structure Sent (γ α : Type*) where
  answer : α
  sender : γ
  holder : Option γ

structure State (γ α : Type*) where
  /-- The newest first. -/
  answers : List α := []
  mu : Option (γ × Held α) := none
  pc : γ → Pc α := fun _ => .out
  /-- Not in the source: the answers queued so far, and those of them sent, with who held `mu` then. -/
  posted : List α := []
  sent : List (Sent γ α) := []

open State

/-- A call by a goroutine outside of them, `unlock` by one whose `lock` returned, or a goroutine's next step. `fits`
says whether the client would take the answer. -/
inductive Op (γ α : Type*)
  | respond (g : γ) (a : α) (fits : Bool)
  | lock (g : γ)
  | unlock (g : γ)
  | go (g : γ)

namespace State
variable {γ α : Type*}

def holder (s : State γ α) : Option γ := s.mu.map Prod.fst

variable [DecidableEq γ]

def goto (s : State γ α) (g : γ) (p : Pc α) : State γ α := { s with pc := update s.pc g p }

def tryLock (s : State γ α) (g : γ) (won : Held α) (lost : Pc α) : State γ α :=
  if s.mu.isNone then { s.goto g .inside with mu := some (g, won) } else s.goto g lost

variable [DecidableEq α]

/-- The next step of `g`, which holds `mu`. -/
def hold (s : State γ α) (g : γ) : Held α → State γ α
  | .look k => { s with mu := some (g, if s.answers = [] then k.held else .take k) }
  -- the list is turned round, so that the oldest goes first
  | .take k => { s with answers := [], mu := some (g, .send s.answers.reverse k) }
  | .send [] k => { s with mu := some (g, k.held) }
  | .send (a :: l) k => { s with sent := s.sent ++ [⟨a, g, s.holder⟩], mu := some (g, .send l k) }
  | .holding => s
  | .answering => { s with mu := some (g, .look .release) }
  | .releasing => { s.goto g .released with mu := none }

/-- The next atomic step of `g`; `Lock` of a mutex that is taken waits. -/
def go (s : State γ α) (g : γ) : State γ α :=
  match s.pc g with
  | .out => s
  | .responding a fits => s.tryLock g .answering (if fits then .posting a else .locking .answer)
  | .posting a => s.goto g (.loaded a s.answers.head?)
  | .loaded a head =>
    if s.answers.head? = head then { s.goto g .posted with answers := a :: s.answers, posted := a :: s.posted }
    else s.goto g (.posting a)
  | .posted => s.tryLock g (.look .release) .out
  | .locking k => s.tryLock g (.look k) (.locking k)
  | .inside =>
    match s.mu with
    | none => s
    | some (_, p) => s.hold g p
  | .released => s.goto g (if s.answers = [] then .out else .retry)
  | .retry => s.tryLock g (.look .release) .out

def step (s : State γ α) : Op γ α → State γ α
  | .respond g a fits => if s.pc g = .out then s.goto g (.responding a fits) else s
  | .lock g => if s.pc g = .out then s.goto g (.locking .hold) else s
  | .unlock g => if s.mu = some (g, .holding) then { s with mu := some (g, .look .release) } else s
  | .go g => s.go g

end State

def machine (γ α : Type*) [DecidableEq γ] [DecidableEq α] : Machine (State γ α) (Op γ α) := ⟨{}, step⟩

variable {γ α : Type*}

/-- It tries for `mu` before it returns, if it finds answers. -/
def Pc.looks : Pc α → Bool
  | .posted | .released | .retry => true
  | _ => false

/-- The answers the holder took off the queue and has not sent. -/
def Held.hand : Held α → List α
  | .send l _ => l
  | _ => []

def State.inHand (s : State γ α) : List α := (s.mu.map fun x => x.2.hand).getD []

structure Inv (s : State γ α) : Prop where
  inside : ∀ g, s.pc g = .inside ↔ s.holder = some g
  account : s.posted.Perm (s.answers ++ s.inHand ++ s.sent.map Sent.answer)
  byHolder : ∀ e ∈ s.sent, e.holder = some e.sender
  watched : s.answers ≠ [] → s.mu.isNone = true → ∃ g, (s.pc g).looks = true

variable {s : State γ α} {g : γ} {p : Pc α} {x : Held α}

theorem Inv.keeps {y : Held α} {answers : List α} {sent : List (Sent γ α)} (h : Inv s) (hm : s.mu = some (g, x))
    (hacc : (s.answers ++ x.hand ++ s.sent.map Sent.answer).Perm (answers ++ y.hand ++ sent.map Sent.answer))
    (hby : ∀ e ∈ sent, e ∈ s.sent ∨ e.holder = some e.sender) :
    Inv { s with mu := some (g, y), answers := answers, sent := sent } := by
  have hacc' := h.account
  rw [inHand, hm] at hacc'
  refine ⟨fun g' => ?_, hacc'.trans hacc, fun e he => (hby e he).elim (h.byHolder e) id, nofun⟩
  have hin := h.inside g'
  rwa [holder, hm] at hin

variable [DecidableEq γ]

theorem goto_self : (s.goto g p).pc g = p := update_self ..

theorem goto_of_ne {g' : γ} (h : g' ≠ g) : (s.goto g p).pc g' = s.pc g' := update_of_ne h ..

theorem Inv.goto (h : Inv s) (hg : s.pc g ≠ .inside) (hp : p ≠ .inside)
    (hl : (s.pc g).looks = true → p.looks = true ∨ s.mu.isNone = false ∨ s.answers = []) : Inv (s.goto g p) := by
  refine ⟨fun g' => ?_, h.account, h.byHolder, fun ha hm => ?_⟩
  · by_cases he : g' = g
    · subst he
      rw [goto_self]
      exact iff_of_false hp fun hh => hg ((h.inside g').2 hh)
    · rw [goto_of_ne he]
      exact h.inside g'
  · obtain ⟨g', hg'⟩ := h.watched ha hm
    by_cases he : g' = g
    · subst he
      rcases hl hg' with hp' | hm' | hn
      · exact ⟨g', by rwa [goto_self]⟩
      · exact absurd (hm.symm.trans hm') nofun
      · exact absurd hn ha
    · exact ⟨g', by rwa [goto_of_ne he]⟩

theorem Inv.tryLock (h : Inv s) (hg : s.pc g ≠ .inside) (hx : x.hand = []) (hp : p ≠ .inside) :
    Inv (s.tryLock g x p) := by
  unfold State.tryLock
  split_ifs with hm
  · have hnone : s.mu = none := Option.isNone_iff_eq_none.1 hm
    refine ⟨fun g' => ?_, ?_, h.byHolder, nofun⟩
    · show update s.pc g .inside g' = .inside ↔ some g = some g'
      by_cases he : g' = g
      · subst he
        rw [update_self]
        exact iff_of_true rfl rfl
      · rw [update_of_ne he]
        have hfree := h.inside g'
        rw [State.holder, hnone] at hfree
        exact iff_of_false (fun hi => nomatch hfree.1 hi) fun hs => he (Option.some.inj hs).symm
    · have hin : s.inHand = [] := by rw [State.inHand, hnone]; rfl
      have hacc := h.account
      rw [hin, ← hx] at hacc
      exact hacc
  · exact h.goto hg hp fun _ => .inr (.inl (Bool.not_eq_true _ ▸ hm))

theorem Inv.hold (h : Inv s) (hm : s.mu = some (g, x)) : Inv (s.hold g x) := by
  have hafter : ∀ k : After, (k.held : Held α).hand = [] := fun k => by cases k <;> rfl
  cases x with
  | look k =>
    refine h.keeps hm (Perm.append_right _ (Perm.append_left _ ?_)) fun _ => .inl
    split_ifs
    · rw [hafter]
      exact .nil
    · exact .nil
  | take k =>
    refine h.keeps hm (Perm.append_right _ ?_) fun _ => .inl
    simp [Held.hand, (reverse_perm _).symm]
  | send l k =>
    cases l with
    | nil => exact h.keeps hm (by rw [hafter]; rfl) fun _ => .inl
    | cons a l =>
      refine h.keeps hm ?_ fun e he => ?_
      · simp only [Held.hand, map_append, map_cons, map_nil, append_assoc, cons_append]
        refine Perm.append_left _ ?_
        rw [← append_assoc]
        exact (perm_append_singleton a _).symm
      · rcases mem_append.1 he with he | he
        · exact .inl he
        · rw [mem_singleton.1 he, holder, hm]
          exact .inr rfl
  | holding => exact h
  | answering => exact h.keeps hm .rfl fun _ => .inl
  | releasing =>
    have hacc := h.account
    rw [inHand, hm] at hacc
    refine ⟨fun g' => ?_, hacc, h.byHolder, fun _ _ => ⟨g, ?_⟩⟩
    swap
    · exact congrArg Pc.looks (goto_self)
    show update s.pc g .released g' = .inside ↔ none = some g'
    refine iff_of_false (fun hi => ?_) nofun
    by_cases he : g' = g
    · subst he
      rw [update_self] at hi
      cases hi
    · rw [update_of_ne he] at hi
      have hh := (h.inside g').1 hi
      rw [holder, hm] at hh
      exact he (Option.some.inj hh).symm

variable [DecidableEq α]

theorem Inv.go (h : Inv s) (g : γ) : Inv (s.go g) := by
  unfold State.go
  cases hpc : s.pc g with
  | out => exact h
  | responding a fits => exact h.tryLock (by rw [hpc]; nofun) rfl (by cases fits <;> nofun)
  | posting a => exact h.goto (by rw [hpc]; nofun) nofun (by rw [hpc]; nofun)
  | loaded a head =>
    have hposted := h.goto (p := .posted) (by rw [hpc]; nofun) nofun fun _ => .inl rfl
    dsimp only
    split_ifs
    · refine ⟨hposted.inside, hposted.account.cons a, hposted.byHolder, fun _ _ => ⟨g, ?_⟩⟩
      exact congrArg Pc.looks (goto_self)
    · exact h.goto (by rw [hpc]; nofun) nofun (by rw [hpc]; nofun)
  | posted => exact h.tryLock (by rw [hpc]; nofun) rfl nofun
  | locking k => exact h.tryLock (by rw [hpc]; nofun) rfl nofun
  | inside =>
    have hh := (h.inside g).1 hpc
    cases hm : s.mu with
    | none => exact h
    | some x =>
      rw [State.holder, hm] at hh
      obtain ⟨g', x⟩ := x
      obtain rfl : g' = g := Option.some.inj hh
      exact h.hold hm
  | released =>
    refine h.goto (by rw [hpc]; nofun) (by split_ifs <;> nofun) fun _ => ?_
    by_cases ha : s.answers = []
    · exact .inr (.inr ha)
    · exact .inl (by rw [if_neg ha]; rfl)
  | retry => exact h.tryLock (by rw [hpc]; nofun) rfl nofun

theorem Inv.step (h : Inv s) (op : Op γ α) : Inv (s.step op) := by
  have hcall : ∀ (g : γ) (p : Pc α), p ≠ .inside → Inv (if s.pc g = .out then s.goto g p else s) := by
    intro g p hp
    split_ifs with hpc
    · exact h.goto (by rw [hpc]; nofun) hp (by rw [hpc]; nofun)
    · exact h
  cases op with
  | respond g a fits => exact hcall g _ nofun
  | lock g => exact hcall g _ nofun
  | unlock g =>
    simp only [State.step]
    split_ifs with hm
    · exact h.keeps hm .rfl fun _ => .inl
    · exact h
  | go g => exact h.go g

end Fib.Http2.Answers
