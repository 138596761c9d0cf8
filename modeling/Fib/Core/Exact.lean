import Fib.Core.Output

/-! The socket takes the sends in the order they took the lock, every byte once, and the counts and buffers of the
queue follow. -/

namespace Fib.Core
open Release SendItem Nat Output List

def buffersOf (q : List SendItem) : List ℕ := q.filterMap pooled

/-- Each item ends in the stream where it says, the first one beginning at `p`. -/
def Marks : ℕ → List SendItem → Prop
  | _, [] => True
  | p, i :: q => i.last = p + i.left.length ∧ Marks (p + i.left.length) q

@[simp] theorem content_nil : content [] = [] := rfl

@[simp] theorem content_cons (i : SendItem) (q : List SendItem) : content (i :: q) = i.left ++ content q := rfl

@[simp] theorem content_append (q q' : List SendItem) : content (q ++ q') = content q ++ content q' := by
  simp [content]

@[simp] theorem buffersOf_append (q q' : List SendItem) : buffersOf (q ++ q') = buffersOf q ++ buffersOf q' := by
  simp [buffersOf]

theorem marks_append {q q' : List SendItem} {p : ℕ} :
    Marks p (q ++ q') ↔ Marks p q ∧ Marks (p + (content q).length) q' := by
  induction q generalizing p with
  | nil => simp [Marks]
  | cons i q ih => simp [Marks, ih, add_assoc, and_assoc]

/-! ### What a write takes off the queue -/

/-- What `consumeItems` leaves of a queue that begins at `p` when `n` bytes go. -/
structure Consumes (p : ℕ) (q : List SendItem) (n : ℕ) (r : Output.Consumed) : Prop where
  gone : r.gone ≤ r.items.length
  cleared : ∀ i ∈ r.items.take r.gone, i.pooled = none
  left : content (r.items.drop r.gone) = (content q).drop n
  live : ∀ i ∈ r.items.drop r.gone, i.offset < i.data.length
  marks : Marks (p + n) (r.items.drop r.gone)
  buffers : r.released.map buf ++ buffersOf (r.items.drop r.gone) = buffersOf q
  timely : ∀ x ∈ r.released, x.cause = .written ∧ x.last ≤ x.taken

theorem consumes_consumeItems {t p : ℕ} {q : List SendItem} {n : ℕ} (hq : ∀ i ∈ q, i.offset < i.data.length)
    (hm : Marks p q) (hn : n ≤ (content q).length) (ht : p + n ≤ t) : Consumes p q n (consumeItems t q n) := by
  induction q generalizing p n with
  | nil =>
    have : n = 0 := by simpa using hn
    subst this
    exact ⟨le_refl _, nofun, rfl, nofun, trivial, rfl, nofun⟩
  | cons i q ih =>
    obtain ⟨hi, hq⟩ := forall_mem_cons.1 hq
    obtain ⟨hlast, hm⟩ := hm
    simp only [content_cons, length_append] at hn
    simp only [consumeItems]
    split_ifs with h
    · -- the write ends inside this item
      have hleft : i.left.length = i.data.length - i.offset := by simp [left]
      have hdrop : (left { i with offset := i.offset + n }) = i.left.drop n := by
        simp [left, drop_drop]
      refine ⟨zero_le _, nofun, ?_, ?_, ?_, rfl, nofun⟩
      · simp only [drop_zero, content_cons, hdrop]
        rw [drop_append_of_le_length h.le]
      · simp only [drop_zero, forall_mem_cons]
        exact ⟨by show i.offset + n < i.data.length; omega, hq⟩
      · simp only [drop_zero, Marks, hdrop, length_drop]
        have hp : p + n + (i.left.length - n) = p + i.left.length := by omega
        rw [hp]
        exact ⟨hlast, hm⟩
    · have hle : i.left.length ≤ n := by omega
      have r := ih hq hm (n := n - i.left.length) (by omega) (by omega)
      refine ⟨succ_le_succ r.gone, ?_, ?_, r.live, ?_, ?_, ?_⟩
      · simp only [take_succ_cons, forall_mem_cons]
        exact ⟨trivial, r.cleared⟩
      · simp only [drop_succ_cons, content_cons, r.left]
        rw [drop_append, drop_eq_nil_of_le hle, nil_append]
      · have hp : p + i.left.length + (n - i.left.length) = p + n := by omega
        rw [← hp]
        exact r.marks
      · simp only [drop_succ_cons, map_append, append_assoc, r.buffers]
        cases hb : i.pooled <;> simp [releaseOf, buffersOf, hb]
      intro x hx
      rcases mem_append.1 hx with hx | hx
      · cases hb : i.pooled with
        | none => simp [releaseOf, hb] at hx
        | some b =>
          simp only [releaseOf, hb, Option.map_some, Option.toList_some, mem_singleton] at hx
          subst hx
          exact ⟨rfl, by show i.last ≤ t; omega⟩
      · exact r.timely x hx

namespace Output

/-- The bytes of the sends: all of an accepted one's, and what the socket took of a refused one. -/
def stream (c : Output) : Bytes := c.offers.flatMap Offer.bytes

def acceptedBytes (c : Output) : Bytes := (c.offers.filter Offer.accepted).flatMap Offer.bytes

/-- Why and when a buffer may go back to the pool. -/
def Timely (c : Output) (r : Release) : Prop :=
  match r.cause with
  | .written => r.last ≤ r.taken
  | .dropped => c.closed = true
  | .refused => True

structure Sound (c : Output) : Prop where
  head : c.sendHead ≤ c.sends.length
  cleared : ∀ i ∈ c.sends.take c.sendHead, i.pooled = none
  live : ∀ i ∈ c.queue, i.offset < i.data.length
  marks : Marks c.taken.length c.queue
  once : (c.released.map buf ++ buffersOf c.queue).Perm (range c.buffers)
  timely : ∀ r ∈ c.released, c.Timely r

structure Appends (c : Output) (data : Bytes) (d : Output) : Prop where
  sound : d.Sound
  left : content d.queue = content c.queue ++ data
  frame : d = { c with
    sends := d.sends
    sendHead := d.sendHead
    slots := d.slots
    buffers := d.buffers }

variable {c d : Output} {data y t : Bytes} {sent n : ℕ}

theorem isEmpty_iff (h : c.sendHead ≤ c.sends.length) : c.isEmpty = true ↔ c.queue = [] := by
  simp only [isEmpty, beq_iff_eq, queue, drop_eq_nil_iff]
  omega

theorem Sound.content_ne_nil (h : c.Sound) (hq : c.queue ≠ []) : content c.queue ≠ [] := by
  cases hc : c.queue with
  | nil => exact absurd hc hq
  | cons i q =>
    have hi := h.live i (by simp [hc])
    simp only [content_cons, ne_eq, append_eq_nil_iff, not_and]
    intro hl
    have := congrArg length hl
    simp only [left, length_drop, length_nil] at this
    omega

/-! ### Queueing -/

theorem makeRoom_spec (h : c.sendHead ≤ c.sends.length) (hc : ∀ i ∈ c.sends.take c.sendHead, i.pooled = none) :
    c.makeRoom.queue = c.queue ∧ c.makeRoom.sendHead ≤ c.makeRoom.sends.length ∧
    (∀ i ∈ c.makeRoom.sends.take c.makeRoom.sendHead, i.pooled = none) ∧
    c.makeRoom = { c with sends := c.makeRoom.sends, sendHead := c.makeRoom.sendHead, slots := c.makeRoom.slots } := by
  by_cases he : c.isEmpty = true
  · have hq := (isEmpty_iff h).1 he
    simp only [makeRoom, he, if_true]
    split_ifs
    · exact ⟨by simpa [queue, growQueueLocked] using hq.symm, by simp [growQueueLocked],
        by simp [growQueueLocked], rfl⟩
    · exact ⟨by simpa [queue] using hq.symm, by simp, by simp, rfl⟩
  · rw [Bool.not_eq_true] at he
    simp only [makeRoom, he, Bool.false_eq_true, if_false]
    split_ifs
    · exact ⟨by simp [queue, growQueueLocked], by simp [growQueueLocked], by simp [growQueueLocked], rfl⟩
    · exact ⟨rfl, h, hc, rfl⟩

theorem appends_pushLocked (h : c.Sound) {b : ℕ} {i : SendItem} (hi : i.offset < i.data.length)
    (hl : i.last = c.endAfter i.left.length) (hb : i.pooled.toList = range' c.buffers (b - c.buffers))
    (hle : c.buffers ≤ b) : Appends c i.left ({ c with buffers := b }.pushLocked i) := by
  obtain ⟨hq, hh, hcl, hf⟩ := makeRoom_spec (c := { c with buffers := b }) h.head h.cleared
  have hfq : ({ c with buffers := b } : Output).queue = c.queue := rfl
  rw [hfq] at hq
  generalize hd : ({ c with buffers := b } : Output).makeRoom = d at hq hh hcl hf
  have hpush : ({ c with buffers := b } : Output).pushLocked i = { d with sends := d.sends ++ [i] } := by
    rw [pushLocked, hd]
  have hqueue : ({ d with sends := d.sends ++ [i] } : Output).queue = c.queue ++ [i] := by
    simp only [queue] at hq ⊢
    rw [drop_append_of_le_length hh, hq]
  rw [hpush]
  refine ⟨⟨?_, ?_, ?_, ?_, ?_, ?_⟩, ?_, ?_⟩
  · simp only [length_append]
    omega
  · rw [take_append_of_le_length hh]
    exact hcl
  · rw [hqueue]
    simpa [or_imp, forall_and, hi] using h.live
  · rw [hqueue, hf, marks_append]
    exact ⟨h.marks, hl, trivial⟩
  · rw [hqueue, hf]
    simp only [buffersOf_append]
    have hrange : range b = range c.buffers ++ range' c.buffers (b - c.buffers) := by
      have hsplit := range'_append_1 (s := 0) (m := c.buffers) (n := b - c.buffers)
      rw [Nat.add_sub_cancel' hle, Nat.zero_add] at hsplit
      rw [range_eq_range', range_eq_range', hsplit]
    rw [hrange, ← append_assoc, ← hb]
    refine List.Perm.append h.once ?_
    cases hp : i.pooled <;> simp [buffersOf, hp]
  · rw [hf]
    exact h.timely
  · rw [hqueue]
    simp
  · rw [hf]

theorem appends_queueOwnedLocked (h : c.Sound) (hd : data ≠ []) : Appends c data (c.queueOwnedLocked data) := by
  refine appends_pushLocked (i := { data := data, last := c.endAfter data.length }) (b := c.buffers) h
    (length_pos_iff.2 hd) rfl (by simp) le_rfl

theorem appends_queueLocked (cfg : Config) (h : c.Sound) (hd : data ≠ []) :
    Appends c data (c.queueLocked cfg data) := by
  rw [queueLocked]
  cases hm : c.sends.getLast?.filter (merges data.length) with
  | none =>
    exact appends_pushLocked
      (i := { data := data, pooled := some c.buffers, cap := cfg.room data.length, last := c.endAfter data.length })
      h (length_pos_iff.2 hd) rfl (by simp) (by omega)
  | some tail =>
    simp only [Option.filter_eq_some_iff, merges, Bool.and_eq_true, beq_iff_eq, decide_eq_true_eq] at hm
    obtain ⟨hlast, ⟨hp, ho⟩, _⟩ := hm
    obtain ⟨pre, hpre⟩ := getLast?_eq_some_iff.1 hlast
    -- the drained items are cleared, so the one it merges into is still queued
    have hhead : c.sendHead ≤ pre.length := by
      by_contra hlt
      have hall : c.sends.take c.sendHead = c.sends := by
        refine take_of_length_le ?_
        rw [hpre, length_append, length_singleton]
        omega
      have := h.cleared tail (by rw [hall, hpre]; simp)
      simp [this] at hp
    have hq : c.queue = pre.drop c.sendHead ++ [tail] := by
      rw [queue, hpre, drop_append_of_le_length hhead]
    set tail' : SendItem := { tail with data := tail.data ++ data, last := c.endAfter data.length } with htail'
    have hleft : tail'.left = tail.left ++ data := by simp [left, htail', ho]
    have hq' : ({ c with sends := c.sends.dropLast ++ [tail'] } : Output).queue = pre.drop c.sendHead ++ [tail'] := by
      simp only [queue, hpre, dropLast_concat]
      rw [drop_append_of_le_length hhead]
    refine ⟨⟨?_, ?_, ?_, ?_, ?_, ?_⟩, ?_, rfl⟩
    · have hh := h.head
      rw [hpre] at hh
      simpa [hpre] using hh
    · intro i hi
      refine h.cleared i ?_
      rw [hpre] at hi ⊢
      simp only [dropLast_concat] at hi
      rwa [take_append_of_le_length hhead] at hi ⊢
    · intro i hi
      rw [hq'] at hi
      rcases mem_append.1 hi with hi | hi
      · exact h.live i (by rw [hq]; exact mem_append_left _ hi)
      · rw [mem_singleton.1 hi]
        have hpos := length_pos_iff.2 hd
        simp only [htail', ho, length_append]
        omega
    · have hm := h.marks
      rw [hq, marks_append] at hm
      rw [hq', marks_append]
      refine ⟨hm.1, ?_, trivial⟩
      simp only [htail'] at hleft ⊢
      rw [hleft]
      simp only [endAfter, hq, content_append, content_cons, content_nil, append_nil, length_append]
      omega
    · have hbuf : buffersOf [tail'] = buffersOf [tail] := rfl
      have honce := h.once
      rw [hq, buffersOf_append] at honce
      rw [hq', buffersOf_append, hbuf]
      exact honce
    · exact h.timely
    · rw [hq', hq]
      simp [hleft]

theorem Appends.refl (h : c.Sound) : Appends c [] c := ⟨h, by simp, rfl⟩

theorem Appends.trans {e : Output} {x : Bytes} (h : Appends c x d) (h' : Appends d y e) : Appends c (x ++ y) e :=
  ⟨h'.sound, by rw [h'.left, h.left, append_assoc], by
    have hf := h'.frame
    rw [h.frame] at hf
    exact hf⟩

section
variable (cfg : Config) (h : c.Sound)
include cfg h

theorem appends_queueSharedPartsLocked (first second : Bytes) :
    Appends c (first ++ second) (c.queueSharedPartsLocked cfg first second) := by
  have hfirst : Appends c first (if 0 < first.length then c.queueLocked cfg first else c) := by
    split_ifs with hf
    · exact appends_queueLocked cfg h (length_pos_iff.1 hf)
    · have : first = [] := by simpa using hf
      subst this
      exact .refl h
  simp only [queueSharedPartsLocked]
  generalize (if 0 < first.length then c.queueLocked cfg first else c) = d at hfirst
  refine hfirst.trans ?_
  split_ifs with hs
  · exact appends_queueOwnedLocked hfirst.sound (length_pos_iff.1 hs)
  · have : second = [] := by simpa using hs
    subst this
    exact .refl hfirst.sound

theorem appends_queueMode (hs : sent < data.length) (mode : SendMode) :
    Appends c (data.drop sent) (c.queueMode cfg data sent mode) := by
  have hne : data.drop sent ≠ [] := by simpa using hs
  cases mode with
  | copy => exact appends_queueLocked cfg h hne
  | owned => exact appends_queueOwnedLocked h hne
  | pooled cap =>
    exact appends_pushLocked
      (i := { data, offset := sent, pooled := some c.buffers, cap, last := c.endAfter (data.drop sent).length })
      h hs rfl (by simp) (by omega)

theorem appends_queueParts {first second : Bytes} (hs : sent < (first ++ second).length) (shared : Bool) :
    Appends c ((first ++ second).drop sent) (c.queueParts cfg first second shared sent) := by
  simp only [queueParts]
  have hne : (first ++ second).drop sent ≠ [] := by simpa using hs
  split_ifs with hsh hf hf
  · rw [drop_append_of_le_length hf.le]
    exact appends_queueSharedPartsLocked cfg h _ _
  · rw [drop_append, drop_eq_nil_of_le (by omega)]
    exact appends_queueSharedPartsLocked cfg h _ _
  · rw [drop_append_of_le_length hf.le] at hne ⊢
    exact appends_queueLocked cfg h hne
  · rw [drop_append, drop_eq_nil_of_le (by omega), nil_append] at hne ⊢
    exact appends_queueLocked cfg h hne

end

/-! ### The invariant -/

/-- What holds of the output between any two regions under the lock. -/
structure Exact (c : Output) : Prop where
  sound : c.Sound
  stream : c.closed = false → c.stream = c.taken ++ content c.queue
  inOrder : c.taken <+: c.stream
  counted : c.pendingBytes + c.corkedBytes = (content c.queue).length
  dropped : c.closed = true → c.closing = true ∧ c.queue = []
  due : c.closeDue = true → c.closeAfterSend = true ∧ c.queue = []
  bySend : c.closedBySend = true → c.closing = true ∧ c.queue = [] ∧ c.taken = c.stream

theorem exact_init : ({} : Output).Exact :=
  ⟨⟨le_rfl, nofun, nofun, trivial, .refl _, nofun⟩, fun _ => rfl, prefix_rfl, rfl, nofun, nofun, nofun⟩

theorem Sound.congr (h : c.Sound) (hs : d.sends = c.sends) (hh : d.sendHead = c.sendHead) (ht : d.taken = c.taken)
    (hr : d.released = c.released) (hb : d.buffers = c.buffers) (hc : c.closed = true → d.closed = true) : d.Sound := by
  have hq : d.queue = c.queue := by rw [queue, queue, hs, hh]
  refine ⟨by rw [hs, hh]; exact h.head, by rw [hs, hh]; exact h.cleared, by rw [hq]; exact h.live,
    by rw [ht, hq]; exact h.marks, by rw [hr, hq, hb]; exact h.once, ?_⟩
  rw [hr]
  intro r hmem
  have := h.timely r hmem
  simp only [Timely] at this ⊢
  cases hcause : r.cause <;> simp only [hcause] at this ⊢
  · exact this
  · exact hc this

theorem Sound.offer (h : c.Sound) (bytes : Bytes) (a : Bool) : (c.offer bytes a).Sound :=
  h.congr rfl rfl rfl rfl rfl id

theorem Sound.give (h : c.Sound) (ht : t = [] ∨ c.queue = []) : (c.give t).Sound := by
  rcases ht with rfl | hq
  · exact h.congr rfl rfl (by simp [give]) rfl rfl id
  · refine { h with marks := ?_ }
    have hq' : (c.give t).queue = [] := hq
    rw [hq']
    trivial

theorem Sound.giveBack (h : c.Sound) (mode : SendMode) (cause : Cause) (hc : cause ≠ .dropped) :
    (c.giveBack mode cause).Sound := by
  cases mode with
  | copy => exact h
  | owned => exact h
  | pooled cap =>
    refine { h with once := ?_, timely := ?_ }
    · show ((c.released ++ [_]).map buf ++ buffersOf c.queue).Perm (range (c.buffers + 1))
      rw [range_succ, map_append, append_assoc]
      refine (perm_append_comm_assoc _ _ _).trans ?_
      exact (perm_append_comm).trans (h.once.append_right _)
    intro r hr
    rcases mem_append.1 hr with hr | hr
    · exact h.timely r hr
    rw [mem_singleton.1 hr]
    cases cause with
    | written => exact le_rfl
    | dropped => exact absurd rfl hc
    | refused => trivial

theorem Exact.giveBack (h : c.Exact) (mode : SendMode) (cause : Cause) (hc : cause ≠ .dropped) :
    (c.giveBack mode cause).Exact := by
  have hs := h.sound.giveBack mode cause hc
  cases mode <;> exact { h with sound := hs }

theorem Exact.flags (h : c.Exact) (flushing corked writeShut : Bool) :
    ({ c with flushing, corked, writeShut } : Output).Exact :=
  { h with sound := h.sound.congr rfl rfl rfl rfl rfl id }

theorem Exact.foldCorkedLocked (h : c.Exact) : c.foldCorkedLocked.Exact :=
  { h with sound := h.sound.congr rfl rfl rfl rfl rfl id }

/-- A send while sends are taken: the socket gets `t` at once, only over an empty queue, and `y` is queued. -/
theorem Exact.sends (h : c.Exact) (hr : c.refuses = false) (hs : d.Sound) (ht : t = [] ∨ c.queue = [])
    (hstream : d.stream = c.stream ++ (t ++ y)) (htaken : d.taken = c.taken ++ t)
    (hq : content d.queue = content c.queue ++ y)
    (hn : d.pendingBytes + d.corkedBytes = c.pendingBytes + c.corkedBytes + y.length) (hclosed : d.closed = c.closed)
    (hdue : d.closeDue = c.closeDue) (hby : d.closedBySend = c.closedBySend) : d.Exact := by
  simp only [refuses, Bool.or_eq_false_iff] at hr
  obtain ⟨⟨⟨hcg, hcd⟩, hca⟩, _⟩ := hr
  have hwhole : d.stream = d.taken ++ content d.queue := by
    rw [hstream, h.stream hcd, htaken, hq]
    rcases ht with rfl | hempty
    · simp
    · simp [hempty]
  refine ⟨hs, fun _ => hwhole, hwhole ▸ prefix_append _ _, ?_, ?_, ?_, ?_⟩
  · rw [hn, h.counted, hq, length_append]
  · rw [hclosed, hcd]
    nofun
  · rw [hdue]
    intro hd
    rw [(h.due hd).1] at hca
    contradiction
  · rw [hby]
    intro hd
    rw [(h.bySend hd).1] at hcg
    contradiction

/-! ### Sends -/

theorem stream_offer (c : Output) (bytes : Bytes) (a : Bool) : (c.offer bytes a).stream = c.stream ++ bytes := by
  simp [stream, offer]

theorem addPending_spec (c : Output) (n : ℕ) :
    (c.addPending n).pendingBytes + (c.addPending n).corkedBytes = c.pendingBytes + c.corkedBytes + n ∧
      c.addPending n = { c with
        pendingBytes := (c.addPending n).pendingBytes
        corkedBytes := (c.addPending n).corkedBytes } := by
  simp only [addPending]
  split_ifs
  · exact ⟨by show c.pendingBytes + n + c.corkedBytes = _; omega, rfl⟩
  · exact ⟨by show c.pendingBytes + n + c.corkedBytes + 0 = _; omega, rfl⟩

section
variable (h : c.Exact) (hr : c.refuses = false)
include h hr

theorem Exact.accepts (ht : t = [] ∨ c.queue = []) (ha : Appends ((c.give t).offer (t ++ y) true) y d) {p k : ℕ}
    (hn : p + k = d.pendingBytes + d.corkedBytes + y.length) :
    ({ d with pendingBytes := p, corkedBytes := k } : Output).Exact := by
  have hpend : d.pendingBytes = c.pendingBytes := by rw [ha.frame]; rfl
  have hcork : d.corkedBytes = c.corkedBytes := by rw [ha.frame]; rfl
  have hoffers : d.offers = ((c.give t).offer (t ++ y) true).offers := by rw [ha.frame]
  refine h.sends hr (ha.sound.congr rfl rfl rfl rfl rfl id) ht ?_ ?_ ha.left ?_ ?_ ?_ ?_
  · have hstream := stream_offer (c.give t) (t ++ y) true
    rw [Output.stream, ← hoffers] at hstream
    exact hstream
  · rw [ha.frame]
    rfl
  · rw [← hpend, ← hcork]
    exact hn
  · rw [ha.frame]
    rfl
  · rw [ha.frame]
    rfl
  · rw [ha.frame]
    rfl

theorem Exact.queuedSend (ht : t = [] ∨ c.queue = []) (ha : Appends ((c.give t).offer (t ++ y) true) y d) :
    (d.queuedSend y.length).1.Exact := by
  obtain ⟨hn, hf⟩ := addPending_spec d y.length
  rw [Output.queuedSend, hf]
  exact h.accepts hr ht ha hn

theorem Exact.corkedSend
    (ha : Appends (c.offer y true) y d) : ({ d with corkedBytes := d.corkedBytes + y.length } : Output).Exact := by
  refine h.accepts hr (.inl rfl) ?_ (add_assoc _ _ _).symm
  rwa [give, append_nil]

/-- A send that ends with what the socket got at once. -/
theorem Exact.offered (ht : t = [] ∨ c.queue = []) (a : Bool) : ((c.give t).offer t a).Exact := by
  refine h.sends hr ((h.sound.give ht).offer t a) (y := []) ht ?_ rfl ?_ rfl rfl rfl rfl
  · rw [stream_offer, append_nil]
    rfl
  · simp [offer, give, queue]

end

theorem exact_sendRest (cfg : Config) (h : c.Exact) (hr : c.refuses = false) (data : Bytes) (mode : SendMode)
    (hle : sent ≤ data.length) (hs : sent = 0 ∨ c.queue = []) : (c.sendRest cfg data mode sent).1.Exact := by
  have ht : data.take sent = [] ∨ c.queue = [] := hs.imp (fun h => by simp [h]) id
  simp only [sendRest]
  split_ifs with hall hover
  · rw [hall, take_length] at ht ⊢
    exact (h.offered hr ht true).giveBack mode .written nofun
  · exact (h.offered hr ht false).giveBack mode .refused nofun
  · refine h.queuedSend hr ht ?_
    rw [take_append_drop]
    exact appends_queueMode cfg ((h.sound.give ht).offer data true) (lt_of_le_of_ne hle hall) mode

theorem writeDirect_le {len : ℕ} {socket : List Wrote} (h : writeDirect len socket = some n) : n ≤ len := by
  induction socket with
  | nil => simp [writeDirect] at h; omega
  | cons o os ih =>
    cases o with
    | took k => simp only [writeDirect, Option.some.injEq] at h; omega
    | intr => exact ih h
    | again => simp [writeDirect] at h; omega
    | fail => simp [writeDirect] at h

theorem Exact.queue_of_direct (h : c.Exact) (hd : c.canWriteDirectlyLocked = true) : c.queue = [] := by
  simp only [canWriteDirectlyLocked, Bool.and_eq_true] at hd
  exact (isEmpty_iff h.sound.head).1 hd.1.1

section
variable (cfg : Config)
include cfg

theorem exact_send (h : c.Exact) (data : Bytes) (mode : SendMode)
    (socket : List Wrote) : (c.send cfg data mode socket).1.Exact := by
  rw [send]
  by_cases hr : data = [] ∨ c.refuses
  · rw [if_pos hr]
    exact h.giveBack mode .refused nofun
  rw [if_neg hr]
  obtain ⟨hne, hr⟩ := not_or.1 hr
  rw [Bool.not_eq_true] at hr
  split_ifs with hcork hover hd
  · exact h
  · exact h.corkedSend hr (appends_queueLocked cfg (h.sound.offer data true) hne)
  · cases hw : writeDirect data.length socket with
    | none => exact h.giveBack mode .refused nofun
    | some sent => exact exact_sendRest cfg h hr data mode (writeDirect_le hw) (.inr (h.queue_of_direct hd))
  · exact exact_sendRest cfg h hr data mode (zero_le _) (.inl rfl)

theorem exact_sendPartsRest (h : c.Exact) (hr : c.refuses = false)
    (first second : Bytes) (shared : Bool) (hle : sent ≤ (first ++ second).length)
    (hs : sent = 0 ∨ c.queue = []) : (c.sendPartsRest cfg first second shared sent).1.Exact := by
  have ht : (first ++ second).take sent = [] ∨ c.queue = [] := hs.imp (fun h => by simp [h]) id
  simp only [sendPartsRest]
  split_ifs with hall hover
  · rw [hall, take_length] at ht ⊢
    exact h.offered hr ht true
  · exact h.offered hr ht false
  · rw [← length_drop]
    refine h.queuedSend hr ht ?_
    rw [take_append_drop]
    exact appends_queueParts cfg ((h.sound.give ht).offer _ true) (lt_of_le_of_ne hle hall) shared

theorem exact_sendParts (h : c.Exact) (first second : Bytes) (shared : Bool)
    (socket : List Wrote) : (c.sendParts cfg first second shared socket).1.Exact := by
  simp only [sendParts]
  by_cases hr : (first ++ second).length = 0 ∨ c.refuses
  · rwa [if_pos hr]
  rw [if_neg hr]
  obtain ⟨hne, hr⟩ := not_or.1 hr
  rw [Bool.not_eq_true] at hr
  split_ifs with hcork hover hsh hd
  · exact h
  · exact h.corkedSend hr (appends_queueSharedPartsLocked cfg (h.sound.offer _ true) first second)
  · exact h.corkedSend hr (appends_queueLocked cfg (h.sound.offer _ true) (fun he => hne (by rw [he]; rfl)))
  · cases hw : writeDirect (first ++ second).length socket with
    | none => exact h
    | some sent =>
      exact exact_sendPartsRest cfg h hr first second shared (writeDirect_le hw) (.inr (h.queue_of_direct hd))
  · exact exact_sendPartsRest cfg h hr first second shared (zero_le _) (.inl rfl)

/-! ### Flushing -/

theorem content_batch_take (c : Output) (hn : n ≤ (content (c.batch cfg)).length) :
    (content (c.batch cfg)).take n = (content c.queue).take n := by
  obtain ⟨k, hk⟩ : ∃ k, c.batch cfg = c.queue.take k := ⟨_, rfl⟩
  rw [hk] at hn ⊢
  have htake : (content (c.queue.take k) ++ content (c.queue.drop k)).take n = (content (c.queue.take k)).take n :=
    take_append_of_le_length hn
  rw [← htake, ← content_append, take_append_drop]

theorem length_content_batch (c : Output) : (content (c.batch cfg)).length ≤ (content c.queue).length := by
  have := congrArg length (content_batch_take cfg c le_rfl)
  rw [take_length, length_take] at this
  omega

theorem exact_wrote (h : c.Exact) (hq : c.queue ≠ [])
    (hn : n ≤ (content (c.batch cfg)).length) : (c.wrote cfg n).Exact := by
  have hlen := hn.trans (length_content_batch cfg c)
  have htook := content_batch_take cfg c hn
  set d := (c.give ((content (c.batch cfg)).take n)).subPending n with hd
  have hdq : d.queue = c.queue := rfl
  have htaken : d.taken = c.taken ++ (content c.queue).take n := by rw [← htook]; rfl
  have hdlen : d.taken.length = c.taken.length + n := by
    rw [htaken, length_append, length_take, Nat.min_eq_left hlen]
  have hr := consumes_consumeItems h.sound.live h.sound.marks hlen hdlen.ge
  rw [← hdq] at hr
  generalize hr' : consumeItems d.taken.length d.queue n = r at hr
  have hw : c.wrote cfg n = { d with
      sends := c.sends.take c.sendHead ++ r.items
      sendHead := c.sendHead + r.gone
      released := c.released ++ r.released } := by
    rw [wrote, ← hd, consumeLocked, hr']
    rfl
  have hhead : (c.sends.take c.sendHead).length = c.sendHead := by
    rw [length_take, Nat.min_eq_left h.sound.head]
  have hqueue : (c.wrote cfg n).queue = r.items.drop r.gone := by
    rw [hw]
    simp only [queue]
    rw [drop_append, hhead, drop_eq_nil_of_le (by omega), nil_append, Nat.add_sub_cancel_left]
  have hopen : c.closed = false := by
    by_contra hc
    exact hq (h.dropped (by simpa using hc)).2
  have hstream : (c.wrote cfg n).stream = (c.wrote cfg n).taken ++ content (c.wrote cfg n).queue := by
    rw [hqueue, hr.left, hdq, hw]
    show c.stream = d.taken ++ _
    rw [htaken, append_assoc, take_append_drop, h.stream hopen]
  refine ⟨⟨?_, ?_, ?_, ?_, ?_, ?_⟩, fun _ => hstream, hstream ▸ prefix_append _ _, ?_, ?_, ?_, ?_⟩
  · rw [hw]
    have := hr.gone
    have := h.sound.head
    simp only [length_append, length_take]
    omega
  · rw [hw]
    rw [take_append, hhead, Nat.add_sub_cancel_left, take_take, Nat.min_eq_right (Nat.le_add_right _ _)]
    exact forall_mem_append.2 ⟨h.sound.cleared, hr.cleared⟩
  · rw [hqueue]
    exact hr.live
  · rw [hqueue]
    have : (c.wrote cfg n).taken.length = c.taken.length + n := by rw [hw, ← hdlen]
    rw [this]
    exact hr.marks
  · rw [hqueue, hw]
    simp only [map_append, append_assoc, hr.buffers, hdq]
    exact h.sound.once
  · rw [hw]
    intro x hx
    rcases mem_append.1 hx with hx | hx
    · exact h.sound.timely x hx
    · obtain ⟨hcause, hle⟩ := hr.timely x hx
      simp only [Timely, hcause]
      exact hle
  · rw [hqueue, hr.left, hdq, length_drop, hw]
    have := h.counted
    show c.pendingBytes + c.corkedBytes - n + 0 = _
    omega
  · rw [hw]
    intro hc
    exact absurd (h.dropped hc).2 hq
  · rw [hw]
    intro hc
    exact absurd (h.due hc).2 hq
  · rw [hw]
    intro hc
    exact absurd (h.bySend hc).2.1 hq

end

theorem exact_drain (h : c.Exact) (hq : c.queue = []) : c.drain.Exact := by
  have hcount := h.counted
  rw [hq] at hcount
  refine ⟨⟨le_rfl, nofun, nofun, trivial, ?_, h.sound.timely⟩, ?_, h.inOrder, ?_, ?_, ?_, ?_⟩
  · have honce := h.sound.once
    rw [hq] at honce
    exact honce
  · intro hc
    have hs := h.stream hc
    rwa [hq] at hs
  · show c.pendingBytes + c.corkedBytes + 0 = 0
    simpa using hcount
  · exact fun hc => ⟨(h.dropped hc).1, rfl⟩
  · intro hc
    refine ⟨?_, rfl⟩
    rcases Bool.or_eq_true_iff.1 hc with hc | hc
    · exact (h.due hc).1
    · exact hc
  · exact fun hc => ⟨(h.bySend hc).1, rfl, (h.bySend hc).2.2⟩

theorem Exact.await (h : c.Exact) : c.await.Exact :=
  h.foldCorkedLocked.flags false c.corked c.writeShut

theorem Exact.queue_ne_nil (h : c.Exact) (he : ¬ c.isEmpty = true) : c.queue ≠ [] := fun hq =>
  he ((isEmpty_iff h.sound.head).2 hq)

section
variable (cfg : Config) (h : c.Exact) (socket : List Wrote)
include cfg h socket

theorem exact_flushLoop : (c.flushLoop cfg socket).1.Exact := by
  fun_induction flushLoop cfg c socket with
  | case1 c socket he => exact exact_drain h ((isEmpty_iff h.sound.head).1 he)
  | case2 | case4 => exact h.await
  | case3 c he os ih => exact ih h
  | case5 c | case6 c => exact h.flags false c.corked c.writeShut
  | case7 c he n os attempted h0 hlt => exact (exact_wrote cfg h (h.queue_ne_nil he) hlt.le).await
  | case8 c he n os attempted h0 hlt hall ih => exact ih (exact_wrote cfg h (h.queue_ne_nil he) le_rfl)
  | case9 c he => exact exact_wrote cfg h (h.queue_ne_nil he) le_rfl

theorem exact_flushLocked : (c.flushLocked cfg socket).1.Exact := by
  rw [flushLocked]
  split_ifs
  · exact h
  · exact h.foldCorkedLocked
  · exact exact_flushLoop cfg (h.flags true c.corked c.writeShut) socket

theorem exact_uncork : (c.uncork cfg socket).1.Exact := by
  have hd : ({ c with corked := false } : Output).foldCorkedLocked.Exact :=
    (h.flags c.flushing false c.writeShut).foldCorkedLocked
  simp only [uncork]
  split_ifs
  · exact hd
  · exact exact_flushLocked cfg hd socket

end

/-! ### The end -/

theorem exact_closeAfterSendRaw (h : c.Exact) : c.closeAfterSendRaw.Exact := by
  rw [closeAfterSendRaw]
  split_ifs with hc
  · exact h
  refine { h with sound := h.sound.congr rfl rfl rfl rfl rfl id, due := ?_ }
  intro hd
  refine ⟨rfl, ?_⟩
  simp only [Bool.or_eq_true, Bool.and_eq_true] at hd
  rcases hd with hd | hd
  · exact (h.due hd).2
  · exact (isEmpty_iff h.sound.head).1 hd.1

theorem exact_finishClose (h : c.Exact) : c.finishClose.Exact := by
  rw [finishClose]
  split_ifs with hd
  · refine ⟨h.sound.congr rfl rfl rfl rfl rfl id, h.stream, h.inOrder, h.counted, fun hc => ⟨rfl, (h.dropped hc).2⟩,
      nofun, fun hb => ?_⟩
    simp only [Bool.or_eq_true, Bool.not_eq_true', Bool.or_eq_false_iff] at hb
    have hq := (h.due hd).2
    refine ⟨rfl, hq, ?_⟩
    rcases hb with hb | ⟨_, hopen⟩
    · exact (h.bySend hb).2.2
    · -- the connection is still open, so nothing was dropped
      have hs := h.stream hopen
      rw [hq, content_nil, append_nil] at hs
      exact hs.symm
  · exact h

theorem exact_closeWithError (h : c.Exact) : c.closeWithError.Exact :=
  ⟨h.sound.congr rfl rfl rfl rfl rfl id, h.stream, h.inOrder, h.counted, fun hc => ⟨rfl, (h.dropped hc).2⟩, h.due,
    fun hb => ⟨rfl, (h.bySend hb).2⟩⟩

theorem exact_markClosedLocked (h : c.Exact) : c.markClosedLocked.Exact := by
  refine ⟨⟨le_rfl, nofun, nofun, trivial, ?_, ?_⟩, nofun, h.inOrder, rfl, fun _ => ⟨rfl, rfl⟩,
    fun hd => ⟨(h.due hd).1, rfl⟩, fun hb => ⟨rfl, rfl, (h.bySend hb).2.2⟩⟩
  · have hbuf : (c.queue.filterMap (releaseOf .dropped c.taken.length)).map buf = buffersOf c.queue := by
      rw [buffersOf, map_filterMap]
      congr 1
      funext i
      cases hp : i.pooled <;> simp [releaseOf, hp]
    show ((c.released ++ _).map buf ++ []).Perm (range c.buffers)
    rw [append_nil, map_append, hbuf]
    exact h.sound.once
  · intro r hr
    rcases mem_append.1 hr with hr | hr
    · have ht := h.sound.timely r hr
      simp only [Timely] at ht ⊢
      cases hcause : r.cause <;> simp only [hcause] at ht ⊢
      · exact ht
      · rfl
    · obtain ⟨i, _, hi⟩ := mem_filterMap.1 hr
      simp only [releaseOf, Option.map_eq_some_iff] at hi
      obtain ⟨b, _, rfl⟩ := hi
      rfl

theorem exact_step (cfg : Config) (h : c.Exact) (op : Op) : (c.step cfg op).Exact := by
  rw [step]
  cases op with
  | send data mode socket => exact exact_send cfg h data mode socket
  | sendParts first second shared socket => exact exact_sendParts cfg h first second shared socket
  | cork => exact h.flags c.flushing true c.writeShut
  | uncork socket => exact exact_uncork cfg h socket
  | flushOutput socket => exact exact_flushLocked cfg h socket
  | resume socket =>
    simp only [act, resume]
    split_ifs
    · exact exact_flushLoop cfg h socket
    · exact h
  | closeAfterSend => exact exact_closeAfterSendRaw h
  | finishClose => exact exact_finishClose h
  | closeWithError => exact exact_closeWithError h
  | closeWrite => exact h.flags c.flushing c.corked true
  | markClosed =>
    simp only [act]
    split_ifs
    · exact h
    · exact exact_markClosedLocked h

/-! ### Refused sends -/

/-- Every send that reached the socket or the queue was accepted. -/
def AllAccepted (c : Output) : Prop := ∀ o ∈ c.offers, o.accepted = true

theorem offers_makeRoom (c : Output) : c.makeRoom.offers = c.offers := by
  simp only [makeRoom]
  split_ifs <;> rfl

theorem offers_pushLocked (c : Output) (i : SendItem) : (c.pushLocked i).offers = c.offers := offers_makeRoom c

theorem offers_queueLocked (cfg : Config) (c : Output) (data : Bytes) : (c.queueLocked cfg data).offers = c.offers := by
  rw [queueLocked]
  split
  · rfl
  · exact offers_pushLocked _ _

theorem offers_queueSharedPartsLocked (cfg : Config) (c : Output) (first second : Bytes) :
    (c.queueSharedPartsLocked cfg first second).offers = c.offers := by
  simp only [queueSharedPartsLocked]
  split_ifs
  · exact (offers_pushLocked _ _).trans (offers_queueLocked cfg c first)
  · exact offers_pushLocked _ _
  · exact offers_queueLocked cfg c first
  · rfl

theorem offers_queueMode (cfg : Config) (c : Output) (data : Bytes) (sent : ℕ) (mode : SendMode) :
    (c.queueMode cfg data sent mode).offers = c.offers := by
  cases mode with
  | copy => exact offers_queueLocked cfg c _
  | owned => exact offers_pushLocked _ _
  | pooled cap => exact offers_pushLocked _ _

theorem offers_queueParts (cfg : Config) (c : Output) (first second : Bytes) (shared : Bool) (sent : ℕ) :
    (c.queueParts cfg first second shared sent).offers = c.offers := by
  rw [queueParts]
  split_ifs
  · exact offers_queueSharedPartsLocked cfg c _ _
  · exact offers_queueSharedPartsLocked cfg c _ _
  · exact offers_queueLocked cfg c _
  · exact offers_queueLocked cfg c _

theorem offers_queuedSend (c : Output) (n : ℕ) : (c.queuedSend n).1.offers = c.offers := by
  rw [queuedSend, (addPending_spec c n).2]

theorem offers_giveBack (c : Output) (mode : SendMode) (cause : Cause) : (c.giveBack mode cause).offers = c.offers := by
  cases mode <;> rfl

theorem offers_flushLoop (cfg : Config) (c : Output) (socket : List Wrote) :
    (c.flushLoop cfg socket).1.offers = c.offers := by
  fun_induction flushLoop cfg c socket <;> first | rfl | assumption

theorem offers_flushLocked (cfg : Config) (c : Output) (socket : List Wrote) :
    (c.flushLocked cfg socket).1.offers = c.offers := by
  rw [flushLocked]
  split_ifs
  · rfl
  · rfl
  · exact offers_flushLoop cfg _ socket

theorem AllAccepted.offer (h : c.AllAccepted) {bytes : Bytes}
    (hd : d.offers = c.offers ++ [⟨bytes, true⟩]) : d.AllAccepted := by
  rw [AllAccepted, hd]
  exact forall_mem_append.2 ⟨h, by simp⟩

theorem not_sendQueueOverLocked {cfg : Config} (hcfg : cfg.writeQueueLimit = 0) (c : Output) (n : ℕ) :
    c.sendQueueOverLocked cfg n = false := by
  simp [sendQueueOverLocked, hcfg]

section Unlimited
variable {cfg : Config} (hcfg : cfg.writeQueueLimit = 0)
include hcfg
variable {c : Output} (h : c.AllAccepted)
include h

theorem allAccepted_sendRest (data : Bytes) (mode : SendMode) (sent : ℕ) :
    (c.sendRest cfg data mode sent).1.AllAccepted := by
  simp only [sendRest, not_sendQueueOverLocked hcfg, Bool.false_eq_true, if_false]
  split_ifs
  · exact h.offer (offers_giveBack _ _ _)
  · exact h.offer ((offers_queuedSend _ _).trans (offers_queueMode cfg _ _ _ _))

theorem allAccepted_send (data : Bytes) (mode : SendMode) (socket : List Wrote) :
    (c.send cfg data mode socket).1.AllAccepted := by
  simp only [send, not_sendQueueOverLocked hcfg, Bool.false_eq_true, if_false]
  have hback : (c.giveBack mode .refused).AllAccepted := by rwa [AllAccepted, offers_giveBack]
  split_ifs
  · exact hback
  · exact h.offer (offers_queueLocked cfg _ data)
  · cases writeDirect data.length socket with
    | none => exact hback
    | some sent => exact allAccepted_sendRest hcfg h data mode sent
  · exact allAccepted_sendRest hcfg h data mode 0

theorem allAccepted_sendPartsRest (first second : Bytes) (shared : Bool)
    (sent : ℕ) : (c.sendPartsRest cfg first second shared sent).1.AllAccepted := by
  simp only [sendPartsRest, not_sendQueueOverLocked hcfg, Bool.false_eq_true, if_false]
  split_ifs
  · exact h.offer rfl
  · exact h.offer ((offers_queuedSend _ _).trans (offers_queueParts cfg _ _ _ _ _))

theorem allAccepted_sendParts (first second : Bytes) (shared : Bool)
    (socket : List Wrote) : (c.sendParts cfg first second shared socket).1.AllAccepted := by
  simp only [sendParts, not_sendQueueOverLocked hcfg, Bool.false_eq_true, if_false]
  split_ifs
  · exact h
  · exact h.offer (offers_queueSharedPartsLocked cfg _ first second)
  · exact h.offer (offers_queueLocked cfg _ _)
  · cases writeDirect (first ++ second).length socket with
    | none => exact h
    | some sent => exact allAccepted_sendPartsRest hcfg h first second shared sent
  · exact allAccepted_sendPartsRest hcfg h first second shared 0

theorem allAccepted_step (op : Op) : (c.step cfg op).AllAccepted := by
  rw [step]
  cases op with
  | send data mode socket => exact allAccepted_send hcfg h data mode socket
  | sendParts first second shared socket => exact allAccepted_sendParts hcfg h first second shared socket
  | cork => exact h
  | uncork socket =>
    simp only [act, uncork]
    split_ifs
    · exact h
    · rw [AllAccepted, offers_flushLocked]
      exact h
  | flushOutput socket =>
    simp only [act]
    rwa [AllAccepted, offers_flushLocked]
  | resume socket =>
    simp only [act, resume]
    split_ifs
    · rwa [AllAccepted, offers_flushLoop]
    · exact h
  | closeAfterSend =>
    simp only [act, closeAfterSendRaw]
    split_ifs <;> exact h
  | finishClose =>
    simp only [act, finishClose]
    split_ifs <;> exact h
  | closeWithError => exact h
  | closeWrite => exact h
  | markClosed =>
    simp only [act]
    split_ifs <;> exact h

end Unlimited

variable {c : Output}

theorem AllAccepted.stream (h : c.AllAccepted) : c.stream = c.acceptedBytes := by
  rw [Output.stream, acceptedBytes, filter_eq_self.2 h]

/-! ### Every run -/

/-- What the socket has is a prefix of the sends, the rest is counted, each buffer is queued or was given back once,
in time, and `CloseAfterSend` left nothing behind. -/
structure Delivered (c : Output) : Prop where
  inOrder : c.taken <+: c.stream
  counted : c.closed = false → c.taken.length + (c.pendingBytes + c.corkedBytes) = c.stream.length
  once : (c.released.map buf ++ buffersOf c.queue).Perm (range c.buffers)
  timely : ∀ r ∈ c.released, c.Timely r
  drained : c.closedBySend = true → c.taken = c.stream

theorem Exact.delivered (h : c.Exact) : c.Delivered where
  inOrder := h.inOrder
  counted := fun hc => by rw [h.stream hc, h.counted, length_append]
  once := h.sound.once
  timely := h.sound.timely
  drained := fun hb => (h.bySend hb).2.2

end Output

/-- Whatever is sent, corked, flushed and closed, and whatever the socket answers, its bytes are the sends' in their
order; without a limit on the queue they are those of the accepted sends alone. -/
theorem output_delivered (cfg : Config) (ops : List Output.Op) : ((output cfg).run ops).Delivered ∧
      (cfg.writeQueueLimit = 0 → ((output cfg).run ops).stream = ((output cfg).run ops).acceptedBytes) := by
  refine ⟨?_, fun hcfg => ?_⟩
  · have h := Machine.invariant_all (m := output cfg) (I := Output.Exact) Output.exact_init
      (fun c op h => Output.exact_step cfg h op) ops
    exact h.delivered
  · have h := Machine.invariant_all (m := output cfg) (I := Output.AllAccepted) nofun
      (fun c op h => Output.allAccepted_step hcfg h op) ops
    exact h.stream

/-- A queue that holds one byte: the socket takes the first of three bytes, and the send is refused for the two it
leaves. -/
theorem refused_send_partly_taken :
    ¬ ((output { writeQueueLimit := 1 }).run [.send [1, 2, 3] .copy [.took 1]]).taken <+:
      ((output { writeQueueLimit := 1 }).run [.send [1, 2, 3] .copy [.took 1]]).acceptedBytes := by
  decide

end Fib.Core
