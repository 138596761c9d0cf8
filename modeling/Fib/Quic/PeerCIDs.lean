import Fib.Quic.Varint
import Fib.Lib.Runs

/-! The connection IDs a peer offers (`handleNewConnectionID` and `retireQueued` in http3/quic/frames.go). Frames come
in any order and more than once, retire IDs, and may retire the one in use. A run is any sequence of them, with the
RETIRE_CONNECTION_ID frames that are sent and lost between. -/

namespace Fib.Quic
open Prod List

def maxCIDLen : ℕ := 20

structure PeerCID where
  cid : Bytes
  token : Bytes
deriving DecidableEq

structure NewCID where
  seq : ℕ
  retirePrior : ℕ
  cid : Bytes
  token : Bytes
deriving DecidableEq

/-- The frame, of a length byte, the ID and a reset token of 16 bytes; none if it is cut short. -/
def readNewCID (b : Bytes) : Option NewCID := do
  let (seq, b) ← readVarint b
  let (retirePrior, b) ← readVarint b
  match b with
  | [] => none
  | n :: b =>
    if b.length < n.toNat + 16 then none
    else some ⟨seq, retirePrior, b.take n.toNat, (b.drop n.toNat).take 16⟩

inductive CidError where
  | malformedFrame
  | malformed
  | zeroLength
  | reused
  | tooMany
  | tooManyToRetire
  | flood
deriving DecidableEq

/-- The error code and reason the connection closes with; a flood has the application's code, if it has one. -/
def CidError.code (excessiveLoadCode : ℕ) : CidError → ℕ × String
  | malformedFrame => (0x07, "malformed frame")
  | malformed => (0x07, "malformed NEW_CONNECTION_ID")
  | zeroLength => (0x0a, "NEW_CONNECTION_ID with a zero-length connection ID")
  | reused => (0x0a, "connection ID sequence number reused")
  | tooMany => (0x09, "too many connection IDs")
  | tooManyToRetire => (0x09, "too many connection IDs to retire")
  | flood => (if excessiveLoadCode ≠ 0 then excessiveLoadCode else 0x0a, "too many frames that ask for nothing")

/-- What a connection keeps of its peer's connection IDs. The map's entries are in no order. -/
structure CidState where
  dcid : Bytes
  dcidSeq : ℕ := 0
  retiredPrior : ℕ := 0
  peerCIDs : List (ℕ × PeerCID)
  retireCIDs : List ℕ := []
  peerResetToken : Bytes := []
deriving DecidableEq

namespace CidState
variable (s : CidState)

def peerCID (seq : ℕ) : Option PeerCID := (s.peerCIDs.find? fun x => x.1 = seq).map snd

def retireQueued (limit : ℕ) (s : CidState) : Option CidError :=
  if max (4 * min limit (2 ^ 10)) 16 < s.retireCIDs.length then some .tooManyToRetire else none

def requeue (seq : ℕ) : CidState :=
  if seq ∈ s.retireCIDs then s else { s with retireCIDs := s.retireCIDs ++ [seq] }

def keep (f : NewCID) : CidState := { s with peerCIDs := (f.seq, ⟨f.cid, f.token⟩) :: s.peerCIDs }

def moveOn : CidState :=
  let next := (s.peerCIDs.map fst).foldl min (2 ^ 64 - 1)
  if next = 2 ^ 64 - 1 then s
  else
    { s with
      dcidSeq := next
      dcid := ((s.peerCID next).map PeerCID.cid).getD []
      peerResetToken := ((s.peerCID next).map PeerCID.token).getD [] }

/-- The IDs below `prior` go, and are queued in the order the map gave them. -/
def drop (prior : ℕ) (order : List ℕ) : CidState :=
  let gone := (s.peerCIDs.filter fun x => x.1 < prior).map fst
  { s with
    retiredPrior := prior
    peerCIDs := s.peerCIDs.filter fun x => ¬ x.1 < prior
    retireCIDs := s.retireCIDs ++ if order.Perm gone then order else gone }

def retire (prior : ℕ) (order : List ℕ) : CidState :=
  if s.retiredPrior < prior then
    if s.dcidSeq < prior then (s.drop prior order).moveOn else s.drop prior order
  else s

/-- `handleNewConnectionID` of the frame at the front of `b`. `flooded` is that `glitch` has had enough, and `order`
the order in which the map gives the IDs that are retired. -/
def handleNewConnectionID (limit : ℕ) (s : CidState) (b : Bytes) (flooded : Bool) (order : List ℕ) :
    CidState × Option CidError :=
  match readNewCID b with
  | none => (s, some .malformedFrame)
  | some f =>
    if f.cid.length = 0 ∨ maxCIDLen < f.cid.length ∨ f.seq < f.retirePrior then (s, some .malformed)
    else if s.dcid.length = 0 then (s, some .zeroLength)
    else if f.seq < s.retiredPrior then
      if flooded then (s.requeue f.seq, some .flood) else (s.requeue f.seq, (s.requeue f.seq).retireQueued limit)
    else
      match s.peerCID f.seq with
      | some old => if old.cid = f.cid then (s, none) else (s, some .reused)
      | none =>
        let s := (s.keep f).retire f.retirePrior order
        if limit < s.peerCIDs.length then (s, some .tooMany) else (s, s.retireQueued limit)

end CidState

inductive CidOp where
  | frame (b : Bytes) (flooded : Bool) (order : List ℕ)
  /-- A RETIRE_CONNECTION_ID frame is sent of the first that waits. -/
  | send
  /-- The `i`th that was sent is lost. -/
  | lost (i : ℕ)
deriving DecidableEq

/-- A connection with its history. Not in the source: the sequence numbers offered, and those taken for sending. -/
structure CidRun where
  conn : CidState
  offered : List ℕ
  taken : List ℕ := []
  closed : Option CidError := none
deriving DecidableEq

namespace CidRun

/-- The connection starts with the ID of the handshake, of sequence number 0. A server gave a reset token with it. -/
def init (dcid token : Bytes) : CidRun := ⟨⟨dcid, 0, 0, [(0, ⟨dcid, token⟩)], [], token⟩, [0], [], none⟩

def step (limit : ℕ) (r : CidRun) (op : CidOp) : CidRun :=
  if r.closed ≠ none then r
  else
    match op with
    | .frame b flooded order =>
      { r with
        conn := (r.conn.handleNewConnectionID limit b flooded order).1
        offered := r.offered ++ ((readNewCID b).map NewCID.seq).toList
        closed := (r.conn.handleNewConnectionID limit b flooded order).2 }
    | .send =>
      match r.conn.retireCIDs with
      | [] => r
      | seq :: rest => { r with conn := { r.conn with retireCIDs := rest }, taken := r.taken ++ [seq] }
    | .lost i =>
      match r.taken[i]? with
      | none => r
      | some seq => { r with conn := { r.conn with retireCIDs := r.conn.retireCIDs ++ [seq] } }

def machine (limit : ℕ) (dcid token : Bytes) : Machine CidRun CidOp := ⟨init dcid token, step limit⟩

end CidRun

/-- The IDs a connection holds, and where the one it uses is among them. -/
structure CidState.Holds (s : CidState) : Prop where
  nodup : (s.peerCIDs.map fst).Nodup
  small : ∀ x ∈ s.peerCIDs, x.1 < 2 ^ 62
  force : ∀ x ∈ s.peerCIDs, s.retiredPrior ≤ x.1
  inUse : ∃ pc, (s.dcidSeq, pc) ∈ s.peerCIDs ∧ pc.cid = s.dcid

/-- Every sequence number offered is held, or was retired and queued. -/
def Accounted (s : CidState) (offered taken : List ℕ) : Prop :=
  ∀ seq ∈ offered, seq ∈ s.peerCIDs.map fst ∨ seq < s.retiredPrior ∧ (seq ∈ s.retireCIDs ∨ seq ∈ taken)

namespace CidState
variable {s : CidState} {f : NewCID} {limit prior seq : ℕ} {order offered taken : List ℕ} {b : Bytes}

theorem readNewCID_seq_lt (h : readNewCID b = some f) : f.seq < 2 ^ 62 := by
  obtain ⟨⟨seq, b₁⟩, hseq, h⟩ := Option.bind_eq_some_iff.1 h
  obtain ⟨⟨prior, b₂⟩, -, h⟩ := Option.bind_eq_some_iff.1 h
  dsimp only at h
  split at h
  · simp at h
  · split_ifs at h
    rw [← Option.some.inj h]
    exact readVarint_lt hseq

theorem peerCID_eq_none : s.peerCID seq = none ↔ seq ∉ s.peerCIDs.map fst := by
  unfold peerCID
  rw [Option.map_eq_none_iff, find?_eq_none]
  constructor
  · intro h hin
    obtain ⟨x, hx, rfl⟩ := mem_map.1 hin
    exact h x hx (decide_eq_true rfl)
  · intro h x hx hseq
    exact h (mem_map.2 ⟨x, hx, of_decide_eq_true hseq⟩)

theorem peerCID_of_mem (h : (s.peerCIDs.map fst).Nodup) {pc : PeerCID} (hm : (seq, pc) ∈ s.peerCIDs) :
    s.peerCID seq = some pc := by
  unfold peerCID
  cases hf : s.peerCIDs.find? fun x => x.1 = seq with
  | none => exact absurd (find?_eq_none.1 hf _ hm) (by simp)
  | some x =>
    have hx : x.1 = seq := by simpa using find?_some hf
    have heq := inj_on_of_nodup_map h (mem_of_find?_eq_some hf) hm hx
    rw [heq]
    rfl

/-! ### The lowest ID in force -/

theorem foldl_min_le (l : List ℕ) (a : ℕ) : l.foldl min a ≤ a ∧ ∀ x ∈ l, l.foldl min a ≤ x := by
  induction l generalizing a with
  | nil => exact ⟨le_rfl, fun x hx => absurd hx not_mem_nil⟩
  | cons y l ih =>
    obtain ⟨ha, hl⟩ := ih (min a y)
    rw [foldl_cons]
    refine ⟨ha.trans (min_le_left _ _), fun x hx => ?_⟩
    rcases mem_cons.1 hx with rfl | hx
    · exact ha.trans (min_le_right _ _)
    · exact hl x hx

theorem foldl_min_mem (l : List ℕ) (a : ℕ) : l.foldl min a = a ∨ l.foldl min a ∈ l := by
  induction l generalizing a with
  | nil => exact .inl rfl
  | cons y l ih =>
    rw [foldl_cons]
    rcases ih (min a y) with h | h
    · rw [h]
      rcases min_choice a y with hm | hm
      · exact .inl hm
      · exact .inr (by rw [hm]; exact mem_cons_self ..)
    · exact .inr (mem_cons_of_mem _ h)

@[simp] theorem moveOn_keeps : s.moveOn.peerCIDs = s.peerCIDs ∧ s.moveOn.retiredPrior = s.retiredPrior ∧
    s.moveOn.retireCIDs = s.retireCIDs := by
  unfold moveOn
  dsimp only
  split_ifs <;> exact ⟨rfl, rfl, rfl⟩

theorem moveOn_inUse (hn : (s.peerCIDs.map fst).Nodup) (hs : ∀ x ∈ s.peerCIDs, x.1 < 2 ^ 62)
    (hne : s.peerCIDs ≠ []) : ∃ pc, (s.moveOn.dcidSeq, pc) ∈ s.peerCIDs ∧ pc.cid = s.moveOn.dcid := by
  obtain ⟨x, hx⟩ := exists_mem_of_ne_nil _ hne
  have hle := (foldl_min_le (s.peerCIDs.map fst) (2 ^ 64 - 1)).2 x.1 (mem_map_of_mem hx)
  have hlt := hs x hx
  have hnext : (s.peerCIDs.map fst).foldl min (2 ^ 64 - 1) ≠ 2 ^ 64 - 1 := by omega
  have hmem := (foldl_min_mem (s.peerCIDs.map fst) (2 ^ 64 - 1)).resolve_left hnext
  obtain ⟨y, hy, hyn⟩ := mem_map.1 hmem
  obtain ⟨n, pc⟩ := y
  obtain rfl : n = (s.peerCIDs.map fst).foldl min (2 ^ 64 - 1) := hyn
  refine ⟨pc, ?_⟩
  unfold moveOn
  rw [if_neg hnext, peerCID_of_mem hn hy]
  exact ⟨hy, rfl⟩

/-! ### One frame -/

theorem mem_drop_peerCIDs {x : ℕ × PeerCID} : x ∈ (s.drop prior order).peerCIDs ↔ x ∈ s.peerCIDs ∧ prior ≤ x.1 := by
  simp [drop, mem_filter]

theorem nodup_drop (h : (s.peerCIDs.map fst).Nodup) : ((s.drop prior order).peerCIDs.map fst).Nodup :=
  h.sublist ((filter_sublist).map _)

theorem mem_drop_retireCIDs : seq ∈ (s.drop prior order).retireCIDs ↔
      seq ∈ s.retireCIDs ∨ seq < prior ∧ seq ∈ s.peerCIDs.map fst := by
  have hgone : ∀ l : List ℕ, seq ∈ (if order.Perm l then order else l) ↔ seq ∈ l := by
    intro l
    split_ifs with hp
    · exact hp.mem_iff
    · rfl
  simp only [drop]
  rw [mem_append, hgone, mem_map, mem_map]
  refine or_congr_right ⟨?_, ?_⟩
  · rintro ⟨x, hx, rfl⟩
    obtain ⟨hin, hlt⟩ := mem_filter.1 hx
    exact ⟨of_decide_eq_true hlt, x, hin, rfl⟩
  · rintro ⟨hlt, x, hx, rfl⟩
    exact ⟨x, mem_filter.2 ⟨hx, decide_eq_true hlt⟩, rfl⟩

theorem retire_fields (order : List ℕ) (hp : s.retiredPrior < prior) :
    (s.retire prior order).peerCIDs = (s.drop prior order).peerCIDs ∧ (s.retire prior order).retiredPrior = prior ∧
      (s.retire prior order).retireCIDs = (s.drop prior order).retireCIDs := by
  unfold retire
  rw [if_pos hp]
  split_ifs
  · exact moveOn_keeps
  · exact ⟨rfl, rfl, rfl⟩

/-- IDs are retired, and the one in use is among those left, of which there is one at or past `prior`. -/
theorem holds_retire (h : Holds s) (hx : ∃ x ∈ s.peerCIDs, prior ≤ x.1) : Holds (s.retire prior order) := by
  by_cases hp : s.retiredPrior < prior
  · obtain ⟨hcids, hprior, -⟩ := retire_fields order hp
    have hin : ∀ x ∈ (s.drop prior order).peerCIDs, x ∈ s.peerCIDs := fun x hx => (mem_drop_peerCIDs.1 hx).1
    refine ⟨by rw [hcids]; exact nodup_drop h.nodup, fun x hx => ?_, fun x hx => ?_, ?_⟩
    · rw [hcids] at hx
      exact h.small x (hin x hx)
    · rw [hcids] at hx
      rw [hprior]
      exact (mem_drop_peerCIDs.1 hx).2
    rw [hcids]
    unfold retire
    rw [if_pos hp]
    split_ifs with hd
    · obtain ⟨x, hx, hle⟩ := hx
      have hne : (s.drop prior order).peerCIDs ≠ [] := ne_nil_of_mem (mem_drop_peerCIDs.2 ⟨hx, hle⟩)
      exact moveOn_inUse (nodup_drop h.nodup) (fun y hy => h.small y (hin y hy)) hne
    · obtain ⟨pc, hpc, hcid⟩ := h.inUse
      exact ⟨pc, mem_drop_peerCIDs.2 ⟨hpc, not_lt.1 hd⟩, hcid⟩
  · unfold retire
    rw [if_neg hp]
    exact h

theorem holds_keep (h : Holds s) (hseq : s.retiredPrior ≤ f.seq) (hsmall : f.seq < 2 ^ 62)
    (hnew : f.seq ∉ s.peerCIDs.map fst) : Holds (s.keep f) := by
  refine ⟨nodup_cons.2 ⟨hnew, h.nodup⟩, fun x hx => ?_, fun x hx => ?_, ?_⟩
  · rcases mem_cons.1 hx with rfl | hx
    · exact hsmall
    · exact h.small x hx
  · rcases mem_cons.1 hx with rfl | hx
    · exact hseq
    · exact h.force x hx
  · obtain ⟨pc, hpc, hcid⟩ := h.inUse
    exact ⟨pc, mem_cons_of_mem _ hpc, hcid⟩

theorem accounted_retire (h : Accounted s offered taken) : Accounted (s.retire prior order) offered taken := by
  by_cases hp : s.retiredPrior < prior
  · obtain ⟨hcids, hprior, hretire⟩ := retire_fields order hp
    intro seq hseq
    rw [hcids, hprior, hretire, mem_drop_retireCIDs]
    rcases h seq hseq with hin | ⟨hlt, hq⟩
    · by_cases hs : seq < prior
      · exact .inr ⟨hs, .inl (.inr ⟨hs, hin⟩)⟩
      · obtain ⟨x, hx, rfl⟩ := mem_map.1 hin
        exact .inl (mem_map_of_mem (mem_drop_peerCIDs.2 ⟨hx, not_lt.1 hs⟩))
    · exact .inr ⟨by omega, hq.imp_left .inl⟩
  · unfold retire
    rw [if_neg hp]
    exact h

theorem accounted_keep (h : Accounted s offered taken) : Accounted (s.keep f) (offered ++ [f.seq]) taken := by
  intro seq hseq
  rcases mem_append.1 hseq with hseq | hseq
  · exact (h seq hseq).imp_left fun hin => mem_cons_of_mem _ hin
  · rw [mem_singleton.1 hseq]
    exact .inl (mem_cons_self ..)

theorem mem_requeue : seq ∈ (s.requeue seq).retireCIDs := by
  unfold requeue
  split_ifs with hin
  · exact hin
  · exact mem_append_right _ (mem_cons_self ..)

theorem requeue_fields (seq : ℕ) : (s.requeue seq).peerCIDs = s.peerCIDs ∧
    (s.requeue seq).retiredPrior = s.retiredPrior ∧ (s.requeue seq).dcid = s.dcid ∧
    (s.requeue seq).dcidSeq = s.dcidSeq ∧ s.retireCIDs ⊆ (s.requeue seq).retireCIDs := by
  unfold requeue
  split_ifs
  · exact ⟨rfl, rfl, rfl, rfl, fun _ h => h⟩
  · exact ⟨rfl, rfl, rfl, rfl, fun _ h => mem_append_left _ h⟩

theorem handle_spec {flooded : Bool} (h : Holds s) (hl : s.peerCIDs.length ≤ limit)
    (ha : Accounted s offered taken) (hok : (s.handleNewConnectionID limit b flooded order).2 = none) :
    Holds (s.handleNewConnectionID limit b flooded order).1 ∧
      (s.handleNewConnectionID limit b flooded order).1.peerCIDs.length ≤ limit ∧
      Accounted (s.handleNewConnectionID limit b flooded order).1
        (offered ++ ((readNewCID b).map NewCID.seq).toList) taken := by
  unfold handleNewConnectionID at hok ⊢
  cases hb : readNewCID b with
  | none => simp [hb] at hok
  | some f =>
    have hsmall := readNewCID_seq_lt hb
    simp only [hb, Option.map_some, Option.toList_some] at hok ⊢
    by_cases hbad : f.cid.length = 0 ∨ maxCIDLen < f.cid.length ∨ f.seq < f.retirePrior
    · rw [if_pos hbad] at hok
      exact absurd hok (Option.some_ne_none _)
    rw [if_neg hbad] at hok ⊢
    by_cases hzero : s.dcid.length = 0
    · rw [if_pos hzero] at hok
      exact absurd hok (Option.some_ne_none _)
    rw [if_neg hzero] at hok ⊢
    by_cases hold : f.seq < s.retiredPrior
    · -- retired before: it is queued again, if it does not wait already
      rw [if_pos hold] at hok ⊢
      cases flooded with
      | true => simp at hok
      | false =>
        rw [if_neg Bool.false_ne_true]
        obtain ⟨hcids, hprior, hdcid, hseq, hsub⟩ := requeue_fields f.seq
        refine ⟨⟨?_, ?_, ?_, ?_⟩, ?_, ?_⟩
        · rw [hcids]
          exact h.nodup
        · rw [hcids]
          exact h.small
        · rw [hcids, hprior]
          exact h.force
        · rw [hcids, hdcid, hseq]
          exact h.inUse
        · rw [hcids]
          exact hl
        intro seq hin
        rw [hcids, hprior]
        rcases mem_append.1 hin with hin | hin
        · exact (ha seq hin).imp_right fun hq => ⟨hq.1, hq.2.imp_left fun hm => hsub hm⟩
        · obtain rfl := mem_singleton.1 hin
          exact .inr ⟨hold, .inl mem_requeue⟩
    · rw [if_neg hold] at hok ⊢
      cases hget : s.peerCID f.seq with
      | some old =>
        simp only [hget] at hok ⊢
        split_ifs at hok with hsame
        rw [if_pos hsame]
        refine ⟨h, hl, fun seq hin => ?_⟩
        rcases mem_append.1 hin with hin | hin
        · exact ha seq hin
        · obtain rfl := mem_singleton.1 hin
          refine .inl (not_not.1 fun hno => ?_)
          rw [peerCID_eq_none.2 hno] at hget
          simp at hget
      | none =>
        simp only [hget] at hok ⊢
        split_ifs at hok with hmany
        rw [if_neg hmany]
        have hprior : f.retirePrior ≤ f.seq := by omega
        refine ⟨?_, not_lt.1 hmany, accounted_retire (accounted_keep ha)⟩
        exact holds_retire (holds_keep h (not_lt.1 hold) hsmall (peerCID_eq_none.1 hget)) ⟨_, mem_cons_self .., hprior⟩

end CidState

namespace CidRun

/-- A connection that is open holds what it may and has accounted for everything offered. -/
structure Open (limit : ℕ) (r : CidRun) : Prop where
  holds : r.conn.Holds
  few : r.conn.peerCIDs.length ≤ limit
  accounted : Accounted r.conn r.offered r.taken

variable {limit : ℕ} {r : CidRun}

theorem open_init (hlimit : 1 ≤ limit) (dcid token : Bytes) : Open limit (init dcid token) := by
  refine ⟨⟨by simp [init], by simp [init], by simp [init], ⟨⟨dcid, token⟩, by simp [init], rfl⟩⟩, ?_, ?_⟩
  · exact hlimit
  · intro seq hseq
    exact .inl (by simpa [init] using hseq)

theorem open_step (op : CidOp) (h : r.closed = none → Open limit r)
    (hclosed : (r.step limit op).closed = none) : Open limit (r.step limit op) := by
  by_cases hc : r.closed ≠ none
  · rw [step.eq_def, if_pos hc] at hclosed
    exact absurd hclosed hc
  obtain ⟨hholds, hfew, hacc⟩ := h (not_not.1 hc)
  rw [step.eq_def, if_neg hc] at hclosed ⊢
  cases op with
  | frame b flooded order =>
    obtain ⟨h₁, h₂, h₃⟩ := CidState.handle_spec hholds hfew hacc hclosed
    exact ⟨h₁, h₂, h₃⟩
  | send =>
    dsimp only
    split
    · exact ⟨hholds, hfew, hacc⟩
    rename_i seq rest hq
    refine ⟨{ hholds with }, hfew, fun n hn => ?_⟩
    refine (hacc n hn).imp_right fun ⟨hlt, hw⟩ => ⟨hlt, ?_⟩
    rcases hw with hw | hw
    · rw [hq] at hw
      rcases mem_cons.1 hw with rfl | hw
      · exact .inr (mem_append_right _ (mem_cons_self ..))
      · exact .inl hw
    · exact .inr (mem_append_left _ hw)
  | lost i =>
    dsimp only
    split
    · exact ⟨hholds, hfew, hacc⟩
    · refine ⟨{ hholds with }, hfew, fun n hn => ?_⟩
      exact (hacc n hn).imp_right fun ⟨hlt, hw⟩ => ⟨hlt, hw.imp_left fun hw => mem_append_left _ hw⟩

theorem open_run (hlimit : 1 ≤ limit) (dcid token : Bytes) (ops : List CidOp) :
    ((machine limit dcid token).run ops).closed = none → Open limit ((machine limit dcid token).run ops) :=
  Machine.invariant_all (I := fun r => r.closed = none → Open limit r) (fun _ => open_init hlimit dcid token)
    (fun _ op h => open_step op h) ops

/-- What holds of a connection's IDs: the one in use is held and not retired, none held is retired nor are they more
than it may hold, and every one offered and retired waits to be sent or was taken. -/
structure Kept (limit : ℕ) (r : CidRun) : Prop where
  inUse : ∃ pc, r.conn.peerCID r.conn.dcidSeq = some pc ∧ pc.cid = r.conn.dcid
  unretired : r.conn.retiredPrior ≤ r.conn.dcidSeq
  gone : ∀ seq < r.conn.retiredPrior, r.conn.peerCID seq = none
  few : r.conn.peerCIDs.length ≤ limit
  queued : ∀ seq ∈ r.offered, seq < r.conn.retiredPrior → seq ∈ r.conn.retireCIDs ∨ seq ∈ r.taken

theorem Open.kept (h : Open limit r) : Kept limit r := by
  obtain ⟨hholds, hfew, hacc⟩ := h
  obtain ⟨pc, hpc, hcid⟩ := hholds.inUse
  have hgone : ∀ seq < r.conn.retiredPrior, seq ∉ r.conn.peerCIDs.map fst := by
    intro seq hlt hin
    obtain ⟨x, hx, rfl⟩ := mem_map.1 hin
    exact absurd (hholds.force x hx) (by omega)
  refine ⟨⟨pc, CidState.peerCID_of_mem hholds.nodup hpc, hcid⟩, hholds.force _ hpc,
    fun seq hlt => CidState.peerCID_eq_none.2 (hgone seq hlt), hfew, fun seq hseq hlt => ?_⟩
  rcases hacc seq hseq with hin | ⟨-, hq⟩
  · exact absurd hin (hgone seq hlt)
  · exact hq

/-- After every run of NEW_CONNECTION_ID frames that has not closed the connection, with retirements sent and lost
between. -/
theorem peer_cids_kept (limit : ℕ) (hlimit : 1 ≤ limit) (dcid token : Bytes) (ops : List CidOp)
    (hopen : ((machine limit dcid token).run ops).closed = none) : Kept limit ((machine limit dcid token).run ops) :=
  (open_run hlimit dcid token ops hopen).kept

/-- A second ID is offered and retires the first, which is in use; the frame that offered it comes again. -/
def moved : List CidOp :=
  [.frame ([1, 1, 1, 9] ++ replicate 16 0) false [], .send, .frame ([0, 0, 1, 8] ++ replicate 16 0) false []]

theorem moved_kept : ((machine 2 [8] []).run moved).conn.dcidSeq = 1 ∧
    ((machine 2 [8] []).run moved).conn.retireCIDs = [0] ∧ Kept 2 ((machine 2 [8] []).run moved) :=
  ⟨by decide, by decide, peer_cids_kept 2 (by decide) [8] [] moved (by decide)⟩

end CidRun
end Fib.Quic
