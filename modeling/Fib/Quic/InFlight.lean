import Fib.Quic.Recovery
import Fib.Lib.Runs

/-! In-flight accounting: the counts of bytes and of ack-eliciting packets in flight are those of
the packets in the queues, however packets are sent, acknowledged, lost, given up or discarded. -/

namespace Fib.Quic
open SentPacket List Function Nat

namespace Recovery

def flight (l : List SentPacket) : ℕ := ((l.filter SentPacket.inFlight).map SentPacket.size).sum

def eliciting (l : List SentPacket) : ℕ := l.countP ackEliciting

def packets (c : Recovery) (i : SpaceId) : List SentPacket := (c.spaces i).sent.packets

def removals (c : Recovery) : List (SpaceId × ℕ) :=
  (c.reports.filter fun r => r.outcome ≠ .probed).map fun r => (r.space, r.pn)

@[simp] theorem flight_nil : flight [] = 0 := rfl

@[simp] theorem flight_cons (p : SentPacket) (l : List SentPacket) :
    flight (p :: l) = (if p.inFlight then p.size else 0) + flight l := by
  unfold flight
  cases h : p.inFlight <;> simp [h]

@[simp] theorem flight_append (l m : List SentPacket) : flight (l ++ m) = flight l + flight m := by
  simp [flight]

variable {l m : List SentPacket} {c : Recovery} {p : SentPacket} {i : SpaceId} {q q' : SentQueue} {s : PnSpace}

theorem flight_perm (h : l.Perm m) : flight l = flight m :=
  ((h.filter _).map _).sum_eq

@[simp] theorem eliciting_nil : eliciting [] = 0 := rfl

@[simp] theorem eliciting_cons (p : SentPacket) (l : List SentPacket) :
    eliciting (p :: l) = (if p.ackEliciting then 1 else 0) + eliciting l := by
  simp only [eliciting, countP_cons]
  omega

@[simp] theorem eliciting_append (l m : List SentPacket) : eliciting (l ++ m) = eliciting l + eliciting m := by
  simp [eliciting]

theorem eliciting_perm (h : l.Perm m) : eliciting l = eliciting m := h.countP_eq _

/-- The connection once the packets `l` of a space are taken off the counts and reported. -/
def settled (c : Recovery) (i : SpaceId) (l : List SentPacket) (o : Outcome) (recv : List PnRange)
    (ackFloor : ℕ) : Recovery :=
  { c.setSpace i { c.spaces i with ackElicitingInFlight := (c.spaces i).ackElicitingInFlight - eliciting l
                                   recv := recv, ackFloor := ackFloor } with
    bytesInFlight := c.bytesInFlight - flight l
    reports := c.reports ++ l.map fun p => ⟨i, p.pn, o, p.frames⟩ }

theorem dropBytes_eq (hb : flight [p] ≤ c.bytesInFlight) :
    c.dropBytes p = { c with bytesInFlight := c.bytesInFlight - flight [p] } := by
  cases hp : p.inFlight with
  | false => simp [dropBytes, hp]
  | true =>
    have : ¬ c.bytesInFlight < p.size := by simpa [hp] using hb
    simp [dropBytes, hp, this]

theorem dropEliciting_eq (he : eliciting [p] ≤ (c.spaces i).ackElicitingInFlight) :
    c.dropEliciting i p = c.setSpace i { c.spaces i with
      ackElicitingInFlight := (c.spaces i).ackElicitingInFlight - eliciting [p] } := by
  cases hp : p.ackEliciting with
  | false => simp [dropEliciting, setSpace, hp]
  | true =>
    have : (c.spaces i).ackElicitingInFlight ≠ 0 := by
      simp [hp] at he
      omega
    simp [dropEliciting, setSpace, hp, this]

theorem drop_eq (hb : flight [p] ≤ c.bytesInFlight)
    (he : eliciting [p] ≤ (c.spaces i).ackElicitingInFlight) (o : Outcome) :
    ((c.dropEliciting i p).dropBytes p).report i o p = c.settled i [p] o (c.spaces i).recv (c.spaces i).ackFloor := by
  rw [dropEliciting_eq he, dropBytes_eq (by exact hb)]
  rfl

theorem foldl_dropBytes (hb : flight l ≤ c.bytesInFlight) :
    l.foldl dropBytes c = { c with bytesInFlight := c.bytesInFlight - flight l } := by
  induction l generalizing c with
  | nil => simp
  | cons p l ih =>
    have h1 : flight [p] + flight l ≤ c.bytesInFlight := by simpa using hb
    rw [foldl_cons, dropBytes_eq (by omega), ih]
    · simp [Nat.sub_sub]
    · simp only; omega

def total (c : Recovery) : ℕ :=
  flight (c.packets .initial) + flight (c.packets .handshake) + flight (c.packets .app)

/-- The counts are those of the queues, with the packets `P` of space `i` taken out of its queue
and still to be taken off the counts; no packet that left its queue is there again. -/
structure Accounts (c : Recovery) (i : SpaceId) (P : List SentPacket) : Prop where
  wf : ∀ j, (c.spaces j).sent.Wf
  next : ∀ j, (c.spaces j).sent.end_ ≤ (c.spaces j).nextPN
  bytes : c.bytesInFlight = c.total + flight P
  count : ∀ j, (c.spaces j).ackElicitingInFlight = eliciting (c.packets j) + if j = i then eliciting P else 0
  underflow : c.underflow = false
  panicked : c.panicked = false
  once : c.removals.Nodup
  past : ∀ r ∈ c.removals, (c.spaces r.1).discarded = true ∨ r.2 < (c.spaces r.1).nextPN
  gone : ∀ r ∈ c.removals, ∀ p ∈ c.packets r.1, p.pn ≠ r.2
  taken_past : ∀ p ∈ P, p.pn < (c.spaces i).nextPN
  taken_distinct : ((P ++ c.packets i).map pn).Nodup
  taken_gone : ∀ p ∈ P, (i, p.pn) ∉ c.removals

open Accounts
variable {c c' : Recovery} {i : SpaceId} {P : List SentPacket}

theorem nodup_pn (h : q.Wf) : (q.packets.map pn).Nodup := by
  refine List.Pairwise.map _ (fun a b hab => ?_) h.sorted
  omega

theorem Accounts.congr (h : Accounts c i P) (hs : c'.spaces = c.spaces) (hb : c'.bytesInFlight = c.bytesInFlight)
    (hu : c'.underflow = c.underflow) (hp : c'.panicked = c.panicked) (hr : c'.removals = c.removals) :
    Accounts c' i P := by
  have hk : ∀ j, c'.packets j = c.packets j := fun j => by rw [packets, packets, hs]
  refine ⟨by rw [hs]; exact h.wf, by rw [hs]; exact h.next, ?_, fun j => ?_, hu.trans h.underflow,
    hp.trans h.panicked, by rw [hr]; exact h.once, by rw [hr, hs]; exact h.past, fun r hr' => ?_,
    by rw [hs]; exact h.taken_past, by rw [hk]; exact h.taken_distinct, by rw [hr]; exact h.taken_gone⟩
  · rw [hb, total, hk, hk, hk]
    exact h.bytes
  · rw [hs, hk]
    exact h.count j
  · rw [hk]
    exact h.gone r (hr ▸ hr')

theorem Accounts.any (h : Accounts c i []) (j : SpaceId) : Accounts c j [] :=
  ⟨h.wf, h.next, h.bytes, fun k => by simpa using h.count k, h.underflow, h.panicked, h.once, h.past, h.gone,
    by simp, nodup_pn (h.wf j), by simp⟩

theorem spaces_setSpace (c : Recovery) (i : SpaceId) (s : PnSpace) (j : SpaceId) :
    (c.setSpace i s).spaces j = if j = i then s else c.spaces j := by
  by_cases hj : j = i
  · subst hj; simp [setSpace]
  · simp [setSpace, hj]

theorem packets_setSpace (c : Recovery) (i : SpaceId) (s : PnSpace) (j : SpaceId) :
    (c.setSpace i s).packets j = if j = i then s.sent.packets else c.packets j := by
  unfold packets
  rw [spaces_setSpace]
  split_ifs <;> rfl

theorem total_setSpace (c : Recovery) (i : SpaceId) (s : PnSpace) :
    (c.setSpace i s).total + flight (c.packets i) = c.total + flight s.sent.packets := by
  unfold total
  cases i <;> simp only [packets_setSpace, reduceCtorEq, if_true, if_false] <;> omega

/-- The accounts with another record for space `i` and another count of bytes, and with `P'` taken out. -/
theorem Accounts.withSpace (h : Accounts c i P) {b : ℕ} {P' : List SentPacket} (hw : s.sent.Wf)
    (hend : s.sent.end_ ≤ s.nextPN)
    (hb : b + (flight (c.packets i) + flight P) = c.bytesInFlight + (flight s.sent.packets + flight P'))
    (hc : s.ackElicitingInFlight = eliciting s.sent.packets + eliciting P')
    (hpast : ∀ pn, (i, pn) ∈ c.removals → s.discarded = true ∨ pn < s.nextPN)
    (hgone : ∀ p ∈ P' ++ s.sent.packets, (i, p.pn) ∉ c.removals) (htaken : ∀ p ∈ P', p.pn < s.nextPN)
    (hdistinct : ((P' ++ s.sent.packets).map pn).Nodup) : Accounts { c.setSpace i s with bytesInFlight := b } i P' := by
  have hsp : ∀ j, ({ c.setSpace i s with bytesInFlight := b } : Recovery).spaces j = if j = i then s else c.spaces j :=
    spaces_setSpace c i s
  have hk : ∀ j, ({ c.setSpace i s with bytesInFlight := b } : Recovery).packets j =
      if j = i then s.sent.packets else c.packets j := packets_setSpace c i s
  refine ⟨fun j => ?_, fun j => ?_, ?_, fun j => ?_, h.underflow, h.panicked, h.once, fun r hr => ?_,
    fun r hr p hp => ?_, fun p hp => ?_, ?_, fun p hp => hgone p (mem_append_left _ hp)⟩
  · rw [hsp]
    split_ifs
    · exact hw
    · exact h.wf j
  · rw [hsp]
    split_ifs
    · exact hend
    · exact h.next j
  · have h1 := total_setSpace c i s
    have h2 := h.bytes
    show b = (c.setSpace i s).total + flight P'
    omega
  · have h2 := h.count j
    rw [hsp, hk]
    split_ifs at h2 ⊢
    · exact hc
    · exact h2
  · rw [hsp]
    split_ifs with hj
    · exact hpast r.2 (hj ▸ hr)
    · exact h.past r hr
  · rw [hk] at hp
    split_ifs at hp with hj
    · intro he
      refine hgone p (mem_append_right _ hp) ?_
      rw [he, ← hj]
      exact hr
    · exact h.gone r hr p hp
  · rw [hsp, if_pos rfl]
    exact htaken p hp
  · rw [hk, if_pos rfl]
    exact hdistinct

theorem Accounts.takeOut (h : Accounts c i P) {R : List SentPacket} (hw : s.sent.Wf)
    (hend : s.sent.end_ ≤ s.nextPN) (hn : s.nextPN = (c.spaces i).nextPN) (hd : s.discarded = (c.spaces i).discarded)
    (he : s.ackElicitingInFlight = (c.spaces i).ackElicitingInFlight)
    (hperm : (c.packets i).Perm (R ++ s.sent.packets)) : Accounts (c.setSpace i s) i (R ++ P) := by
  have hswap : (P ++ c.packets i).Perm (R ++ P ++ s.sent.packets) := by
    refine (hperm.append_left P).trans ?_
    rw [← append_assoc]
    exact perm_append_comm.append_right _
  refine h.withSpace hw hend ?_ ?_ ?_ (fun p hp => ?_) (fun p hp => ?_) (h.taken_distinct.perm (hswap.map _))
  · have h3 := flight_perm hperm
    rw [flight_append] at h3 ⊢
    omega
  · have h2 := h.count i
    have h3 := eliciting_perm hperm
    rw [if_pos rfl] at h2
    rw [eliciting_append] at h3 ⊢
    omega
  · rw [hd, hn]
    exact fun pn hr => h.past _ hr
  · rcases mem_append.1 (hswap.mem_iff.2 hp) with hp | hp
    · exact h.taken_gone p hp
    · exact fun hr => h.gone _ hr p hp rfl
  · rw [hn]
    rcases mem_append.1 hp with hp | hp
    · exact ((h.wf i).pn_lt (hperm.mem_iff.2 (mem_append_left _ hp))).2.trans_le (h.next i)
    · exact h.taken_past p hp

theorem removals_settled {o : Outcome} (ho : o ≠ .probed) (r : List PnRange) (f : ℕ) :
    (c.settled i l o r f).removals = c.removals ++ l.map fun p => (i, p.pn) := by
  have hf : (l.map fun p => (⟨i, p.pn, o, p.frames⟩ : Report)).filter (fun r => r.outcome ≠ .probed) =
      l.map fun p => ⟨i, p.pn, o, p.frames⟩ := by
    rw [filter_eq_self]
    simp [ho]
  simp only [removals, settled, filter_append, hf, map_append, map_map]
  rfl

section
variable (h : Accounts c i (l ++ P))
include h
variable {o : Outcome}

theorem Accounts.settled (ho : o ≠ .probed) (r : List PnRange) (f : ℕ) : Accounts (c.settled i l o r f) i P := by
  have hsp : ∀ j, ((c.settled i l o r f).spaces j).sent = (c.spaces j).sent ∧
      ((c.settled i l o r f).spaces j).nextPN = (c.spaces j).nextPN ∧
      ((c.settled i l o r f).spaces j).discarded = (c.spaces j).discarded ∧
      ((c.settled i l o r f).spaces j).ackElicitingInFlight =
        (c.spaces j).ackElicitingInFlight - if j = i then eliciting l else 0 := fun j => by
    by_cases hj : j = i
    · subst hj; simp [Recovery.settled, setSpace]
    · simp [Recovery.settled, setSpace, hj]
  have hk : ∀ j, (c.settled i l o r f).packets j = c.packets j := fun j => by
    rw [packets, (hsp j).1]
    rfl
  have hdist := h.taken_distinct
  rw [append_assoc, map_append, nodup_append] at hdist
  obtain ⟨hl, hrest, hdisj⟩ := hdist
  refine ⟨fun j => ?_, fun j => ?_, ?_, fun j => ?_, h.underflow, h.panicked, ?_, fun q hq => ?_,
    fun q hq p hp => ?_, fun p hp => ?_, by rw [hk]; exact hrest, fun p hp => ?_⟩
  · rw [(hsp j).1]; exact h.wf j
  · rw [(hsp j).1, (hsp j).2.1]; exact h.next j
  · have hb := h.bytes
    rw [flight_append] at hb
    have ht : (c.settled i l o r f).total = c.total := by simp only [total, hk]
    have hb' : (c.settled i l o r f).bytesInFlight = c.bytesInFlight - flight l := rfl
    omega
  · have hc := h.count j
    rw [(hsp j).2.2.2, hk]
    split_ifs at hc ⊢
    · rw [eliciting_append] at hc
      omega
    · omega
  · rw [removals_settled ho, nodup_append]
    refine ⟨h.once, ?_, ?_⟩
    · refine List.Nodup.of_map Prod.snd ?_
      rw [map_map]
      exact hl
    · rintro q hq q' hq' rfl
      obtain ⟨p, hp, rfl⟩ := mem_map.1 hq'
      exact h.taken_gone p (mem_append_left _ hp) hq
  · rw [(hsp q.1).2.1, (hsp q.1).2.2.1]
    rw [removals_settled ho] at hq
    rcases mem_append.1 hq with hq | hq
    · exact h.past q hq
    · obtain ⟨p, hp, rfl⟩ := mem_map.1 hq
      exact Or.inr (h.taken_past p (mem_append_left _ hp))
  · rw [hk] at hp
    rw [removals_settled ho] at hq
    rcases mem_append.1 hq with hq | hq
    · exact h.gone q hq p hp
    · obtain ⟨p', hp', rfl⟩ := mem_map.1 hq
      intro he
      refine hdisj p'.pn (mem_map_of_mem hp') p.pn ?_ he.symm
      exact mem_map_of_mem (mem_append_right _ hp)
  · rw [(hsp i).2.1]
    exact h.taken_past p (mem_append_right _ hp)
  · rw [removals_settled ho]
    intro hq
    rcases mem_append.1 hq with hq | hq
    · exact h.taken_gone p (mem_append_right _ hp) hq
    · obtain ⟨p', hp', he⟩ := mem_map.1 hq
      have he' : p'.pn = p.pn := (Prod.mk.inj he).2
      refine hdisj p'.pn (mem_map_of_mem hp') p.pn ?_ he'
      exact mem_map_of_mem (mem_append_left _ hp)

theorem Accounts.flight_le : flight l ≤ c.bytesInFlight := by
  have := h.bytes
  rw [flight_append] at this
  omega

theorem Accounts.eliciting_le : eliciting l ≤ (c.spaces i).ackElicitingInFlight := by
  have := h.count i
  rw [if_pos rfl, eliciting_append] at this
  omega

theorem Accounts.folded {f : Recovery → SentPacket → Recovery} (ho : o ≠ .probed)
    (hf : ∀ c p, flight [p] ≤ c.bytesInFlight → eliciting [p] ≤ (c.spaces i).ackElicitingInFlight →
      ∃ r n, f c p = c.settled i [p] o r n) : Accounts (l.foldl f c) i P := by
  induction l generalizing c with
  | nil => exact h
  | cons p l ih =>
    have hp : Accounts c i ([p] ++ (l ++ P)) := h
    obtain ⟨r, n, he⟩ := hf c p hp.flight_le hp.eliciting_le
    rw [foldl_cons, he]
    exact ih (hp.settled ho r n)

theorem Accounts.lost : Accounts (l.foldl (lostOne i) c) i P :=
  h.folded (by simp) fun _ _ hb he => ⟨_, _, drop_eq hb he .lost⟩

theorem Accounts.acked : Accounts (l.foldl (ackedOne i) c) i P := by
  refine h.folded (o := .acked) (by simp) fun c p hb he => ?_
  unfold ackedOne
  rw [drop_eq hb he .acked]
  dsimp only
  split_ifs
  · exact ⟨_, _, by simp [Recovery.settled, setSpace]; rfl⟩
  · exact ⟨_, _, rfl⟩

end

/-- The packets a loop has taken out of a queue, and the queue it has left. -/
structure TakenFrom (q : SentQueue) (l : List SentPacket) (q' : SentQueue) : Prop where
  wf : q'.Wf
  end_eq : q'.end_ = q.end_
  perm : q.packets.Perm (l ++ q'.packets)

theorem TakenFrom.take (h : TakenFrom q l q') (pn : ℕ) : TakenFrom q (l ++ (q'.take pn).1.toList) (q'.take pn).2 := by
  rcases h.wf.take pn with ⟨he, -⟩ | ⟨p, q'', he, -, hperm, hw, -, hend⟩
  · rw [he]
    simpa using h
  · rw [he]
    refine ⟨hw, hend.trans h.end_eq, h.perm.trans ?_⟩
    simp only [Option.toList_some, append_assoc, singleton_append]
    exact hperm.append_left l

theorem TakenFrom.trim (h : TakenFrom q l q') : TakenFrom q l q'.trim := by
  obtain ⟨hw, hp, he⟩ := h.wf.trim
  exact ⟨hw, he.trans h.end_eq, hp ▸ h.perm⟩

theorem takenFrom_lossStep (largest : ℕ) (now delay : ℤ) (pns : List ℕ)
    (st : List SentPacket × SentQueue × Option ℤ) (h : TakenFrom q st.1 st.2.1) :
    TakenFrom q (pns.foldl (lossStep largest now delay) st).1 (pns.foldl (lossStep largest now delay) st).2.1 := by
  induction pns generalizing st with
  | nil => exact h
  | cons pn pns ih =>
    refine ih _ ?_
    unfold lossStep
    split
    · exact h
    · split_ifs
      · exact h.take pn
      · exact h

theorem takenFrom_takeRange (lo hi : ℕ) (st : List SentPacket × SentQueue)
    (h : TakenFrom q st.1 st.2) : TakenFrom q (takeRange st lo hi).1 (takeRange st lo hi).2 := by
  unfold takeRange
  induction List.range' lo (hi - lo) generalizing st with
  | nil => exact h
  | cons pn pns ih => exact ih _ (h.take pn)

theorem takenFrom_takeAcked (h : q.Wf) (ranges : List PnRange) :
    TakenFrom q (takeAcked q ranges).1 (takeAcked q ranges).2 := by
  have hfold : ∀ (rs : List PnRange) (st : List SentPacket × SentQueue), TakenFrom q st.1 st.2 →
      TakenFrom q (rs.foldl (fun st r => takeRange st (max r.lo st.2.base) (min (r.hi + 1) st.2.end_)) st).1
        (rs.foldl (fun st r => takeRange st (max r.lo st.2.base) (min (r.hi + 1) st.2.end_)) st).2 := by
    intro rs
    induction rs with
    | nil => exact fun st hst => hst
    | cons r rs ih => exact fun st hst => ih _ (takenFrom_takeRange _ _ st hst)
  exact hfold ranges.reverse ([], q) ⟨h, rfl, List.Perm.refl _⟩

theorem Accounts.detectLost (h : Accounts c i P) (now : ℤ) : Accounts (c.detectLost i now) i P := by
  unfold Recovery.detectLost
  dsimp only
  split
  · exact h.takeOut (R := []) (s := { c.spaces i with lossTime := none }) (h.wf i) (h.next i) rfl rfl rfl
      (List.Perm.refl _)
  rename_i largest _
  generalize Max.max ((int64 (9 * Max.max c.rtt.latest c.rtt.smoothed)).tdiv 8) timerGranularity = delay
  have ht := (takenFrom_lossStep largest now delay
    (List.range' (c.spaces i).sent.base (Min.min (largest + 1) (c.spaces i).sent.end_ - (c.spaces i).sent.base))
    ([], (c.spaces i).sent, none) ⟨h.wf i, rfl, List.Perm.refl _⟩).trim
  refine lost (h.takeOut ht.wf ?_ rfl rfl rfl ht.perm)
  rw [ht.end_eq]
  exact h.next i

section
variable (h : Accounts c i [])
include h

/-- The accounts with another record for space `i` and nothing taken out. -/
theorem Accounts.replace {s : PnSpace} {b : ℕ} (hw : s.sent.Wf)
    (hend : s.sent.end_ ≤ s.nextPN) (hb : b + flight (c.packets i) = c.bytesInFlight + flight s.sent.packets)
    (hc : s.ackElicitingInFlight = eliciting s.sent.packets)
    (hpast : ∀ pn, (i, pn) ∈ c.removals → s.discarded = true ∨ pn < s.nextPN)
    (hgone : ∀ p ∈ s.sent.packets, (i, p.pn) ∉ c.removals) : Accounts { c.setSpace i s with bytesInFlight := b } i [] :=
  h.withSpace hw hend (by simpa using hb) (by simpa using hc) hpast hgone (by simp) (nodup_pn hw)

theorem Accounts.flight_packets_le (j : SpaceId) : flight (c.packets j) ≤ c.bytesInFlight := by
  have h1 := h.bytes
  have h2 : flight (c.packets j) ≤ c.total := by unfold total; cases j <;> omega
  omega

theorem Accounts.discardSpace (j : SpaceId) : Accounts (c.discardSpace j) i [] := by
  refine any (i := j) ?_ i
  replace h := h.any j
  unfold Recovery.discardSpace
  dsimp only
  split_ifs with hd
  · exact h
  have hle := h.flight_packets_le j
  rw [SentQueue.upTo_end, foldl_dropBytes (l := (c.spaces j).sent.packets) hle]
  have hr := h.replace (s := { discarded := true, largestAcked := (c.spaces j).largestAcked })
    (b := c.bytesInFlight - flight (c.packets j)) SentQueue.wf_empty (le_refl _)
    (by simp [SentQueue.packets, Ring.view]; omega) (by simp [SentQueue.packets, Ring.view])
    (fun _ _ => Or.inl rfl) (by simp [SentQueue.packets, Ring.view])
  exact hr.congr rfl rfl rfl rfl rfl

theorem Accounts.confirmHandshake : Accounts c.confirmHandshake i [] := by
  unfold Recovery.confirmHandshake
  split_ifs
  · exact h
  · have hc : Accounts { c with handshakeConfirmed := true } i [] := h.congr rfl rfl rfl rfl rfl
    exact hc.discardSpace .handshake

theorem Accounts.afterAck (j : SpaceId) (acked : List SentPacket) : Accounts (c.afterAck j acked) i [] := by
  have hc : Accounts (if j = .app ∧ c.isClient ∧ c.handshakeConfirmed = false ∧ acked.any (fun p => !p.early)
      then c.confirmHandshake else c) i [] := by
    split_ifs
    · exact h.confirmHandshake
    · exact h
  unfold Recovery.afterAck
  dsimp only
  generalize (if j = .app ∧ c.isClient ∧ c.handshakeConfirmed = false ∧ acked.any (fun p => !p.early)
    then c.confirmHandshake else c) = d at hc
  split_ifs
  · exact hc.congr rfl rfl rfl rfl rfl
  · exact hc

theorem Accounts.onAckReceived {ranges : List PnRange} {ackDelay now : ℤ}
    (hc : c.onAckReceived i ranges ackDelay now = .ok c') : Accounts c' i [] := by
  unfold Recovery.onAckReceived at hc
  cases ranges with
  | nil =>
    cases hc
    exact h
  | cons first rest =>
    have ht := (takenFrom_takeAcked (h.wf i) (first :: rest)).trim
    have hm := h.takeOut (s := markAcked (c.spaces i) first (first :: rest)) ht.wf
      (le_trans (le_of_eq ht.end_eq) (h.next i)) rfl rfl rfl ht.perm
    dsimp only at hc
    split_ifs at hc with hnext hnone
    · cases hc
      rw [hnone] at hm
      exact hm
    · cases hc
      refine afterAck (acked (detectLost ?_ now)) i _
      exact hm.congr rfl rfl rfl rfl rfl

end

theorem foldl_probed (l : List SentPacket) (c : Recovery) : l.foldl (fun c p => c.report i .probed p) c =
      { c with reports := c.reports ++ l.map fun p => ⟨i, p.pn, .probed, p.frames⟩ } := by
  induction l generalizing c with
  | nil => simp
  | cons p l ih =>
    rw [foldl_cons, ih]
    simp [report]

theorem Accounts.probe (h : Accounts c i []) (j : SpaceId) : Accounts (c.probe j) i [] := by
  unfold Recovery.probe
  rw [foldl_probed]
  refine h.congr rfl rfl rfl rfl ?_
  have hf : ((c.probeSet j).map fun p => (⟨j, p.pn, .probed, p.frames⟩ : Report)).filter
      (fun r => r.outcome ≠ .probed) = [] := by
    rw [filter_eq_nil_iff]
    simp
  rw [removals, filter_append, hf, append_nil]
  rfl

theorem Accounts.earlyStep (h : Accounts c .app []) {pn : ℕ} (hlo : (c.spaces .app).sent.base ≤ pn)
    (hhi : pn < (c.spaces .app).sent.end_) :
    Accounts (c.earlyStep pn) .app [] ∧ ((c.earlyStep pn).spaces .app).sent.base = (c.spaces .app).sent.base ∧
      ((c.earlyStep pn).spaces .app).sent.end_ = (c.spaces .app).sent.end_ := by
  unfold Recovery.earlyStep
  split
  · exact ⟨h, rfl, rfl⟩
  rename_i p hslot
  split_ifs
  · have hmem : p ∈ c.packets .app := SentQueue.mem_packets.2 ⟨_, hslot ▸ SentQueue.Wf.slot_eq hlo hhi⟩
    have hpn : p.pn = pn := by
      have := (h.wf .app).pn _ p (hslot ▸ SentQueue.Wf.slot_eq hlo hhi)
      omega
    rcases (h.wf .app).take pn with ⟨-, hno⟩ | ⟨p', q', he, hpn', hperm, hw, hbase, hend⟩
    · exact absurd hpn (hno p hmem)
    -- the packet taken out is the one in the slot
    have hpp : p' = p := by
      have hmem' : p' ∈ c.packets .app := hperm.mem_iff.2 (by simp)
      have hinj := inj_on_of_nodup_map (nodup_pn (h.wf .app)) hmem' hmem
      exact hinj (hpn'.trans hpn.symm)
    subst hpp
    rw [he]
    have ht := h.takeOut (s := { c.spaces .app with sent := q' }) (R := [p']) hw
      (le_trans (le_of_eq hend) (h.next .app)) rfl rfl rfl hperm
    have hl : lostOne .app (c.setSent .app q') p' = _ := drop_eq ht.flight_le ht.eliciting_le .lost
    refine ⟨ht.lost, ?_, ?_⟩
    · rw [hl]
      simp [Recovery.settled, setSpace, hbase]
    · rw [hl]
      simp [Recovery.settled, setSpace, hend]
  · exact ⟨h, rfl, rfl⟩

theorem Accounts.earlySteps (pns : List ℕ) (h : Accounts c .app [])
    (hp : ∀ pn ∈ pns, (c.spaces .app).sent.base ≤ pn ∧ pn < (c.spaces .app).sent.end_) :
    Accounts (pns.foldl Recovery.earlyStep c) .app [] := by
  induction pns generalizing c with
  | nil => exact h
  | cons pn pns ih =>
    obtain ⟨h1, h2⟩ := hp pn (by simp)
    obtain ⟨he, hb, hn⟩ := h.earlyStep h1 h2
    refine ih he fun q hq => ?_
    rw [hb, hn]
    exact hp q (by simp [hq])

theorem Accounts.resendEarly (h : Accounts c i []) : Accounts c.resendEarly i [] := by
  refine any (i := .app) ?_ i
  unfold Recovery.resendEarly
  have hs := earlySteps
    (List.range' (c.spaces .app).sent.base ((c.spaces .app).sent.end_ - (c.spaces .app).sent.base)) (h.any .app)
    fun pn hpn => by simp only [mem_range'_1] at hpn; omega
  dsimp only
  generalize List.foldl Recovery.earlyStep c _ = d at hs
  obtain ⟨hw, hp, he⟩ := (hs.wf .app).trim
  exact hs.takeOut (R := []) hw (le_trans (le_of_eq he) (hs.next .app)) rfl rfl rfl (hp ▸ List.Perm.refl _)

theorem Accounts.rejectEarly (h : Accounts c i []) : Accounts c.rejectEarly i [] := by
  unfold Recovery.rejectEarly
  split_ifs
  · exact h
  · exact resendEarly (h.congr rfl rfl rfl rfl rfl)

theorem foldl_retry (hb : flight l ≤ c.bytesInFlight) (he : eliciting l ≤ (c.spaces i).ackElicitingInFlight) :
    l.foldl (fun c p => (c.dropBytes p).dropEliciting i p) c =
      { c.setSpace i { c.spaces i with
          ackElicitingInFlight := (c.spaces i).ackElicitingInFlight - eliciting l } with
        bytesInFlight := c.bytesInFlight - flight l } := by
  induction l generalizing c with
  | nil => simp [setSpace]
  | cons p l ih =>
    have h1 : flight [p] + flight l ≤ c.bytesInFlight := by simpa using hb
    have h2 : eliciting [p] + eliciting l ≤ (c.spaces i).ackElicitingInFlight := by simpa using he
    rw [foldl_cons, dropBytes_eq (by omega), dropEliciting_eq (by simp only; omega), ih]
    · simp [setSpace, Nat.sub_sub]
    · simp only [setSpace]; omega
    · simp only [setSpace, update_self]; omega

theorem Accounts.handleRetry (h : Accounts c i []) : Accounts c.handleRetry i [] := by
  refine any (i := .initial) ?_ i
  replace h := h.any .initial
  unfold Recovery.handleRetry
  split_ifs
  · exact h
  dsimp only
  have hc := h.count .initial
  simp only [eliciting_nil, ite_self, add_zero] at hc
  rw [SentQueue.upTo_end, foldl_retry (i := .initial) (c := { c with retried := true })
    (l := (c.spaces .initial).sent.packets) (h.flight_packets_le .initial) (le_of_eq hc.symm)]
  obtain ⟨hw, hp, he⟩ := (h.wf .initial).reset
  have hle := h.flight_packets_le .initial
  -- the queue is emptied, and what was in it is off both counts
  have hr := h.replace (b := c.bytesInFlight - flight (c.packets .initial))
    (s := { c.spaces .initial with
      sent := (c.spaces .initial).sent.reset
      ackElicitingInFlight := (c.spaces .initial).ackElicitingInFlight - eliciting (c.packets .initial) })
    hw (le_trans he (h.next .initial)) (by rw [hp, flight_nil]; omega)
    (by rw [hp, eliciting_nil]; simp only [hc]; omega) (fun pn hpn => h.past _ hpn) (by simp [hp])
  have hd : Accounts ({ ({ ({ c with retried := true }.setSpace .initial { c.spaces .initial with
        ackElicitingInFlight :=
          (c.spaces .initial).ackElicitingInFlight - eliciting (c.spaces .initial).sent.packets }) with
      bytesInFlight := c.bytesInFlight - flight (c.spaces .initial).sent.packets } : Recovery).setSent .initial
        (c.spaces .initial).sent.reset with ptoCount := 0 }) .initial [] :=
    hr.congr (by simp [setSent, setSpace, packets]) rfl rfl rfl rfl
  split_ifs
  · exact hd.resendEarly
  · exact hd

theorem Accounts.sendPacket (h : Accounts c i []) (j : SpaceId) (p : SentPacket) :
    Accounts (c.sendPacket j p) i [] := by
  refine any (i := j) ?_ i
  replace h := h.any j
  unfold Recovery.sendPacket
  dsimp only
  split_ifs with hd
  · exact h
  generalize hp : ({ p with pn := (c.spaces j).nextPN } : SentPacket) = p'
  have hpn : p'.pn = (c.spaces j).nextPN := by rw [← hp]
  obtain ⟨q, hq, hw, hpk, hend⟩ := (h.wf j).push (p := p') (by rw [hpn]; exact h.next j)
  have hnew : ∀ pn, (j, pn) ∈ c.removals → pn < (c.spaces j).nextPN := fun pn hr =>
    (h.past _ hr).resolve_left (by simpa using hd)
  have hc := h.count j
  simp only [eliciting_nil, ite_self, add_zero] at hc
  have hq' : ((c.setSpace j { c.spaces j with nextPN := (c.spaces j).nextPN + 1 }).spaces j).sent.push p' = some q := by
    simpa [setSpace] using hq
  unfold Recovery.onPacketSent
  rw [hq']
  have hA : Accounts ((c.setSpace j { c.spaces j with nextPN := (c.spaces j).nextPN + 1 }).count j q p') j [] := by
    have hr := h.replace (b := c.bytesInFlight + flight [p'])
      (s := ((c.setSpace j { c.spaces j with nextPN := (c.spaces j).nextPN + 1 }).count j q p').spaces j)
      (by simpa [Recovery.count, setSpace] using hw) (by simp [Recovery.count, setSpace]; omega) ?_ ?_
      (fun pn hr => ?_) fun a ha => ?_
    · refine hr.congr ?_ ?_ rfl rfl rfl
      · simp [Recovery.count, setSpace]
      · simp [Recovery.count, setSpace]
    · simp only [Recovery.count, setSpace, update_self, hpk, flight_append, packets]
      omega
    · simp [Recovery.count, setSpace, hpk, hc, packets]
    · have := hnew pn hr
      simp only [Recovery.count, setSpace, update_self]
      exact Or.inr (by omega)
    simp only [Recovery.count, setSpace, update_self, hpk] at ha
    rcases mem_append.1 ha with ha | ha
    · exact fun hr => h.gone _ hr a ha rfl
    · rw [mem_singleton.1 ha, hpn]
      exact fun hr => absurd (hnew _ hr) (by omega)
  dsimp only
  split_ifs
  · exact hA.discardSpace .initial
  · exact hA

end Recovery

inductive RecoveryOp where
  | send (i : SpaceId) (p : SentPacket)
  | ack (i : SpaceId) (ranges : List PnRange) (ackDelay now : ℤ)
  /-- The loss timer of a space. -/
  | lossTimeout (i : SpaceId) (now : ℤ)
  /-- The probe timeout of a space, or a server's handshake sent again early. -/
  | probe (i : SpaceId)
  /-- A server's first Handshake packet from its client. -/
  | heardHandshake
  | handshakeComplete
  | handshakeDone
  | heardPeer
  | retry
  | earlyKeys
  | rejectEarly
  | peerParams (maxAckDelay : ℤ)
deriving DecidableEq

namespace Recovery

def step (c : Recovery) : RecoveryOp → Recovery
  | .send i p => c.sendPacket i p
  | .ack i ranges ackDelay now =>
    -- a refused acknowledgement closes the connection
    match c.onAckReceived i ranges ackDelay now with
    | .ok c => c
    | .error _ => c
  | .lossTimeout i now => c.detectLost i now
  | .probe i => c.probe i
  | .heardHandshake => if c.isClient then c else c.discardSpace .initial
  | .handshakeComplete =>
    if c.isClient then { c with handshakeComplete := true }
    else { c with handshakeComplete := true }.confirmHandshake
  | .handshakeDone => if c.isClient then c.confirmHandshake else c
  | .heardPeer => { c with heardPeer := true }
  | .retry => c.handleRetry
  | .earlyKeys => { c with earlyTx := true }
  | .rejectEarly => c.rejectEarly
  | .peerParams d => { c with peerMaxAckDelay := d }

def machine (isClient : Bool) : Machine Recovery RecoveryOp := ⟨{ isClient := isClient }, step⟩

theorem accounts_init (isClient : Bool) : Accounts (machine isClient).init .app [] where
  wf _ := SentQueue.wf_empty
  next _ := le_refl _
  bytes := rfl
  count _ := by simp [machine, packets, SentQueue.packets, Ring.view]
  underflow := rfl
  panicked := rfl
  once := nodup_nil
  past := by simp [machine, removals]
  gone := by simp [machine, removals]
  taken_past := by simp
  taken_distinct := by simp [machine, packets, SentQueue.packets, Ring.view]
  taken_gone := by simp

theorem accounts_step (c : Recovery) (op : RecoveryOp) (h : Accounts c .app []) : Accounts (c.step op) .app [] := by
  cases op with
  | send i p => exact h.sendPacket i p
  | ack i ranges ackDelay now =>
    dsimp only [step]
    split
    · rename_i hok
      exact ((h.any i).onAckReceived hok).any .app
    · exact h
  | lossTimeout i now => exact ((h.any i).detectLost now).any .app
  | probe i => exact h.probe i
  | heardHandshake =>
    dsimp only [step]
    split_ifs
    · exact h
    · exact h.discardSpace .initial
  | handshakeComplete =>
    dsimp only [step]
    split_ifs
    · exact h.congr rfl rfl rfl rfl rfl
    · have hc : Accounts { c with handshakeComplete := true } .app [] := h.congr rfl rfl rfl rfl rfl
      exact hc.confirmHandshake
  | handshakeDone =>
    dsimp only [step]
    split_ifs
    · exact h.confirmHandshake
    · exact h
  | heardPeer => exact h.congr rfl rfl rfl rfl rfl
  | retry => exact h.handleRetry
  | earlyKeys => exact h.congr rfl rfl rfl rfl rfl
  | rejectEarly => exact h.rejectEarly
  | peerParams d => exact h.congr rfl rfl rfl rfl rfl

/-- In every state of every run the counts are exactly those of the packets in the queues, no
count has ever had more taken off it than it held, and no packet's frames are reported for its
leaving the queue more than once. -/
theorem in_flight_exact (isClient : Bool) (ops : List RecoveryOp) :
    ((machine isClient).run ops).bytesInFlight = flight (((machine isClient).run ops).packets .initial) +
        flight (((machine isClient).run ops).packets .handshake) + flight (((machine isClient).run ops).packets .app) ∧
      (∀ i, (((machine isClient).run ops).spaces i).ackElicitingInFlight =
        eliciting (((machine isClient).run ops).packets i)) ∧
      ((machine isClient).run ops).underflow = false ∧ ((machine isClient).run ops).panicked = false ∧
      ((machine isClient).run ops).removals.Nodup := by
  have h : Accounts ((machine isClient).run ops) .app [] :=
    Machine.invariant_all (I := fun c => Accounts c .app []) (accounts_init isClient) accounts_step ops
  exact ⟨h.bytes, fun i => by simpa using h.count i, h.underflow, h.panicked, h.once⟩

end Recovery
end Fib.Quic
