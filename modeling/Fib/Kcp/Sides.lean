import Fib.Kcp.Protocol

/-! The two ends of one direction of a conversation: what the sender holds of the segments it has
numbered, and what the receiver has taken of them. Sequence numbers stay below 2³¹ here, where the
wrapping comparisons are those of the numbers themselves. -/

namespace Fib.Kcp
open List
section Numbers
variable {a b : UInt32}
section
variable (ha : a.toNat < 2 ^ 31) (hb : b.toNat < 2 ^ 31)
include ha hb

theorem timediff_toInt : (timediff a b).toInt = a.toNat - b.toNat := by
  have hbits : (timediff a b).toInt = (a - b).toBitVec.toInt := rfl
  have hsub : (a - b).toBitVec.toNat = (2 ^ 32 - b.toNat + a.toNat) % 2 ^ 32 := UInt32.toNat_sub a b
  rw [hbits, BitVec.toInt_eq_toNat_cond, hsub]
  split_ifs <;> omega

theorem timediff_neg_iff : timediff a b < 0 ↔ a.toNat < b.toNat := by
  rw [Int32.lt_iff_toInt_lt, timediff_toInt ha hb, show (0 : Int32).toInt = 0 from rfl]
  omega

theorem timediff_pos_iff : timediff a b > 0 ↔ b.toNat < a.toNat := by
  show (0 : Int32) < timediff a b ↔ _
  rw [Int32.lt_iff_toInt_lt, timediff_toInt ha hb, show (0 : Int32).toInt = 0 from rfl]
  omega

end

theorem toNat_succ (ha : a.toNat < 2 ^ 31) : (a + 1).toNat = a.toNat + 1 := by
  rw [UInt32.toNat_add]
  exact Nat.mod_eq_of_lt (by simp; omega)

end Numbers

abbrev Frag := UInt8 × Bytes

def Segment.frag (s : Segment) : Frag := (s.frg, s.data)

open Segment

/-- The segment has arrived: it is below `rcvNxt` or waits in `rcvBuf`. -/
def KCP.Taken (k : KCP) (n : ℕ) : Prop := n < k.rcvNxt.toNat ∨ ∃ s ∈ k.rcvBuf, s.sn.toNat = n

section Sender
variable {sent : List Frag} {taken taken' : ℕ → Prop} {buf buf' : List Segment} {u : ℕ} {s : Segment}

/-- A segment in flight is the one that was numbered, until it is known to be taken. -/
structure Stored (sent : List Frag) (taken : ℕ → Prop) (s : Segment) (n : ℕ) : Prop where
  sn : s.sn.toNat = n
  frag : s.acked = false → sent[n]? = some s.frag
  acked : s.acked = true → taken n

/-- `sndBuf` holds what was numbered from `u` on, and all before `u` is taken. -/
structure Flight (sent : List Frag) (taken : ℕ → Prop) (buf : List Segment) (u : ℕ) : Prop where
  length : u + buf.length = sent.length
  stored : ∀ i s, buf[i]? = some s → Stored sent taken s (u + i)
  gone : ∀ n < u, taken n

section
variable (hf : Flight sent taken buf u)
include hf

theorem Flight.mono (ht : ∀ n, taken n → taken' n) : Flight sent taken' buf u :=
  ⟨hf.length,
    fun i s hs => ⟨(hf.stored i s hs).sn, (hf.stored i s hs).frag, fun ha => ht _ ((hf.stored i s hs).acked ha)⟩,
    fun n hn => ht n (hf.gone n hn)⟩

theorem Flight.dropWhile (drop : Segment → Bool)
    (hd : ∀ s ∈ buf, drop s = true → taken s.sn.toNat) : ∃ u', Flight sent taken (buf.dropWhile drop) u' := by
  induction buf generalizing u with
  | nil => exact ⟨u, hf⟩
  | cons s buf ih =>
    by_cases hs : drop s = true
    · rw [dropWhile_cons_of_pos hs]
      have hsn := (hf.stored 0 s rfl).sn
      have htail : Flight sent taken buf (u + 1) := by
        refine ⟨by have := hf.length; simp only [length_cons] at this; omega, fun i t hi => ?_, fun n hn => ?_⟩
        · have := hf.stored (i + 1) t hi
          rwa [show u + 1 + i = u + (i + 1) by omega]
        · rcases Nat.lt_succ_iff_lt_or_eq.1 hn with h | h
          · exact hf.gone n h
          · have := hd s mem_cons_self hs
            rwa [h, ← Nat.add_zero u, ← hsn]
      exact ih htail fun t ht => hd t (mem_cons_of_mem _ ht)
    · rw [dropWhile_cons_of_neg hs]
      exact ⟨u, hf⟩

/-- What is compared and sent of a segment; the rest is when and how often. -/
def Segment.key (s : Segment) : UInt32 × Frag × Bool := (s.sn, s.frag, s.acked)

theorem Flight.congr (hk : buf'.map key = buf.map key) : Flight sent taken buf' u := by
  have hlen : buf'.length = buf.length := by simpa using congrArg List.length hk
  refine ⟨by rw [hlen]; exact hf.length, fun i s hs => ?_, hf.gone⟩
  have hi := congrArg (fun l => l[i]?) hk
  simp only [List.getElem?_map, hs, Option.map_some] at hi
  obtain ⟨t, ht, hkey⟩ := Option.map_eq_some_iff.1 hi.symm
  have hst := hf.stored i t ht
  simp only [key, Prod.mk.injEq] at hkey
  exact ⟨by rw [← hkey.1]; exact hst.sn, fun ha => by rw [← hkey.2.1]; exact hst.frag (hkey.2.2.trans ha),
    fun ha => hst.acked (hkey.2.2.trans ha)⟩

theorem Flight.ack {i : ℕ} (hs : buf[i]? = some s) (ht : taken s.sn.toNat) :
    Flight sent taken (buf.set i { s with acked := true, data := [] }) u := by
  refine ⟨by rw [length_set]; exact hf.length, fun j t hj => ?_, hf.gone⟩
  rw [getElem?_set] at hj
  split_ifs at hj with hij hlt
  · cases hj
    subst hij
    have hst := hf.stored i s hs
    exact ⟨hst.sn, nofun, fun _ => hst.sn ▸ ht⟩
  · exact hf.stored j t hj

end

namespace KCP
variable {k : KCP} {una sn ts : UInt32}

structure Sending (k : KCP) (sent : List Frag) (taken : ℕ → Prop) : Prop where
  small : sent.length < 2 ^ 31
  nxt : k.sndNxt.toNat = sent.length
  flight : Flight sent taken k.sndBuf k.sndUna.toNat

theorem sending_shrinkBuf (hsmall : sent.length < 2 ^ 31) (hn : k.sndNxt.toNat = sent.length)
    (hf : Flight sent taken k.sndBuf u) : Sending k.shrinkBuf sent taken := by
  obtain ⟨u', hf'⟩ := hf.dropWhile (fun s => s.acked) fun s hs ha => by
    obtain ⟨i, hi⟩ := getElem?_of_mem hs
    have hst := hf.stored i s hi
    rw [hst.sn]
    exact hst.acked ha
  refine ⟨hsmall, hn, ?_⟩
  have hu : k.shrinkBuf.sndUna.toNat = u' := by
    unfold shrinkBuf
    simp only
    split
    · rename_i hnil
      have := hf'.length
      rw [hnil] at this
      simpa [hn] using this.symm
    · rename_i s rest hcons
      have := (hf'.stored 0 s (by rw [hcons]; rfl)).sn
      simpa using this
  rw [hu]
  exact hf'

theorem Sending.parseUna (hs : Sending k sent taken) (hsmall : una.toNat < 2 ^ 31)
    (ht : ∀ n < una.toNat, taken n) : Sending (k.parseUna una).shrinkBuf sent taken := by
  obtain ⟨u', hf⟩ := hs.flight.dropWhile (fun seg => timediff una seg.sn > 0) fun s hmem hd => by
    obtain ⟨i, hi⟩ := List.getElem?_of_mem hmem
    have hsn := (hs.flight.stored i s hi).sn
    have hlen := hs.flight.length
    have hlt := (List.getElem?_eq_some_iff.1 hi).1
    have := hs.small
    exact ht _ ((timediff_pos_iff hsmall (by omega)).1 (of_decide_eq_true hd))
  exact sending_shrinkBuf hs.small hs.nxt hf

theorem Sending.parseAck (hs : Sending k sent taken) (ht : taken sn.toNat) :
    Sending (k.parseAck sn).shrinkBuf sent taken := by
  have hkeep := sending_shrinkBuf hs.small hs.nxt hs.flight
  unfold KCP.parseAck
  split_ifs with hout
  · exact hkeep
  split
  · exact hkeep
  simp only
  split
  · exact hkeep
  · rename_i seg hseg
    split_ifs with hsn
    · exact sending_shrinkBuf hs.small hs.nxt (hs.flight.ack hseg (hsn ▸ ht))
    · exact hkeep

theorem fastackLoop_key (sn ts : UInt32) (buf : List Segment) : (fastackLoop sn ts buf).map key = buf.map key := by
  induction buf with
  | nil => rfl
  | cons s buf ih =>
    unfold fastackLoop
    split_ifs
    · rfl
    · rw [map_cons, ih]
      rfl
    · rw [map_cons, ih]
      rfl

theorem Sending.parseFastack (hs : Sending k sent taken) : Sending (k.parseFastack sn ts) sent taken := by
  unfold KCP.parseFastack
  split_ifs
  · exact hs
  · exact ⟨hs.small, hs.nxt, hs.flight.congr (fastackLoop_key _ _ _)⟩

theorem resend_key (k : KCP) (now : UInt32) (s : Segment) : (k.resend now s).key = s.key := by
  unfold resend rearm
  cases k.due now k.resentLimit s <;> rfl

/-- Segments are admitted in order and numbered one after the other. -/
structure Admitted (queue : List Segment) (nxt : UInt32) (moved rest : List Segment) (nxt' : UInt32) : Prop where
  frags : moved.map frag ++ rest.map frag = queue.map frag
  next : nxt'.toNat = nxt.toNat + moved.length
  sn : ∀ i s, moved[i]? = some s → s.sn.toNat = nxt.toNat + i
  fresh : (∀ s ∈ queue, s.acked = false) → (∀ s ∈ moved, s.acked = false) ∧ ∀ s ∈ rest, s.acked = false

theorem admit_spec (limit : UInt32) (queue : List Segment) (nxt : UInt32)
    (hsmall : nxt.toNat + (allow limit queue nxt).1.length < 2 ^ 31) :
    Admitted queue nxt (allow limit queue nxt).1 (allow limit queue nxt).2.1 (allow limit queue nxt).2.2 := by
  induction queue generalizing nxt with
  | nil => exact ⟨rfl, rfl, nofun, fun h => ⟨h, h⟩⟩
  | cons s queue ih =>
    unfold allow at hsmall ⊢
    split_ifs at hsmall ⊢ with hlim
    · simp only [length_cons] at hsmall
      have hsucc : (nxt + 1).toNat = nxt.toNat + 1 := toNat_succ (by omega)
      have hi := ih (nxt + 1) (by omega)
      refine ⟨?_, ?_, fun i t ht => ?_, fun hq => ?_⟩
      · rw [map_cons, cons_append, hi.frags]
        rfl
      · rw [hi.next, hsucc, length_cons]
        omega
      · cases i with
        | zero =>
          cases ht
          rfl
        | succ i =>
          rw [hi.sn i t ht, hsucc]
          omega
      · obtain ⟨hm, hr⟩ := hi.fresh fun t ht => hq t (mem_cons_of_mem _ ht)
        refine ⟨fun t ht => ?_, hr⟩
        rcases mem_cons.1 ht with rfl | ht
        · exact hq s mem_cons_self
        · exact hm t ht
    · exact ⟨rfl, rfl, nofun, fun h => ⟨nofun, h⟩⟩

theorem Flight.allow {moved rest queue : List Segment} {nxt nxt' : UInt32} (hf : Flight sent taken buf u)
    (hn : nxt.toNat = sent.length) (ha : Admitted queue nxt moved rest nxt') (hfresh : ∀ s ∈ moved, s.acked = false) :
    Flight (sent ++ moved.map frag) taken (buf ++ moved) u := by
  refine ⟨by have := hf.length; simp; omega, fun i s hs => ?_, hf.gone⟩
  have hlen := hf.length
  rw [getElem?_append] at hs
  split_ifs at hs with hlt
  · have hst := hf.stored i s hs
    refine ⟨hst.sn, fun hack => ?_, hst.acked⟩
    rw [getElem?_append_left (by omega)]
    exact hst.frag hack
  · have hmem := mem_of_getElem? hs
    refine ⟨by rw [ha.sn _ s hs]; omega, fun _ => ?_, fun h => by rw [hfresh s hmem] at h; cases h⟩
    rw [getElem?_append_right (by omega), getElem?_map, show u + i - sent.length = i - buf.length by omega, hs]
    rfl

end KCP
end Sender

section Receiver
variable {sent : List Frag} {consumed : ℕ} {k : KCP}

/-- Segments kept out of order: ascending, at `nxt` or past it, each the one that was numbered. -/
structure Waiting (sent : List Frag) (buf : List Segment) (nxt : ℕ) : Prop where
  sorted : buf.Pairwise fun a b => a.sn.toNat < b.sn.toNat
  ge : ∀ s ∈ buf, nxt ≤ s.sn.toNat
  frag : ∀ s ∈ buf, sent[s.sn.toNat]? = some s.frag

namespace KCP

/-- The receiving end of a conversation: the queue holds what came in order and was not given out. -/
structure Receiving (k : KCP) (sent : List Frag) (consumed : ℕ) : Prop where
  nxt_le : k.rcvNxt.toNat ≤ sent.length
  consumed_le : consumed ≤ k.rcvNxt.toNat
  queue : k.rcvQueue.map frag = (sent.take k.rcvNxt.toNat).drop consumed
  waiting : Waiting sent k.rcvBuf k.rcvNxt.toNat
  acks : ∀ a ∈ k.acklist, k.Taken a.1.toNat

theorem Receiving.mono {more : List Frag} (hr : Receiving k sent consumed) : Receiving k (sent ++ more) consumed := by
  refine ⟨by have := hr.nxt_le; simp; omega, hr.consumed_le, ?_, ⟨hr.waiting.sorted, hr.waiting.ge, fun s hs => ?_⟩,
    hr.acks⟩
  · rw [take_append_of_le_length hr.nxt_le]
    exact hr.queue
  · have hsome := hr.waiting.frag s hs
    rw [List.getElem?_append_left (List.getElem?_eq_some_iff.1 hsome).1]
    exact hsome

/-- What a step of the receiver leaves in place. -/
structure Keeps (k k' : KCP) : Prop where
  taken : ∀ n, k.Taken n → k'.Taken n
  nxt_le : k.rcvNxt.toNat ≤ k'.rcvNxt.toNat

theorem Keeps.refl (k : KCP) : Keeps k k := ⟨fun _ h => h, le_rfl⟩

theorem Keeps.trans {k k' k'' : KCP} (h : Keeps k k') (h' : Keeps k' k'') : Keeps k k'' :=
  ⟨fun n hn => h'.taken n (h.taken n hn), h.nxt_le.trans h'.nxt_le⟩

theorem moveLoop_spec (hsmall : sent.length < 2 ^ 31) (wnd : UInt32) {buf queue : List Segment} {nxt : UInt32}
    (hn : nxt.toNat ≤ sent.length) (hc : consumed ≤ nxt.toNat) (hw : Waiting sent buf nxt.toNat)
    (hq : queue.map frag = (sent.take nxt.toNat).drop consumed) :
    (moveLoop wnd buf nxt queue).2.1.toNat ≤ sent.length ∧ nxt.toNat ≤ (moveLoop wnd buf nxt queue).2.1.toNat ∧
      Waiting sent (moveLoop wnd buf nxt queue).1 (moveLoop wnd buf nxt queue).2.1.toNat ∧
      (moveLoop wnd buf nxt queue).2.2.map frag = (sent.take (moveLoop wnd buf nxt queue).2.1.toNat).drop consumed ∧
      ∀ s ∈ buf, s.sn.toNat < (moveLoop wnd buf nxt queue).2.1.toNat ∨ s ∈ (moveLoop wnd buf nxt queue).1 := by
  induction buf generalizing nxt queue with
  | nil => exact ⟨hn, le_rfl, hw, hq, nofun⟩
  | cons s buf ih =>
    unfold moveLoop
    split_ifs with hstop
    · exact ⟨hn, le_rfl, hw, hq, fun t ht => .inr ht⟩
    have hsn : s.sn = nxt := by_contra fun h => hstop (.inl h)
    have hfrag := hw.frag s mem_cons_self
    have hlt := (List.getElem?_eq_some_iff.1 hfrag).1
    rw [hsn] at hfrag hlt
    have hsucc : (nxt + 1).toNat = nxt.toNat + 1 := toNat_succ (by omega)
    obtain ⟨hsorted, htail⟩ := pairwise_cons.1 hw.sorted
    have hw' : Waiting sent buf (nxt + 1).toNat := by
      refine ⟨htail, fun t ht => ?_, fun t ht => hw.frag t (mem_cons_of_mem _ ht)⟩
      have := hsorted t ht
      rw [hsn] at this
      omega
    have hq' : (queue ++ [s]).map frag = (sent.take (nxt + 1).toNat).drop consumed := by
      rw [hsucc, take_add_one, hfrag, map_append, hq, drop_append_of_le_length (by simp; omega)]
      rfl
    obtain ⟨h1, h2, h3, h4, h5⟩ := ih (by omega) (by omega) hw' hq'
    refine ⟨h1, by omega, h3, h4, fun t ht => ?_⟩
    rcases mem_cons.1 ht with rfl | ht
    · left
      rw [hsn]
      omega
    · exact h5 t ht

theorem Receiving.moveRecv (hsmall : sent.length < 2 ^ 31) (hr : Receiving k sent consumed) :
    Receiving k.moveRecv sent consumed ∧ Keeps k k.moveRecv := by
  obtain ⟨h1, h2, h3, h4, h5⟩ := moveLoop_spec hsmall k.rcvWnd hr.nxt_le hr.consumed_le hr.waiting hr.queue
  have hkeep : Keeps k k.moveRecv := by
    refine ⟨fun n hn => ?_, h2⟩
    rcases hn with hn | ⟨s, hs, rfl⟩
    · exact .inl (hn.trans_le h2)
    · rcases h5 s hs with h | h
      · exact .inl h
      · exact .inr ⟨s, h, rfl⟩
  exact ⟨⟨h1, hr.consumed_le.trans h2, h4, h3, fun a ha => hkeep.taken _ (hr.acks a ha)⟩, hkeep⟩

/-- A segment goes where its number belongs, seen from the back; one that is there is not placed. -/
theorem place_spec (seg : Segment) (hseg : seg.sn.toNat < 2 ^ 31) {buf : List Segment}
    (hsmall : ∀ s ∈ buf, s.sn.toNat < 2 ^ 31)
    (hsorted : buf.Pairwise fun a b => b.sn.toNat < a.sn.toNat) : (place seg buf = none → ∃ s ∈ buf, s.sn = seg.sn) ∧
      ∀ buf', place seg buf = some buf' →
        (buf'.Pairwise fun a b => b.sn.toNat < a.sn.toNat) ∧ ∀ s, s ∈ buf' ↔ s = seg ∨ s ∈ buf := by
  induction buf with
  | nil => exact ⟨nofun, fun buf' h => by cases h; simp⟩
  | cons prev buf ih =>
    obtain ⟨hprev, htail⟩ := pairwise_cons.1 hsorted
    have hps := hsmall prev mem_cons_self
    unfold place
    split_ifs with heq hgt
    · exact ⟨fun _ => ⟨prev, mem_cons_self, heq⟩, nofun⟩
    · refine ⟨nofun, fun buf' h => ?_⟩
      cases h
      refine ⟨pairwise_cons.2 ⟨fun s hs => ?_, hsorted⟩, fun s => mem_cons⟩
      have hlt := (timediff_pos_iff hseg hps).1 hgt
      rcases mem_cons.1 hs with rfl | hs
      · exact hlt
      · exact (hprev s hs).trans hlt
    · obtain ⟨hnone, hsome⟩ := ih (fun s hs => hsmall s (mem_cons_of_mem _ hs)) htail
      refine ⟨fun h => ?_, fun buf' h => ?_⟩
      · obtain ⟨s, hs, hsn⟩ := hnone (Option.map_eq_none_iff.1 h)
        exact ⟨s, mem_cons_of_mem _ hs, hsn⟩
      obtain ⟨b, hb, rfl⟩ := Option.map_eq_some_iff.1 h
      obtain ⟨hsort, hmem⟩ := hsome b hb
      refine ⟨pairwise_cons.2 ⟨fun s hs => ?_, hsort⟩, fun s => ?_⟩
      · rcases (hmem s).1 hs with h | hs
        · have hne : seg.sn.toNat ≠ prev.sn.toNat := fun h => heq (UInt32.toNat_inj.1 h.symm)
          have := mt (timediff_pos_iff hseg hps).2 hgt
          rw [h]
          omega
        · exact hprev s hs
      · rw [mem_cons, hmem, mem_cons]
        tauto

theorem Receiving.parseData (hsmall : sent.length < 2 ^ 31) (hr : Receiving k sent consumed) (seg : Segment)
    (hf : sent[seg.sn.toNat]? = some seg.frag) :
    Receiving (k.parseData seg) sent consumed ∧ Keeps k (k.parseData seg) ∧
      (timediff seg.sn (k.rcvNxt + k.rcvWnd) < 0 → timediff seg.sn k.rcvNxt ≥ 0 →
        (k.parseData seg).Taken seg.sn.toNat) := by
  have hlt := (List.getElem?_eq_some_iff.1 hf).1
  have hnxt := hr.nxt_le
  have hbuf : ∀ s ∈ k.rcvBuf.reverse, s.sn.toNat < 2 ^ 31 := fun s hs => by
    have := (List.getElem?_eq_some_iff.1 (hr.waiting.frag s (mem_reverse.1 hs))).1
    omega
  unfold KCP.parseData
  split_ifs with hout
  · refine ⟨hr, .refl k, fun h1 h2 => ?_⟩
    rcases hout with h | h
    · exact absurd h1 (Int32.not_lt.2 h)
    · exact absurd h (Int32.not_lt.2 h2)
  obtain ⟨hnone, hsome⟩ := place_spec seg (by omega) hbuf (pairwise_reverse.2 hr.waiting.sorted)
  cases hp : place seg k.rcvBuf.reverse with
  | none =>
    obtain ⟨s, hs, hsn⟩ := hnone hp
    exact ⟨hr, .refl k, fun _ _ => .inr ⟨s, mem_reverse.1 hs, by rw [hsn]⟩⟩
  | some buf =>
    obtain ⟨hsort, hmem⟩ := hsome buf hp
    have hge : k.rcvNxt.toNat ≤ seg.sn.toNat :=
      not_lt.1 fun h => hout (.inr ((timediff_neg_iff (by omega) (by omega)).2 h))
    have hin : ∀ s ∈ buf.reverse, s = seg ∨ s ∈ k.rcvBuf := fun s hs => by
      simpa using (hmem s).1 (mem_reverse.1 hs)
    have hkeep : Keeps k { k with rcvBuf := buf.reverse } := by
      refine ⟨fun n hn => hn.imp_right ?_, le_rfl⟩
      rintro ⟨s, hs, rfl⟩
      exact ⟨s, mem_reverse.2 ((hmem s).2 (.inr (mem_reverse.2 hs))), rfl⟩
    have hplaced : Receiving { k with rcvBuf := buf.reverse } sent consumed := by
      refine ⟨hr.nxt_le, hr.consumed_le, hr.queue, ⟨pairwise_reverse.2 hsort, fun s hs => ?_, fun s hs => ?_⟩,
        fun a ha => hkeep.taken _ (hr.acks a ha)⟩
      · rcases hin s hs with rfl | h
        · exact hge
        · exact hr.waiting.ge s h
      · rcases hin s hs with rfl | h
        · exact hf
        · exact hr.waiting.frag s h
    obtain ⟨hmoved, hkeep'⟩ := hplaced.moveRecv hsmall
    refine ⟨hmoved, hkeep.trans hkeep', fun _ _ => hkeep'.taken _ (.inr ⟨seg, ?_, rfl⟩)⟩
    exact mem_reverse.2 ((hmem seg).2 (.inl rfl))

def recvPart (k : KCP) : UInt32 × List Segment × List Segment × List (UInt32 × UInt32) × UInt32 :=
  (k.rcvNxt, k.rcvQueue, k.rcvBuf, k.acklist, k.rcvWnd)

def sendPart (k : KCP) : UInt32 × UInt32 × List Segment := (k.sndNxt, k.sndUna, k.sndBuf)

def ownPart (k : KCP) : UInt32 × UInt32 × UInt32 × Bool × List Segment := (k.conv, k.mtu, k.mss, k.stream, k.sndQueue)

variable {taken' : ℕ → Prop} {k' : KCP} {sent' : List Frag} {una' : ℕ}

theorem Receiving.congr (hr : Receiving k sent consumed) (h : k'.recvPart = k.recvPart) :
    Receiving k' sent consumed := by
  simp only [recvPart, Prod.mk.injEq] at h
  obtain ⟨h1, h2, h3, h4, -⟩ := h
  obtain ⟨r1, r2, r3, r4, r5⟩ := hr
  refine ⟨?_, ?_, ?_, ?_, ?_⟩
  · rwa [h1]
  · rwa [h1]
  · rwa [h1, h2]
  · rwa [h1, h3]
  · unfold Taken
    rwa [h1, h3, h4]

theorem Keeps.of_recvPart (h : k'.recvPart = k.recvPart) : Keeps k k' := by
  simp only [recvPart, Prod.mk.injEq] at h
  obtain ⟨h1, -, h3, -, -⟩ := h
  refine ⟨fun n hn => ?_, by rw [h1]⟩
  unfold Taken
  rwa [h1, h3]

theorem Sending.congr {taken : ℕ → Prop} (hs : Sending k sent taken) (h : k'.sendPart = k.sendPart) :
    Sending k' sent taken := by
  simp only [sendPart, Prod.mk.injEq] at h
  obtain ⟨h1, h2, h3⟩ := h
  obtain ⟨s1, s2, s3⟩ := hs
  exact ⟨s1, by rwa [h1], by rwa [h2, h3]⟩

theorem parseAck_recvPart (k : KCP) (sn : UInt32) :
    (k.parseAck sn).recvPart = k.recvPart ∧ (k.parseAck sn).ownPart = k.ownPart := by
  fun_cases KCP.parseAck k sn <;> exact ⟨rfl, rfl⟩

theorem parseData_sendPart (k : KCP) (seg : Segment) :
    (k.parseData seg).sendPart = k.sendPart ∧ (k.parseData seg).ownPart = k.ownPart := by
  fun_cases KCP.parseData k seg <;> exact ⟨rfl, rfl⟩

theorem parseFastack_recvPart (k : KCP) (sn ts : UInt32) :
    (k.parseFastack sn ts).recvPart = k.recvPart ∧ (k.parseFastack sn ts).ownPart = k.ownPart := by
  unfold KCP.parseFastack
  split_ifs <;> exact ⟨rfl, rfl⟩

theorem growWindow_parts (k : KCP) (prevUna : UInt32) : (k.growWindow prevUna).recvPart = k.recvPart ∧
    (k.growWindow prevUna).sendPart = k.sendPart ∧ (k.growWindow prevUna).ownPart = k.ownPart := by
  unfold growWindow
  split_ifs <;> exact ⟨rfl, rfl, rfl⟩

theorem parseData_acklist (k : KCP) (seg : Segment) (l : List (UInt32 × UInt32)) :
    ({ k with acklist := l } : KCP).parseData seg = { k.parseData seg with acklist := l } := by
  unfold KCP.parseData
  split_ifs
  · rfl
  · simp only
    split <;> rfl

theorem Keeps.of_acklist (l : List (UInt32 × UInt32)) : Keeps k { k with acklist := l } := ⟨fun _ h => h, le_rfl⟩

theorem Receiving.noted {l : List (UInt32 × UInt32)} {sn ts : UInt32} (hr : Receiving k sent consumed)
    (hl : ∀ a ∈ l, k.Taken a.1.toNat) (ht : k.Taken sn.toNat) :
    Receiving { k with acklist := l ++ [(sn, ts)] } sent consumed := by
  refine { hr with acks := fun a ha => ?_ }
  rcases mem_append.1 ha with h | h
  · exact hl a h
  · obtain rfl := mem_singleton.1 h
    exact ht

/-- What a peer's segment may say: data as it was numbered, acknowledgements of what it has taken. -/
structure Honest (w : Wire) (sent : List Frag) (taken : ℕ → Prop) (una : ℕ) : Prop where
  cmd_ge : cmdPush ≤ w.cmd
  cmd_le : w.cmd ≤ cmdWins
  length : w.data.length < 2 ^ 32
  push : w.cmd = cmdPush → sent[w.sn.toNat]? = some (w.frg, w.data)
  ack : w.cmd = cmdAck → taken w.sn.toNat
  una_le : w.una.toNat ≤ una

theorem handle_ownPart (k : KCP) (seen : Option (UInt32 × UInt32)) (w : Wire) :
    (k.handle seen w).1.ownPart = k.ownPart := by
  have ho1 : (shrinkBuf (parseUna { k with rmtWnd := w.wnd.toUInt32 } w.una)).ownPart = k.ownPart := rfl
  unfold handle
  generalize shrinkBuf (parseUna { k with rmtWnd := w.wnd.toUInt32 } w.una) = k1 at ho1
  simp only
  split_ifs
  · exact (parseAck_recvPart (k1.updateAck (timediff k1.current w.ts)) w.sn).2.trans ho1
  · exact (parseAck_recvPart k1 w.sn).2.trans ho1
  · rw [parseData_acklist]
    exact (parseData_sendPart k1 _).2.trans ho1
  all_goals exact ho1

theorem handle_ends {w : Wire} (seen : Option (UInt32 × UInt32)) (hs : Sending k sent taken')
    (hr : Receiving k sent' consumed) (hsmall : sent'.length < 2 ^ 31) (hw : Honest w sent' taken' una')
    (hgone : ∀ n < una', taken' n) (huna : una' < 2 ^ 31) : Sending (k.handle seen w).1 sent taken' ∧
    Receiving (k.handle seen w).1 sent' consumed ∧ Keeps k (k.handle seen w).1 := by
  have hs0 : Sending { k with rmtWnd := w.wnd.toUInt32 } sent taken' := hs.congr rfl
  have hs1 : Sending (shrinkBuf (parseUna { k with rmtWnd := w.wnd.toUInt32 } w.una)) sent taken' :=
    hs0.parseUna (hw.una_le.trans_lt huna) fun n hn => hgone n (hn.trans_le hw.una_le)
  have hr1 : Receiving (shrinkBuf (parseUna { k with rmtWnd := w.wnd.toUInt32 } w.una)) sent' consumed :=
    hr.congr rfl
  have hk1 : Keeps k (shrinkBuf (parseUna { k with rmtWnd := w.wnd.toUInt32 } w.una)) := .of_recvPart rfl
  unfold handle
  generalize shrinkBuf (parseUna { k with rmtWnd := w.wnd.toUInt32 } w.una) = k1 at hs1 hr1 hk1
  simp only
  split_ifs with hack hrtt hpush hin hnew hask
  · have hp := parseAck_recvPart (k1.updateAck (timediff k1.current w.ts)) w.sn
    have hs2 : Sending (k1.updateAck (timediff k1.current w.ts)) sent taken' := hs1.congr rfl
    exact ⟨hs2.parseAck (hw.ack hack), hr1.congr hp.1, hk1.trans (.of_recvPart hp.1)⟩
  · have hp := parseAck_recvPart k1 w.sn
    exact ⟨hs1.parseAck (hw.ack hack), hr1.congr hp.1, hk1.trans (.of_recvPart hp.1)⟩
  · -- the acknowledgement is noted first, and is true once the data is taken
    obtain ⟨hr2, hk2, htaken⟩ := hr1.parseData hsmall
      { frg := w.frg, ts := w.ts, sn := w.sn, data := w.data } (hw.push hpush)
    have hsend := (parseData_sendPart k1 { frg := w.frg, ts := w.ts, sn := w.sn, data := w.data }).1
    rw [parseData_acklist]
    exact ⟨(hs1.congr hsend).congr rfl, hr2.noted (fun a ha => hk2.taken _ (hr1.acks a ha)) (htaken hin hnew),
      hk1.trans (hk2.trans (.of_acklist _))⟩
  · have hlt := (List.getElem?_eq_some_iff.1 (hw.push hpush)).1
    have hold := (timediff_neg_iff (by omega) (hr1.nxt_le.trans_lt hsmall)).1 (Int32.not_le.1 hnew)
    exact ⟨hs1.congr rfl, hr1.noted hr1.acks (.inl hold), hk1.trans (.of_acklist _)⟩
  · exact ⟨hs1, hr1, hk1⟩
  · exact ⟨hs1.congr rfl, hr1.congr rfl, hk1.trans (.of_recvPart rfl)⟩
  · exact ⟨hs1, hr1, hk1⟩

theorem length_encodeAll_cons (conv : UInt32) (w : Wire) (ws : List Wire) :
    overhead ≤ (encodeAll conv (w :: ws)).length := by
  rw [encodeAll, flatMap_cons, length_append, length_encode]
  omega

theorem inputLoop_encodeAll (ws : List Wire) (k : KCP) (seen : Option (UInt32 × UInt32))
    (hw : ∀ w ∈ ws, w.data.length < 2 ^ 32 ∧ cmdPush ≤ w.cmd ∧ w.cmd ≤ cmdWins) :
    k.inputLoop seen (encodeAll k.conv ws) =
      ((ws.foldl (fun r w => r.1.handle r.2 w) (k, seen)).1,
        (ws.foldl (fun r w => r.1.handle r.2 w) (k, seen)).2, none) := by
  induction ws generalizing k seen with
  | nil =>
    rw [inputLoop]
    rfl
  | cons w ws ih =>
    obtain ⟨hlen, hge, hle⟩ := hw w mem_cons_self
    have hconv : (k.handle seen w).1.conv = k.conv := by
      have := k.handle_ownPart seen w
      simp only [ownPart, Prod.mk.injEq] at this
      exact this.1
    have hpacket : encodeAll k.conv (w :: ws) = w.encode k.conv ++ encodeAll k.conv ws := flatMap_cons
    rw [inputLoop, if_neg (not_lt.2 (length_encodeAll_cons k.conv w ws)), hpacket, encode_conv,
      if_neg (not_not.2 rfl), encode_length _ _ _ hlen, encode_cmd, drop_encode, encode_frg, encode_wnd, encode_ts,
      encode_sn, encode_una]
    simp only [take_left, drop_left, foldl_cons]
    rw [if_neg (by simp), if_neg (by rw [not_or]; exact ⟨UInt8.not_lt.2 hge, UInt8.not_lt.2 hle⟩), ← hconv]
    exact ih _ _ fun v hv => hw v (mem_cons_of_mem _ hv)

theorem input_ends {ws : List Wire} (now : UInt32) (hs : Sending k sent taken') (hr : Receiving k sent' consumed)
    (hsmall : sent'.length < 2 ^ 31) (hne : ws ≠ []) (hw : ∀ w ∈ ws, Honest w sent' taken' una')
    (hgone : ∀ n < una', taken' n) (huna : una' < 2 ^ 31) : Sending (k.input (encodeAll k.conv ws) now).1 sent taken' ∧
    Receiving (k.input (encodeAll k.conv ws) now).1 sent' consumed ∧ Keeps k (k.input (encodeAll k.conv ws) now).1 ∧
    (k.input (encodeAll k.conv ws) now).1.ownPart = k.ownPart := by
  have hfold : ∀ (vs : List Wire), (∀ w ∈ vs, Honest w sent' taken' una') →
      ∀ r : KCP × Option (UInt32 × UInt32), Sending r.1 sent taken' → Receiving r.1 sent' consumed →
      Sending (vs.foldl (fun r w => r.1.handle r.2 w) r).1 sent taken' ∧
        Receiving (vs.foldl (fun r w => r.1.handle r.2 w) r).1 sent' consumed ∧
        Keeps r.1 (vs.foldl (fun r w => r.1.handle r.2 w) r).1 ∧
        (vs.foldl (fun r w => r.1.handle r.2 w) r).1.ownPart = r.1.ownPart := by
    intro vs
    induction vs with
    | nil => exact fun _ r hs hr => ⟨hs, hr, .refl _, rfl⟩
    | cons v vs ih =>
      intro hv r hs hr
      obtain ⟨hs', hr', hk⟩ := handle_ends r.2 hs hr hsmall (hv v mem_cons_self) hgone huna
      obtain ⟨hs'', hr'', hk', ho⟩ := ih (fun w hw => hv w (mem_cons_of_mem _ hw)) _ hs' hr'
      exact ⟨hs'', hr'', hk.trans hk', ho.trans (r.1.handle_ownPart r.2 v)⟩
  obtain ⟨hs', hr', hk, ho⟩ := hfold ws hw ({ k with current := now }, none) (hs.congr rfl) (hr.congr rfl)
  obtain ⟨w, vs, rfl⟩ := exists_cons_of_ne_nil hne
  have hloop := inputLoop_encodeAll (w :: vs) { k with current := now } none fun v hv =>
    ⟨(hw v hv).length, (hw v hv).cmd_ge, (hw v hv).cmd_le⟩
  unfold input
  simp only
  rw [if_neg (not_lt.2 (length_encodeAll_cons k.conv w vs)), hloop]
  simp only
  generalize (w :: vs).foldl (fun r w => r.1.handle r.2 w) ({ k with current := now }, none) = res at hs' hr' hk ho
  obtain ⟨k', seen⟩ := res
  -- fast acknowledgement and window growth touch neither end
  have hk0 : Keeps k k' := ⟨hk.taken, hk.nxt_le⟩
  cases seen with
  | none =>
    obtain ⟨hg1, hg2, hg3⟩ := k'.growWindow_parts k.sndUna
    exact ⟨hs'.congr hg2, hr'.congr hg1, hk0.trans (.of_recvPart hg1), hg3.trans ho⟩
  | some a =>
    obtain ⟨hg1, hg2, hg3⟩ := (k'.parseFastack a.1 a.2).growWindow_parts k.sndUna
    obtain ⟨hp1, hp2⟩ := k'.parseFastack_recvPart a.1 a.2
    exact ⟨hs'.parseFastack.congr hg2, hr'.congr (hg1.trans hp1), hk0.trans (.of_recvPart (hg1.trans hp1)),
      hg3.trans (hp2.trans ho)⟩

end KCP
end Receiver
end Fib.Kcp
