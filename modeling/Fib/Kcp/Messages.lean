import Fib.Kcp.Flush

/-! Messages and their segments: Send cuts a message, or a stream, into segments that give it back,
and Recv gives out the segments of one message, or of one piece of a stream. -/

namespace Fib.Kcp
open List Segment

def fragCount (mss : ℕ) (m : Bytes) : ℕ := (m.length + mss - 1) / mss

def fragsOf (mss : ℕ) (m : Bytes) : List Frag := (KCP.cut mss false (fragCount mss m) m).map frag

/-- The segments of one message: the last one, and only it, is numbered 0. -/
inductive Whole : List Frag → Prop
  | last (d : Bytes) : Whole [(0, d)]
  | cons {f : UInt8} {fs : List Frag} (d : Bytes) : f ≠ 0 → Whole fs → Whole ((f, d) :: fs)

namespace KCP
section Cut
variable {mss : ℕ} {stream : Bool}

theorem cut_length (mss : ℕ) (stream : Bool) (n : ℕ) (b : Bytes) : (cut mss stream n b).length = n := by
  induction n generalizing b with
  | zero => rfl
  | succ n ih => rw [cut, length_cons, ih]

theorem cut_data (stream : Bool) (n : ℕ) (b : Bytes) (h : b.length ≤ n * mss) :
    (cut mss stream n b).flatMap (·.data) = b := by
  induction n generalizing b with
  | zero => simpa [cut] using h
  | succ n ih =>
    rw [cut, flatMap_cons, ih _ (by rw [length_drop, Nat.add_one_mul] at *; omega)]
    exact take_append_drop mss b

theorem cut_seg (mss : ℕ) (stream : Bool) (n : ℕ) (b : Bytes) {s : Segment} (hs : s ∈ cut mss stream n b) :
    s.acked = false ∧ s.data.length ≤ mss ∧ (stream = true → s.frg = 0) := by
  induction n generalizing b with
  | zero => cases hs
  | succ n ih =>
    rcases mem_cons.1 hs with rfl | hs
    · exact ⟨rfl, by simp, fun h => by simp [h]⟩
    · exact ih _ hs

theorem whole_cut {n : ℕ} (hn : n < 256) (b : Bytes) : Whole ((cut mss false (n + 1) b).map frag) := by
  induction n generalizing b with
  | zero => exact .last _
  | succ n ih =>
    rw [cut, map_cons]
    refine .cons _ ?_ (ih (by omega) _)
    intro h
    have := congrArg UInt8.toNat h
    simp at this
    omega

theorem fragCount_pos {m : Bytes} (hm : m ≠ []) (hmss : 0 < mss) : 0 < fragCount mss m := by
  have := length_pos_iff.2 hm
  exact Nat.div_pos (by omega) hmss

theorem le_fragCount (hmss : 0 < mss) (m : Bytes) : m.length ≤ fragCount mss m * mss := by
  have := Nat.div_add_mod (m.length + mss - 1) mss
  have := Nat.mod_lt (m.length + mss - 1) hmss
  unfold fragCount
  rw [Nat.mul_comm]
  omega

theorem fragsOf_spec {m : Bytes} (hm : m ≠ []) (hmss : 0 < mss) (hc : fragCount mss m < maxFragments) :
    Whole (fragsOf mss m) ∧ (fragsOf mss m).length = fragCount mss m ∧ (fragsOf mss m).flatMap (·.2) = m ∧
      ∃ d rest, fragsOf mss m = (UInt8.ofNat (fragCount mss m - 1), d) :: rest := by
  have hdata : (fragsOf mss m).flatMap (·.2) = m := by
    rw [fragsOf, flatMap_map]
    exact cut_data false _ m (le_fragCount hmss m)
  have hpos := fragCount_pos hm hmss
  obtain ⟨n, hn⟩ : ∃ n, fragCount mss m = n + 1 := ⟨fragCount mss m - 1, by omega⟩
  unfold maxFragments at hc
  refine ⟨?_, by rw [fragsOf, length_map, cut_length], hdata, ?_⟩
  · rw [fragsOf, hn]
    exact whole_cut (by omega) m
  · rw [fragsOf, hn]
    exact ⟨_, _, rfl⟩

end Cut

section Queue

/-- What the sender has accepted is what its segments, numbered and queued, carry. -/
structure Queued (stream : Bool) (mss : ℕ) (frags : List Frag) (accepted : List Bytes) : Prop where
  messages : stream = false → frags = accepted.flatMap (fragsOf mss)
  counts : stream = false → ∀ m ∈ accepted, m ≠ [] ∧ fragCount mss m < maxFragments
  zero : stream = true → ∀ f ∈ frags, f.1 = 0
  bytes : stream = true → frags.flatMap (·.2) = accepted.flatten
  short : ∀ f ∈ frags, f.2.length ≤ mss

variable {k k' : KCP} {sent : List Frag} {accepted : List Bytes} {b : Bytes}

theorem topUp_spec (mss : ℕ) (queue : List Segment) (b : Bytes) :
    ((topUp mss queue b).1.map frag).flatMap (·.2) ++ (topUp mss queue b).2 = (queue.map frag).flatMap (·.2) ++ b ∧
      ((∀ f ∈ queue.map frag, f.1 = 0 ∧ f.2.length ≤ mss) →
        ∀ f ∈ (topUp mss queue b).1.map frag, f.1 = 0 ∧ f.2.length ≤ mss) ∧
      ((∀ s ∈ queue, s.acked = false) → ∀ s ∈ (topUp mss queue b).1, s.acked = false) := by
  unfold topUp
  cases hl : queue.getLast? with
  | none => exact ⟨rfl, fun h => h, fun h => h⟩
  | some last =>
    simp only
    split_ifs with hroom
    · obtain ⟨front, rfl⟩ := List.getLast?_eq_some_iff.1 hl
      rw [dropLast_concat]
      refine ⟨?_, fun h f hf => ?_, fun h s hs => ?_⟩
      · simp [frag]
      · simp only [map_append, map_cons, map_nil, mem_append, mem_singleton] at hf h
        rcases hf with hf | rfl
        · exact h f (.inl hf)
        · refine ⟨rfl, ?_⟩
          simp only [frag, length_append, length_take]
          omega
      · rcases mem_append.1 hs with hs | hs
        · exact h s (mem_append_left _ hs)
        · obtain rfl := mem_singleton.1 hs
          exact h last (by simp)
    · exact ⟨rfl, fun h => h, fun h => h⟩

theorem send_frame (h : k.send b = .ok k') : k' = { k with sndQueue := k'.sndQueue } := by
  unfold send at h
  simp only at h
  split_ifs at h <;> cases h <;> rfl

theorem send_message (hst : k.stream = false) (h : k.send b = .ok k') :
    b ≠ [] ∧ fragCount k.mss.toNat b < maxFragments ∧
      k'.sndQueue = k.sndQueue ++ cut k.mss.toNat false (fragCount k.mss.toNat b) b := by
  unfold send at h
  simp only [hst, Bool.false_eq_true, if_false, false_and, true_and] at h
  split_ifs at h with hb hc
  cases h
  exact ⟨hb, not_le.1 hc, rfl⟩

theorem send_stream (hst : k.stream = true) (hmss : 0 < k.mss.toNat) (h : k.send b = .ok k') :
    ∃ tail, k'.sndQueue = (topUp k.mss.toNat k.sndQueue b).1 ++ tail ∧
      tail.flatMap (·.data) = (topUp k.mss.toNat k.sndQueue b).2 ∧
      ∀ s ∈ tail, s.acked = false ∧ s.data.length ≤ k.mss.toNat ∧ s.frg = 0 := by
  unfold send at h
  simp only [hst, if_true, true_and, Bool.true_eq_false, false_and, if_false] at h
  split_ifs at h with hb hnil
  · cases h
    exact ⟨[], (append_nil _).symm, hnil.symm, nofun⟩
  · cases h
    refine ⟨_, rfl, cut_data true _ _ (le_fragCount hmss _), fun s hs => ?_⟩
    obtain ⟨h1, h2, h3⟩ := cut_seg _ _ _ _ hs
    exact ⟨h1, h2, h3 rfl⟩

theorem Queued.send (hmss : 0 < k.mss.toNat) (h : k.send b = .ok k')
    (hq : Queued k.stream k.mss.toNat (sent ++ k.sndQueue.map frag) accepted)
    (hfresh : ∀ s ∈ k.sndQueue, s.acked = false) :
    Queued k.stream k.mss.toNat (sent ++ k'.sndQueue.map frag) (accepted ++ [b]) ∧
      ∀ s ∈ k'.sndQueue, s.acked = false := by
  cases hst : k.stream with
  | false =>
    obtain ⟨hb, hc, hqueue⟩ := send_message hst h
    rw [hst] at hq
    rw [hqueue, map_append, ← append_assoc]
    refine ⟨⟨fun _ => ?_, fun _ m hm => ?_, nofun, nofun, fun f hf => ?_⟩, fun s hs => ?_⟩
    · rw [flatMap_append, ← hq.messages rfl, flatMap_singleton]
      rfl
    · rcases mem_append.1 hm with hm | hm
      · exact hq.counts rfl m hm
      · obtain rfl := mem_singleton.1 hm
        exact ⟨hb, hc⟩
    · rcases mem_append.1 hf with hf | hf
      · exact hq.short f hf
      · obtain ⟨s, hs, rfl⟩ := mem_map.1 hf
        exact (cut_seg _ _ _ _ hs).2.1
    · rcases mem_append.1 hs with hs | hs
      · exact hfresh s hs
      · exact (cut_seg _ _ _ _ hs).1
  | true =>
    rw [hst] at hq
    obtain ⟨hbytes, hzero, hfr⟩ := topUp_spec k.mss.toNat k.sndQueue b
    have hin : ∀ f ∈ k.sndQueue.map frag, f.1 = 0 ∧ f.2.length ≤ k.mss.toNat := fun f hf =>
      ⟨hq.zero rfl f (mem_append_right _ hf), hq.short f (mem_append_right _ hf)⟩
    have hacc : sent.flatMap (·.2) ++ ((k.sndQueue.map frag).flatMap (·.2) ++ b) = (accepted ++ [b]).flatten := by
      rw [flatten_append, ← hq.bytes rfl, flatMap_append]
      simp
    obtain ⟨tail, hqueue, hdata, htail⟩ := send_stream hst hmss h
    generalize topUp k.mss.toNat k.sndQueue b = r at hbytes hzero hfr hqueue hdata
    rw [hqueue, map_append]
    have hseg : ∀ f ∈ sent ++ (r.1.map frag ++ tail.map frag), f.1 = 0 ∧ f.2.length ≤ k.mss.toNat := by
      intro f hf
      rcases mem_append.1 hf with hf | hf
      · exact ⟨hq.zero rfl f (mem_append_left _ hf), hq.short f (mem_append_left _ hf)⟩
      · rcases mem_append.1 hf with hf | hf
        · exact hzero hin f hf
        · obtain ⟨s, hs, rfl⟩ := mem_map.1 hf
          exact ⟨(htail s hs).2.2, (htail s hs).2.1⟩
    refine ⟨⟨nofun, nofun, fun _ f hf => (hseg f hf).1, fun _ => ?_, fun f hf => (hseg f hf).2⟩, fun s hs => ?_⟩
    · rw [← hacc, ← hbytes, ← hdata, flatMap_append, flatMap_append]
      simp only [flatMap_map]
      rfl
    · rcases mem_append.1 hs with hs | hs
      · exact hfr hfresh s hs
      · exact (htail s hs).1

end Queue

section Recv
variable {k k' : KCP} {sent queued : List Frag} {consumed size : ℕ} {m : Bytes}

theorem untilLast_whole {fs : List Frag} (hw : Whole fs) (rest : List Frag) (q : List Segment)
    (hp : q.map frag <+: fs ++ rest) (hlen : fs.length ≤ q.length) : (untilLast q).map frag = fs := by
  induction hw generalizing q with
  | last d =>
    cases q with
    | nil => simp at hlen
    | cons s q =>
      obtain ⟨hs, -⟩ := cons_prefix_cons.1 hp
      have hf : s.frg = 0 := congrArg Prod.fst hs
      rw [untilLast, if_pos hf, map_singleton, hs]
  | cons d hf _ ih =>
    cases q with
    | nil => simp at hlen
    | cons s q =>
      obtain ⟨hs, hp⟩ := cons_prefix_cons.1 hp
      have hne : s.frg ≠ 0 := by rw [show s.frg = _ from congrArg Prod.fst hs]; exact hf
      rw [untilLast, if_neg hne, map_cons, hs, ih q hp (by simpa using hlen)]

theorem untilLast_isPrefix (q : List Segment) : untilLast q <+: q := by
  induction q with
  | nil => exact prefix_rfl
  | cons s q ih =>
    rw [untilLast]
    split_ifs
    · simp
    · exact cons_prefix_cons.2 ⟨rfl, ih⟩

theorem recv_spec (h : k.recv size = .ok (m, k')) :
    (∃ n, k.peekSize = some n) ∧ m = (untilLast k.rcvQueue).flatMap (·.data) ∧
      ∃ tell, k' =
        { moveRecv { k with rcvQueue := k.rcvQueue.drop (untilLast k.rcvQueue).length } with askTell := tell } := by
  unfold recv at h
  split at h
  · cases h
  · rename_i n hn
    split_ifs at h
    cases h
    exact ⟨⟨n, hn⟩, rfl, _, rfl⟩

theorem Receiving.recv (hsmall : sent.length < 2 ^ 31) (hr : Receiving k sent consumed)
    (h : k.recv size = .ok (m, k')) : Receiving k' sent (consumed + (untilLast k.rcvQueue).length) ∧ Keeps k k' := by
  obtain ⟨-, -, tell, rfl⟩ := recv_spec h
  have hle := (untilLast_isPrefix k.rcvQueue).length_le
  have hqlen : k.rcvQueue.length = k.rcvNxt.toNat - consumed := by
    have := congrArg List.length hr.queue
    have hn := hr.nxt_le
    simp only [length_map, length_drop, length_take] at this
    omega
  have hc := hr.consumed_le
  have hdrop : Receiving { k with rcvQueue := k.rcvQueue.drop (untilLast k.rcvQueue).length } sent
      (consumed + (untilLast k.rcvQueue).length) := by
    refine ⟨hr.nxt_le, by simp only; omega, ?_, hr.waiting, hr.acks⟩
    show (k.rcvQueue.drop _).map frag = _
    rw [map_drop, hr.queue, drop_drop]
  obtain ⟨hm, hk⟩ := hdrop.moveRecv hsmall
  exact ⟨hm.congr rfl, ⟨hk.taken, hk.nxt_le⟩⟩

theorem recv_message {mss : ℕ} {msg : Bytes} (h : k.recv size = .ok (m, k')) (hmss : 0 < mss) (hm : msg ≠ [])
    (hc : fragCount mss msg < maxFragments) {rest : List Frag} (hp : k.rcvQueue.map frag <+: fragsOf mss msg ++ rest) :
    m = msg ∧ (untilLast k.rcvQueue).length = (fragsOf mss msg).length := by
  obtain ⟨hwhole, hlen, hdata, d, more, hfs⟩ := fragsOf_spec hm hmss hc
  obtain ⟨⟨n, hpeek⟩, rfl, -⟩ := recv_spec h
  have hpos := fragCount_pos hm hmss
  have hcount : (fragsOf mss msg).length ≤ k.rcvQueue.length := by
    unfold peekSize at hpeek
    cases hq : k.rcvQueue with
    | nil => rw [hq] at hpeek; cases hpeek
    | cons s q =>
      rw [hq] at hpeek hp
      rw [hfs, map_cons, cons_append] at hp
      have hfrg : s.frg = UInt8.ofNat (fragCount mss msg - 1) :=
        congrArg Prod.fst (cons_prefix_cons.1 hp).1
      have hnat : s.frg.toNat = fragCount mss msg - 1 := by
        rw [hfrg, UInt8.toNat_ofNat']
        unfold maxFragments at hc
        omega
      rw [hlen]
      simp only at hpeek
      split_ifs at hpeek with hz hshort
      · rw [hz] at hnat
        simp only [UInt8.toNat_zero] at hnat
        simp only [length_cons]
        omega
      · omega
  have hfrags := untilLast_whole hwhole rest k.rcvQueue hp hcount
  refine ⟨?_, by rw [← hfrags, length_map]⟩
  rw [← hdata, ← hfrags, flatMap_map]
  rfl

theorem recv_stream (h : k.recv size = .ok (m, k')) (hz : ∀ s ∈ k.rcvQueue, s.frg = 0) :
    ∃ s q, k.rcvQueue = s :: q ∧ m = s.data ∧ untilLast k.rcvQueue = [s] := by
  obtain ⟨⟨n, hpeek⟩, rfl, -⟩ := recv_spec h
  cases hq : k.rcvQueue with
  | nil => unfold peekSize at hpeek; rw [hq] at hpeek; cases hpeek
  | cons s q =>
    have hs := hz s (by rw [hq]; exact mem_cons_self)
    have hu : untilLast (s :: q) = [s] := if_pos hs
    exact ⟨s, q, rfl, by rw [hu]; simp, hu⟩

end Recv
end KCP
end Fib.Kcp
