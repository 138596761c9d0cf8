import Fib.Lib.Runs
import Fib.Kcp.Messages

/-! Two conversations over a network that loses, duplicates, delays and reorders their packets: a
packet may be delivered at any time after it was output, any number of times or never. What one side
receives is a prefix of what the other sent, and the sender lets go of nothing that has not arrived. -/

namespace Fib.Kcp
open List KCP

/-- One side: its conversation, every packet it has output, and what Send accepted and Recv returned.
`sent` and `consumed` record the segments numbered so far and how many of the peer's were given out. -/
structure Peer where
  kcp : KCP
  out : List Bytes := []
  accepted : List Bytes := []
  received : List Bytes := []
  sent : List Frag := []
  consumed : ℕ := 0

/-- What a side does: a packet is one the other side has output. -/
inductive Act
  | send (b : Bytes)
  | recv (size : ℕ)
  | input (i : ℕ) (now : UInt32)
  | flush (now : UInt32)

namespace Peer

def act (p : Peer) (peerOut : List Bytes) : Act → Peer
  | .send b =>
    match p.kcp.send b with
    | .error _ => p
    | .ok k => { p with kcp := k, accepted := p.accepted ++ [b] }
  | .recv size =>
    match p.kcp.recv size with
    | .error _ => p
    | .ok (m, k) =>
      { p with
        kcp := k
        received := p.received ++ [m]
        consumed := p.consumed + (KCP.untilLast p.kcp.rcvQueue).length }
  | .input i now =>
    match peerOut[i]? with
    | none => p
    | some packet => { p with kcp := (p.kcp.input packet now).1 }
  | .flush now =>
    { p with
      kcp := (p.kcp.flush now).1
      out := p.out ++ (p.kcp.flush now).2
      sent := p.sent ++ p.kcp.numbered now }

end Peer

structure Net where
  left : Peer
  right : Peer

/-- The two sides, `true` the left one. -/
def Net.step (n : Net) : Bool × Act → Net
  | (true, a) => { n with left := n.left.act n.right.out a }
  | (false, a) => { n with right := n.right.act n.left.out a }

def configured (conv : UInt32) (settings : List Setting) : KCP := settings.foldl KCP.set (newKcp conv)

def network (conv : UInt32) (ls rs : List Setting) : Machine Net (Bool × Act) where
  init := ⟨{ kcp := configured conv ls }, { kcp := configured conv rs }⟩
  step := Net.step

/-- What came out of one side, against what went into the other. -/
def Delivered (stream : Bool) (mss : ℕ) (sent : List Frag) (accepted received : List Bytes) (consumed : ℕ) : Prop :=
  if stream then received.flatten = (sent.take consumed).flatMap (·.2)
  else received <+: accepted ∧ consumed = (received.flatMap (fragsOf mss)).length

/-- One direction, from `s` to `r`. -/
structure Link (s r : Peer) : Prop where
  sending : s.kcp.Sending s.sent r.kcp.Taken
  receiving : r.kcp.Receiving s.sent r.consumed
  queued : KCP.Queued s.kcp.stream s.kcp.mss.toNat (s.sent ++ s.kcp.sndQueue.map Segment.frag) s.accepted
  fresh : ∀ seg ∈ s.kcp.sndQueue, seg.acked = false
  delivered : Delivered s.kcp.stream s.kcp.mss.toNat s.sent s.accepted r.received r.consumed
  mss_pos : 0 < s.kcp.mss.toNat

/-- The packets a side has output are ones its peer can trust. -/
def Peer.Trusted (p : Peer) (conv : UInt32) : Prop :=
  p.kcp.conv = conv ∧ ∀ packet ∈ p.out, ∃ ws, ws ≠ [] ∧ packet = encodeAll conv ws ∧
    ∀ w ∈ ws, KCP.Honest w p.sent p.kcp.Taken p.kcp.rcvNxt.toNat

variable {conv now : UInt32} {p q s r p' : Peer} {op : Bool × Act} {size : ℕ} {k k' : KCP}

theorem honest_mono {w : Wire} {sent : List Frag}
    (hw : KCP.Honest w sent k.Taken k.rcvNxt.toNat) (hk : KCP.Keeps k k') (more : List Frag) :
    KCP.Honest w (sent ++ more) k'.Taken k'.rcvNxt.toNat :=
  ⟨hw.cmd_ge, hw.cmd_le, hw.length, fun h => by
    rw [List.getElem?_append_left (List.getElem?_eq_some_iff.1 (hw.push h)).1]
    exact hw.push h, fun h => hk.taken _ (hw.ack h), hw.una_le.trans hk.nxt_le⟩

theorem Link.receiver (h : Link q p) (hr : p'.kcp.Receiving q.sent p'.consumed) (hk : KCP.Keeps p.kcp p'.kcp)
    (hd : Delivered q.kcp.stream q.kcp.mss.toNat q.sent q.accepted p'.received p'.consumed) : Link q p' :=
  ⟨⟨h.sending.small, h.sending.nxt, h.sending.flight.mono hk.taken⟩, hr, h.queued, h.fresh, hd, h.mss_pos⟩

theorem Link.sender (h : Link p q) (hs : p'.kcp.Sending p.sent q.kcp.Taken)
    (ho : p'.kcp.ownPart = p.kcp.ownPart) (hsent : p'.sent = p.sent) (hacc : p'.accepted = p.accepted) : Link p' q := by
  simp only [ownPart, Prod.mk.injEq] at ho
  obtain ⟨-, -, hmss, hstream, hqueue⟩ := ho
  obtain ⟨-, hr, hq, hf, hd, hm⟩ := h
  refine ⟨by rwa [hsent], by rwa [hsent], ?_, by rwa [hqueue], ?_, by rwa [hmss]⟩
  · rwa [hstream, hmss, hsent, hqueue, hacc]
  · rwa [hstream, hmss, hsent, hacc]

theorem Peer.Trusted.keeps (h : p.Trusted conv) (hc : p'.kcp.conv = p.kcp.conv)
    (hk : KCP.Keeps p.kcp p'.kcp) (hout : p'.out = p.out) (hsent : p'.sent = p.sent) : p'.Trusted conv := by
  refine ⟨hc.trans h.1, fun packet hp => ?_⟩
  rw [hout] at hp
  obtain ⟨ws, hne, he, hw⟩ := h.2 packet hp
  refine ⟨ws, hne, he, fun w hmem => ?_⟩
  have := honest_mono (hw w hmem) hk []
  rwa [append_nil, ← hsent] at this

structure Both (p q : Peer) (conv : UInt32) : Prop where
  out : Link p q
  back : Link q p
  trusted : p.Trusted conv

theorem both_send {b : Bytes} (h : Both p q conv) : Both (p.act q.out (.send b)) q conv := by
  obtain ⟨hpq, hqp, ht⟩ := h
  rw [Peer.act]
  cases hk : p.kcp.send b with
  | error e => exact ⟨hpq, hqp, ht⟩
  | ok k =>
    obtain ⟨hq, hf⟩ := KCP.Queued.send hpq.mss_pos hk hpq.queued hpq.fresh
    have hfr := send_frame hk
    have hrecv : k.recvPart = p.kcp.recvPart := by rw [hfr]; rfl
    have hsend : k.sendPart = p.kcp.sendPart := by rw [hfr]; rfl
    have hstream : k.stream = p.kcp.stream := by rw [hfr]
    have hmss : k.mss = p.kcp.mss := by rw [hfr]
    have hconv : k.conv = p.kcp.conv := by rw [hfr]
    refine ⟨⟨hpq.sending.congr hsend, hpq.receiving, ?_, hf, ?_, ?_⟩, ?_, ?_⟩
    · rw [hstream, hmss]
      exact hq
    · have hd := hpq.delivered
      simp only [Delivered, hstream, hmss] at hd ⊢
      split_ifs at hd ⊢
      · exact hd
      · exact ⟨hd.1.trans (prefix_append _ _), hd.2⟩
    · rw [hmss]
      exact hpq.mss_pos
    · exact hqp.receiver (hqp.receiving.congr hrecv) (.of_recvPart hrecv) hqp.delivered
    · exact ht.keeps hconv (.of_recvPart hrecv) rfl rfl

theorem delivered_recv {m : Bytes} {k : KCP} (h : Link q p) (hk : p.kcp.recv size = .ok (m, k)) :
    Delivered q.kcp.stream q.kcp.mss.toNat q.sent q.accepted (p.received ++ [m])
      (p.consumed + (KCP.untilLast p.kcp.rcvQueue).length) := by
  have hqueue := h.receiving.queue
  have hd := h.delivered
  unfold Delivered at hd ⊢
  cases hst : q.kcp.stream with
  | true =>
    rw [hst, if_pos rfl] at hd
    rw [if_pos rfl]
    have hzero : ∀ s ∈ p.kcp.rcvQueue, s.frg = 0 := fun s hs => by
      have hmem : s.frag ∈ (q.sent.take p.kcp.rcvNxt.toNat).drop p.consumed := hqueue ▸ mem_map_of_mem hs
      exact h.queued.zero hst _ (mem_append_left _ (mem_of_mem_take (mem_of_mem_drop hmem)))
    obtain ⟨s, more, hcons, rfl, hu⟩ := recv_stream hk hzero
    have hnext : q.sent[p.consumed]? = some s.frag := by
      have hhead := congrArg head? hqueue
      rw [hcons, map_cons, head?_cons, head?_drop, getElem?_take] at hhead
      split_ifs at hhead
      exact hhead.symm
    rw [hu, length_singleton, take_add_one, hnext, flatten_append, hd, flatMap_append]
    simp [Segment.frag]
  | false =>
    rw [hst, if_neg Bool.false_ne_true] at hd
    rw [if_neg Bool.false_ne_true]
    obtain ⟨⟨rest, hrest⟩, hc⟩ := hd
    have hpre : p.kcp.rcvQueue.map Segment.frag <+: rest.flatMap (fragsOf q.kcp.mss.toNat) := by
      have hall : q.sent.take p.kcp.rcvNxt.toNat <+: p.received.flatMap (fragsOf q.kcp.mss.toNat) ++
          rest.flatMap (fragsOf q.kcp.mss.toNat) := by
        rw [← flatMap_append, hrest, ← h.queued.messages hst]
        exact ( take_prefix _ _).trans (prefix_append _ _)
      have := hall.drop p.consumed
      rwa [← hqueue, hc, drop_left] at this
    cases rest with
    | nil =>
      obtain ⟨⟨n, hpeek⟩, -⟩ := recv_spec hk
      have hnil : p.kcp.rcvQueue = [] := by simpa using prefix_nil.1 hpre
      rw [peekSize, hnil] at hpeek
      cases hpeek
    | cons msg rest =>
      obtain ⟨hne, hcount⟩ := h.queued.counts hst msg (by rw [← hrest]; simp)
      rw [flatMap_cons] at hpre
      obtain ⟨rfl, hlen⟩ := recv_message hk h.mss_pos hne hcount hpre
      refine ⟨⟨rest, by rw [← hrest]; simp⟩, ?_⟩
      rw [hlen, hc, flatMap_append, flatMap_singleton, length_append]

theorem both_recv (h : Both p q conv) : Both (p.act q.out (.recv size)) q conv := by
  obtain ⟨hpq, hqp, ht⟩ := h
  rw [Peer.act]
  cases hk : p.kcp.recv size with
  | error e => exact ⟨hpq, hqp, ht⟩
  | ok res =>
    obtain ⟨m, k⟩ := res
    obtain ⟨hr, hkeep⟩ := hqp.receiving.recv hqp.sending.small hk
    obtain ⟨-, -, tell, hfr⟩ := recv_spec hk
    have hsend : k.sendPart = p.kcp.sendPart := by rw [hfr]; rfl
    have hown : k.ownPart = p.kcp.ownPart := by rw [hfr]; rfl
    have hconv : k.conv = p.kcp.conv := by rw [hfr]; rfl
    exact ⟨hpq.sender (hpq.sending.congr hsend) hown rfl rfl, hqp.receiver hr hkeep (delivered_recv hqp hk),
      ht.keeps hconv hkeep rfl rfl⟩

theorem both_input {i : ℕ} (h : Both p q conv) (hq : q.Trusted conv) : Both (p.act q.out (.input i now)) q conv := by
  obtain ⟨hpq, hqp, ht⟩ := h
  rw [Peer.act]
  cases hi : q.out[i]? with
  | none => exact ⟨hpq, hqp, ht⟩
  | some packet =>
    obtain ⟨ws, hne, rfl, hw⟩ := hq.2 packet (mem_of_getElem? hi)
    have hnxt := hpq.receiving.nxt_le.trans_lt hpq.sending.small
    obtain ⟨hs, hr, hkeep, hown⟩ := input_ends now hpq.sending hqp.receiving hqp.sending.small hne hw
      (fun n hn => .inl hn) hnxt
    rw [ht.1] at hs hr hkeep hown
    have hconv : (p.kcp.input (encodeAll conv ws) now).1.conv = p.kcp.conv := by
      simp only [ownPart, Prod.mk.injEq] at hown
      exact hown.1
    exact ⟨hpq.sender hs hown rfl rfl, hqp.receiver hr hkeep hqp.delivered, ht.keeps hconv hkeep rfl rfl⟩

theorem both_flush (h : Both p q conv) (hsmall : (p.act q.out (.flush now)).sent.length < 2 ^ 31) :
    Both (p.act q.out (.flush now)) q conv := by
  obtain ⟨hpq, hqp, ht⟩ := h
  rw [Peer.act] at hsmall ⊢
  obtain ⟨hs, hfrags, hfresh⟩ := hpq.sending.flush hpq.fresh hsmall
  obtain ⟨hr, hkeep⟩ := hqp.receiving.flush now
  have hown := (p.kcp.flushed_flush now).own
  simp only [Prod.mk.injEq] at hown
  obtain ⟨hconv, -, hmss, hstream⟩ := hown
  have hqueued : KCP.Queued p.kcp.stream p.kcp.mss.toNat
      ((p.sent ++ p.kcp.numbered now) ++ (p.kcp.flush now).1.sndQueue.map Segment.frag) p.accepted := by
    rw [append_assoc, hfrags]
    exact hpq.queued
  have hlen : ∀ f ∈ p.sent ++ p.kcp.numbered now, f.2.length < 2 ^ 32 := fun f hf => by
    have := hqueued.short f (mem_append_left _ hf)
    have := p.kcp.mss.toNat_lt
    omega
  refine ⟨⟨hs, hpq.receiving.mono, ?_, hfresh, ?_, ?_⟩, hqp.receiver hr hkeep hqp.delivered, hconv.trans ht.1, ?_⟩
  · rw [hstream, hmss]
    exact hqueued
  · have hd := hpq.delivered
    have htake : (p.sent ++ p.kcp.numbered now).take q.consumed = p.sent.take q.consumed :=
      take_append_of_le_length (hpq.receiving.consumed_le.trans hpq.receiving.nxt_le)
    simp only [Delivered, hstream, hmss] at hd ⊢
    rwa [htake]
  · rw [hmss]
    exact hpq.mss_pos
  intro packet hp
  rcases mem_append.1 hp with hp | hp
  · obtain ⟨ws, hne, he, hw⟩ := ht.2 packet hp
    exact ⟨ws, hne, he, fun w hmem => honest_mono (hw w hmem) hkeep _⟩
  · obtain ⟨ws, hne, he, hw⟩ := flush_honest hs hqp.receiving hlen packet hp
    refine ⟨ws, hne, by rw [he, ht.1], fun w hmem => ?_⟩
    have := honest_mono (hw w hmem) hkeep []
    rwa [append_nil] at this

theorem both_act (a : Act) (h : Both p q conv) (hq : q.Trusted conv)
    (hsmall : (p.act q.out a).sent.length < 2 ^ 31) : Both (p.act q.out a) q conv := by
  cases a with
  | send b => exact both_send h
  | recv size => exact both_recv h
  | input i now => exact both_input h hq
  | flush now => exact both_flush h hsmall

/-- The whole network: both directions, with packets that can be trusted. -/
structure Inv (conv : UInt32) (n : Net) : Prop where
  right : Link n.left n.right
  left : Link n.right n.left
  leftOut : n.left.Trusted conv
  rightOut : n.right.Trusted conv

/-- Fewer than 2³¹ segments have been numbered on either side. -/
def Net.Small (n : Net) : Prop := n.left.sent.length < 2 ^ 31 ∧ n.right.sent.length < 2 ^ 31

theorem inv_step {n : Net} (h : Inv conv n) (hsmall : (n.step op).Small) : Inv conv (n.step op) := by
  obtain ⟨hlr, hrl, hl, hr⟩ := h
  obtain ⟨side, a⟩ := op
  cases side with
  | true =>
    obtain ⟨h1, h2, h3⟩ := both_act a ⟨hlr, hrl, hl⟩ hr hsmall.1
    exact ⟨h1, h2, h3, hr⟩
  | false =>
    obtain ⟨h1, h2, h3⟩ := both_act a ⟨hrl, hlr, hr⟩ hl hsmall.2
    exact ⟨h2, h1, hl, h3⟩

theorem act_sent (p : Peer) (out : List Bytes) (a : Act) : p.sent.length ≤ (p.act out a).sent.length := by
  cases a with
  | flush now => simp [Peer.act]
  | send b => rw [Peer.act]; split <;> exact le_rfl
  | recv size => rw [Peer.act]; split <;> exact le_rfl
  | input i now => rw [Peer.act]; split <;> exact le_rfl

theorem small_of_step {n : Net} (h : (n.step op).Small) : n.Small := by
  obtain ⟨side, a⟩ := op
  cases side with
  | true => exact ⟨(act_sent _ _ _).trans_lt h.1, h.2⟩
  | false => exact ⟨h.1, (act_sent _ _ _).trans_lt h.2⟩

structure Fresh (conv : UInt32) (k : KCP) : Prop where
  conv_eq : k.conv = conv
  mss_pos : 0 < k.mss.toNat
  numbers : k.sendPart = (0, 0, [])
  queues : (k.rcvNxt, k.rcvQueue, k.rcvBuf, k.acklist) = (0, [], [], [])
  queue : k.sndQueue = []

theorem fresh_set {k : KCP} (h : Fresh conv k) (s : Setting) : Fresh conv (k.set s) := by
  obtain ⟨h1, h2, h3, h4, h5⟩ := h
  cases s with
  | mtu n =>
    show Fresh conv (k.setMtu n)
    unfold setMtu
    split_ifs with hn
    · exact ⟨h1, h2, h3, h4, h5⟩
    · refine ⟨h1, ?_, h3, h4, h5⟩
      show 0 < (UInt32.ofNat n.toNat - 24).toNat
      rw [UInt32.toNat_sub, UInt32.toNat_ofNat', show (24 : UInt32).toNat = 24 from rfl]
      omega
  | noDelay nodelay interval resend nc => exact ⟨h1, h2, h3, h4, h5⟩
  | window send recv => exact ⟨h1, h2, h3, h4, h5⟩
  | streamMode on => exact ⟨h1, h2, h3, h4, h5⟩

theorem fresh_configured (conv : UInt32) (settings : List Setting) : Fresh conv (configured conv settings) := by
  unfold configured
  have hfold : ∀ (ss : List Setting) (k : KCP), Fresh conv k → Fresh conv (ss.foldl set k) := by
    intro ss
    induction ss with
    | nil => exact fun k h => h
    | cons s ss ih => exact fun k h => ih _ (fresh_set h s)
  exact hfold settings _ ⟨rfl, (by decide : 0 < (defaultMtu - 24).toNat), rfl, rfl, rfl⟩

theorem link_init {conv' : UInt32} (h : Fresh conv k) (h' : Fresh conv' k') : Link { kcp := k } { kcp := k' } := by
  obtain ⟨-, hm, hs, -, hq⟩ := h
  obtain ⟨-, -, -, hr, -⟩ := h'
  simp only [sendPart, Prod.mk.injEq] at hs hr
  obtain ⟨hs1, hs2, hs3⟩ := hs
  obtain ⟨hr1, hr2, hr3, hr4⟩ := hr
  refine ⟨⟨by simp, by simp [hs1], ?_⟩, ⟨by simp [hr1], Nat.zero_le _, by simp [hr2], ?_, by simp [hr4]⟩, ?_,
    by simp [hq], ?_, hm⟩
  · rw [hs2, hs3]
    exact ⟨rfl, by simp, by simp⟩
  · rw [hr3]
    exact ⟨List.Pairwise.nil, by simp, by simp⟩
  · rw [hq]
    exact ⟨fun _ => rfl, by simp, by simp, fun _ => rfl, by simp⟩
  · unfold Delivered
    split_ifs
    · rfl
    · exact ⟨prefix_rfl, rfl⟩

theorem inv_run (conv : UInt32) (ls rs : List Setting) (ops : List (Bool × Act))
    (h : ((network conv ls rs).run ops).Small) : Inv conv ((network conv ls rs).run ops) := by
  induction ops using reverseRecOn with
  | nil =>
    have hl := fresh_configured conv ls
    have hr := fresh_configured conv rs
    exact ⟨link_init hl hr, link_init hr hl, ⟨hl.conv_eq, nofun⟩, ⟨hr.conv_eq, nofun⟩⟩
  | append_singleton ops op ih =>
    rw [Machine.run_snoc] at h ⊢
    exact inv_step (ih (small_of_step h)) h

/-- What one side has received is a prefix of what the other has sent, message by message or byte by
byte, and what has left the sender's `sndBuf` is taken. -/
def Reliable (s r : Peer) : Prop :=
  (s.kcp.stream = false → r.received <+: s.accepted) ∧
    (s.kcp.stream = true → r.received.flatten <+: s.accepted.flatten) ∧
    ∀ n < s.sent.length, (∀ seg ∈ s.kcp.sndBuf, seg.sn.toNat ≠ n) → r.kcp.Taken n

theorem Link.reliable (h : Link s r) : Reliable s r := by
  have hd := h.delivered
  unfold Delivered at hd
  refine ⟨fun hst => ?_, fun hst => ?_, fun n hn hout => ?_⟩
  · rw [hst, if_neg Bool.false_ne_true] at hd
    exact hd.1
  · rw [hst, if_pos rfl] at hd
    rw [hd, ← h.queued.bytes hst, flatMap_append]
    exact (( take_prefix _ _).flatMap _).trans (prefix_append _ _)
  have hf := h.sending.flight
  by_cases hlt : n < s.kcp.sndUna.toNat
  · exact hf.gone n hlt
  exfalso
  have hlen := hf.length
  have hi : n - s.kcp.sndUna.toNat < s.kcp.sndBuf.length := by omega
  have hseg := getElem?_eq_getElem hi
  refine hout _ (mem_of_getElem? hseg) ?_
  rw [(hf.stored _ _ hseg).sn]
  omega

/-- In every run of two conversations over a network that loses, duplicates, delays and reorders their
packets, both directions are reliable, as long as fewer than 2³¹ segments have been numbered. -/
theorem network_reliable (conv : UInt32) (ls rs : List Setting) (ops : List (Bool × Act))
    (h : ((network conv ls rs).run ops).Small) :
    Reliable ((network conv ls rs).run ops).left ((network conv ls rs).run ops).right ∧
      Reliable ((network conv ls rs).run ops).right ((network conv ls rs).run ops).left := by
  have hinv := inv_run conv ls rs ops h
  exact ⟨hinv.right.reliable, hinv.left.reliable⟩

instance (n : Net) : Decidable n.Small := inferInstanceAs (Decidable (_ ∧ _))

/-- A message that is sent, lost once, sent again, delivered twice and received. -/
def exchange : List (Bool × Act) :=
  [(true, .send [104, 105]), (true, .flush 0), (true, .flush 1000), (false, .input 1 1010), (false, .input 1 1020),
    (false, .recv 100), (false, .flush 1030), (true, .input 0 1040)]

theorem exchange_reliable : ((network 7 [] []).run exchange).right.received = [[104, 105]] ∧
    Reliable ((network 7 [] []).run exchange).left ((network 7 [] []).run exchange).right ∧
      Reliable ((network 7 [] []).run exchange).right ((network 7 [] []).run exchange).left :=
  ⟨by decide +kernel, network_reliable 7 [] [] exchange (by decide +kernel)⟩

end Fib.Kcp
