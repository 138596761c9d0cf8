import Fib.Kcp.Sides

/-! What a flush does: it numbers the segments the window admits, leaves those in flight as they
are but for their timers, and outputs packets of segments a peer can trust. -/

namespace Fib.Kcp.KCP
open Segment List
section Output
variable {conv mtu : UInt32}

/-- The packets output are whole, none is empty, and they carry segments of `l`. -/
def Packed (conv : UInt32) (l : List Wire) (packets : List Bytes) : Prop :=
  ∀ p ∈ packets, ∃ ws, ws ≠ [] ∧ p = encodeAll conv ws ∧ ∀ w ∈ ws, w ∈ l

structure Output.Built (o : Output) (conv : UInt32) (l : List Wire) : Prop where
  packets : Packed conv l o.packets
  buffer : ∃ ws, o.buffer = encodeAll conv ws ∧ ∀ w ∈ ws, w ∈ l

variable {l ws : List Wire} {o : Output}

theorem encodeAll_eq_nil : encodeAll conv ws = [] ↔ ws = [] := by
  cases ws with
  | nil => exact ⟨fun _ => rfl, fun _ => rfl⟩
  | cons w ws =>
    refine ⟨fun h => ?_, nofun⟩
    have := length_encodeAll_cons conv w ws
    rw [h] at this
    cases this

theorem Packed.snoc {packets : List Bytes} (hp : Packed conv l packets)
    (hne : ws ≠ []) (hw : ∀ w ∈ ws, w ∈ l) : Packed conv l (packets ++ [encodeAll conv ws]) := by
  intro p hmem
  rcases mem_append.1 hmem with h | h
  · exact hp p h
  · exact ⟨ws, hne, mem_singleton.1 h, hw⟩

theorem Output.Built.put (hb : o.Built conv l) {w : Wire} (hw : w ∈ l) : (o.put conv mtu w).Built conv l := by
  obtain ⟨hp, ws, hbuf, hws⟩ := hb
  have hone : w.encode conv = encodeAll conv [w] := by simp [encodeAll]
  unfold Output.put
  split_ifs with hfull
  · refine ⟨?_, [w], hone, by simpa using hw⟩
    rw [hbuf]
    exact hp.snoc (fun h => hfull.2 (by rw [hbuf, h]; rfl)) hws
  refine ⟨hp, ws ++ [w], ?_, ?_⟩
  · simp only [hbuf, encodeAll, flatMap_append, flatMap_singleton]
  · intro v hv
    rcases mem_append.1 hv with h | h
    · exact hws v h
    · rwa [mem_singleton.1 h]

theorem Output.Built.finish (hb : o.Built conv l) : Packed conv l o.finish := by
  obtain ⟨hp, ws, hbuf, hws⟩ := hb
  unfold Output.finish
  split_ifs with hnil
  · exact hp
  · rw [hbuf] at hnil ⊢
    exact hp.snoc (mt encodeAll_eq_nil.2 hnil) hws

theorem packed_foldl (conv mtu : UInt32) (l : List Wire) :
    Packed conv l (l.foldl (fun (o : Output) w => o.put conv mtu w) {}).finish := by
  have hfold : ∀ (l' : List Wire) (o : Output), o.Built conv l → (∀ w ∈ l', w ∈ l) →
      (l'.foldl (fun (o : Output) w => o.put conv mtu w) o).Built conv l := by
    intro l'
    induction l' with
    | nil => exact fun o hb _ => hb
    | cons w l' ih =>
      exact fun o hb hl => ih _ (hb.put (hl w mem_cons_self)) fun v hv => hl v (mem_cons_of_mem _ hv)
  exact (hfold l {} ⟨nofun, [], rfl, nofun⟩ fun _ h => h).finish

end Output

variable {k : KCP} {sent sent' : List Frag} {taken : ℕ → Prop} {consumed : ℕ} {now : UInt32}

theorem shrinkWindow_parts (k : KCP) (change lost : Bool) (resent cwnd : UInt32) :
    (k.shrinkWindow change lost resent cwnd).recvPart = k.recvPart ∧
      (k.shrinkWindow change lost resent cwnd).sendPart = k.sendPart ∧
      (k.shrinkWindow change lost resent cwnd).ownPart = k.ownPart := by
  unfold shrinkWindow
  cases change <;> cases lost <;> simp only [Bool.false_eq_true, if_false, if_true] <;> split_ifs <;>
    exact ⟨rfl, rfl, rfl⟩

structure Flushed (k k' : KCP) (limit : UInt32) : Prop where
  keys : k'.sndBuf.map key = (k.sndBuf ++ (allow limit k.sndQueue k.sndNxt).1).map key
  queue : k'.sndQueue = (allow limit k.sndQueue k.sndNxt).2.1
  nxt : k'.sndNxt = (allow limit k.sndQueue k.sndNxt).2.2
  una : k'.sndUna = k.sndUna
  recv : k'.recvPart = (k.rcvNxt, k.rcvQueue, k.rcvBuf, [], k.rcvWnd)
  own : (k'.conv, k'.mtu, k'.mss, k'.stream) = (k.conv, k.mtu, k.mss, k.stream)

def armed (k : KCP) (now : UInt32) : KCP :=
  fillWindow { k.probeTimer now with
    current := now
    acklist := []
    askSend := false
    askTell := false }

theorem flushed_armed (k : KCP) (now : UInt32) : Flushed k (k.armed now) (k.sndUna + k.cwndNow) :=
  ⟨rfl, rfl, rfl, rfl, rfl, rfl⟩

theorem flushed_flush (k : KCP) (now : UInt32) : Flushed k (k.flush now).1 (k.sndUna + k.cwndNow) := by
  have ha := k.flushed_armed now
  have hkeys : ((k.armed now).sndBuf.map ((k.armed now).resend now)).map key = (k.armed now).sndBuf.map key := by
    rw [map_map]
    exact map_congr_left fun s _ => (k.armed now).resend_key now s
  unfold flush
  obtain ⟨hr, hs, ho⟩ := shrinkWindow_parts
    { k.armed now with sndBuf := (k.armed now).sndBuf.map ((k.armed now).resend now) }
    (((k.armed now).sndBuf.map ((k.armed now).due now (k.armed now).resentLimit)).contains .fast)
    (((k.armed now).sndBuf.map ((k.armed now).due now (k.armed now).resentLimit)).contains .timeout)
    (k.armed now).resentLimit (k.armed now).cwndNow
  simp only [sendPart, ownPart, Prod.mk.injEq] at hs ho
  obtain ⟨hs1, hs2, hs3⟩ := hs
  obtain ⟨ho1, ho2, ho3, ho4, ho5⟩ := ho
  refine ⟨?_, ho5.trans ha.queue, hs1.trans ha.nxt, hs2.trans ha.una, hr.trans ha.recv, ?_⟩
  · exact (congrArg (List.map key) hs3).trans (hkeys.trans ha.keys)
  · rw [← ha.own]
    exact Prod.ext ho1 (Prod.ext ho2 (Prod.ext ho3 ho4))

variable {w : Wire}

theorem controls_honest (hr : Receiving k sent' consumed) (hw : w ∈ k.controls now) :
    Honest w sent k.Taken k.rcvNxt.toNat := by
  unfold controls at hw
  simp only [mem_append, mem_map] at hw
  rcases hw with (⟨a, ha, rfl⟩ | hw) | hw
  · exact ⟨(by decide : cmdPush ≤ cmdAck), (by decide : cmdAck ≤ cmdWins), by simp, nofun, fun _ => hr.acks a ha,
    le_rfl⟩
  · split_ifs at hw
    · obtain rfl := mem_singleton.1 hw
      exact ⟨(by decide : cmdPush ≤ cmdWask), (by decide : cmdWask ≤ cmdWins), by simp, nofun, nofun, le_rfl⟩
    · cases hw
  · split_ifs at hw
    · obtain rfl := mem_singleton.1 hw
      exact ⟨(by decide : cmdPush ≤ cmdWins), (by decide : cmdWins ≤ cmdWins), by simp, nofun, nofun, le_rfl⟩
    · cases hw

theorem acked_of_due {resent : UInt32} {seg : Segment} (h : k.due now resent seg ≠ .no) : seg.acked = false := by
  by_contra hack
  rw [Bool.not_eq_false] at hack
  exact h (by rw [due, if_pos hack])

theorem pushes_honest {u : ℕ} (hf : Flight sent taken (k.armed now).sndBuf u) (hlen : ∀ f ∈ sent, f.2.length < 2 ^ 32)
    (hw : w ∈ (k.armed now).pushes now) : Honest w sent k.Taken k.rcvNxt.toNat := by
  unfold pushes at hw
  obtain ⟨seg, hseg, rfl⟩ := mem_map.1 hw
  obtain ⟨hmem, hdue⟩ := mem_filter.1 hseg
  obtain ⟨i, hi⟩ := List.getElem?_of_mem hmem
  have hst := hf.stored i seg hi
  have hfrag := hst.frag (acked_of_due (of_decide_eq_true hdue))
  refine ⟨(by decide : cmdPush ≤ cmdPush), (by decide : cmdPush ≤ cmdWins), hlen _ (mem_of_getElem? hfrag), fun _ => ?_,
    nofun, le_rfl⟩
  show sent[seg.sn.toNat]? = _
  rw [hst.sn]
  exact hfrag

theorem flush_honest (hs : Sending (k.flush now).1 sent taken) (hr : Receiving k sent' consumed)
    (hlen : ∀ f ∈ sent, f.2.length < 2 ^ 32) : ∀ p ∈ (k.flush now).2, ∃ ws, ws ≠ [] ∧ p = encodeAll k.conv ws ∧
      ∀ w ∈ ws, Honest w sent k.Taken k.rcvNxt.toNat := by
  intro p hp
  obtain ⟨ws, hne, rfl, hw⟩ := packed_foldl k.conv k.mtu (k.controls now ++ (k.armed now).pushes now) p hp
  have hf := hs.flight.congr ((k.flushed_armed now).keys.trans (k.flushed_flush now).keys.symm)
  refine ⟨ws, hne, rfl, fun w hmem => ?_⟩
  rcases mem_append.1 (hw w hmem) with h | h
  · exact controls_honest hr h
  · exact pushes_honest hf hlen h

/-- What a flush numbers: the segments it appends to those in flight. -/
def numbered (k : KCP) (now : UInt32) : List Frag := ((k.flush now).1.sndBuf.drop k.sndBuf.length).map frag

theorem numbered_eq (k : KCP) (now : UInt32) :
    k.numbered now = (allow (k.sndUna + k.cwndNow) k.sndQueue k.sndNxt).1.map frag := by
  have hkeys := congrArg (fun l => (l.drop k.sndBuf.length).map fun key => key.2.1) (k.flushed_flush now).keys
  simp only [← map_drop, drop_left, map_map] at hkeys
  exact hkeys

theorem Sending.flush (hs : Sending k sent taken) (hfresh : ∀ s ∈ k.sndQueue, s.acked = false)
    (hsmall : (sent ++ k.numbered now).length < 2 ^ 31) : Sending (k.flush now).1 (sent ++ k.numbered now) taken ∧
      k.numbered now ++ (k.flush now).1.sndQueue.map frag = k.sndQueue.map frag ∧
      ∀ s ∈ (k.flush now).1.sndQueue, s.acked = false := by
  have hfl := k.flushed_flush now
  rw [numbered_eq] at hsmall ⊢
  have had := admit_spec (k.sndUna + k.cwndNow) k.sndQueue k.sndNxt (by simpa [hs.nxt] using hsmall)
  obtain ⟨hm, hrest⟩ := had.fresh hfresh
  refine ⟨⟨hsmall, ?_, ?_⟩, ?_, ?_⟩
  · rw [hfl.nxt, had.next, hs.nxt]
    simp
  · rw [hfl.una]
    exact (Flight.allow hs.flight hs.nxt had hm).congr hfl.keys
  · rw [hfl.queue]
    exact had.frags
  · rw [hfl.queue]
    exact hrest

theorem Receiving.flush (hr : Receiving k sent consumed) (now : UInt32) :
    Receiving (k.flush now).1 sent consumed ∧ Keeps k (k.flush now).1 := by
  have hrecv := (k.flushed_flush now).recv
  have hquiet : Receiving { k with acklist := [] } sent consumed :=
    { hr with acks := nofun }
  exact ⟨hquiet.congr hrecv, (Keeps.of_acklist []).trans (.of_recvPart hrecv)⟩

end Fib.Kcp.KCP
