import Fib.Rtmp.Conn

/-! Whatever arrives, the connection counts the bytes of the partial messages it holds, and holds no more of them
than it may. -/

namespace Fib.Rtmp
open List Function

namespace Conn

def bufOf (c : Conn) (id : ℕ) : Bytes := ((c.inStreams id).map InStream.buf).getD []

def heldBytes (c : Conn) : ℕ := (c.inIds.map fun id => (c.bufOf id).length).sum

/-- How much the chunk streams other than `x` hold. -/
def heldByOthers (c : Conn) (x : ℕ) : ℕ := ((c.inIds.filter (· ≠ x)).map fun id => (c.bufOf id).length).sum

/-- What holds of the connection all along. -/
structure Holds (cfg : Config) (c : Conn) : Prop where
  nodup : c.inIds.Nodup
  ids : ∀ id, id ∈ c.inIds ↔ (c.inStreams id).isSome = true
  counted : c.partialBytes = c.heldBytes
  bounded : c.partialBytes ≤ cfg.maxMessageSize
  short : ∀ id s, c.inStreams id = some s → s.buf = [] ∨ s.buf.length < s.length

structure SameIn (c c' : Conn) : Prop where
  inStreams : c'.inStreams = c.inStreams
  inIds : c'.inIds = c.inIds
  partialBytes : c'.partialBytes = c.partialBytes

variable {cfg : Config} {c c' c'' : Conn}

theorem SameIn.refl : SameIn c c := ⟨rfl, rfl, rfl⟩

theorem SameIn.trans (h : SameIn c c') (h' : SameIn c' c'') : SameIn c c'' :=
  ⟨h'.1.trans h.1, h'.2.trans h.2, h'.3.trans h.3⟩

theorem SameIn.of_eq (h : SameIn c' c'') (h1 : c'.inStreams = c.inStreams) (h2 : c'.inIds = c.inIds)
    (h3 : c'.partialBytes = c.partialBytes) : SameIn c c'' := SameIn.trans ⟨h1, h2, h3⟩ h

theorem Holds.same (h : Holds cfg c) (hs : SameIn c c') : Holds cfg c' := by
  obtain ⟨h1, h2, h3⟩ := hs
  constructor
  · rw [h2]
    exact h.nodup
  · rw [h1, h2]
    exact h.ids
  · rw [h3, heldBytes, h2, h.counted]
    simp only [heldBytes, bufOf, h1]
  · rw [h3]
    exact h.bounded
  · rw [h1]
    exact h.short

/-! ### What does not touch them -/

theorem sameIn_output (c : Conn) (b : Bytes) : SameIn c (c.output cfg b).2 := by
  unfold output
  split_ifs <;> exact ⟨rfl, rfl, rfl⟩

variable {e : Option Error} {m : Message} {b : Bytes}

theorem sameIn_of_output (h : c.output cfg b = (e, c')) : SameIn c c' := by
  have hs : SameIn c (c.output cfg b).2 := sameIn_output c b
  rwa [h] at hs

theorem sameIn_writeMessage (c : Conn) (m : Message) : SameIn c (c.writeMessage cfg m).2 := by
  unfold writeMessage
  split_ifs
  · exact .refl
  · exact SameIn.of_eq (sameIn_output _ _) rfl rfl rfl

theorem sameIn_onMessage (c : Conn) (m : Message) : SameIn c (c.onMessage cfg m).2 := ⟨rfl, rfl, rfl⟩

theorem sameIn_of_onMessage (h : c.onMessage cfg m = (e, c')) : SameIn c c' := by
  have hs : SameIn c (c.onMessage cfg m).2 := sameIn_onMessage c m
  rwa [h] at hs

theorem sameIn_aggregate (m : Message) (fuel : ℕ) (base : Option ℕ) (b : Bytes) (c : Conn) :
    SameIn c (aggregate cfg m fuel base b c).2 := by
  induction fuel generalizing base b c with
  | zero => exact .refl
  | succ fuel ih =>
    unfold aggregate
    split_ifs
    · exact .refl
    simp only
    split_ifs
    · exact .refl
    · split
      · next heq => exact sameIn_of_onMessage heq
      · next heq => exact (sameIn_of_onMessage heq).trans (ih _ _ _)

theorem sameIn_maybeAck (c : Conn) : SameIn c (c.maybeAck cfg).2 := by
  unfold maybeAck
  split_ifs
  · exact .refl
  · exact SameIn.of_eq (sameIn_writeMessage _ _) rfl rfl rfl

theorem sameIn_handshakeStep {r : ℕ × Option Error × Conn} (h : c.handshakeStep cfg b = some r) : SameIn c r.2.2 := by
  unfold handshakeStep at h
  split_ifs at h
  · split at h
    · cases h
      exact .refl
    split at h
    all_goals
      next heq =>
      cases h
      exact (sameIn_of_output heq).trans ⟨rfl, rfl, rfl⟩
  · split at h
    · cases h
      exact .refl
    split at h
    all_goals
      next heq =>
      cases h
      exact (sameIn_of_output heq).trans ⟨rfl, rfl, rfl⟩
  · cases h
    exact ⟨rfl, rfl, rfl⟩

/-! ### One stream and the others -/

@[simp] theorem withBuf_buf (s : InStream) (b : Bytes) : (s.withBuf b).buf = b := rfl

section SetStream
variable (c : Conn) (x : ℕ) (s : InStream) (held : ℤ)

@[simp] theorem inStreams_setStream : (c.setStream x s held).inStreams = update c.inStreams x (some s) := rfl

@[simp] theorem partialBytes_setStream : (c.setStream x s held).partialBytes = held := rfl

theorem isSome_setStream (h : (c.inStreams x).isSome = true) (id : ℕ) :
    ((c.setStream x s held).inStreams id).isSome = (c.inStreams id).isSome := by
  rw [inStreams_setStream]
  by_cases he : id = x
  · subst he
    rw [update_self, h, Option.isSome_some]
  · rw [update_of_ne he]

end SetStream

theorem sum_filter_ne {l : List ℕ} (f : ℕ → ℕ) {x : ℕ} (h : l.Nodup) (hx : x ∉ l → f x = 0) :
    (l.map f).sum = ((l.filter (· ≠ x)).map f).sum + f x := by
  induction l with
  | nil => simp [hx not_mem_nil]
  | cons a l ih =>
    obtain ⟨ha, hl⟩ := nodup_cons.1 h
    by_cases he : a = x
    · subst he
      have hrest : l.filter (· ≠ a) = l := filter_eq_self.2 fun b hb => by
        simp only [decide_eq_true_eq]
        exact fun hba => ha (hba ▸ hb)
      rw [filter_cons_of_neg (by simp), hrest, map_cons, sum_cons, Nat.add_comm]
    · rw [filter_cons_of_pos (by simpa using he), map_cons, map_cons, sum_cons, sum_cons,
        ih hl fun hn => hx (by simp [hn, Ne.symm he]), Nat.add_assoc]

def Indexed (c : Conn) : Prop := c.inIds.Nodup ∧ ∀ id, id ∈ c.inIds ↔ (c.inStreams id).isSome = true

theorem heldBytes_eq (h : c.Indexed) (x : ℕ) : c.heldBytes = c.heldByOthers x + (c.bufOf x).length := by
  refine sum_filter_ne (fun id => (c.bufOf id).length) h.1 fun hx => ?_
  have hnone : c.inStreams x = none := by
    rw [h.2] at hx
    simpa using hx
  simp [bufOf, hnone]

theorem heldByOthers_congr {x : ℕ} (hids : c'.inIds = c.inIds)
    (h : ∀ id, id ≠ x → c'.inStreams id = c.inStreams id) : c'.heldByOthers x = c.heldByOthers x := by
  rw [heldByOthers, heldByOthers, hids]
  congr 1
  refine map_congr_left fun id hid => ?_
  have hne : id ≠ x := by simpa using (mem_filter.1 hid).2
  rw [bufOf, bufOf, h id hne]

/-- All but what the stream `x` holds is counted. -/
structure Counts (cfg : Config) (c : Conn) (x : ℕ) (s : InStream) : Prop where
  nodup : c.inIds.Nodup
  ids : ∀ id, id ∈ c.inIds ↔ (c.inStreams id).isSome = true
  here : c.inStreams x = some s
  counted : c.partialBytes = c.heldByOthers x
  bounded : c.partialBytes ≤ cfg.maxMessageSize
  short : ∀ id s, id ≠ x → c.inStreams id = some s → s.buf = [] ∨ s.buf.length < s.length

variable {x : ℕ} {s s' : InStream}

theorem Holds.counts (h : Holds cfg c) (hs : c.inStreams x = some s) (s' : InStream) :
    Counts cfg (c.setStream x s' (c.partialBytes - s.buf.length)) x s' := by
  have htotal := heldBytes_eq ⟨h.nodup, h.ids⟩ x
  have hbuf : c.bufOf x = s.buf := by simp [bufOf, hs]
  have hothers : (c.setStream x s' (c.partialBytes - s.buf.length)).heldByOthers x = c.heldByOthers x :=
    heldByOthers_congr rfl fun id hid => update_of_ne hid _ _
  have hcount := h.counted
  have hbound := h.bounded
  rw [hbuf] at htotal
  refine ⟨h.nodup, fun id => ?_, update_self _ _ _, ?_, ?_, fun id t hid ht => ?_⟩
  · rw [isSome_setStream _ _ _ _ (by rw [hs]; rfl)]
    exact h.ids id
  · rw [hothers, partialBytes_setStream]
    omega
  · rw [partialBytes_setStream]
    omega
  · rw [inStreams_setStream, update_of_ne hid] at ht
    exact h.short id t ht

section
variable (h : Counts cfg c x s)
include h

theorem Counts.holds (s' : InStream) (hs : s'.buf = [] ∨ s'.buf.length < s'.length)
    (hfit : c.partialBytes + s'.buf.length ≤ cfg.maxMessageSize) :
    Holds cfg (c.setStream x s' (c.partialBytes + s'.buf.length)) := by
  have hids : ∀ id, id ∈ c.inIds ↔
      ((c.setStream x s' (c.partialBytes + s'.buf.length)).inStreams id).isSome = true := by
    intro id
    rw [isSome_setStream _ _ _ _ (by rw [h.here]; rfl)]
    exact h.ids id
  have hothers : (c.setStream x s' (c.partialBytes + s'.buf.length)).heldByOthers x = c.heldByOthers x :=
    heldByOthers_congr rfl fun id hid => update_of_ne hid _ _
  have hbuf : (c.setStream x s' (c.partialBytes + s'.buf.length)).bufOf x = s'.buf := by simp [bufOf]
  refine ⟨h.nodup, hids, ?_, hfit, fun id t ht => ?_⟩
  · have hindexed : (c.setStream x s' (c.partialBytes + s'.buf.length)).Indexed := ⟨h.nodup, hids⟩
    rw [heldBytes_eq hindexed x, hothers, hbuf, partialBytes_setStream, h.counted, Nat.cast_add]
  rw [inStreams_setStream] at ht
  by_cases he : id = x
  · subst he
    rw [update_self, Option.some.injEq] at ht
    rwa [← ht]
  · rw [update_of_ne he] at ht
    exact h.short id t he ht

theorem Counts.same (hs : SameIn c c') : Counts cfg c' x s := by
  obtain ⟨h1, h2, h3⟩ := hs
  constructor
  · rw [h2]
    exact h.nodup
  · rw [h1, h2]
    exact h.ids
  · rw [h1]
    exact h.here
  · rw [h3, h.counted, heldByOthers_congr h2 fun id _ => by rw [h1]]
  · rw [h3]
    exact h.bounded
  · rw [h1]
    exact h.short

theorem Counts.abort (id : ℕ) : Counts cfg (c.abort x id) x s := by
  unfold Conn.abort
  cases ha : c.inStreams id with
  | none => exact h
  | some a =>
    simp only
    split_ifs with he
    · exact h
    -- the rest of the streams are those that are neither `x` nor `id`
    have hother : ∀ c' : Conn, c'.inIds = c.inIds → c'.heldByOthers x =
        (((c.inIds.filter (· ≠ x)).filter (· ≠ id)).map fun j => (c'.bufOf j).length).sum + (c'.bufOf id).length := by
      intro c' hids
      rw [heldByOthers, hids]
      refine sum_filter_ne _ (h.nodup.filter _) fun hn => ?_
      have hmem : id ∈ c.inIds.filter (· ≠ x) :=
        mem_filter.2 ⟨(h.ids id).2 (by rw [ha]; rfl), by simpa using he⟩
      exact absurd hmem hn
    have hsame : ∀ j ∈ (c.inIds.filter (· ≠ x)).filter (· ≠ id),
        ((c.setStream id (a.withBuf []) (c.partialBytes - a.buf.length)).bufOf j).length = (c.bufOf j).length := by
      intro j hj
      have hne : j ≠ id := by simpa using (mem_filter.1 hj).2
      simp [bufOf, update_of_ne hne]
    have hc := h.counted
    have hb := h.bounded
    refine ⟨h.nodup, fun j => ?_, ?_, ?_, ?_, fun j t hj ht => ?_⟩
    · rw [isSome_setStream _ _ _ _ (by rw [ha]; rfl)]
      exact h.ids j
    · rw [inStreams_setStream, update_of_ne (Ne.symm he)]
      exact h.here
    · have h1 := hother c rfl
      have h2 := hother (c.setStream id (a.withBuf []) (c.partialBytes - a.buf.length)) rfl
      rw [map_congr_left hsame] at h2
      have hbuf : (c.bufOf id).length = a.buf.length := by simp [bufOf, ha]
      have hempty : ((c.setStream id (a.withBuf []) (c.partialBytes - a.buf.length)).bufOf id).length = 0 := by
        simp [bufOf]
      rw [partialBytes_setStream]
      omega
    · rw [partialBytes_setStream]
      omega
    · rw [inStreams_setStream] at ht
      by_cases hj' : j = id
      · subst hj'
        rw [update_self, Option.some.injEq] at ht
        left
        rw [← ht, withBuf_buf]
      · rw [update_of_ne hj'] at ht
        exact h.short j t hj ht

theorem Counts.message (hm : m.chunkStreamID = x) : Counts cfg (c.message cfg m).2 x s := by
  unfold Conn.message
  split_ifs
  · exact h
  · exact h
  · exact h.same ⟨rfl, rfl, rfl⟩
  · rw [hm]
    exact h.abort _
  · exact h
  · exact h
  · exact h.same ⟨rfl, rfl, rfl⟩
  · exact h
  · exact h.same (SameIn.of_eq (sameIn_writeMessage _ _) rfl rfl rfl)
  · exact h
  · exact h.same (sameIn_writeMessage _ _)
  · exact h.same (sameIn_aggregate _ _ _ _ _)
  · exact h.same (sameIn_onMessage _ _)

end

/-! ### Chunks -/

variable (h : Holds cfg c)
include h
section
variable (hs : c.inStreams x = some s)
include hs

theorem Holds.hold (data : Bytes) (off : ℕ) : Holds cfg (c.hold cfg x s data off).2.2 := by
  have hlen : (s.buf ++ data).length = s.buf.length + data.length := length_append
  have hcounts := h.counts hs (s.withBuf (s.buf ++ data))
  unfold Conn.hold
  split_ifs with hfit
  · exact h
  simp only
  split_ifs with hpart
  · have hput := hcounts.holds (s.withBuf (s.buf ++ data)) (Or.inr hpart) (by
      rw [partialBytes_setStream, withBuf_buf, hlen]
      push_cast
      omega)
    refine hput.same ⟨?_, rfl, ?_⟩
    · simp
    · simp only [partialBytes_setStream, withBuf_buf, hlen]
      push_cast
      omega
  · have hp : c.partialBytes + data.length - (s.buf ++ data).length = c.partialBytes - s.buf.length := by
      rw [hlen]
      push_cast
      omega
    rw [withBuf_buf, hp]
    have hmsg := hcounts.message (m := InStream.toMessage (s.withBuf (s.buf ++ data)) x (s.buf ++ data)) rfl
    have hput := hmsg.holds (s.withBuf []) (Or.inl rfl) (by
      simpa using hmsg.bounded)
    refine hput.same ⟨rfl, rfl, ?_⟩
    simp

theorem Holds.begin (hs' : s'.buf = []) : Holds cfg (c.begin x s s') := by
  have hput := (h.counts hs s').holds s' (Or.inl hs') (by
    have := (h.counts hs s').bounded
    rw [hs']
    simpa using this)
  refine hput.same ⟨?_, rfl, ?_⟩
  · simp [Conn.begin]
  · simp [Conn.begin, hs']

theorem Holds.payload (hs' : s'.buf = []) (format : ℕ)
    (data : Bytes) (off : ℕ) : Holds cfg (c.payload cfg x s s' format data off).2.2 := by
  unfold Conn.payload
  split_ifs
  · exact h.hold hs data off
  · have hmsg := (h.counts hs s').message (m := s'.toMessage x data) rfl
    have hput := hmsg.holds s' (Or.inl hs') (by simpa [hs'] using hmsg.bounded)
    refine hput.same ⟨?_, rfl, ?_⟩
    · rw [inStreams_setStream]
      exact (update_eq_self_iff.2 hmsg.here.symm).symm
    · simp [hs', Conn.begin]
  · exact (h.begin hs hs').hold (update_self _ _ _) data off

theorem Holds.body (format : ℕ) (head : Head) (b : Bytes)
    (off : ℕ) : Holds cfg (c.body cfg x s format head b off).2.2 := by
  unfold Conn.body
  split
  · exact h
  simp only
  split_ifs
  · exact h
  · exact h
  · exact h.payload hs rfl _ _ _

end

theorem Holds.stream {format : ℕ} (hs : c.stream format x = some (s, c')) : Holds cfg c' ∧ c'.inStreams x = some s := by
  unfold Conn.stream at hs
  cases hx : c.inStreams x with
  | some t =>
    rw [hx] at hs
    cases hs
    exact ⟨h, hx⟩
  | none =>
    rw [hx] at hs
    split_ifs at hs
    cases hs
    have hnot : x ∉ c.inIds := by
      rw [h.ids, hx]
      simp
    have hids : ∀ id, id ∈ x :: c.inIds ↔ (update c.inStreams x (some ({} : InStream)) id).isSome = true := by
      intro id
      by_cases he : id = x
      · subst he
        simp
      · rw [update_of_ne he, ← h.ids, mem_cons, or_iff_right he]
    refine ⟨⟨nodup_cons.2 ⟨hnot, h.nodup⟩, hids, ?_, h.bounded, fun id t ht => ?_⟩, update_self _ _ _⟩
    · have hrest : c.inIds.map (fun id => (Conn.bufOf { c with
            inStreams := update c.inStreams x (some {}), inIds := x :: c.inIds } id).length) =
          c.inIds.map fun id => (c.bufOf id).length := by
        refine map_congr_left fun id hid => ?_
        have hne : id ≠ x := fun he => hnot (he ▸ hid)
        simp [bufOf, update_of_ne hne]
      rw [heldBytes, map_cons, sum_cons, hrest]
      simp [bufOf, h.counted, heldBytes]
    · by_cases he : id = x
      · subst he
        simp only [update_self, Option.some.injEq] at ht
        left
        rw [← ht]
      · simp only [update_of_ne he] at ht
        exact h.short id t ht

theorem Holds.chunk (b : Bytes) : Holds cfg (c.chunk cfg b).2.2 := by
  unfold Conn.chunk
  split
  · exact h
  split_ifs
  · exact h
  split
  · exact h
  · next hs =>
    obtain ⟨hc, hx⟩ := h.stream hs
    exact hc.body hx _ _ _ _

theorem Holds.readChunks (fuel : ℕ) (b : Bytes) : Holds cfg (Conn.readChunks cfg fuel c b).2.2 := by
  induction fuel generalizing c b with
  | zero => exact h
  | succ fuel ih =>
    have hchunk := h.chunk b
    unfold Conn.readChunks
    split_ifs
    · exact h
    split
    · next heq => rwa [heq] at hchunk
    · next heq => rwa [heq] at hchunk
    next n c1 heq =>
    rw [heq] at hchunk
    have hack : SameIn c1 ((c1.countIn (n + 1)).maybeAck cfg).2 :=
      (sameIn_maybeAck _).of_eq rfl rfl rfl
    split
    · next heq' =>
      rw [heq'] at hack
      exact hchunk.same hack
    · next heq' =>
      rw [heq'] at hack
      exact ih (hchunk.same hack) _

theorem Holds.readFrom (fuel : ℕ) (b : Bytes) : Holds cfg (Conn.readFrom cfg fuel c b).2.2 := by
  induction fuel generalizing c b with
  | zero => exact h.readChunks _ b
  | succ fuel ih =>
    unfold Conn.readFrom
    split_ifs
    · exact h.readChunks _ b
    · split
      · exact h
      · next heq => exact h.same (sameIn_handshakeStep heq)
      · next heq => exact ih (h.same (sameIn_handshakeStep heq)) _

end Conn

variable {cfg : Config} {r : Reader}

theorem holds_feed (h : r.conn.Holds cfg) (b : Bytes) : (r.feed cfg b).2.conn.Holds cfg := by
  unfold Reader.feed
  split_ifs
  · exact h
  · exact h.readFrom 2 _

theorem holds_feeds (h : r.conn.Holds cfg) (calls : List Bytes) : (r.feeds cfg calls).conn.Holds cfg := by
  induction calls generalizing r with
  | nil => exact h
  | cons b calls ih => exact ih (holds_feed h b)

theorem holds_new (cfg : Config) : Conn.Holds cfg {} :=
  ⟨nodup_nil, fun id => by simp, rfl, Int.natCast_nonneg _, fun id s hs => by cases hs⟩

end Fib.Rtmp
