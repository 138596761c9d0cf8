import Fib.Rtmp.Conn

/-! Chunks as they are read: what is there of one is read as soon as all of it is, however it was cut. -/

namespace Fib.Rtmp
open List UInt8 Or Prod Nat Option

/-! ### A chunk that is not all there -/

variable {p b : Bytes} {format csid : ℕ} {r : Reader}

theorem basicHeader_isPrefix (hp : p <+: b) {r : ℕ × ℕ × ℕ} (h : basicHeader p = some r) : basicHeader b = some r := by
  obtain ⟨t, rfl⟩ := hp
  rcases p with _ | ⟨x, _ | ⟨y, _ | ⟨z, p⟩⟩⟩
  · cases h
  all_goals
    simp only [basicHeader, cons_append, nil_append] at h ⊢
    split_ifs at h ⊢ <;> exact h

variable {cfg : Config} {c : Conn}

theorem readExt_prefix (hp : p <+: b) (s : InStream) (format ts off : ℕ) :
    s.readExt format ts p off = none ∨ s.readExt format ts p off = s.readExt format ts b off := by
  have hle := hp.length_le
  unfold InStream.readExt
  by_cases hext : (format ≤ 2 ∧ ts = extended) ∨ (format = 3 ∧ s.ext = true)
  · rw [if_pos hext, if_pos hext]
    by_cases hshort : p.length < off + 4
    · rw [if_pos hshort]
      exact inl rfl
    · have hlong : ¬ b.length < off + 4 := by omega
      rw [if_neg hshort, if_neg hlong, slice_of_prefix hp (by omega)]
      exact inr rfl
  · rw [if_neg hext, if_neg hext]
    exact inr rfl

theorem body_prefix (hp : p <+: b) (csid : ℕ) (s : InStream) (format : ℕ) (h : Head) (off : ℕ) :
    c.body cfg csid s format h p off = (0, none, c) ∨
      c.body cfg csid s format h p off = c.body cfg csid s format h b off := by
  have hle := hp.length_le
  unfold Conn.body
  rcases readExt_prefix hp s format h.tsField off with hn | heq
  · rw [hn]
    exact inl rfl
  rw [heq]
  rcases s.readExt format h.tsField b off with _ | ⟨-, -, off'⟩
  · exact inl rfl
  simp only
  by_cases hmax : cfg.maxMessageSize < h.length
  · rw [if_pos hmax, if_pos hmax]
    exact inr rfl
  rw [if_neg hmax, if_neg hmax]
  by_cases hshort : p.length < off' + c.dataLength s format h
  · rw [if_pos hshort]
    exact inl rfl
  · rw [if_neg hshort, if_neg (by omega), slice_of_prefix hp (by omega)]
    exact inr rfl

/-- Reading the front of some input is reading the input, or waiting for more of it: then at most the chunk's
stream was opened. -/
theorem chunk_prefix (hp : p <+: b) : c.chunk cfg p = c.chunk cfg b ∨ ∃ c', c.chunk cfg p = (0, none, c') ∧
    (c' = c ∨ ∃ format csid off s, basicHeader p = some (format, csid, off) ∧ c.stream format csid = some (s, c')) := by
  have hle := hp.length_le
  unfold Conn.chunk
  rcases hh : basicHeader p with _ | ⟨format, csid, off⟩
  · exact inr ⟨c, rfl, inl rfl⟩
  rw [basicHeader_isPrefix hp hh]
  simp only
  by_cases hshort : p.length < off + headerSize format
  · rw [if_pos hshort]
    exact inr ⟨c, rfl, inl rfl⟩
  rw [if_neg hshort, if_neg (by omega), slice_of_prefix hp (by omega)]
  rcases hs : c.stream format csid with _ | ⟨s, c'⟩
  · exact inl rfl
  set head := s.head format (slice b off (headerSize format))
  have hbody : c'.body cfg csid s format head p (off + headerSize format) = (0, none, c') ∨
      c'.body cfg csid s format head p (off + headerSize format) =
        c'.body cfg csid s format head b (off + headerSize format) := body_prefix hp csid s format head _
  rcases hbody with hw | heq
  · exact inr ⟨c', hw, inr ⟨format, csid, off, s, rfl, hs⟩⟩
  · exact inl heq

/-! ### A chunk that is all there -/

structure Chunk where
  format : ℕ
  csid : ℕ
  header : Bytes
  ext : Option ℕ
  data : Bytes
deriving DecidableEq

def extBytes (ext : Option ℕ) : Bytes := (ext.map (putBE 4)).getD []

def Chunk.bytes (k : Chunk) : Bytes :=
  appendBasicHeader k.format k.csid ++ (k.header ++ (extBytes k.ext ++ k.data))

theorem basicHeader_append (hf : format ≤ 3) (hc : 2 ≤ csid ∧ csid < 65600) (t : Bytes) :
    basicHeader (appendBasicHeader format csid ++ t) = some (format, csid, (appendBasicHeader format csid).length) := by
  unfold appendBasicHeader
  split_ifs with h1 h2
  · have hb : (ofNat (format * 64 + csid)).toNat = format * 64 + csid := by
      rw [toNat_ofNat']
      omega
    simp only [singleton_append, basicHeader.eq_def, hb, length_singleton]
    rw [if_neg (by omega), if_neg (by omega), some.injEq, mk.injEq, mk.injEq]
    omega
  · have hb : (ofNat (format * 64)).toNat = format * 64 := by
      rw [toNat_ofNat']
      omega
    have hid : (ofNat (csid - 64)).toNat = csid - 64 := by
      rw [toNat_ofNat']
      omega
    simp only [cons_append, nil_append, basicHeader.eq_def, hb, hid, length_cons, length_nil]
    rw [if_pos (by omega), some.injEq, mk.injEq, mk.injEq]
    omega
  · have hb : (ofNat (format * 64 + 1)).toNat = format * 64 + 1 := by
      rw [toNat_ofNat']
      omega
    simp only [cons_append, nil_append, basicHeader.eq_def, hb, toNat_ofNat', length_cons, length_nil]
    rw [if_neg (by omega), if_pos (by omega), some.injEq, mk.injEq, mk.injEq]
    omega

/-- The chunk is one that can be read next: of the stream `s`, after which the connection is `c'`. -/
structure Chunk.Next (cfg : Config) (c : Conn) (k : Chunk) (s : InStream) (c' : Conn) : Prop where
  csid : 2 ≤ k.csid ∧ k.csid < 65600
  format : k.format ≤ 3
  header : k.header.length = headerSize k.format
  stream : c.stream k.format k.csid = some (s, c')
  ext : k.ext.isSome = true ↔
    (k.format ≤ 2 ∧ (s.head k.format k.header).tsField = extended) ∨ (k.format = 3 ∧ s.ext = true)
  extValue : ∀ v ∈ k.ext, v < 2 ^ 32 ∧ (s.continuing k.format = true → v = s.extValue)
  fits : (s.head k.format k.header).length ≤ cfg.maxMessageSize
  data : k.data.length = c'.dataLength s k.format (s.head k.format k.header)

variable {k : Chunk} {s : InStream} {c' : Conn}

theorem readExt_append (h : k.Next cfg c s c') (a t : Bytes) :
    s.readExt k.format (s.head k.format k.header).tsField (a ++ (extBytes k.ext ++ t)) a.length =
      some (k.ext.isSome, k.ext.getD 0, a.length + (extBytes k.ext).length) := by
  have hext := h.ext
  have hval := h.extValue
  unfold InStream.readExt
  rcases hk : k.ext with _ | v
  · rw [hk] at hext
    rw [if_neg fun hc => absurd (hext.2 hc) (by simp)]
    rfl
  rw [hk] at hext hval
  obtain ⟨hlt, hsame⟩ := hval v rfl
  have hlen : (extBytes (some v)).length = 4 := length_putBE 4 v
  have hslice : slice (a ++ (extBytes (some v) ++ t)) a.length 4 = putBE 4 v := by
    have := slice_middle a (extBytes (some v)) t
    rwa [hlen] at this
  have hget : getBE (slice (a ++ (extBytes (some v) ++ t)) a.length 4) = v := by
    rw [hslice]
    exact getBE_putBE (by omega)
  rw [if_pos (hext.1 rfl), if_neg (by simp [hlen]), hget, if_neg (by
    rintro ⟨hc, hne⟩
    exact hne (hsame hc)), hlen]
  rfl

theorem Chunk.Next.chunk (h : k.Next cfg c s c') (t : Bytes) : c.chunk cfg (k.bytes ++ t) =
    c'.payload cfg k.csid s (s.start k.format (s.head k.format k.header) k.ext.isSome (k.ext.getD 0)) k.format
      k.data k.bytes.length := by
  set hd := appendBasicHeader k.format k.csid with hhd
  have hb : k.bytes ++ t = hd ++ (k.header ++ (extBytes k.ext ++ (k.data ++ t))) := by
    simp only [Chunk.bytes, ← hhd, append_assoc]
  have hslice : slice (k.bytes ++ t) hd.length (headerSize k.format) = k.header := by
    rw [hb, ← h.header]
    exact slice_middle _ _ _
  have hext : s.readExt k.format (s.head k.format k.header).tsField (k.bytes ++ t)
      (hd.length + headerSize k.format) =
      some (k.ext.isSome, k.ext.getD 0, hd.length + headerSize k.format + (extBytes k.ext).length) := by
    have := readExt_append h (hd ++ k.header) (k.data ++ t)
    rw [length_append, h.header] at this
    rwa [hb, ← append_assoc]
  have hlen : k.bytes.length = hd.length + headerSize k.format + (extBytes k.ext).length + k.data.length := by
    simp only [Chunk.bytes, ← hhd, length_append, h.header]
    omega
  have hdata : slice (k.bytes ++ t) (hd.length + headerSize k.format + (extBytes k.ext).length) k.data.length =
      k.data := by
    have hpre : hd.length + headerSize k.format + (extBytes k.ext).length =
        (hd ++ (k.header ++ extBytes k.ext)).length := by
      simp only [length_append, h.header]
      omega
    have hb' : k.bytes ++ t = (hd ++ (k.header ++ extBytes k.ext)) ++ (k.data ++ t) := by
      rw [hb]
      simp
    rw [hpre, hb']
    exact slice_middle _ _ _
  have hall : (k.bytes ++ t).length = k.bytes.length + t.length := length_append
  unfold Conn.chunk
  have hbasic : basicHeader (k.bytes ++ t) = some (k.format, k.csid, hd.length) := by
    rw [hb]
    exact basicHeader_append h.format h.csid _
  rw [hbasic]
  simp only
  rw [if_neg (by omega), h.stream, hslice]
  simp only [Conn.body, hext]
  have hfits := h.fits
  rw [if_neg (by omega), ← h.data, if_neg (by omega), hdata, ← hlen]

/-! ### One chunk after another -/

theorem hold_le (c : Conn) (csid : ℕ) (s : InStream) (data : Bytes) (off : ℕ) :
    (c.hold cfg csid s data off).1 ≤ off := by
  unfold Conn.hold
  simp only
  split_ifs
  · exact zero_le off
  · exact le_rfl
  · exact le_rfl

theorem chunk_le (b : Bytes) : (c.chunk cfg b).1 ≤ b.length := by
  unfold Conn.chunk
  split
  · exact zero_le _
  split_ifs
  · exact zero_le _
  split
  · exact zero_le _
  unfold Conn.body
  split
  · exact zero_le _
  simp only
  split_ifs with hmax hshort
  · exact zero_le _
  · exact zero_le _
  refine le_trans ?_ (not_lt.1 hshort)
  unfold Conn.payload
  split_ifs
  · exact hold_le _ _ _ _ _
  · exact le_rfl
  · exact hold_le _ _ _ _ _

theorem stream_again (h : c.stream format csid = some (s, c')) :
    c'.stream format csid = some (s, c') ∧ c'.closed = c.closed ∧ c'.state = c.state := by
  unfold Conn.stream at h ⊢
  rcases hs : c.inStreams csid with _ | t
  · rw [hs] at h
    split_ifs at h
    cases h
    simp
  · rw [hs] at h
    cases h
    rw [hs]
    exact ⟨rfl, rfl, rfl⟩

/-- Reading the chunk makes the connection `c'`. -/
def Chunk.Reads (cfg : Config) (c : Conn) (k : Chunk) (c' : Conn) : Prop :=
  ∃ s c1, k.Next cfg c s c1 ∧ c1.payload cfg k.csid s
    (s.start k.format (s.head k.format k.header) k.ext.isSome (k.ext.getD 0)) k.format k.data k.bytes.length =
      (k.bytes.length, none, c')

theorem Chunk.Reads.chunk (h : k.Reads cfg c c') (t : Bytes) :
    c.chunk cfg (k.bytes ++ t) = (k.bytes.length, none, c') := by
  obtain ⟨s, c1, hnext, hpay⟩ := h
  rw [hnext.chunk, hpay]

/-- Until all of the chunk is there, nothing happens but that its stream may be opened. -/
theorem Chunk.Reads.wait (h : k.Reads cfg c c') {p : Bytes} (hp : p <+: k.bytes) (hlt : p.length < k.bytes.length) :
    ∃ c0, c.chunk cfg p = (0, none, c0) ∧ k.Reads cfg c0 c' ∧ c0.closed = c.closed ∧ c0.state = c.state := by
  rcases chunk_prefix hp with heq | ⟨c0, hw, rfl | ⟨format, csid, off, t, hh, hs⟩⟩
  · have hle : (c.chunk cfg p).1 ≤ p.length := chunk_le p
    have hall := h.chunk []
    rw [append_nil] at hall
    rw [heq, hall] at hle
    exact absurd hle (not_le.2 hlt)
  · exact ⟨c, hw, h, rfl, rfl⟩
  obtain ⟨s, c1, hnext, hpay⟩ := h
  have hbasic : basicHeader k.bytes = some (k.format, k.csid, (appendBasicHeader k.format k.csid).length) :=
    basicHeader_append hnext.format hnext.csid _
  rw [basicHeader_isPrefix hp hh, Option.some.injEq, Prod.mk.injEq, Prod.mk.injEq] at hbasic
  rw [hbasic.1, hbasic.2.1, hnext.stream, Option.some.injEq, Prod.mk.injEq] at hs
  obtain ⟨rfl, rfl⟩ := hs
  obtain ⟨hagain, hclosed, hstate⟩ := stream_again hnext.stream
  exact ⟨c1, hw, ⟨s, c1, { hnext with stream := hagain }, hpay⟩, hclosed, hstate⟩

structure Conn.Going (c : Conn) : Prop where
  closed : c.closed = false
  state : c.state = .done

/-- Reading the chunks one after the other makes the connection `c'`. -/
inductive Chain (cfg : Config) : Conn → List Chunk → Conn → Prop
  | nil (c : Conn) : Chain cfg c [] c
  | cons {c c1 c' : Conn} {k : Chunk} {ks : List Chunk} : k.Reads cfg c c1 → c1.Going → c1.peerWindow = 0 →
      Chain cfg (c1.countIn k.bytes.length) ks c' → Chain cfg c (k :: ks) c'

theorem Chain.append {c1 c2 c3 : Conn} {ks ks' : List Chunk} (h : Chain cfg c1 ks c2) (h' : Chain cfg c2 ks' c3) :
    Chain cfg c1 (ks ++ ks') c3 := by
  induction h with
  | nil c => exact h'
  | cons hr hg hw _ ih => exact .cons hr hg hw (ih h')

theorem Chunk.bytes_pos (k : Chunk) : 0 < k.bytes.length := by
  have hpos : 0 < (appendBasicHeader k.format k.csid).length := by
    unfold appendBasicHeader
    split_ifs <;> simp
  rw [Chunk.bytes, length_append]
  omega

/-- What is due: the chunks whose bytes are `p ++ q`, the first of which is not all in `p`. -/
def Due (cfg : Config) (c : Conn) (p q : Bytes) (c' : Conn) : Prop :=
  c.Going ∧ ∃ ks, Chain cfg c ks c' ∧ p ++ q = ks.flatMap Chunk.bytes ∧ ∀ k ∈ ks.head?, p.length < k.bytes.length

theorem readChunks_chain {ks : List Chunk} (h : Chain cfg c ks c') (hg : c.Going) {p q : Bytes}
    (hpq : p ++ q = ks.flatMap Chunk.bytes) {fuel : ℕ} (hf : p.length < fuel) :
    ∃ n c0, Conn.readChunks cfg fuel c p = (n, none, c0) ∧ Due cfg c0 (p.drop n) q c' := by
  induction h generalizing p fuel with
  | nil c =>
    obtain ⟨rfl, rfl⟩ := append_eq_nil_iff.1 hpq
    refine ⟨0, c, ?_, hg, [], .nil c, rfl, by simp⟩
    cases fuel with
    | zero => rfl
    | succ fuel =>
      rw [Conn.readChunks, if_neg (by rw [hg.closed]; decide)]
      rfl
  | @cons c c1 c' k ks hr hg1 hw hrest ih =>
    obtain ⟨fuel, rfl⟩ : ∃ n, fuel = n + 1 := ⟨fuel - 1, by omega⟩
    rw [flatMap_cons] at hpq
    rw [Conn.readChunks, if_neg (by rw [hg.closed]; decide)]
    rcases Nat.lt_or_ge p.length k.bytes.length with hlt | hge
    · -- the chunk is not all there
      have hp : p <+: k.bytes := by
        have h1 : p <+: k.bytes ++ ks.flatMap Chunk.bytes := hpq ▸ prefix_append p q
        exact prefix_of_prefix_length_le h1 (prefix_append _ _) hlt.le
      obtain ⟨c0, hwait, hr0, hclosed, hstate⟩ := hr.wait hp hlt
      refine ⟨0, c0, by rw [hwait], ⟨hclosed.trans hg.closed, hstate.trans hg.state⟩, k :: ks,
        .cons hr0 hg1 hw hrest, ?_, ?_⟩
      · rw [drop_zero, hpq, flatMap_cons]
      · intro k' hk
        rw [List.head?_cons, Option.mem_some_iff] at hk
        rwa [drop_zero, ← hk]
    · have hp : k.bytes <+: p := by
        have h1 : k.bytes <+: p ++ q := hpq ▸ prefix_append _ _
        exact prefix_of_prefix_length_le h1 (prefix_append p q) hge
      obtain ⟨p', rfl⟩ := hp
      rw [append_assoc, append_cancel_left_eq] at hpq
      obtain ⟨m, hm⟩ : ∃ m, k.bytes.length = m + 1 := ⟨k.bytes.length - 1, by have := k.bytes_pos; omega⟩
      rw [length_append] at hf
      obtain ⟨n, c0, hread, hdue⟩ := ih ⟨hg1.closed, hg1.state⟩ hpq (by omega : p'.length < fuel)
      have hack : (c1.countIn (m + 1)).maybeAck cfg = (none, c1.countIn (m + 1)) := if_pos (inl hw)
      refine ⟨k.bytes.length + n, c0, ?_, ?_⟩
      · rw [hr.chunk, hm]
        simp only [hack]
        rw [← hm, drop_left, hread]
      · rwa [List.drop_append, Nat.add_sub_cancel_left, drop_of_length_le (by omega), nil_append]

theorem Due.feed {b q : Bytes} (h : Due cfg r.conn r.input (b ++ q) c') :
    Due cfg (r.feed cfg b).2.conn (r.feed cfg b).2.input q c' := by
  obtain ⟨hg, ks, hchain, hpq, -⟩ := h
  rw [← append_assoc] at hpq
  obtain ⟨n, c0, hread, hdue⟩ := readChunks_chain hchain hg hpq (Nat.lt_succ_self _)
  have hfeed : r.feed cfg b = (none, ⟨c0, (r.input ++ b).drop n⟩) := by
    rw [Reader.feed, if_neg (by rw [hg.closed]; decide)]
    simp only [Conn.read, Conn.readFrom, if_pos hg.state, hread]
  rw [hfeed]
  exact hdue

theorem Due.feeds {calls : List Bytes} (h : Due cfg r.conn r.input calls.flatten c') :
    (r.feeds cfg calls).conn = c' := by
  induction calls generalizing r with
  | nil =>
    obtain ⟨-, ks, hchain, hpq, hhead⟩ := h
    rw [flatten_nil, append_nil] at hpq
    cases hchain with
    | nil => rfl
    | @cons c c1 c' k ks hr hg hw hrest =>
      have hlt := hhead k rfl
      rw [hpq, flatMap_cons, length_append] at hlt
      omega
  | cons b calls ih =>
    rw [flatten_cons] at h
    exact ih h.feed

end Fib.Rtmp
