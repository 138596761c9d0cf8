import Fib.Quic.Recovery
import Fib.Quic.Varint

/-! The round-trip samples of acknowledgements (`handleAckFrame` in http3/quic/frames.go, `rttStats.update` in
http3/quic/recovery.go). The delay a peer tells of is shifted and multiplied in 64 bits without a check, so a sample is
sane exactly when that does not wrap. -/

namespace Fib.Quic
open RttStats

/-! ### The frame -/

/-- An ACK frame: the delay as it was encoded, and the ranges from the one with the largest number down. -/
structure AckFrame where
  delay : ℕ
  first : PnRange
  more : List PnRange
deriving DecidableEq

def readRanges : ℕ → ℕ → Bytes → Option (List PnRange × Bytes)
  | 0, _, b => some ([], b)
  | count + 1, smallest, b => do
    let (gap, b) ← readVarint b
    let (length, b) ← readVarint b
    if smallest < gap + 2 ∨ smallest - gap - 2 < length then none
    else
      let hi := smallest - gap - 2
      let (ranges, b) ← readRanges count (hi - length) b
      some (⟨hi - length, hi⟩ :: ranges, b)

def readEcn (ecn : Bool) (b : Bytes) : Option Bytes :=
  if ecn then do
    let (_, b) ← readVarint b
    let (_, b) ← readVarint b
    let (_, b) ← readVarint b
    some b
  else some b

def readAck (ecn : Bool) (b : Bytes) : Option (AckFrame × Bytes) := do
  let (largest, b) ← readVarint b
  let (delay, b) ← readVarint b
  let (count, b) ← readVarint b
  let (first, b) ← readVarint b
  if largest < first ∨ 2 ^ 16 < count then none
  else
    let (ranges, b) ← readRanges count (largest - first) b
    let b ← readEcn ecn b
    some (⟨delay, ⟨largest - first, largest⟩, ranges⟩, b)

/-- The transport parameters of a peer that acknowledgements depend on, as `parseParams` lets them through. -/
structure AckParams where
  ackDelayExponent : Fin 21
  /-- In milliseconds. -/
  maxAckDelay : Fin (2 ^ 14)

def ackDelayExponent : Option AckParams → ℕ
  | none => 3
  | some p => p.ackDelayExponent

def peerMaxAckDelay : Option AckParams → ℤ
  | none => 25000000
  | some p => p.maxAckDelay * 1000000

/-- `time.Duration(delay<<exp) * time.Microsecond`. -/
def ackDelay (params : Option AckParams) (delay : ℕ) : ℤ :=
  int64 (int64 (delay * 2 ^ ackDelayExponent params % 2 ^ 64) * 1000)

def handleAckFrame (c : Recovery) (params : Option AckParams) (i : SpaceId) (ecn : Bool) (b : Bytes) (now : ℤ) :
    Except ConnErr (Recovery × Bytes) :=
  match readAck ecn b with
  | none => .error (transportErr .errFrameEncoding "malformed ACK")
  | some (f, b) => (c.onAckReceived i (f.first :: f.more) (ackDelay params f.delay) now).map (·, b)

/-! ### The sample an acknowledgement gives -/

namespace Recovery
variable {c : Recovery} {i : SpaceId}

/-- The packet a sample is taken from: the newest acknowledged, if it has the largest number and one of those
acknowledged with it had to be. -/
def sampled (c : Recovery) (i : SpaceId) (f : AckFrame) : Option SentPacket :=
  let acked := (takeAcked (c.spaces i).sent (f.first :: f.more)).1
  acked.getLast?.filter fun newest => newest.pn = f.first.hi ∧ acked.any SentPacket.ackEliciting

theorem rtt_dropEliciting (c : Recovery) (i : SpaceId) (p : SentPacket) : (c.dropEliciting i p).rtt = c.rtt := by
  unfold dropEliciting
  split_ifs <;> rfl

theorem rtt_dropBytes (c : Recovery) (p : SentPacket) : (c.dropBytes p).rtt = c.rtt := by
  unfold dropBytes
  split_ifs <;> rfl

theorem rtt_foldl {f : Recovery → SentPacket → Recovery} (hf : ∀ c p, (f c p).rtt = c.rtt) (ps : List SentPacket)
    (c : Recovery) : (ps.foldl f c).rtt = c.rtt := by
  induction ps generalizing c with
  | nil => rfl
  | cons p ps ih =>
    rw [List.foldl_cons, ih]
    exact hf c p

theorem rtt_lostOne (i : SpaceId) (c : Recovery) (p : SentPacket) : (lostOne i c p).rtt = c.rtt := by
  show ((c.dropEliciting i p).dropBytes p).rtt = c.rtt
  rw [rtt_dropBytes, rtt_dropEliciting]

theorem rtt_ackedOne (i : SpaceId) (c : Recovery) (p : SentPacket) : (ackedOne i c p).rtt = c.rtt := by
  have hcount : ((c.dropEliciting i p).dropBytes p).rtt = c.rtt := by rw [rtt_dropBytes, rtt_dropEliciting]
  simp only [ackedOne]
  split_ifs <;> exact hcount

theorem rtt_detectLost (c : Recovery) (i : SpaceId) (now : ℤ) : (c.detectLost i now).rtt = c.rtt := by
  simp only [detectLost]
  split
  · rfl
  · rw [rtt_foldl (rtt_lostOne i)]
    rfl

theorem rtt_confirmHandshake (c : Recovery) : c.confirmHandshake.rtt = c.rtt := by
  simp only [confirmHandshake, discardSpace]
  split_ifs
  · rfl
  · rfl
  · exact rtt_foldl rtt_dropBytes _ _

theorem rtt_afterAck (c : Recovery) (i : SpaceId) (acked : List SentPacket) : (c.afterAck i acked).rtt = c.rtt := by
  simp only [afterAck]
  split_ifs
  · exact rtt_confirmHandshake c
  · exact rtt_confirmHandshake c
  · rfl
  · rfl

theorem update_firstAt (r : RttStats) (t latest delay : ℤ) :
    ({ r with firstAt := t } : RttStats).update latest delay = { r.update latest delay with firstAt := t } := by
  simp only [update, adjusted]
  split_ifs <;> rfl

/-- The statistics after an acknowledgement that gives a sample, but for when the first one was taken. -/
theorem rtt_onAckReceived {f : AckFrame} {newest : SentPacket} (hnew : c.sampled i f = some newest) {delay now : ℤ}
    {c' : Recovery} (h : c.onAckReceived i (f.first :: f.more) delay now = .ok c') :
    ∃ t, c'.rtt = { c.rtt.update (timeSub now newest.time) (c.appliedDelay i delay) with firstAt := t } := by
  simp only [onAckReceived] at h
  split_ifs at h with hunsent hnone
  · simp [sampled, hnone] at hnew
  rw [Except.ok.injEq] at h
  rw [sampled, Option.filter_eq_some_iff] at hnew
  obtain ⟨hlast, hcond⟩ := hnew
  rw [← h, rtt_afterAck, onNewlyAcked, rtt_foldl (rtt_ackedOne i), rtt_detectLost]
  show ∃ t, (c.setSpace i _).sample i _ _ _ _ = _
  simp only [decide_eq_true_eq] at hcond
  simp only [sample, hlast, hcond, and_self, if_true]
  by_cases hs : c.rtt.hasSample
  · refine ⟨(c.rtt.update (timeSub now newest.time) (c.appliedDelay i delay)).firstAt, ?_⟩
    show (if c.rtt.hasSample then c.rtt else _).update _ _ = _
    rw [if_pos hs]
    rfl
  · refine ⟨now, ?_⟩
    show (if c.rtt.hasSample then c.rtt else _).update _ _ = _
    rw [if_neg hs, update_firstAt]
    rfl

end Recovery

/-! ### When a sample is sane -/

structure RttStats.NonNeg (r : RttStats) : Prop where
  smoothed : 0 ≤ r.smoothed ∧ r.smoothed < 2 ^ 63
  min : 0 ≤ r.min ∧ r.min < 2 ^ 63

/-- The sample `latest` with the delay `applied`, of which the peer told as `delay`, takes `r` to `r'` as it should. -/
structure Sane (params : Option AckParams) (delay : ℕ) (applied latest : ℤ) (r r' : RttStats) : Prop where
  told : ackDelay params delay = delay * 2 ^ ackDelayExponent params * 1000
  nonneg : 0 ≤ applied
  sum : r.hasSample = true → IsInt64 (min r.min latest + applied)
  least : r'.min ≤ r'.latest
  adjusted : 0 ≤ r.adjusted latest applied ∧ r.adjusted latest applied ≤ latest
  smoothed : min r.smoothed (r.adjusted latest applied) ≤ r'.smoothed ∧
    r'.smoothed ≤ max r.smoothed (r.adjusted latest applied)

/-- `7*s + a` does not wrap, or it wraps so few times that an eighth of what is left is still between the two. -/
def Weighs (s a : ℤ) : Prop :=
  7 * s + a < 2 ^ 63 ∨ (7 * s + a + 2 ^ 63) / 2 ^ 64 * 2 ^ 64 ≤ 7 * (s - a) + if a = 0 then 7 else 0

/-- What keeps a sample sane. -/
structure Fits (params : Option AckParams) (delay : ℕ) (applied latest : ℤ) (r : RttStats) : Prop where
  told : delay * 2 ^ ackDelayExponent params * 1000 < 2 ^ 63
  sum : r.hasSample = true → min r.min latest + applied < 2 ^ 63
  weighs : r.hasSample = true → Weighs r.smoothed (r.adjusted latest applied)

theorem ackDelay_eq_iff (params : Option AckParams) (delay : ℕ) :
    ackDelay params delay = delay * 2 ^ ackDelayExponent params * 1000 ↔
      delay * 2 ^ ackDelayExponent params * 1000 < 2 ^ 63 := by
  have hcast : ((delay : ℤ) * 2 ^ ackDelayExponent params) = ((delay * 2 ^ ackDelayExponent params : ℕ) : ℤ) := by
    push_cast
    rfl
  unfold ackDelay
  rw [hcast]
  generalize delay * 2 ^ ackDelayExponent params = x
  unfold int64
  omega

theorem tdiv_eight (w : ℤ) : w.tdiv 8 = if 0 ≤ w then w / 8 else -(-w / 8) := by
  split_ifs with hw
  · exact Int.tdiv_eq_ediv_of_nonneg hw
  · rw [← Int.tdiv_eq_ediv_of_nonneg (by omega : 0 ≤ -w), Int.neg_tdiv, neg_neg]

theorem weighs_iff {s a : ℤ} (hs : 0 ≤ s ∧ s < 2 ^ 63) (ha : 0 ≤ a ∧ a < 2 ^ 63) :
    (min s a ≤ (int64 (int64 (7 * s) + a)).tdiv 8 ∧ (int64 (int64 (7 * s) + a)).tdiv 8 ≤ max s a) ↔ Weighs s a := by
  rw [int64_add_left, tdiv_eight]
  unfold Weighs int64
  -- the sum wraps at most four times
  obtain ⟨k, hk⟩ : ∃ k, (7 * s + a + 2 ^ 63) / 2 ^ 64 = k := ⟨_, rfl⟩
  have hmod : (7 * s + a + 2 ^ 63) % 2 ^ 64 = 7 * s + a + 2 ^ 63 - 2 ^ 64 * k := by
    rw [← hk, Int.emod_def]
  have hlow : 0 ≤ k := by omega
  have hhigh : k ≤ 4 := by omega
  rw [hmod, hk]
  have hr := Int.emod_nonneg (7 * s + a + 2 ^ 63) (by norm_num : (2 : ℤ) ^ 64 ≠ 0)
  have hr' := Int.emod_lt_of_pos (7 * s + a + 2 ^ 63) (by norm_num : (0 : ℤ) < 2 ^ 64)
  rw [hmod] at hr hr'
  clear hk hmod
  interval_cases k <;> split_ifs <;> omega

theorem peerMaxAckDelay_nonneg (params : Option AckParams) : 0 ≤ peerMaxAckDelay params := by
  cases params with
  | none => norm_num [peerMaxAckDelay]
  | some p => exact mul_nonneg (Int.natCast_nonneg _) (by norm_num)

theorem appliedDelay_nonneg {c : Recovery} (hmax : 0 ≤ c.peerMaxAckDelay) (i : SpaceId) {delay : ℤ} (hd : 0 ≤ delay) :
    0 ≤ c.appliedDelay i delay := by
  unfold Recovery.appliedDelay
  split_ifs
  · exact le_rfl
  · exact le_min hd hmax
  · exact hd

theorem timeSub_nonneg {t u : ℤ} (h : u ≤ t) : 0 ≤ timeSub t u ∧ timeSub t u < 2 ^ 63 := by
  unfold timeSub
  omega

theorem adjusted_mem {r : RttStats} (hr : r.NonNeg) {latest applied : ℤ} (hl : 0 ≤ latest ∧ latest < 2 ^ 63)
    (ha : 0 ≤ applied) (hsum : r.hasSample = true → min r.min latest + applied < 2 ^ 63) :
    0 ≤ r.adjusted latest applied ∧ r.adjusted latest applied ≤ latest := by
  have hmin := hr.min
  unfold adjusted
  split_ifs with hc
  · have hs := hsum hc.1
    have hsum' : int64 (min r.min latest + applied) = min r.min latest + applied := IsInt64.eq ⟨by omega, hs⟩
    rw [hsum'] at hc
    have hsub : int64 (latest - applied) = latest - applied := IsInt64.eq ⟨by omega, by omega⟩
    rw [hsub]
    omega
  · omega

theorem sane_iff {params : Option AckParams} {delay : ℕ} {applied latest : ℤ} {r : RttStats} (hr : r.NonNeg)
    (hl : 0 ≤ latest ∧ latest < 2 ^ 63) (ha : 0 ≤ ackDelay params delay → 0 ≤ applied) (t : ℤ) :
    Sane params delay applied latest r { r.update latest applied with firstAt := t } ↔
      Fits params delay applied latest r := by
  have hmin := hr.min
  constructor
  · intro h
    have htold := (ackDelay_eq_iff params delay).1 h.told
    refine ⟨htold, fun hs => (h.sum hs).2, fun hs => ?_⟩
    have hadj := h.adjusted
    have hsm := h.smoothed
    simp only [update, hs, if_true] at hsm
    exact (weighs_iff hr.smoothed ⟨hadj.1, by omega⟩).1 hsm
  · intro h
    have hexact := (ackDelay_eq_iff params delay).2 h.told
    have hnn : 0 ≤ applied := by
      apply ha
      rw [hexact]
      exact mul_nonneg (mul_nonneg (Int.natCast_nonneg _) (pow_nonneg (by norm_num) _)) (by norm_num)
    have hadj := adjusted_mem hr hl hnn h.sum
    refine ⟨hexact, hnn, fun hs => ⟨by omega, h.sum hs⟩, ?_, hadj, ?_⟩
    · simp only [update]
      split_ifs
      · exact min_le_right _ _
      · exact le_rfl
    by_cases hs : r.hasSample
    · have hw := (weighs_iff hr.smoothed ⟨hadj.1, hadj.2.trans_lt hl.2⟩).2 (h.weighs hs)
      simp only [update, hs, if_true]
      exact hw
    · have hlatest : r.adjusted latest applied = latest := if_neg fun hc => hs hc.1
      simp only [update, hs, hlatest]
      exact ⟨min_le_right _ _, le_max_right _ _⟩

/-- An ACK frame's sample is sane exactly when the delay it tells of, its sum with the least sample and the weighted
sum do not wrap. -/
theorem ack_sample_sane_iff {c c' : Recovery} {params : Option AckParams} {i : SpaceId} {ecn : Bool} {b rest : Bytes}
    {f : AckFrame} {newest : SentPacket} {now : ℤ} (hread : readAck ecn b = some (f, rest))
    (hok : handleAckFrame c params i ecn b now = .ok (c', rest)) (hnew : c.sampled i f = some newest)
    (htime : newest.time ≤ now) (hr : c.rtt.NonNeg) (hmax : c.peerMaxAckDelay = peerMaxAckDelay params) :
    Sane params f.delay (c.appliedDelay i (ackDelay params f.delay)) (timeSub now newest.time) c.rtt c'.rtt ↔
      Fits params f.delay (c.appliedDelay i (ackDelay params f.delay)) (timeSub now newest.time) c.rtt := by
  simp only [handleAckFrame, hread] at hok
  cases hrec : c.onAckReceived i (f.first :: f.more) (ackDelay params f.delay) now with
  | error e =>
    rw [hrec] at hok
    contradiction
  | ok d =>
    rw [hrec] at hok
    have hd : d = c' := congrArg Prod.fst (Except.ok.inj hok)
    obtain ⟨t, ht⟩ := Recovery.rtt_onAckReceived hnew hrec
    rw [← hd, ht]
    refine sane_iff hr (timeSub_nonneg htime) (fun hdelay => ?_) t
    refine appliedDelay_nonneg ?_ i hdelay
    rw [hmax]
    exact peerMaxAckDelay_nonneg params

def pinged : SentPacket where
  pn := 0
  ackOf := 0
  time := 0
  size := 1200
  ackEliciting := true
  inFlight := true
  early := false
  mtuProbe := false
  frames := []

/-- A connection with a sample of a tenth of a second and a packet in flight. -/
def measured : Recovery :=
  Recovery.sendPacket { isClient := true, rtt := ⟨100000000, 100000000, 0, 100000000, true, 0⟩ } .handshake pinged

def ackAfter (delay : Bytes) : Bytes := [0] ++ delay ++ [0, 0]

theorem short_delay_sane : ∃ c', handleAckFrame measured none .handshake false (ackAfter [5]) 100000000 = .ok (c', []) ∧
    Sane none 5 (measured.appliedDelay .handshake (ackDelay none 5)) (timeSub 100000000 0) measured.rtt c'.rtt := by
  have hread : readAck false (ackAfter [5]) = some (⟨5, ⟨0, 0⟩, []⟩, []) := rfl
  have hnew : measured.sampled .handshake ⟨5, ⟨0, 0⟩, []⟩ = some pinged := rfl
  refine ⟨_, rfl, (ack_sample_sane_iff hread rfl hnew (by decide) ⟨by decide, by decide⟩ rfl).2 ?_⟩
  exact ⟨by decide, fun _ => by decide, fun _ => .inl (by decide)⟩

/-- The longest delay that can be encoded comes out as less than none, and the sample as longer than it was. -/
theorem longest_delay_not_sane :
    ∃ c', handleAckFrame measured none .handshake false (ackAfter (List.replicate 8 0xff)) 100000000 = .ok (c', []) ∧
      measured.appliedDelay .handshake (ackDelay none (2 ^ 62 - 1)) = -8000 ∧
      measured.rtt.adjusted 100000000 (-8000) = 100008000 ∧ c'.rtt.smoothed = 100001000 ∧
      ¬ Sane none (2 ^ 62 - 1) (-8000) 100000000 measured.rtt c'.rtt := by
  refine ⟨_, rfl, by decide, by decide, by decide, ?_⟩
  intro h
  exact absurd h.nonneg (by decide)

end Fib.Quic
