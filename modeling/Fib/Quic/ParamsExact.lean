import Fib.Quic.Params

/-! Transport parameters there and back: what a connection builds is read as it was built, and the durations that are
read are those on the wire, with the one exception of an idle timeout too long for an `int64` of nanoseconds. -/

namespace Fib.Quic
open List TransportParams Option

/-! ### What is written -/

def paramBytes (x : ℕ × Bytes) : Bytes := appendVarint [] x.1 ++ (appendVarint [] x.2.length ++ x.2)

theorem appendParamBytes_eq (b : Bytes) (k : Param) (v : Bytes) :
    appendParamBytes b k v = b ++ paramBytes (k.id, v) := by
  rw [appendParamBytes, appendVarint_eq, appendVarint_eq b, paramBytes, append_assoc, append_assoc]

theorem appendParamVarint_eq (b : Bytes) (k : Param) (n : ℕ) :
    appendParamVarint b k n = b ++ paramBytes (k.id, appendVarint [] n) := by
  have hlen : (appendVarint [] n).length = varintLen n := by
    rw [length_appendVarint, length_nil, Nat.zero_add]
  rw [appendParamVarint, appendVarint_eq, appendVarint_eq _ (varintLen n), appendVarint_eq b, paramBytes, hlen,
    append_assoc, append_assoc]

/-- A parameter that is written if `c` holds. -/
def param (c : Prop) [Decidable c] (k : Param) (v : Bytes) : List (ℕ × Bytes) := if c then [(k.id, v)] else []

namespace TransportParams

def params (p : TransportParams) : List (ℕ × Bytes) :=
  param (p.hasOriginalDCID = true) .originalDCID p.originalDCID ++
  (param (0 < p.maxIdleTimeout) .maxIdleTimeout (appendVarint [] (units p.maxIdleTimeout millisecond)) ++
  (param (p.statelessResetToken ≠ none) .statelessResetToken (p.statelessResetToken.getD []) ++
  (param True .initialMaxData (appendVarint [] p.initialMaxData) ++
  (param True .maxStreamDataBidiLoc (appendVarint [] p.maxStreamDataBidiL) ++
  (param True .maxStreamDataBidiRem (appendVarint [] p.maxStreamDataBidiR) ++
  (param True .maxStreamDataUni (appendVarint [] p.maxStreamDataUni) ++
  (param True .initialMaxStreamsBidi (appendVarint [] p.maxStreamsBidi) ++
  (param True .initialMaxStreamsUni (appendVarint [] p.maxStreamsUni) ++
  (param (0 < p.maxAckDelay ∧ p.maxAckDelay ≠ defaultMaxAckDelay) .maxAckDelay
    (appendVarint [] (units p.maxAckDelay millisecond)) ++
  (param (p.disableMigration = true) .disableMigration [] ++
  (param (2 < p.activeCIDLimit) .activeCIDLimit (appendVarint [] p.activeCIDLimit) ++
  (param (p.hasInitialSCID = true) .initialSCID p.initialSCID ++
  (param (p.hasRetrySCID = true) .retrySCID p.retrySCID ++
  (param True .minAckDelay (appendVarint [] (units p.minAckDelay microsecond)) ++ []))))))))))))))

end TransportParams

section
variable {b : Bytes} {k : Param} {c : Prop} [Decidable c]

theorem append_param_bytes (v : Bytes) :
    (if c then appendParamBytes b k v else b) = b ++ (param c k v).flatMap paramBytes := by
  unfold param
  split_ifs
  · rw [appendParamBytes_eq, flatMap_singleton]
  · rw [flatMap_nil, append_nil]

theorem append_param_varint (n : ℕ) :
    (if c then appendParamVarint b k n else b) = b ++ (param c k (appendVarint [] n)).flatMap paramBytes := by
  unfold param
  split_ifs
  · rw [appendParamVarint_eq, flatMap_singleton]
  · rw [flatMap_nil, append_nil]

theorem append_param_true (n : ℕ) :
    appendParamVarint b k n = b ++ (param True k (appendVarint [] n)).flatMap paramBytes := by
  rw [← append_param_varint, if_pos trivial]

theorem append_param_token (token : Option Bytes) : appendParamToken b token =
    b ++ (param (token ≠ none) .statelessResetToken (token.getD [])).flatMap paramBytes := by
  rw [← append_param_bytes]
  cases token <;> rfl

end

theorem encode_eq (p : TransportParams) : p.encode = p.params.flatMap paramBytes := by
  unfold encode
  -- from the last parameter back to the first
  rw [append_param_true, append_param_bytes, append_param_bytes, append_param_varint, append_param_bytes,
    append_param_varint, append_param_true, append_param_true, append_param_true, append_param_true, append_param_true,
    append_param_true, append_param_token, append_param_varint, append_param_bytes]
  simp only [params, flatMap_append, append_assoc, nil_append, append_nil]

/-! ### What is read of it -/

theorem readParam_paramBytes {x : ℕ × Bytes} (hid : x.1 < 2 ^ 62) (hlen : x.2.length < 2 ^ 62) (rest : Bytes) :
    readParam (paramBytes x ++ rest) = some (x, rest) := by
  rw [readParam, paramBytes, append_assoc, readVarint_appendVarint hid, bind_eq_bind, bind_some]
  dsimp only
  rw [append_assoc, readVarint_appendVarint hlen, bind_some]
  rw [if_neg (by simp), take_left, drop_left]

variable {isClient : Bool} {q : TransportParams} {xs rest : List (ℕ × Bytes)} {v b : Bytes} {k : Param}

theorem readParams_flatMap (h : ∀ x ∈ xs, x.1 < 2 ^ 62 ∧ x.2.length < 2 ^ 62) {fuel : ℕ}
    (hfuel : xs.length ≤ fuel) : readParams fuel (xs.flatMap paramBytes) = some xs := by
  induction xs generalizing fuel with
  | nil => cases fuel <;> rfl
  | cons x xs ih =>
    obtain ⟨hx, hxs⟩ := forall_mem_cons.1 h
    obtain ⟨fuel, rfl⟩ : ∃ n, fuel = n + 1 := ⟨fuel - 1, by rw [length_cons] at hfuel; omega⟩
    have hread := readParam_paramBytes hx.1 hx.2 (xs.flatMap paramBytes)
    have hne : paramBytes x ++ xs.flatMap paramBytes ≠ [] := by
      intro hnil
      rw [hnil] at hread
      simp [readParam, readVarint] at hread
    rw [flatMap_cons]
    obtain ⟨c, b, hcb⟩ := exists_cons_of_ne_nil hne
    rw [hcb] at hread ⊢
    rw [readParams, hread, bind_eq_bind, bind_some]
    dsimp only
    rw [ih hxs (by rw [length_cons] at hfuel; omega)]
    rfl

theorem length_le_flatMap (xs : List (ℕ × Bytes)) : xs.length ≤ (xs.flatMap paramBytes).length := by
  induction xs with
  | nil => exact Nat.zero_le _
  | cons x xs ih =>
    have hpos := varintLen_pos x.1
    have hx : (paramBytes x).length = varintLen x.1 + (varintLen x.2.length + x.2.length) := by
      rw [paramBytes, length_append, length_append, length_appendVarint, length_appendVarint]
      simp
    rw [flatMap_cons, length_append, length_cons, hx]
    omega

/-! ### What a connection builds -/

/-- The parameters a connection tells its peer of: durations in the units they are written in, the values it leaves out
at their defaults, and what only a server sends from a server. -/
structure Built (isServer : Bool) (p : TransportParams) : Prop where
  maxIdleTimeout : ∃ ms : ℕ, p.maxIdleTimeout = ms * millisecond ∧ IsInt64 p.maxIdleTimeout
  maxAckDelay : ∃ ms : ℕ, p.maxAckDelay = ms * millisecond ∧ 1 ≤ ms ∧ ms ≤ 16383
  minAckDelay : ∃ us : ℕ, p.minAckDelay = us * microsecond ∧ p.minAckDelay ≤ p.maxAckDelay
  activeCIDLimit : 2 ≤ p.activeCIDLimit
  maxUDPPayloadSize : p.maxUDPPayloadSize = 65527
  ackDelayExponent : p.ackDelayExponent = 3
  token : ∀ t ∈ p.statelessResetToken, t.length = statelessResetTokenLen
  cids : p.originalDCID.length ≤ 20 ∧ p.initialSCID.length ≤ 20 ∧ p.retrySCID.length ≤ 20
  originalDCID : p.hasOriginalDCID = false → p.originalDCID = []
  initialSCID : p.hasInitialSCID = false → p.initialSCID = []
  retrySCID : p.hasRetrySCID = false → p.retrySCID = []
  server : isServer = true ∨ p.hasOriginalDCID = false ∧ p.hasRetrySCID = false ∧ p.statelessResetToken = none

/-- The limits fit the integers they are written in, and stream counts what a peer takes. -/
structure Sized (p : TransportParams) : Prop where
  initialMaxData : p.initialMaxData < 2 ^ 62
  maxStreamDataBidiL : p.maxStreamDataBidiL < 2 ^ 62
  maxStreamDataBidiR : p.maxStreamDataBidiR < 2 ^ 62
  maxStreamDataUni : p.maxStreamDataUni < 2 ^ 62
  maxStreamsBidi : p.maxStreamsBidi ≤ 2 ^ 60
  maxStreamsUni : p.maxStreamsUni ≤ 2 ^ 60
  activeCIDLimit : p.activeCIDLimit < 2 ^ 62

theorem sized_setParam {p q : TransportParams} (h : setParam p v k = some q) (hp : Sized p) : Sized q := by
  cases k <;> simp only [setParam, map_eq_some_iff, ite_none_right_eq_some, some.injEq,
    intWithin_eq_some, decide_eq_true_eq] at h
  case initialMaxData => obtain ⟨n, hn, rfl⟩ := h; exact { hp with initialMaxData := intValue_lt hn }
  case maxStreamDataBidiLoc => obtain ⟨n, hn, rfl⟩ := h; exact { hp with maxStreamDataBidiL := intValue_lt hn }
  case maxStreamDataBidiRem => obtain ⟨n, hn, rfl⟩ := h; exact { hp with maxStreamDataBidiR := intValue_lt hn }
  case maxStreamDataUni => obtain ⟨n, hn, rfl⟩ := h; exact { hp with maxStreamDataUni := intValue_lt hn }
  case initialMaxStreamsBidi =>
    obtain ⟨n, ⟨-, hn⟩, rfl⟩ := h
    have hle : n ≤ 2 ^ 60 := by omega
    exact { hp with maxStreamsBidi := hle }
  case initialMaxStreamsUni =>
    obtain ⟨n, ⟨-, hn⟩, rfl⟩ := h
    have hle : n ≤ 2 ^ 60 := by omega
    exact { hp with maxStreamsUni := hle }
  case activeCIDLimit => obtain ⟨n, ⟨hn, -⟩, rfl⟩ := h; exact { hp with activeCIDLimit := intValue_lt hn }
  all_goals
    obtain ⟨n, -, rfl⟩ := h
    exact ⟨hp.1, hp.2, hp.3, hp.4, hp.5, hp.6, hp.7⟩

theorem sized_stepParams {st st' : Parsing}
    (h : stepParams isClient st xs = .ok st') (hp : Sized st.1) : Sized st'.1 := by
  induction xs generalizing st with
  | nil =>
    rw [stepParams] at h
    exact Except.ok.inj h ▸ hp
  | cons x xs ih =>
    rw [stepParams] at h
    cases hs : stepParam isClient st x with
    | error e => simp [hs] at h
    | ok st₁ =>
      rw [hs] at h
      apply ih h
      obtain ⟨-, -, ⟨-, he⟩ | ⟨k, -, hset⟩⟩ := stepParam_eq_ok hs
      · rw [he]
        exact hp
      · exact sized_setParam hset hp

theorem sized_of_parseParams {p : TransportParams} (h : parseParams b isClient = .ok p) : Sized p := by
  obtain ⟨⟨xs, seen, -, hst⟩, -⟩ := parseParams_eq_ok.1 h
  refine sized_stepParams hst ?_
  constructor <;> decide

/-- The steps over `xs` have come to `rest`, with parameters of identifiers below `m` read into `q`. -/
def Come (isClient : Bool) (xs rest : List (ℕ × Bytes)) (m : ℕ) (q : TransportParams) : Prop :=
  ∃ seen, (∀ i ∈ seen, i < m) ∧ stepParams isClient (defaultParams, []) xs = stepParams isClient (q, seen) rest

theorem come_start (isClient : Bool) (xs : List (ℕ × Bytes)) : Come isClient xs xs 0 defaultParams :=
  ⟨[], fun _ hi => absurd hi (by simp), rfl⟩

theorem Come.param {m : ℕ} {c : Prop} [Decidable c] (h : Come isClient xs (param c k v ++ rest) m q)
    (q' : TransportParams) (hm : m ≤ k.id) (hside : c → k.serverOnly = true → isClient = true)
    (hset : c → setParam q v k = some q') (hskip : ¬ c → q' = q) : Come isClient xs rest (k.id + 1) q' := by
  obtain ⟨seen, hseen, hst⟩ := h
  unfold Come
  rw [hst]
  unfold Quic.param
  by_cases hc : c
  · have hstep : stepParam isClient (q, seen) (k.id, v) = .ok (q', k.id :: seen) :=
      stepParam_of (fun hin => absurd (hseen _ hin) (by omega)) (hside hc) (hset hc)
    refine ⟨k.id :: seen, fun i hi => ?_, ?_⟩
    · rcases mem_cons.1 hi with rfl | hi
      · exact Nat.lt_succ_self _
      · have := hseen i hi
        omega
    · rw [if_pos hc, cons_append, nil_append, stepParams, hstep]
  · refine ⟨seen, fun i hi => ?_, ?_⟩
    · have := hseen i hi
      omega
    · rw [if_neg hc, nil_append, hskip hc]

theorem Come.always {m : ℕ}
    (h : Come isClient xs (Quic.param True k v ++ rest) m q) (q' : TransportParams) (hm : m ≤ k.id)
    (hside : k.serverOnly = false) (hset : setParam q v k = some q') : Come isClient xs rest (k.id + 1) q' :=
  h.param q' hm (fun _ hs => absurd hs (by simp [hside])) (fun _ => hset) fun hc => absurd trivial hc

theorem units_mul {n : ℕ} {u : ℤ} (hu : 0 < u) (hn : n < 2 ^ 64) : units (n * u) u = n := by
  unfold units
  rw [Int.mul_tdiv_cancel _ hu.ne']
  omega

/-- What the peer holds of a connection's parameters: all of it, and that it knows ACK_FREQUENCY. -/
def TransportParams.received (p : TransportParams) : TransportParams := { p with hasMinAckDelay := true }

section
variable {isServer : Bool} {p q : TransportParams} {n : ℕ} {f : ℕ → TransportParams} {k : Param}

theorem setParam_intWithin {ok : ℕ → Bool} (hn : n < 2 ^ 62) (hok : ok n = true)
    (hk : setParam q (appendVarint [] n) k = (intWithin (appendVarint [] n) ok).map f) :
    setParam q (appendVarint [] n) k = some (f n) := by
  rw [hk, intWithin_eq_some.2 ⟨intValue_appendVarint hn, hok⟩]
  rfl

theorem setParam_intValue (hn : n < 2 ^ 62)
    (hk : setParam q (appendVarint [] n) k = (intValue (appendVarint [] n)).map f) :
    setParam q (appendVarint [] n) k = some (f n) := by
  rw [hk, intValue_appendVarint hn]
  rfl

/-- The default parameters with those of identifiers below `m` as `p` has them. -/
def TransportParams.upto (p : TransportParams) (m : ℕ) : TransportParams where
  originalDCID := if 0x00 < m then p.originalDCID else []
  hasOriginalDCID := if 0x00 < m then p.hasOriginalDCID else false
  maxIdleTimeout := if 0x01 < m then p.maxIdleTimeout else 0
  statelessResetToken := if 0x02 < m then p.statelessResetToken else none
  maxUDPPayloadSize := 65527
  initialMaxData := if 0x04 < m then p.initialMaxData else 0
  maxStreamDataBidiL := if 0x05 < m then p.maxStreamDataBidiL else 0
  maxStreamDataBidiR := if 0x06 < m then p.maxStreamDataBidiR else 0
  maxStreamDataUni := if 0x07 < m then p.maxStreamDataUni else 0
  maxStreamsBidi := if 0x08 < m then p.maxStreamsBidi else 0
  maxStreamsUni := if 0x09 < m then p.maxStreamsUni else 0
  ackDelayExponent := 3
  maxAckDelay := if 0x0b < m then p.maxAckDelay else defaultMaxAckDelay
  disableMigration := if 0x0c < m then p.disableMigration else false
  activeCIDLimit := if 0x0e < m then p.activeCIDLimit else 2
  initialSCID := if 0x0f < m then p.initialSCID else []
  hasInitialSCID := if 0x0f < m then p.hasInitialSCID else false
  retrySCID := if 0x10 < m then p.retrySCID else []
  hasRetrySCID := if 0x10 < m then p.hasRetrySCID else false
  minAckDelay := if 0xff04de1b < m then p.minAckDelay else 0
  hasMinAckDelay := if 0xff04de1b < m then true else false

section
variable (hb : Built isServer p)
include hb

theorem Built.of_server {c : Prop}
    (hno : p.hasOriginalDCID = false ∧ p.hasRetrySCID = false ∧ p.statelessResetToken = none → ¬ c) (hc : c) :
    isServer = true :=
  hb.server.resolve_right fun hnone => hno hnone hc

theorem Built.set_idle : setParam (p.upto 0x01) (appendVarint [] (units p.maxIdleTimeout millisecond)) .maxIdleTimeout =
    some (p.upto 0x02) := by
  obtain ⟨idle, hidle, hidle64⟩ := hb.maxIdleTimeout
  have hunits : units p.maxIdleTimeout millisecond = idle ∧ idle < 2 ^ 62 := by
    unfold IsInt64 at hidle64
    rw [hidle] at hidle64 ⊢
    unfold millisecond at hidle64 ⊢
    exact ⟨units_mul (by decide) (by omega), by omega⟩
  rw [hunits.1, setParam_intValue hunits.2 rfl, ← hidle, hidle64.eq]
  simp [upto]

theorem Built.skip_idle (hno : ¬ 0 < p.maxIdleTimeout) : p.upto 0x02 = p.upto 0x01 := by
  obtain ⟨idle, hidle, -⟩ := hb.maxIdleTimeout
  have hzero : p.maxIdleTimeout = 0 := by
    rw [hidle] at hno ⊢
    unfold millisecond at hno ⊢
    omega
  simp [upto, hzero]

theorem Built.set_ackDelay : setParam (p.upto 0x0a) (appendVarint [] (units p.maxAckDelay millisecond)) .maxAckDelay =
    some (p.upto 0x0c) := by
  obtain ⟨ack, hack, hack1, hack2⟩ := hb.maxAckDelay
  have hunits : units p.maxAckDelay millisecond = ack ∧ int64 (ack * millisecond) = p.maxAckDelay := by
    rw [hack]
    refine ⟨units_mul (by decide) (by omega), IsInt64.eq ?_⟩
    unfold IsInt64 millisecond
    omega
  rw [hunits.1, setParam_intWithin (by omega) (decide_eq_true (by omega)) rfl, hunits.2]
  simp [upto]

theorem Built.skip_ackDelay (hno : ¬ (0 < p.maxAckDelay ∧ p.maxAckDelay ≠ defaultMaxAckDelay)) :
    p.upto 0x0c = p.upto 0x0a := by
  obtain ⟨ack, hack, hack1, -⟩ := hb.maxAckDelay
  have hdefault : p.maxAckDelay = defaultMaxAckDelay := by
    by_contra hne
    refine hno ⟨?_, hne⟩
    rw [hack]
    unfold millisecond
    omega
  simp [upto, hdefault]

theorem Built.set_minAckDelay :
    setParam (p.upto 0x11) (appendVarint [] (units p.minAckDelay microsecond)) .minAckDelay = some p.received := by
  obtain ⟨ack, hack, -, hack2⟩ := hb.maxAckDelay
  obtain ⟨us, hus, hle⟩ := hb.minAckDelay
  have hmax : us ≤ 2 ^ 14 * 1000 := by
    rw [hus, hack] at hle
    unfold millisecond microsecond at hle
    omega
  have hunits : units p.minAckDelay microsecond = us ∧ int64 (us * microsecond) = p.minAckDelay := by
    rw [hus]
    refine ⟨units_mul (by decide) (by omega), IsInt64.eq ?_⟩
    unfold IsInt64 microsecond
    omega
  rw [hunits.1, setParam_intWithin (by omega) (decide_eq_true hmax) rfl, hunits.2]
  simp [upto, received, hb.maxUDPPayloadSize, hb.ackDelayExponent]

end

theorem stepParams_params (hb : Built isServer p) (hs : Sized p) :
    ∃ seen, stepParams isServer (defaultParams, []) p.params = .ok (p.received, seen) := by
  have h : Come isServer p.params p.params 0 (p.upto 0) := come_start isServer p.params
  have h := h.param (p.upto 0x01) (by decide) (fun hc _ => hb.of_server (fun hno => by simp [hno.1]) hc)
    (fun hc => by simp [setParam, upto, hc])
    (fun hc => by simp [upto, hc, hb.originalDCID (by simpa using hc)])
  have h := h.param (p.upto 0x02) (by decide) (fun _ hno => absurd hno (by decide)) (fun _ => hb.set_idle) hb.skip_idle
  have h := h.param (p.upto 0x03) (by decide) (fun hc _ => hb.of_server (fun hno => by simp [hno.2.2]) hc)
    (fun hc => by
      obtain ⟨t, ht⟩ := ne_none_iff_exists'.1 hc
      simp [setParam, upto, ht, hb.token t ht])
    (fun hc => by simp [upto, not_not.1 hc])
  have h := h.always (p.upto 0x05) (by decide) rfl (by rw [setParam_intValue hs.initialMaxData rfl]; simp [upto])
  have h := h.always (p.upto 0x06) (by decide) rfl (by rw [setParam_intValue hs.maxStreamDataBidiL rfl]; simp [upto])
  have h := h.always (p.upto 0x07) (by decide) rfl (by rw [setParam_intValue hs.maxStreamDataBidiR rfl]; simp [upto])
  have h := h.always (p.upto 0x08) (by decide) rfl (by rw [setParam_intValue hs.maxStreamDataUni rfl]; simp [upto])
  have h := h.always (p.upto 0x09) (by decide) rfl (by
    have hle := hs.maxStreamsBidi
    rw [setParam_intWithin (by omega) (decide_eq_true hle) rfl]
    simp [upto])
  have h := h.always (p.upto 0x0a) (by decide) rfl (by
    have hle := hs.maxStreamsUni
    rw [setParam_intWithin (by omega) (decide_eq_true hle) rfl]
    simp [upto])
  have h := h.param (p.upto 0x0c) (by decide) (fun _ hno => absurd hno (by decide)) (fun _ => hb.set_ackDelay)
    hb.skip_ackDelay
  have h := h.param (p.upto 0x0d) (by decide) (fun _ hno => absurd hno (by decide))
    (fun hc => by simp [setParam, upto, hc])
    (fun hc => by simp [upto, hc])
  have h := h.param (p.upto 0x0f) (by decide) (fun _ hno => absurd hno (by decide)) (fun hc => by
      rw [setParam_intWithin hs.activeCIDLimit (decide_eq_true hc.le) rfl]
      simp [upto])
    (fun hc => by
      have htwo : p.activeCIDLimit = 2 := le_antisymm (not_lt.1 hc) hb.activeCIDLimit
      simp [upto, htwo])
  have h := h.param (p.upto 0x10) (by decide) (fun _ hno => absurd hno (by decide))
    (fun hc => by simp [setParam, upto, hc])
    (fun hc => by simp [upto, hc, hb.initialSCID (by simpa using hc)])
  have h := h.param (p.upto 0x11) (by decide) (fun hc _ => hb.of_server (fun hno => by simp [hno.2.1]) hc)
    (fun hc => by simp [setParam, upto, hc])
    (fun hc => by simp [upto, hc, hb.retrySCID (by simpa using hc)])
  obtain ⟨seen, -, hst⟩ := h.always p.received (by decide) rfl hb.set_minAckDelay
  exact ⟨seen, hst⟩

theorem Param.id_lt (k : Param) : k.id < 2 ^ 62 := by
  cases k <;> decide

theorem length_varint_lt (n : ℕ) : (appendVarint [] n).length < 2 ^ 62 := by
  rw [length_appendVarint, length_nil]
  unfold varintLen
  split_ifs <;> omega

theorem mem_param {c : Prop} [Decidable c] {v : Bytes} (hv : c → v.length < 2 ^ 62) {x : ℕ × Bytes}
    (hx : x ∈ param c k v) : x.1 < 2 ^ 62 ∧ x.2.length < 2 ^ 62 := by
  unfold param at hx
  split_ifs at hx with hc
  · obtain rfl := mem_singleton.1 hx
    exact ⟨k.id_lt, hv hc⟩
  · exact absurd hx not_mem_nil

theorem mem_params (hb : Built isServer p) : ∀ x ∈ p.params, x.1 < 2 ^ 62 ∧ x.2.length < 2 ^ 62 := by
  obtain ⟨horiginal, hinitial, hretry⟩ := hb.cids
  intro x hx
  simp only [params, mem_append, not_mem_nil, or_false] at hx
  rcases hx with hx | hx | hx | hx | hx | hx | hx | hx | hx | hx | hx | hx | hx | hx | hx
  any_goals exact mem_param (fun _ => length_varint_lt _) hx
  · exact mem_param (fun _ => by omega) hx
  · refine mem_param (fun hc => ?_) hx
    obtain ⟨t, ht⟩ := ne_none_iff_exists'.1 hc
    rw [ht, getD_some, hb.token t ht]
    decide
  · exact mem_param (fun _ => by decide) hx
  · exact mem_param (fun _ => by omega) hx
  · exact mem_param (fun _ => by omega) hx

theorem parseParams_encode (hb : Built isServer p) : parseParams p.encode isServer = .ok p.received ↔ Sized p := by
  constructor
  · intro h
    have hs := sized_of_parseParams h
    exact { hs with }
  intro hs
  obtain ⟨seen, hst⟩ := stepParams_params hb hs
  obtain ⟨-, -, hle⟩ := hb.minAckDelay
  refine parseParams_eq_ok.2 ⟨⟨p.params, seen, ?_, hst⟩, fun _ => hle⟩
  rw [encode_eq]
  exact readParams_flatMap (mem_params hb) (length_le_flatMap _)

end

/-! ### The durations -/

/-- The durations read of `b` are those it tells, and the idle timeout agreed on is not below either side's. -/
structure Exact (b : Bytes) (q : TransportParams) : Prop where
  nonneg : 0 ≤ q.maxIdleTimeout ∧ 0 ≤ q.maxAckDelay ∧ 0 ≤ q.minAckDelay
  maxIdleTimeout : q.maxIdleTimeout = (wireInt b .maxIdleTimeout).getD 0 * millisecond
  maxAckDelay : q.maxAckDelay = ((wireInt b .maxAckDelay).map fun n : ℕ => n * millisecond).getD defaultMaxAckDelay
  minAckDelay : q.minAckDelay = (wireInt b .minAckDelay).getD 0 * microsecond
  idle : ∀ idleTimeout : ℤ, min idleTimeout
    (if (wireInt b .maxIdleTimeout).getD 0 = 0 then idleTimeout else (wireInt b .maxIdleTimeout).getD 0 * millisecond) ≤
      negotiatedIdle idleTimeout q

theorem negotiatedIdle_ge {idleTimeout : ℤ} {n : ℕ} (hq : q.maxIdleTimeout = n * millisecond) :
    min idleTimeout (if n = 0 then idleTimeout else n * millisecond) ≤ negotiatedIdle idleTimeout q := by
  unfold negotiatedIdle
  rw [hq]
  unfold millisecond
  split_ifs <;> omega

theorem exact_iff (hq : parseParams b isClient = .ok q) :
    Exact b q ↔ (wireInt b .maxIdleTimeout).getD 0 * 1000000 < 2 ^ 63 := by
  obtain ⟨-, hidle⟩ := reads_maxIdleTimeout.parseParams hq
  obtain ⟨-, hmax⟩ := reads_maxAckDelay.parseParams hq
  obtain ⟨-, hmin⟩ := reads_minAckDelay.parseParams hq
  have hidle' : q.maxIdleTimeout = int64 ((wireInt b .maxIdleTimeout).getD 0 * millisecond) := by
    rw [hidle]
    cases wireInt b .maxIdleTimeout with
    | none =>
      rw [map_none, getD_none, getD_none, Nat.cast_zero, zero_mul]
      exact (IsInt64.eq (by decide)).symm
    | some n => rw [map_some, getD_some, getD_some]
  have hmin' : q.minAckDelay = (wireInt b .minAckDelay).getD 0 * microsecond := by
    rw [hmin]
    cases wireInt b .minAckDelay with
    | none => rw [map_none, getD_none, getD_none, Nat.cast_zero, zero_mul]; rfl
    | some n => rw [map_some, getD_some, getD_some]
  constructor
  · intro h
    have heq := hidle'.symm.trans h.maxIdleTimeout
    have h64 := int64_eq_iff.1 heq
    unfold IsInt64 millisecond at h64
    omega
  intro hfit
  have h64 : IsInt64 ((wireInt b .maxIdleTimeout).getD 0 * millisecond) := by
    unfold IsInt64 millisecond
    omega
  rw [h64.eq] at hidle'
  refine ⟨⟨?_, ?_, ?_⟩, hidle', hmax, hmin', fun idleTimeout => negotiatedIdle_ge hidle'⟩
  · rw [hidle']
    unfold millisecond
    omega
  · rw [hmax]
    cases wireInt b .maxAckDelay with
    | none => simp [defaultParams, defaultMaxAckDelay, millisecond]
    | some n =>
      simp only [map_some, getD_some]
      unfold millisecond
      omega
  · rw [hmin']
    unfold microsecond
    omega

/-- What a connection builds comes back whole exactly if its limits fit what they are written in; and what is accepted
of a peer has the durations on the wire exactly if its idle timeout fits an `int64` of nanoseconds. -/
theorem params_exact_iff (isServer isClient : Bool) (p q : TransportParams) (b : Bytes) (hb : Built isServer p)
    (hq : parseParams b isClient = .ok q) : (parseParams p.encode isServer = .ok p.received ↔ Sized p) ∧
      (Exact b q ↔ (wireInt b .maxIdleTimeout).getD 0 * 1000000 < 2 ^ 63) :=
  ⟨parseParams_encode hb, exact_iff hq⟩

/-- An idle timeout of nine million years. -/
def ages : Bytes := appendParamVarint [] .maxIdleTimeout (2 ^ 58 + 1)

/-- It is read as a millisecond, and so is what two sides agree on, one of which said thirty seconds. -/
theorem ages_become_millisecond :
    (parseParams ages false).toOption.map (fun q => (q.maxIdleTimeout, negotiatedIdle (30000 * millisecond) q)) =
      some (millisecond, millisecond) ∧ wireInt ages .maxIdleTimeout = some (2 ^ 58 + 1) := by
  decide

def dialed : TransportParams :=
  { defaultParams with
    initialSCID := [7], hasInitialSCID := true, maxIdleTimeout := 30000 * millisecond, initialMaxData := 2 ^ 24,
    maxStreamsBidi := 100 }

theorem dialed_exact : parseParams dialed.encode false = .ok dialed.received ∧ Exact dialed.encode dialed.received := by
  have hb : Built false dialed :=
    ⟨⟨30000, by decide, by decide⟩, ⟨25, by decide, by decide, by decide⟩,
      ⟨0, by decide, by decide⟩, by decide, rfl, rfl, by decide, by decide,
      fun _ => rfl, by decide, fun _ => rfl, .inr ⟨rfl, rfl, rfl⟩⟩
  have hs : Sized dialed := by
    constructor <;> decide
  have hq := (parseParams_encode hb).2 hs
  have h := params_exact_iff false false dialed dialed.received dialed.encode hb hq
  exact ⟨h.1.2 hs, h.2.2 (by decide)⟩

end Fib.Quic
