import Fib.Quic.Varint
import Fib.Lib.Int64

/-! Transport parameters (http3/quic/params.go): what a side tells of itself in the handshake, and how the other side
reads it. Durations are nanoseconds in an `int64`. -/

namespace Fib.Quic
open Option

/-- The parameters there are (RFC 9000 section 18.2, draft-ietf-quic-ack-frequency section 3). -/
inductive Param where
  | originalDCID
  | maxIdleTimeout
  | statelessResetToken
  | maxUDPPayloadSize
  | initialMaxData
  | maxStreamDataBidiLoc
  | maxStreamDataBidiRem
  | maxStreamDataUni
  | initialMaxStreamsBidi
  | initialMaxStreamsUni
  | ackDelayExponent
  | maxAckDelay
  | disableMigration
  | preferredAddress
  | activeCIDLimit
  | initialSCID
  | retrySCID
  | minAckDelay
deriving DecidableEq

namespace Param

def id : Param → ℕ
  | originalDCID => 0x00
  | maxIdleTimeout => 0x01
  | statelessResetToken => 0x02
  | maxUDPPayloadSize => 0x03
  | initialMaxData => 0x04
  | maxStreamDataBidiLoc => 0x05
  | maxStreamDataBidiRem => 0x06
  | maxStreamDataUni => 0x07
  | initialMaxStreamsBidi => 0x08
  | initialMaxStreamsUni => 0x09
  | ackDelayExponent => 0x0a
  | maxAckDelay => 0x0b
  | disableMigration => 0x0c
  | preferredAddress => 0x0d
  | activeCIDLimit => 0x0e
  | initialSCID => 0x0f
  | retrySCID => 0x10
  | minAckDelay => 0xff04de1b

def all : List Param :=
  [originalDCID, maxIdleTimeout, statelessResetToken, maxUDPPayloadSize, initialMaxData, maxStreamDataBidiLoc,
    maxStreamDataBidiRem, maxStreamDataUni, initialMaxStreamsBidi, initialMaxStreamsUni, ackDelayExponent, maxAckDelay,
    disableMigration, preferredAddress, activeCIDLimit, initialSCID, retrySCID, minAckDelay]

/-- The parameter an identifier stands for, if it is one this side knows. -/
def ofId (n : ℕ) : Option Param := all.find? fun k => k.id = n

def serverOnly : Param → Bool
  | originalDCID | statelessResetToken | preferredAddress | retrySCID => true
  | _ => false

@[simp] theorem ofId_id (k : Param) : ofId k.id = some k := by
  cases k <;> decide

theorem id_of_ofId {n : ℕ} {k : Param} (h : ofId n = some k) : k.id = n := by
  simpa using List.find?_some h

end Param

def statelessResetTokenLen : ℕ := 16

def microsecond : ℤ := 1000
def millisecond : ℤ := 1000000

def defaultMaxAckDelay : ℤ := 25 * millisecond

structure TransportParams where
  originalDCID : Bytes := []
  initialSCID : Bytes := []
  retrySCID : Bytes := []
  hasOriginalDCID : Bool := false
  hasInitialSCID : Bool := false
  hasRetrySCID : Bool := false
  statelessResetToken : Option Bytes := none
  maxIdleTimeout : ℤ := 0
  maxUDPPayloadSize : ℕ := 0
  initialMaxData : ℕ := 0
  maxStreamDataBidiL : ℕ := 0
  maxStreamDataBidiR : ℕ := 0
  maxStreamDataUni : ℕ := 0
  maxStreamsBidi : ℕ := 0
  maxStreamsUni : ℕ := 0
  ackDelayExponent : ℕ := 0
  maxAckDelay : ℤ := 0
  disableMigration : Bool := false
  activeCIDLimit : ℕ := 0
  minAckDelay : ℤ := 0
  hasMinAckDelay : Bool := false
deriving DecidableEq

open TransportParams

def defaultParams : TransportParams where
  maxUDPPayloadSize := 65527
  ackDelayExponent := 3
  maxAckDelay := defaultMaxAckDelay
  activeCIDLimit := 2

/-! ### Writing -/

def appendParamVarint (b : Bytes) (k : Param) (v : ℕ) : Bytes :=
  appendVarint (appendVarint (appendVarint b k.id) (varintLen v)) v

def appendParamBytes (b : Bytes) (k : Param) (v : Bytes) : Bytes :=
  appendVarint (appendVarint b k.id) v.length ++ v

def appendParamToken (b : Bytes) : Option Bytes → Bytes
  | none => b
  | some token => appendParamBytes b .statelessResetToken token

def units (d unit : ℤ) : ℕ := (d.tdiv unit % 2 ^ 64).toNat

namespace TransportParams

def encode (p : TransportParams) : Bytes :=
  let b := []
  let b := if p.hasOriginalDCID then appendParamBytes b .originalDCID p.originalDCID else b
  let b := if 0 < p.maxIdleTimeout then
    appendParamVarint b .maxIdleTimeout (units p.maxIdleTimeout millisecond) else b
  let b := appendParamToken b p.statelessResetToken
  let b := appendParamVarint b .initialMaxData p.initialMaxData
  let b := appendParamVarint b .maxStreamDataBidiLoc p.maxStreamDataBidiL
  let b := appendParamVarint b .maxStreamDataBidiRem p.maxStreamDataBidiR
  let b := appendParamVarint b .maxStreamDataUni p.maxStreamDataUni
  let b := appendParamVarint b .initialMaxStreamsBidi p.maxStreamsBidi
  let b := appendParamVarint b .initialMaxStreamsUni p.maxStreamsUni
  let b := if 0 < p.maxAckDelay ∧ p.maxAckDelay ≠ defaultMaxAckDelay then
    appendParamVarint b .maxAckDelay (units p.maxAckDelay millisecond) else b
  let b := if p.disableMigration then appendParamBytes b .disableMigration [] else b
  let b := if 2 < p.activeCIDLimit then appendParamVarint b .activeCIDLimit p.activeCIDLimit else b
  let b := if p.hasInitialSCID then appendParamBytes b .initialSCID p.initialSCID else b
  let b := if p.hasRetrySCID then appendParamBytes b .retrySCID p.retrySCID else b
  appendParamVarint b .minAckDelay (units p.minAckDelay microsecond)

end TransportParams

/-! ### Reading -/

/-- What is wrong with a peer's parameters; each is a TRANSPORT_PARAMETER_ERROR. -/
inductive ParamError where
  | truncated
  | duplicate
  | invalid
  | fromClient
  | minAckDelay
deriving DecidableEq

def ParamError.reason : ParamError → String
  | truncated => "truncated transport parameters"
  | duplicate => "duplicate transport parameter"
  | invalid => "invalid transport parameter"
  | fromClient => "server-only transport parameter from a client"
  | minAckDelay => "min_ack_delay above max_ack_delay"

def intValue (v : Bytes) : Option ℕ :=
  match readVarint v with
  | some (n, []) => some n
  | _ => none

def intWithin (v : Bytes) (ok : ℕ → Bool) : Option ℕ := (intValue v).filter ok

/-- The `switch` of `parseParams`; none of a value that is not one of the parameter's. -/
def setParam (p : TransportParams) (v : Bytes) : Param → Option TransportParams
  | .originalDCID => some { p with originalDCID := v, hasOriginalDCID := true }
  | .maxIdleTimeout => (intValue v).map fun n : ℕ => { p with maxIdleTimeout := int64 (n * millisecond) }
  | .statelessResetToken =>
    if v.length = statelessResetTokenLen then some { p with statelessResetToken := some v } else none
  | .maxUDPPayloadSize => (intWithin v (1200 ≤ ·)).map fun n => { p with maxUDPPayloadSize := n }
  | .initialMaxData => (intValue v).map fun n => { p with initialMaxData := n }
  | .maxStreamDataBidiLoc => (intValue v).map fun n => { p with maxStreamDataBidiL := n }
  | .maxStreamDataBidiRem => (intValue v).map fun n => { p with maxStreamDataBidiR := n }
  | .maxStreamDataUni => (intValue v).map fun n => { p with maxStreamDataUni := n }
  | .initialMaxStreamsBidi => (intWithin v (· ≤ 2 ^ 60)).map fun n => { p with maxStreamsBidi := n }
  | .initialMaxStreamsUni => (intWithin v (· ≤ 2 ^ 60)).map fun n => { p with maxStreamsUni := n }
  | .ackDelayExponent => (intWithin v (· ≤ 20)).map fun n => { p with ackDelayExponent := n }
  | .maxAckDelay => (intWithin v (· < 2 ^ 14)).map fun n : ℕ => { p with maxAckDelay := int64 (n * millisecond) }
  | .disableMigration => if v = [] then some { p with disableMigration := true } else none
  -- Migrating to it is optional; it is not done.
  | .preferredAddress => some p
  | .activeCIDLimit => (intWithin v (2 ≤ ·)).map fun n => { p with activeCIDLimit := n }
  | .initialSCID => some { p with initialSCID := v, hasInitialSCID := true }
  | .retrySCID => some { p with retrySCID := v, hasRetrySCID := true }
  | .minAckDelay => (intWithin v (· ≤ 2 ^ 14 * 1000)).map fun n : ℕ =>
    { p with minAckDelay := int64 (n * microsecond), hasMinAckDelay := true }

abbrev Parsing := TransportParams × List ℕ

def stepParam (isClient : Bool) (st : Parsing) (x : ℕ × Bytes) : Except ParamError Parsing :=
  if x.1 ∈ st.2 then .error .duplicate
  else
    match Param.ofId x.1 with
    | none => .ok (st.1, x.1 :: st.2)
    | some k =>
      match setParam st.1 x.2 k with
      | none => .error .invalid
      | some p => if k.serverOnly ∧ ¬ isClient then .error .fromClient else .ok (p, x.1 :: st.2)

def readParam (b : Bytes) : Option ((ℕ × Bytes) × Bytes) := do
  let (id, b) ← readVarint b
  let (n, b) ← readVarint b
  if b.length < n then none else some ((id, b.take n), b.drop n)

/-- The loop of `parseParams`, over at most `fuel` parameters. -/
def parseFrom (isClient : Bool) : ℕ → Parsing → Bytes → Except ParamError Parsing
  | _, st, [] => .ok st
  | 0, _, _ :: _ => .error .truncated
  | fuel + 1, st, c :: b =>
    match readParam (c :: b) with
    | none => .error .truncated
    | some (x, rest) =>
      match stepParam isClient st x with
      | .error e => .error e
      | .ok st => parseFrom isClient fuel st rest

def parseParams (b : Bytes) (isClient : Bool) : Except ParamError TransportParams :=
  match parseFrom isClient b.length (defaultParams, []) b with
  | .error e => .error e
  | .ok (p, _) => if p.hasMinAckDelay ∧ p.maxAckDelay < p.minAckDelay then .error .minAckDelay else .ok p

/-- What `handlePeerParams` makes of the idle timeout. -/
def negotiatedIdle (idleTimeout : ℤ) (p : TransportParams) : ℤ :=
  if 0 < p.maxIdleTimeout ∧ p.maxIdleTimeout < idleTimeout then p.maxIdleTimeout else idleTimeout

/-! ### Parameters one by one -/

def readParams : ℕ → Bytes → Option (List (ℕ × Bytes))
  | _, [] => some []
  | 0, _ :: _ => none
  | fuel + 1, c :: b => do
    let (x, rest) ← readParam (c :: b)
    let xs ← readParams fuel rest
    some (x :: xs)

def stepParams (isClient : Bool) : Parsing → List (ℕ × Bytes) → Except ParamError Parsing
  | st, [] => .ok st
  | st, x :: xs =>
    match stepParam isClient st x with
    | .error e => .error e
    | .ok st => stepParams isClient st xs

section
variable {isClient : Bool} {st st' : Parsing} {b : Bytes} {xs : List (ℕ × Bytes)} {x : ℕ × Bytes}

theorem parseFrom_eq_ok {fuel : ℕ} : parseFrom isClient fuel st b = .ok st' ↔
    ∃ xs, readParams fuel b = some xs ∧ stepParams isClient st xs = .ok st' := by
  induction fuel generalizing st b with
  | zero =>
    cases b with
    | nil => simp [parseFrom, readParams, stepParams]
    | cons c b => simp [parseFrom, readParams]
  | succ fuel ih =>
    cases b with
    | nil => simp [parseFrom, readParams, stepParams]
    | cons c b =>
      rw [parseFrom, readParams]
      cases hr : readParam (c :: b) with
      | none => simp
      | some r =>
        obtain ⟨x, rest⟩ := r
        simp only [bind_eq_bind, bind_some]
        constructor
        · intro h
          cases hs : stepParam isClient st x with
          | error e => simp [hs] at h
          | ok st₁ =>
            rw [hs] at h
            obtain ⟨xs, hxs, hst⟩ := ih.1 h
            refine ⟨x :: xs, by rw [hxs]; rfl, ?_⟩
            rw [stepParams, hs]
            exact hst
        · rintro ⟨ys, hys, hst⟩
          obtain ⟨xs, hxs, hy⟩ := bind_eq_some_iff.1 hys
          cases hy
          rw [stepParams] at hst
          cases hs : stepParam isClient st x with
          | error e => simp [hs] at hst
          | ok st₁ =>
            rw [hs] at hst
            exact ih.2 ⟨xs, hxs, hst⟩

/-- A step that is accepted: the parameter is new, and if it is one this side knows, its value is one and the peer may
send it. -/
theorem stepParam_eq_ok (h : stepParam isClient st x = .ok st') : x.1 ∉ st.2 ∧ st'.2 = x.1 :: st.2 ∧
    (Param.ofId x.1 = none ∧ st'.1 = st.1 ∨ ∃ k, Param.ofId x.1 = some k ∧ setParam st.1 x.2 k = some st'.1) := by
  unfold stepParam at h
  by_cases hseen : x.1 ∈ st.2
  · simp [hseen] at h
  rw [if_neg hseen] at h
  refine ⟨hseen, ?_⟩
  cases hk : Param.ofId x.1 with
  | none =>
    rw [hk] at h
    cases h
    exact ⟨rfl, .inl ⟨rfl, rfl⟩⟩
  | some k =>
    rw [hk] at h
    cases hset : setParam st.1 x.2 k with
    | none => simp [hset] at h
    | some p =>
      simp only [hset] at h
      split_ifs at h
      cases h
      exact ⟨rfl, .inr ⟨k, rfl, hset⟩⟩

variable {v : Bytes} {n : ℕ}

theorem stepParam_of {k : Param} {p : TransportParams} (hnew : k.id ∉ st.2)
    (hside : k.serverOnly = true → isClient = true) (hset : setParam st.1 v k = some p) :
    stepParam isClient st (k.id, v) = .ok (p, k.id :: st.2) := by
  unfold stepParam
  rw [if_neg hnew, Param.ofId_id]
  dsimp only
  rw [hset]
  dsimp only
  rw [if_neg]
  rintro ⟨hs, hc⟩
  exact hc (hside hs)

theorem intValue_lt (h : intValue v = some n) : n < 2 ^ 62 := by
  unfold intValue at h
  split at h
  · rename_i m hm
    exact some.inj h ▸ readVarint_lt hm
  · simp at h

theorem intValue_appendVarint (h : n < 2 ^ 62) : intValue (appendVarint [] n) = some n := by
  have hr := readVarint_appendVarint h []
  rw [List.append_nil] at hr
  rw [intValue, hr]

theorem intWithin_eq_some {ok : ℕ → Bool} :
    intWithin v ok = some n ↔ intValue v = some n ∧ ok n = true := filter_eq_some_iff

end

/-- What is read into a field: the integer of one parameter. -/
structure Reads {α : Type} (field : TransportParams → α) (k : Param) (ok : ℕ → Prop) (value : ℕ → α) : Prop where
  keep : ∀ {p q v j}, setParam p v j = some q → j ≠ k → field q = field p
  take : ∀ {p q v}, setParam p v k = some q → ∃ n, intValue v = some n ∧ ok n ∧ field q = value n

def paramValue (k : Param) (xs : List (ℕ × Bytes)) : Option Bytes := (xs.find? fun x => x.1 = k.id).map Prod.snd

variable {k : Param} {isClient : Bool} {p : TransportParams} {field : TransportParams → α} {value : ℕ → α}
  {ok : ℕ → Prop} {α : Type} {b : Bytes}

theorem Reads.stepParams (hf : Reads field k ok value) {st st' : Parsing} {xs : List (ℕ × Bytes)}
    (h : stepParams isClient st xs = .ok st') : (k.id ∈ st.2 → paramValue k xs = none) ∧
      (paramValue k xs = none → field st'.1 = field st.1) ∧
      ∀ v, paramValue k xs = some v → ∃ n, intValue v = some n ∧ ok n ∧ field st'.1 = value n := by
  induction xs generalizing st with
  | nil =>
    rw [Quic.stepParams] at h
    cases h
    exact ⟨fun _ => rfl, fun _ => rfl, fun v hv => absurd hv (by simp [paramValue])⟩
  | cons x xs ih =>
    rw [Quic.stepParams] at h
    cases hs : stepParam isClient st x with
    | error e => simp [hs] at h
    | ok st₁ =>
      rw [hs] at h
      obtain ⟨hseen, hnone, hsome⟩ := ih h
      obtain ⟨hnew, hids, hset⟩ := stepParam_eq_ok hs
      by_cases hx : x.1 = k.id
      · -- the parameter itself, which comes once
        have hrest := hseen (by rw [hids, hx]; exact List.mem_cons_self ..)
        have hval : paramValue k (x :: xs) = some x.2 := by simp [paramValue, hx]
        refine ⟨fun hin => absurd (hx ▸ hin) hnew, fun hno => absurd hno (by simp [hval]), fun v hv => ?_⟩
        obtain rfl := some.inj (hval.symm.trans hv)
        rw [hx, Param.ofId_id] at hset
        obtain ⟨hno, -⟩ | ⟨j, hj, hset⟩ := hset
        · simp at hno
        · cases hj
          obtain ⟨n, hn, hok, hfield⟩ := hf.take hset
          exact ⟨n, hn, hok, (hnone hrest).trans hfield⟩
      · have hval : paramValue k (x :: xs) = paramValue k xs := by simp [paramValue, hx]
        have hkeep : field st₁.1 = field st.1 := by
          obtain ⟨-, he⟩ | ⟨j, hj, hset⟩ := hset
          · rw [he]
          · exact hf.keep hset fun hjk => hx (by rw [← Param.id_of_ofId hj, hjk])
        rw [hval]
        refine ⟨fun hin => hseen (by rw [hids]; exact List.mem_cons_of_mem _ hin), fun hno => ?_, hsome⟩
        exact (hnone hno).trans hkeep

theorem setParam_durations {q : TransportParams} {v : Bytes} (h : setParam p v k = some q) :
    (k ≠ .maxIdleTimeout → q.maxIdleTimeout = p.maxIdleTimeout) ∧ (k ≠ .maxAckDelay → q.maxAckDelay = p.maxAckDelay) ∧
      (k ≠ .minAckDelay → q.minAckDelay = p.minAckDelay) := by
  cases k <;> simp only [setParam, map_eq_some_iff, ite_none_right_eq_some, some.injEq] at h <;>
    obtain ⟨n, -, rfl⟩ := h <;> simp

theorem reads_maxIdleTimeout : Reads maxIdleTimeout .maxIdleTimeout (fun _ => True)
    fun n => int64 (n * millisecond) := by
  constructor
  · intro p q v j h
    exact (setParam_durations h).1
  · intro p q v h
    obtain ⟨n, hn, rfl⟩ := map_eq_some_iff.1 h
    exact ⟨n, hn, trivial, rfl⟩

theorem reads_maxAckDelay : Reads maxAckDelay .maxAckDelay (· < 2 ^ 14) fun n => n * millisecond := by
  constructor
  · intro p q v j h
    exact (setParam_durations h).2.1
  intro p q v h
  obtain ⟨n, hn, rfl⟩ := map_eq_some_iff.1 h
  obtain ⟨hn, hok⟩ := intWithin_eq_some.1 hn
  have hlt : n < 2 ^ 14 := of_decide_eq_true hok
  refine ⟨n, hn, hlt, IsInt64.eq ?_⟩
  unfold IsInt64 millisecond
  omega

theorem reads_minAckDelay : Reads minAckDelay .minAckDelay (· ≤ 2 ^ 14 * 1000) fun n => n * microsecond := by
  constructor
  · intro p q v j h
    exact (setParam_durations h).2.2
  intro p q v h
  obtain ⟨n, hn, rfl⟩ := map_eq_some_iff.1 h
  obtain ⟨hn, hok⟩ := intWithin_eq_some.1 hn
  have hle : n ≤ 2 ^ 14 * 1000 := of_decide_eq_true hok
  refine ⟨n, hn, hle, IsInt64.eq ?_⟩
  unfold IsInt64 microsecond
  omega

def wireInt (b : Bytes) (k : Param) : Option ℕ :=
  (readParams b.length b).bind fun xs => (paramValue k xs).bind intValue

theorem parseParams_eq_ok : parseParams b isClient = .ok p ↔
    (∃ xs seen, readParams b.length b = some xs ∧ stepParams isClient (defaultParams, []) xs = .ok (p, seen)) ∧
      (p.hasMinAckDelay = true → p.minAckDelay ≤ p.maxAckDelay) := by
  unfold parseParams
  cases hp : parseFrom isClient b.length (defaultParams, []) b with
  | error e =>
    refine ⟨fun h => absurd h (by simp), ?_⟩
    rintro ⟨⟨xs, seen, hxs, hst⟩, -⟩
    rw [parseFrom_eq_ok.2 ⟨xs, hxs, hst⟩] at hp
    simp at hp
  | ok st =>
    obtain ⟨q, seen⟩ := st
    obtain ⟨xs, hxs, hst⟩ := parseFrom_eq_ok.1 hp
    dsimp only
    constructor
    · intro h
      split_ifs at h with hmin
      cases h
      exact ⟨⟨xs, seen, hxs, hst⟩, fun hh => not_lt.1 fun hlt => hmin ⟨hh, hlt⟩⟩
    rintro ⟨⟨ys, seen', hys, hst'⟩, hmin⟩
    obtain rfl := some.inj (hxs.symm.trans hys)
    obtain ⟨rfl, rfl⟩ := Prod.mk.inj (Except.ok.inj (hst.symm.trans hst'))
    rw [if_neg]
    rintro ⟨hh, hlt⟩
    exact absurd (hmin hh) (not_le.2 hlt)

/-- A field of parameters that are accepted is what its parameter says on the wire, or the default. -/
theorem Reads.parseParams (hf : Reads field k ok value) (h : parseParams b isClient = .ok p) :
    (∀ n ∈ wireInt b k, ok n) ∧ field p = ((wireInt b k).map value).getD (field defaultParams) := by
  obtain ⟨⟨xs, seen, hxs, hst⟩, -⟩ := parseParams_eq_ok.1 h
  obtain ⟨-, hnone, hsome⟩ := hf.stepParams hst
  have hwire : wireInt b k = (paramValue k xs).bind intValue := by rw [wireInt, hxs, bind_some]
  rw [hwire]
  cases hv : paramValue k xs with
  | none => exact ⟨fun n hn => absurd hn (by simp), hnone hv⟩
  | some v =>
    obtain ⟨n, hn, hok, hfield⟩ := hsome v hv
    rw [bind_some, hn]
    refine ⟨fun m hm => ?_, hfield⟩
    cases hm
    exact hok

end Fib.Quic
