import Fib.Lib.Bytes
import Fib.Lib.Runs

/-! What an SRT connection with a passphrase queues. A packet is marked with the key in use, and encrypted with it
exactly if the key material at hand has that key, which a refresh under another salt may take away. -/

namespace Fib.Srt
open Option List

/-- `kkEven` and `kkOdd`. -/
inductive Kk where
  | even
  | odd
deriving DecidableEq

structure KeyMaterial where
  salt : Bytes
  even : Option Bytes := none
  odd : Option Bytes := none
deriving DecidableEq

/-- AES in counter mode: of a key's stream from an IV, as much as is asked for. -/
structure Ctr where
  stream : Bytes → Bytes → ℕ → Bytes
  length_stream : ∀ key iv n, (stream key iv n).length = n

inductive State where
  | handshake
  | connected
  | closed
deriving DecidableEq

inductive WriteError where
  | closed
  | notConnected
  | tooLarge
  | bufferFull
deriving DecidableEq

structure Config where
  payloadSize : ℕ
  sendBufferPackets : ℕ

structure Packet where
  seq : ℕ
  kk : Kk
  msgno : ℕ
  body : Bytes

/-- `crypt` is always made of `km`. -/
structure Conn where
  state : State := .handshake
  km : KeyMaterial
  kk : Kk
  sndNext : ℕ
  msgno : ℕ := 0
  snd : List Packet := []

inductive Op where
  /-- `late` packets are dropped first. -/
  | write (payload : Bytes) (late : ℕ)
  /-- A KMREQ that `unmarshalKMWith` took. -/
  | refresh (km : KeyMaterial)
  | popSent (n : ℕ)
  | setState (state : State)

namespace KeyMaterial
variable (km : KeyMaterial)

/-- `newCryptor` takes the keys: `aes.NewCipher` knows three lengths. -/
def usable : Bool := (km.even.toList ++ km.odd.toList).all fun key => key.length ∈ [16, 24, 32]

def key : Kk → Option Bytes
  | .even => km.even
  | .odd => km.odd

def iv (seq : ℕ) : Bytes :=
  let pki := (range 4).map fun i => UInt8.ofNat (seq >>> (24 - 8 * i))
  km.salt.take 10 ++ zipWith (· ^^^ ·) ((km.salt.take 14).drop 10) pki ++ [0, 0]

/-- `none` if the key is absent. -/
def xor (A : Ctr) (kk : Kk) (seq : ℕ) (b : Bytes) : Option Bytes :=
  (km.key kk).map fun key => zipWith (· ^^^ ·) b (A.stream key (km.iv seq) b.length)

/-- The same salt: keep a key the refresh leaves out. -/
def merge (new : KeyMaterial) : KeyMaterial :=
  if new.salt = km.salt then { new with even := new.even <|> km.even, odd := new.odd <|> km.odd } else new

end KeyMaterial

/-- A connection as a caller makes it, with a key of its own, or a listener, with the keys of the handshake, of which
`unmarshalKMWith` wants one. -/
inductive Started : Conn → Prop where
  | dial {salt even : Bytes} {isn : ℕ} : KeyMaterial.usable { salt, even } = true →
      Started { km := { salt, even }, kk := .even, sndNext := isn }
  | accept {km : KeyMaterial} {isn : ℕ} : km.even ≠ none ∨ km.odd ≠ none → km.usable = true →
      Started { km, kk := if km.even = none then .odd else .even, sndNext := isn }

namespace Conn
variable (A : Ctr) (cfg : Config) (c : Conn)

def popSent (n : ℕ) : Conn := { c with snd := c.snd.drop n }

/-- What is queued. What `xor` reports is not looked at. -/
def packet (payload : Bytes) : Packet :=
  ⟨c.sndNext, c.kk, c.msgno % (2 ^ 26 - 1) + 1, (c.km.xor A c.kk c.sndNext payload).getD payload⟩

def write (payload : Bytes) (late : ℕ) : Conn × Option WriteError :=
  if c.state = .closed then (c, some .closed)
  else if c.state ≠ .connected then (c, some .notConnected)
  else if cfg.payloadSize < payload.length then (c, some .tooLarge)
  else if cfg.sendBufferPackets ≤ (c.popSent late).snd.length then (c.popSent late, some .bufferFull)
  else
    ({ c.popSent late with
      msgno := (c.packet A payload).msgno
      sndNext := (c.sndNext + 1) % 2 ^ 31
      snd := (c.popSent late).snd ++ [c.packet A payload] }, none)

def handleKMRefresh (km : KeyMaterial) : Conn :=
  if (c.km.merge km).usable then { c with km := c.km.merge km } else c

def step : Op → Conn
  | .write payload late => (c.write A cfg payload late).1
  | .refresh km => c.handleKMRefresh km
  | .popSent n => c.popSent n
  | .setState state => { c with state }

/-- The packet queued is what the key it is marked with makes of the payload, and the other way round. -/
def Seals : Op → Prop
  | .write payload late => (c.write A cfg payload late).2 = none →
      ∃ p, (c.write A cfg payload late).1.snd = c.snd.drop late ++ [p] ∧
        c.km.xor A p.kk p.seq payload = some p.body ∧ c.km.xor A p.kk p.seq p.body = some payload
  | _ => True

/-- A packet is queued only while the key in use is there. -/
def Keyed : Op → Prop
  | .write payload late => (c.write A cfg payload late).2 = none → (c.km.key c.kk).isSome = true
  | _ => True

/-- A refresh under another salt brings the key in use. -/
def Covered : Op → Prop
  | .refresh km => km.salt = c.km.salt ∨ (km.key c.kk).isSome = true
  | _ => True

end Conn

def machine (A : Ctr) (cfg : Config) (c : Conn) : Machine Conn Op := ⟨c, fun c op => c.step A cfg op⟩

variable {A : Ctr} {cfg : Config} {c : Conn} {km : KeyMaterial} {kk : Kk} {seq : ℕ} {b b' : Bytes}

theorem KeyMaterial.xor_xor (h : km.xor A kk seq b = some b') : km.xor A kk seq b' = some b := by
  unfold xor at h ⊢
  obtain ⟨key, hkey, rfl⟩ := map_eq_some_iff.1 h
  have hlen := A.length_stream key (km.iv seq) b.length
  rw [hkey, map_some, length_zipWith, hlen, min_self]
  refine congrArg some (ext_getElem (by simp [hlen]) fun i h₁ h₂ => ?_)
  rw [getElem_zipWith, getElem_zipWith, UInt8.xor_assoc, UInt8.xor_self, UInt8.xor_zero]

theorem seals_iff_keyed (op : Op) : c.Seals A cfg op ↔ c.Keyed A cfg op := by
  cases op with
  | write payload late =>
    refine forall_congr' fun hok => ?_
    have hsnd : (c.write A cfg payload late).1.snd = c.snd.drop late ++ [c.packet A payload] := by
      unfold Conn.write at hok ⊢
      split_ifs at hok ⊢
      rfl
    rw [hsnd, isSome_iff_exists]
    constructor
    · rintro ⟨p, hp, hx, -⟩
      obtain rfl := singleton_inj.1 (append_cancel_left hp)
      obtain ⟨key, hkey, -⟩ := map_eq_some_iff.1 hx
      exact ⟨key, hkey⟩
    · rintro ⟨key, hkey⟩
      have hx : c.km.xor A c.kk c.sndNext payload = some (c.packet A payload).body := by
        unfold Conn.packet KeyMaterial.xor
        rw [hkey]
        rfl
      exact ⟨_, rfl, hx, KeyMaterial.xor_xor hx⟩
  | refresh km => exact .rfl
  | popSent n => exact .rfl
  | setState state => exact .rfl

theorem isSome_key_merge (h : (c.km.key kk).isSome = true) (hc : km.salt = c.km.salt ∨ (km.key kk).isSome = true) :
    ((c.km.merge km).key kk).isSome = true := by
  unfold KeyMaterial.merge
  split_ifs with hsalt
  · cases kk <;> simp_all [KeyMaterial.key]
  · exact hc.resolve_left hsalt

theorem isSome_key_step (h : (c.km.key c.kk).isSome = true) {op : Op} (hc : c.Covered op) :
    ((c.step A cfg op).km.key (c.step A cfg op).kk).isSome = true := by
  cases op with
  | write payload late =>
    unfold Conn.step Conn.write
    dsimp only
    split_ifs <;> exact h
  | refresh km =>
    unfold Conn.step Conn.handleKMRefresh
    dsimp only
    split_ifs
    · exact isSome_key_merge h hc
    · exact h
  | popSent n => exact h
  | setState state => exact h

theorem Started.isSome_key (h : Started c) : (c.km.key c.kk).isSome = true := by
  cases h with
  | dial => rfl
  | @accept km _ hkey =>
    split_ifs with heven
    · exact isSome_iff_ne_none.2 (hkey.resolve_left (not_not.2 heven))
    · exact isSome_iff_ne_none.2 heven

/-- What is queued is sealed exactly if the key in use is there at each write, as it is if every refresh under another
salt brings it. -/
theorem sealed_iff_keyed (A : Ctr) (cfg : Config) (c : Conn) (hc : Started c) (ops : List Op) :
    ((machine A cfg c).Meets (·.Seals A cfg ·) ops ↔ (machine A cfg c).Meets (·.Keyed A cfg ·) ops) ∧
      ((machine A cfg c).Meets (·.Covered ·) ops → (machine A cfg c).Meets (·.Seals A cfg ·) ops) := by
  have hiff : (fun c op => Conn.Seals A cfg c op) = fun c op => Conn.Keyed A cfg c op :=
    funext fun c => funext fun op => propext (seals_iff_keyed op)
  refine ⟨by rw [hiff], fun hcov => ?_⟩
  rw [hiff]
  refine Machine.meets_of (I := fun c => (c.km.key c.kk).isSome = true) hc.isSome_key
    (fun s op hs hop => isSome_key_step hs hop) (fun s op hs _ => ?_) hcov
  cases op with
  | write payload late => exact fun _ => hs
  | refresh km => exact trivial
  | popSent n => exact trivial
  | setState state => exact trivial

def called : Conn := { km := { salt := replicate 16 0, even := some (replicate 16 1) }, kk := .even, sndNext := 7 }

def ones : Ctr := ⟨fun _ _ n => replicate n 1, by simp⟩

/-- The peer changes to another salt, with an even key. -/
theorem called_sealed : (machine ones ⟨1456, 8⟩ called).Meets (·.Seals ones ⟨1456, 8⟩ ·)
    [.setState .connected, .refresh { salt := replicate 16 2, even := some (replicate 16 3) }, .write [5, 6] 0] :=
  (sealed_iff_keyed ones ⟨1456, 8⟩ called (.dial (by decide)) _).2 ⟨trivial, .inr rfl, trivial, trivial⟩

/-- The peer changes to another salt and an odd key: the payload is queued as it is, marked with the even key. -/
theorem refresh_leaves_clear :
    (((machine ones ⟨1456, 8⟩ called).run [.setState .connected,
      .refresh { salt := replicate 16 2, odd := some (replicate 16 3) }, .write [5, 6] 0]).snd.map
        fun p => (p.kk, p.body)) = [(.even, [5, 6])] := by
  decide

end Fib.Srt
