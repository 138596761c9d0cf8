import Fib.Lib.Bytes
import Fib.Lib.ReplayWindow

/-! A context that protects or unprotects the RTP packets of one side of a session. -/

namespace Fib.Srtp

/-! ### Reading and writing numbers -/

def uint16 (b : Bytes) (i : ℕ) : ℕ := (b.getD i 0).toNat * 256 + (b.getD (i + 1) 0).toNat

def uint32 (b : Bytes) (i : ℕ) : ℕ := uint16 b i * 65536 + uint16 b (i + 2)

def putUint16 (v : ℕ) : Bytes := [UInt8.ofNat (v / 256), UInt8.ofNat v]

def putUint32 (v : ℕ) : Bytes := putUint16 (v / 65536) ++ putUint16 v

def xorBytes (a b : Bytes) : Bytes := List.zipWith (· ^^^ ·) a b

/-! ### Profiles and keys -/

inductive Profile
  | aes128CmHmacSha1_80
  | aes128CmHmacSha1_32
  | aeadAes128Gcm
  | aeadAes256Gcm
deriving DecidableEq

namespace Profile

def aead : Profile → Bool
  | aes128CmHmacSha1_80 => false
  | aes128CmHmacSha1_32 => false
  | aeadAes128Gcm => true
  | aeadAes256Gcm => true

def rtpOverhead : Profile → ℕ
  | aes128CmHmacSha1_80 => 10
  | aes128CmHmacSha1_32 => 4
  | aeadAes128Gcm => 16
  | aeadAes256Gcm => 16

end Profile

structure Aead where
  sealBytes : (iv ad plain : Bytes) → Bytes
  openBytes : (iv ad sealed : Bytes) → Option Bytes
  length_sealBytes : ∀ iv ad p, (sealBytes iv ad p).length = p.length + 16
  openBytes_sealBytes : ∀ iv ad p, openBytes iv ad (sealBytes iv ad p) = some p

/-- The session keys, with the library's ciphers at them: `gcm` is used by the AEAD profiles, `block` and
`mac` by the others. -/
structure SessionKeys where
  profile : Profile
  salt : Vector UInt8 14
  block : Bytes → Vector UInt8 16
  mac : Bytes → Vector UInt8 20
  gcm : Aead

namespace SessionKeys
variable (k : SessionKeys)

def tagLen : ℕ := k.profile.rtpOverhead

/-- The counter block but for its last two bytes. -/
def ctrIV (ssrc index : ℕ) : Bytes :=
  xorBytes k.salt.toList (List.replicate 4 0 ++ putUint32 ssrc ++ putUint16 (index / 2 ^ 32) ++ putUint32 index)

def gcmIV (ssrc roc seq : ℕ) : Bytes :=
  xorBytes (List.replicate 2 0 ++ putUint32 ssrc ++ putUint32 roc ++ putUint16 seq) (k.salt.toList.take 12)

def keystream (iv : Bytes) (n : ℕ) : Bytes :=
  (List.range ((n + 15) / 16)).flatMap fun i => (k.block (iv ++ putUint16 i)).toList

def xorCTR (iv src : Bytes) : Bytes := xorBytes src (k.keystream iv src.length)

def hmacTag (a b : Bytes) : Bytes := ((k.mac (a ++ b)).toList).take k.tagLen

/-- What protecting a packet sent under a rollover counter gives, `hl` being the length of its header. -/
def protect (hl ssrc roc seq : ℕ) (pkt : Bytes) : Bytes :=
  if k.profile.aead = true then
    pkt.take hl ++ k.gcm.sealBytes (k.gcmIV ssrc roc seq) (pkt.take hl) (pkt.drop hl)
  else
    let body := pkt.take hl ++ k.xorCTR (k.ctrIV ssrc (roc * 2 ^ 16 + seq)) (pkt.drop hl)
    body ++ k.hmacTag body (putUint32 roc)

def unprotect (hl ssrc roc seq : ℕ) (pkt : Bytes) : Option Bytes :=
  if k.profile.aead = true then
    (k.gcm.openBytes (k.gcmIV ssrc roc seq) (pkt.take hl) (pkt.drop hl)).map (pkt.take hl ++ ·)
  else
    let n := pkt.length - k.tagLen
    if k.hmacTag (pkt.take n) (putUint32 roc) = pkt.drop n then
      some (pkt.take hl ++ k.xorCTR (k.ctrIV ssrc (roc * 2 ^ 16 + seq)) ((pkt.take n).drop hl))
    else none

end SessionKeys

/-! ### Headers -/

inductive Error
  | malformed
  | shortPacket
  | replayed
  | authFailed
deriving DecidableEq

/-- `rtp.HeaderLen`: none for a packet that is too short or of another version. -/
def headerLen (b : Bytes) : Option ℕ :=
  if b.length < 12 then none
  else if b.getD 0 0 >>> 6 ≠ 2 then none
  else
    let n := 12 + 4 * (b.getD 0 0 &&& 0x0f).toNat
    if b.getD 0 0 &&& 0x10 ≠ 0 then
      if b.length < n + 4 then none
      else if b.length < n + (4 + 4 * uint16 b (n + 2)) then none
      else some (n + (4 + 4 * uint16 b (n + 2)))
    else if b.length < n then none
    else some n

def ssrcOf (b : Bytes) : ℕ := uint32 b 8

def seqOf (b : Bytes) : ℕ := uint16 b 2

/-! ### The rollover counter -/

structure RtpState where
  roc : ℕ := 0
  lastSeq : ℕ := 0
  started : Bool := false
  replay : ReplayWindow
deriving DecidableEq

namespace RtpState

/-- The rollover counter that puts a packet nearest the highest sequence number seen. -/
def estimateROC (s : RtpState) (seq : ℕ) : ℕ :=
  if s.started = false then s.roc
  else if s.lastSeq < 0x8000 then
    if seq > s.lastSeq ∧ seq - s.lastSeq > 0x8000 ∧ s.roc > 0 then s.roc - 1 else s.roc
  else if s.lastSeq - 0x8000 > seq then (s.roc + 1) % 2 ^ 32
  else s.roc

def update (s : RtpState) (roc seq : ℕ) : RtpState :=
  if s.started = false then { s with started := true, roc := roc, lastSeq := seq }
  else if roc = (s.roc + 1) % 2 ^ 32 then { s with roc := roc, lastSeq := seq }
  else if roc = s.roc ∧ seq > s.lastSeq then { s with lastSeq := seq }
  else s

end RtpState

/-! ### The context -/

structure Context where
  keys : SessionKeys
  replayWindow : ℕ
  rtpOut : ℕ → Option RtpState := fun _ => none
  rtpIn : ℕ → Option RtpState := fun _ => none

/-- A context with the keys derived; a window of 0 in the options is the default. -/
def newContext (k : SessionKeys) (window : ℕ) : Context :=
  { keys := k, replayWindow := if window > 0 then window else 64 }

namespace Context
variable (c : Context) (pkt : Bytes)

def newRTPState : RtpState := { replay := ReplayWindow.init c.replayWindow }

def protectRTP : Except Error Bytes × Context :=
  match headerLen pkt with
  | none => (.error .malformed, c)
  | some hl =>
    let s := (c.rtpOut (ssrcOf pkt)).getD c.newRTPState
    let roc := s.estimateROC (seqOf pkt)
    (.ok (c.keys.protect hl (ssrcOf pkt) roc (seqOf pkt) pkt),
      { c with rtpOut := Function.update c.rtpOut (ssrcOf pkt) (some (s.update roc (seqOf pkt))) })

/-- The rollover counter a packet received is taken to be of. -/
def rocIn : ℕ :=
  match c.rtpIn (ssrcOf pkt) with
  | none => 0
  | some s => s.estimateROC (seqOf pkt)

def indexIn : ℕ := c.rocIn pkt * 2 ^ 16 + seqOf pkt

/-- The replay window has seen the packet or left it behind. -/
def replayed : Bool :=
  match c.rtpIn (ssrcOf pkt) with
  | none => false
  | some s => s.started && !s.replay.check (c.indexIn pkt)

def acceptedIn : RtpState :=
  let s := ((c.rtpIn (ssrcOf pkt)).getD c.newRTPState).update (c.rocIn pkt) (seqOf pkt)
  { s with replay := s.replay.accept (c.indexIn pkt) }

def unprotectRTP : Except Error Bytes × Context :=
  match headerLen pkt with
  | none => (.error .malformed, c)
  | some hl =>
    if pkt.length < hl + c.keys.tagLen then (.error .shortPacket, c)
    else if c.replayed pkt = true then (.error .replayed, c)
    else
      match c.keys.unprotect hl (ssrcOf pkt) (c.rocIn pkt) (seqOf pkt) pkt with
      | none => (.error .authFailed, c)
      | some out =>
        (.ok out, { c with rtpIn := Function.update c.rtpIn (ssrcOf pkt) (some (c.acceptedIn pkt)) })

end Context
end Fib.Srtp
