import Fib.Lib.Bytes

/-! KCP segments on the wire: a header of 24 bytes, little-endian, and the data it announces. What
was written is what is read. -/

namespace Fib.Kcp
open UInt8

def le16 (n : UInt16) : Bytes := [ofNat n.toNat, ofNat (n.toNat / 2 ^ 8)]

def le32 (n : UInt32) : Bytes :=
  [ofNat n.toNat, ofNat (n.toNat / 2 ^ 8), ofNat (n.toNat / 2 ^ 16), ofNat (n.toNat / 2 ^ 24)]

def uint16At (b : Bytes) (i : ℕ) : UInt16 := UInt16.ofNat ((b.getD i 0).toNat + (b.getD (i + 1) 0).toNat * 2 ^ 8)

def uint32At (b : Bytes) (i : ℕ) : UInt32 :=
  UInt32.ofNat ((b.getD i 0).toNat + (b.getD (i + 1) 0).toNat * 2 ^ 8 + (b.getD (i + 2) 0).toNat * 2 ^ 16 +
    (b.getD (i + 3) 0).toNat * 2 ^ 24)

structure Wire where
  cmd : UInt8
  frg : UInt8
  wnd : UInt16
  ts : UInt32
  sn : UInt32
  una : UInt32
  data : Bytes
  deriving DecidableEq

def cmdPush : UInt8 := 81
def cmdAck : UInt8 := 82
def cmdWask : UInt8 := 83
def cmdWins : UInt8 := 84

def overhead : ℕ := 24

def Wire.encode (conv : UInt32) (w : Wire) : Bytes :=
  le32 conv ++ [w.cmd, w.frg] ++ le16 w.wnd ++ le32 w.ts ++ le32 w.sn ++ le32 w.una ++
    le32 (UInt32.ofNat w.data.length) ++ w.data

def encodeAll (conv : UInt32) (ws : List Wire) : Bytes := ws.flatMap (Wire.encode conv)

theorem uint16_le16 (n : UInt16) :
    UInt16.ofNat ((ofNat n.toNat).toNat + (ofNat (n.toNat / 2 ^ 8)).toNat * 2 ^ 8) = n := by
  apply UInt16.toNat_inj.1
  have := n.toNat_lt
  simp only [UInt16.toNat_ofNat', toNat_ofNat']
  omega

theorem uint32_le32 (n : UInt32) :
    UInt32.ofNat ((ofNat n.toNat).toNat + (ofNat (n.toNat / 2 ^ 8)).toNat * 2 ^ 8 +
      (ofNat (n.toNat / 2 ^ 16)).toNat * 2 ^ 16 + (ofNat (n.toNat / 2 ^ 24)).toNat * 2 ^ 24) = n := by
  apply UInt32.toNat_inj.1
  have := n.toNat_lt
  simp only [UInt32.toNat_ofNat', toNat_ofNat']
  omega

section Read
variable (conv : UInt32) (w : Wire) (rest : Bytes)

theorem encode_conv : uint32At (w.encode conv ++ rest) 0 = conv := uint32_le32 conv

theorem encode_cmd : (w.encode conv ++ rest).getD 4 0 = w.cmd := rfl

theorem encode_frg : (w.encode conv ++ rest).getD 5 0 = w.frg := rfl

theorem encode_wnd : uint16At (w.encode conv ++ rest) 6 = w.wnd := uint16_le16 w.wnd

theorem encode_ts : uint32At (w.encode conv ++ rest) 8 = w.ts := uint32_le32 w.ts

theorem encode_sn : uint32At (w.encode conv ++ rest) 12 = w.sn := uint32_le32 w.sn

theorem encode_una : uint32At (w.encode conv ++ rest) 16 = w.una := uint32_le32 w.una

theorem encode_length (h : w.data.length < 2 ^ 32) : (uint32At (w.encode conv ++ rest) 20).toNat = w.data.length := by
  rw [show uint32At (w.encode conv ++ rest) 20 = UInt32.ofNat w.data.length from uint32_le32 _,
    UInt32.toNat_ofNat', Nat.mod_eq_of_lt h]

theorem drop_encode : (w.encode conv ++ rest).drop overhead = w.data ++ rest := rfl

theorem length_encode : (w.encode conv).length = overhead + w.data.length := by
  simp [Wire.encode, le32, le16, overhead]
  omega

end Read
end Fib.Kcp
