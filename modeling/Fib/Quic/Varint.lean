import Fib.Lib.Bytes

/-! Variable-length integers (http3/quic/varint.go). -/

namespace Fib.Quic
open List

def varintLen (v : ℕ) : ℕ :=
  if v < 2 ^ 6 then 1
  else if v < 2 ^ 14 then 2
  else if v < 2 ^ 30 then 4
  else 8

def byteAt (v shift : ℕ) : UInt8 := UInt8.ofNat (v >>> shift)

def appendVarint (b : Bytes) (v : ℕ) : Bytes :=
  if v < 2 ^ 6 then b ++ [byteAt v 0]
  else if v < 2 ^ 14 then b ++ [byteAt v 8 ||| 0x40, byteAt v 0]
  else if v < 2 ^ 30 then b ++ [byteAt v 24 ||| 0x80, byteAt v 16, byteAt v 8, byteAt v 0]
  else b ++ [byteAt v 56 ||| 0xc0, byteAt v 48, byteAt v 40, byteAt v 32,
    byteAt v 24, byteAt v 16, byteAt v 8, byteAt v 0]

@[simp] theorem length_appendVarint (b : Bytes) (v : ℕ) : (appendVarint b v).length = b.length + varintLen v := by
  unfold appendVarint varintLen
  split_ifs <;> simp

theorem varintLen_pos (v : ℕ) : 0 < varintLen v := by
  unfold varintLen
  split_ifs <;> omega

theorem varintLen_le_two {v : ℕ} (h : v < 2 ^ 14) : varintLen v ≤ 2 := by
  unfold varintLen
  split_ifs <;> omega

def readVarint : Bytes → Option (ℕ × Bytes)
  | [] => none
  | b :: bs =>
    let n := 2 ^ (b.toNat >>> 6) - 1
    if bs.length < n then none
    else some ((bs.take n).foldl (fun v x => v * 256 + x.toNat) (b.toNat % 64), bs.drop n)

theorem foldl_bytes_lt {w m : ℕ} (h : w < m) (bs : Bytes) :
    bs.foldl (fun v x => v * 256 + x.toNat) w < m * 256 ^ bs.length := by
  induction bs generalizing w m with
  | nil => simpa using h
  | cons x bs ih =>
    have hx := x.toNat_lt
    have hm : w * 256 + x.toNat < m * 256 := by omega
    have := ih hm
    rw [foldl_cons, length_cons, Nat.pow_succ']
    rwa [Nat.mul_assoc] at this

theorem readVarint_lt {b rest : Bytes} {v : ℕ} (h : readVarint b = some (v, rest)) : v < 2 ^ 62 := by
  cases b with
  | nil => simp [readVarint] at h
  | cons c bs =>
    have hk : c.toNat >>> 6 < 4 := by
      rw [Nat.shiftRight_eq_div_pow]
      have := c.toNat_lt
      omega
    rw [readVarint] at h
    split_ifs at h with hlen
    obtain ⟨rfl, -⟩ := Prod.mk.inj (Option.some.inj h)
    have hw : c.toNat % 64 < 64 := Nat.mod_lt _ (by decide)
    have hfold := foldl_bytes_lt hw (bs.take (2 ^ (c.toNat >>> 6) - 1))
    have hexp : (bs.take (2 ^ (c.toNat >>> 6) - 1)).length ≤ 7 := by
      rw [length_take]
      have : 2 ^ (c.toNat >>> 6) ≤ 2 ^ 3 := Nat.pow_le_pow_right (by decide) (by omega)
      omega
    have hpow := Nat.pow_le_pow_right (by decide : 0 < 256) hexp
    omega

theorem appendVarint_eq (b : Bytes) (v : ℕ) : appendVarint b v = b ++ appendVarint [] v := by
  unfold appendVarint
  split_ifs <;> rfl

theorem toNat_byteAt (v shift : ℕ) : (byteAt v shift).toNat = v / 2 ^ shift % 256 := by
  rw [byteAt, UInt8.toNat_ofNat', Nat.shiftRight_eq_div_pow]

theorem toNat_byteAt_or (v shift : ℕ) {m : UInt8} {k : ℕ} (hm : m.toNat = 2 ^ 6 * k) (h : v / 2 ^ shift < 2 ^ 6) :
    (byteAt v shift ||| m).toNat = 64 * k + v / 2 ^ shift := by
  have hb : (byteAt v shift).toNat = v / 2 ^ shift := by
    rw [toNat_byteAt]
    exact Nat.mod_eq_of_lt (by omega)
  rw [UInt8.toNat_or, hm, hb, Nat.or_comm, ← Nat.two_pow_add_eq_or_of_lt h]

theorem readVarint_cons {b : UInt8} {k w : ℕ} (hb : b.toNat = 64 * k + w) (hw : w < 64) (bs : Bytes)
    (hlen : bs.length = 2 ^ k - 1) (rest : Bytes) :
    readVarint (b :: (bs ++ rest)) = some (bs.foldl (fun v x => v * 256 + x.toNat) w, rest) := by
  have hk : b.toNat >>> 6 = k := by
    rw [Nat.shiftRight_eq_div_pow, hb]
    omega
  have hm : b.toNat % 64 = w := by omega
  have htake : (bs ++ rest).take (2 ^ k - 1) = bs := take_left' hlen
  have hdrop : (bs ++ rest).drop (2 ^ k - 1) = rest := drop_left' hlen
  rw [readVarint, hk, hm, htake, hdrop, if_neg]
  rw [length_append]
  omega

theorem next_byte (v : ℕ) {s t : ℕ} (h : t = s + 8) : v / 2 ^ t * 256 + (byteAt v s).toNat = v / 2 ^ s := by
  rw [toNat_byteAt, h, Nat.pow_add, ← Nat.div_div_eq_div_mul]
  omega

theorem readVarint_appendVarint {v : ℕ} (h : v < 2 ^ 62) (rest : Bytes) :
    readVarint (appendVarint [] v ++ rest) = some (v, rest) := by
  unfold appendVarint
  split_ifs with h6 h14 h30
  · have hb : (byteAt v 0).toNat = 64 * 0 + v := by
      rw [toNat_byteAt]
      omega
    exact readVarint_cons hb (by omega) [] rfl rest
  · have hb := toNat_byteAt_or v 8 (m := 0x40) (k := 1) rfl (by omega)
    rw [nil_append, cons_append, readVarint_cons hb (by omega) [_] rfl rest]
    simp only [foldl_cons, foldl_nil]
    rw [next_byte v rfl, pow_zero, Nat.div_one]
  · have hb := toNat_byteAt_or v 24 (m := 0x80) (k := 2) rfl (by omega)
    rw [nil_append, cons_append, readVarint_cons hb (by omega) [_, _, _] rfl rest]
    simp only [foldl_cons, foldl_nil]
    rw [next_byte v rfl, next_byte v rfl, next_byte v rfl, pow_zero, Nat.div_one]
  have hb := toNat_byteAt_or v 56 (m := 0xc0) (k := 3) rfl (by omega)
  rw [nil_append, cons_append, readVarint_cons hb (by omega) [_, _, _, _, _, _, _] rfl rest]
  simp only [foldl_cons, foldl_nil]
  rw [next_byte v rfl, next_byte v rfl, next_byte v rfl, next_byte v rfl,
    next_byte v rfl, next_byte v rfl, next_byte v rfl, pow_zero, Nat.div_one]

end Fib.Quic
