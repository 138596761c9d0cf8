import Fib.Lib.Bytes

/-! Numbers in a fixed number of bytes, and slices of byte strings. -/

namespace Fib
open List

def putLE : ℕ → ℕ → Bytes
  | 0, _ => []
  | k + 1, v => UInt8.ofNat v :: putLE k (v / 256)

def getLE : Bytes → ℕ
  | [] => 0
  | b :: s => b.toNat + 256 * getLE s

def putBE (k v : ℕ) : Bytes := (putLE k v).reverse

def getBE (b : Bytes) : ℕ := getLE b.reverse

def slice (b : Bytes) (off n : ℕ) : Bytes := (b.drop off).take n

@[simp] theorem length_putLE (k v : ℕ) : (putLE k v).length = k := by
  induction k generalizing v with
  | zero => rfl
  | succ k ih => rw [putLE, length_cons, ih]

@[simp] theorem length_putBE (k v : ℕ) : (putBE k v).length = k := by
  rw [putBE, length_reverse, length_putLE]

theorem getLE_putLE {k v : ℕ} (h : v < 256 ^ k) : getLE (putLE k v) = v := by
  induction k generalizing v with
  | zero =>
    rw [Nat.pow_zero] at h
    rw [putLE, getLE]
    omega
  | succ k ih =>
    have hdiv : v / 256 < 256 ^ k := by
      apply (Nat.div_lt_iff_lt_mul (by decide : 0 < 256)).2
      rwa [Nat.pow_succ] at h
    rw [putLE, getLE, ih hdiv, UInt8.toNat_ofNat']
    omega

theorem getBE_putBE {k v : ℕ} (h : v < 256 ^ k) : getBE (putBE k v) = v := by
  rw [getBE, putBE, reverse_reverse, getLE_putLE h]

theorem slice_of_prefix {p b : Bytes} {off n : ℕ} (hp : p <+: b) (h : off + n ≤ p.length) :
    slice p off n = slice b off n := by
  obtain ⟨t, rfl⟩ := hp
  rw [slice, slice, drop_append_of_le_length (by omega), take_append_of_le_length]
  rw [length_drop]
  omega

theorem slice_left {a : Bytes} {n : ℕ} (h : a.length = n) (b : Bytes) : slice (a ++ b) 0 n = a := by
  rw [slice, drop_zero, take_left' h]

theorem slice_right {a : Bytes} {k : ℕ} (h : a.length = k) (b : Bytes) (i n : ℕ) :
    slice (a ++ b) (k + i) n = slice b i n := by
  rw [slice, slice, ← drop_drop, drop_left' h]

theorem slice_middle (a b c : Bytes) : slice (a ++ (b ++ c)) a.length b.length = b := by
  rw [slice, drop_left, take_left]

end Fib
