import Fib.Quic.Packet

/-! Packet numbers as they travel (http3/quic/packet.go): a sender keeps the low bytes of one, as many as what is not
acknowledged yet asks for; a receiver takes the number nearest the one it expects next. -/

namespace Fib.Quic

/-- `decodePN`. The number expected next is one past the largest received, and `expected &^ mask` has its low bits
cleared. -/
def decodePN (largest : Option ℕ) (truncated n : ℕ) : ℕ :=
  let expected := match largest with
    | none => 0
    | some l => l + 1
  let win := 2 ^ (8 * n)
  let hwin := win / 2
  let candidate := (expected / win * win) ||| truncated
  if candidate + hwin ≤ expected ∧ candidate < 2 ^ 62 - win then candidate + win
  else if expected + hwin < candidate ∧ win ≤ candidate then candidate - win
  else candidate

/-- How far a packet number is past the largest acknowledged, `-1` if there is none. -/
def unacked (pn : ℕ) : Option ℕ → ℕ
  | none => pn + 1
  | some a => pn - a

section
variable (pn : ℕ) (acked : Option ℕ)
include pn acked

theorem pnLen_eq :
    pnLen pn acked = if unacked pn acked < 2 ^ 7 then 1 else if unacked pn acked < 2 ^ 15 then 2
      else if unacked pn acked < 2 ^ 23 then 3 else 4 := by
  cases acked <;> rfl

theorem pnLen_pos : 1 ≤ pnLen pn acked := by
  rw [pnLen_eq]
  split_ifs <;> omega

theorem pnLen_le : pnLen pn acked ≤ 4 := by
  rw [pnLen_eq]
  split_ifs <;> omega

end

theorem unacked_lt {pn : ℕ} {acked : Option ℕ} (h : unacked pn acked < 2 ^ 31) :
    unacked pn acked < 2 ^ (8 * pnLen pn acked - 1) := by
  rw [pnLen_eq]
  split_ifs <;> omega

/-- The candidate has the low bits of the number and the high ones of what is expected. -/
theorem clear_or (e pn k : ℕ) : (e / 2 ^ k * 2 ^ k) ||| (pn % 2 ^ k) = e / 2 ^ k * 2 ^ k + pn % 2 ^ k := by
  rw [Nat.mul_comm, ← Nat.two_pow_add_eq_or_of_lt (Nat.mod_lt _ (Nat.two_pow_pos k))]

theorem decodePN_near {pn n e : ℕ} {largest : Option ℕ} (hn : 1 ≤ n ∧ n ≤ 4) (hpn : pn < 2 ^ 62)
    (he : e = (match largest with | none => 0 | some l => l + 1)) (hahead : pn < e + 2 ^ (8 * n - 1))
    (hbehind : e < pn + 2 ^ (8 * n - 1)) : decodePN largest (pn % 2 ^ (8 * n)) n = pn := by
  unfold decodePN
  rw [← he]
  dsimp only
  rw [clear_or]
  obtain rfl | rfl | rfl | rfl : n = 1 ∨ n = 2 ∨ n = 3 ∨ n = 4 := by omega
  all_goals
    split_ifs with h1 h2 <;> omega

/-- A number within what its length allows of the largest acknowledged is found again by every receiver that has
received that, and nothing half a window or more past the number. -/
theorem decodePN_pnLen (pn : ℕ) (acked largest : Option ℕ) (hpn : pn < 2 ^ 62) (hacked : ∀ a ∈ acked, a < pn)
    (hdist : unacked pn acked < 2 ^ 31) (hknown : ∀ a ∈ acked, ∃ l ∈ largest, a ≤ l)
    (hpast : ∀ l ∈ largest, l + 1 < pn + 2 ^ (8 * pnLen pn acked - 1)) :
    decodePN largest (pn % 2 ^ (8 * pnLen pn acked)) (pnLen pn acked) = pn := by
  have hlt := unacked_lt hdist
  have hpos : 0 < 2 ^ (8 * pnLen pn acked - 1) := Nat.two_pow_pos _
  refine decodePN_near ⟨pnLen_pos pn acked, pnLen_le pn acked⟩ hpn rfl ?_ ?_
  · cases acked with
    | none =>
      rw [unacked] at hlt
      omega
    | some a =>
      obtain ⟨l, hl, hal⟩ := hknown a rfl
      rw [unacked] at hlt
      rw [Option.mem_def.1 hl]
      dsimp only
      omega
  · cases largest with
    | none =>
      dsimp only
      omega
    | some l => exact hpast l rfl

/-- A receiver 127 past a number of one byte takes it for one 256 later. -/
theorem half_window_past : unacked 0 none < 2 ^ 31 ∧ 127 < 0 + 2 ^ (8 * pnLen 0 none - 1) ∧
    decodePN (some 127) (0 % 2 ^ (8 * pnLen 0 none)) (pnLen 0 none) = 256 := by
  decide

theorem decodePN_across_bytes :
    decodePN (some 254) (256 % 2 ^ (8 * pnLen 256 (some 200))) (pnLen 256 (some 200)) = 256 :=
  decodePN_pnLen 256 (some 200) (some 254) (by decide) (by decide) (by decide) (by decide) (by decide)

end Fib.Quic
