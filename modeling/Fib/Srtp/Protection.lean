import Fib.Srtp.Context

/-! Protecting a packet leaves its header as it is, and unprotecting it under the same rollover counter gives it
back. -/

namespace Fib.Srtp
open List

/-! ### Headers -/

section Header
variable {a b : Bytes} {n i : ℕ}

theorem getD_congr (h : a.take n = b.take n) (hi : i < n) : a.getD i 0 = b.getD i 0 := by
  have hget : (a.take n)[i]? = (b.take n)[i]? := by rw [h]
  rw [List.getElem?_take_of_lt hi, List.getElem?_take_of_lt hi] at hget
  rw [getD_eq_getElem?_getD, getD_eq_getElem?_getD, hget]

theorem uint16_congr (h : a.take n = b.take n) (hi : i + 2 ≤ n) : uint16 a i = uint16 b i := by
  rw [uint16, uint16, getD_congr h (by omega), getD_congr h (by omega)]

theorem uint16_lt (b : Bytes) (i : ℕ) : uint16 b i < 2 ^ 16 := by
  have h1 := (b.getD i 0).toNat_lt
  have h2 := (b.getD (i + 1) 0).toNat_lt
  rw [uint16]
  omega

theorem headerLen_bounds (h : headerLen b = some n) : 12 ≤ n ∧ n ≤ b.length := by
  unfold headerLen at h
  simp only at h
  split_ifs at h <;> cases h <;> omega

theorem headerLen_congr (h : headerLen a = some n) (hab : a.take n = b.take n) (hb : n ≤ b.length) :
    headerLen b = some n := by
  obtain ⟨h12, hlen⟩ := headerLen_bounds h
  have h0 : a.getD 0 0 = b.getD 0 0 := getD_congr hab (by omega)
  unfold headerLen at h ⊢
  simp only [h0] at h ⊢
  split_ifs at h with hshort hversion hext hroom hall hplain
  · have hn := Option.some.inj h
    have hfield := uint16_congr (i := 12 + 4 * (b.getD 0 0 &&& 0x0f).toNat + 2) hab (by omega)
    rw [hfield] at hn
    rw [if_neg (by omega), if_neg hversion, if_pos hext, if_neg (by omega), if_neg (by omega), hn]
  · have hn := Option.some.inj h
    rw [if_neg (by omega), if_neg hversion, if_neg hext, if_neg (by omega), hn]

theorem seqOf_congr (h : a.take n = b.take n) (hn : 12 ≤ n) : seqOf a = seqOf b :=
  uint16_congr h (by omega)

theorem ssrcOf_congr (h : a.take n = b.take n) (hn : 12 ≤ n) : ssrcOf a = ssrcOf b := by
  rw [ssrcOf, ssrcOf, uint32, uint32, uint16_congr h (by omega), uint16_congr h (by omega)]

end Header

/-! ### The key stream -/

@[simp] theorem length_xorBytes {a b : Bytes} (h : a.length ≤ b.length) : (xorBytes a b).length = a.length := by
  rw [xorBytes, length_zipWith, Nat.min_eq_left h]

theorem xorBytes_xorBytes {a b : Bytes} (h : a.length ≤ b.length) : xorBytes (xorBytes a b) b = a := by
  induction a generalizing b with
  | nil => rfl
  | cons x a ih =>
    cases b with
    | nil => simp at h
    | cons y b =>
      have htail := ih (Nat.le_of_succ_le_succ h)
      simp only [xorBytes, zipWith_cons_cons] at htail ⊢
      rw [htail, UInt8.xor_assoc, UInt8.xor_self, UInt8.xor_zero]

namespace SessionKeys
variable (k : SessionKeys)

theorem length_keystream (iv : Bytes) (n : ℕ) : n ≤ (k.keystream iv n).length := by
  have hlen : (k.keystream iv n).length = 16 * ((n + 15) / 16) := by
    simp [keystream, length_flatMap, Nat.mul_comm]
  omega

@[simp] theorem length_xorCTR (iv src : Bytes) : (k.xorCTR iv src).length = src.length :=
  length_xorBytes (k.length_keystream iv _)

theorem xorCTR_xorCTR (iv src : Bytes) : k.xorCTR iv (k.xorCTR iv src) = src := by
  have hlen := k.length_xorCTR iv src
  rw [xorCTR, hlen]
  exact xorBytes_xorBytes (k.length_keystream iv _)

theorem length_hmacTag (a b : Bytes) : (k.hmacTag a b).length = k.tagLen := by
  have htag : k.tagLen ≤ 20 := by
    unfold tagLen Profile.rtpOverhead
    split <;> omega
  simp [hmacTag, htag]

theorem tagLen_aead (h : k.profile.aead = true) : k.tagLen = 16 := by
  unfold tagLen
  cases hp : k.profile <;> simp [hp, Profile.aead, Profile.rtpOverhead] at h ⊢

/-! ### Packets -/

variable {hl ssrc roc seq : ℕ} {pkt : Bytes}

theorem take_protect (h : hl ≤ pkt.length) : (k.protect hl ssrc roc seq pkt).take hl = pkt.take hl := by
  have hlen : (pkt.take hl).length = hl := length_take_of_le h
  unfold protect
  split_ifs
  · exact take_left' hlen
  · simp only [append_assoc]
    exact take_left' hlen

theorem length_protect (h : hl ≤ pkt.length) : (k.protect hl ssrc roc seq pkt).length = pkt.length + k.tagLen := by
  unfold protect
  split_ifs with haead
  · rw [length_append, k.gcm.length_sealBytes, k.tagLen_aead haead, length_take_of_le h, length_drop]
    omega
  · simp only [length_append, length_xorCTR, length_take_of_le h, length_drop]
    rw [k.length_hmacTag]
    omega

theorem unprotect_protect (h : hl ≤ pkt.length) :
    k.unprotect hl ssrc roc seq (k.protect hl ssrc roc seq pkt) = some pkt := by
  have hhead : (k.protect hl ssrc roc seq pkt).take hl = pkt.take hl := k.take_protect h
  have htake : (pkt.take hl).length = hl := length_take_of_le h
  unfold unprotect
  split_ifs with haead
  · have hbody : (k.protect hl ssrc roc seq pkt).drop hl =
        k.gcm.sealBytes (k.gcmIV ssrc roc seq) (pkt.take hl) (pkt.drop hl) := by
      rw [protect, if_pos haead]
      exact drop_left' htake
    rw [hbody, hhead, k.gcm.openBytes_sealBytes, Option.map_some, take_append_drop]
  set body := pkt.take hl ++ k.xorCTR (k.ctrIV ssrc (roc * 2 ^ 16 + seq)) (pkt.drop hl)
  have hp : k.protect hl ssrc roc seq pkt = body ++ k.hmacTag body (putUint32 roc) := by
    rw [protect, if_neg haead]
  have hn : (k.protect hl ssrc roc seq pkt).length - k.tagLen = body.length := by
    rw [hp, length_append, k.length_hmacTag, Nat.add_sub_cancel]
  have hdrop : body.drop hl = k.xorCTR (k.ctrIV ssrc (roc * 2 ^ 16 + seq)) (pkt.drop hl) :=
    drop_left' htake
  simp only [hn]
  rw [hhead, hp, take_left, drop_left, if_pos rfl, hdrop, xorCTR_xorCTR, take_append_drop]

end SessionKeys
end Fib.Srtp
