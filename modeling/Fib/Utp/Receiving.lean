import Fib.Utp.Sending

/-! What a receiver has taken and what it keeps ahead: the bytes for the reader are those of the packets up to the
acknowledged one, and the ring holds packets after it as the sender made them. -/

namespace Fib.Utp
open Prod List Function Option

def bytesOf (taken : List (PacketType × Bytes)) : Bytes := taken.flatMap snd

def FinLast (taken : List (PacketType × Bytes)) : Prop :=
  ∀ k, (taken[k]?).map fst = some .fin → k + 1 = taken.length

theorem bytesOf_take_succ {taken : List (PacketType × Bytes)} {k : ℕ} {d : Bytes}
    (h : (taken[k]?).map snd = some d) : bytesOf (taken.take (k + 1)) = bytesOf (taken.take k) ++ d := by
  obtain ⟨p, hp, rfl⟩ := map_eq_some_iff.1 h
  rw [take_add_one, hp]
  simp [bytesOf]

namespace Rx
variable {cfg : Config} {y : Rx} {first : ℕ} {taken : List (PacketType × Bytes)} {g : ℕ → Option Bytes}

/-- What a receiver has of the packets `taken`, the first of them numbered `first`. -/
structure Stored (y : Rx) (first : ℕ) (taken : List (PacketType × Bytes)) : Prop where
  base : 2 ^ 16 ≤ first
  ack : y.ackNr = y.ackTrue % 2 ^ 16
  low : first ≤ y.ackTrue + 1
  high : y.ackTrue + 1 ≤ first + taken.length
  kept : ∀ t ∈ y.kept, t < first + taken.length ∧ t ≤ y.ackTrue + reorderMax
  inOrder : y.returned <+: bytesOf (taken.take (y.ackTrue + 1 - first))
  bytes : y.readShutdown = false → y.returned ++ y.rbuf = bytesOf (taken.take (y.ackTrue + 1 - first))
  fin : y.gotFin = true → ∃ e, y.eofSeq = e % 2 ^ 16 ∧ y.ackTrue ≤ e ∧ e ≤ y.ackTrue + reorderMax ∧ first ≤ e ∧
    (taken[e - first]?).map fst = some .fin
  reached : y.finReached = true → first ≤ y.ackTrue ∧ (taken[y.ackTrue - first]?).map fst = some .fin
  atEnd : y.eof = true → y.finReached = true ∧ y.returned = bytesOf (taken.take (y.ackTrue + 1 - first))

structure Waiting (y : Rx) (first : ℕ) (taken : List (PacketType × Bytes)) (g : ℕ → Option Bytes) : Prop where
  ring : y.ahead.Holds 16 (y.ackTrue + 1) g
  mine : ∀ t d, g t = some d → t < first + taken.length ∧ (taken[t - first]?).map snd = some d
  inKept : ∀ t, g t ≠ none → t ∈ y.kept
  held : y.readShutdown = false → ∀ t ∈ y.kept, t ≤ y.ackTrue ∨ g t ≠ none
  count : ∃ keys : Finset ℕ, (∀ t, t ∈ keys ↔ g t ≠ none) ∧ keys.card = y.reorderCount

/-- A packet kept for the next number waits for the reader. -/
def Full (cfg : Config) (y : Rx) (g : ℕ → Option Bytes) : Prop :=
  ∀ d, g (y.ackTrue + 1) = some d → y.deliver cfg d = none

def Ahead (cfg : Config) (y : Rx) (first : ℕ) (taken : List (PacketType × Bytes)) : Prop :=
  ∃ g, y.Waiting first taken g ∧ y.Full cfg g

structure Later (y y' : Rx) : Prop where
  ack : y.ackTrue ≤ y'.ackTrue
  kept : y.kept ⊆ y'.kept
  shut : y'.readShutdown = y.readShutdown

theorem Later.refl (y : Rx) : Later y y := ⟨le_rfl, List.Subset.refl _, rfl⟩

variable {y' : Rx} {d : Bytes} {h : Packet} {dist : ℕ}

theorem Later.trans {y y'' : Rx} (h : Later y y') (h' : Later y' y'') : Later y y'' :=
  ⟨h.ack.trans h'.ack, List.Subset.trans h.kept h'.kept, h'.shut.trans h.shut⟩

theorem Stored.more (h : y.Stored first taken) (l : List (PacketType × Bytes)) : y.Stored first (taken ++ l) := by
  have hhigh := h.high
  have hlen : y.ackTrue + 1 - first ≤ taken.length := by omega
  have htake : (taken ++ l).take (y.ackTrue + 1 - first) = taken.take (y.ackTrue + 1 - first) :=
    take_append_of_le_length hlen
  have hleft : ∀ {k : ℕ} {p : PacketType}, (taken[k]?).map fst = some p → ((taken ++ l)[k]?).map fst = some p := by
    intro k p hk
    obtain ⟨q, hq, rfl⟩ := map_eq_some_iff.1 hk
    rw [List.getElem?_append_left (List.getElem?_eq_some_iff.1 hq).1, hq]
    rfl
  refine ⟨h.base, h.ack, h.low, ?_, fun t ht => ?_, htake ▸ h.inOrder, htake ▸ h.bytes, fun hf => ?_,
    fun hf => ⟨(h.reached hf).1, hleft (h.reached hf).2⟩, htake ▸ h.atEnd⟩
  · rw [length_append]
    omega
  · rw [length_append]
    have := h.kept t ht
    omega
  · obtain ⟨e, h1, h2, h3, h4, h5⟩ := h.fin hf
    exact ⟨e, h1, h2, h3, h4, hleft h5⟩

theorem Waiting.more (h : y.Waiting first taken g) (l : List (PacketType × Bytes)) :
    y.Waiting first (taken ++ l) g := by
  refine { h with mine := fun t d ht => ?_ }
  obtain ⟨h1, h2⟩ := h.mine t d ht
  obtain ⟨q, hq, rfl⟩ := map_eq_some_iff.1 h2
  refine ⟨by rw [length_append]; omega, ?_⟩
  rw [List.getElem?_append_left (List.getElem?_eq_some_iff.1 hq).1, hq]
  rfl

theorem Ahead.more (h : y.Ahead cfg first taken) (l : List (PacketType × Bytes)) : y.Ahead cfg first (taken ++ l) := by
  obtain ⟨g, hw, hf⟩ := h
  exact ⟨g, hw.more l, hf⟩

theorem Waiting.get (h : y.Waiting first taken g) (hs : y.Stored first taken) {i : ℕ} (hi : i < 2 ^ 15) :
    y.ahead.get (add y.ackNr (1 + i)) = g (y.ackTrue + 1 + i) := by
  have hle := h.ring.le
  rw [hs.ack, add_mod, ← Nat.add_assoc]
  exact h.ring.get (by omega) (by omega)

theorem Waiting.full_of_none (h : y.Waiting first taken g) (h0 : y.reorderCount = 0) : y.Full cfg g := by
  obtain ⟨keys, hkeys, hcard⟩ := h.count
  have hempty : keys = ∅ := Finset.card_eq_zero.1 (hcard.trans h0)
  intro d hd
  have hmem : y.ackTrue + 1 ∈ keys := (hkeys _).2 (by simp [hd])
  rw [hempty] at hmem
  simp at hmem

/-! ### Delivering -/

theorem deliver_some (h : y.deliver cfg d = some y') :
    y' = { y with rbuf := y'.rbuf } ∧ (y.readShutdown = false → y'.rbuf = y.rbuf ++ d) := by
  rw [deliver] at h
  split_ifs at h with h1 h2
  · rw [some.injEq] at h
    subst h
    refine ⟨rfl, fun hr => ?_⟩
    rw [hr] at h1
    simp only [Bool.false_eq_true, or_false] at h1
    rw [h1, append_nil]
  · rw [some.injEq] at h
    subst h
    exact ⟨rfl, fun _ => rfl⟩

theorem deliver_none (h : y.deliver cfg d = none) (hr : y'.readShutdown = y.readShutdown)
    (hb : y'.rbuf = y.rbuf) : y'.deliver cfg d = none := by
  rw [deliver] at h ⊢
  rw [hr, hb]
  split_ifs at h ⊢
  rfl

/-- The packet after the acknowledged one, if the sender made it, is not past its FIN. -/
theorem Stored.before_fin (h : y.Stored first taken) (hlast : FinLast taken)
    (hd : (taken[y.ackTrue + 1 - first]?).map snd = some d) : y.finReached = false ∧ ∀ e, first ≤ e → y.ackTrue ≤ e →
    (taken[e - first]?).map fst = some .fin → y.ackTrue + 1 ≤ e := by
  obtain ⟨q, hq, -⟩ := map_eq_some_iff.1 hd
  have hlt := (List.getElem?_eq_some_iff.1 hq).1
  refine ⟨?_, fun e h1 h2 h3 => ?_⟩
  · by_contra hc
    obtain ⟨h1, h2⟩ := h.reached (by simpa using hc)
    have := hlast _ h2
    omega
  · have := hlast _ h3
    omega

theorem Stored.accept (h : y.Stored first taken) (hlast : FinLast taken)
    (hd : (taken[y.ackTrue + 1 - first]?).map snd = some d) (hdel : y.deliver cfg d = some y') :
    y'.accept.Stored first taken := by
  obtain ⟨hy, hr⟩ := deliver_some hdel
  obtain ⟨hfr, hfin⟩ := h.before_fin hlast hd
  obtain ⟨q, hq, -⟩ := map_eq_some_iff.1 hd
  have hlt := (List.getElem?_eq_some_iff.1 hq).1
  have hlow := h.low
  have hsucc : y.ackTrue + 1 + 1 - first = y.ackTrue + 1 - first + 1 := by omega
  rw [hy]
  refine ⟨h.base, ?_, ?_, ?_, fun t ht => ?_, ?_, fun hs => ?_, fun hf => ?_, fun hf => ?_, fun he => ?_⟩
  · show add y.ackNr 1 = (y.ackTrue + 1) % 2 ^ 16
    rw [h.ack, add_mod]
  · show first ≤ y.ackTrue + 1 + 1
    omega
  · show y.ackTrue + 1 + 1 ≤ first + taken.length
    omega
  · have := h.kept t ht
    refine ⟨this.1, this.2.trans ?_⟩
    show y.ackTrue + reorderMax ≤ y.ackTrue + 1 + reorderMax
    omega
  · show y.returned <+: bytesOf (taken.take (y.ackTrue + 1 + 1 - first))
    rw [hsucc, bytesOf_take_succ hd]
    exact h.inOrder.trans (prefix_append _ _)
  · show y.returned ++ y'.rbuf = bytesOf (taken.take (y.ackTrue + 1 + 1 - first))
    rw [hsucc, bytesOf_take_succ hd, hr hs, ← append_assoc, h.bytes hs]
  · obtain ⟨e, h1, h2, h3, h4, h5⟩ := h.fin hf
    refine ⟨e, h1, hfin e h4 h2 h5, h3.trans ?_, h4, h5⟩
    show y.ackTrue + reorderMax ≤ y.ackTrue + 1 + reorderMax
    omega
  · rw [show y.finReached = true from hf] at hfr
    contradiction
  · rw [(h.atEnd he).1] at hfr
    contradiction

/-! ### Advancing -/

theorem Stored.reachFin (h : y.Stored first taken) : y.reachFin.Stored first taken := by
  rw [Rx.reachFin]
  split_ifs with hc
  · obtain ⟨h1, h2, h3⟩ := hc
    refine { h with reached := fun _ => ?_, atEnd := fun he => ?_ }
    · obtain ⟨e, he, hlo, hhi, hfe, hfin⟩ := h.fin h2
      have hee : e = y.ackTrue := by
        rw [he, h.ack] at h3
        simp only [reorderMax] at hhi
        omega
      subst hee
      exact ⟨hfe, hfin⟩
    · rw [(h.atEnd he).1] at h1
      contradiction
  · exact h

theorem later_reachFin (y : Rx) : Later y y.reachFin := by
  rw [Rx.reachFin]
  split_ifs
  · exact ⟨le_rfl, List.Subset.refl _, rfl⟩
  · exact .refl y

theorem Waiting.reachFin (h : y.Waiting first taken g) (hs : y.Stored first taken) (hlast : FinLast taken) :
    ∃ g', y.reachFin.Waiting first taken g' ∧ y.reachFin.reorderCount ≤ y.reorderCount := by
  have hs' := hs.reachFin
  rw [Rx.reachFin] at hs' ⊢
  split_ifs with hc
  · rw [if_pos hc] at hs'
    obtain ⟨h1, h2⟩ := hs'.reached rfl
    have hend := hlast _ h2
    refine ⟨fun _ => none, ⟨h.ring.reset _, nofun, fun _ h => absurd rfl h, fun _ t ht => .inl ?_, ∅, by simp, rfl⟩,
      Nat.zero_le _⟩
    have := (hs.kept t ht).1
    have hlo : first ≤ y.ackTrue := h1
    have hend' : y.ackTrue - first + 1 = taken.length := hend
    show t ≤ y.ackTrue
    omega
  · exact ⟨g, h, le_rfl⟩

theorem Waiting.takeAhead (h : y.Waiting first taken g) (hs : y.Stored first taken) (hg : g (y.ackTrue + 1) = some d)
    (hdel : y.deliver cfg d = some y') : (y'.takeAhead d).Waiting first taken (update g (y.ackTrue + 1) none) ∧
    (y'.takeAhead d).reorderCount + 1 = y.reorderCount := by
  obtain ⟨hy, -⟩ := deliver_some hdel
  obtain ⟨keys, hkeys, hcard⟩ := h.count
  have hmem : y.ackTrue + 1 ∈ keys := (hkeys _).2 (by simp [hg])
  have hpos := Finset.card_pos.2 ⟨_, hmem⟩
  have hne : ∀ {t : ℕ}, update g (y.ackTrue + 1) none t ≠ none → t ≠ y.ackTrue + 1 ∧ g t ≠ none := by
    intro t ht
    have hne : t ≠ y.ackTrue + 1 := by
      rintro rfl
      rw [update_self] at ht
      exact ht rfl
    rw [update_of_ne hne] at ht
    exact ⟨hne, ht⟩
  rw [hy]
  refine ⟨⟨?_, fun t d' ht => ?_, fun t ht => h.inKept t (hne ht).2, fun hr t ht => ?_,
    keys.erase (y.ackTrue + 1), fun t => ?_, ?_⟩, ?_⟩
  · have hdelRing := h.ring.del hg
    have hidx : add y.ackNr 1 = (y.ackTrue + 1) % 2 ^ 16 := by rw [hs.ack, add_mod]
    show (y.ahead.del (add y.ackNr 1)).Holds 16 (y.ackTrue + 1 + 1) _
    rw [hidx]
    refine hdelRing.shift (by omega) fun t ht => ?_
    have hin := h.ring.within t (hne ht).2
    have := (hne ht).1
    omega
  · have := hne (t := t) (by simp [ht])
    rw [update_of_ne this.1] at ht
    exact h.mine t d' ht
  · show t ≤ y.ackTrue + 1 ∨ _
    rcases h.held hr t ht with hle | hgt
    · exact .inl (by omega)
    · by_cases he : t = y.ackTrue + 1
      · exact .inl (by omega)
      · exact .inr (by rwa [update_of_ne he])
  · rw [Finset.mem_erase, hkeys]
    constructor
    · rintro ⟨h1, h2⟩
      rwa [update_of_ne h1]
    · exact hne
  · rw [Finset.card_erase_of_mem hmem, hcard]
    rfl
  · show y.reorderCount - 1 + 1 = y.reorderCount
    omega

section
variable (hlast : FinLast taken) (hs : y.Stored first taken) (hw : y.Waiting first taken g)
include hlast hs hw

theorem advanceLoop_spec {n : ℕ} (hn : y.reorderCount ≤ n) : (advanceLoop cfg n y).Stored first taken ∧
    (advanceLoop cfg n y).Ahead cfg first taken ∧ Later y (advanceLoop cfg n y) := by
  induction n generalizing y g with
  | zero =>
    obtain ⟨g', hw', hle⟩ := hw.reachFin hs hlast
    exact ⟨hs.reachFin, ⟨g', hw', hw'.full_of_none (by omega)⟩, later_reachFin y⟩
  | succ n ih =>
    obtain ⟨g', hw', hle⟩ := hw.reachFin hs hlast
    have hs' := hs.reachFin
    have hl := later_reachFin y
    rw [advanceLoop]
    generalize y.reachFin = z at hw' hs' hle hl ⊢
    have hget := hw'.get hs' (i := 0) (by norm_num)
    simp only [Nat.add_zero] at hget
    split_ifs with h0
    · exact ⟨hs', ⟨g', hw', hw'.full_of_none h0⟩, hl⟩
    rw [hget]
    cases hg : g' (z.ackTrue + 1) with
    | none => exact ⟨hs', ⟨g', hw', fun d hd => by rw [hg] at hd; contradiction⟩, hl⟩
    | some d =>
      simp only
      cases hdel : z.deliver cfg d with
      | none =>
        refine ⟨hs', ⟨g', hw', fun d' hd => ?_⟩, hl⟩
        rw [hg, some.injEq] at hd
        rw [← hd, hdel]
      | some z' =>
        have hmine := hw'.mine _ d hg
        have hst := hs'.accept hlast hmine.2 hdel
        obtain ⟨hwt, hc⟩ := hw'.takeAhead hs' hg hdel
        obtain ⟨hz, -⟩ := deliver_some hdel
        have hst' : (z'.takeAhead d).Stored first taken :=
          { hst with }
        obtain ⟨h1, h2, h3⟩ := ih hst' hwt (by omega)
        refine ⟨h1, h2, hl.trans (Later.trans ?_ h3)⟩
        rw [hz]
        exact ⟨Nat.le_succ _, List.Subset.refl _, rfl⟩

theorem advance_spec :
    (y.advance cfg).Stored first taken ∧ (y.advance cfg).Ahead cfg first taken ∧ Later y (y.advance cfg) :=
  advanceLoop_spec hlast hs hw le_rfl

end

/-! ### The reader -/

theorem Stored.take (h : y.Stored first taken) (n : ℕ) (hr : y.readShutdown = false) :
    (y.take n).Stored first taken := by
  have hb := h.bytes hr
  have hsplit : y.returned ++ y.rbuf.take n ++ y.rbuf.drop n = bytesOf (taken.take (y.ackTrue + 1 - first)) := by
    rw [append_assoc, take_append_drop, hb]
  refine { h with inOrder := ?_, bytes := fun _ => hsplit, atEnd := fun he => ?_ }
  · exact ⟨_, hsplit⟩
  have he' := h.atEnd he
  -- everything was returned, so there is nothing left to take
  have hnil : y.rbuf = [] := by
    rw [he'.2] at hb
    simpa using hb
  refine ⟨he'.1, ?_⟩
  show y.returned ++ y.rbuf.take n = _
  rw [hnil, take_nil, append_nil]
  exact he'.2

theorem afterRead_spec (hlast : FinLast taken) (hs : y.Stored first taken) (hw : y.Waiting first taken g) :
    (y.afterRead cfg).Stored first taken ∧ (y.afterRead cfg).Ahead cfg first taken ∧ Later y (y.afterRead cfg) := by
  rw [afterRead]
  split_ifs with hc
  · exact advance_spec hlast hs hw
  · exact ⟨hs, ⟨g, hw, hw.full_of_none (by omega)⟩, .refl y⟩

/-! ### A packet arrives -/

/-- A packet that is the sender's own, its number `dist` past the next one expected. -/
structure Comes (y : Rx) (first : ℕ) (taken : List (PacketType × Bytes)) (h : Packet) (dist : ℕ) : Prop where
  seq : h.seq = h.seqTrue % 2 ^ 16
  here : h.seqTrue = y.ackTrue + 1 + dist
  near : dist < reorderMax
  made : taken[h.seqTrue - first]? = some (h.typ, h.payload)

theorem Stored.noteFin (hs : y.Stored first taken) (hc : y.Comes first taken h dist) :
    (y.noteFin h).Stored first taken := by
  rw [Rx.noteFin]
  split_ifs with hf
  · have hlow := hs.low
    have hnear := hc.near
    have hhere := hc.here
    refine { hs with fin := fun _ => ?_ }
    refine ⟨h.seqTrue, hc.seq, ?_, ?_, by omega, by rw [hc.made, ← hf.1]; rfl⟩
    · show y.ackTrue ≤ _
      omega
    · show _ ≤ y.ackTrue + reorderMax
      omega
  · exact hs

theorem Waiting.noteFin (hw : y.Waiting first taken g) (h : Packet) : (y.noteFin h).Waiting first taken g := by
  rw [Rx.noteFin]
  split_ifs
  · exact { hw with }
  · exact hw

theorem noteFin_eq (y : Rx) (h : Packet) :
    y.noteFin h = { y with gotFin := (y.noteFin h).gotFin, eofSeq := (y.noteFin h).eofSeq } := by
  rw [Rx.noteFin]
  split_ifs <;> rfl

theorem takeNext_spec (hlast : FinLast taken) (hs : y.Stored first taken) (hw : y.Waiting first taken g)
    (hfull : y.Full cfg g) (hc : y.Comes first taken h 0) (hdel : y.deliver cfg h.payload = some y') :
    (y'.accept.advance cfg).Stored first taken ∧ (y'.accept.advance cfg).Ahead cfg first taken ∧
      Later y (y'.accept.advance cfg) := by
  have hmade : (taken[y.ackTrue + 1 - first]?).map snd = some h.payload := by
    rw [← Nat.add_zero (y.ackTrue + 1), ← hc.here, hc.made]
    rfl
  -- were it kept already, there would be no room for it
  have hnone : g (y.ackTrue + 1) = none := by
    by_contra hg
    obtain ⟨d, hd⟩ := ne_none_iff_exists'.1 hg
    have hmine := (hw.mine _ d hd).2
    rw [hmade, some.injEq] at hmine
    have := hfull d hd
    rw [← hmine, hdel] at this
    contradiction
  have hst := hs.accept hlast hmade hdel
  obtain ⟨hy, -⟩ := deliver_some hdel
  have hwt : y'.accept.Waiting first taken g := by
    rw [hy]
    refine ⟨hw.ring.shift (Nat.le_succ _) fun t ht => ?_, hw.mine, hw.inKept, fun hr t ht => ?_, hw.count⟩
    · have hin := hw.ring.within t ht
      have hne : t ≠ y.ackTrue + 1 := by
        rintro rfl
        exact ht hnone
      show y.ackTrue + 1 + 1 ≤ t
      omega
    · exact (hw.held hr t ht).imp_left (·.trans (Nat.le_succ _))
  have hadv : (y'.accept.advance cfg).Stored first taken ∧ (y'.accept.advance cfg).Ahead cfg first taken ∧
      Later y'.accept (y'.accept.advance cfg) := advance_spec hlast hst hwt
  obtain ⟨h1, h2, h3⟩ := hadv
  refine ⟨h1, h2, Later.trans ?_ h3⟩
  rw [hy]
  exact ⟨Nat.le_succ _, List.Subset.refl _, rfl⟩

theorem keep_spec (hs : y.Stored first taken) (hw : y.Waiting first taken g) (hfull : y.Full cfg g)
    (hc : y.Comes first taken h dist) (hd : dist ≠ 0) (hnew : g h.seqTrue = none) :
    (y.keep h).Stored first taken ∧ (y.keep h).Ahead cfg first taken ∧ Later y (y.keep h) := by
  have hhere := hc.here
  have hnear := hc.near
  have hlow := hs.low
  have hlt := (List.getElem?_eq_some_iff.1 hc.made).1
  simp only [reorderMax] at hnear
  refine ⟨{ hs with kept := fun t ht => ?_ },
    ⟨update g h.seqTrue (some h.payload), ⟨?_, fun t d ht => ?_, fun t ht => ?_, fun hr t ht => ?_, ?_⟩, ?_⟩,
    ⟨le_rfl, subset_append_left _ _, rfl⟩⟩
  · rcases mem_append.1 ht with ht | ht
    · exact hs.kept t ht
    rw [mem_singleton.1 ht]
    refine ⟨by omega, ?_⟩
    show h.seqTrue ≤ y.ackTrue + reorderMax
    simp only [reorderMax]
    omega
  · have hput := hw.ring.put (by norm_num) (t := h.seqTrue) (by omega) (by norm_num; omega) h.payload
    rw [← hc.seq, ← add_mod, ← hs.ack] at hput
    exact hput
  · by_cases he : t = h.seqTrue
    · rw [he, update_self, some.injEq] at ht
      rw [he, ← ht, hc.made]
      exact ⟨by omega, rfl⟩
    · rw [update_of_ne he] at ht
      exact hw.mine t d ht
  · by_cases he : t = h.seqTrue
    · rw [he]
      exact mem_append_right _ (mem_singleton_self _)
    · rw [update_of_ne he] at ht
      exact mem_append_left _ (hw.inKept t ht)
  · by_cases he : t = h.seqTrue
    · right
      rw [he, update_self]
      exact some_ne_none _
    rw [update_of_ne he]
    refine hw.held hr t ?_
    rcases mem_append.1 ht with ht | ht
    · exact ht
    · exact absurd (mem_singleton.1 ht) he
  · obtain ⟨keys, hkeys, hcard⟩ := hw.count
    refine ⟨insert h.seqTrue keys, fun t => ?_, ?_⟩
    · rw [Finset.mem_insert, hkeys]
      by_cases he : t = h.seqTrue
      · simp [he]
      · simp [he]
    · rw [Finset.card_insert_of_notMem (by rw [hkeys]; exact fun hn => hn hnew), hcard]
      rfl
  · intro d hd'
    have hne : y.ackTrue + 1 ≠ h.seqTrue := by omega
    have hd'' : g (y.ackTrue + 1) = some d := by
      rwa [show (y.keep h).ackTrue = y.ackTrue from rfl, update_of_ne hne] at hd'
    exact deliver_none (hfull d hd'') rfl rfl

theorem takeData_spec (hlast : FinLast taken) (hs : y.Stored first taken) (ha : y.Ahead cfg first taken)
    (hc : y.Comes first taken h dist) : (y.takeData cfg h dist).Stored first taken ∧
    (y.takeData cfg h dist).Ahead cfg first taken ∧ Later y (y.takeData cfg h dist) := by
  obtain ⟨g, hw, hfull⟩ := ha
  have hs' := hs.noteFin hc
  have hw' := hw.noteFin h
  have heq := noteFin_eq y h
  simp only [takeData]
  generalize y.noteFin h = z at hs' hw' heq ⊢
  have hack : z.ackTrue = y.ackTrue := by rw [heq]
  have hl : Later y z := by rw [heq]; exact ⟨le_rfl, List.Subset.refl _, rfl⟩
  have hfull' : z.Full cfg g := by
    intro d hd
    rw [hack] at hd
    exact deliver_none (hfull d hd) (by rw [heq]) (by rw [heq])
  have hc' : z.Comes first taken h dist := { hc with here := by rw [hack]; exact hc.here }
  have hmark : ({ z with ackDue := true } : Rx).Stored first taken ∧
      ({ z with ackDue := true } : Rx).Waiting first taken g ∧ ({ z with ackDue := true } : Rx).Full cfg g :=
    ⟨{ hs' with }, { hw' with }, fun d hd => deliver_none (hfull' d hd) rfl rfl⟩
  have hlm : Later y { z with ackDue := true } := hl.trans ⟨le_rfl, List.Subset.refl _, rfl⟩
  split_ifs with h0 h1 h2 h3
  · subst h0
    cases hdel : z.deliver cfg h.payload with
    | none => exact ⟨hs', ⟨g, hw', hfull'⟩, hl⟩
    | some z' =>
      obtain ⟨r1, r2, r3⟩ := takeNext_spec hlast hs' hw' hfull' hc' hdel
      exact ⟨r1, r2, hl.trans r3⟩
  · exact ⟨hs', ⟨g, hw', hfull'⟩, hl⟩
  · exact ⟨hmark.1, ⟨g, hmark.2⟩, hlm⟩
  · exact ⟨hmark.1, ⟨g, hmark.2⟩, hlm⟩
  have hnew : g h.seqTrue = none := by
    have hnear := hc'.near
    have hle := hw'.ring.le
    have hhere := hc'.here
    simp only [reorderMax] at hnear
    have hget := hw'.ring.get (t := h.seqTrue) (by omega) (by omega)
    rw [← hc'.seq] at hget
    rw [← hget]
    simpa using h2
  obtain ⟨r1, r2, r3⟩ := keep_spec hmark.1 hmark.2.1 hmark.2.2 { hc' with } h0 hnew
  exact ⟨r1, r2, hlm.trans r3⟩

/-! ### The end -/

theorem Stored.shut (h : y.Stored first taken) : y.shut.Stored first taken :=
  { h with bytes := nofun }

theorem Ahead.shut (h : y.Ahead cfg first taken) : y.shut.Ahead cfg first taken := by
  obtain ⟨g, hw, -⟩ := h
  exact ⟨fun _ => none, ⟨hw.ring.reset _, nofun, fun _ h => absurd rfl h, nofun, ∅, by simp, rfl⟩, nofun⟩

theorem Ahead.sackMask (h : y.Ahead cfg first taken) (hs : y.Stored first taken) {i : ℕ}
    (hi : y.sackMask[i]? = some true) : y.ackTrue + 2 + i ∈ y.kept := by
  obtain ⟨g, hw, -⟩ := h
  have hlt : i < sackBits := by
    have := (List.getElem?_eq_some_iff.1 hi).1
    simpa [Rx.sackMask] using this
  simp only [sackBits] at hlt
  have hget : (y.ahead.get (add y.ackNr (2 + i))).isSome = true := by
    rw [Rx.sackMask, List.getElem?_map, List.getElem?_range (by simpa [sackBits] using hlt)] at hi
    simpa using hi
  rw [show 2 + i = 1 + (1 + i) by omega, hw.get hs (by omega)] at hget
  rw [show y.ackTrue + 2 + i = y.ackTrue + 1 + (1 + i) by omega]
  exact hw.inKept _ (by simpa [isSome_iff_ne_none] using hget)

end Rx
end Fib.Utp
