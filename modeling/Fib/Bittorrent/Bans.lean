import Fib.Bittorrent.Intact

/-! Whom the smart ban blames. A piece that fails is read back from the storage, and each block is held against the
peer recorded for it. That is what the peer sent as long as only peers write to the piece; a web seed that writes
over their blocks leaves them answering for its bytes. -/

namespace Fib.Bittorrent
open List Function Piece Partial

/-- `good` is the piece that passes, and no other does. -/
structure Info.Sound (info : Info) (good : ℕ → ℕ → Data) : Prop where
  only : ∀ i layer data, info.VerifyPiece i layer data = .ok → ∀ b < info.blocks i, data b = good i b
  passes : ∀ i layer, info.VerifyPiece i layer (good i) ≠ .bad

theorem Info.Sound.differs {info : Info} {good : ℕ → ℕ → Data} (h : info.Sound good) {i : ℕ} {layer : Bool}
    {data : ℕ → Data} (hbad : info.VerifyPiece i layer data = .bad) : ∃ b < info.blocks i, data b ≠ good i b := by
  by_contra hall
  push Not at hall
  refine h.passes i layer ?_
  rw [← hbad]
  unfold Info.VerifyPiece
  congr 1
  exact map_congr_left fun b hb => (hall b (mem_range.1 hb)).symm

namespace Partial

/-- Who sent block `b`, if a peer did. -/
def sender (p : Partial) (b : ℕ) : Option Addr := (p.blocks.getD b {}).sender

@[simp] theorem sender_new (n b : ℕ) : (new n).sender b = none := by
  unfold sender new
  rw [getD_eq_getElem?_getD, getElem?_replicate]
  split_ifs <;> rfl

@[simp] theorem sender_fill (p : Partial) (b : ℕ) : p.fill.sender b = p.sender b := by
  unfold sender fill
  rw [getD_eq_getElem?_getD, getD_eq_getElem?_getD, getElem?_map]
  cases p.blocks[b]? <;> rfl

end Partial

namespace Piece

/-- Each block held by the piece's partial, or read of it, is what the peer recorded for it sent. -/
structure Attributed (info : Info) (i : ℕ) (s : Piece) : Prop where
  len : ∀ g, s.current = some g → (s.partials g).blocks.length = info.blocks i
  writes : ∀ w ∈ s.writes, (w.sender, w.block, w.data) ∈ s.sent ∧ w.result ≠ some false ∧
    (s.partials w.gen).sender w.block = some w.sender ∧ ((s.partials w.gen).blocks.getD w.block {}).done = true
  stored : ∀ g, s.current = some g → ∀ b a, (s.partials g).sender b = some a →
    (a, b, s.stored b) ∈ s.sent ∨ ∃ w ∈ s.writes, w.block = b ∧ w.result = none
  read : ∀ v ∈ s.checks, ∀ data verdict, v.stage = .judging data verdict → ∀ b a,
    (s.partials v.gen).sender b = some a → (a, b, data b) ∈ s.sent
  records : ∀ b, ∀ r ∈ s.records b, ∃ d, (r.1, b, d) ∈ s.sent ∧ info.sum d = r.2

/-- Each verdict is that of `VerifyPiece` on what was read. -/
def Judged (info : Info) (i : ℕ) (s : Piece) : Prop :=
  ∀ v ∈ s.checks, ∀ data verdict, v.stage = .judging data verdict → ∃ layer, verdict = info.VerifyPiece i layer data

variable {s : Piece} {info : Info} {i k g n b : ℕ} {storage : Bool} {a : Addr} {d : Data}
  {p : Partial} {left : Option (ℕ → Data)} {s' : Piece} {data : ℕ → Data}
section
variable (h : s.Attributed info i)
include h

theorem attributed_setPartial (hs : ∀ b, p.sender b = (s.partials g).sender b)
    (hl : p.blocks.length = (s.partials g).blocks.length)
    (hd : ∀ b, ((s.partials g).blocks.getD b {}).done = true → (p.blocks.getD b {}).done = true) :
    (s.setPartial g p).Attributed info i := by
  have hsender : ∀ g' b, ((s.setPartial g p).partials g').sender b = (s.partials g').sender b := by
    intro g' b
    simp only [setPartial, update_apply]
    split_ifs with hg
    · rw [hg, hs]
    · rfl
  refine ⟨fun g' hg => ?_, fun w hw => ?_, fun g' hg b a hb => ?_, fun v hv data verdict hj b a hb => ?_, h.records⟩
  · have := h.len g' hg
    simp only [setPartial, update_apply]
    split_ifs with hgg
    · subst hgg
      rw [hl, this]
    · exact this
  · obtain ⟨hsent, hr, hsd, hdone⟩ := h.writes w hw
    refine ⟨hsent, hr, (hsender _ _).trans hsd, ?_⟩
    simp only [setPartial, update_apply]
    split_ifs with hgg
    · exact hd _ (hgg ▸ hdone)
    · exact hdone
  · exact h.stored g' hg b a ((hsender g' b).symm.trans hb)
  · exact h.read v hv data verdict hj b a ((hsender v.gen b).symm.trans hb)

theorem attributed_checks {cs : List Verification}
    (hc : ∀ v ∈ cs, v ∈ s.checks ∨ ∀ data verdict, v.stage ≠ .judging data verdict) :
    ({ s with checks := cs } : Piece).Attributed info i := by
  refine { h with read := fun v hv data verdict hj => ?_ }
  rcases hc v hv with hv | hne
  · exact h.read v hv data verdict hj
  · exact absurd hj (hne data verdict)

theorem attributed_busy (busy : Bool) : (s.setPartial g { s.partials g with busy }).Attributed info i :=
  attributed_setPartial h (fun _ => rfl) rfl fun _ hb => hb

theorem attributed_verify : (s.verify g).Attributed info i :=
  attributed_checks (attributed_busy h true) (noVerdict_verify rfl)

end

theorem attributed_begin (hk : s.Kept) (h : s.Attributed info i) (hc : s.current = none) :
    (s.begin (info.blocks i)).Attributed info i := by
  refine ⟨fun g hg => ?_, ?_, fun g hg b a hb => ?_, ?_, h.records⟩
  · obtain rfl : s.made = g := by simpa [begin] using hg
    simp [begin, setPartial, new]
  · simp [begin, setPartial, hk.writes_nil hc]
  · obtain rfl : s.made = g := by simpa [begin] using hg
    simp [begin, setPartial] at hb
  · simp [begin, setPartial, hk.checks_nil hc]

theorem attributed_sent (h : s.Attributed info i) (x : Addr × ℕ × Data) :
    ({ s with sent := x :: s.sent } : Piece).Attributed info i := by
  refine ⟨h.len, fun w hw => ?_, fun g hg b a hb => ?_, fun v hv data verdict hj b a hb => ?_, fun b r hr => ?_⟩
  · obtain ⟨hs, hrest⟩ := h.writes w hw
    exact ⟨mem_cons_of_mem _ hs, hrest⟩
  · exact (h.stored g hg b a hb).imp_left (mem_cons_of_mem _)
  · exact mem_cons_of_mem _ (h.read v hv data verdict hj b a hb)
  · obtain ⟨d, hd, hsum⟩ := h.records b r hr
    exact ⟨d, mem_cons_of_mem _ hd, hsum⟩

theorem attributed_take (hk : s.Kept) (h : s.Attributed info i) (hc : s.current = some g)
    (hlt : b < (s.partials g).blocks.length) (hd : ((s.partials g).blocks.getD b {}).done = false)
    (hb : (s.partials g).busy = false) (hs : (a, b, d) ∈ s.sent) : (s.take g a b d).Attributed info i := by
  have hother : ∀ b', b' ≠ b → ((s.partials g).blocks.set b { done := true, sender := some a }).getD b' {} =
      (s.partials g).blocks.getD b' {} := by
    intro b' hne
    simp [getElem?_set_ne (Ne.symm hne)]
  refine ⟨fun g' hg => ?_, fun w hw => ?_, fun g' hg b' a' hb' => ?_, fun v hv => ?_, h.records⟩
  · obtain rfl : g = g' := by simpa [take, setPartial, hc] using hg
    simpa [take, setPartial] using h.len g hc
  · rcases mem_append.1 hw with hw | hw
    · obtain ⟨hsent, hr, hsd, hdone⟩ := h.writes w hw
      have hgen : w.gen = g := by simpa [hc] using (hk.writes w hw).symm
      -- the block was missing, so no write of it is under way
      have hne : w.block ≠ b := by
        rintro rfl
        rw [hgen, hd] at hdone
        simp at hdone
      rw [hgen] at hsd hdone
      refine ⟨hsent, hr, ?_, ?_⟩
      · simp only [sender, hgen, take, setPartial, update_self, hother _ hne] at hsd ⊢
        exact hsd
      · simp only [hgen, take, setPartial, update_self, hother _ hne]
        exact hdone
    · obtain rfl := mem_singleton.1 hw
      simpa [take, setPartial, sender, getElem?_set_self hlt] using hs
  · obtain rfl : g = g' := by simpa [take, setPartial, hc] using hg
    by_cases hne : b' = b
    · subst hne
      exact Or.inr ⟨_, mem_append_right _ (mem_singleton_self _), rfl, rfl⟩
    · simp only [sender, take, setPartial, update_self, hother _ hne] at hb'
      rcases h.stored g hc b' a' hb' with hin | ⟨w, hw, hwb⟩
      · exact Or.inl hin
      · exact Or.inr ⟨w, mem_append_left _ hw, hwb⟩
  · have hnil : s.checks = [] := hk.idle g hc hb
    simp [take, setPartial, hnil] at hv

theorem attributed_writeBlock (hk : s.Kept) (h : s.Attributed info i) : (s.writeBlock k none).Attributed info i := by
  unfold writeBlock
  split
  · exact h
  rename_i w hw
  have hmem := mem_of_getElem? hw
  obtain ⟨hsent, -, hsd, hdone⟩ := h.writes w hmem
  split_ifs with hnone
  · refine ⟨h.len, fun u hu => ?_, fun g hg b a hb => ?_, h.read, h.records⟩
    · rcases mem_or_eq_of_mem_set hu with hu | rfl
      · exact h.writes u hu
      · exact ⟨hsent, by simp, hsd, hdone⟩
    by_cases hbw : b = w.block
    · subst hbw
      have hgen : w.gen = g := by
        have := hk.writes w hmem
        rw [hg] at this
        exact (Option.some.inj this).symm
      rw [← hgen, hsd] at hb
      cases hb
      left
      simpa using hsent
    · rcases h.stored g hg b a hb with hin | ⟨u, hu, hub, hur⟩
      · left
        simpa [update_of_ne hbw] using hin
      obtain ⟨l, hl⟩ := getElem?_of_mem hu
      have hkl : k ≠ l := by
        rintro rfl
        rw [hw] at hl
        cases hl
        exact hbw hub.symm
      refine Or.inr ⟨u, mem_of_getElem? ((getElem?_set_ne hkl).trans hl), hub, hur⟩
  · exact h

section
variable (h : s.Attributed info i)
include h

theorem attributed_eraseWrite {w : PeerWrite} (hw : s.writes[k]? = some w)
    (hr : w.result ≠ none) : ({ s with writes := s.writes.eraseIdx k } : Piece).Attributed info i := by
  refine ⟨h.len, fun u hu => h.writes u (mem_of_mem_eraseIdx hu), fun g hg b a hb => ?_, h.read, h.records⟩
  refine (h.stored g hg b a hb).imp_right ?_
  rintro ⟨u, hu, hub, hur⟩
  obtain ⟨l, hl⟩ := getElem?_of_mem hu
  have hne : l ≠ k := by
    rintro rfl
    rw [hw] at hl
    cases hl
    exact hr hur
  exact ⟨u, mem_eraseIdx_iff_getElem?.2 ⟨l, hne, hl⟩, hub, hur⟩

theorem attributed_fetches (fs : List Fetch) : ({ s with fetches := fs } : Piece).Attributed info i := { h with }

theorem attributed_writeFetch (hno : ∀ g, s.current = some g → ∀ b, (s.partials g).sender b = none) :
    (s.writeFetch k left).Attributed info i := by
  unfold writeFetch
  split
  · exact h
  split
  · refine { h with stored := fun g hg b a hb => ?_ }
    simp [setFetch] at hg hb
    simp [hno g hg b] at hb
  · exact h

theorem attributed_fill (hp : p.blocks = (s.partials g).fill.blocks) : (s.setPartial g p).Attributed info i := by
  refine attributed_setPartial h (fun b => ?_) (by simp [hp, fill]) fun b hb => ?_
  · rw [← sender_fill (s.partials g), sender, hp]
    rfl
  · simp only [hp, fill, getD_eq_getElem?_getD, getElem?_map] at hb ⊢
    cases hb' : (s.partials g).blocks[b]? with
    | none => simp [hb'] at hb
    | some x => rfl

theorem attributed_leaveCheck : (s.leaveCheck k g).Attributed info i :=
  attributed_checks (attributed_busy h false) (noVerdict_leaveCheck (g := g))

end

theorem attributed_readCheck (hk : s.Kept) (h : s.Attributed info i) :
    (s.readCheck info i k none).Attributed info i := by
  unfold readCheck
  split
  · exact h
  rename_i v hv
  split
  · obtain ⟨-, -, hw, hc, -⟩ := hk.check_eq hv
    refine { h with read := fun u hu data verdict hj b a hb => ?_ }
    rcases mem_or_eq_of_mem_set hu with hu | rfl
    · exact h.read u hu data verdict hj b a hb
    · obtain ⟨rfl, -⟩ := VerifyStage.judging.inj hj
      rcases h.stored v.gen hc b a hb with hin | ⟨w, hmem, -⟩
      · exact hin
      · simp [hw] at hmem
  · exact h

theorem attributed_kick (h : s.Attributed info i) : s.kick.Attributed info i := by
  unfold kick
  split
  · exact h
  rename_i g _
  simp only
  have hp : (s.setPartial g { s.partials g with waitHashes := false }).Attributed info i :=
    attributed_setPartial h (fun _ => rfl) rfl fun _ hb => hb
  split_ifs
  · exact attributed_verify hp
  · exact hp
  · exact h

theorem Moves.attributed (h : s.Moves s') (hk : s.Kept) (ha : s.Attributed info i) : s'.Attributed info i := by
  induction h with
  | refl => exact ha
  | sent _ x ih => exact attributed_sent ih x
  | layer _ _ ih => exact { ih with }
  | fetches _ _ fs ih => exact attributed_fetches ih fs
  | take hm hc hlt hd hb hs ih => exact attributed_take (hm.kept hk) ih hc hlt hd hb hs
  | @endWrite s' k w ok p _ hw hr _ _ hp ih =>
    have hok : ok = true := by
      have hne := (ih.writes w (mem_of_getElem? hw)).2.1
      rw [hr] at hne
      simpa using hne
    have he := attributed_eraseWrite ih hw (by simp [hr])
    exact attributed_setPartial he (fun b => by simp [sender, hp hok]) (by rw [hp hok])
      fun b hb => by rwa [hp hok]
  | setPartial _ _ _ hp ih =>
    rcases hp with hp | hp
    · exact attributed_setPartial ih (fun b => by simp [sender, hp]) (by rw [hp]) fun b hb => by rwa [hp]
    · exact attributed_fill ih hp
  | verify _ _ _ _ ih => exact attributed_verify ih
  | reading hm hv layer ih => exact attributed_checks ih (Moves.reading .refl hv layer).noVerdict
  | leave _ _ ih => exact attributed_leaveCheck ih

theorem attributed_await (hk : s.Kept) (h : s.Attributed info i) : (s.await (info.blocks i)).Attributed info i := by
  unfold await
  split_ifs with hc
  · refine attributed_fill (attributed_begin hk h hc.1) ?_
    simp [begin, setPartial]
  · exact h

section
variable (h : s.Attributed info i) (hw : s.writes = []) (hc : s.checks = [])
include h hw hc

theorem attributed_markHave : s.markHave.Attributed info i := by
  unfold markHave
  split_ifs
  · exact h
  · exact ⟨nofun, by simp [hw], nofun, by simp [hc], h.records⟩

variable {v : Verdict}

/-- A verdict keeps the blame right if what was read of each block is what its peer sent. -/
theorem attributed_judge (hread : ∀ b a, (s.partials g).sender b = some a → (a, b, data b) ∈ s.sent) :
    (s.judge info i g data v).1.Attributed info i := by
  cases v with
  | ok =>
    refine attributed_markHave { h with records := fun b r hr => ?_ } hw hc
    simp only [smartBanGood] at hr
    split_ifs at hr
    · simp at hr
    · exact h.records b r hr
  | noLayer => exact attributed_setPartial h (fun _ => rfl) rfl fun _ hb => hb
  | bad =>
    simp only [judge, smartBanBad]
    split
    · exact ⟨by simp, by simp [hw], by simp, by simp [hc], h.records⟩
    refine ⟨by simp, by simp [hw], by simp, by simp [hc], fun b r hr => ?_⟩
    simp only at hr
    split at hr
    · rename_i a ha
      split_ifs at hr
      · rcases mem_append.1 hr with hr | hr
        · exact h.records b r hr
        · obtain rfl := mem_singleton.1 hr
          exact ⟨data b, hread b a ha, rfl⟩
      · exact h.records b r hr
    · exact h.records b r hr

end

theorem sender_of_onlySender (h : onlySender p = some a) {b : ℕ} (hb : b < p.blocks.length) : p.sender b = some a := by
  unfold onlySender at h
  split at h
  · simp at h
  rename_i x xs hp
  split_ifs at h with hall
  have hx : ∀ y ∈ p.blocks, y.sender = some a := by
    intro y hy
    rw [hp] at hy
    rcases mem_cons.1 hy with rfl | hy
    · exact h
    · rw [← h]
      exact beq_iff_eq.1 (all_eq_true.1 hall y hy)
  unfold sender
  rw [getD_eq_getElem?_getD, getElem?_eq_getElem hb]
  exact hx _ (getElem_mem hb)

/-- What a verdict has against `a`: a block that is wrong as `a` sent it, or a record of what `a` sent that differs
from the block that passes. -/
def Evidence (info : Info) (good : ℕ → ℕ → Data) (i : ℕ) (s : Piece) (data : ℕ → Data) (a : Addr) : Verdict → Prop
  | .bad => ∃ b < info.blocks i, (a, b, data b) ∈ s.sent ∧ data b ≠ good i b
  | .ok => ∃ b < info.blocks i, ∃ d, (a, b, d) ∈ s.sent ∧ (a, info.sum d) ∈ s.records b ∧
      info.sum d ≠ info.sum (data b)
  | .noLayer => False

theorem judge_noLayer : (s.judge info i g data .noLayer).2 = [] := rfl

/-- With the blocks read as their peers sent them, there is evidence against everyone a verdict bans. -/
theorem evidence_of_attributed {good : ℕ → ℕ → Data} (hs : info.Sound good) (h : s.Attributed info i)
    (hc : s.current = some g) (hread : ∀ b a, (s.partials g).sender b = some a → (a, b, data b) ∈ s.sent)
    {layer : Bool} (ha : a ∈ (s.judge info i g data (info.VerifyPiece i layer data)).2) :
    Evidence info good i s data a (info.VerifyPiece i layer data) := by
  cases hv : info.VerifyPiece i layer data with
  | ok =>
    rw [hv] at ha
    simp only [judge, smartBanGood, mem_flatMap, mem_range, mem_map, mem_filter] at ha
    obtain ⟨b, hb, r, ⟨hr, hne⟩, rfl⟩ := ha
    obtain ⟨d, hd, hsum⟩ := h.records b r hr
    refine ⟨b, hb, d, hd, by rwa [hsum], ?_⟩
    rw [hsum]
    simpa using hne
  | noLayer =>
    rw [hv, judge_noLayer] at ha
    simp at ha
  | bad =>
    rw [hv] at ha
    simp only [judge, smartBanBad] at ha
    split at ha
    · rename_i a' hone
      obtain rfl := mem_singleton.1 ha
      obtain ⟨b, hb, hne⟩ := hs.differs hv
      exact ⟨b, hb, hread b a (sender_of_onlySender hone (by rwa [h.len g hc])), hne⟩
    · simp at ha

theorem judged_of_noVerdict (h : s.Judged info i) (hn : s.NoVerdict s') : s'.Judged info i := by
  intro v hv data verdict hj
  rcases hn v hv with hv | hne
  · exact h v hv data verdict hj
  · exact absurd hj (hne data verdict)

theorem judged_readCheck (h : s.Judged info i) : (s.readCheck info i k none).Judged info i := by
  unfold readCheck
  split
  · exact h
  split
  · rename_i layer _
    intro u hu data verdict hj
    rcases mem_or_eq_of_mem_set hu with hu | rfl
    · exact h u hu data verdict hj
    · obtain ⟨rfl, rfl⟩ := VerifyStage.judging.inj hj
      exact ⟨layer, rfl⟩
  · exact h

@[simp] theorem await_keeps : (s.await n).checks = s.checks ∧ (s.await n).sent = s.sent := by
  unfold await
  split_ifs <;> exact ⟨rfl, rfl⟩

theorem Moves.sent_subset (h : s.Moves s') : s.sent ⊆ s'.sent := by
  induction h with
  | refl => exact List.Subset.refl _
  | sent _ x ih => exact List.Subset.trans ih (subset_cons_self _ _)
  | layer _ _ ih | leave _ _ ih | fetches _ _ _ ih | reading _ _ _ ih | setPartial _ _ _ _ ih | verify _ _ _ _ ih
  | take _ _ _ _ _ _ ih | endWrite _ _ _ _ _ _ ih => exact ih

@[simp] theorem sent_readCheck {err : Option (ℕ → Data)} : (s.readCheck info i k err).sent = s.sent := by
  fun_cases readCheck s info i k err <;> rfl

@[simp] theorem sent_kick : s.kick.sent = s.sent := by
  fun_cases kick s <;> rfl

end Piece

namespace Torrent

/-- `a` sent, for some block of a piece, other bytes than the good ones. -/
def Guilty (info : Info) (good : ℕ → ℕ → Data) (t : Torrent) (a : Addr) : Prop :=
  ∃ i, ∃ b < info.blocks i, ∃ d, (a, b, d) ∈ (t.piece i).sent ∧ d ≠ good i b

def OnlyGuilty (info : Info) (good : ℕ → ℕ → Data) (t : Torrent) : Prop := ∀ a ∈ t.bans, t.Guilty info good a

def Faithful (_ : Torrent) : Op → Prop
  | .writeBlock _ _ left => left = none
  | .writeFetch _ _ left => left = none
  | .readCheck _ _ err => err = none
  | _ => True

/-- Whoever a verification bans sent one of the blocks it holds against them, or had sent another bad one. -/
def Fair (info : Info) (good : ℕ → ℕ → Data) (t : Torrent) : Op → Prop
  | .endCheck i k => ∀ v data verdict, (t.piece i).checks[k]? = some v → v.stage = .judging data verdict →
      ∀ a ∈ (((t.piece i).leaveCheck k v.gen).judge info i v.gen data verdict).2,
        (t.piece i).Evidence info good i data a verdict ∨ t.Guilty info good a
  | _ => True

/-- A web seed writes to a piece only while its partial has no block from a peer. -/
def Unmixed (t : Torrent) : Op → Prop
  | .writeFetch i _ _ => ∀ g, (t.piece i).current = some g → ∀ b, ((t.piece i).partials g).sender b = none
  | _ => True

variable {info : Info} {good : ℕ → ℕ → Data} {t : Torrent} {i k : ℕ} {a : Addr}

theorem guilty_mono {t' : Torrent} (h : ∀ i, (t.piece i).sent ⊆ (t'.piece i).sent) (hg : t.Guilty info good a) :
    t'.Guilty info good a := by
  obtain ⟨i, b, hb, d, hd, hne⟩ := hg
  exact ⟨i, b, hb, d, h i hd, hne⟩

variable {data : ℕ → Data} {v : Verification} {verdict : Verdict}

theorem endCheck_eq (info : Info) (h : t.Inv) (hv : (t.piece i).checks[k]? = some v)
    (hst : v.stage = .judging data verdict) : (∀ j, ((t.endCheck info i k).piece j).sent = (t.piece j).sent) ∧
    (t.endCheck info i k).bans = t.bans ++ (((t.piece i).leaveCheck k v.gen).judge info i v.gen data verdict).2 := by
  obtain ⟨-, -, -, hc, hh⟩ := (h.kept i).check_eq hv
  have hcur : ¬ (((t.piece i).leaveCheck k v.gen).current ≠ some v.gen ∨
      ((t.piece i).leaveCheck k v.gen).had = true) := by simp [leaveCheck, setPartial, hc, hh]
  have hsent : ∀ j, ((t.setPiece i (((t.piece i).leaveCheck k v.gen).judge info i v.gen data verdict).1).piece j).sent =
      (t.piece j).sent := by
    intro j
    rw [piece_setPiece]
    split_ifs with hj
    · subst hj
      exact judge_keeps.2.2
    · rfl
  simp only [endCheck, hv, hst, if_neg hcur]
  split_ifs
  · exact ⟨fun j => sent_kick.trans (hsent j), rfl⟩
  · exact ⟨hsent, rfl⟩

theorem endCheck_of_not_judging (hv : (t.piece i).checks[k]? = some v)
    (hne : ∀ data verdict, v.stage ≠ .judging data verdict) : t.endCheck info i k = t := by
  unfold endCheck
  simp only [hv]

theorem bans_step (info : Info) (t : Torrent) (op : Op) (hop : ∀ i k, op ≠ .endCheck i k) :
    (t.step info op).bans = t.bans ∧ ∀ j, (t.piece j).sent ⊆ ((t.step info op).piece j).sent := by
  refine ⟨?_, forall_step (P := fun j s => (t.piece j).sent ⊆ s.sent) (fun _ => List.Subset.refl _)
    (fun _ _ hm => hm.sent_subset) (fun _ _ hs => by rwa [sent_kick]) ?_⟩
  · cases op with
    | endCheck i k => exact absurd rfl (hop i k)
    | begin | beginFetch | checkPiece | checkRead | checkLayer | checkEnd =>
      simp only [step, checkPiece]
      repeat' split
      all_goals rfl
    | _ => rfl
  · cases op with
    | endCheck i k => exact absurd rfl (hop i k)
    | begin | beginFetch => exact fun _ => List.Subset.refl _
    | _ => simp [Keeps]

theorem guilty_of_evidence (hs : info.Sound good) {layer : Bool}
    (h : (t.piece i).Evidence info good i data a (info.VerifyPiece i layer data)) : t.Guilty info good a := by
  cases hv : info.VerifyPiece i layer data with
  | ok =>
    rw [hv] at h
    obtain ⟨b, hb, d, hd, -, hne⟩ := h
    refine ⟨i, b, hb, d, hd, fun heq => hne ?_⟩
    rw [heq, hs.only i layer data hv b hb]
  | noLayer =>
    rw [hv] at h
    exact h.elim
  | bad =>
    rw [hv] at h
    obtain ⟨b, hb, hd, hne⟩ := h
    exact ⟨i, b, hb, data b, hd, hne⟩

theorem onlyGuilty_step_iff (hs : info.Sound good) (h : t.Inv) (hj : ∀ i, (t.piece i).Judged info i)
    (hg : t.OnlyGuilty info good) (op : Op) : (t.step info op).OnlyGuilty info good ↔ t.Fair info good op := by
  by_cases hop : ∃ i k, op = .endCheck i k
  · obtain ⟨i, k, rfl⟩ := hop
    cases hv : (t.piece i).checks[k]? with
    | none =>
      have heq : t.endCheck info i k = t := by simp [endCheck, hv]
      simp only [step, heq]
      exact iff_of_true hg fun v _ _ hv' => by simp [hv] at hv'
    | some v =>
      by_cases hst : ∃ data verdict, v.stage = .judging data verdict
      · obtain ⟨data, verdict, hst⟩ := hst
        obtain ⟨hsent, hbans⟩ := endCheck_eq info h hv hst
        obtain ⟨layer, rfl⟩ := hj i v (mem_of_getElem? hv) data verdict hst
        have hguilty : ∀ a, (t.endCheck info i k).Guilty info good a ↔ t.Guilty info good a := by
          intro a
          simp only [Guilty, hsent]
        simp only [step, OnlyGuilty, hbans, hguilty, mem_append, Fair]
        constructor
        · intro hall v' data' verdict' hv' hst' a ha
          rw [hv] at hv'
          cases hv'
          rw [hst] at hst'
          obtain ⟨rfl, rfl⟩ := VerifyStage.judging.inj hst'
          exact Or.inr (hall a (Or.inr ha))
        · rintro hfair a (ha | ha)
          · exact hg a ha
          · exact (hfair v data _ hv hst a ha).elim (guilty_of_evidence hs) id
      · push Not at hst
        simp only [step, endCheck_of_not_judging hv hst]
        refine iff_of_true hg fun v' data verdict hv' hst' => ?_
        rw [hv] at hv'
        cases hv'
        exact absurd hst' (hst data verdict)
  · push Not at hop
    obtain ⟨hbans, hsent⟩ := bans_step info t op hop
    refine iff_of_true (fun a ha => guilty_mono hsent (hg a (hbans ▸ ha))) ?_
    cases op with
    | endCheck i k => exact absurd rfl (hop i k)
    | _ => trivial

theorem judged_step (h : ∀ i, (t.piece i).Judged info i) (op : Op) (hf : t.Faithful op) (j : ℕ) :
    ((t.step info op).piece j).Judged info j := by
  have hsame : ∀ {i} {s : Piece}, s.checks = (t.piece i).checks → s.Judged info i :=
    fun hs => judged_of_noVerdict (h _) (noVerdict_of_checks hs)
  refine forall_step h (fun j s hm => judged_of_noVerdict (h j) hm.noVerdict)
    (fun j s hs => judged_of_noVerdict hs (Piece.Moves.kick .refl).noVerdict) ?_ j
  cases op with
  | begin i | beginFetch i => exact fun _ => hsame rfl
  | writeBlock i k left => exact hsame writeBlock_keeps.2.2.1
  | writeFetch i k left => exact hsame writeFetch_keeps.2.2.1
  | readCheck i k err =>
    obtain rfl : err = none := hf
    exact judged_readCheck (h i)
  | endCheck i k =>
    intro v data verdict hv hst
    have hleave := judged_of_noVerdict (h i) (noVerdict_leaveCheck (k := k) (g := v.gen))
    exact ⟨hleave, judged_of_noVerdict hleave (noVerdict_of_checks judge_keeps.2.1)⟩
  | checkPiece => exact fun i data layer _ => ⟨hsame markHave_keeps.2.1, hsame await_keeps.1⟩
  | _ => trivial

theorem attributed_endCheck (hk : t.Inv) (h : (t.piece i).Attributed info i) (hv : (t.piece i).checks[k]? = some v)
    (hst : v.stage = .judging data verdict) : ((t.piece i).leaveCheck k v.gen).Attributed info i ∧
    (((t.piece i).leaveCheck k v.gen).judge info i v.gen data verdict).1.Attributed info i := by
  obtain ⟨hck, rfl, hw, -, -⟩ := (hk.kept i).check_eq hv
  have hleave : ((t.piece i).leaveCheck 0 v.gen).Attributed info i := attributed_leaveCheck h
  refine ⟨hleave, attributed_judge hleave hw (by simp [leaveCheck, hck]) fun b a hb => ?_⟩
  refine h.read v (mem_of_getElem? hv) data verdict hst b a ?_
  simpa [leaveCheck, setPartial, sender] using hb

theorem attributed_step (hk : t.Inv) (h : ∀ j, (t.piece j).Attributed info j) (op : Op) (hf : t.Faithful op)
    (hu : t.Unmixed op) (j : ℕ) : ((t.step info op).piece j).Attributed info j := by
  refine forall_step h (fun j s hm => hm.attributed (hk.kept j) (h j)) (fun j s hs => attributed_kick hs) ?_ j
  cases op with
  | begin i => exact fun hw => attributed_begin (hk.kept i) (h i) hw.2.2.2.2
  | beginFetch i =>
    exact fun hw => attributed_fetches (attributed_begin (hk.kept i) (h i) hw.2.2.2.2) _
  | writeBlock i k left =>
    obtain rfl : left = none := hf
    exact attributed_writeBlock (hk.kept i) (h i)
  | writeFetch i k left => exact attributed_writeFetch (h i) hu
  | readCheck i k err =>
    obtain rfl : err = none := hf
    exact attributed_readCheck (hk.kept i) (h i)
  | endCheck i k => exact fun v data verdict hv hst => attributed_endCheck hk (h i) hv hst
  | checkPiece =>
    intro i data layer hr
    have hc := hk.ahead _ hr i le_rfl
    exact ⟨attributed_markHave (h i) ((hk.kept i).writes_nil hc) ((hk.kept i).checks_nil hc),
      attributed_await (hk.kept i) (h i)⟩
  | _ => trivial

theorem fair_of_attributed (hs : info.Sound good) (hk : t.Inv) (hj : ∀ i, (t.piece i).Judged info i)
    (h : ∀ i, (t.piece i).Attributed info i) (op : Op) : t.Fair info good op := by
  cases op with
  | endCheck i k =>
    intro v data verdict hv hst a ha
    obtain ⟨layer, rfl⟩ := hj i v (mem_of_getElem? hv) data verdict hst
    obtain ⟨-, -, -, hc, -⟩ := (hk.kept i).check_eq hv
    refine Or.inl ?_
    have hleave : ((t.piece i).leaveCheck k v.gen).Attributed info i := attributed_leaveCheck (h i)
    refine evidence_of_attributed (s := (t.piece i).leaveCheck k v.gen) hs hleave hc (fun b a hb => ?_) ha
    refine (h i).read v (mem_of_getElem? hv) data _ hst b a ?_
    simpa [leaveCheck, setPartial, sender] using hb
  | _ => trivial

/-- Over a storage that is faithful, with one content that passes for each piece: in every run in which web seeds write
only to pieces that have no block from a peer, whoever is banned sent a bad block, in every state; where one writes to
another, exactly if each verification bans only those who sent a block it holds against them, or another bad one. -/
theorem only_guilty_banned_iff (info : Info) (good stored : ℕ → ℕ → Data) (ops : List Op) (hs : info.Sound good)
    (hf : (machine info stored).Meets Faithful ops) :
    ((machine info stored).Meets Unmixed ops → (machine info stored).Always (OnlyGuilty info good) ops) ∧
      ((machine info stored).Always (OnlyGuilty info good) ops ↔ (machine info stored).Meets (Fair info good) ops) := by
  have hjudged : ∀ i, ((machine info stored).init.piece i).Judged info i := fun _ _ hv => by simp [machine] at hv
  have hiff : (machine info stored).Always (OnlyGuilty info good) ops ↔
      (machine info stored).Meets (Fair info good) ops :=
    Machine.always_iff_meets_of
      (I := fun t : Torrent => t.Inv ∧ (∀ i, (t.piece i).Judged info i) ∧ t.OnlyGuilty info good)
      ⟨inv_init stored, hjudged, fun a ha => absurd ha (by simp [machine])⟩
      (fun t op h hF hP => ⟨inv_step h.1 op, judged_step h.2.1 op hF, (onlyGuilty_step_iff hs h.1 h.2.1 h.2.2 op).2 hP⟩)
      (fun _ h => h.2.2)
      (fun t op h _ hP hg => hP ((onlyGuilty_step_iff hs h.1 h.2.1 h.2.2 op).1 hg)) hf
  refine ⟨fun hu => hiff.2 ?_, hiff⟩
  exact Machine.meets_of
    (I := fun t : Torrent => t.Inv ∧ (∀ i, (t.piece i).Judged info i) ∧ ∀ i, (t.piece i).Attributed info i)
    ⟨inv_init stored, hjudged, fun i => ⟨by simp [machine], by simp [machine], by simp [machine], by simp [machine],
      by simp [machine]⟩⟩
    (fun t op h hP => ⟨inv_step h.1 op, judged_step h.2.1 op hP.1, attributed_step h.1 h.2.2 op hP.1 hP.2⟩)
    (fun t op h _ => fair_of_attributed hs h.1 h.2.1 h.2.2 op) (Machine.meets_and.2 ⟨hf, hu⟩)

def goodByte : ℕ → ℕ → Data := fun _ _ => [1]

theorem sound_oneBlock : oneBlock.Sound goodByte := by
  refine ⟨fun i layer data h b hb => ?_, fun i layer => ?_⟩
  · simp only [oneBlock] at hb
    split_ifs at hb with hi
    · obtain rfl : b = 0 := by omega
      simpa [Info.VerifyPiece, oneBlock, goodByte, hi] using h
    · omega
  · by_cases hi : i = 0 <;> simp [Info.VerifyPiece, oneBlock, goodByte, hi]

/-- A peer that sends a bad piece alone is banned, and rightly. -/
theorem bad_sender_banned : ((machine oneBlock fun _ _ => []).run (seedThenPeer [2])).bans = [7] ∧
    (machine oneBlock fun _ _ => []).Always (OnlyGuilty oneBlock goodByte) (seedThenPeer [2]) := by
  have hfaithful : (machine oneBlock fun _ _ => []).Meets Faithful (seedThenPeer [2]) := by
    simp [seedThenPeer, checkFinds, seedSends, peerSends, Machine.Meets, Machine.MeetsFrom, Faithful]
  have hseed : ((machine oneBlock fun _ _ => []).run (seedThenPeer [2])).bans = [7] ∧
      (((machine oneBlock fun _ _ => []).run (checkFinds ++ (seedSends [2]).take 3)).piece 0).current = some 0 ∧
      ((((machine oneBlock fun _ _ => []).run (checkFinds ++ (seedSends [2]).take 3)).piece 0).partials 0).blocks =
        [{}] := by
    decide
  refine ⟨hseed.1, (only_guilty_banned_iff _ _ _ _ sound_oneBlock hfaithful).1 ?_⟩
  simp only [seedThenPeer, checkFinds, seedSends, peerSends, Machine.Meets, Machine.MeetsFrom, Unmixed, cons_append,
    nil_append, true_and, and_true]
  intro g hg b
  obtain rfl : 0 = g := Option.some.inj (hseed.2.1.symm.trans hg)
  refine (congrArg (fun l : List Block => (l.getD b {}).sender) hseed.2.2).trans ?_
  cases b <;> rfl

/-- A peer sends the good block of a piece a web seed has begun, and the web seed's bytes are written over it before it
is verified: the peer is banned. -/
theorem good_sender_banned : oneBlock.Sound goodByte ∧
    ¬ (machine oneBlock fun _ _ => []).Always (OnlyGuilty oneBlock goodByte)
      (checkFinds ++ [.beginFetch 0, .fetch 0 0 none, .onPiece 0 7 0 [1], .writeBlock 0 0 none,
        .fetch 0 0 (some fun _ => [2]), .writeFetch 0 0 none, .endWrite 0 0, .startCheck 0 0, .readCheck 0 0 none,
        .endCheck 0 0]) := by
  refine ⟨sound_oneBlock, fun h => ?_⟩
  obtain ⟨i, b, hb, d, hd, hne⟩ := h _ prefix_rfl 7 (by decide)
  obtain rfl : i = 0 := by
    by_contra hi
    simp [oneBlock, hi] at hb
  revert hd hne
  generalize hsent : sent _ = sent
  have : sent = [(7, 0, [1])] := by
    rw [← hsent]
    decide
  simp [this, goodByte]

end Torrent
end Fib.Bittorrent
