import Fib.Bittorrent.Torrent

/-! What holds between the steps of a torrent: peers' writes and the verification belong to the piece's partial and
exclude each other, and `check` is alone while it runs. -/

namespace Fib.Bittorrent
open List Function Partial Piece

namespace Piece

/-- The writes and verifications under way are of the piece's partial, one verification at most and none while a
block is written. -/
structure Kept (s : Piece) : Prop where
  had : s.had = true → s.current = none
  writes : ∀ w ∈ s.writes, s.current = some w.gen
  writing : ∀ g, s.current = some g → (s.partials g).writing = s.writes.length
  checks : ∀ v ∈ s.checks, s.current = some v.gen
  busy : ∀ g, s.current = some g → (s.partials g).busy = true → s.checks.length = 1 ∧ s.writes = []
  idle : ∀ g, s.current = some g → (s.partials g).busy = false → s.checks = []

/-- As `check` finds and leaves the pieces: nothing is written, and a partial lacks no block. -/
structure Untouched (s : Piece) : Prop where
  writes : s.writes = []
  fetches : s.fetches = []
  blocks : ∀ g, s.current = some g → ∀ b ∈ (s.partials g).blocks, b.done = true

variable {s : Piece} {info : Info} {i k g n b : ℕ} {storage : Bool} {a : Addr} {d : Data}

theorem Kept.writes_nil (h : s.Kept) (hc : s.current = none) : s.writes = [] := by
  refine eq_nil_iff_forall_not_mem.2 fun w hw => ?_
  exact absurd (h.writes w hw) (by simp [hc])

theorem Kept.checks_nil (h : s.Kept) (hc : s.current = none) : s.checks = [] := by
  refine eq_nil_iff_forall_not_mem.2 fun v hv => ?_
  exact absurd (h.checks v hv) (by simp [hc])

theorem Kept.busy_of_write (h : s.Kept) {w : PeerWrite} (hw : w ∈ s.writes) : (s.partials w.gen).busy = false := by
  by_contra hb
  have := (h.busy w.gen (h.writes w hw) (by simpa using hb)).2
  simp [this] at hw

variable {v : Verification} {p : Partial} {left : Option Data} {err : Option (ℕ → Data)} {data : ℕ → Data}
  {s' : Piece}

theorem Kept.check_eq (h : s.Kept) (hv : s.checks[k]? = some v) :
    s.checks = [v] ∧ k = 0 ∧ s.writes = [] ∧ s.current = some v.gen ∧ s.had = false := by
  have hmem := mem_of_getElem? hv
  have hc := h.checks v hmem
  have hb : (s.partials v.gen).busy = true := by
    by_contra hb
    simp [h.idle v.gen hc (by simpa using hb)] at hmem
  obtain ⟨hlen, hw⟩ := h.busy v.gen hc hb
  obtain ⟨u, hu⟩ := length_eq_one_iff.1 hlen
  have hk : k = 0 := by
    have := (List.getElem?_eq_some_iff.1 hv).1
    omega
  refine ⟨?_, hk, hw, hc, ?_⟩
  · rw [hu, hk] at hv
    rw [hu]
    simpa using hv
  · by_contra hh
    simp [h.had (by simpa using hh)] at hc

theorem kept_fetches (h : s.Kept) (fs : List Fetch) : ({ s with fetches := fs } : Piece).Kept :=
  { h with }

theorem kept_setPartial (h : s.Kept) (hw : p.writing = (s.partials g).writing)
    (hb : p.busy = (s.partials g).busy) : (s.setPartial g p).Kept := by
  refine ⟨h.had, h.writes, fun g' hc => ?_, h.checks, fun g' hc => ?_, fun g' hc => ?_⟩
  all_goals
    simp only [setPartial, update_apply]
    split_ifs with hg
  · subst hg
    rw [hw]
    exact h.writing g' hc
  · exact h.writing g' hc
  · subst hg
    rw [hb]
    exact h.busy g' hc
  · exact h.busy g' hc
  · subst hg
    rw [hb]
    exact h.idle g' hc
  · exact h.idle g' hc

theorem kept_verify (h : s.Kept) (hc : s.current = some g) (hb : (s.partials g).busy = false)
    (hw : (s.partials g).writing = 0) : (s.verify g).Kept := by
  have hnil : s.writes = [] := length_eq_zero_iff.1 ((h.writing g hc).symm.trans hw)
  have hck := h.idle g hc hb
  refine ⟨h.had, h.writes, fun g' hg => ?_, ?_, fun g' hg _ => ?_, fun g' hg hf => ?_⟩
  · obtain rfl : g = g' := by simpa [verify, setPartial, hc] using hg
    simp [verify, setPartial, hw, hnil]
  · intro v hv
    obtain rfl : v = { gen := g } := by simpa [verify, hck] using hv
    exact hc
  · simp [verify, setPartial, hck, hnil]
  · obtain rfl : g = g' := by simpa [verify, setPartial, hc] using hg
    simp [verify, setPartial] at hf

theorem kept_begin (h : s.Kept) (hc : s.current = none) (hh : s.had = false) : (s.begin n).Kept := by
  have hw := h.writes_nil hc
  have hk := h.checks_nil hc
  refine ⟨?_, ?_, fun g hg => ?_, ?_, fun g hg hb => ?_, fun g hg _ => ?_⟩
  · simp [begin, setPartial, hh]
  · simp [begin, setPartial, hw]
  · obtain rfl : s.made = g := by simpa [begin] using hg
    simp [begin, setPartial, new, hw]
  · simp [begin, setPartial, hk]
  · obtain rfl : s.made = g := by simpa [begin] using hg
    simp [begin, setPartial, new] at hb
  · exact hk

/-- What `onPiece` does with a block it takes. -/
def take (s : Piece) (g : ℕ) (a : Addr) (b : ℕ) (d : Data) : Piece :=
  let p := s.partials g
  { s.setPartial g { p with
      blocks := p.blocks.set b { done := true, sender := some a }
      done := p.done + 1
      writing := p.writing + 1 } with
    writes := s.writes ++ [{ gen := g, block := b, data := d, sender := a }] }

theorem kept_take (h : s.Kept) (hc : s.current = some g) (hb : (s.partials g).busy = false) :
    (s.take g a b d).Kept := by
  refine ⟨h.had, ?_, fun g' hg => ?_, h.checks, fun g' hg hf => ?_, fun g' hg _ => h.idle g hc hb⟩
  · intro w hw
    rcases mem_append.1 hw with hw | hw
    · exact h.writes w hw
    · obtain rfl := mem_singleton.1 hw
      exact hc
  · obtain rfl : g = g' := by simpa [take, setPartial, hc] using hg
    simp [take, setPartial, h.writing g hc]
  · obtain rfl : g = g' := by simpa [take, setPartial, hc] using hg
    simp [take, setPartial, hb] at hf

theorem kept_writeBlock (h : s.Kept) : (s.writeBlock k left).Kept := by
  unfold writeBlock
  split
  · exact h
  rename_i w hw
  split_ifs
  · refine ⟨h.had, ?_, fun g hg => ?_, h.checks, fun g hg hb => ?_, h.idle⟩
    · intro u hu
      rcases mem_or_eq_of_mem_set hu with hu | rfl
      · exact h.writes u hu
      · exact h.writes w (mem_of_getElem? hw)
    · simpa using h.writing g hg
    · obtain ⟨hl, hn⟩ := h.busy g hg hb
      exact ⟨hl, by simp [hn]⟩
  · exact h

theorem kept_eraseWrite (h : s.Kept) {w : PeerWrite} (hw : s.writes[k]? = some w)
    (hp : p.writing = (s.partials w.gen).writing - 1) (hb : p.busy = (s.partials w.gen).busy) :
    ({ s with writes := s.writes.eraseIdx k }.setPartial w.gen p).Kept := by
  have hmem := mem_of_getElem? hw
  have hc := h.writes w hmem
  have hlt : k < s.writes.length := (List.getElem?_eq_some_iff.1 hw).1
  have hidle := h.busy_of_write hmem
  refine ⟨h.had, fun u hu => h.writes u (mem_of_mem_eraseIdx hu), fun g hg => ?_, h.checks,
    fun g hg hf => ?_, fun g hg _ => h.idle w.gen hc hidle⟩
  · obtain rfl : w.gen = g := by simpa [setPartial, hc] using hg
    simp [setPartial, hp, h.writing _ hc, length_eraseIdx_of_lt hlt]
  · obtain rfl : w.gen = g := by simpa [setPartial, hc] using hg
    simp [setPartial, hb, hidle] at hf

theorem kept_writeFetch (h : s.Kept) {left : Option (ℕ → Data)} : (s.writeFetch k left).Kept := by
  unfold writeFetch
  split
  · exact h
  · split
    · exact { h with }
    · exact h

theorem kept_setCheck (h : s.Kept) {v' : Verification} (hv : s.checks[k]? = some v) (hg : v'.gen = v.gen) :
    ({ s with checks := s.checks.set k v' } : Piece).Kept := by
  obtain ⟨hck, rfl, -, hc, -⟩ := h.check_eq hv
  refine ⟨h.had, h.writes, h.writing, ?_, fun g hc' hb => ?_, fun g hc' hb => ?_⟩
  · simpa [hck, hg] using hc
  · simpa using h.busy g hc' hb
  · simp [h.idle g hc' hb]

theorem kept_leaveCheck (h : s.Kept) (hv : s.checks[k]? = some v) : (s.leaveCheck k v.gen).Kept := by
  obtain ⟨hck, rfl, hw, hc, -⟩ := h.check_eq hv
  refine ⟨h.had, h.writes, fun g hg => ?_, ?_, fun g hg hf => ?_, fun g hg _ => ?_⟩
  · obtain rfl : v.gen = g := by simpa [leaveCheck, setPartial, hc] using hg
    simpa [leaveCheck, setPartial] using h.writing v.gen hc
  · simp [leaveCheck, hck]
  · obtain rfl : v.gen = g := by simpa [leaveCheck, setPartial, hc] using hg
    simp [leaveCheck, setPartial] at hf
  · simp [leaveCheck, hck]

theorem kept_readCheck (h : s.Kept) : (s.readCheck info i k err).Kept := by
  unfold readCheck
  split
  · exact h
  · rename_i v hv
    split
    · exact kept_setCheck h hv rfl
    · exact h

theorem kept_drop (hw : s.writes = []) (hc : s.checks = []) {had : Bool} {rs : ℕ → List (Addr × ℕ)} :
    ({ s with had := had, current := none, records := rs } : Piece).Kept :=
  ⟨fun _ => rfl, by simp [hw], nofun, by simp [hc], nofun, nofun⟩

/-- What the calls for a piece do to it while no partial is begun or given up, and its bytes are neither read nor
written. -/
inductive Moves (s : Piece) : Piece → Prop
  | refl : Moves s s
  | sent {s' : Piece} (h : Moves s s') (x : Addr × ℕ × Data) : Moves s { s' with sent := x :: s'.sent }
  | layer {s' : Piece} (h : Moves s s') (layer : Bool) : Moves s { s' with layer }
  | fetches {s' : Piece} {k : ℕ} {f : Fetch} (h : Moves s s') (hf : s'.fetches[k]? = some f) (fs : List Fetch) :
      Moves s { s' with fetches := fs }
  | take {s' : Piece} {g b : ℕ} {a : Addr} {d : Data} (h : Moves s s') (hc : s'.current = some g)
      (hlt : b < (s'.partials g).blocks.length) (hd : ((s'.partials g).blocks.getD b {}).done = false)
      (hb : (s'.partials g).busy = false) (hs : (a, b, d) ∈ s'.sent) : Moves s (s'.take g a b d)
  | endWrite {s' : Piece} {k : ℕ} {w : PeerWrite} {ok : Bool} {p : Partial} (h : Moves s s')
      (hw : s'.writes[k]? = some w) (hr : w.result = some ok) (hn : p.writing = (s'.partials w.gen).writing - 1)
      (hb : p.busy = (s'.partials w.gen).busy) (hp : ok = true → p.blocks = (s'.partials w.gen).blocks) :
      Moves s ({ s' with writes := s'.writes.eraseIdx k }.setPartial w.gen p)
  | setPartial {s' : Piece} {g : ℕ} {p : Partial} (h : Moves s s') (hn : p.writing = (s'.partials g).writing)
      (hb : p.busy = (s'.partials g).busy)
      (hp : p.blocks = (s'.partials g).blocks ∨ p.blocks = (s'.partials g).fill.blocks) : Moves s (s'.setPartial g p)
  | verify {s' : Piece} {g : ℕ} (h : Moves s s') (hc : s'.current = some g) (hb : (s'.partials g).busy = false)
      (hn : (s'.partials g).writing = 0) : Moves s (s'.verify g)
  | reading {s' : Piece} {k : ℕ} {v : Verification} (h : Moves s s') (hv : s'.checks[k]? = some v) (layer : Bool) :
      Moves s { s' with checks := s'.checks.set k { v with stage := .reading layer } }
  | leave {s' : Piece} {k : ℕ} {v : Verification} (h : Moves s s') (hv : s'.checks[k]? = some v) :
      Moves s (s'.leaveCheck k v.gen)

theorem moves_onPiece : s.Moves (s.onPiece storage a b d) := by
  have hsent : s.Moves { s with sent := (a, b, d) :: s.sent } := .sent .refl _
  unfold onPiece
  split
  · exact hsent
  rename_i g hc
  simp only
  split_ifs with hp
  · exact hsent.take hc hp.1 hp.2.1 hp.2.2.1 mem_cons_self
  · exact hsent

theorem moves_endWrite : s.Moves (s.endWrite k) := by
  unfold endWrite
  split
  · exact .refl
  rename_i w hw
  simp only
  split
  · exact .refl
  · rename_i hr
    exact .endWrite .refl hw hr rfl rfl nofun
  rename_i hr
  split_ifs with hv
  · exact .verify (.endWrite .refl hw hr rfl rfl fun _ => rfl) hv.2.2.2.2 (by simp [setPartial, hv.2.2.1])
      (by simp [setPartial, hv.2.1])
  · exact .endWrite .refl hw hr rfl rfl fun _ => rfl

theorem moves_fetch {data : Option (ℕ → Data)} : s.Moves (s.fetch k storage data) := by
  unfold fetch
  split
  · exact .refl
  · rename_i f hf
    split
    all_goals exact .fetches .refl hf _

theorem moves_endFetch : s.Moves (s.endFetch k) := by
  unfold endFetch
  split
  · exact .refl
  rename_i f hf
  split
  · simp only
    have hfill : s.Moves ({ s with fetches := s.fetches.eraseIdx k }.setPartial f.gen (s.partials f.gen).fill) :=
      .setPartial (.fetches .refl hf _) rfl rfl (Or.inr rfl)
    split_ifs with hv hw
    · exact hfill.verify hv.2.1 (by simp [setPartial, fill, hv.2.2]) (by simp [setPartial, fill, hw])
    · exact hfill
    · exact .fetches .refl hf _
  · exact .refl

theorem moves_startCheck : s.Moves (s.startCheck k storage) := by
  unfold startCheck
  split
  · exact .refl
  rename_i v hv
  split
  · split_ifs
    · exact .reading .refl hv _
    · exact .leave .refl hv
  · exact .refl

theorem Moves.kick (h : s.Moves s') : s.Moves s'.kick := by
  unfold Piece.kick
  split
  · exact h
  rename_i g hc
  simp only
  have hp : s.Moves (s'.setPartial g { s'.partials g with waitHashes := false }) := h.setPartial rfl rfl (Or.inl rfl)
  split_ifs with hl hv
  · exact hp.verify hc (by simp [Piece.setPartial, hv.2.2]) (by simp [Piece.setPartial, hv.2.1])
  · exact hp
  · exact h

theorem Moves.kept (h : s.Moves s') (hk : s.Kept) : s'.Kept := by
  induction h with
  | refl => exact hk
  | sent _ _ ih | layer _ _ ih => exact { ih with }
  | fetches _ _ fs ih => exact kept_fetches ih fs
  | take _ hc _ _ hb _ ih => exact kept_take ih hc hb
  | endWrite _ hw _ hn hb _ ih => exact kept_eraseWrite ih hw hn hb
  | setPartial _ hn hb _ ih => exact kept_setPartial ih hn hb
  | verify _ hc hb hn ih => exact kept_verify ih hc hb hn
  | reading _ hv _ ih => exact kept_setCheck ih hv rfl
  | leave _ hv ih => exact kept_leaveCheck ih hv

structure Stays (s s' : Piece) : Prop where
  kept : s.Kept → s'.Kept
  untouched : s.Untouched → s'.Untouched
  current : s.current = none → s'.current = none

/-- The step leaves the piece's partial, its bytes and its being had alone. -/
structure Frame (s s' : Piece) : Prop where
  current : s'.current = s.current
  stored : s'.stored = s.stored
  had : s'.had = s.had

section
variable (h : s.Untouched)
include h

theorem Untouched.of_partials (hw : s'.writes = s.writes) (hf : s'.fetches = s.fetches) (hp : ∀ g, s'.current = some g →
      s.current = some g ∧ ∀ b ∈ (s'.partials g).blocks, b ∈ (s.partials g).blocks) : s'.Untouched :=
  ⟨hw.trans h.writes, hf.trans h.fetches, fun g hg b hb => h.blocks g (hp g hg).1 b ((hp g hg).2 b hb)⟩

theorem untouched_setPartial (hp : p.blocks = (s.partials g).blocks) : (s.setPartial g p).Untouched := by
  refine h.of_partials rfl rfl fun g' hg => ⟨hg, fun b hb => ?_⟩
  simp only [setPartial, update_apply] at hb
  split_ifs at hb with hgg
  · subst hgg
    rwa [hp] at hb
  · exact hb

theorem untouched_checks (cs : List Verification) : ({ s with checks := cs } : Piece).Untouched :=
  h.of_partials rfl rfl fun _ hg => ⟨hg, fun _ hb => hb⟩

theorem untouched_leaveCheck : (s.leaveCheck k g).Untouched := by
  have hp : (s.setPartial g { s.partials g with busy := false }).Untouched := untouched_setPartial h rfl
  exact untouched_checks hp _

theorem untouched_verify : (s.verify g).Untouched := by
  have hp : (s.setPartial g { s.partials g with busy := true }).Untouched := untouched_setPartial h rfl
  exact untouched_checks hp _

theorem Untouched.writeBlock_eq : s.writeBlock k left = s := by
  simp [writeBlock, h.writes]

theorem Untouched.writeFetch_eq {left : Option (ℕ → Data)} : s.writeFetch k left = s := by
  simp [writeFetch, h.fetches]

end

theorem Moves.frame (h : s.Moves s') : s.Frame s' := by
  induction h with
  | refl => exact ⟨rfl, rfl, rfl⟩
  | sent _ _ ih | layer _ _ ih | leave _ _ ih | fetches _ _ _ ih | reading _ _ _ ih | setPartial _ _ _ _ ih
  | verify _ _ _ _ ih | take _ _ _ _ _ _ ih | endWrite _ _ _ _ _ _ ih => exact { ih with }

theorem Moves.untouched (h : s.Moves s') (hu : s.Untouched) : s'.Untouched := by
  induction h with
  | refl => exact hu
  | sent _ _ ih | layer _ _ ih => exact { ih with }
  | fetches _ hf _ ih => simp [ih.fetches] at hf
  | take _ hc hlt hd _ _ ih =>
    -- a block the partial has is refused
    have := ih.blocks _ hc _ (getElem_mem hlt)
    simp [List.getElem?_eq_getElem hlt, this] at hd
  | endWrite _ hw _ _ _ _ ih => simp [ih.writes] at hw
  | setPartial _ _ _ hp ih =>
    rcases hp with hp | hp
    · exact untouched_setPartial ih hp
    refine ⟨ih.writes, ih.fetches, fun g' hg b hb => ?_⟩
    simp only [Piece.setPartial, update_apply] at hb
    split_ifs at hb
    · rw [hp] at hb
      simp only [fill, mem_map] at hb
      obtain ⟨x, -, rfl⟩ := hb
      rfl
    · exact ih.blocks g' hg b hb
  | verify _ _ _ _ ih => exact untouched_verify ih
  | reading _ _ _ ih => exact untouched_checks ih _
  | leave _ _ ih => exact untouched_leaveCheck ih

theorem Moves.stays (h : s.Moves s') : s.Stays s' :=
  ⟨h.kept, h.untouched, fun hc => h.frame.current.trans hc⟩

theorem frame_readCheck : s.Frame (s.readCheck info i k err) := by
  fun_cases readCheck s info i k err <;> exact ⟨rfl, rfl, rfl⟩

@[simp] theorem writeBlock_keeps {left : Option Data} : (s.writeBlock k left).current = s.current ∧
    (s.writeBlock k left).had = s.had ∧ (s.writeBlock k left).checks = s.checks ∧
      (s.writeBlock k left).sent = s.sent := by
  fun_cases writeBlock s k left <;> exact ⟨rfl, rfl, rfl, rfl⟩

@[simp] theorem writeFetch_keeps {left : Option (ℕ → Data)} : (s.writeFetch k left).current = s.current ∧
    (s.writeFetch k left).had = s.had ∧ (s.writeFetch k left).checks = s.checks ∧
      (s.writeFetch k left).sent = s.sent := by
  fun_cases writeFetch s k left <;> exact ⟨rfl, rfl, rfl, rfl⟩

theorem stays_writeBlock : s.Stays (s.writeBlock k left) :=
  ⟨fun h => kept_writeBlock h, fun h => by rwa [h.writeBlock_eq], fun hc => writeBlock_keeps.1.trans hc⟩

theorem stays_writeFetch {left : Option (ℕ → Data)} : s.Stays (s.writeFetch k left) :=
  ⟨fun h => kept_writeFetch h, fun h => by rwa [h.writeFetch_eq], fun hc => writeFetch_keeps.1.trans hc⟩

theorem stays_readCheck : s.Stays (s.readCheck info i k err) := by
  refine ⟨fun h => kept_readCheck h, fun h => ?_, fun hc => frame_readCheck.current.trans hc⟩
  unfold readCheck
  split
  · exact h
  · split
    · exact untouched_checks h _
    · exact h

theorem stays_leaveCheck (hv : s.checks[k]? = some v) : s.Stays (s.leaveCheck k v.gen) :=
  ⟨fun h => kept_leaveCheck h hv, untouched_leaveCheck, id⟩

theorem stays_markHave (hw : s.writes = []) (hc : s.checks = []) : s.Stays s.markHave := by
  unfold markHave
  split_ifs
  · exact ⟨id, id, id⟩
  · exact ⟨fun _ => kept_drop hw hc, fun h => ⟨h.writes, h.fetches, nofun⟩, fun _ => rfl⟩

@[simp] theorem markHave_keeps : s.markHave.stored = s.stored ∧ s.markHave.checks = s.checks ∧
    s.markHave.sent = s.sent := by
  unfold markHave
  split_ifs <;> exact ⟨rfl, rfl, rfl⟩

@[simp] theorem had_markHave : s.markHave.had = true := by
  unfold markHave
  split_ifs with h
  · exact h
  · rfl

variable {v : Verdict}

theorem stays_judge (hw : s.writes = []) (hc : s.checks = []) : s.Stays (s.judge info i g data v).1 := by
  cases v with
  | ok =>
    have := stays_markHave (s := (s.smartBanGood info (info.blocks i) data).1) hw hc
    exact ⟨fun h => this.kept { h with },
      fun h => this.untouched (h.of_partials rfl rfl fun _ hg => ⟨hg, fun _ hb => hb⟩), this.current⟩
  | noLayer => exact ⟨fun h => kept_setPartial h rfl rfl, fun h => untouched_setPartial h rfl, id⟩
  | bad =>
    simp only [judge, smartBanBad]
    split <;>
      exact ⟨fun _ => kept_drop hw hc, fun h => ⟨h.writes, h.fetches, nofun⟩, fun _ => rfl⟩

@[simp] theorem judge_keeps : (s.judge info i g data v).1.stored = s.stored ∧
    (s.judge info i g data v).1.checks = s.checks ∧ (s.judge info i g data v).1.sent = s.sent := by
  cases v with
  | ok => simp [judge, smartBanGood]
  | noLayer => exact ⟨rfl, rfl, rfl⟩
  | bad =>
    simp only [judge, smartBanBad]
    split <;> exact ⟨rfl, rfl, rfl⟩

theorem had_judge (hh : s.had = false) : (s.judge info i g data v).1.had = true ↔ v = .ok := by
  cases v with
  | ok => simp [judge]
  | noLayer => simp [judge, setPartial, hh]
  | bad =>
    simp only [judge, smartBanBad]
    split <;> simp [hh]

theorem kept_await (h : s.Kept) : (s.await n).Kept := by
  unfold await
  split_ifs with hc
  · refine kept_setPartial (kept_begin h hc.1 hc.2) ?_ ?_
    · simp [begin, setPartial, fill]
    · simp [begin, setPartial, fill]
  · exact h

theorem untouched_await (h : s.Untouched) : (s.await n).Untouched := by
  unfold await
  split_ifs with hc
  · refine ⟨h.writes, h.fetches, fun g hg => ?_⟩
    obtain rfl : s.made = g := by simpa [begin, setPartial] using hg
    simp [setPartial, fill]
  · exact h

end Piece

/-- The steps that begin no partial and give none up, and neither read nor write a piece's bytes. -/
def Op.quiet : Op → Bool
  | .onPiece .. | .endWrite .. | .fetch .. | .endFetch .. | .startCheck .. | .setLayer _ => true
  | .checkRead _ | .checkLayer | .checkEnd | .setStorage _ => true
  | _ => false

namespace Torrent

/-- What holds between any two steps: while `check` runs nothing else writes, and what it read is still stored. -/
structure Inv (t : Torrent) : Prop where
  kept : ∀ i, (t.piece i).Kept
  untouched : ∀ r, t.check = some r → ∀ i, (t.piece i).Untouched
  ahead : ∀ r, t.check = some r → ∀ i, r.pos ≤ i → (t.piece i).current = none
  read : ∀ r d, t.check = some r → r.data = some d → d = (t.piece r.pos).stored

variable {info : Info} {t : Torrent} {i k : ℕ} {s : Piece}

@[simp] theorem piece_setPiece (j : ℕ) : (t.setPiece i s).piece j = if j = i then s else t.piece j := by
  simp [setPiece, update_apply]

theorem inv_pieces {t' : Torrent} (h : t.Inv) (hc : t'.check = t.check) (hs : ∀ i, (t.piece i).Stays (t'.piece i))
    (hst : ∀ r, t.check = some r → ∀ i, (t'.piece i).stored = (t.piece i).stored) : t'.Inv := by
  refine ⟨fun i => (hs i).kept (h.kept i), fun r hr i => ?_, fun r hr i hi => ?_, fun r d hr hd => ?_⟩
  all_goals rw [hc] at hr
  · exact (hs i).untouched (h.untouched r hr i)
  · exact (hs i).current (h.ahead r hr i hi)
  · rw [hst r hr]
    exact h.read r d hr hd

theorem stays_setPiece (hs : (t.piece i).Stays s) (j : ℕ) : (t.piece j).Stays ((t.setPiece i s).piece j) := by
  rw [piece_setPiece]
  split_ifs with hj
  · subst hj
    exact hs
  · exact ⟨id, id, id⟩

theorem inv_setPiece (h : t.Inv) (hs : (t.piece i).Stays s)
    (hst : ∀ r, t.check = some r → s.stored = (t.piece i).stored) : (t.setPiece i s).Inv := by
  refine inv_pieces h rfl (stays_setPiece hs) fun r hr j => ?_
  rw [piece_setPiece]
  split_ifs with hj
  · subst hj
    exact hst r hr
  · rfl

theorem inv_kickWaiting (h : t.Inv) : t.kickWaiting.Inv :=
  inv_pieces h rfl (fun _ => (Piece.Moves.kick .refl).stays) fun _ _ _ => (Piece.Moves.kick .refl).frame.stored

variable {op : Op}

theorem moves_step (info : Info) (t : Torrent) (hq : op.quiet = true) (j : ℕ) :
    (t.piece j).Moves ((t.step info op).piece j) := by
  have hset : ∀ {i s}, (t.piece i).Moves s → (t.piece j).Moves ((t.setPiece i s).piece j) := by
    intro i s hs
    rw [piece_setPiece]
    split_ifs with hj
    · subst hj
      exact hs
    · exact .refl
  cases op with
  | onPiece i a b d => exact hset moves_onPiece
  | endWrite i k => exact hset moves_endWrite
  | fetch i k data => exact hset moves_fetch
  | endFetch i k => exact hset moves_endFetch
  | startCheck i k => exact hset moves_startCheck
  | setLayer pieces => exact (Piece.Moves.layer .refl _).kick
  | checkRead ok =>
    simp only [step]
    split
    · split_ifs <;> exact .refl
    · exact .refl
  | checkLayer =>
    simp only [step]
    split <;> exact .refl
  | checkEnd =>
    simp only [step]
    split
    · split_ifs <;> exact .refl
    · exact .refl
  | setStorage opened => exact .refl
  | _ => simp [Op.quiet] at hq

/-- What has to be shown of one piece for what holds of each to hold after a step. -/
def Keeps (info : Info) (t : Torrent) (P : ℕ → Piece → Prop) : Op → Prop
  | .begin i => t.Wanted info i → P i ((t.piece i).begin (info.blocks i))
  | .beginFetch i => t.Wanted info i → P i ((t.piece i).beginFetch (info.blocks i))
  | .writeBlock i k left => P i ((t.piece i).writeBlock k left)
  | .writeFetch i k left => P i ((t.piece i).writeFetch k left)
  | .readCheck i k err => P i ((t.piece i).readCheck info i k err)
  | .endCheck i k => ∀ v data verdict, (t.piece i).checks[k]? = some v → v.stage = .judging data verdict →
      P i ((t.piece i).leaveCheck k v.gen) ∧ P i (((t.piece i).leaveCheck k v.gen).judge info i v.gen data verdict).1
  | .checkPiece => ∀ i data layer, t.check = some ⟨i, some data, some layer⟩ →
      P i (t.piece i).markHave ∧ P i ((t.piece i).await (info.blocks i))
  | _ => True

theorem forall_step {P : ℕ → Piece → Prop} (h : ∀ j, P j (t.piece j)) (hmoves : ∀ j s, (t.piece j).Moves s → P j s)
    (hkick : ∀ j s, P j s → P j s.kick) (hop : t.Keeps info P op) (j : ℕ) : P j ((t.step info op).piece j) := by
  have hset : ∀ {i s}, P i s → P j ((t.setPiece i s).piece j) := by
    intro i s hs
    rw [piece_setPiece]
    split_ifs with hj
    · subst hj
      exact hs
    · exact h j
  have hquiet : op.quiet = true → P j ((t.step info op).piece j) := fun hq => hmoves j _ (moves_step info t hq j)
  cases op with
  | begin i | beginFetch i =>
    simp only [step]
    split_ifs with hw
    · exact hset (hop hw)
    · exact h j
  | writeBlock | writeFetch | readCheck => exact hset hop
  | endCheck i k =>
    simp only [step, endCheck]
    split
    · exact h j
    rename_i v hv
    split
    · rename_i data verdict hst
      obtain ⟨hleave, hjudge⟩ := hop v data verdict hv hst
      split_ifs
      · exact hset hleave
      · exact hkick j _ (hset hjudge)
      · exact hset hjudge
    · exact h j
  | checkPiece =>
    simp only [step, checkPiece]
    split
    · rename_i i data layer hr
      obtain ⟨hhave, hawait⟩ := hop i data layer hr
      split
      · exact hset hhave
      · exact hset hawait
      · exact h j
    · exact h j
  | _ => exact hquiet rfl

section
variable (h : t.Inv)
include h

theorem inv_quiet (hq : op.quiet = true) (hc : (t.step info op).check = t.check) : (t.step info op).Inv :=
  inv_pieces h hc (fun i => (moves_step info t hq i).stays) fun _ _ i => (moves_step info t hq i).frame.stored

theorem inv_begin (hw : t.Wanted info i) (hs : s.Kept) : (t.setPiece i s).Inv := by
  have hnone : t.check = none := Option.isNone_iff_eq_none.1 hw.1
  refine ⟨fun j => ?_, ?_, ?_, ?_⟩
  · rw [piece_setPiece]
    split_ifs
    · exact hs
    · exact h.kept j
  all_goals simp [setPiece, hnone]

theorem inv_endCheck : (t.endCheck info i k).Inv := by
  unfold endCheck
  split
  · exact h
  rename_i v hv
  split
  · rename_i data verdict hst
    obtain ⟨hck, rfl, hw, -, -⟩ := (h.kept i).check_eq hv
    have hleave := stays_leaveCheck hv
    simp only
    split_ifs
    · exact inv_setPiece h hleave fun _ _ => rfl
    all_goals
      have hj : ((t.piece i).leaveCheck 0 v.gen).Stays
          (((t.piece i).leaveCheck 0 v.gen).judge info i v.gen data verdict).1 :=
        stays_judge (s := (t.piece i).leaveCheck 0 v.gen) hw (by simp [leaveCheck, hck])
      have hstays : (t.piece i).Stays (((t.piece i).leaveCheck 0 v.gen).judge info i v.gen data verdict).1 :=
        ⟨fun h => hj.kept (hleave.kept h), fun h => hj.untouched (hleave.untouched h),
          fun h => hj.current (hleave.current h)⟩
      have hinv := inv_setPiece h hstays fun _ _ => judge_keeps.1
    · exact inv_kickWaiting { hinv with }
    · exact { hinv with }
  · exact h

theorem inv_advance {r : CheckRun} (hr : t.check = some r) {p : Piece} (hk : p.Kept) (hu : p.Untouched) :
    ({ t with check := some { pos := r.pos + 1 } }.setPiece r.pos p).Inv := by
  refine ⟨fun j => ?_, fun r' hr' j => ?_, fun r' hr' j hj => ?_, fun r' d hr' hd => ?_⟩
  · rw [piece_setPiece]
    split_ifs
    · exact hk
    · exact h.kept j
  · rw [piece_setPiece]
    split_ifs
    · exact hu
    · exact h.untouched r hr j
  · obtain rfl : { pos := r.pos + 1 } = r' := by simpa [setPiece] using hr'
    rw [piece_setPiece, if_neg (by simp at hj; omega)]
    exact h.ahead r hr j (by simp at hj; omega)
  · obtain rfl : { pos := r.pos + 1 } = r' := by simpa [setPiece] using hr'
    simp at hd

theorem inv_checkPiece : (t.checkPiece info).Inv := by
  unfold checkPiece
  split
  · rename_i i data layer hr
    have hc := h.ahead _ hr i le_rfl
    have hk := h.kept i
    have hu := h.untouched _ hr i
    split
    · have hm := stays_markHave (hk.writes_nil hc) (hk.checks_nil hc)
      exact inv_advance h hr (hm.kept hk) (hm.untouched hu)
    · exact inv_advance h hr (kept_await hk) (untouched_await hu)
    · have := inv_advance h hr hk hu
      simpa [setPiece] using this
  · exact h

theorem inv_step (op : Op) : (t.step info op).Inv := by
  cases op with
  | begin i =>
    simp only [step]
    split_ifs with hw
    · exact inv_begin h hw (kept_begin (h.kept i) hw.2.2.2.2 hw.2.2.2.1)
    · exact h
  | writeBlock i k left =>
    exact inv_setPiece h stays_writeBlock fun r hr => by rw [(h.untouched r hr i).writeBlock_eq]
  | beginFetch i =>
    simp only [step]
    split_ifs with hw
    · exact inv_begin h hw (kept_fetches (kept_begin (h.kept i) hw.2.2.2.2 hw.2.2.2.1) _)
    · exact h
  | writeFetch i k left =>
    exact inv_setPiece h stays_writeFetch fun r hr => by rw [(h.untouched r hr i).writeFetch_eq]
  | onPiece | endWrite | fetch | endFetch | startCheck | setLayer | setStorage =>
    exact inv_quiet h rfl rfl
  | readCheck i k err => exact inv_setPiece h stays_readCheck fun _ _ => frame_readCheck.stored
  | endCheck i k => exact inv_endCheck h
  | checkRead ok =>
    simp only [step]
    split
    · rename_i i hr
      split_ifs with hlt hok
      · refine ⟨h.kept, fun _ _ => h.untouched _ hr, fun r hr' j hj => ?_, fun r d hr' hd => ?_⟩
        · cases hr'
          exact h.ahead _ hr j hj
        · cases hr'
          exact (Option.some.inj hd).symm
      · refine ⟨h.kept, fun _ _ => h.untouched _ hr, fun r hr' j hj => ?_, fun r d hr' hd => ?_⟩
        · cases hr'
          exact h.ahead _ hr j (Nat.le_of_succ_le hj)
        · cases hr'
          simp at hd
      · exact h
    · exact h
  | checkLayer =>
    simp only [step]
    split
    · rename_i i data hr
      refine ⟨h.kept, fun _ _ => h.untouched _ hr, fun r hr' j hj => ?_, fun r d hr' hd => ?_⟩
      · cases hr'
        exact h.ahead _ hr j hj
      · cases hr'
        exact h.read ⟨i, some data, none⟩ d hr hd
    · exact h
  | checkPiece => exact inv_checkPiece h
  | checkEnd =>
    simp only [step]
    split
    · split_ifs
      · exact h
      · exact ⟨h.kept, nofun, nofun, nofun⟩
    · exact h

end

theorem inv_init (stored : ℕ → ℕ → Data) : (machine info stored).init.Inv :=
  ⟨fun _ => ⟨nofun, nofun, nofun, nofun, nofun, nofun⟩, fun _ _ _ => ⟨rfl, rfl, nofun⟩, fun _ _ _ _ => rfl, by
    rintro r d hr hd
    cases hr
    simp at hd⟩

/-- Whatever the interleaving, a piece is verified once at a time, while no peer writes to it, and once had neither
happens; and while `check` runs nothing is written or fetched. -/
theorem verification_excludes_writes (info : Info) (stored : ℕ → ℕ → Data) (ops : List Op) (i : ℕ) :
    let t := (machine info stored).run ops
    let s := t.piece i
    (s.checks = [] ∨ s.checks.length = 1 ∧ s.writes = [] ∧ s.had = false) ∧ (s.had = true → s.writes = []) ∧
      (t.check.isSome → s.writes = [] ∧ s.fetches = []) := by
  have h := Machine.invariant_all (m := machine info stored) (inv_init stored) (fun _ op h => inv_step h op) ops
  have hk := h.kept i
  intro t s
  refine ⟨?_, fun hh => hk.writes_nil (hk.had hh), fun hc => ?_⟩
  · cases hv : s.checks with
    | nil => exact .inl rfl
    | cons v vs =>
      obtain ⟨hone, -, hw, -, hh⟩ := hk.check_eq (v := v) (k := 0) (by rw [hv]; rfl)
      exact .inr ⟨by rw [← hv, hone]; rfl, hw, hh⟩
  · obtain ⟨r, hr⟩ := Option.isSome_iff_exists.1 hc
    have hu := h.untouched r hr i
    exact ⟨hu.writes, hu.fetches⟩

end Torrent
end Fib.Bittorrent
