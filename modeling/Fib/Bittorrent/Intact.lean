import Fib.Bittorrent.Partials

/-! A piece the torrent has is intact. Peers' blocks cannot break it: their writes belong to the piece's partial and
are over before it is verified. A web seed's write belongs to no one and may come at any time after; the piece stays
intact exactly if what such a write leaves passes as well. -/

namespace Fib.Bittorrent
open Or List Piece

namespace Piece
variable {s : Piece} {info : Info} {i k g b : ℕ} {storage : Bool} {a : Addr} {d : Data}

/-- A verification that has its verdict in `s'` had it in `s`. -/
def NoVerdict (s s' : Piece) : Prop :=
  ∀ v ∈ s'.checks, v ∈ s.checks ∨ ∀ data verdict, v.stage ≠ .judging data verdict

variable {s' : Piece}

theorem noVerdict_of_checks (h : s'.checks = s.checks) : s.NoVerdict s' := fun _ hv => inl (h ▸ hv)

theorem noVerdict_verify (h : s'.checks = s.checks) : s.NoVerdict (s'.verify g) := by
  intro v hv
  rcases mem_append.1 hv with hv | hv
  · exact inl (h ▸ hv)
  · obtain rfl := mem_singleton.1 hv
    exact inr nofun

theorem noVerdict_leaveCheck : s.NoVerdict (s.leaveCheck k g) := fun _ hv => inl (mem_of_mem_eraseIdx hv)

theorem NoVerdict.trans {s' s'' : Piece} (h : s.NoVerdict s') (h' : s'.NoVerdict s'') : s.NoVerdict s'' := by
  intro v hv
  rcases h' v hv with hv | hne
  · exact h v hv
  · exact inr hne

theorem Moves.noVerdict (h : s.Moves s') : s.NoVerdict s' := by
  induction h with
  | refl => exact noVerdict_of_checks rfl
  | sent _ _ ih | layer _ _ ih | fetches _ _ _ ih | setPartial _ _ _ _ ih | take _ _ _ _ _ _ ih
  | endWrite _ _ _ _ _ _ ih => exact ih
  | verify _ _ _ _ ih => exact ih.trans (noVerdict_verify rfl)
  | leave _ _ ih => exact ih.trans noVerdict_leaveCheck
  | reading _ _ _ ih =>
    refine ih.trans fun v hv => ?_
    rcases mem_or_eq_of_mem_set hv with hv | rfl
    · exact inl hv
    · exact inr nofun

/-- The bytes a verification found to pass are still stored, or others that pass. -/
def Current (info : Info) (i : ℕ) (s : Piece) : Prop :=
  ∀ v ∈ s.checks, ∀ data, v.stage = .judging data .ok → info.Passes i s.stored

theorem current_of_noVerdict (h : s.Current info i) (hn : s.NoVerdict s')
    (hst : s'.stored = s.stored) : s'.Current info i := by
  intro v hv data hj
  rw [hst]
  rcases hn v hv with hv | hne
  · exact h v hv data hj
  · exact absurd hj (hne data .ok)

theorem current_writeBlock_of_kept (hk : s.Kept) (h : s.Current info i) {left : Option Data} :
    (s.writeBlock k left).Current info i := by
  unfold writeBlock
  split
  · exact h
  rename_i w hw
  split_ifs
  · -- nothing is verified while a block is written
    intro v hv
    obtain ⟨l, hl⟩ := getElem?_of_mem hv
    have hnil := (hk.check_eq hl).2.2.1
    simp [hnil] at hw
  · exact h

theorem current_readCheck (h : s.Current info i) {err : Option (ℕ → Data)} :
    (s.readCheck info i k err).Current info i := by
  unfold readCheck
  split
  · exact h
  rename_i v hv
  split
  · rename_i layer hst
    intro u hu data hj
    rcases mem_or_eq_of_mem_set hu with hu | rfl
    · exact h u hu data hj
    cases err with
    | some d => simp at hj
    | none =>
      obtain ⟨-, hok⟩ := VerifyStage.judging.inj hj
      cases layer with
      | false => exact inl hok
      | true => exact inr hok
  · exact h

end Piece

namespace Torrent

/-- Every piece the torrent has passes its check as the storage has it. -/
def Intact (info : Info) (t : Torrent) : Prop :=
  ∀ i, (t.piece i).had = true → info.Passes i (t.piece i).stored

/-- A web seed's write to a piece the torrent has leaves bytes that pass, and so does whatever was written since a
verification that passed read the piece. -/
def Safe (info : Info) (t : Torrent) : Op → Prop
  | .writeFetch i k left => (t.piece i).had = true → info.Passes i ((t.piece i).writeFetch k left).stored
  | .endCheck i k => ∀ v data, (t.piece i).checks[k]? = some v → v.stage = .judging data .ok →
      info.Passes i (t.piece i).stored
  | _ => True

/-- No web seed writes to a piece the torrent has, or to one whose verification has read it. -/
def Undisturbed (t : Torrent) : Op → Prop
  | .writeFetch i _ _ =>
    (t.piece i).had = false ∧ ∀ v ∈ (t.piece i).checks, ∀ data verdict, v.stage ≠ .judging data verdict
  | _ => True

variable {info : Info} {t : Torrent} {i k : ℕ} {s : Piece}

theorem intact_congr {t' : Torrent} (h : ∀ i, (t'.piece i).stored = (t.piece i).stored ∧
    (t'.piece i).had = (t.piece i).had) : t'.Intact info ↔ t.Intact info := by
  refine forall_congr' fun i => ?_
  rw [(h i).1, (h i).2]

theorem intact_setPiece (h : t.Intact info) :
    (t.setPiece i s).Intact info ↔ (s.had = true → info.Passes i s.stored) := by
  refine ⟨fun hi hh => ?_, fun hs j => ?_⟩
  · simpa using hi i (by simpa using hh)
  rw [piece_setPiece]
  split_ifs with hj
  · subst hj
    exact hs
  · exact h j

theorem intact_frame (h : t.Intact info) (hf : (t.piece i).Frame s) : (t.setPiece i s).Intact info :=
  (intact_setPiece h).2 (by rw [hf.had, hf.stored]; exact h i)

theorem intact_kickWaiting : t.kickWaiting.Intact info ↔ t.Intact info :=
  intact_congr fun _ => ⟨(Piece.Moves.kick .refl).frame.stored, (Piece.Moves.kick .refl).frame.had⟩

section
variable (h : t.Inv) (hi : t.Intact info)
include h hi

/-- A verification that passed marks the piece as had, whatever the storage has become since it read it. -/
theorem intact_endCheck_iff : (t.endCheck info i k).Intact info ↔ t.Safe info (.endCheck i k) := by
  unfold endCheck
  simp only [Safe]
  split
  · rename_i hv
    simpa [hv] using hi
  rename_i v hv
  obtain ⟨-, -, -, hc, hh⟩ := (h.kept i).check_eq hv
  split
  · rename_i data verdict hst
    have hcur : ¬ (((t.piece i).leaveCheck k v.gen).current ≠ some v.gen ∨
        ((t.piece i).leaveCheck k v.gen).had = true) := by simp [leaveCheck, setPartial, hc, hh]
    have hjudge : (t.setPiece i (((t.piece i).leaveCheck k v.gen).judge info i v.gen data verdict).1).Intact info ↔
        (verdict = .ok → info.Passes i (t.piece i).stored) := by
      rw [intact_setPiece hi, had_judge (s := (t.piece i).leaveCheck k v.gen) hh, judge_keeps.1]
      rfl
    have hsafe : (∀ v' data', (t.piece i).checks[k]? = some v' → v'.stage = .judging data' .ok →
        info.Passes i (t.piece i).stored) ↔ (verdict = .ok → info.Passes i (t.piece i).stored) := by
      refine ⟨fun hs hok => hs v data hv (by rw [hst, hok]), fun hs v' data' hv' hst' => hs ?_⟩
      rw [hv] at hv'
      cases hv'
      rw [hst] at hst'
      exact (VerifyStage.judging.inj hst').2
    simp only [if_neg hcur]
    rw [hsafe, ← hjudge]
    split_ifs
    · exact intact_kickWaiting
    · exact Iff.rfl
  · rename_i hne
    refine ⟨fun _ v' data hv' hst => ?_, fun _ => hi⟩
    rw [hv] at hv'
    cases hv'
    exact absurd hst (hne data .ok)

theorem intact_writeBlock {left : Option Data} : (t.setPiece i ((t.piece i).writeBlock k left)).Intact info := by
  refine (intact_setPiece hi).2 fun hh => ?_
  rw [writeBlock_keeps.2.1] at hh
  have hw := (h.kept i).writes_nil ((h.kept i).had hh)
  simpa [writeBlock, hw] using hi i hh

theorem intact_checkPiece : (t.checkPiece info).Intact info := by
  unfold checkPiece
  split
  · rename_i i data layer hr
    have hi' : { t with check := some { pos := i + 1 } }.Intact info := hi
    split
    · rename_i hok
      refine (intact_setPiece hi').2 fun _ => ?_
      rw [markHave_keeps.1, ← h.read _ data hr rfl]
      cases layer with
      | false => exact inl hok
      | true => exact inr hok
    · refine (intact_setPiece hi').2 fun hh => ?_
      have hpass := hi i
      unfold await at hh ⊢
      split_ifs at hh ⊢
      · exact hpass hh
      · exact hpass hh
    · exact hi
  · exact hi

theorem intact_step_iff (op : Op) : (t.step info op).Intact info ↔ t.Safe info op := by
  have hquiet : ∀ op : Op, op.quiet = true → (t.step info op).Intact info := by
    intro op hq
    have hf := fun j => (moves_step info t hq j).frame
    exact (intact_congr fun j => ⟨(hf j).stored, (hf j).had⟩).2 hi
  cases op with
  | writeFetch i k left =>
    rw [step, intact_setPiece hi, writeFetch_keeps.2.1]
    rfl
  | endCheck i k => exact intact_endCheck_iff h hi
  | begin i | beginFetch i =>
    refine iff_of_true ?_ trivial
    simp only [step]
    split_ifs
    · exact (intact_setPiece hi).2 (hi i)
    · exact hi
  | writeBlock i k left => exact iff_of_true (intact_writeBlock h hi) trivial
  | readCheck i k err => exact iff_of_true (intact_frame hi frame_readCheck) trivial
  | checkPiece => exact iff_of_true (intact_checkPiece h hi) trivial
  | _ => exact iff_of_true (hquiet _ rfl) trivial

end

theorem current_step (hk : t.Inv) (h : ∀ j, (t.piece j).Current info j) (op : Op) (hu : t.Undisturbed op) (j : ℕ) :
    ((t.step info op).piece j).Current info j := by
  have hmoves : ∀ {j s s'}, Piece.Current info j s → s.Moves s' → s'.Current info j :=
    fun hs hm => current_of_noVerdict hs hm.noVerdict hm.frame.stored
  refine forall_step h (fun j s hm => hmoves (h j) hm) (fun j s hs => hmoves hs (Piece.Moves.kick .refl)) ?_ j
  cases op with
  | begin i | beginFetch i => exact fun _ => current_of_noVerdict (h i) (noVerdict_of_checks rfl) rfl
  | writeBlock i k left => exact current_writeBlock_of_kept (hk.kept i) (h i)
  | writeFetch i k left =>
    intro v hv data hj
    have hv' : v ∈ (t.piece i).checks := by
      unfold writeFetch at hv
      split at hv
      · exact hv
      · split at hv <;> exact hv
    exact absurd hj (hu.2 v hv' data .ok)
  | readCheck i k err => exact current_readCheck (h i)
  | endCheck i k =>
    intro v data verdict hv hst
    have hleave := current_of_noVerdict (h i) (noVerdict_leaveCheck (k := k) (g := v.gen)) rfl
    exact ⟨hleave, current_of_noVerdict hleave (noVerdict_of_checks judge_keeps.2.1) judge_keeps.1⟩
  | checkPiece =>
    intro i data layer hr
    refine ⟨current_of_noVerdict (h i) (noVerdict_of_checks markHave_keeps.2.1) markHave_keeps.1, fun v hv => ?_⟩
    unfold await at hv ⊢
    split_ifs at hv ⊢
    · exact h i v hv
    · exact h i v hv
  | _ => trivial

theorem safe_of_undisturbed (h : ∀ j, (t.piece j).Current info j) {op : Op} (hu : t.Undisturbed op) :
    t.Safe info op := by
  cases op with
  | writeFetch i k left => exact fun hh => absurd hh (by simp [hu.1])
  | endCheck i k => exact fun v data hv hj => h i v (mem_of_getElem? hv) data hj
  | _ => trivial

/-- A torrent of one piece of one block, which is to hold the byte 1. -/
def oneBlock : Info where
  pieces := 1
  blocks := fun i => if i = 0 then 1 else 0
  verify := fun i _ data => if i = 0 → data = [[1]] then .ok else .bad
  sum := fun d => d.length

def checkFinds : List Op := [.checkRead true, .checkLayer, .checkPiece, .checkEnd]

/-- The block `d` from a peer for a piece begun, written and verified. -/
def peerSends (d : Data) : List Op :=
  [.onPiece 0 7 0 d, .writeBlock 0 0 none, .endWrite 0 0, .startCheck 0 0, .readCheck 0 0 none, .endCheck 0 0]

/-- The block `d` from a web seed, written and verified. -/
def seedSends (d : Data) : List Op :=
  [.beginFetch 0, .fetch 0 0 none, .fetch 0 0 (some fun _ => d), .writeFetch 0 0 none, .endFetch 0 0, .startCheck 0 0,
    .readCheck 0 0 none, .endCheck 0 0]

/-- What a web seed sent fails, and the piece is had from a peer. -/
def seedThenPeer (d : Data) : List Op := checkFinds ++ seedSends [2] ++ .begin 0 :: peerSends d

end Torrent
end Fib.Bittorrent
