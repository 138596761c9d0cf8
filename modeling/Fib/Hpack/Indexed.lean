import Fib.Hpack.Index

/-! What the index of an encoder's table holds: for each key among the entries one slot, of the newest entry with it,
and in its place in a table with linear probing. -/

namespace Fib.Hpack
open Probing Option Nat
section Keys
variable {hash : Bytes → UInt64} {pair : Bool} {f g k : HeaderField}

theorem hasKey_iff {name value : Bytes} :
    hasKey pair name value f = true ↔ f.name = name ∧ (pair = false ∨ f.value = value) :=
  decide_eq_true_iff

theorem hasKey_self (pair : Bool) (f : HeaderField) : hasKey pair f.name f.value f = true :=
  hasKey_iff.2 ⟨rfl, Or.inr rfl⟩

theorem hasKey_both (hf : hasKey pair k.name k.value f = true) (hg : hasKey pair k.name k.value g = true) :
    hasKey pair f.name f.value g = true := by
  rw [hasKey_iff] at hf hg ⊢
  refine ⟨hg.1.trans hf.1.symm, ?_⟩
  rcases hf.2 with hpair | hf
  · exact Or.inl hpair
  · exact hg.2.imp_right fun hg => hg.trans hf.symm

theorem hashKey_eq (h : hasKey pair k.name k.value f = true) : hashKey hash pair f = hashKey hash pair k := by
  obtain ⟨hname, hvalue⟩ := hasKey_iff.1 h
  unfold hashKey
  cases pair with
  | false => simp [hname]
  | true => simp [hname, hvalue.resolve_left (by simp)]

end Keys

namespace IndexedTable

/-- Of the entries before `hi`, the one at `p` is the newest with its key. -/
structure Newest (t : IndexedTable) (pair : Bool) (hi p : ℕ) (f : HeaderField) : Prop where
  entry : t.entries[p]? = some f
  lt : p < hi
  later : ∀ q g, p < q → q < hi → t.entries[q]? = some g → hasKey pair f.name f.value g = false

section
variable (hash : Bytes → UInt64) (t : IndexedTable) (pair : Bool)

def item (p : ℕ) (f : HeaderField) : UInt32 := slotOf (hashKey hash pair f) (t.first + UInt16.ofNat p)

/-- The slots there are to be, for the entries from `lo` on that are the newest before `hi`. -/
def items (lo hi : ℕ) : Set UInt32 :=
  {s | ∃ p f, lo ≤ p ∧ t.Newest pair hi p f ∧ s = t.item hash pair p f}

def home (n : ℕ) (s : UInt32) : ℕ := (t.homeOf hash n pair s).getD 0

/-- `slots` is the index by one key of those entries. -/
def Indexed (n lo hi : ℕ) (slots : ℕ → UInt32) : Prop :=
  Table n (t.home hash pair n) (t.items hash pair lo hi) slots

end

variable {hash : Bytes → UInt64} {t : IndexedTable} {pair : Bool} {n lo hi p q : ℕ} {f g : HeaderField}
  {slots : ℕ → UInt32}

theorem lt_length (h : t.entries[p]? = some f) : p < t.entries.length := (List.getElem?_eq_some_iff.1 h).1

theorem item_ne_zero (hash : Bytes → UInt64) (t : IndexedTable) (pair : Bool) (p : ℕ) (f : HeaderField) :
    t.item hash pair p f ≠ 0 := slotOf_ne_zero _ _

theorem slotPos_item (hash : Bytes → UInt64) (t : IndexedTable) (pair : Bool) (f : HeaderField) (hp : p < 65536) :
    t.slotPos (t.item hash pair p f) = p := slotPos_slotOf t _ hp

section
variable (hlen : t.entries.length < 65536) (hf : t.entries[p]? = some f)
include hlen hf

theorem homeOf_item : t.homeOf hash n pair (t.item hash pair p f) = some ((hashKey hash pair f).toNat % n) := by
  unfold homeOf
  rw [slotPos_item hash t pair f ((lt_length hf).trans hlen), hf, map_some]

theorem home_item : t.home hash pair n (t.item hash pair p f) = (hashKey hash pair f).toNat % n := by
  rw [home, homeOf_item hlen hf, getD_some]

theorem item_inj (hg : t.entries[q]? = some g) (h : t.item hash pair p f = t.item hash pair q g) : p = q := by
  have hp := slotPos_item hash t pair f ((lt_length hf).trans hlen)
  rw [h, slotPos_item hash t pair g ((lt_length hg).trans hlen)] at hp
  exact hp.symm

end

theorem Newest.unique (hp : t.Newest pair hi p f) (hq : t.Newest pair hi q g)
    (h : hasKey pair f.name f.value g = true) : p = q := by
  have hback : hasKey pair g.name g.value f = true := hasKey_both h (hasKey_self pair f)
  rcases lt_trichotomy p q with hlt | heq | hlt
  · simp [hp.later q g hlt hq.lt hq.entry] at h
  · exact heq
  · simp [hq.later p f hlt hp.lt hp.entry] at hback

/-- There are places enough, and the entries are told apart. -/
structure Room (t : IndexedTable) (n : ℕ) : Prop where
  places : t.entries.length < n
  ids : t.entries.length < 65536

theorem Indexed.exists_empty (h : t.Indexed hash pair n lo hi slots) (hroom : t.Room n) : ∃ e < n, slots e = 0 := by
  classical
  have hcard : ((Finset.range t.entries.length).image fun p =>
      ((t.entries[p]?).map (t.item hash pair p)).getD 0).card < n :=
    lt_of_le_of_lt Finset.card_image_le (by rw [Finset.card_range]; exact hroom.places)
  apply Table.exists_empty h _ hcard
  rintro s ⟨p, f, -, hp, rfl⟩
  refine Finset.mem_image.2 ⟨p, Finset.mem_range.2 (lt_length hp.entry), ?_⟩
  rw [hp.entry, map_some, getD_some]

/-! ### Looking a key up -/

theorem stopAt_item (hlen : t.entries.length < 65536) {i : ℕ} (hf : t.entries[p]? = some f)
    (hi : slots i = t.item hash pair p f) (k : HeaderField) :
    t.stopAt slots (hashKey hash pair k) k.name k.value pair i = some (hasKey pair k.name k.value f) := by
  unfold stopAt
  rw [hi, if_neg (item_ne_zero hash t pair p f), slotPos_item hash t pair f ((lt_length hf).trans hlen), hf,
    map_some, item, slotOf_tag]
  split_ifs with htag
  · -- another tag is another key
    rw [eq_comm, some.injEq]
    by_contra hkey
    exact htag (congrArg (slotOf · 0) (hashKey_eq (Bool.eq_true_of_not_eq_false hkey)))
  · rfl

theorem stopAt_empty {i : ℕ} (hi : slots i = 0) (h : UInt64) (name value : Bytes) :
    t.stopAt slots h name value pair i = some true := if_pos hi

section
variable (h : t.Indexed hash pair n 0 hi slots) (hroom : t.Room n)
include h hroom

theorem Indexed.probe_found {k : HeaderField} (hp : t.Newest pair hi p f) (hkey : hasKey pair k.name k.value f = true) :
    ∃ i < n, slots i = t.item hash pair p f ∧
      probe n (t.stopAt slots (hashKey hash pair k) k.name k.value pair) n ((hashKey hash pair k).toNat % n) =
        some i := by
  have hmem : t.item hash pair p f ∈ t.items hash pair 0 hi := ⟨p, f, zero_le _, hp, rfl⟩
  obtain ⟨i, hin, hslot, hprobe⟩ := Table.probe_item h
    (t.stopAt slots (hashKey hash pair k) k.name k.value pair) hmem
    (by
      intro i _ hi
      rw [stopAt_item hroom.ids hp.entry hi, hkey])
    (by
      intro i hin hi0 hne
      obtain ⟨q, g, -, hq, hi⟩ := h.mem i hin hi0
      rw [stopAt_item hroom.ids hq.entry hi, some.injEq, Bool.eq_false_iff]
      intro hkey'
      obtain rfl := hp.unique hq (hasKey_both hkey hkey')
      obtain rfl := some.inj (hp.entry.symm.trans hq.entry)
      exact hne hi)
  rw [home_item hroom.ids hp.entry, hashKey_eq hkey] at hprobe
  exact ⟨i, hin, hslot, hprobe⟩

theorem Indexed.probe_absent {k : HeaderField}
    (habsent : ∀ p f, t.Newest pair hi p f → hasKey pair k.name k.value f = false) : ∃ i < n, slots i = 0 ∧
      probe n (t.stopAt slots (hashKey hash pair k) k.name k.value pair) n ((hashKey hash pair k).toNat % n) = some i ∧
      ∀ q < n, ahead n ((hashKey hash pair k).toNat % n) q < ahead n ((hashKey hash pair k).toNat % n) i →
        slots q ≠ 0 := by
  have hn : 0 < n := lt_of_le_of_lt (zero_le _) hroom.places
  apply Table.probe_empty _ (mod_lt _ hn) (h.exists_empty hroom)
  · intro i _ hi
    exact stopAt_empty hi _ _ _
  · intro i hin hi0
    obtain ⟨q, g, -, hq, hi⟩ := h.mem i hin hi0
    rw [stopAt_item hroom.ids hq.entry hi, habsent q g hq]

end

/-! ### Linking and unlinking -/

variable {k : ℕ}

theorem newest_succ : t.Newest pair (k + 1) p f ↔ (p = k ∧ t.entries[k]? = some f) ∨
      (t.Newest pair k p f ∧ ∀ g, t.entries[k]? = some g → hasKey pair f.name f.value g = false) := by
  constructor
  · rintro ⟨hf, hlt, hlater⟩
    rcases Nat.lt_succ_iff_lt_or_eq.1 hlt with hlt | rfl
    · refine Or.inr ⟨⟨hf, hlt, fun q g hpq hq => hlater q g hpq (by omega)⟩, ?_⟩
      intro g hg
      exact hlater k g hlt (Nat.lt_succ_self k) hg
    · exact Or.inl ⟨rfl, hf⟩
  rintro (⟨rfl, hf⟩ | ⟨⟨hf, hlt, hlater⟩, hk⟩)
  · exact ⟨hf, Nat.lt_succ_self p, fun q g hpq hq => absurd hq (by omega)⟩
  refine ⟨hf, by omega, ?_⟩
  intro q g hpq hq hg
  rcases Nat.lt_succ_iff_lt_or_eq.1 hq with hq | rfl
  · exact hlater q g hpq hq hg
  · exact hk g hg

theorem items_succ (hf : t.entries[k]? = some f) : t.items hash pair 0 (k + 1) = insert (t.item hash pair k f)
      {s | ∃ p g, t.Newest pair k p g ∧ hasKey pair f.name f.value g = false ∧ s = t.item hash pair p g} := by
  have hsymm : ∀ g : HeaderField, hasKey pair g.name g.value f = false ↔ hasKey pair f.name f.value g = false := by
    intro g
    rw [Bool.eq_false_iff, Bool.eq_false_iff, not_iff_not]
    exact ⟨fun h => hasKey_both h (hasKey_self pair g), fun h => hasKey_both h (hasKey_self pair f)⟩
  ext s
  constructor
  · rintro ⟨p, g, -, hp, rfl⟩
    rcases newest_succ.1 hp with ⟨rfl, hg⟩ | ⟨hp, hk⟩
    · obtain rfl := some.inj (hg.symm.trans hf)
      exact Or.inl rfl
    · exact Or.inr ⟨p, g, hp, (hsymm g).1 (hk f hf), rfl⟩
  rintro (rfl | ⟨p, g, hp, hkey, rfl⟩)
  · exact ⟨k, f, zero_le _, newest_succ.2 (Or.inl ⟨rfl, hf⟩), rfl⟩
  · refine ⟨p, g, zero_le _, newest_succ.2 (Or.inr ⟨hp, ?_⟩), rfl⟩
    intro f' hf'
    obtain rfl := some.inj (hf.symm.trans hf')
    exact (hsymm g).2 hkey

/-- The slot of the next entry put in a place, for that of the entry it has the key of. -/
theorem Indexed.put {i k : ℕ} (h : t.Indexed hash pair n 0 k slots) (hroom : t.Room n) (hf : t.entries[k]? = some f)
    (hin : i < n)
    (hpath : ∀ q < n, ahead n ((hashKey hash pair f).toNat % n) q < ahead n ((hashKey hash pair f).toNat % n) i →
      slots q ≠ 0)
    (hout : ∀ p g, t.Newest pair k p g → (hasKey pair f.name f.value g = true ↔ t.item hash pair p g = slots i)) :
    t.Indexed hash pair n 0 (k + 1) (Function.update slots i (t.item hash pair k f)) := by
  have hhome : t.home hash pair n (t.item hash pair k f) = (hashKey hash pair f).toNat % n := home_item hroom.ids hf
  have hnew : t.item hash pair k f ∉ t.items hash pair 0 k := by
    rintro ⟨p, g, -, hp, heq⟩
    have hkp := item_inj hroom.ids hf hp.entry heq
    exact absurd hp.lt (by omega)
  have hlt : t.home hash pair n (t.item hash pair k f) < n := by
    rw [hhome]
    exact mod_lt _ (by omega)
  rw [← hhome] at hpath
  have hput := Table.put h hin (item_ne_zero hash t pair k f) hnew hlt hpath
  unfold Indexed
  rw [items_succ hf]
  convert hput using 2
  ext s
  constructor
  · rintro ⟨p, g, hp, hkey, rfl⟩
    refine ⟨⟨p, g, zero_le _, hp, rfl⟩, ?_⟩
    intro heq
    exact absurd ((hout p g hp).2 heq) (by simp [hkey])
  rintro ⟨⟨p, g, -, hp, rfl⟩, hne⟩
  refine ⟨p, g, hp, ?_, rfl⟩
  rw [Bool.eq_false_iff]
  intro hkey
  exact hne ((hout p g hp).1 hkey)

theorem Indexed.link (h : t.Indexed hash pair n 0 k slots) (hroom : t.Room n) (hf : t.entries[k]? = some f) :
    ∃ slots', t.link n slots (hashKey hash pair f) k pair = some slots' ∧ t.Indexed hash pair n 0 (k + 1) slots' := by
  unfold IndexedTable.link
  rw [hf]
  simp only
  by_cases hold : ∃ p g, t.Newest pair k p g ∧ hasKey pair f.name f.value g = true
  · obtain ⟨p, g, hp, hkey⟩ := hold
    obtain ⟨i, hin, hslot, hprobe⟩ := h.probe_found hroom hp hkey
    rw [hprobe]
    refine ⟨_, rfl, h.put hroom hf hin ?_ ?_⟩
    · rw [← hashKey_eq hkey, ← home_item hroom.ids hp.entry, ← hslot]
      apply h.chained i hin
      rw [hslot]
      exact item_ne_zero hash t pair p g
    intro q g' hq
    rw [hslot]
    constructor
    · intro hkey'
      obtain rfl := hp.unique hq (hasKey_both hkey hkey')
      rw [some.inj (hp.entry.symm.trans hq.entry)]
    · intro heq
      obtain rfl := item_inj hroom.ids hq.entry hp.entry heq
      rwa [some.inj (hq.entry.symm.trans hp.entry)]
  · have habsent : ∀ p g, t.Newest pair k p g → hasKey pair f.name f.value g = false := by
      intro p g hp
      rw [Bool.eq_false_iff]
      intro hkey
      exact hold ⟨p, g, hp, hkey⟩
    obtain ⟨i, hin, hslot, hprobe, hfirst⟩ := h.probe_absent hroom habsent
    rw [hprobe]
    refine ⟨_, rfl, h.put hroom hf hin hfirst ?_⟩
    intro p g hp
    rw [habsent p g hp, hslot]
    exact ⟨fun h => absurd h Bool.false_ne_true, fun h => absurd h (item_ne_zero hash t pair p g)⟩

theorem Indexed.unlink (h : t.Indexed hash pair n k hi slots) (hroom : t.Room n) (hf : t.entries[k]? = some f) :
    ∃ slots', t.unlink hash n slots (hashKey hash pair f) k pair = some slots' ∧
      t.Indexed hash pair n (k + 1) hi slots' := by
  have hn : 0 < n := lt_of_le_of_lt (zero_le _) hroom.places
  have hpos : ∀ {q g}, t.entries[q]? = some g → t.slotPos (t.item hash pair q g) = q := by
    intro q g hg
    exact slotPos_item hash t pair g ((lt_length hg).trans hroom.ids)
  unfold IndexedTable.unlink
  by_cases hnewest : t.Newest pair hi k f
  · have hmem : t.item hash pair k f ∈ t.items hash pair k hi := ⟨k, f, le_rfl, hnewest, rfl⟩
    obtain ⟨i, hin, hslot, hprobe⟩ := Table.probe_item h
      (fun i => some (decide (slots i = 0 ∨ t.slotPos (slots i) = k))) hmem
      (by
        intro i _ hi
        simp [hi, hpos hf])
      (by
        intro i hin hi0 hne
        obtain ⟨q, g, -, hq, hi⟩ := h.mem i hin hi0
        have hqk : q ≠ k := by
          rintro rfl
          obtain rfl := some.inj (hf.symm.trans hq.entry)
          exact hne hi
        have hqpos := hpos hq.entry
        rw [← hi] at hqpos
        simp [hi0, hqpos, hqk])
    rw [home_item hroom.ids hf] at hprobe
    have hi0 : slots i ≠ 0 := by
      rw [hslot]
      exact item_ne_zero hash t pair k f
    obtain ⟨slots', hmove, htable⟩ := Table.moveBack h hmem hin hslot (h.exists_empty hroom)
      (t.homeOf hash n pair) (by
        rintro b ⟨q, g, -, hq, rfl⟩
        rw [homeOf_item hroom.ids hq.entry, home_item hroom.ids hq.entry])
    rw [hprobe]
    simp only [if_neg hi0]
    refine ⟨slots', hmove, ?_⟩
    unfold Indexed
    convert htable using 1
    ext s
    constructor
    · rintro ⟨q, g, hle, hq, rfl⟩
      refine ⟨⟨q, g, by omega, hq, rfl⟩, ?_⟩
      intro heq
      have := item_inj hroom.ids hq.entry hf heq
      omega
    rintro ⟨⟨q, g, hle, hq, rfl⟩, hne⟩
    refine ⟨q, g, ?_, hq, rfl⟩
    rcases lt_or_eq_of_le hle with hlt | rfl
    · exact hlt
    · obtain rfl := some.inj (hf.symm.trans hq.entry)
      exact absurd rfl hne
  · -- a newer entry has the key, so the entry has no slot
    have hqk : ∀ {q g}, k ≤ q → t.Newest pair hi q g → q ≠ k := by
      rintro q g - hq rfl
      obtain rfl := some.inj (hf.symm.trans hq.entry)
      exact hnewest hq
    obtain ⟨i, hin, hslot, hprobe, -⟩ := Table.probe_empty
      (fun i => some (decide (slots i = 0 ∨ t.slotPos (slots i) = k)))
      (mod_lt (hashKey hash pair f).toNat hn) (h.exists_empty hroom)
      (by
        intro i _ hi
        simp [hi])
      (by
        intro i hin hi0
        obtain ⟨q, g, hle, hq, hi⟩ := h.mem i hin hi0
        have hqpos := hpos hq.entry
        rw [← hi] at hqpos
        simp [hi0, hqpos, hqk hle hq])
    rw [hprobe]
    simp only [if_pos hslot]
    refine ⟨slots, rfl, ?_⟩
    unfold Indexed at h ⊢
    convert h using 1
    ext s
    constructor
    · rintro ⟨q, g, hle, hq, rfl⟩
      exact ⟨q, g, by omega, hq, rfl⟩
    · rintro ⟨q, g, hle, hq, rfl⟩
      have := hqk hle hq
      exact ⟨q, g, by omega, hq, rfl⟩

end IndexedTable
end Fib.Hpack
