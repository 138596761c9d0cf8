import Fib.Hpack.Indexed

/-! The index of an encoder's table stays right as entries are added and evicted and the table is resized, and every
probe of it on the way ends. -/

namespace Fib.Hpack
open UInt16 List Nat Option Probing

namespace IndexedTable

structure Both (hash : Bytes → UInt64) (t : IndexedTable) (lo hi : ℕ) (x : FieldIndex) : Prop where
  names : t.Indexed hash false x.n lo hi x.names
  pairs : t.Indexed hash true x.n lo hi x.pairs

variable {hash : Bytes → UInt64} {t : IndexedTable} {x : FieldIndex} {k lo hi : ℕ} {f : HeaderField}

/-! ### Entries come and go -/

theorem Both.linkBoth (h : Both hash t 0 k x) (hroom : t.Room x.n) (hf : t.entries[k]? = some f) :
    ∃ x', t.linkBoth x (hashName hash f.name) (hashPair hash (hashName hash f.name) f.value) k = some x' ∧
      x'.n = x.n ∧ Both hash t 0 (k + 1) x' := by
  obtain ⟨names, hnames, hn⟩ := h.names.link hroom hf
  obtain ⟨pairs, hpairs, hp⟩ := h.pairs.link hroom hf
  change t.link x.n x.names (hashName hash f.name) k false = some names at hnames
  change t.link x.n x.pairs (hashPair hash (hashName hash f.name) f.value) k true = some pairs at hpairs
  refine ⟨⟨x.n, pairs, names⟩, ?_, rfl, hn, hp⟩
  unfold IndexedTable.linkBoth
  rw [hnames, hpairs]

theorem Both.unlinkBoth (h : Both hash t k hi x) (hroom : t.Room x.n) (hf : t.entries[k]? = some f) :
    ∃ x', t.unlinkBoth hash x k = some x' ∧ x'.n = x.n ∧ Both hash t (k + 1) hi x' := by
  obtain ⟨names, hnames, hn⟩ := h.names.unlink hroom hf
  obtain ⟨pairs, hpairs, hp⟩ := h.pairs.unlink hroom hf
  change t.unlink hash x.n x.names (hashName hash f.name) k false = some names at hnames
  change t.unlink hash x.n x.pairs (hashPair hash (hashName hash f.name) f.value) k true = some pairs at hpairs
  refine ⟨⟨x.n, pairs, names⟩, ?_, rfl, hn, hp⟩
  unfold IndexedTable.unlinkBoth
  rw [hf]
  simp only
  rw [hnames, hpairs]

theorem both_empty (hash : Bytes → UInt64) (t : IndexedTable) (n : ℕ) :
    Both hash t 0 0 ⟨n, fun _ => 0, fun _ => 0⟩ := by
  have hnone : ∀ pair, t.items hash pair 0 0 = ∅ := by
    intro pair
    rw [Set.eq_empty_iff_forall_notMem]
    rintro s ⟨p, f, -, hp, -⟩
    exact absurd hp.lt (not_lt_zero p)
  constructor <;> (unfold Indexed; rw [hnone]; exact Table.empty _ _)

theorem linkAll_spec (hash : Bytes → UInt64) (hroom : t.Room (newFieldIndex t.maxSize).n) (hk : k ≤ t.entries.length) :
    ∃ x, t.linkAll hash (newFieldIndex t.maxSize) k = some x ∧ x.n = (newFieldIndex t.maxSize).n ∧
      Both hash t 0 k x := by
  induction k with
  | zero => exact ⟨_, rfl, rfl, both_empty hash t _⟩
  | succ k ih =>
    obtain ⟨x, hx, hn, hboth⟩ := ih (by omega)
    have hf : t.entries[k]? = some t.entries[k] := getElem?_eq_getElem (by omega)
    rw [← hn] at hroom
    obtain ⟨x', hx', hn', hboth'⟩ := hboth.linkBoth hroom hf
    refine ⟨x', ?_, hn'.trans hn, hboth'⟩
    rw [linkAll, hx, hf]
    exact hx'

theorem Both.unindex (h : Both hash t 0 hi x) (hroom : t.Room x.n) (hk : k ≤ t.entries.length) :
    ∃ x', t.unindex hash x k = some x' ∧ x'.n = x.n ∧ Both hash t k hi x' := by
  induction k with
  | zero => exact ⟨x, rfl, rfl, h⟩
  | succ k ih =>
    obtain ⟨x', hx, hn, hboth⟩ := ih (by omega)
    have hf : t.entries[k]? = some t.entries[k] := getElem?_eq_getElem (by omega)
    rw [← hn] at hroom
    obtain ⟨x'', hx', hn', hboth'⟩ := hboth.unlinkBoth hroom hf
    refine ⟨x'', ?_, hn'.trans hn, hboth'⟩
    rw [IndexedTable.unindex, hx]
    exact hx'

variable {t' : IndexedTable}

/-- The slots are those of a table whose entries are the same, but for the oldest `k` of them, which have none. -/
theorem Indexed.moved {pair : Bool} {n : ℕ} {slots : ℕ → UInt32}
    (h : t.Indexed hash pair n k hi slots) (hlen : t.entries.length < 65536) (hlen' : t'.entries.length < 65536)
    (hget : ∀ q, k + q < hi → t'.entries[q]? = t.entries[k + q]?) (hfirst : t'.first = t.first + ofNat k) :
    t'.Indexed hash pair n 0 (hi - k) slots := by
  have hitem : ∀ q g, t'.item hash pair q g = t.item hash pair (k + q) g := by
    intro q g
    unfold item
    rw [hfirst, ofNat_add, add_assoc]
  have hnewest : ∀ q g, t'.Newest pair (hi - k) q g ↔ t.Newest pair hi (k + q) g := by
    intro q g
    constructor
    · rintro ⟨hg, hlt, hlater⟩
      refine ⟨(hget q (by omega)).symm.trans hg, by omega, ?_⟩
      intro r g' hqr hr hg'
      obtain ⟨r, rfl⟩ := Nat.exists_eq_add_of_le (show k ≤ r by omega)
      exact hlater r g' (by omega) (by omega) ((hget r hr).trans hg')
    rintro ⟨hg, hlt, hlater⟩
    refine ⟨(hget q hlt).trans hg, by omega, ?_⟩
    intro r g' hqr hr hg'
    have hr' : k + r < hi := by omega
    exact hlater (k + r) g' (by omega) hr' ((hget r hr').symm.trans hg')
  have hitems : t'.items hash pair 0 (hi - k) = t.items hash pair k hi := by
    ext s
    constructor
    · rintro ⟨q, g, -, hq, rfl⟩
      exact ⟨k + q, g, Nat.le_add_right k q, (hnewest q g).1 hq, hitem q g⟩
    · rintro ⟨p, g, hle, hp, rfl⟩
      obtain ⟨q, rfl⟩ := Nat.exists_eq_add_of_le hle
      exact ⟨q, g, Nat.zero_le _, (hnewest q g).2 hp, (hitem q g).symm⟩
  unfold Indexed
  rw [hitems]
  apply Table.congr_home h
  rintro s ⟨p, g, hle, hp, rfl⟩
  obtain ⟨q, rfl⟩ := Nat.exists_eq_add_of_le hle
  rw [home_item hlen hp.entry, ← hitem]
  exact home_item hlen' ((hget q hp.lt).trans hp.entry)

theorem Both.moved (h : Both hash t k hi x) (hlen : t.entries.length < 65536)
    (hlen' : t'.entries.length < 65536) (hget : ∀ q, k + q < hi → t'.entries[q]? = t.entries[k + q]?)
    (hfirst : t'.first = t.first + ofNat k) : Both hash t' 0 (hi - k) x :=
  ⟨h.names.moved hlen hlen' hget hfirst, h.pairs.moved hlen hlen' hget hfirst⟩

theorem Both.same (h : Both hash t 0 hi x) (hlen : t.entries.length < 65536)
    (hentries : t'.entries = t.entries) (hfirst : t'.first = t.first) : Both hash t' 0 hi x := by
  apply h.moved hlen (by rwa [hentries])
  · intro q _
    rw [hentries, zero_add]
  · rw [hfirst]
    exact (add_zero _).symm

theorem Both.push (h : Both hash t 0 t.entries.length x) (hlen : t.entries.length + 1 < 65536) (f : HeaderField) :
    Both hash (t.push f) 0 t.entries.length x := by
  apply h.moved (by omega)
  · exact length_append.trans_lt hlen
  · intro q hq
    rw [zero_add] at hq ⊢
    exact getElem?_append_left hq
  · exact (add_zero _).symm

theorem Both.dropped (h : Both hash t k t.entries.length x) (hlen : t.entries.length < 65536) (size : ℕ)
    (y : Option FieldIndex) : Both hash (t.dropped k size y) 0 (t.entries.length - k) x := by
  apply h.moved hlen
  · exact (length_drop.trans_le (sub_le _ _)).trans_lt hlen
  · intro q _
    exact getElem?_drop
  · rfl

/-! ### Sizes -/

theorem evicted_eq (maxSize size : ℕ) (es : List HeaderField) :
    DynamicTable.evictFrom maxSize size es = ((evicted maxSize size es).2, es.drop (evicted maxSize size es).1) ∧
      (evicted maxSize size es).1 ≤ es.length := by
  induction es generalizing size with
  | nil => exact ⟨rfl, le_rfl⟩
  | cons f fs ih =>
    rw [DynamicTable.evictFrom, evicted]
    split_ifs
    · obtain ⟨heq, hle⟩ := ih (size - f.size)
      exact ⟨heq, succ_le_succ hle⟩
    · exact ⟨rfl, zero_le _⟩

theorem evicted_zero {maxSize size : ℕ} {es : List HeaderField} (h : (evicted maxSize size es).1 = 0) :
    (evicted maxSize size es).2 = size := by
  cases es with
  | nil => rfl
  | cons f fs =>
    rw [evicted] at h ⊢
    by_cases hlt : maxSize < size
    · rw [if_pos hlt] at h
      exact absurd h (succ_ne_zero _)
    · rw [if_neg hlt]

end IndexedTable

namespace DynamicTable

structure Fits (d : DynamicTable) : Prop where
  size : d.size = (d.entries.map HeaderField.size).sum
  le : d.size ≤ d.maxSize

theorem evictFrom_fits (maxSize : ℕ) (es : List HeaderField) :
    (evictFrom maxSize (es.map HeaderField.size).sum es).1 =
        ((evictFrom maxSize (es.map HeaderField.size).sum es).2.map HeaderField.size).sum ∧
      (evictFrom maxSize (es.map HeaderField.size).sum es).1 ≤ maxSize := by
  induction es with
  | nil => exact ⟨rfl, Nat.zero_le _⟩
  | cons f fs ih =>
    rw [evictFrom]
    split_ifs with hlt
    · rw [map_cons, sum_cons, Nat.add_sub_cancel_left]
      exact ih
    · exact ⟨rfl, Nat.le_of_not_lt hlt⟩

variable {d : DynamicTable}

theorem evict_fits (h : d.size = (d.entries.map HeaderField.size).sum) : d.evict.Fits := by
  obtain ⟨hsize, hle⟩ := evictFrom_fits d.maxSize d.entries
  rw [← h] at hsize hle
  exact ⟨hsize, hle⟩

theorem Fits.length_le (h : d.Fits) : d.entries.length ≤ d.maxSize / 32 := by
  have hcount : ∀ es : List HeaderField, 32 * es.length ≤ (es.map HeaderField.size).sum := by
    intro es
    induction es with
    | nil => exact le_rfl
    | cons f fs ih =>
      rw [map_cons, sum_cons, length_cons, HeaderField.size]
      omega
  have hlen := hcount d.entries
  have hsize := h.size
  have hle := h.le
  omega

end DynamicTable

namespace IndexedTable
variable {hash : Bytes → UInt64} {t : IndexedTable} {x : FieldIndex} {f : HeaderField}

/-- The table keeps to its size, and its index, if there is one, is right and has room. -/
structure Ok (hash : Bytes → UInt64) (t : IndexedTable) : Prop where
  fits : t.plain.Fits
  max : t.maxSize ≤ maxEncoderTableSize
  places : ∀ x, t.index = some x → 32 ≤ x.n ∧ 2 * (t.maxSize / 32) ≤ x.n
  both : ∀ x, t.index = some x → Both hash t 0 t.entries.length x

/-- There is room for one entry more than the table may have: an entry is linked before the oldest go. -/
theorem room_of_le {n maxSize : ℕ} (hlen : t.entries.length ≤ maxSize / 32 + 1) (hmax : maxSize ≤ maxEncoderTableSize)
    (hn : 32 ≤ n ∧ 2 * (maxSize / 32) ≤ n) : t.Room n := by
  have hbound : maxSize / 32 ≤ 32768 := by
    unfold maxEncoderTableSize at hmax
    omega
  constructor <;> omega

theorem Ok.length_le (h : Ok hash t) : t.entries.length ≤ t.maxSize / 32 := h.fits.length_le

theorem evict_spec (hash : Bytes → UInt64) (t : IndexedTable)
    (h : ∀ x, t.index = some x → t.Room x.n ∧ Both hash t 0 t.entries.length x) :
    ∃ t', evict hash t = some t' ∧ t'.plain = t.plain.evict ∧
      ∀ x', t'.index = some x' → (∃ x, t.index = some x ∧ x'.n = x.n) ∧ Both hash t' 0 t'.entries.length x' := by
  obtain ⟨heq, hle⟩ := evicted_eq t.maxSize t.size t.entries
  have hplain : t.plain.evict = ⟨t.entries.drop (evicted t.maxSize t.size t.entries).1,
      (evicted t.maxSize t.size t.entries).2, t.maxSize⟩ := by
    unfold DynamicTable.evict IndexedTable.plain
    simp only [heq]
  unfold evict
  simp only
  by_cases hk : (evicted t.maxSize t.size t.entries).1 = 0
  · rw [if_pos hk]
    refine ⟨t, rfl, ?_, ?_⟩
    · rw [hplain, hk, evicted_zero hk, drop_zero]
      rfl
    · intro x hx
      exact ⟨⟨x, hx, rfl⟩, (h x hx).2⟩
  rw [if_neg hk]
  cases hx : t.index with
  | none =>
    refine ⟨_, rfl, hplain.symm, ?_⟩
    intro x' hx'
    exact absurd hx' (some_ne_none x').symm
  | some x =>
    obtain ⟨hroom, hboth⟩ := h x hx
    obtain ⟨x', hun, hn, hboth'⟩ := hboth.unindex hroom hle
    simp only [hun, map_some]
    refine ⟨_, rfl, hplain.symm, ?_⟩
    intro y hy
    cases hy
    refine ⟨⟨x, rfl, hn⟩, ?_⟩
    rw [show (t.dropped (evicted t.maxSize t.size t.entries).1 (evicted t.maxSize t.size t.entries).2
      (some x')).entries.length = t.entries.length - (evicted t.maxSize t.size t.entries).1 from length_drop]
    exact hboth'.dropped hroom.ids _ _

theorem Ok.evict (h : Ok hash t) : ∃ t', t.evict hash = some t' ∧ t'.plain = t.plain.evict ∧ Ok hash t' := by
  obtain ⟨t', ht', hplain, hindex⟩ := evict_spec hash t (by
    intro x hx
    exact ⟨room_of_le (h.length_le.trans (le_succ _)) h.max (h.places x hx), h.both x hx⟩)
  have hmax : t'.maxSize = t.maxSize := congrArg DynamicTable.maxSize hplain
  refine ⟨t', ht', hplain, ?_, by rw [hmax]; exact h.max, ?_, fun x hx => (hindex x hx).2⟩
  · rw [hplain]
    exact DynamicTable.evict_fits h.fits.size
  · intro x' hx'
    obtain ⟨⟨x, hx, hn⟩, -⟩ := hindex x' hx'
    rw [hn, hmax]
    exact h.places x hx

theorem Ok.setMaxSize (h : Ok hash t) {n : ℕ} (hn : n ≤ maxEncoderTableSize) :
    ∃ t', t.setMaxSize hash n = some t' ∧ t'.plain = t.plain.setMaxSize n ∧ Ok hash t' := by
  obtain ⟨t', ht', hplain, hindex⟩ := evict_spec hash { t with maxSize := n } (by
    intro x hx
    have hroom : t.Room x.n := room_of_le (h.length_le.trans (le_succ _)) h.max (h.places x hx)
    exact ⟨⟨hroom.places, hroom.ids⟩, (h.both x hx).same hroom.ids rfl rfl⟩)
  have hmax : t'.maxSize = n := congrArg DynamicTable.maxSize hplain
  have hfits : t'.plain.Fits := by
    rw [hplain]
    exact DynamicTable.evict_fits h.fits.size
  have hlen' : t'.entries.length < 65536 := by
    have hle : t'.entries.length ≤ t'.maxSize / 32 := hfits.length_le
    unfold maxEncoderTableSize at hn
    omega
  refine ⟨t'.fitIndex, ?_, hplain, ?_, ?_, ?_, ?_⟩
  · unfold IndexedTable.setMaxSize
    rw [ht', map_some]
  · exact hfits
  · change t'.maxSize ≤ _
    rwa [hmax]
  · intro x' hx'
    obtain ⟨hx', hfits⟩ := filter_eq_some_iff.1 hx'
    obtain ⟨⟨x, hx, hxn⟩, -⟩ := hindex x' hx'
    exact ⟨by rw [hxn]; exact (h.places x hx).1, of_decide_eq_true hfits⟩
  · intro x' hx'
    obtain ⟨hx', -⟩ := filter_eq_some_iff.1 hx'
    exact (hindex x' hx').2.same hlen' rfl rfl

variable {nameHash pairHash : UInt64} {hashed : Bool}

theorem Ok.indexLast (h : Ok hash t) (f : HeaderField) (hhash : hashed = true → nameHash = hashName hash f.name ∧
      pairHash = hashPair hash (hashName hash f.name) f.value) :
    ∃ t', (t.push f).indexLast hash f nameHash pairHash hashed = some t' ∧ t'.plain = (t.push f).plain ∧
      ∀ x, t'.index = some x →
        (32 ≤ x.n ∧ 2 * (t.maxSize / 32) ≤ x.n) ∧ t'.Room x.n ∧ Both hash t' 0 t'.entries.length x := by
  have hlen : (t.push f).entries.length = t.entries.length + 1 := length_append
  have hle : (t.push f).entries.length ≤ t.maxSize / 32 + 1 := by
    have := h.length_le
    omega
  have hroom : ∀ {n}, (32 ≤ n ∧ 2 * (t.maxSize / 32) ≤ n) → (t.push f).Room n := fun hn => room_of_le hle h.max hn
  have hnew : 32 ≤ (newFieldIndex t.maxSize).n ∧ 2 * (t.maxSize / 32) ≤ (newFieldIndex t.maxSize).n :=
    ⟨newFieldIndex_n t.maxSize, of_decide_eq_true (newFieldIndex_fits t.maxSize)⟩
  unfold IndexedTable.indexLast
  cases hx : (t.push f).index with
  | none =>
    simp only
    split_ifs
    · obtain ⟨x, hlink, hn, hboth⟩ := linkAll_spec hash (hroom hnew) le_rfl
      rw [show (t.push f).maxSize = t.maxSize from rfl] at hlink hn
      rw [show (t.push f).maxSize = t.maxSize from rfl, hlink, map_some]
      refine ⟨_, rfl, rfl, ?_⟩
      intro y hy
      cases hy
      rw [← hn] at hnew
      exact ⟨hnew, ⟨(hroom hnew).places, (hroom hnew).ids⟩, hboth.same (hroom hnew).ids rfl rfl⟩
    · refine ⟨_, rfl, rfl, ?_⟩
      intro y hy
      rw [hx] at hy
      exact absurd hy (some_ne_none y).symm
  | some x =>
    have hplaces := h.places x hx
    have hboth := h.both x hx
    have hids : t.entries.length + 1 < 65536 := by
      rw [← hlen]
      exact (hroom hplaces).ids
    have hlast : (t.push f).entries[t.entries.length]? = some f := getElem?_concat_length
    obtain ⟨x', hlink, hn, hboth'⟩ := Both.linkBoth (hboth.push hids f) (hroom hplaces) hlast
    have hnames : (if hashed then nameHash else hashName hash f.name) = hashName hash f.name := by
      cases hashed with
      | false => rfl
      | true => exact (hhash rfl).1
    have hpairs : (if hashed then pairHash else hashPair hash (hashName hash f.name) f.value) =
        hashPair hash (hashName hash f.name) f.value := by
      cases hashed with
      | false => rfl
      | true => exact (hhash rfl).2
    simp only
    rw [hnames, hpairs, hlen, Nat.add_sub_cancel, hlink, map_some]
    refine ⟨_, rfl, rfl, ?_⟩
    intro y hy
    cases hy
    rw [← hn] at hplaces
    refine ⟨hplaces, ⟨(hroom hplaces).places, (hroom hplaces).ids⟩, ?_⟩
    rw [show ((t.push f).setIndex x').entries.length = t.entries.length + 1 from hlen]
    exact hboth'.same (hroom hplaces).ids rfl rfl

theorem Ok.addIndexed (h : Ok hash t) (f : HeaderField) (hhash : hashed = true → nameHash = hashName hash f.name ∧
      pairHash = hashPair hash (hashName hash f.name) f.value) :
    ∃ t', t.addIndexed hash f nameHash pairHash hashed = some t' ∧ t'.plain = t.plain.add f ∧ Ok hash t' := by
  obtain ⟨u, hu, huplain, huindex⟩ := h.indexLast f hhash
  obtain ⟨t', ht', hplain, hindex⟩ := evict_spec hash u (fun x hx => (huindex x hx).2)
  have hadd : t'.plain = t.plain.add f := by
    rw [hplain, huplain]
    rfl
  have hmax : t'.maxSize = t.maxSize := congrArg DynamicTable.maxSize hadd
  refine ⟨t', ?_, hadd, ?_, by rw [hmax]; exact h.max, ?_, fun x hx => (hindex x hx).2⟩
  · unfold IndexedTable.addIndexed
    rw [hu]
    exact ht'
  · rw [hadd]
    apply DynamicTable.evict_fits
    have hsize : t.size = (t.entries.map HeaderField.size).sum := h.fits.size
    simp [IndexedTable.plain, hsize]
  · intro x' hx'
    obtain ⟨⟨x, hx, hn⟩, -⟩ := hindex x' hx'
    rw [hn, hmax]
    exact (huindex x hx).1

end IndexedTable
end Fib.Hpack
