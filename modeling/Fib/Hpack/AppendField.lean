import Fib.Hpack.IndexKept
import Fib.Lib.Runs

/-! `AppendField` of an HPACK encoder: it writes the same bytes whether it searches the index of its table or the
entries one by one. How a string is Huffman coded is a parameter. -/

namespace Fib.Hpack
open List Probing

/-- The newest entry with a key, or that there is none. -/
def IsNewest (entries : List HeaderField) (pair : Bool) (name value : Bytes) : Option ℕ → Prop
  | some p => ∃ f, entries[p]? = some f ∧ hasKey pair name value f = true ∧
      ∀ q g, p < q → entries[q]? = some g → hasKey pair name value g = false
  | none => ∀ g ∈ entries, hasKey pair name value g = false

def newestBefore (entries : List HeaderField) (pair : Bool) (name value : Bytes) : ℕ → Option ℕ
  | 0 => none
  | i + 1 =>
    if (entries[i]?).any (hasKey pair name value) then some i else newestBefore entries pair name value i

theorem newestBefore_spec (entries : List HeaderField) (pair : Bool) (name value : Bytes) (i : ℕ) :
    (∀ p, newestBefore entries pair name value i = some p →
      p < i ∧ ∃ f, entries[p]? = some f ∧ hasKey pair name value f = true) ∧
    ∀ q g, q < i → (∀ p, newestBefore entries pair name value i = some p → p < q) → entries[q]? = some g →
      hasKey pair name value g = false := by
  induction i with
  | zero =>
    refine ⟨fun p h => absurd h (Option.some_ne_none p).symm, fun q g hq => absurd hq (Nat.not_lt_zero q)⟩
  | succ i ih =>
    rw [newestBefore]
    by_cases hany : (entries[i]?).any (hasKey pair name value) = true
    · rw [if_pos hany]
      refine ⟨?_, ?_⟩
      · intro p hp
        cases hp
        obtain ⟨f, hf, hkey⟩ := (Option.any_eq_true _ _).1 hany
        exact ⟨Nat.lt_succ_self i, f, hf, hkey⟩
      · intro q g hq hlt
        have := hlt i rfl
        omega
    · rw [if_neg hany]
      refine ⟨?_, ?_⟩
      · intro p hp
        obtain ⟨hlt, hf⟩ := ih.1 p hp
        exact ⟨by omega, hf⟩
      intro q g hq hlt hg
      rcases Nat.lt_succ_iff_lt_or_eq.1 hq with hq | rfl
      · exact ih.2 q g hq hlt hg
      · rw [hg, Option.any_some] at hany
        exact Bool.eq_false_iff.2 hany

theorem isNewest_newestBefore (entries : List HeaderField) (pair : Bool) (name value : Bytes) :
    IsNewest entries pair name value (newestBefore entries pair name value entries.length) := by
  obtain ⟨hfound, hlater⟩ := newestBefore_spec entries pair name value entries.length
  cases h : newestBefore entries pair name value entries.length with
  | none =>
    intro g hmem
    obtain ⟨q, hg⟩ := mem_iff_getElem?.1 hmem
    apply hlater q g (List.getElem?_eq_some_iff.1 hg).1 _ hg
    intro p hp
    exact absurd (h.symm.trans hp) (Option.some_ne_none p).symm
  | some p =>
    obtain ⟨-, f, hf, hkey⟩ := hfound p h
    refine ⟨f, hf, hkey, ?_⟩
    intro q g hpq hg
    apply hlater q g (List.getElem?_eq_some_iff.1 hg).1 _ hg
    intro p' hp'
    rw [← Option.some.inj (h.symm.trans hp')]
    exact hpq

namespace IndexedTable
variable {hash : Bytes → UInt64} {t : IndexedTable} {pair : Bool} {n : ℕ} {slots : ℕ → UInt32}

theorem Indexed.find (h : t.Indexed hash pair n 0 t.entries.length slots) (hroom : t.Room n) (name value : Bytes) :
    t.find n slots (hashKey hash pair ⟨name, value⟩) name value pair =
      some (newestBefore t.entries pair name value t.entries.length) := by
  have hnewest := isNewest_newestBefore t.entries pair name value
  unfold IndexedTable.find
  cases hr : newestBefore t.entries pair name value t.entries.length with
  | some p =>
    rw [hr] at hnewest
    obtain ⟨f, hf, hkey, hlater⟩ := hnewest
    have hp : t.Newest pair t.entries.length p f := by
      refine ⟨hf, lt_length hf, ?_⟩
      intro q g hpq _ hg
      have hno := hlater q g hpq hg
      rw [Bool.eq_false_iff] at hno ⊢
      intro hsame
      -- with the key of an entry that has the key looked for, it would have that
      obtain ⟨hname, hvalue⟩ := hasKey_iff.1 hkey
      obtain ⟨hname', hvalue'⟩ := hasKey_iff.1 hsame
      refine hno (hasKey_iff.2 ⟨hname'.trans hname, ?_⟩)
      rcases hvalue with hpair | hvalue
      · exact Or.inl hpair
      · exact hvalue'.imp_right fun h => h.trans hvalue
    obtain ⟨i, -, hslot, hprobe⟩ := h.probe_found hroom (k := ⟨name, value⟩) hp hkey
    rw [hprobe, Option.map_some, hslot, if_neg (item_ne_zero hash t pair p f),
      slotPos_item hash t pair f ((lt_length hf).trans hroom.ids)]
  | none =>
    rw [hr] at hnewest
    obtain ⟨i, -, hslot, hprobe, -⟩ := h.probe_absent hroom (k := ⟨name, value⟩) (by
      intro p f hp
      exact hnewest f (mem_of_getElem? hp.entry))
    rw [hprobe, Option.map_some, if_pos hslot]

end IndexedTable

/-! ### Fields -/

/-- The bytes of `v` after the first of an integer that it is too large for. -/
def appendIntRest (v : ℕ) : Bytes :=
  if h : v < 128 then [UInt8.ofNat v] else UInt8.ofNat (v % 128 + 128) :: appendIntRest (v / 128)
termination_by v
decreasing_by omega

def appendInt (dst : Bytes) (first n v : ℕ) : Bytes :=
  if v < 2 ^ n - 1 then dst ++ [UInt8.ofNat (first + v)]
  else dst ++ UInt8.ofNat (first + (2 ^ n - 1)) :: appendIntRest (v - (2 ^ n - 1))

def staticPairIndex (f : HeaderField) : Option ℕ := (staticTable.findIdx? fun g => g = f).map (· + 1)

def staticNameIndex (name : Bytes) : ℕ := ((staticTable.findIdx? fun g => g.name = name).map (· + 1)).getD 0

/-- What a search for a field comes to: its index, or one of its name, zero if there is none. -/
inductive Found where
  | pair (index : ℕ)
  | name (index : ℕ)
deriving DecidableEq

/-- The index of the dynamic table's entry at `p`. -/
def indexAt (entries : List HeaderField) (p : ℕ) : ℕ := staticTable.length + entries.length - p

/-- Searching the entries one by one, from the one before `i` down. -/
def scanFrom (entries : List HeaderField) (f : HeaderField) : ℕ → ℕ → Found
  | 0, nameIndex => .name nameIndex
  | i + 1, nameIndex =>
    match entries[i]? with
    | none => scanFrom entries f i nameIndex
    | some g =>
      if g.name ≠ f.name then scanFrom entries f i nameIndex
      else if g.value = f.value then .pair (indexAt entries i)
      else scanFrom entries f i (if nameIndex = 0 then indexAt entries i else nameIndex)

/-- What the newest entries with a field and with its name come to. -/
def foundOf (entries : List HeaderField) (nameIndex : ℕ) : Option ℕ → Option ℕ → Found
  | some p, _ => .pair (indexAt entries p)
  | none, byName => .name (if nameIndex = 0 then (byName.map (indexAt entries)).getD 0 else nameIndex)

theorem scanFrom_eq (entries : List HeaderField) (f : HeaderField) {i : ℕ} (hi : i ≤ entries.length) (nameIndex : ℕ) :
    scanFrom entries f i nameIndex = foundOf entries nameIndex (newestBefore entries true f.name f.value i)
      (newestBefore entries false f.name [] i) := by
  induction i generalizing nameIndex with
  | zero =>
    rw [scanFrom, newestBefore, newestBefore, foundOf]
    split_ifs with h
    · rw [h]
      rfl
    · rfl
  | succ i ih =>
    have hg : entries[i]? = some entries[i] := List.getElem?_eq_getElem (by omega)
    have hpos : indexAt entries i ≠ 0 := by
      unfold indexAt
      omega
    rw [scanFrom, newestBefore, newestBefore, hg]
    simp only [Option.any_some, hasKey]
    by_cases hname : entries[i].name = f.name
    · by_cases hvalue : entries[i].value = f.value
      · simp [hname, hvalue, foundOf]
      simp only [hname, hvalue, ne_eq, not_true_eq_false, if_false, or_false, and_false, decide_false,
        Bool.false_eq_true, true_or, and_true, decide_true, if_true, Bool.true_eq_false]
      rw [ih (by omega)]
      cases newestBefore entries true f.name f.value i with
      | some p => rfl
      | none =>
        by_cases h0 : nameIndex = 0
        · simp [foundOf, h0, hpos]
        · simp [foundOf, h0]
    · simp only [hname, ne_eq, not_false_eq_true, if_true, false_and, decide_false, Bool.false_eq_true, if_false]
      exact ih (by omega) nameIndex

section Coding
variable (huffmanLen : Bytes → ℕ) (huffman : Bytes → Bytes)

def appendString (dst s : Bytes) : Bytes :=
  if huffmanLen s < s.length then appendInt dst 0x80 7 (huffmanLen s) ++ huffman s
  else appendInt dst 0x00 7 s.length ++ s

def indexes (maxSize : ℕ) (f : HeaderField) (sensitive : Bool) : Bool := !sensitive && f.size ≤ maxSize / 2

/-- A field that was not found, its name at `nameIndex` if that is not zero. -/
def appendLiteral (maxSize : ℕ) (dst : Bytes) (f : HeaderField) (sensitive : Bool) (nameIndex : ℕ) : Bytes :=
  let dst :=
    if sensitive then appendInt dst 0x10 4 nameIndex
    else if maxSize / 2 < f.size then appendInt dst 0x00 4 nameIndex
    else appendInt dst 0x40 6 nameIndex
  let dst := if nameIndex = 0 then appendString huffmanLen huffman dst f.name else dst
  appendString huffmanLen huffman dst f.value

def DynamicTable.appendField (d : DynamicTable) (dst : Bytes) (f : HeaderField) (sensitive : Bool) :
    Bytes × DynamicTable :=
  match staticPairIndex f with
  | some i => (appendInt dst 0x80 7 i, d)
  | none =>
    match scanFrom d.entries f d.entries.length (staticNameIndex f.name) with
    | .pair i => (appendInt dst 0x80 7 i, d)
    | .name i =>
      (appendLiteral huffmanLen huffman d.maxSize dst f sensitive i,
        if indexes d.maxSize f sensitive then d.add f else d)

namespace IndexedTable
variable (hash : Bytes → UInt64) (t : IndexedTable)

def searchIndex (x : FieldIndex) (f : HeaderField) (nameIndex : ℕ) : Option Found :=
  match t.find x.n x.pairs (hashPair hash (hashName hash f.name) f.value) f.name f.value true with
  | none => none
  | some (some p) => some (.pair (indexAt t.entries p))
  | some none =>
    if nameIndex = 0 then
      (t.find x.n x.names (hashName hash f.name) f.name [] false).map fun r =>
        .name ((r.map (indexAt t.entries)).getD 0)
    else some (.name nameIndex)

def searched : Option FieldIndex := if indexFrom < t.entries.length then t.index else none

def search (f : HeaderField) (nameIndex : ℕ) : Option Found :=
  match t.searched with
  | some x => t.searchIndex hash x f nameIndex
  | none => some (scanFrom t.entries f t.entries.length nameIndex)

/-- `addIndexed` as `AppendField` calls it: with the hashes if it took them. -/
def addHashed (f : HeaderField) : Option IndexedTable :=
  if t.searched.isSome then
    t.addIndexed hash f (hashName hash f.name) (hashPair hash (hashName hash f.name) f.value) true
  else t.addIndexed hash f 0 0 false

def appendField (dst : Bytes) (f : HeaderField) (sensitive : Bool) : Option (Bytes × IndexedTable) :=
  match staticPairIndex f with
  | some i => some (appendInt dst 0x80 7 i, t)
  | none =>
    match t.search hash f (staticNameIndex f.name) with
    | none => none
    | some (.pair i) => some (appendInt dst 0x80 7 i, t)
    | some (.name i) =>
      (if indexes t.maxSize f sensitive then t.addHashed hash f else some t).map fun t' =>
        (appendLiteral huffmanLen huffman t.maxSize dst f sensitive i, t')

end IndexedTable
end Coding

namespace IndexedTable
variable {hash : Bytes → UInt64} {t : IndexedTable} {x : FieldIndex} (h : Ok hash t)
include h

theorem Ok.room (hx : t.index = some x) : t.Room x.n :=
  room_of_le (h.length_le.trans (Nat.le_succ _)) h.max (h.places x hx)

theorem Ok.find_names (hx : t.index = some x) (name : Bytes) :
    t.find x.n x.names (hashName hash name) name [] false =
      some (newestBefore t.entries false name [] t.entries.length) :=
  (h.both x hx).names.find (h.room hx) name []

theorem Ok.find_pairs (hx : t.index = some x) (name value : Bytes) :
    t.find x.n x.pairs (hashPair hash (hashName hash name) value) name value true =
      some (newestBefore t.entries true name value t.entries.length) :=
  (h.both x hx).pairs.find (h.room hx) name value

theorem Ok.search (f : HeaderField) (nameIndex : ℕ) :
    t.search hash f nameIndex = some (scanFrom t.entries f t.entries.length nameIndex) := by
  unfold IndexedTable.search
  cases hs : t.searched with
  | none => rfl
  | some x =>
    have hx : t.index = some x := by
      unfold searched at hs
      split_ifs at hs
      exact hs
    simp only [searchIndex]
    rw [h.find_pairs hx, h.find_names hx, scanFrom_eq t.entries f le_rfl]
    cases newestBefore t.entries true f.name f.value t.entries.length with
    | some p => rfl
    | none =>
      simp only [foundOf]
      split_ifs <;> rfl

theorem Ok.addHashed (f : HeaderField) :
    ∃ t', t.addHashed hash f = some t' ∧ t'.plain = t.plain.add f ∧ Ok hash t' := by
  unfold IndexedTable.addHashed
  split_ifs
  · exact h.addIndexed f fun _ => ⟨rfl, rfl⟩
  · exact h.addIndexed f fun hhashed => absurd hhashed Bool.false_ne_true

theorem Ok.appendField (huffmanLen : Bytes → ℕ) (huffman : Bytes → Bytes) (dst : Bytes)
    (f : HeaderField) (sensitive : Bool) : ∃ t', t.appendField huffmanLen huffman hash dst f sensitive =
        some ((t.plain.appendField huffmanLen huffman dst f sensitive).1, t') ∧
      t'.plain = (t.plain.appendField huffmanLen huffman dst f sensitive).2 ∧ Ok hash t' := by
  unfold IndexedTable.appendField DynamicTable.appendField
  cases staticPairIndex f with
  | some i => exact ⟨t, rfl, rfl, h⟩
  | none =>
    rw [h.search, show t.plain.entries = t.entries from rfl, show t.plain.maxSize = t.maxSize from rfl]
    cases scanFrom t.entries f t.entries.length (staticNameIndex f.name) with
    | pair i => exact ⟨t, rfl, rfl, h⟩
    | name i =>
      split_ifs
      · obtain ⟨t', ht', hplain, hok⟩ := h.addHashed f
        rw [ht']
        exact ⟨t', rfl, hplain, hok⟩
      · exact ⟨t, rfl, rfl, h⟩

end IndexedTable

/-! ### Runs -/

inductive TableOp where
  | addIndexed (f : HeaderField) (hashed : Bool)
  | evict
  | setMaxSize (n : ℕ)
deriving DecidableEq

namespace TableOp

def apply (hash : Bytes → UInt64) (t : IndexedTable) : TableOp → Option IndexedTable
  | addIndexed f hashed =>
    t.addIndexed hash f (hashName hash f.name) (hashPair hash (hashName hash f.name) f.value) hashed
  | evict => t.evict hash
  | setMaxSize n => t.setMaxSize hash n

def applyPlain (d : DynamicTable) : TableOp → DynamicTable
  | addIndexed f _ => d.add f
  | evict => d.evict
  | setMaxSize n => d.setMaxSize n

/-- An encoder's table from its start; none once a step has no result. -/
def machine (hash : Bytes → UInt64) (maxSize : ℕ) : Machine (Option IndexedTable) TableOp :=
  ⟨some { maxSize := maxSize }, fun t op => t.bind fun t => op.apply hash t⟩

def plainMachine (maxSize : ℕ) : Machine DynamicTable TableOp := ⟨{ maxSize := maxSize }, applyPlain⟩

variable {hash : Bytes → UInt64} {t : IndexedTable}

theorem apply_spec (h : IndexedTable.Ok hash t) (op : TableOp)
    (hop : ∀ n, op = setMaxSize n → n ≤ maxEncoderTableSize) :
    ∃ t', op.apply hash t = some t' ∧ t'.plain = op.applyPlain t.plain ∧ IndexedTable.Ok hash t' := by
  cases op with
  | addIndexed f hashed => exact h.addIndexed f fun _ => ⟨rfl, rfl⟩
  | evict => exact h.evict
  | setMaxSize n => exact h.setMaxSize (hop n rfl)

theorem run_spec (hash : Bytes → UInt64) {maxSize : ℕ} (hmax : maxSize ≤ maxEncoderTableSize) (ops : List TableOp)
    (hops : ∀ n, setMaxSize n ∈ ops → n ≤ maxEncoderTableSize) : ∃ t, (machine hash maxSize).run ops = some t ∧
    t.plain = (plainMachine maxSize).run ops ∧ IndexedTable.Ok hash t := by
  induction ops using List.reverseRecOn with
  | nil =>
    refine ⟨{ maxSize := maxSize }, rfl, rfl, ⟨rfl, Nat.zero_le _⟩, hmax, ?_, ?_⟩
    · intro x hx
      exact absurd hx (Option.some_ne_none x).symm
    · intro x hx
      exact absurd hx (Option.some_ne_none x).symm
  | append_singleton ops op ih =>
    obtain ⟨t, ht, hplain, hok⟩ := ih fun n hn => hops n (mem_append_left _ hn)
    obtain ⟨t', ht', hplain', hok'⟩ := apply_spec hok op (by
      rintro n rfl
      exact hops n (mem_append_right _ (mem_singleton_self _)))
    refine ⟨t', ?_, ?_, hok'⟩
    · rw [Machine.run_snoc, ht]
      exact ht'
    · rw [Machine.run_snoc, ← hplain]
      exact hplain'

end TableOp

/-- Whatever was added, evicted and resized, and whatever the hash function: every step ended and left the entries there
are without an index; the index finds the newest entry with a name and with a name and value, or that there is none; and
`AppendField` ends and writes what it writes searching the entries one by one. -/
theorem index_agrees_with_scan (hash : Bytes → UInt64) (maxSize : ℕ) (hmax : maxSize ≤ maxEncoderTableSize)
    (ops : List TableOp) (hops : ∀ n, TableOp.setMaxSize n ∈ ops → n ≤ maxEncoderTableSize) :
    ∃ t, (TableOp.machine hash maxSize).run ops = some t ∧ t.plain = (TableOp.plainMachine maxSize).run ops ∧
      (∀ x, t.index = some x → ∀ name value,
        (∃ r, t.find x.n x.names (hashName hash name) name [] false = some r ∧ IsNewest t.entries false name [] r) ∧
        ∃ r, t.find x.n x.pairs (hashPair hash (hashName hash name) value) name value true = some r ∧
          IsNewest t.entries true name value r) ∧
      ∀ huffmanLen huffman dst f sensitive,
        ∃ t', t.appendField huffmanLen huffman hash dst f sensitive =
            some ((t.plain.appendField huffmanLen huffman dst f sensitive).1, t') ∧
          t'.plain = (t.plain.appendField huffmanLen huffman dst f sensitive).2 := by
  obtain ⟨t, ht, hplain, hok⟩ := TableOp.run_spec hash hmax ops hops
  refine ⟨t, ht, hplain, ?_, ?_⟩
  · intro x hx name value
    exact ⟨⟨_, hok.find_names hx name, isNewest_newestBefore _ _ _ _⟩,
      ⟨_, hok.find_pairs hx name value, isNewest_newestBefore _ _ _ _⟩⟩
  · intro huffmanLen huffman dst f sensitive
    obtain ⟨t', ht', hplain', -⟩ := hok.appendField huffmanLen huffman dst f sensitive
    exact ⟨t', ht', hplain'⟩

/-- Eighteen fields, past what is searched without an index, and room for three of them then. -/
def manyFields : List TableOp :=
  (List.range 18).map (fun i => .addIndexed ⟨[UInt8.ofNat i], []⟩ false) ++ [.setMaxSize 100]

/-- With every key at one home, every step ends, and three entries are left. -/
theorem colliding_fields_kept : ∃ t, (TableOp.machine (fun _ => 0) 4096).run manyFields = some t ∧
      t.plain.entries = [⟨[15], []⟩, ⟨[16], []⟩, ⟨[17], []⟩] := by
  obtain ⟨t, ht, hplain, -⟩ := index_agrees_with_scan (fun _ => 0) 4096 (by decide) manyFields (by
    intro n hn
    simp only [manyFields, mem_append, mem_map, mem_singleton, TableOp.setMaxSize.injEq, reduceCtorEq,
      and_false, exists_false, false_or] at hn
    rw [hn]
    decide)
  refine ⟨t, ht, ?_⟩
  rw [hplain]
  decide

end Fib.Hpack
