import Mathlib
import Fib.Hpack.Decoder
import Fib.Lib.Probing

/-! The index an HPACK encoder keeps of its dynamic table (hpack/index.go): two hash tables with linear probing, one by
name and one by name and value. The hash of a string is a parameter. Where the source would run past a slice or probe
without end, there is no result. -/

namespace Fib.Hpack
open Nat Probing

def maxEncoderTableSize : ℕ := 2 ^ 20
def slotUsed : UInt32 := 0x80000000
def slotTag : UInt32 := 0xffff0000

/-- The number of entries past which the encoder looks fields up in the index. -/
def indexFrom : ℕ := 16

/-- `n` places in each table, a power of two; a place is empty when zero. -/
structure FieldIndex where
  n : ℕ
  pairs : ℕ → UInt32
  names : ℕ → UInt32

/-- The loop of `newFieldIndex`, of at most `fuel` turns. -/
def doubled (need : ℕ) : ℕ → ℕ → ℕ
  | 0, n => n
  | fuel + 1, n => if n < need then doubled need fuel (n * 2) else n

def newFieldIndex (maxSize : ℕ) : FieldIndex :=
  ⟨doubled (2 * (maxSize / 32)) (2 * (maxSize / 32)) 32, fun _ => 0, fun _ => 0⟩

def FieldIndex.fits (x : FieldIndex) (maxSize : ℕ) : Bool := 2 * (maxSize / 32) ≤ x.n

def slotOf (h : UInt64) (id : UInt16) : UInt32 := slotUsed ||| (h >>> 49).toUInt32 <<< 16 ||| id.toUInt32

/-- An encoder's dynamic table; `first` is how many entries were evicted, modulo 65536. -/
structure IndexedTable where
  entries : List HeaderField := []
  size : ℕ := 0
  maxSize : ℕ
  first : UInt16 := 0
  index : Option FieldIndex := none

/-- The table's own part, without its index. -/
def IndexedTable.plain (t : IndexedTable) : DynamicTable := ⟨t.entries, t.size, t.maxSize⟩

section
variable (hash : Bytes → UInt64)

def hashName (name : Bytes) : UInt64 := hash name

def hashPair (nameHash : UInt64) (value : Bytes) : UInt64 := nameHash ^^^ hash value * 0x9e3779b97f4a7c15

/-- The hash of a field's key: its name, with its value if `pair`. -/
def hashKey (pair : Bool) (f : HeaderField) : UInt64 :=
  if pair then hashPair hash (hashName hash f.name) f.value else hashName hash f.name

end

def hasKey (pair : Bool) (name value : Bytes) (f : HeaderField) : Bool :=
  f.name = name ∧ (pair = false ∨ f.value = value)

namespace IndexedTable
section
variable (t : IndexedTable)

def slotPos (s : UInt32) : ℕ := (s.toUInt16 - t.first).toNat

/-- Where `find` and `link` end: at an empty place, or at one whose entry has the key. -/
def stopAt (slots : ℕ → UInt32) (h : UInt64) (name value : Bytes) (pair : Bool) (i : ℕ) : Option Bool :=
  if slots i = 0 then some true
  else if slots i &&& slotTag ≠ slotOf h 0 then some false
  else (t.entries[t.slotPos (slots i)]?).map (hasKey pair name value)

/-- The position of the newest entry with a key; the inner `none` is the source's -1. -/
def find (n : ℕ) (slots : ℕ → UInt32) (h : UInt64) (name value : Bytes) (pair : Bool) : Option (Option ℕ) :=
  (probe n (t.stopAt slots h name value pair) n (h.toNat % n)).map fun i =>
    if slots i = 0 then none else some (t.slotPos (slots i))

/-- The key of the entry at `p`, the newest, points at it. -/
def link (n : ℕ) (slots : ℕ → UInt32) (h : UInt64) (p : ℕ) (pair : Bool) : Option (ℕ → UInt32) :=
  match t.entries[p]? with
  | none => none
  | some f =>
    (probe n (t.stopAt slots h f.name f.value pair) n (h.toNat % n)).map fun i =>
      Function.update slots i (slotOf h (t.first + UInt16.ofNat p))

end

variable (hash : Bytes → UInt64) (t : IndexedTable) (x : FieldIndex)

def homeOf (n : ℕ) (pair : Bool) (s : UInt32) : Option ℕ :=
  (t.entries[t.slotPos s]?).map fun f => (hashKey hash pair f).toNat % n

/-- The key of the entry at `p`, which is leaving, is dropped if it still points at it. -/
def unlink (n : ℕ) (slots : ℕ → UInt32) (h : UInt64) (p : ℕ) (pair : Bool) : Option (ℕ → UInt32) :=
  match probe n (fun i => some (decide (slots i = 0 ∨ t.slotPos (slots i) = p))) n (h.toNat % n) with
  | none => none
  | some hole =>
    if slots hole = 0 then some slots
    else moveBack n (t.homeOf hash n pair) n hole ((hole + 1) % n) slots

def linkBoth (nameHash pairHash : UInt64) (p : ℕ) : Option FieldIndex :=
  match t.link x.n x.names nameHash p false, t.link x.n x.pairs pairHash p true with
  | some names, some pairs => some ⟨x.n, pairs, names⟩
  | _, _ => none

def unlinkBoth (p : ℕ) : Option FieldIndex :=
  match t.entries[p]? with
  | none => none
  | some f =>
    match t.unlink hash x.n x.names (hashName hash f.name) p false,
      t.unlink hash x.n x.pairs (hashPair hash (hashName hash f.name) f.value) p true with
    | some names, some pairs => some ⟨x.n, pairs, names⟩
    | _, _ => none

def linkAll (t : IndexedTable) (x : FieldIndex) : ℕ → Option FieldIndex
  | 0 => some x
  | k + 1 =>
    match linkAll t x k, t.entries[k]? with
    | some x, some f => t.linkBoth x (hashName hash f.name) (hashPair hash (hashName hash f.name) f.value) k
    | _, _ => none

/-- The oldest `k` entries, about to be evicted, dropped from the index. -/
def unindex (t : IndexedTable) (x : FieldIndex) : ℕ → Option FieldIndex
  | 0 => some x
  | k + 1 =>
    match unindex t x k with
    | none => none
    | some x => t.unlinkBoth hash x k

/-- The loop of `evict`: how many entries go, and the size left. -/
def evicted (maxSize : ℕ) : ℕ → List HeaderField → ℕ × ℕ
  | size, [] => (0, size)
  | size, f :: fs =>
    if maxSize < size then ((evicted maxSize (size - f.size) fs).1 + 1, (evicted maxSize (size - f.size) fs).2)
    else (0, size)

/-- The oldest `k` entries leave, and `x` is the index then. -/
def dropped (k size : ℕ) (x : Option FieldIndex) : IndexedTable :=
  ⟨t.entries.drop k, size, t.maxSize, t.first + UInt16.ofNat k, x⟩

def evict : Option IndexedTable :=
  let (k, size) := evicted t.maxSize t.size t.entries
  if k = 0 then some t
  else
    match t.index with
    | none => some (t.dropped k size none)
    | some x => (t.unindex hash x k).map fun x => t.dropped k size (some x)

/-- An index that does not fit is made afresh at the next entry. -/
def fitIndex : IndexedTable :=
  { t with index := t.index.filter fun x => x.fits t.maxSize }

def setMaxSize (n : ℕ) : Option IndexedTable :=
  (evict hash { t with maxSize := n }).map fitIndex

def push (f : HeaderField) : IndexedTable :=
  { t with size := t.size + f.size, entries := t.entries ++ [f] }

def setIndex : IndexedTable := { t with index := some x }

/-- The entry added last is indexed, or the whole table once it is large. -/
def indexLast (f : HeaderField) (nameHash pairHash : UInt64) (hashed : Bool) : Option IndexedTable :=
  match t.index with
  | some x =>
    let nameHash := if hashed then nameHash else hashName hash f.name
    let pairHash := if hashed then pairHash else hashPair hash nameHash f.value
    (t.linkBoth x nameHash pairHash (t.entries.length - 1)).map t.setIndex
  | none =>
    if indexFrom < t.entries.length then
      (t.linkAll hash (newFieldIndex t.maxSize) t.entries.length).map t.setIndex
    else some t

def addIndexed (f : HeaderField) (nameHash pairHash : UInt64) (hashed : Bool) : Option IndexedTable :=
  ((t.push f).indexLast hash f nameHash pairHash hashed).bind (evict hash)

end IndexedTable

/-! ### Slots -/

theorem slotOf_toNat (h : UInt64) (id : UInt16) :
    (slotOf h id).toNat = 2 ^ 16 * (2 ^ 15 + h.toNat / 2 ^ 49) + id.toNat := by
  have hh := h.toNat_lt
  have hid := id.toNat_lt
  have htag : ((h >>> 49).toUInt32 <<< 16).toNat = 2 ^ 16 * (h.toNat / 2 ^ 49) := by
    rw [UInt32.toNat_shiftLeft, UInt64.toNat_toUInt32, UInt64.toNat_shiftRight]
    simp only [show (49 : UInt64).toNat % 64 = 49 from rfl, show (16 : UInt32).toNat % 32 = 16 from rfl,
      shiftRight_eq_div_pow, shiftLeft_eq]
    omega
  have hused : slotUsed.toNat = 2 ^ 31 * 1 := rfl
  unfold slotOf
  rw [UInt32.toNat_or, UInt32.toNat_or, htag, UInt16.toNat_toUInt32, hused, ← two_pow_add_eq_or_of_lt (by omega),
    show 2 ^ 31 * 1 + 2 ^ 16 * (h.toNat / 2 ^ 49) = 2 ^ 16 * (2 ^ 15 + h.toNat / 2 ^ 49) by omega,
    ← two_pow_add_eq_or_of_lt (by omega)]

theorem slotOf_ne_zero (h : UInt64) (id : UInt16) : slotOf h id ≠ 0 := by
  intro h0
  have hn := slotOf_toNat h id
  rw [h0, UInt32.toNat_zero] at hn
  omega

theorem and_slotTag (s : UInt32) : (s &&& slotTag).toNat = 2 ^ 16 * (s.toNat / 2 ^ 16) := by
  rw [UInt32.toNat_and, show slotTag.toNat = 2 ^ 16 * (2 ^ 16 - 1) from rfl]
  apply Nat.eq_of_testBit_eq
  intro i
  rw [Nat.testBit_and, Nat.testBit_two_pow_mul, Nat.testBit_two_pow_mul, Nat.testBit_two_pow_sub_one,
    Nat.testBit_div_two_pow]
  by_cases hi : 16 ≤ i
  · rw [Nat.sub_add_cancel hi]
    by_cases hlt : i - 16 < 16
    · simp [hi, hlt]
    · have hbit : s.toNat.testBit i = false :=
        Nat.testBit_lt_two_pow (lt_of_lt_of_le s.toNat_lt (Nat.pow_le_pow_right (by omega) (by omega)))
      simp [hbit]
  · simp [hi]

theorem slotOf_tag (h : UInt64) (id : UInt16) : slotOf h id &&& slotTag = slotOf h 0 := by
  have hid := id.toNat_lt
  apply UInt32.toNat_inj.1
  rw [and_slotTag, slotOf_toNat, slotOf_toNat, UInt16.toNat_zero]
  omega

theorem slotOf_id (h : UInt64) (id : UInt16) : (slotOf h id).toUInt16 = id := by
  have hid := id.toNat_lt
  apply UInt16.toNat_inj.1
  rw [UInt32.toNat_toUInt16, slotOf_toNat]
  omega

theorem slotPos_slotOf (t : IndexedTable) (h : UInt64) {p : ℕ} (hp : p < 65536) :
    t.slotPos (slotOf h (t.first + UInt16.ofNat p)) = p := by
  unfold IndexedTable.slotPos
  rw [slotOf_id, UInt16.add_comm, UInt16.add_sub_cancel]
  exact mod_eq_of_lt hp

/-! ### How many places there are -/

theorem doubled_pow (need fuel n : ℕ) : ∃ k, doubled need fuel n = n * 2 ^ k := by
  induction fuel generalizing n with
  | zero => exact ⟨0, (mul_one n).symm⟩
  | succ fuel ih =>
    rw [doubled]
    split_ifs
    · obtain ⟨k, hk⟩ := ih (n * 2)
      exact ⟨k + 1, by rw [hk, pow_succ]; ring⟩
    · exact ⟨0, (mul_one n).symm⟩

theorem le_doubled {need fuel n : ℕ} (hn : 0 < n) (h : need ≤ n + fuel) : need ≤ doubled need fuel n := by
  induction fuel generalizing n with
  | zero => exact h
  | succ fuel ih =>
    rw [doubled]
    split_ifs with hlt
    · exact ih (by omega) (by omega)
    · omega

theorem newFieldIndex_fits (maxSize : ℕ) : (newFieldIndex maxSize).fits maxSize = true :=
  decide_eq_true (le_doubled (by omega) (by omega))

theorem newFieldIndex_n (maxSize : ℕ) : 32 ≤ (newFieldIndex maxSize).n := by
  obtain ⟨k, hk⟩ := doubled_pow (2 * (maxSize / 32)) (2 * (maxSize / 32)) 32
  have hpos := Nat.two_pow_pos k
  unfold newFieldIndex
  simp only
  omega

end Fib.Hpack
