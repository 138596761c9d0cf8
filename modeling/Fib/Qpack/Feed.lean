import Fib.Qpack.Decoder

/-! The encoder and the decoder stream in pieces: `FeedEncoder` of the decoder, and `FeedDecoder` of the encoder
(http3/qpack/encoder.go). -/

namespace Fib.Qpack
open List
open Hpack (HuffmanTable)
open Parse

/-! ### The decoder stream -/

structure SentSection where
  ric : ℕ
  oldest : ℕ
deriving DecidableEq

/-- What an encoder knows of its decoder: the sections each stream waits for, oldest first, how many they are, and the
insert count the decoder is known to have. -/
structure Acks where
  inserted : ℕ := 0
  known : ℕ := 0
  unacked : ℕ → List SentSection := fun _ => []
  waiting : ℤ := 0

namespace Acks

/-- The decoder instruction that starts with `c`, of the integer `v`; none of one that does not fit what was sent. -/
def carryOut (e : Acks) (c : UInt8) (v : ℕ) : Option Acks :=
  if 128 ≤ c.toNat then
    match e.unacked v with
    | [] => none
    | s :: rest =>
      some { e with known := max e.known s.ric, unacked := Function.update e.unacked v rest, waiting := e.waiting - 1 }
  else if 64 ≤ c.toNat then
    some { e with unacked := Function.update e.unacked v [], waiting := e.waiting - (e.unacked v).length }
  else if v = 0 ∨ (e.inserted + 2 ^ 64 - e.known) % 2 ^ 64 < v then none
  else some { e with known := e.known + v }

def instruction (e : Acks) : Bytes → Parse Acks :=
  byHead fun c => check (parseInt (if 128 ≤ c.toNat then 7 else 6)) (e.carryOut c)

end Acks

/-- The part of an encoder that the decoder stream is for; `pending` is the source's `in`. -/
structure AckStream where
  acks : Acks
  pending : Bytes := []

namespace AckStream

def feedDecoder (e : AckStream) (data : Bytes) : AckStream × Option Err :=
  let r := drainAll Acks.instruction e.acks (e.pending ++ data)
  if r.failed then (⟨r.state, if e.pending = [] then [] else e.pending ++ data⟩, some .decoderStream)
  else (⟨r.state, r.rest⟩, none)

def feedAll (e : AckStream) : List Bytes → AckStream × Option Err
  | [] => (e, none)
  | p :: ps =>
    match e.feedDecoder p with
    | (e, some err) => (e, some err)
    | (e, none) => feedAll e ps

theorem stable_instruction (e : Acks) : Stable e.instruction :=
  Stable.byHead fun c => (stable_parseInt _).check (e.carryOut c)

def left (e : AckStream) : Left Acks := ⟨e.acks, e.pending, false⟩

theorem feedDecoder_spec (e : AckStream) (data : Bytes) :
    (e.feedDecoder data).1.acks = (feed Acks.instruction e.left data).state ∧
      (e.feedDecoder data).2 = (if (feed Acks.instruction e.left data).failed then some .decoderStream else none) ∧
      ((e.feedDecoder data).2 = none → (e.feedDecoder data).1.left = feed Acks.instruction e.left data) := by
  have hfeed : feed Acks.instruction e.left data = drainAll Acks.instruction e.acks (e.pending ++ data) := rfl
  rw [hfeed]
  unfold feedDecoder left
  generalize drainAll Acks.instruction e.acks (e.pending ++ data) = r
  obtain ⟨-, -, failed⟩ := r
  cases failed with
  | true => exact ⟨rfl, rfl, fun h => absurd h (by simp)⟩
  | false => exact ⟨rfl, rfl, fun _ => rfl⟩

theorem feedAll_spec (e : AckStream) (ps : List Bytes) :
    (e.feedAll ps).1.acks = (ps.foldl (feed Acks.instruction) e.left).state ∧
      (e.feedAll ps).2 = (if (ps.foldl (feed Acks.instruction) e.left).failed then some .decoderStream else none) ∧
      ((e.feedAll ps).2 = none → (e.feedAll ps).1.left = ps.foldl (feed Acks.instruction) e.left) := by
  induction ps generalizing e with
  | nil => exact ⟨rfl, rfl, fun _ => rfl⟩
  | cons p ps ih =>
    obtain ⟨hacks, herr, hleft⟩ := feedDecoder_spec e p
    rw [feedAll, foldl_cons]
    cases hf : (feed Acks.instruction e.left p).failed with
    | true =>
      rw [hf, if_pos rfl] at herr
      rw [feed_failed hf, hf, if_pos rfl]
      generalize e.feedDecoder p = r at hacks herr
      obtain ⟨e', err⟩ := r
      subst herr
      exact ⟨hacks, rfl, fun h => absurd h (by simp)⟩
    | false =>
      rw [hf, if_neg Bool.false_ne_true] at herr
      rw [← hleft herr]
      generalize e.feedDecoder p = r at herr
      obtain ⟨e', err⟩ := r
      subst herr
      exact ih e'

end AckStream

/-! ### The encoder stream -/

theorem stable_instruction (T : HuffmanTable) (maxCapacity : ℕ) (t : Table) : Stable (instruction T maxCapacity t) := by
  have hvalue : ∀ name, Stable (insertValue T maxCapacity t name) := fun name => (stable_parseString T ..).check _
  refine Stable.byHead fun c => ?_
  unfold instructionOf
  by_cases href : 128 ≤ c.toNat
  · rw [if_pos href]
    exact ((stable_parseInt _).check _).seq hvalue
  rw [if_neg href]
  by_cases hlit : 64 ≤ c.toNat
  · rw [if_pos hlit]
    exact (stable_parseString T ..).seq hvalue
  rw [if_neg hlit]
  by_cases hcap : 32 ≤ c.toNat
  · rw [if_pos hcap]
    exact (stable_parseInt _).check _
  · rw [if_neg hcap]
    exact (stable_parseInt _).check _

/-- The insert count increments among what a decoder has to send. -/
def owed (out : List DecoderInstr) : ℕ :=
  (out.map fun
    | .increment n => n
    | _ => 0).sum

namespace DecoderTable

def feedAll (T : HuffmanTable) (d : DecoderTable) : List Bytes → DecoderTable × Option Err
  | [] => (d, none)
  | p :: ps =>
    match d.feedEncoder T p with
    | (d, some err) => (d, some err)
    | (d, none) => feedAll T d ps

variable {T : HuffmanTable} {d : DecoderTable} {data : Bytes}

theorem inserted_insert {t t' : Table} {f : HeaderField} (h : t.insert f = some t') : t.inserted ≤ t'.inserted := by
  unfold Table.insert at h
  split_ifs at h
  rw [← Option.some.inj h]
  exact Nat.le_succ _

theorem inserted_instruction {maxCapacity n : ℕ} {t t' : Table} {b : Bytes}
    (h : instruction T maxCapacity t b = .took t' n) : t.inserted ≤ t'.inserted := by
  have hvalue : ∀ {name b n}, insertValue T maxCapacity t name b = .took t' n → t.inserted ≤ t'.inserted := by
    intro name b n h
    obtain ⟨value, -, hi⟩ := check_eq_took h
    exact inserted_insert hi
  cases b with
  | nil => simp [instruction, byHead] at h
  | cons c b =>
    simp only [instruction, byHead, instructionOf] at h
    by_cases href : 128 ≤ c.toNat
    · rw [if_pos href] at h
      obtain ⟨name, k, m, -, hv, -⟩ := seq_eq_took h
      exact hvalue hv
    rw [if_neg href] at h
    by_cases hlit : 64 ≤ c.toNat
    · rw [if_pos hlit] at h
      obtain ⟨name, k, m, -, hv, -⟩ := seq_eq_took h
      exact hvalue hv
    rw [if_neg hlit] at h
    by_cases hcap : 32 ≤ c.toNat
    · rw [if_pos hcap] at h
      obtain ⟨capacity, -, hc⟩ := check_eq_took h
      split_ifs at hc
      rw [← Option.some.inj hc]
      exact le_rfl
    · rw [if_neg hcap] at h
      obtain ⟨i, -, hc⟩ := check_eq_took h
      obtain ⟨f, -, hf⟩ := Option.bind_eq_some_iff.1 hc
      exact inserted_insert hf

def left (d : DecoderTable) : Left Table := ⟨d.table, d.pending, false⟩

/-- What a call does: the instructions are carried out, and unless one failed, the insertions not told of are owed. -/
theorem feedEncoder_spec (T : HuffmanTable) (d : DecoderTable) (data : Bytes) :
    (d.feedEncoder T data).1.table = (feed (instruction T d.maxCapacity) d.left data).state ∧
      ((d.feedEncoder T data).1.blocked = d.blocked ∧ (d.feedEncoder T data).1.maxCapacity = d.maxCapacity) ∧
      (d.feedEncoder T data).2 =
        (if (feed (instruction T d.maxCapacity) d.left data).failed then some .encoderStream else none) ∧
      ((d.feedEncoder T data).2 = none →
        (d.feedEncoder T data).1.left = feed (instruction T d.maxCapacity) d.left data ∧
        (d.feedEncoder T data).1.told = max d.told (d.feedEncoder T data).1.table.inserted ∧
        owed (d.feedEncoder T data).1.out + d.told = owed d.out + (d.feedEncoder T data).1.told) := by
  have hfeed : feed (instruction T d.maxCapacity) d.left data =
      drainAll (instruction T d.maxCapacity) d.table (d.pending ++ data) := rfl
  rw [hfeed]
  unfold feedEncoder left
  generalize drainAll (instruction T d.maxCapacity) d.table (d.pending ++ data) = r
  obtain ⟨-, -, failed⟩ := r
  cases failed with
  | true => exact ⟨rfl, ⟨rfl, rfl⟩, rfl, fun h => absurd h (by simp)⟩
  | false =>
    simp only [Bool.false_eq_true, if_false, owe]
    split_ifs with hlt
    · refine ⟨rfl, ⟨rfl, rfl⟩, trivial, fun _ => ⟨rfl, (max_eq_right hlt.le).symm, ?_⟩⟩
      simp only [owed, map_append, sum_append, map_cons, map_nil, sum_cons, sum_nil]
      omega
    · exact ⟨rfl, ⟨rfl, rfl⟩, trivial, fun _ => ⟨rfl, (max_eq_left (not_lt.1 hlt)).symm, rfl⟩⟩

theorem inserted_feedEncoder (T : HuffmanTable) (d : DecoderTable) (data : Bytes) :
    d.table.inserted ≤ (d.feedEncoder T data).1.table.inserted := by
  rw [(feedEncoder_spec T d data).1]
  exact drainAll_invariant (R := fun t t' => t.inserted ≤ t'.inserted) (stable_instruction T d.maxCapacity)
    (fun _ => le_rfl) le_trans inserted_instruction d.table (d.pending ++ data)

theorem feedAll_spec (T : HuffmanTable) (d : DecoderTable) (p : Bytes) (ps : List Bytes) :
    (d.feedAll T (p :: ps)).1.table = ((p :: ps).foldl (feed (instruction T d.maxCapacity)) d.left).state ∧
      ((d.feedAll T (p :: ps)).1.blocked = d.blocked ∧ d.table.inserted ≤ (d.feedAll T (p :: ps)).1.table.inserted) ∧
      (d.feedAll T (p :: ps)).2 =
        (if ((p :: ps).foldl (feed (instruction T d.maxCapacity)) d.left).failed then some .encoderStream else none) ∧
      ((d.feedAll T (p :: ps)).2 = none →
        (d.feedAll T (p :: ps)).1.left = (p :: ps).foldl (feed (instruction T d.maxCapacity)) d.left ∧
        (d.feedAll T (p :: ps)).1.told = max d.told (d.feedAll T (p :: ps)).1.table.inserted ∧
        owed (d.feedAll T (p :: ps)).1.out + d.told = owed d.out + (d.feedAll T (p :: ps)).1.told) := by
  induction ps generalizing d p with
  | nil =>
    obtain ⟨htable, ⟨hblocked, -⟩, herr, hrest⟩ := feedEncoder_spec T d p
    have hins := inserted_feedEncoder T d p
    rw [feedAll, foldl_cons, foldl_nil]
    generalize d.feedEncoder T p = r at htable hblocked hins herr hrest
    obtain ⟨d', err⟩ := r
    cases err <;> exact ⟨htable, ⟨hblocked, hins⟩, herr, hrest⟩
  | cons q ps ih =>
    obtain ⟨htable, ⟨hblocked, hcap⟩, herr, hrest⟩ := feedEncoder_spec T d p
    have hins := inserted_feedEncoder T d p
    rw [feedAll, foldl_cons]
    cases hf : (feed (instruction T d.maxCapacity) d.left p).failed with
    | true =>
      rw [hf, if_pos rfl] at herr
      rw [feed_failed hf, hf, if_pos rfl]
      generalize d.feedEncoder T p = r at htable hblocked hins herr
      obtain ⟨d', err⟩ := r
      subst herr
      exact ⟨htable, ⟨hblocked, hins⟩, rfl, fun h => absurd h (by simp)⟩
    | false =>
      rw [hf, if_neg Bool.false_ne_true] at herr
      obtain ⟨hleft, htold, howed⟩ := hrest herr
      rw [← hleft]
      generalize d.feedEncoder T p = r at hblocked hcap hins herr htold howed
      obtain ⟨d', err⟩ := r
      dsimp only at hblocked hcap hins herr htold howed
      subst herr
      obtain ⟨i₁, ⟨i₂, i₃⟩, i₄, i₅⟩ := ih d' q
      rw [← hcap]
      refine ⟨i₁, ⟨i₂.trans hblocked, hins.trans i₃⟩, i₄, fun hnone => ?_⟩
      obtain ⟨j₁, j₂, j₃⟩ := i₅ hnone
      refine ⟨j₁, ?_, ?_⟩
      · dsimp only at j₂ ⊢
        omega
      · dsimp only at j₃ ⊢
        omega

end DecoderTable

/-- Streams may be cut anywhere: however the calls cut it, an encoder stream leaves the table, the blocked streams and
whether it fails, and unless it fails what the encoder was told and the increments owed; and a decoder stream what is
known and not acknowledged, and whether it fails. -/
theorem feeds_cut_anywhere (T : HuffmanTable) (d : DecoderTable) (e : AckStream) (p : Bytes) (ps : List Bytes) :
    ((d.feedAll T (p :: ps)).2 = (d.feedEncoder T (p :: ps).flatten).2 ∧
      (d.feedAll T (p :: ps)).1.table = (d.feedEncoder T (p :: ps).flatten).1.table ∧
      (d.feedAll T (p :: ps)).1.blocked = (d.feedEncoder T (p :: ps).flatten).1.blocked ∧
      ((d.feedEncoder T (p :: ps).flatten).2 = none →
        (d.feedAll T (p :: ps)).1.pending = (d.feedEncoder T (p :: ps).flatten).1.pending ∧
        (d.feedAll T (p :: ps)).1.told = (d.feedEncoder T (p :: ps).flatten).1.told ∧
        owed (d.feedAll T (p :: ps)).1.out = owed (d.feedEncoder T (p :: ps).flatten).1.out)) ∧
    (e.feedAll (p :: ps)).2 = (e.feedDecoder (p :: ps).flatten).2 ∧
      (e.feedAll (p :: ps)).1.acks = (e.feedDecoder (p :: ps).flatten).1.acks ∧
      ((e.feedDecoder (p :: ps).flatten).2 = none →
        (e.feedAll (p :: ps)).1.pending = (e.feedDecoder (p :: ps).flatten).1.pending) := by
  constructor
  · obtain ⟨htable, ⟨hblocked, -⟩, herr, hleft⟩ := d.feedAll_spec T p ps
    obtain ⟨htable', ⟨hblocked', -⟩, herr', hleft'⟩ := d.feedEncoder_spec T (p :: ps).flatten
    obtain ⟨hstate, hfailed, hrest⟩ := feed_pieces (stable_instruction T d.maxCapacity) d.left p ps
    have hsame : (d.feedAll T (p :: ps)).2 = (d.feedEncoder T (p :: ps).flatten).2 := by rw [herr, herr', hfailed]
    have hstates : (d.feedAll T (p :: ps)).1.table = (d.feedEncoder T (p :: ps).flatten).1.table := by
      rw [htable, htable', hstate]
    refine ⟨hsame, hstates, hblocked.trans hblocked'.symm, fun hnone => ?_⟩
    obtain ⟨hl, htold, howed⟩ := hleft (hsame.trans hnone)
    obtain ⟨hl', htold', howed'⟩ := hleft' hnone
    have hr := hrest (by rw [← hl]; rfl)
    rw [← hl, ← hl'] at hr
    have heq : (d.feedAll T (p :: ps)).1.told = (d.feedEncoder T (p :: ps).flatten).1.told := by
      rw [htold, htold', hstates]
    exact ⟨hr, heq, by omega⟩
  · obtain ⟨hacks, herr, hleft⟩ := e.feedAll_spec (p :: ps)
    obtain ⟨hacks', herr', hleft'⟩ := e.feedDecoder_spec (p :: ps).flatten
    obtain ⟨hstate, hfailed, hrest⟩ := feed_pieces AckStream.stable_instruction e.left p ps
    have hsame : (e.feedAll (p :: ps)).2 = (e.feedDecoder (p :: ps).flatten).2 := by rw [herr, herr', hfailed]
    refine ⟨hsame, by rw [hacks, hacks', hstate], fun hnone => ?_⟩
    have hl := hleft (hsame.trans hnone)
    have hr := hrest (by rw [← hl]; rfl)
    rw [← hl, ← hleft' hnone] at hr
    exact hr

/-- An entry is inserted, and one is duplicated that there is none of: one call owes nothing as it fails, while of two
the first owes the insertion. -/
theorem failed_call_owes_nothing :
    let d : DecoderTable := { maxCapacity := 4096, maxBlocked := 0 }
    (d.feedEncoder noHuffman (oneInsertion ++ [0x05])).2 = some .encoderStream ∧
      (d.feedAll noHuffman [oneInsertion, [0x05]]).2 = some .encoderStream ∧
      owed (d.feedEncoder noHuffman (oneInsertion ++ [0x05])).1.out = 0 ∧
      owed (d.feedAll noHuffman [oneInsertion, [0x05]]).1.out = 1 := by
  decide

end Fib.Qpack
