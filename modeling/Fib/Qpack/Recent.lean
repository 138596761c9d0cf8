import Fib.Qpack.Decoder

/-! The strings a decoder remembers change nothing of what it decodes. -/

namespace Fib.Qpack
open List Recents
open Hpack (HuffmanTable)

/-! ### What is read does not depend on what follows -/

variable {T : HuffmanTable} {n v maxLen shift : ℕ} {b s rest raw : Bytes}

theorem readIntFrom_split (h : readIntFrom v shift b = .ok (n, rest)) :
    ∃ front, b = front ++ rest ∧ ∀ x, readIntFrom v shift (front ++ x) = .ok (n, x) := by
  induction b generalizing v shift with
  | nil => simp [readIntFrom] at h
  | cons c b ih =>
    rw [readIntFrom] at h
    split_ifs at h with hlast hlong
    · cases h
      exact ⟨[c], rfl, fun x => by rw [singleton_append, readIntFrom, if_pos hlast]⟩
    · obtain ⟨front, rfl, hx⟩ := ih h
      exact ⟨c :: front, rfl, fun x => by rw [cons_append, readIntFrom, if_neg hlast, if_neg hlong, hx]⟩

theorem readInt_split (h : readInt n b = .ok (v, rest)) :
    ∃ c front, b = c :: front ++ rest ∧ ∀ x, readInt n (c :: front ++ x) = .ok (v, x) := by
  cases b with
  | nil => simp [readInt] at h
  | cons c b =>
    rw [readInt] at h
    split_ifs at h with hsmall
    · cases h
      exact ⟨c, [], rfl, fun x => by rw [cons_append, readInt, if_pos hsmall, nil_append]⟩
    · obtain ⟨front, rfl, hx⟩ := readIntFrom_split h
      exact ⟨c, front, rfl, fun x => by rw [cons_append, readInt, if_neg hsmall, hx]⟩

theorem readString_append (T : HuffmanTable) (maxLen : ℕ) {c : UInt8} {front : Bytes}
    (hx : ∀ x, readInt n (c :: front ++ x) = .ok (raw.length, x)) (rest : Bytes) :
    readString T n maxLen (c :: front ++ (raw ++ rest)) =
      (plainString T (huffmanFlag n c) maxLen raw).map fun s => (s, rest) := by
  have hshort : ¬ (raw ++ rest).length < raw.length := by simp
  have hflag : huffmanFlag n ((c :: front ++ (raw ++ rest)).headD 0) = huffmanFlag n c := rfl
  unfold readString
  rw [hx, hflag]
  dsimp only
  rw [if_neg hshort, take_left, drop_left]
  cases plainString T (huffmanFlag n c) maxLen raw <;> rfl

theorem readString_eq_ok : readString T n maxLen b = .ok (s, rest) ↔ ∃ c front raw, b = c :: front ++ (raw ++ rest) ∧
    (∀ x, readInt n (c :: front ++ x) = .ok (raw.length, x)) ∧ plainString T (huffmanFlag n c) maxLen raw = .ok s := by
  constructor
  · intro h
    cases hi : readInt n b with
    | error e => simp [readString, hi] at h
    | ok r =>
      obtain ⟨length, tail⟩ := r
      obtain ⟨c, front, rfl, hx⟩ := readInt_split hi
      by_cases hshort : tail.length < length
      · simp only [readString, hi, if_pos hshort] at h
        simp at h
      have hlen : (tail.take length).length = length := by
        rw [length_take]
        omega
      have hx' : ∀ x, readInt n (c :: front ++ x) = .ok ((tail.take length).length, x) := by
        rw [hlen]
        exact hx
      have happend := readString_append T maxLen hx' (tail.drop length)
      rw [take_append_drop, h] at happend
      cases hp : plainString T (huffmanFlag n c) maxLen (tail.take length) with
      | error e => simp [hp, Except.map] at happend
      | ok plain =>
        rw [hp] at happend
        cases happend
        exact ⟨c, front, tail.take length, by rw [take_append_drop], hx', hp⟩
  · rintro ⟨c, front, raw, rfl, hx, hp⟩
    rw [readString_append T maxLen hx, hp]
    rfl

theorem huffmanString_eq_ok : huffmanString T maxLen raw = .ok s ↔ T.decode raw maxLen = .ok s := by
  unfold huffmanString
  cases T.decode raw maxLen with
  | ok plain => simp
  | error e => cases e <;> simp

theorem plainString_eq_ok {huffman : Bool} : plainString T huffman maxLen raw = .ok s ↔
    plainString T huffman 0 raw = .ok s ∧ (maxLen = 0 ∨ raw.length ≤ maxLen ∧ s.length ≤ maxLen) := by
  unfold plainString
  rw [if_neg fun h : 0 < 0 ∧ 0 < raw.length => absurd h.1 (lt_irrefl 0)]
  by_cases hlong : 0 < maxLen ∧ maxLen < raw.length
  · rw [if_pos hlong]
    constructor
    · intro h
      simp at h
    · rintro ⟨-, h⟩
      omega
  rw [if_neg hlong]
  cases huffman with
  | false =>
    rw [if_neg Bool.false_ne_true, if_neg Bool.false_ne_true]
    constructor
    · intro h
      rw [Except.ok.inj h] at hlong ⊢
      exact ⟨rfl, by omega⟩
    · exact fun h => h.1
  | true =>
    rw [if_pos rfl, if_pos rfl, huffmanString_eq_ok, huffmanString_eq_ok, HuffmanTable.decode_eq_ok]
    refine and_congr_right fun _ => ⟨fun h => ?_, fun h => ?_⟩ <;> omega

/-! ### Remembered strings -/

namespace Recents

/-- What is remembered of a string is what it decodes to. -/
def Ok (T : HuffmanTable) (d : Recents) : Prop :=
  ∀ r ∈ d.recent, r.n = 0 ∨ readString T r.n 0 r.encoded = .ok (r.decoded, [])

variable {d : Recents}

theorem ok_empty (T : HuffmanTable) : Ok T {} := by
  intro r hr
  rw [eq_of_mem_replicate hr]
  exact .inl rfl

theorem readString_of_hit (h : d.Ok T) (hn : n ≠ 0) (hhit : d.hit n maxLen b = some (s, rest)) :
    readString T n maxLen b = .ok (s, rest) := by
  unfold hit at hhit
  cases hr : d.recent[d.place]? with
  | none => simp [hr] at hhit
  | some r =>
    cases hi : readInt n b with
    | error e => simp [hr, hi] at hhit
    | ok t =>
      obtain ⟨length, after⟩ := t
      simp only [hr, hi] at hhit
      by_cases hc : length ≤ after.length ∧ (maxLen = 0 ∨ length ≤ maxLen) ∧
          b.length - after.length + length ≤ maxRecentString ∧ r.n = n ∧
          r.encoded = b.take (b.length - after.length + length) ∧ (maxLen = 0 ∨ r.decoded.length ≤ maxLen)
      · rw [if_pos hc] at hhit
        obtain ⟨-, hlimit, -, hsame, hencoded, hdecoded⟩ := hc
        cases hhit
        have hvalid := (h r (mem_of_getElem? hr)).resolve_left (hsame ▸ hn)
        rw [hsame] at hvalid
        obtain ⟨c, front, raw, henc, hx, his⟩ := readString_eq_ok.1 hvalid
        -- the bytes remembered are those at the front, so that their length is the one read
        have hb : b = c :: front ++ (raw ++ b.drop (b.length - after.length + length)) := by
          rw [append_nil] at henc
          rw [← append_assoc, ← henc, hencoded, take_append_drop]
        have hlen : raw.length = length := by
          have hread := hx (raw ++ b.drop (b.length - after.length + length))
          rw [← hb, hi] at hread
          exact (Prod.mk.inj (Except.ok.inj hread)).1.symm
        refine readString_eq_ok.2 ⟨c, front, raw, hb, hx, plainString_eq_ok.2 ⟨his, ?_⟩⟩
        omega
      · simp [hc] at hhit

theorem ok_remember (h : d.Ok T) (hread : readString T n maxLen b = .ok (s, rest)) : (d.remember n b s rest).Ok T := by
  unfold remember
  dsimp only
  split_ifs
  · intro r hr
    rcases mem_or_eq_of_mem_set hr with hr | rfl
    · exact h r hr
    · obtain ⟨c, front, raw, hb, hx, his⟩ := readString_eq_ok.1 hread
      refine .inr (readString_eq_ok.2 ⟨c, front, raw, ?_, hx, (plainString_eq_ok.1 his).1⟩)
      rw [hb, ← append_assoc, length_append, Nat.add_sub_cancel, take_left, append_nil]
  · exact h

theorem read_eq (h : d.Ok T) (hn : n ≠ 0) (maxLen : ℕ) (b : Bytes) :
    (d.read T n maxLen b).1 = readString T n maxLen b ∧ (d.read T n maxLen b).2.Ok T := by
  unfold read
  split_ifs
  · exact ⟨rfl, h⟩
  cases hhit : d.hit n maxLen b with
  | some r =>
    obtain ⟨s, rest⟩ := r
    exact ⟨(readString_of_hit h hn hhit).symm, h⟩
  | none =>
    cases hread : readString T n maxLen b with
    | error e => exact ⟨rfl, h⟩
    | ok r => exact ⟨rfl, ok_remember h hread⟩

end Recents

/-! ### Sections -/

section Sections
variable {d : Recents} (t : Option Table) (base ric maxSize : ℕ)

theorem readValue_recents (h : d.Ok T) (name : Bytes) (top : ℕ) (b : Bytes) :
    (readValue (read T) maxSize name top d b).1 = (readValue (readPlain T) maxSize name top () b).1 ∧
      (readValue (read T) maxSize name top d b).2.Ok T := by
  obtain ⟨hread, hok⟩ := read_eq h (show 7 ≠ 0 by decide) maxSize b
  unfold readValue readPlain
  rw [← hread]
  generalize read T 7 maxSize d b = r at hok
  obtain ⟨res, d'⟩ := r
  cases res <;> exact ⟨rfl, hok⟩

theorem readNamed_recents (h : d.Ok T) (static post : Bool) (n : ℕ) (b : Bytes) :
    (readNamed (read T) t base ric maxSize static post n d b).1 =
        (readNamed (readPlain T) t base ric maxSize static post n () b).1 ∧
      (readNamed (read T) t base ric maxSize static post n d b).2.Ok T := by
  unfold readNamed
  cases refer t base ric static post n b with
  | error e => exact ⟨rfl, h⟩
  | ok r => exact readValue_recents maxSize h _ _ _

theorem readLine_recents (h : d.Ok T) (b : Bytes) :
    (readLine (read T) t base ric maxSize d b).1 = (readLine (readPlain T) t base ric maxSize () b).1 ∧
      (readLine (read T) t base ric maxSize d b).2.Ok T := by
  unfold readLine
  by_cases hindexed : 128 ≤ (b.headD 0).toNat
  · rw [if_pos hindexed, if_pos hindexed]
    exact ⟨rfl, h⟩
  rw [if_neg hindexed, if_neg hindexed]
  by_cases hnamed : 64 ≤ (b.headD 0).toNat
  · rw [if_pos hnamed, if_pos hnamed]
    exact readNamed_recents t base ric maxSize h _ _ _ _
  rw [if_neg hnamed, if_neg hnamed]
  by_cases hliteral : 32 ≤ (b.headD 0).toNat
  · rw [if_pos hliteral, if_pos hliteral]
    obtain ⟨hread, hok⟩ := read_eq h (show 3 ≠ 0 by decide) maxSize b
    have hplain : readPlain T 3 maxSize () b = ((read T 3 maxSize d b).1, ()) := by
      unfold readPlain
      rw [hread]
    rw [hplain]
    generalize read T 3 maxSize d b = r at hok
    obtain ⟨res, d'⟩ := r
    cases res with
    | error e => exact ⟨rfl, hok⟩
    | ok x => exact readValue_recents maxSize hok _ _ _
  rw [if_neg hliteral, if_neg hliteral]
  by_cases hpost : 16 ≤ (b.headD 0).toNat
  · rw [if_pos hpost, if_pos hpost]
    exact ⟨rfl, h⟩
  · rw [if_neg hpost, if_neg hpost]
    exact readNamed_recents t base ric maxSize h _ _ _ _

theorem decodeFrom_recents (fuel : ℕ) (h : d.Ok T) (size largest : ℕ) (fields : List HeaderField) (b : Bytes) :
    (decodeFrom (read T) t base ric maxSize fuel d size largest fields b).fields =
        (decodeFrom (readPlain T) t base ric maxSize fuel () size largest fields b).fields ∧
      (decodeFrom (read T) t base ric maxSize fuel d size largest fields b).stop =
        (decodeFrom (readPlain T) t base ric maxSize fuel () size largest fields b).stop ∧
      (decodeFrom (read T) t base ric maxSize fuel d size largest fields b).reader.Ok T := by
  induction fuel generalizing d size largest fields b with
  | zero => cases b <;> exact ⟨rfl, rfl, h⟩
  | succ fuel ih =>
    cases b with
    | nil => exact ⟨rfl, rfl, h⟩
    | cons c b =>
      obtain ⟨hline, hok⟩ := readLine_recents t base ric maxSize h (c :: b)
      rw [decodeFrom, decodeFrom]
      generalize readLine (read T) t base ric maxSize d (c :: b) = r at hline hok
      generalize readLine (readPlain T) t base ric maxSize () (c :: b) = r' at hline
      obtain ⟨res, d'⟩ := r
      obtain ⟨res', u⟩ := r'
      subst hline
      cases res with
      | error e => exact ⟨rfl, rfl, hok⟩
      | ok x =>
        dsimp only
        split_ifs
        · exact ⟨rfl, rfl, hok⟩
        · exact ih hok _ _ _ _

theorem decode_recents (h : d.Ok T) (dyn : Option DecoderTable) (block : Bytes) (streamID : ℕ) :
    (decode (read T) start d dyn block maxSize streamID).dyn =
        (decode (readPlain T) id () dyn block maxSize streamID).dyn ∧
      (decode (read T) start d dyn block maxSize streamID).fields =
        (decode (readPlain T) id () dyn block maxSize streamID).fields ∧
      (decode (read T) start d dyn block maxSize streamID).err =
        (decode (readPlain T) id () dyn block maxSize streamID).err ∧
      (decode (read T) start d dyn block maxSize streamID).reader.Ok T := by
  have hstart : d.start.Ok T := h
  unfold decode
  cases sectionStart dyn block with
  | error e => exact ⟨rfl, rfl, rfl, h⟩
  | ok s =>
    dsimp only
    cases (if s.dynamic then dyn else none) with
    | none =>
      obtain ⟨hfields, hstop, hok⟩ := decodeFrom_recents none s.base s.ric maxSize s.rest.length hstart 0 0 [] s.rest
      dsimp only [id]
      rw [hfields, hstop]
      exact ⟨rfl, rfl, rfl, hok⟩
    | some t =>
      dsimp only
      split_ifs
      · exact ⟨rfl, rfl, rfl, h⟩
      obtain ⟨hfields, hstop, hok⟩ := decodeFrom_recents (some t.table) s.base s.ric maxSize s.rest.length hstart 0 0 []
        s.rest
      dsimp only [id]
      rw [hfields, hstop]
      exact ⟨rfl, rfl, rfl, hok⟩

end Sections

namespace Decoder

/-- Two decoders agree on everything but what they remember, which is what strings decode to. -/
structure Agrees (T : HuffmanTable) (d : Decoder Recents) (e : Decoder Unit) : Prop where
  reader : d.reader.Ok T
  dyn : d.dyn = e.dyn
  log : d.log = e.log

theorem Agrees.step {d : Decoder Recents} {e : Decoder Unit} (h : Agrees T d e) (op : DecoderOp) :
    Agrees T (Decoder.step T (Recents.read T) Recents.start d op) (Decoder.step T (readPlain T) id e op) := by
  obtain ⟨hreader, hdyn, hlog⟩ := h
  cases op with
  | feedEncoder data =>
    simp only [Decoder.step]
    rw [← hdyn, ← hlog]
    cases d.dyn <;> exact ⟨hreader, rfl, rfl⟩
  | sections block maxSize streamID =>
    obtain ⟨h₁, h₂, h₃, h₄⟩ := decode_recents maxSize hreader d.dyn block streamID
    simp only [Decoder.step, appendSection]
    rw [← hdyn, ← hlog]
    exact ⟨h₄, h₁, by rw [h₂, h₃]⟩
  | cancel streamID =>
    simp only [Decoder.step]
    rw [← hdyn]
    exact ⟨hreader, rfl, hlog⟩
  | takeInstructions =>
    simp only [Decoder.step]
    rw [← hdyn]
    exact ⟨hreader, rfl, hlog⟩

theorem agrees_run (T : HuffmanTable) (maxCapacity maxBlocked : ℕ) (ops : List DecoderOp) :
    Agrees T ((machine T maxCapacity maxBlocked).run ops) ((plainMachine T maxCapacity maxBlocked).run ops) := by
  induction ops using List.reverseRecOn with
  | nil => exact ⟨ok_empty T, rfl, rfl⟩
  | append_singleton ops op ih =>
    rw [Machine.run_snoc, Machine.run_snoc]
    exact ih.step op

end Decoder
end Fib.Qpack
