import Fib.Qpack.Recent

/-! Which sections the encoder hears are done with. One that refers to the dynamic table and is decoded, or given up on
for its size, should be acknowledged; one given up on for a single string is not. -/

namespace Fib.Qpack
open List Except
open Hpack (HuffmanTable)
variable {T : HuffmanTable} {n maxLen : ℕ} {b s rest raw : Bytes}

/-! ### Strings that are too long -/

/-- The string at the front of `b` is longer than `maxLen` as it is coded, or some of it decodes to more. -/
def Overlong (T : HuffmanTable) (n maxLen : ℕ) (b : Bytes) : Prop :=
  ∃ length rest, readInt n b = .ok (length, rest) ∧ length ≤ rest.length ∧ 0 < maxLen ∧
    (maxLen < length ∨ huffmanFlag n (b.headD 0) = true ∧
      ∃ k plain, T.symbols 0 [] ((rest.take length).take k) = some plain ∧ maxLen < plain.length)

theorem readIntFrom_error {v shift : ℕ} {e : Err} (h : readIntFrom v shift b = .error e) : e = .decompression := by
  induction b generalizing v shift with
  | nil => exact (error.inj h).symm
  | cons c b ih =>
    rw [readIntFrom] at h
    split_ifs at h
    · exact (error.inj h).symm
    · exact ih h

theorem readInt_error {e : Err} (h : readInt n b = .error e) : e = .decompression := by
  cases b with
  | nil => exact (error.inj h).symm
  | cons c b =>
    rw [readInt] at h
    split_ifs at h
    exact readIntFrom_error h

theorem huffmanString_tooLarge : huffmanString T maxLen raw = .error .tooLarge ↔
    0 < maxLen ∧ ∃ k plain, T.symbols 0 [] (raw.take k) = some plain ∧ maxLen < plain.length := by
  have hcode : huffmanString T maxLen raw = .error .tooLarge ↔ T.decode raw maxLen = .error .stringTooLong := by
    unfold huffmanString
    cases T.decode raw maxLen with
    | ok plain => simp
    | error e => cases e <;> simp
  rw [hcode]
  by_cases hmax : 0 < maxLen
  · rw [HuffmanTable.decode, HuffmanTable.decodeFrom_tooLong hmax (Nat.zero_le _)]
    exact ⟨fun h => ⟨hmax, h⟩, fun h => h.2⟩
  · obtain rfl : maxLen = 0 := by omega
    refine ⟨fun h => absurd h (HuffmanTable.decodeFrom_zero 0 [] raw), fun h => absurd h.1 (lt_irrefl 0)⟩

theorem plainString_tooLarge (huffman : Bool) (maxLen : ℕ) (raw : Bytes) :
    plainString T huffman maxLen raw = .error .tooLarge ↔
    0 < maxLen ∧ (maxLen < raw.length ∨
      huffman = true ∧ ∃ k plain, T.symbols 0 [] (raw.take k) = some plain ∧ maxLen < plain.length) := by
  unfold plainString
  by_cases hlong : 0 < maxLen ∧ maxLen < raw.length
  · rw [if_pos hlong]
    exact ⟨fun _ => ⟨hlong.1, .inl hlong.2⟩, fun _ => rfl⟩
  rw [if_neg hlong]
  cases huffman with
  | false =>
    rw [if_neg Bool.false_ne_true]
    refine ⟨fun h => absurd h (by simp), ?_⟩
    rintro ⟨hmax, h | ⟨h, -⟩⟩
    · exact absurd ⟨hmax, h⟩ hlong
    · exact absurd h Bool.false_ne_true
  | true =>
    rw [if_pos rfl, huffmanString_tooLarge]
    constructor
    · exact fun h => ⟨h.1, .inr ⟨rfl, h.2⟩⟩
    · rintro ⟨hmax, h | h⟩
      · exact absurd ⟨hmax, h⟩ hlong
      · exact ⟨hmax, h.2⟩

theorem readString_tooLarge : readString T n maxLen b = .error .tooLarge ↔ Overlong T n maxLen b := by
  unfold readString Overlong
  cases hi : readInt n b with
  | error e =>
    constructor
    · intro h
      rw [error.inj h] at hi
      exact absurd (readInt_error hi) (by decide)
    · rintro ⟨length, rest, h, -⟩
      simp at h
  | ok r =>
    obtain ⟨length, rest⟩ := r
    dsimp only
    by_cases hshort : rest.length < length
    · rw [if_pos hshort]
      constructor
      · intro h
        simp at h
      · rintro ⟨length', rest', h, hle, -⟩
        cases h
        omega
    · rw [if_neg hshort]
      have hlen : (rest.take length).length = length := by
        rw [length_take]
        omega
      have hplain := plainString_tooLarge (T := T) (huffmanFlag n (b.headD 0)) maxLen (rest.take length)
      rw [hlen] at hplain
      constructor
      · intro h
        refine ⟨length, rest, rfl, not_lt.1 hshort, hplain.1 ?_⟩
        cases hp : plainString T (huffmanFlag n (b.headD 0)) maxLen (rest.take length) with
        | error e =>
          rw [hp] at h
          exact congrArg error (error.inj h)
        | ok s =>
          rw [hp] at h
          simp at h
      · rintro ⟨length', rest', h, -, hover⟩
        cases h
        rw [hplain.2 hover]

/-! ### Lines that are given up on for a string -/

section Lines
variable (T : HuffmanTable) (t : Option Table) (base ric maxSize : ℕ)

/-- The line at the front of `b` has a string that is too long. -/
def LineOverlong (b : Bytes) : Prop :=
  let c := (b.headD 0).toNat
  if 128 ≤ c then False
  else if 64 ≤ c then
    ∃ f top rest, refer t base ric (c / 16 % 2 = 1) false 4 b = .ok (f, top, rest) ∧ Overlong T 7 maxSize rest
  else if 32 ≤ c then
    Overlong T 3 maxSize b ∨ ∃ name rest, readString T 3 maxSize b = .ok (name, rest) ∧ Overlong T 7 maxSize rest
  else if 16 ≤ c then False
  else ∃ f top rest, refer t base ric false true 3 b = .ok (f, top, rest) ∧ Overlong T 7 maxSize rest

/-- The lines of `b`, after others of `size`, come to one with a string that is too long before they are too large
together. -/
inductive MeetsOverlong : ℕ → Bytes → Prop where
  | here {size : ℕ} {b : Bytes} : b ≠ [] → LineOverlong T t base ric maxSize b → MeetsOverlong size b
  | later {size top : ℕ} {b rest : Bytes} {f : HeaderField} : b ≠ [] →
      (readLine (readPlain T) t base ric maxSize () b).1 = .ok (f, top, rest) →
      ¬ (0 < maxSize ∧ maxSize < size + entrySize f) → MeetsOverlong (size + entrySize f) rest → MeetsOverlong size b

variable {T t base ric maxSize} {static post : Bool} {f : HeaderField} {top : ℕ}

theorem refer_error {e : Err} (h : refer t base ric static post n b = .error e) : e = .decompression := by
  unfold refer at h
  cases hi : readInt n b with
  | error e' =>
    rw [hi] at h
    rw [← error.inj h]
    exact readInt_error hi
  | ok r =>
    simp only [hi] at h
    split at h
    · exact (error.inj h).symm
    · simp at h

theorem refer_length (h : refer t base ric static post n b = .ok (f, top, rest)) : rest.length < b.length := by
  unfold refer at h
  cases hi : readInt n b with
  | error e' => simp [hi] at h
  | ok r =>
    obtain ⟨i, tail⟩ := r
    obtain ⟨c, front, rfl, -⟩ := readInt_split hi
    simp only [hi] at h
    split at h
    · simp at h
    · obtain ⟨-, -, rfl⟩ := by simpa using h
      simp

theorem readString_length (h : readString T n maxLen b = .ok (s, rest)) : rest.length < b.length := by
  obtain ⟨c, -, -, rfl, -, -⟩ := readString_eq_ok.1 h
  simp only [length_append, length_cons]
  omega

variable {name : Bytes}

theorem readValue_tooLarge :
    (readValue (readPlain T) maxSize name top () b).1 = .error .tooLarge ↔ Overlong T 7 maxSize b := by
  rw [← readString_tooLarge]
  unfold readValue readPlain
  cases readString T 7 maxSize b <;> simp

theorem readValue_length {top' : ℕ}
    (h : (readValue (readPlain T) maxSize name top () b).1 = .ok (f, top', rest)) : rest.length < b.length := by
  unfold readValue readPlain at h
  cases hs : readString T 7 maxSize b with
  | error e => simp [hs] at h
  | ok r =>
    obtain ⟨value, tail⟩ := r
    simp only [hs] at h
    obtain ⟨-, -, rfl⟩ := by simpa using h
    exact readString_length hs

theorem readNamed_tooLarge : (readNamed (readPlain T) t base ric maxSize static post n () b).1 = .error .tooLarge ↔
      ∃ f top rest, refer t base ric static post n b = .ok (f, top, rest) ∧ Overlong T 7 maxSize rest := by
  unfold readNamed
  cases hr : refer t base ric static post n b with
  | error e =>
    rw [refer_error hr]
    simp
  | ok r =>
    obtain ⟨f, top, rest⟩ := r
    rw [readValue_tooLarge]
    constructor
    · exact fun h => ⟨f, top, rest, rfl, h⟩
    · rintro ⟨f', top', rest', h, hover⟩
      obtain ⟨-, -, rfl⟩ := by simpa using h
      exact hover

theorem readNamed_length (h : (readNamed (readPlain T) t base ric maxSize static post n () b).1 = .ok (f, top, rest)) :
    rest.length < b.length := by
  unfold readNamed at h
  cases hr : refer t base ric static post n b with
  | error e => simp [hr] at h
  | ok r =>
    obtain ⟨f', top', tail⟩ := r
    simp only [hr] at h
    exact (readValue_length h).trans (refer_length hr)

theorem readLine_tooLarge : (readLine (readPlain T) t base ric maxSize () b).1 = .error .tooLarge ↔
    LineOverlong T t base ric maxSize b := by
  have hrefer : ∀ {static post n}, refer t base ric static post n b = .error .tooLarge ↔ False := by
    intro static post n
    exact ⟨fun h => absurd (refer_error h) (by decide), False.elim⟩
  unfold readLine LineOverlong
  by_cases hindexed : 128 ≤ (b.headD 0).toNat
  · rw [if_pos hindexed, if_pos hindexed]
    exact hrefer
  rw [if_neg hindexed, if_neg hindexed]
  by_cases hnamed : 64 ≤ (b.headD 0).toNat
  · rw [if_pos hnamed, if_pos hnamed]
    exact readNamed_tooLarge
  rw [if_neg hnamed, if_neg hnamed]
  by_cases hliteral : 32 ≤ (b.headD 0).toNat
  · rw [if_pos hliteral, if_pos hliteral, ← readString_tooLarge]
    unfold readPlain
    cases readString T 3 maxSize b with
    | error e => simp
    | ok r =>
      obtain ⟨name, rest⟩ := r
      refine readValue_tooLarge.trans ⟨fun h => .inr ⟨name, rest, rfl, h⟩, ?_⟩
      rintro (h | ⟨name', rest', h, hover⟩)
      · simp at h
      · obtain ⟨-, rfl⟩ := by simpa using h
        exact hover
  rw [if_neg hliteral, if_neg hliteral]
  by_cases hpost : 16 ≤ (b.headD 0).toNat
  · rw [if_pos hpost, if_pos hpost]
    exact hrefer
  · rw [if_neg hpost, if_neg hpost]
    exact readNamed_tooLarge

theorem readLine_length
    (h : (readLine (readPlain T) t base ric maxSize () b).1 = .ok (f, top, rest)) : rest.length < b.length := by
  unfold readLine at h
  by_cases hindexed : 128 ≤ (b.headD 0).toNat
  · rw [if_pos hindexed] at h
    exact refer_length h
  rw [if_neg hindexed] at h
  by_cases hnamed : 64 ≤ (b.headD 0).toNat
  · rw [if_pos hnamed] at h
    exact readNamed_length h
  rw [if_neg hnamed] at h
  by_cases hliteral : 32 ≤ (b.headD 0).toNat
  · rw [if_pos hliteral] at h
    unfold readPlain at h
    cases hs : readString T 3 maxSize b with
    | error e => simp [hs] at h
    | ok r =>
      obtain ⟨name, tail⟩ := r
      rw [hs] at h
      exact (readValue_length h).trans (readString_length hs)
  rw [if_neg hliteral] at h
  by_cases hpost : 16 ≤ (b.headD 0).toNat
  · rw [if_pos hpost] at h
    exact refer_length h
  · rw [if_neg hpost] at h
    exact readNamed_length h

theorem not_meetsOverlong_nil {size : ℕ} : ¬ MeetsOverlong T t base ric maxSize size [] := by
  rintro (⟨hb, -⟩ | ⟨hb, -, -, -⟩) <;> exact hb rfl

/-- The lines are given up on for a string, and not for their size together, just when they come to one that is too
long. Every line takes a byte at least, so that there is fuel enough. -/
theorem decodeFrom_tooLarge {fuel : ℕ} (size largest : ℕ) (fields : List HeaderField) (hfuel : b.length ≤ fuel) :
    (decodeFrom (readPlain T) t base ric maxSize fuel () size largest fields b).stop = .failed .tooLarge ↔
      MeetsOverlong T t base ric maxSize size b := by
  induction fuel generalizing size largest fields b with
  | zero =>
    obtain rfl := eq_nil_of_length_eq_zero (Nat.le_zero.1 hfuel)
    exact iff_of_false (by simp [decodeFrom]) not_meetsOverlong_nil
  | succ fuel ih =>
    cases b with
    | nil => exact iff_of_false (by simp [decodeFrom]) not_meetsOverlong_nil
    | cons c b =>
      rw [decodeFrom]
      cases hr : readLine (readPlain T) t base ric maxSize () (c :: b) with
      | mk res u =>
        have hres : (readLine (readPlain T) t base ric maxSize () (c :: b)).1 = res := by rw [hr]
        cases res with
        | error e =>
          constructor
          · intro h
            rw [Stop.failed.inj h] at hres
            exact .here (cons_ne_nil _ _) (readLine_tooLarge.1 hres)
          · intro h
            cases h with
            | here _ hover => rw [error.inj (hres.symm.trans (readLine_tooLarge.2 hover))]
            | later _ hok _ _ => exact absurd (hres.symm.trans hok) (by simp)
        | ok x =>
          obtain ⟨f, top, rest⟩ := x
          have hlen := readLine_length hres
          rw [length_cons] at hfuel hlen
          have hnot : ¬ LineOverlong T t base ric maxSize (c :: b) := fun hover =>
            absurd (hres.symm.trans (readLine_tooLarge.2 hover)) (by simp)
          dsimp only
          by_cases hover : 0 < maxSize ∧ maxSize < size + entrySize f
          · rw [if_pos hover]
            refine ⟨fun h => absurd h (by simp), fun h => ?_⟩
            cases h with
            | here _ h => exact absurd h hnot
            | later _ hok hfits _ =>
              obtain ⟨rfl, -, -⟩ := by simpa using hres.symm.trans hok
              exact absurd hover hfits
          · rw [if_neg hover, ih _ _ _ (by omega)]
            refine ⟨fun h => .later (cons_ne_nil _ _) hres hover h, fun h => ?_⟩
            cases h with
            | here _ h => exact absurd h hnot
            | later _ hok _ hmeets =>
              obtain ⟨rfl, -, rfl⟩ := by simpa using hres.symm.trans hok
              exact hmeets

end Lines

/-! ### Sections -/

variable {st : SectionStart} {block : Bytes}

theorem sectionBase_dynamic {encoded ric delta : ℕ} {sign : Bool}
    (h : sectionBase encoded ric sign delta rest = .ok st) (hric : st.ric ≠ 0) : st.dynamic = true := by
  unfold sectionBase at h
  split_ifs at h
  · rw [← ok.inj h] at hric
    exact absurd rfl hric
  · rw [← ok.inj h]
  · rw [← ok.inj h]

theorem sectionStart_dynamic {dyn : Option DecoderTable}
    (h : sectionStart dyn block = .ok st) (hric : st.ric ≠ 0) : st.dynamic = true := by
  unfold sectionStart at h
  cases hi : readInt 8 block with
  | error e => simp [hi] at h
  | ok r =>
    simp only [hi] at h
    cases hc : requiredCount dyn r.1 with
    | error e => simp [hc] at h
    | ok ric =>
      simp only [hc] at h
      cases hd : readInt 7 r.2 with
      | error e => simp [hd] at h
      | ok q =>
        simp only [hd] at h
        exact sectionBase_dynamic h hric

theorem decode_ready {t : DecoderTable} (h : sectionStart (some t) block = .ok st)
    (hric : st.ric ≠ 0) (hready : st.ric ≤ t.table.inserted) (maxSize streamID : ℕ) :
    (decode (readPlain T) id () (some t) block maxSize streamID).dyn =
        some (endSection t streamID st.ric
          (decodeFrom (readPlain T) (some t.table) st.base st.ric maxSize st.rest.length () 0 0 [] st.rest).stop).1 ∧
      (decode (readPlain T) id () (some t) block maxSize streamID).err =
        (endSection t streamID st.ric
          (decodeFrom (readPlain T) (some t.table) st.base st.ric maxSize st.rest.length
            () 0 0 [] st.rest).stop).2 := by
  unfold decode
  rw [h]
  dsimp only
  rw [sectionStart_dynamic h hric, if_pos rfl]
  dsimp only
  rw [if_neg (not_lt.2 hready)]
  exact ⟨rfl, rfl⟩

/-- After any run of a decoder: a section that refers to its table, need not wait, and is decoded or given up on for its
size, is acknowledged once, and its stream waits no more, just when it comes to no single string that is too long. -/
theorem section_acknowledged_iff (T : HuffmanTable) (maxCapacity maxBlocked : ℕ) (ops : List DecoderOp) (block : Bytes)
    (maxSize streamID : ℕ) (t : DecoderTable) (st : SectionStart)
    (ht : ((Decoder.machine T maxCapacity maxBlocked).run ops).dyn = some t)
    (hstart : sectionStart (some t) block = .ok st) (hric : st.ric ≠ 0) (hready : st.ric ≤ t.table.inserted)
    (hres : (((Decoder.machine T maxCapacity maxBlocked).run ops).appendSection
      (Recents.read T) Recents.start block maxSize
        streamID).err = none ∨
      (((Decoder.machine T maxCapacity maxBlocked).run ops).appendSection (Recents.read T) Recents.start block maxSize
        streamID).err = some .tooLarge) :
    (∃ t', (((Decoder.machine T maxCapacity maxBlocked).run ops).appendSection
      (Recents.read T) Recents.start block maxSize
        streamID).dyn = some t' ∧ t'.out = t.out ++ [.ack streamID] ∧ streamID ∉ t'.blocked) ↔
      ¬ MeetsOverlong T (some t.table) st.base st.ric maxSize 0 st.rest := by
  have hreader := (Decoder.agrees_run T maxCapacity maxBlocked ops).reader
  obtain ⟨hdyn, -, herr, -⟩ := decode_recents maxSize hreader (some t) block streamID
  obtain ⟨hdyn', herr'⟩ := decode_ready hstart hric hready maxSize streamID
  unfold Decoder.appendSection at hres ⊢
  rw [ht, herr, herr'] at hres
  rw [ht, hdyn, hdyn', ← decodeFrom_tooLarge 0 0 [] le_rfl]
  generalize
    (decodeFrom (readPlain T) (some t.table) st.base st.ric maxSize st.rest.length () 0 0 [] st.rest).stop =
      stop at hres ⊢
  have hack : (t.acknowledge streamID st.ric).out = t.out ++ [.ack streamID] ∧
      streamID ∉ (t.acknowledge streamID st.ric).blocked := by
    unfold DecoderTable.acknowledge
    rw [if_neg hric]
    exact ⟨rfl, by simp⟩
  cases stop with
  | failed e =>
    have he : e = .tooLarge := by simpa [endSection] using hres
    subst he
    refine ⟨?_, fun h => absurd rfl h⟩
    rintro ⟨t', ht', hout, -⟩
    cases ht'
    simp [endSection] at hout
  | overSize => exact ⟨fun _ h => absurd h (by simp), fun _ => ⟨_, rfl, hack⟩⟩
  | finished largest =>
    have hl : largest = st.ric := by
      by_contra hne
      simp [endSection, hne] at hres
    refine ⟨fun _ h => absurd h (by simp), fun _ => ⟨_, rfl, ?_⟩⟩
    simp only [endSection, hl, ne_eq, not_true_eq_false, if_false]
    exact hack

def oneEntry : Decoder Recents := (Decoder.machine noHuffman 4096 1).run [.feedEncoder oneInsertion]

def longValue : Bytes := [0x02, 0x00, 0x80, 0x50, 0x29] ++ replicate 41 97

/-- The section refers to an entry that is there. It is given up on as the value is longer than 40 bytes, and the
encoder does not hear of it. -/
theorem long_value_not_acknowledged : sectionStart oneEntry.dyn longValue = .ok ⟨true, 1, 1, longValue.drop 2⟩ ∧
      (oneEntry.dyn.map fun t => t.table.inserted) = some 1 ∧
      (oneEntry.appendSection (Recents.read noHuffman) Recents.start longValue 40 7).err = some .tooLarge ∧
      (oneEntry.dyn.map DecoderTable.out) = some [.increment 1] ∧
      ((oneEntry.appendSection (Recents.read noHuffman) Recents.start longValue 40 7).dyn.map DecoderTable.out) =
        some [.increment 1] :=
  ⟨by rfl, by decide, by decide, by decide, by decide⟩

/-- The section of the entry alone is acknowledged: it comes to no string at all. -/
theorem entry_acknowledged : ¬ MeetsOverlong noHuffman (some ⟨[⟨[97], [98]⟩], 1, 34, 64⟩) 1 1 40 0 [0x80] :=
  (section_acknowledged_iff noHuffman 4096 1 [.feedEncoder oneInsertion] [0x02, 0x00, 0x80] 40 7
    ⟨⟨[⟨[97], [98]⟩], 1, 34, 64⟩, 4096, 1, [], 1, [], [.increment 1]⟩ ⟨true, 1, 1, [0x80]⟩ (by decide) (by rfl)
    (by decide) (by decide) (.inl (by decide))).1
    ⟨⟨⟨[⟨[97], [98]⟩], 1, 34, 64⟩, 4096, 1, [], 1, [], [.increment 1, .ack 7]⟩, by decide, rfl, by decide⟩

end Fib.Qpack
