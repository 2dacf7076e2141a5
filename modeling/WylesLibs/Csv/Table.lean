import WylesLibs.Csv.Batches

/-! Tables as text, with a free choice of which fields are quoted, and what the reader makes of
them. -/
namespace WylesLibs.Csv
open Library WylesLibs.Stream Datastructures

structure Field where
  quoted : Bool
  text : List UInt8

def escape (text : List UInt8) : List UInt8 :=
  text.flatMap fun b => if b = Byte.quote then [Byte.quote, Byte.quote] else [b]

def encodeField (f : Field) : List UInt8 :=
  if f.quoted then Byte.quote :: escape f.text ++ [Byte.quote] else f.text

def encodeRow (separator : UInt8) : List Field → List UInt8
  | [] => [Byte.newline]
  | [f] => encodeField f ++ [Byte.newline]
  | f :: g :: row => encodeField f ++ separator :: encodeRow separator (g :: row)

/-- The bytes that only a quoted field may hold. -/
def special (separator : UInt8) : List UInt8 :=
  [separator, Byte.newline, Byte.carriageReturn, Byte.quote]

/-- A table that can be encoded. The separator is none of the other special bytes. -/
structure Table (separator : UInt8) where
  rows : List (List Field)
  columns : Nat
  separator_special : (special separator).Nodup
  rows_ne_nil : rows ≠ []
  columns_ne_zero : columns ≠ 0
  rectangular : ∀ row ∈ rows, row.length = columns
  no_eof : ∀ row ∈ rows, ∀ f ∈ row, eofByte ∉ f.text
  quoted : ∀ row ∈ rows, ∀ f ∈ row, (∃ b ∈ f.text, b ∈ special separator) → f.quoted = true

def texts (row : List Field) : Record := row.map Field.text

namespace Table
variable {separator : UInt8}

def encoded (t : Table separator) : List UInt8 :=
  t.rows.flatMap (encodeRow separator) ++ [eofByte]

def records (t : Table separator) : List Record := t.rows.map texts

end Table

/-- A field that no delimiter stands in. -/
def Field.Plain (separator : UInt8) (f : Field) : Prop :=
  ∀ b ∈ f.text, isDelimeter separator b = false

/-- A field of a table that can be encoded. -/
structure Field.Valid (separator : UInt8) (f : Field) : Prop where
  no_eof : eofByte ∉ f.text
  quoted : (∃ b ∈ f.text, b ∈ special separator) → f.quoted = true

section
variable {separator b d : UInt8} {text cur rest : List UInt8} {n : Nat} {pending : Option Record}
  {f : Field} {row : List Field}

@[simp] theorem isDelimeter_newline : isDelimeter separator Byte.newline = true := by
  simp [isDelimeter]

theorem isDelimeter_quote (h : (special separator).Nodup) :
    isDelimeter separator Byte.quote = false := by
  have hne : Byte.quote ≠ separator := by
    rintro rfl
    simp [special] at h
  have hnewline : ¬ Byte.quote = Byte.newline := by decide
  simp [isDelimeter, isSeparator, hne, hnewline]

theorem isDelimeter_return (h : (special separator).Nodup) :
    isDelimeter separator Byte.carriageReturn = false := by
  have hne : Byte.carriageReturn ≠ separator := by
    rintro rfl
    simp [special] at h
  have hnewline : ¬ Byte.carriageReturn = Byte.newline := by decide
  simp [isDelimeter, isSeparator, hne, hnewline]

theorem isDelimeter_eofByte : isDelimeter separator eofByte = false := by
  simp only [isDelimeter, isSeparator, Bool.or_eq_false_iff, Bool.and_eq_false_iff,
    decide_eq_false_iff_not]
  refine ⟨?_, by decide⟩
  by_cases h : eofByte = separator
  · exact Or.inl (h ▸ by decide)
  · exact Or.inr h

/-- A delimiter is no byte that is looked at before. -/
theorem ne_of_isDelimeter (hs : (special separator).Nodup) (hd : isDelimeter separator d = true) :
    d ≠ eofByte ∧ d ≠ Byte.quote ∧ d ≠ Byte.carriageReturn := by
  refine ⟨?_, ?_, ?_⟩
  · rintro rfl
    rw [isDelimeter_eofByte] at hd
    cases hd
  · rintro rfl
    rw [isDelimeter_quote hs] at hd
    cases hd
  · rintro rfl
    rw [isDelimeter_return hs] at hd
    cases hd

/-! One byte after the other. -/

theorem lex_delimeter (hs : (special separator).Nodup) (hd : isDelimeter separator d = true)
    (quoted : Bool) : lex separator ⟨d :: rest, quoted, cur⟩ =
      (if d = Byte.newline then .last cur else .field cur, ⟨rest, quoted, []⟩) := by
  obtain ⟨heof, hquote, hreturn⟩ := ne_of_isDelimeter hs hd
  cases quoted <;> simp [lex, deliver, heof, hquote, hreturn, hd]

theorem lex_text (hb : isDelimeter separator b = false) (heof : b ≠ eofByte)
    (hquote : b ≠ Byte.quote) (hreturn : b ≠ Byte.carriageReturn) :
    lex separator ⟨b :: rest, false, cur⟩ = (.taken, ⟨rest, false, cur ++ [b]⟩) := by
  simp [lex, deliver, heof, hquote, hreturn, hb]

theorem lex_quoted_text (hb : isDelimeter separator b = false) (heof : b ≠ eofByte)
    (hquote : b ≠ Byte.quote) :
    lex separator ⟨b :: rest, true, cur⟩ = (.taken, ⟨rest, true, cur ++ [b]⟩) := by
  simp [lex, deliver, heof, hquote, hb]

theorem lex_doubled (hs : (special separator).Nodup) :
    lex separator ⟨Byte.quote :: Byte.quote :: rest, true, cur⟩ =
      (.taken, ⟨rest, true, cur ++ [Byte.quote]⟩) := by
  have heof : Byte.quote ≠ eofByte := by decide
  simp [lex, deliver, heof, isDelimeter_quote hs]

theorem lex_open : lex separator ⟨Byte.quote :: rest, false, []⟩ = (.skipped, ⟨rest, true, []⟩) := by
  have heof : Byte.quote ≠ eofByte := by decide
  simp [lex, heof]

theorem lex_close (hs : (special separator).Nodup) (hd : isDelimeter separator d = true) :
    lex separator ⟨Byte.quote :: d :: rest, true, cur⟩ = (.skipped, ⟨d :: rest, false, cur⟩) := by
  obtain ⟨-, hquote, -⟩ := ne_of_isDelimeter hs hd
  have heof : Byte.quote ≠ eofByte := by decide
  simp [lex, heof, hquote, hd]

/-! Fields. -/

/-- The rest of a call, the delimiter `d` having ended the field that makes the record `r`. -/
def afterField (separator : UInt8) (n : Nat) (d : UInt8) (r : Record) (l : Lexer) : Batch :=
  if d = Byte.newline then
    let b := batchFrom separator n l none
    { b with records := r :: b.records }
  else batchFrom separator (n + 1) l (some r)

theorem batchFrom_delimeter (hs : (special separator).Nodup)
    (hd : isDelimeter separator d = true) (quoted : Bool) :
    batchFrom separator (n + 1) ⟨d :: rest, quoted, cur⟩ pending =
      afterField separator n d (pending.getD [] ++ [cur]) ⟨rest, quoted, []⟩ := by
  rw [batchFrom_succ, lex_delimeter hs hd, afterField]
  by_cases hnewline : d = Byte.newline <;> simp [hnewline]

/-- A text without special bytes. -/
theorem batchFrom_text (hs : (special separator).Nodup) (hd : isDelimeter separator d = true)
    (htext : ∀ b ∈ text, b ∉ special separator) (heof : eofByte ∉ text) :
    batchFrom separator (n + 1) ⟨text ++ d :: rest, false, cur⟩ pending =
      afterField separator n d (pending.getD [] ++ [cur ++ text]) ⟨rest, false, []⟩ := by
  induction text generalizing cur pending with
  | nil => simpa using batchFrom_delimeter hs hd false
  | cons b text ih =>
    obtain ⟨hb, htext⟩ := List.forall_mem_cons.mp htext
    rw [List.mem_cons, not_or] at heof
    simp only [special, List.mem_cons, List.not_mem_nil, or_false, not_or] at hb
    have hdelimeter : isDelimeter separator b = false := by simp [isDelimeter, isSeparator, hb]
    rw [List.cons_append, batchFrom_succ,
      lex_text hdelimeter (Ne.symm heof.1) hb.2.2.2 hb.2.2.1]
    simp only [ih htext heof.2]
    simp

/-- A quoted text, up to where a delimiter stands in it. -/
theorem batchFrom_escape (hs : (special separator).Nodup)
    (htext : ∀ b ∈ text, isDelimeter separator b = false) (heof : eofByte ∉ text) :
    ∃ pending', pending'.getD [] = pending.getD [] ∧
      batchFrom separator (n + 1) ⟨escape text ++ rest, true, cur⟩ pending =
        batchFrom separator (n + 1) ⟨rest, true, cur ++ text⟩ pending' := by
  induction text generalizing cur pending with
  | nil => exact ⟨pending, rfl, by simp [escape]⟩
  | cons b text ih =>
    obtain ⟨hb, htext⟩ := List.forall_mem_cons.mp htext
    rw [List.mem_cons, not_or] at heof
    obtain ⟨pending', hpending, hbatch⟩ := @ih (cur ++ [b]) (some (pending.getD [])) htext heof.2
    refine ⟨pending', hpending, ?_⟩
    have hcons : escape (b :: text) =
        (if b = Byte.quote then [Byte.quote, Byte.quote] else [b]) ++ escape text := rfl
    rw [hcons, batchFrom_succ]
    by_cases hquote : b = Byte.quote
    · subst hquote
      simp only [if_true, List.cons_append, List.nil_append, lex_doubled hs, hbatch]
      simp
    · simp only [hquote, if_false, List.cons_append, List.nil_append,
        lex_quoted_text hb (Ne.symm heof.1) hquote, hbatch]
      simp

theorem batchFrom_field (hs : (special separator).Nodup) (hd : isDelimeter separator d = true)
    (hf : f.Valid separator) (hplain : f.Plain separator) :
    batchFrom separator (n + 1) ⟨encodeField f ++ d :: rest, false, []⟩ pending =
      afterField separator n d (pending.getD [] ++ [f.text]) ⟨rest, false, []⟩ := by
  cases hquoted : f.quoted with
  | false =>
    have htext : ∀ b ∈ f.text, b ∉ special separator := by
      intro b hb hspecial
      rw [hf.quoted ⟨b, hb, hspecial⟩] at hquoted
      cases hquoted
    simpa [encodeField, hquoted] using @batchFrom_text _ _ _ [] _ _ _ hs hd htext hf.no_eof
  | true =>
    obtain ⟨pending', hpending, hbatch⟩ := @batchFrom_escape _ _ []
      (Byte.quote :: d :: rest) n pending hs hplain hf.no_eof
    have hencode : encodeField f ++ d :: rest =
        Byte.quote :: (escape f.text ++ Byte.quote :: d :: rest) := by
      simp [encodeField, hquoted]
    rw [hencode, batchFrom_succ, lex_open]
    simp only [hbatch]
    rw [batchFrom_succ, lex_close hs hd]
    simp only [batchFrom_delimeter hs hd, hpending, List.nil_append]

/-! Rows. -/

theorem Field.Valid.of_mem {t : Table separator} (hrow : row ∈ t.rows) :
    ∀ f ∈ row, f.Valid separator :=
  fun f hf => ⟨t.no_eof row hrow f hf, t.quoted row hrow f hf⟩

/-- A separator that the reader knows, or none at all. -/
def Joined (separator : UInt8) (row : List Field) : Prop := separator < 0x80 ∨ row.length = 1

theorem isDelimeter_separator (h : separator < 0x80) : isDelimeter separator separator = true := by
  simp [isDelimeter, isSeparator, h]

theorem separator_ne_newline (hs : (special separator).Nodup) : separator ≠ Byte.newline := by
  rintro rfl
  simp [special] at hs

theorem Joined.tail {g : Field} (h : Joined separator (f :: g :: row)) : separator < 0x80 := by
  obtain h | h := h
  · exact h
  · simp at h

theorem batchFrom_row (hs : (special separator).Nodup) (hne : row ≠ [])
    (hjoined : Joined separator row) (hvalid : ∀ f ∈ row, f.Valid separator)
    (hplain : ∀ f ∈ row, f.Plain separator) :
    batchFrom separator (n + 1) ⟨encodeRow separator row ++ rest, false, []⟩ pending =
      afterField separator n Byte.newline (pending.getD [] ++ texts row) ⟨rest, false, []⟩ := by
  induction row generalizing pending with
  | nil => exact absurd rfl hne
  | cons f row ih =>
    obtain ⟨hf, hvalid⟩ := List.forall_mem_cons.mp hvalid
    obtain ⟨hfplain, hplain⟩ := List.forall_mem_cons.mp hplain
    cases row with
    | nil =>
      rw [encodeRow, List.append_assoc, List.singleton_append,
        batchFrom_field hs isDelimeter_newline hf hfplain]
      rfl
    | cons g row =>
      have hlow := hjoined.tail
      rw [encodeRow, List.append_assoc, List.cons_append,
        batchFrom_field hs (isDelimeter_separator hlow) hf hfplain, afterField,
        if_neg (separator_ne_newline hs), ih (by simp) (Or.inl hlow) hvalid hplain]
      simp [texts]

theorem batchFrom_rows {rows : List (List Field)} (hs : (special separator).Nodup)
    (hne : ∀ row ∈ rows, row ≠ []) (hjoined : ∀ row ∈ rows, Joined separator row)
    (hvalid : ∀ row ∈ rows, ∀ f ∈ row, f.Valid separator)
    (hplain : ∀ row ∈ rows, ∀ f ∈ row, f.Plain separator) (hn : rows.length ≤ n) :
    ∃ io, batchFrom separator n ⟨rows.flatMap (encodeRow separator) ++ [eofByte], false, []⟩ none =
      ⟨rows.map texts, none, .ok (), io⟩ := by
  induction rows generalizing n with
  | nil =>
    cases n with
    | zero => exact ⟨_, batchFrom_zero⟩
    | succ n => exact ⟨[], by rw [batchFrom_succ]; simp [lex]⟩
  | cons row rows ih =>
    obtain ⟨n, rfl⟩ : ∃ m, n = m + 1 := ⟨n - 1, by simp only [List.length_cons] at hn; omega⟩
    rw [List.forall_mem_cons] at hne hjoined hvalid hplain
    obtain ⟨io, hio⟩ := ih hne.2 hjoined.2 hvalid.2 hplain.2 (Nat.le_of_succ_le_succ hn)
    refine ⟨io, ?_⟩
    rw [List.flatMap_cons, List.append_assoc,
      batchFrom_row hs hne.1 hjoined.1 hvalid.1 hplain.1, afterField, if_pos rfl, hio]
    rfl

/-! What is lost when a delimiter stands in a field. -/

theorem head_rows_afterField {r : Record} {l : Lexer} :
    ∃ r' rows, (afterField separator n d r l).rows = r' :: rows ∧ r <+: r' := by
  unfold afterField
  split
  · exact ⟨r, _, rfl, List.prefix_rfl⟩
  · exact head_rows_of_pending

/-- What stands before the first delimiter. -/
theorem split_first (hb : b ∈ text) (hd : isDelimeter separator b = true) :
    ∃ pre d post, text = pre ++ d :: post ∧ (∀ c ∈ pre, isDelimeter separator c = false) ∧
      isDelimeter separator d = true := by
  induction text with
  | nil => cases hb
  | cons c text ih =>
    cases hc : isDelimeter separator c with
    | true => exact ⟨[], c, text, rfl, by simp, hc⟩
    | false =>
      have hmem : b ∈ text := by
        obtain rfl | hmem := List.mem_cons.mp hb
        · rw [hc] at hd
          cases hd
        · exact hmem
      obtain ⟨pre, d, post, htext, hpre, hd'⟩ := ih hmem
      exact ⟨c :: pre, d, post, by rw [htext]; rfl, List.forall_mem_cons.mpr ⟨hc, hpre⟩, hd'⟩

/-- The cell ends where the delimiter stands. -/
theorem head_rows_of_not_plain (hs : (special separator).Nodup) (hf : f.Valid separator)
    (hplain : ¬ f.Plain separator) : ∃ text r rows, text ≠ f.text ∧
      (batchFrom separator (n + 1) ⟨encodeField f ++ rest, false, []⟩ pending).rows = r :: rows ∧
      pending.getD [] ++ [text] <+: r := by
  obtain ⟨b, hb, hdelimeter⟩ : ∃ b ∈ f.text, isDelimeter separator b = true := by
    simpa [Field.Plain] using hplain
  obtain ⟨text, d, rest', htext, htextplain, hd⟩ := split_first hb hdelimeter
  obtain ⟨-, hquote, -⟩ := ne_of_isDelimeter hs hd
  have hspecial : d ∈ special separator := by
    simp only [isDelimeter, isSeparator, Bool.or_eq_true, Bool.and_eq_true,
      decide_eq_true_eq] at hd
    obtain ⟨-, hd⟩ | hd := hd <;> simp [special, hd]
  have hquoted : f.quoted = true := hf.quoted ⟨d, by simp [htext], hspecial⟩
  have hno_eof : eofByte ∉ text := fun h => hf.no_eof (by simp [htext, h])
  have hencode : encodeField f ++ rest =
      Byte.quote :: (escape text ++ d :: (escape rest' ++ Byte.quote :: rest)) := by
    simp [encodeField, hquoted, htext, escape, hquote]
  obtain ⟨pending', hpending, hbatch⟩ := @batchFrom_escape _ _ []
    (d :: (escape rest' ++ Byte.quote :: rest)) n pending hs htextplain hno_eof
  obtain ⟨r, rows, hrows, hprefix⟩ := @head_rows_afterField separator d n
    (pending.getD [] ++ [text]) ⟨escape rest' ++ Byte.quote :: rest, true, []⟩
  refine ⟨text, r, rows, by simp [htext], ?_, hprefix⟩
  rw [hencode, batchFrom_succ, lex_open]
  simp only [hbatch]
  rw [batchFrom_delimeter hs hd, hpending, List.nil_append]
  exact hrows

/-- The first row of the reader is the row that was encoded only if its fields are plain. -/
theorem plain_of_head_rows (hs : (special separator).Nodup) (hjoined : Joined separator row)
    (hvalid : ∀ f ∈ row, f.Valid separator)
    (hhead : (batchFrom separator (n + 1) ⟨encodeRow separator row ++ rest, false, []⟩
      pending).rows.head? = some (pending.getD [] ++ texts row)) :
    ∀ f ∈ row, f.Plain separator := by
  induction row generalizing pending with
  | nil => simp
  | cons f row ih =>
    obtain ⟨hf, hvalid⟩ := List.forall_mem_cons.mp hvalid
    have hfplain : f.Plain separator := by
      by_contra hplain
      obtain ⟨rest', hrest⟩ : ∃ rest', encodeRow separator (f :: row) ++ rest =
          encodeField f ++ rest' := by
        cases row with
        | nil => exact ⟨_, List.append_assoc _ _ _⟩
        | cons g row => exact ⟨_, List.append_assoc _ _ _⟩
      obtain ⟨text, r, rows, hne, hrows, hprefix⟩ := @head_rows_of_not_plain _ rest' n
        pending _ hs hf hplain
      rw [hrest, hrows] at hhead
      obtain rfl : r = pending.getD [] ++ texts (f :: row) := Option.some.inj hhead
      obtain ⟨htext, -⟩ := List.cons_prefix_cons.mp ((List.prefix_append_right_inj _).mp hprefix)
      exact hne htext
    refine List.forall_mem_cons.mpr ⟨hfplain, ?_⟩
    cases row with
    | nil => simp
    | cons g row =>
      have hlow := hjoined.tail
      refine @ih (some (pending.getD [] ++ [f.text])) (Or.inl hlow) hvalid ?_
      rw [encodeRow, List.append_assoc, List.cons_append,
        batchFrom_field hs (isDelimeter_separator hlow) hf hfplain, afterField,
        if_neg (separator_ne_newline hs)] at hhead
      simpa [texts] using hhead

/-- So it is with all rows. -/
theorem plain_of_rows {rows : List (List Field)} (hs : (special separator).Nodup)
    (hne : ∀ row ∈ rows, row ≠ []) (hjoined : ∀ row ∈ rows, Joined separator row)
    (hvalid : ∀ row ∈ rows, ∀ f ∈ row, f.Valid separator) (hn : rows.length ≤ n)
    (hrows : (batchFrom separator n ⟨rows.flatMap (encodeRow separator) ++ rest, false, []⟩
      none).rows = rows.map texts) :
    ∀ row ∈ rows, ∀ f ∈ row, f.Plain separator := by
  induction rows generalizing n with
  | nil => simp
  | cons row rows ih =>
    obtain ⟨n, rfl⟩ : ∃ m, n = m + 1 := ⟨n - 1, by simp only [List.length_cons] at hn; omega⟩
    rw [List.forall_mem_cons] at hne hjoined hvalid
    rw [List.flatMap_cons, List.append_assoc] at hrows
    have hplain := plain_of_head_rows hs hjoined.1 hvalid.1 (by rw [hrows]; rfl)
    refine List.forall_mem_cons.mpr ⟨hplain, ih hne.2 hjoined.2 hvalid.2 (Nat.le_of_succ_le_succ hn) ?_⟩
    rw [batchFrom_row hs hne.1 hjoined.1 hvalid.1 hplain, afterField, if_pos rfl] at hrows
    exact (List.cons.inj hrows).2

theorem length_rows_le {steps : Nat} {l : Lexer} (hpending : n = 0 → pending = none) :
    (batchLoop separator steps n l pending).rows.length ≤ n := by
  induction steps generalizing n l pending with
  | zero =>
    cases n with
    | zero => simp [batchLoop, Batch.rows, hpending rfl]
    | succ n => cases pending <;> simp [batchLoop, Batch.rows]
  | succ steps ih =>
    cases n with
    | zero => simp [batchLoop, Batch.rows, hpending rfl]
    | succ n =>
      rw [batchLoop]
      cases (lex separator l).1 with
      | skipped => exact ih (by simp)
      | taken => exact ih (by simp)
      | field str => exact ih (by simp)
      | last str =>
        have hrec : (batchLoop separator steps n (lex separator l).2 none).rows.length ≤ n :=
          ih (by simp)
        simp only [Batch.rows, List.length_append, List.length_cons] at hrec ⊢
        omega
      | ended => cases pending <;> simp [Batch.rows]
      | failed w => cases pending <;> simp [Batch.rows]

theorem deliver_ne_field {l : Lexer} {str : List UInt8} (hhigh : ¬ separator < 0x80) :
    (deliver separator b l).1 ≠ .field str := by
  unfold deliver
  by_cases hnewline : b = Byte.newline
  · simp [hnewline]
  · have hdelimeter : isDelimeter separator b = false := by
      simp [isDelimeter, isSeparator, hhigh, hnewline]
    simp [hdelimeter]

theorem lex_ne_field {l : Lexer} {str : List UInt8} (hhigh : ¬ separator < 0x80) :
    (lex separator l).1 ≠ .field str := by
  obtain ⟨io, quoted, currentStr⟩ := l
  cases io with
  | nil => simp [lex]
  | cons b io =>
    unfold lex
    simp only
    split_ifs
    · simp
    · simp
    · simp
    · simp
    · exact deliver_ne_field hhigh
    · cases io with
      | nil => simp
      | cons peeked io =>
        simp only
        split_ifs
        · exact deliver_ne_field hhigh
        · simp
        · simp
    · exact deliver_ne_field hhigh

/-- Without a separator that the reader knows, no row has a second cell. -/
theorem length_row_le_one {steps : Nat} {l : Lexer} (hhigh : ¬ separator < 0x80)
    (hpending : pending.getD [] = []) :
    ∀ r ∈ (batchLoop separator steps n l pending).rows, r.length ≤ 1 := by
  have hbegun : ∀ r ∈ pending.toList, r.length ≤ 1 := by
    cases pending with
    | none => simp
    | some r =>
      obtain rfl : r = [] := hpending
      simp
  induction steps generalizing n l pending with
  | zero => cases n <;> exact hbegun
  | succ steps ih =>
    cases n with
    | zero => exact hbegun
    | succ n =>
      rw [batchLoop]
      cases htoken : (lex separator l).1 with
      | skipped => exact ih hpending hbegun
      | taken => exact ih hpending (by simp [hpending])
      | field str => exact absurd htoken (lex_ne_field hhigh)
      | last str => exact List.forall_mem_cons.mpr ⟨by simp [hpending], ih rfl (by simp)⟩
      | ended => exact hbegun
      | failed w => exact hbegun

end

namespace Table
variable {separator : UInt8} {t : Table separator}

/-- No delimiter stands in a field, the separator is one that the reader knows, and a `size_t` can
count the rows. -/
structure Plain (t : Table separator) : Prop where
  plain : ∀ row ∈ t.rows, ∀ f ∈ row, f.Plain separator
  joined : separator < 0x80 ∨ t.columns = 1
  counted : t.rows.length ≤ sizeMax

theorem row_ne_nil {row : List Field} (hrow : row ∈ t.rows) : row ≠ [] := by
  rintro rfl
  exact t.columns_ne_zero (t.rectangular [] hrow).symm

theorem joined_row (h : separator < 0x80 ∨ t.columns = 1) {row : List Field} (hrow : row ∈ t.rows) :
    Joined separator row :=
  h.imp_right fun hcolumns => (t.rectangular row hrow).trans hcolumns

/-- On a new reader the rows are the records. -/
theorem readAll_new (io : List UInt8) (views : Views) : ∃ o,
    readAll false ⟨io, 0, separator, [], [], views⟩ = (o.1, o.2.csv) ∧
      Stored [] [] separator 0 views (batch separator sizeMax io) o := by
  obtain ⟨o, hread, hstored⟩ :=
    Batches.read_stored ⟨⟨io, 0, separator, [], [], views⟩, none⟩ sizeMax
  exact ⟨o, hread, hstored⟩

theorem covers_nil (records : List Record) : Covers [] records := by simp [Covers]

theorem coverRows_nil (records : List Record) : coverRows [] records = records := by
  rw [(covers_nil records).rows, List.drop_nil, List.append_nil]

/-- Rows of one length fit. -/
theorem fits_records (t : Table separator) : Fits 0 (sizes [] t.records) := by
  have hlength : ∀ x ∈ t.records.map List.length, x = t.columns := by
    intro x hx
    obtain ⟨r, hr, rfl⟩ := List.mem_map.mp hx
    obtain ⟨row, hrow, rfl⟩ := List.mem_map.mp hr
    rw [texts, List.length_map, t.rectangular row hrow]
  rw [(covers_nil t.records).sizes, fits_iff fun x hx => (hlength x hx) ▸ t.columns_ne_zero]
  intro x hx
  rw [hlength x hx]
  cases hsizes : t.records.map List.length with
  | nil => simp [hsizes] at hx
  | cons y ys => exact (hlength y (by simp [hsizes])).symm

/-- A call on new rows that returns leaves what it took, every pointer on the way being null. -/
theorem stored_returned {size : Nat} {views : Views} {b : Batch} {o : Outcome Unit × Reading}
    (h : Stored [] [] separator size views b o) (hok : o.1 = .ok ()) :
    b.ending = .ok () ∧ o.2.csv.rows = b.rows ∧ ∀ i < b.rows.length, views.null false i = true := by
  have hviewed := h.viewed hok
  have hfits : Fits size (sizes [] b.records) := by
    by_contra hmisfits
    rw [h.misfits hviewed hmisfits] at hok
    cases hok
  obtain ⟨hending, hrows, -⟩ := h.fits hviewed hfits
  refine ⟨hending.symm.trans hok, ?_, fun i hi => ?_⟩
  · rw [hrows, List.nil_append, coverRows_nil]
  · simpa using hviewed i hi

/-- The reader gives back a table exactly if it is plain, the separator is one it is made with, and
memory holds null where the pointers of the rows are not set. -/
theorem readAll_encoded_iff (t : Table separator) (views : Views) :
    (∃ c c', make t.encoded separator views = .ok c ∧ readAll false c = (.ok (), c') ∧
      c'.rows = t.records) ↔
    separator ≠ Byte.dot ∧ t.Plain ∧ ∀ i < t.rows.length, views.null false i = true := by
  obtain ⟨o, hread, hstored⟩ := @readAll_new separator t.encoded views
  have hvalid : ∀ row ∈ t.rows, ∀ f ∈ row, f.Valid separator := fun row => Field.Valid.of_mem
  constructor
  · rintro ⟨c, c', hmake, hreadAll, hrows⟩
    have hdot : separator ≠ Byte.dot := by
      rintro rfl
      cases hmake
    obtain rfl : ⟨t.encoded, 0, separator, [], [], views⟩ = c := by
      rw [make, if_neg hdot] at hmake
      exact Outcome.ok.inj hmake
    rw [hread, Prod.mk.injEq] at hreadAll
    obtain ⟨hok, rfl⟩ := hreadAll
    obtain ⟨-, htaken, hnull⟩ := stored_returned hstored hok
    rw [hrows] at htaken
    have hlen : (batch separator sizeMax t.encoded).rows.length = t.rows.length := by
      rw [← htaken, records, List.length_map]
    have hcounted : t.rows.length ≤ sizeMax := by
      have hle := @length_rows_le separator sizeMax none (t.encoded.length + 1)
        ⟨t.encoded, false, []⟩ (fun _ => rfl)
      exact hlen ▸ hle
    have hjoined : separator < 0x80 ∨ t.columns = 1 := by
      by_contra hneither
      obtain ⟨hhigh, hcolumns⟩ := not_or.mp hneither
      obtain ⟨row, hrow⟩ := List.exists_mem_of_ne_nil _ t.rows_ne_nil
      have hmem : texts row ∈ (batch separator sizeMax t.encoded).rows :=
        htaken ▸ List.mem_map_of_mem hrow
      have hle := length_row_le_one hhigh rfl _ hmem
      rw [texts, List.length_map, t.rectangular row hrow] at hle
      have hne := t.columns_ne_zero
      omega
    have hplain := plain_of_rows t.separator_special (fun _ => row_ne_nil)
      (fun _ => joined_row hjoined) hvalid hcounted htaken.symm
    rw [hlen] at hnull
    exact ⟨hdot, ⟨hplain, hjoined, hcounted⟩, hnull⟩
  · rintro ⟨hdot, hplain, hnull⟩
    obtain ⟨io, hbatch⟩ := batchFrom_rows t.separator_special (fun _ => row_ne_nil)
      (fun _ => joined_row hplain.joined) hvalid hplain.plain hplain.counted
    have hbatch : batch separator sizeMax t.encoded = ⟨t.records, none, .ok (), io⟩ := hbatch
    rw [hbatch] at hstored
    have hviewed : Viewed views 0 ⟨t.records, none, .ok (), io⟩ := by
      intro i hi
      rw [Nat.zero_add]
      exact hnull i (by simpa [Batch.rows, records] using hi)
    obtain ⟨hok, hrows, -⟩ := hstored.fits hviewed t.fits_records
    refine ⟨_, o.2.csv, if_neg hdot, by rw [hread, hok], ?_⟩
    rw [hrows, Batch.rows, Option.toList_none, List.append_nil, List.nil_append, coverRows_nil]

/-- One cell that holds a comma. -/
def comma : Table Byte.comma where
  rows := [[⟨true, [Byte.comma]⟩]]
  columns := 1
  separator_special := by decide
  rows_ne_nil := by simp
  columns_ne_zero := by simp
  rectangular := by simp
  no_eof := by decide
  quoted := by simp

theorem readAll_splits_comma : ¬ ∃ c c', make comma.encoded Byte.comma Views.zeros = .ok c ∧
    readAll false c = (.ok (), c') ∧ c'.rows = comma.records := by
  rintro ⟨c, c', hmake, hread, hrows⟩
  cases hmake
  have hsplit : (readAll false ⟨comma.encoded, 0, Byte.comma, [], [], Views.zeros⟩).2.rows =
      [[[], []]] := by
    decide +kernel
  rw [hread] at hsplit
  rw [hsplit] at hrows
  simp [comma, records, texts] at hrows

end Table
end WylesLibs.Csv
