import WylesLibs.Library.JsonText
import WylesLibs.StringUtils

/-! `pretty`, and which JSON texts are the same to a reader behind it. -/
namespace WylesLibs.Parser.Json
open Library.JsonText

def prettyTabs (depth : UInt8) : List UInt8 := List.replicate depth.toNat Byte.tab

/-- The loop over the text. `depth` is a `uint8_t`, and the brackets are told apart before
`allow_all` is looked at. -/
def prettyLoop : UInt8 → Bool → List UInt8 → List UInt8
  | _, _, [] => []
  | depth, allowAll, c :: json =>
    if c = Byte.openBrace ∨ c = Byte.openBracket then
      c :: Byte.newline :: (prettyTabs (depth + 1) ++ prettyLoop (depth + 1) allowAll json)
    else if c = Byte.closeBrace ∨ c = Byte.closeBracket then
      Byte.newline :: (prettyTabs (depth - 1) ++ c :: prettyLoop (depth - 1) allowAll json)
    else if c = Byte.comma then
      c :: Byte.newline :: (prettyTabs depth ++ prettyLoop depth allowAll json)
    else if c = Byte.colon then
      c :: Byte.space :: prettyLoop depth allowAll json
    else if c = Byte.quote then
      c :: prettyLoop depth (!allowAll) json
    else if allowAll = true then
      c :: prettyLoop depth allowAll json
    else
      prettyLoop depth allowAll json

def pretty (json : List UInt8) : List UInt8 := prettyLoop 0 false json

/-- What a formatter has to keep: the text but for the blanks outside its strings, and the document
also when it is used twice. -/
structure Preserved (json : List UInt8) : Prop where
  squeezed : squeeze .outside (pretty json) = squeeze .outside json
  denoted : ∀ doc, Denotes doc json → Denotes doc (pretty (pretty json))

/-- The texts that the loop keeps. `allowAll` is turned at every quote, also at one behind a
backslash: the words between strings and the characters in strings have to stand where it is on. Of
the structural characters a string may have a colon alone, with one space behind it, where
`allowAll` is off. -/
inductive Kept : Place → Bool → List UInt8 → Prop where
  | nil (p : Place) (allowAll : Bool) : Kept p allowAll []
  | quote {p : Place} {allowAll : Bool} {l : List UInt8} (h : Kept (p.next quote) (!allowAll) l) :
      Kept p allowAll (quote :: l)
  | between {allowAll : Bool} {c : UInt8} {l : List UInt8} (hc : c ∈ structural ∨ c ∈ blanks)
      (h : Kept .outside allowAll l) : Kept .outside allowAll (c :: l)
  | word {c : UInt8} {l : List UInt8} (hs : c ∉ structural) (hb : c ∉ blanks) (hq : c ≠ quote)
      (h : Kept .outside true l) : Kept .outside true (c :: l)
  | char {p : Place} {c : UInt8} {l : List UInt8} (hp : p ≠ .outside) (hs : c ∉ structural)
      (hq : c ≠ quote) (h : Kept (p.next c) true l) : Kept p true (c :: l)
  | colon {p : Place} {l : List UInt8} (hp : p ≠ .outside) (h : Kept .inside false l) :
      Kept p false (Byte.colon :: Byte.space :: l)

/-! One turn of the loop. -/

section
variable {depth : UInt8} {allowAll : Bool} {c : UInt8} {l : List UInt8}

theorem prettyLoop_quote :
    prettyLoop depth allowAll (quote :: l) = quote :: prettyLoop depth (!allowAll) l := rfl

theorem prettyLoop_on (hs : c ∉ structural) (hq : c ≠ quote) :
    prettyLoop depth true (c :: l) = c :: prettyLoop depth true l := by
  simp only [structural, List.mem_cons, List.not_mem_nil, or_false, not_or] at hs
  simp [prettyLoop, hs, hq]

theorem prettyLoop_off (hs : c ∉ structural) (hq : c ≠ quote) :
    prettyLoop depth false (c :: l) = prettyLoop depth false l := by
  simp only [structural, List.mem_cons, List.not_mem_nil, or_false, not_or] at hs
  simp [prettyLoop, hs, hq]

/-- What is put around a structural character: a line feed on one side of it, or the space behind a
colon. -/
inductive Around (c : UInt8) : List UInt8 → List UInt8 → Prop where
  | before (tabs : List UInt8) : Around c (lineFeed :: tabs) []
  | after (tabs : List UInt8) : Around c [] (lineFeed :: tabs)
  | colon (hc : c = Byte.colon) : Around c [] [Byte.space]

theorem prettyTabs_blank (depth : UInt8) : ∀ b ∈ prettyTabs depth, b ∈ blanks := by
  intro b hb
  rw [List.eq_of_mem_replicate hb]
  decide

theorem prettyLoop_structural (hc : c ∈ structural) (depth : UInt8) :
    ∃ before after depth', Around c before after ∧ (∀ b ∈ before ++ after, b ∈ blanks) ∧
      ∀ allowAll l, prettyLoop depth allowAll (c :: l) =
        before ++ c :: (after ++ prettyLoop depth' allowAll l) := by
  have hline : ∀ d, ∀ b ∈ lineFeed :: prettyTabs d, b ∈ blanks := by
    intro d b hb
    obtain rfl | hb := List.mem_cons.mp hb
    · exact lineFeed_blank
    · exact prettyTabs_blank d b hb
  simp only [structural, List.mem_cons, List.not_mem_nil, or_false] at hc
  obtain rfl | rfl | rfl | rfl | rfl | rfl := hc
  · exact ⟨[], lineFeed :: prettyTabs (depth + 1), depth + 1, .after _, hline _, fun _ _ => rfl⟩
  · refine ⟨lineFeed :: prettyTabs (depth - 1), [], depth - 1, .before _, ?_, ?_⟩
    · rw [List.append_nil]
      exact hline _
    · exact fun _ _ => rfl
  · exact ⟨[], lineFeed :: prettyTabs (depth + 1), depth + 1, .after _, hline _, fun _ _ => rfl⟩
  · refine ⟨lineFeed :: prettyTabs (depth - 1), [], depth - 1, .before _, ?_, ?_⟩
    · rw [List.append_nil]
      exact hline _
    · exact fun _ _ => rfl
  · refine ⟨[], [Byte.space], depth, .colon rfl, ?_, fun _ _ => rfl⟩
    intro b hb
    rw [List.mem_singleton.mp hb]
    decide
  · exact ⟨[], lineFeed :: prettyTabs depth, depth, .after _, hline _, fun _ _ => rfl⟩

end

/-! A kept text has its tokens behind `pretty` too. -/

section
variable {p : Place} {allowAll : Bool} {l word blank : List UInt8}

theorem tokens_blanks (hblank : ∀ b ∈ blank, b ∈ blanks) :
    tokens .outside [] (blank ++ l) = tokens .outside [] l := by
  induction blank with
  | nil => rfl
  | cons b blank ih =>
    obtain ⟨hb, hblank⟩ := List.forall_mem_cons.mp hblank
    rw [List.cons_append, tokens_blank hb, ih hblank]
    rfl

theorem tokens_around {before after : List UInt8} {c : UInt8} (hc : c ∈ structural)
    (hblank : ∀ b ∈ before ++ after, b ∈ blanks) :
    tokens .outside word (before ++ c :: (after ++ l)) =
      flush word ++ [c] :: tokens .outside [] l := by
  obtain ⟨hbefore, hafter⟩ := List.forall_mem_append.mp hblank
  cases before with
  | nil => rw [List.nil_append, tokens_structural hc, tokens_blanks hafter]
  | cons b before =>
    obtain ⟨hb, hbefore⟩ := List.forall_mem_cons.mp hbefore
    rw [List.cons_append, tokens_blank hb, tokens_blanks hbefore, tokens_structural hc,
      tokens_blanks hafter]
    rfl

/-- Outside strings no word is under way where `allowAll` is off. -/
theorem Kept.tokens_eq (h : Kept p allowAll l) (depth : UInt8)
    (hword : p = .outside → allowAll = false → word = []) :
    tokens p word (prettyLoop depth allowAll l) = tokens p word l := by
  induction h generalizing depth word with
  | nil => rfl
  | @quote p allowAll l h ih =>
    rw [prettyLoop_quote]
    cases p with
    | outside =>
      rw [tokens_quote, tokens_quote]
      exact congrArg _ (ih depth fun hp => by cases hp)
    | inside =>
      simp only [tokens, if_pos]
      exact congrArg _ (ih depth fun _ _ => rfl)
    | escaped => exact ih depth fun hp => by cases hp
  | @between allowAll c l hc h ih =>
    by_cases hs : c ∈ structural
    · obtain ⟨before, after, depth', -, hblank, hloop⟩ := prettyLoop_structural hs depth
      rw [hloop, tokens_around hs hblank, tokens_structural hs, ih depth' fun _ _ => rfl]
    · have hb : c ∈ blanks := hc.resolve_left hs
      rw [tokens_blank hb]
      cases allowAll with
      | true =>
        rw [prettyLoop_on hs (ne_quote_of_blank hb), tokens_blank hb, ih depth fun _ _ => rfl]
      | false =>
        rw [prettyLoop_off hs (ne_quote_of_blank hb), hword rfl rfl, ih depth fun _ _ => rfl]
        rfl
  | word hs hb hq h ih =>
    rw [prettyLoop_on hs hq, tokens_word hb hs hq, tokens_word hb hs hq]
    exact ih depth fun _ hoff => by cases hoff
  | char hp hs hq h ih =>
    rw [prettyLoop_on hs hq, tokens_within hp hq, tokens_within hp hq]
    exact ih depth fun _ hoff => by cases hoff
  | @colon p l hp h ih =>
    have hcolon : Byte.colon ∈ structural := by decide
    have hloop : prettyLoop depth false (Byte.colon :: Byte.space :: l) =
      Byte.colon :: Byte.space :: prettyLoop depth false l := rfl
    rw [hloop, tokens_within hp (by decide), tokens_within hp (by decide),
      next_of_structural hcolon hp, tokens_within (by decide) (by decide),
      tokens_within (by decide) (by decide)]
    exact ih depth fun hp => by cases hp

theorem Kept.blanks_append (hblank : ∀ b ∈ blank, b ∈ blanks) (h : Kept .outside allowAll l) :
    Kept .outside allowAll (blank ++ l) := by
  induction blank with
  | nil => exact h
  | cons b blank ih =>
    obtain ⟨hb, hblank⟩ := List.forall_mem_cons.mp hblank
    exact .between (Or.inr hb) (ih hblank)

/-- What is kept once is kept again. -/
theorem Kept.again (h : Kept p allowAll l) (depth : UInt8) :
    Kept p allowAll (prettyLoop depth allowAll l) := by
  induction h generalizing depth with
  | nil => exact .nil _ _
  | quote h ih => exact .quote (ih depth)
  | @between allowAll c l hc h ih =>
    by_cases hs : c ∈ structural
    · obtain ⟨before, after, depth', -, hblank, hloop⟩ := prettyLoop_structural hs depth
      obtain ⟨hbefore, hafter⟩ := List.forall_mem_append.mp hblank
      rw [hloop]
      exact Kept.blanks_append hbefore (.between (Or.inl hs) (Kept.blanks_append hafter (ih depth')))
    · have hb : c ∈ blanks := hc.resolve_left hs
      cases allowAll with
      | true =>
        rw [prettyLoop_on hs (ne_quote_of_blank hb)]
        exact .between hc (ih depth)
      | false =>
        rw [prettyLoop_off hs (ne_quote_of_blank hb)]
        exact ih depth
  | word hs hb hq h ih =>
    rw [prettyLoop_on hs hq]
    exact .word hs hb hq (ih depth)
  | char hp hs hq h ih =>
    rw [prettyLoop_on hs hq]
    exact .char hp hs hq (ih depth)
  | colon hp h ih => exact .colon hp (ih depth)

end

/-! A text that is not kept loses a character or gets one in a string. -/

section
variable {p : Place} {allowAll : Bool} {c : UInt8} {l m blank : List UInt8}

theorem squeeze_blanks (hblank : ∀ b ∈ blank, b ∈ blanks) :
    squeeze .outside (blank ++ l) = squeeze .outside l := by
  induction blank with
  | nil => rfl
  | cons b blank ih =>
    obtain ⟨hb, hblank⟩ := List.forall_mem_cons.mp hblank
    rw [List.cons_append, squeeze_blank hb, ih hblank]

theorem squeeze_around {before after : List UInt8} (hc : c ∈ structural)
    (hblank : ∀ b ∈ before ++ after, b ∈ blanks) :
    squeeze .outside (before ++ c :: (after ++ l)) = c :: squeeze .outside l := by
  obtain ⟨hbefore, hafter⟩ := List.forall_mem_append.mp hblank
  rw [squeeze_blanks hbefore,
    squeeze_outside (not_blank_of_structural hc) (ne_quote_of_structural hc), squeeze_blanks hafter]

/-- In a string the line feed stays. -/
theorem lineFeed_mem_around {before after : List UInt8} (hp : p ≠ .outside) (hs : c ∈ structural)
    (h : Around c before after) (hcolon : c ≠ Byte.colon) :
    lineFeed ∈ squeeze p (before ++ c :: (after ++ l)) := by
  cases h with
  | before tabs =>
    rw [List.cons_append, squeeze_within hp]
    exact List.mem_cons_self
  | after tabs =>
    rw [List.nil_append, squeeze_within hp, next_of_structural hs hp, List.cons_append,
      squeeze_within (by decide)]
    exact List.mem_cons_of_mem _ List.mem_cons_self
  | colon hc => exact absurd hc hcolon

/-- Where `allowAll` is off, nothing but quotes, structural characters and line feeds comes next. -/
theorem head_prettyLoop_off {depth : UInt8}
    (h : squeeze p (prettyLoop depth false l) = c :: m) :
    c = quote ∨ c ∈ structural ∨ c = lineFeed := by
  induction l generalizing depth with
  | nil => cases h
  | cons d l ih =>
    by_cases hq : d = quote
    · subst hq
      rw [prettyLoop_quote, squeeze_word quote_not_blank] at h
      exact Or.inl (List.cons.inj h).1.symm
    by_cases hs : d ∈ structural
    · obtain ⟨before, after, depth', haround, hblank, hloop⟩ := prettyLoop_structural hs depth
      rw [hloop] at h
      by_cases hp : p = .outside
      · subst hp
        rw [squeeze_around hs hblank] at h
        exact Or.inr (Or.inl ((List.cons.inj h).1 ▸ hs))
      · cases haround with
        | before tabs =>
          rw [List.cons_append, squeeze_within hp] at h
          exact Or.inr (Or.inr (List.cons.inj h).1.symm)
        | after tabs =>
          rw [List.nil_append, squeeze_within hp] at h
          exact Or.inr (Or.inl ((List.cons.inj h).1 ▸ hs))
        | colon hc =>
          rw [List.nil_append, squeeze_within hp] at h
          exact Or.inr (Or.inl ((List.cons.inj h).1 ▸ hs))
    · rw [prettyLoop_off hs hq] at h
      exact ih h

/-- A space too many is never made up for while `allowAll` is on. -/
theorem space_prettyLoop_ne (l : List UInt8) (depth : UInt8) :
    Byte.space :: squeeze .inside (prettyLoop depth true l) ≠ squeeze .inside l := by
  induction l with
  | nil => simp [squeeze]
  | cons d l ih =>
    intro h
    rw [squeeze_within (by decide)] at h
    obtain ⟨rfl, htail⟩ := List.cons.inj h
    rw [prettyLoop_on (by decide) (by decide), squeeze_within (by decide)] at htail
    exact ih htail

/-- Of the texts of at most `n` characters, those that are squeezed to the same are kept. -/
def KeptUpTo (n : Nat) : Prop :=
  ∀ (p : Place) (allowAll : Bool) (l : List UInt8) (depth : UInt8), l.length ≤ n →
    lineFeed ∉ squeeze p l → squeeze p (prettyLoop depth allowAll l) = squeeze p l →
      Kept p allowAll l

theorem kept_outside {n : Nat} (ih : KeptUpTo n) (hn : l.length ≤ n) (hq : c ≠ quote)
    (hl : lineFeed ∉ squeeze .outside (c :: l)) {depth : UInt8}
    (h : squeeze .outside (prettyLoop depth allowAll (c :: l)) = squeeze .outside (c :: l)) :
    Kept .outside allowAll (c :: l) := by
  by_cases hs : c ∈ structural
  · obtain ⟨before, after, depth', -, hblank, hloop⟩ := prettyLoop_structural hs depth
    rw [squeeze_outside (not_blank_of_structural hs) hq] at hl h
    rw [hloop, squeeze_around hs hblank] at h
    exact .between (Or.inl hs)
      (ih _ _ _ _ hn (fun hmem => hl (List.mem_cons_of_mem _ hmem)) (List.cons.inj h).2)
  by_cases hb : c ∈ blanks
  · rw [squeeze_blank hb] at hl h
    refine .between (Or.inr hb) (ih _ _ _ depth hn hl ?_)
    cases allowAll with
    | true => rwa [prettyLoop_on hs hq, squeeze_blank hb] at h
    | false => rwa [prettyLoop_off hs hq] at h
  rw [squeeze_outside hb hq] at hl h
  cases allowAll with
  | true =>
    rw [prettyLoop_on hs hq, squeeze_outside hb hq] at h
    exact .word hs hb hq
      (ih _ _ _ _ hn (fun hmem => hl (List.mem_cons_of_mem _ hmem)) (List.cons.inj h).2)
  | false =>
    rw [prettyLoop_off hs hq] at h
    obtain hquote | hstructural | hline := head_prettyLoop_off h
    · exact absurd hquote hq
    · exact absurd hstructural hs
    · exact absurd (hline ▸ lineFeed_blank) hb

theorem kept_within {n : Nat} (ih : KeptUpTo n) (hn : l.length ≤ n) (hp : p ≠ .outside)
    (hq : c ≠ quote) (hl : lineFeed ∉ squeeze p (c :: l)) {depth : UInt8}
    (h : squeeze p (prettyLoop depth allowAll (c :: l)) = squeeze p (c :: l)) :
    Kept p allowAll (c :: l) := by
  by_cases hs : c ∈ structural
  · by_cases hcolon : c = Byte.colon
    · subst hcolon
      have hloop : prettyLoop depth allowAll (Byte.colon :: l) =
        Byte.colon :: Byte.space :: prettyLoop depth allowAll l := rfl
      rw [squeeze_within hp, next_of_structural hs hp] at hl h
      rw [hloop, squeeze_within hp, next_of_structural hs hp, squeeze_within (by decide)] at h
      have hspace := (List.cons.inj h).2
      cases allowAll with
      | true => exact absurd hspace (space_prettyLoop_ne l depth)
      | false =>
        cases l with
        | nil => cases hspace
        | cons d l =>
          rw [squeeze_within (c := d) (by decide)] at hspace hl
          obtain ⟨rfl, hrest⟩ := List.cons.inj hspace
          rw [prettyLoop_off (by decide) (by decide)] at hrest
          refine .colon hp (ih _ _ _ depth ?_ ?_ hrest)
          · exact Nat.le_of_succ_le hn
          · intro hmem
            exact hl (List.mem_cons_of_mem _ (List.mem_cons_of_mem _ hmem))
    · obtain ⟨before, after, depth', haround, -, hloop⟩ := prettyLoop_structural hs depth
      rw [← h, hloop] at hl
      exact absurd (lineFeed_mem_around hp hs haround hcolon) hl
  rw [squeeze_within hp] at hl h
  cases allowAll with
  | true =>
    rw [prettyLoop_on hs hq, squeeze_within hp] at h
    exact .char hp hs hq
      (ih _ _ _ _ hn (fun hmem => hl (List.mem_cons_of_mem _ hmem)) (List.cons.inj h).2)
  | false =>
    rw [prettyLoop_off hs hq] at h
    obtain hquote | hstructural | hline := head_prettyLoop_off h
    · exact absurd hquote hq
    · exact absurd hstructural hs
    · exact absurd (hline ▸ List.mem_cons_self) hl

theorem keptUpTo (n : Nat) : KeptUpTo n := by
  induction n with
  | zero =>
    intro p allowAll l depth hn _ _
    rw [List.eq_nil_of_length_eq_zero (Nat.le_zero.mp hn)]
    exact .nil _ _
  | succ n ih =>
    intro p allowAll l depth hn hl h
    cases l with
    | nil => exact .nil _ _
    | cons c l =>
      simp only [List.length_cons, Nat.succ_le_succ_iff] at hn
      by_cases hq : c = quote
      · subst hq
        rw [prettyLoop_quote, squeeze_word quote_not_blank, squeeze_word quote_not_blank] at h
        rw [squeeze_word quote_not_blank] at hl
        exact .quote (ih _ _ _ _ hn (fun hmem => hl (List.mem_cons_of_mem _ hmem))
          (List.cons.inj h).2)
      by_cases hp : p = .outside
      · subst hp
        exact kept_outside ih hn hq hl h
      · exact kept_within ih hn hp hq hl h

end

/-! Both directions. -/

theorem Kept.tokens_pretty {json : List UInt8} (h : Kept .outside false json) :
    tokens .outside [] (pretty json) = tokens .outside [] json :=
  h.tokens_eq 0 fun _ _ => rfl

theorem pretty_preserves_iff (json : List UInt8) (hjson : Valid json) :
    Preserved json ↔ Kept .outside false json := by
  constructor
  · intro h
    exact keptUpTo json.length _ _ _ 0 le_rfl hjson.not_lineFeed h.squeezed
  · intro h
    have htokens := h.tokens_pretty
    have htwice : tokens .outside [] (pretty (pretty json)) = tokens .outside [] json :=
      (Kept.tokens_pretty (h.again 0)).trans htokens
    constructor
    · have hflat := congrArg List.flatten htokens
      rwa [flatten_tokens, flatten_tokens, List.nil_append, List.nil_append] at hflat
    · intro doc hdoc
      exact (denotes_congr htwice doc).mpr hdoc

/-- A string in an array. -/
theorem pretty_preserves_string : Preserved (bytes "[\"a\"]".toList) := by
  have hword : StringWord [quote, 0x61, quote] :=
    ⟨[0x61], .plain (by decide) (by decide) (by decide) .nil, rfl⟩
  have hvalid : Valid (bytes "[\"a\"]".toList) :=
    ⟨.array [.scalar ⟨_, Or.inr (Or.inr hword)⟩], rfl⟩
  apply (pretty_preserves_iff _ hvalid).mpr
  apply Kept.between (Or.inl (by decide))
  apply Kept.quote
  apply Kept.char (by decide) (by decide) (by decide)
  apply Kept.quote
  exact .between (Or.inl (by decide)) (.nil _ _)

/-- A number in an array is left out. -/
theorem pretty_drops_number :
    Valid (bytes "[1]".toList) ∧ ¬ Preserved (bytes "[1]".toList) := by
  have hdigits : Digits [0x31] := ⟨by decide, by simp⟩
  have hword : NumberWord ([] ++ [0x31] ++ [] ++ []) :=
    .mk (Or.inl rfl) (Or.inr ⟨hdigits, by decide⟩) (Or.inl rfl) (Or.inl rfl)
  constructor
  · exact ⟨.array [.scalar ⟨_, Or.inr (Or.inl hword)⟩], rfl⟩
  · intro h
    exact absurd h.squeezed (by decide)

end WylesLibs.Parser.Json
