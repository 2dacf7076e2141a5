import Mathlib

/-! JSON texts as sequences of tokens, and the documents that they denote. Independent of any
particular program. -/
namespace WylesLibs.Library.JsonText

abbrev quote : UInt8 := 0x22
abbrev backslash : UInt8 := 0x5C
abbrev lineFeed : UInt8 := 0x0A

/-- Space, tab, line feed and carriage return. -/
def blanks : List UInt8 := [0x20, 0x09, 0x0A, 0x0D]

/-- The brackets, the braces, the colon and the comma are tokens of their own. -/
def structural : List UInt8 := [0x5B, 0x5D, 0x7B, 0x7D, 0x3A, 0x2C]

/-- Outside strings, in a string, or in one behind a backslash. -/
inductive Place where
  | outside
  | inside
  | escaped
  deriving DecidableEq

def Place.next (c : UInt8) : Place → Place
  | .outside => if c = quote then .inside else .outside
  | .inside => if c = quote then .outside else if c = backslash then .escaped else .inside
  | .escaped => .inside

/-- A text without the blanks outside its strings. -/
def squeeze : Place → List UInt8 → List UInt8
  | _, [] => []
  | p, c :: l =>
    if p = .outside ∧ c ∈ blanks then squeeze .outside l else c :: squeeze (p.next c) l

def flush (word : List UInt8) : List (List UInt8) := if word = [] then [] else [word]

/-- The tokens of a text that stands behind the first part of a token. -/
def tokens : Place → List UInt8 → List UInt8 → List (List UInt8)
  | _, word, [] => flush word
  | .outside, word, c :: l =>
    if c ∈ blanks then flush word ++ tokens .outside [] l
    else if c ∈ structural then flush word ++ [c] :: tokens .outside [] l
    else if c = quote then flush word ++ tokens .inside [c] l
    else tokens .outside (word ++ [c]) l
  | .inside, word, c :: l =>
    if c = quote then (word ++ [c]) :: tokens .outside [] l
    else tokens (Place.next c .inside) (word ++ [c]) l
  | .escaped, word, c :: l => tokens .inside (word ++ [c]) l

/-! The documents. -/

def Digits (ds : List UInt8) : Prop := ds ≠ [] ∧ ∀ d ∈ ds, 0x30 ≤ d ∧ d ≤ 0x39

/-- A sign, an integer without a zero in front, a fraction and an exponent. -/
inductive NumberWord : List UInt8 → Prop where
  | mk {sign integer fraction exponent : List UInt8} (hsign : sign = [] ∨ sign = [0x2D])
      (hinteger : integer = [0x30] ∨ Digits integer ∧ integer.head? ≠ some 0x30)
      (hfraction : fraction = [] ∨ ∃ ds, Digits ds ∧ fraction = 0x2E :: ds)
      (hexponent : exponent = [] ∨ ∃ e ∈ [0x65, 0x45], ∃ s ∈ [[], [0x2B], [0x2D]], ∃ ds,
        Digits ds ∧ exponent = e :: (s ++ ds)) :
      NumberWord (sign ++ integer ++ fraction ++ exponent)

/-- The letters behind a backslash that stand for a character. -/
def escapes : List UInt8 := [quote, backslash, 0x2F, 0x62, 0x66, 0x6E, 0x72, 0x74]

def hexDigits : List UInt8 :=
  [0x30, 0x31, 0x32, 0x33, 0x34, 0x35, 0x36, 0x37, 0x38, 0x39, 0x41, 0x42, 0x43, 0x44, 0x45, 0x46,
    0x61, 0x62, 0x63, 0x64, 0x65, 0x66]

/-- What may stand between the quotes of a string. -/
inductive StringChars : List UInt8 → Prop where
  | nil : StringChars []
  | plain {c : UInt8} {l : List UInt8} (hc : 0x20 ≤ c) (hq : c ≠ quote) (hb : c ≠ backslash)
      (h : StringChars l) : StringChars (c :: l)
  | escape {c : UInt8} {l : List UInt8} (hc : c ∈ escapes) (h : StringChars l) :
      StringChars (backslash :: c :: l)
  | unicode {hex l : List UInt8} (hlength : hex.length = 4) (hhex : ∀ c ∈ hex, c ∈ hexDigits)
      (h : StringChars l) : StringChars (backslash :: 0x75 :: (hex ++ l))

def StringWord (t : List UInt8) : Prop :=
  ∃ body, StringChars body ∧ t = quote :: (body ++ [quote])

/-- `null`, `true` and `false`. -/
def literals : List (List UInt8) :=
  [[0x6E, 0x75, 0x6C, 0x6C], [0x74, 0x72, 0x75, 0x65], [0x66, 0x61, 0x6C, 0x73, 0x65]]

def ScalarWord (t : List UInt8) : Prop := t ∈ literals ∨ NumberWord t ∨ StringWord t

inductive Doc where
  | scalar (t : { t // ScalarWord t })
  | array (elements : List Doc)
  | object (members : List ({ t // StringWord t } × Doc))

mutual

def Doc.tokens : Doc → List (List UInt8)
  | .scalar t => [t.1]
  | .array elements => [0x5B] :: (elementTokens elements ++ [[0x5D]])
  | .object members => [0x7B] :: (memberTokens members ++ [[0x7D]])

def elementTokens : List Doc → List (List UInt8)
  | [] => []
  | doc :: docs => doc.tokens ++ (if docs.isEmpty then [] else [[0x2C]]) ++ elementTokens docs

def memberTokens : List ({ t // StringWord t } × Doc) → List (List UInt8)
  | [] => []
  | (key, doc) :: members =>
    key.1 :: [0x3A] :: (doc.tokens ++ (if members.isEmpty then [] else [[0x2C]]) ++
      memberTokens members)

end

/-- The grammar of JSON is one of tokens: the blanks between them say nothing. -/
def Denotes (doc : Doc) (text : List UInt8) : Prop := tokens .outside [] text = doc.tokens

def Valid (text : List UInt8) : Prop := ∃ doc, Denotes doc text

section
variable {c : UInt8} {l word : List UInt8} {p : Place}

theorem quote_not_blank : quote ∉ blanks := by decide
theorem quote_not_structural : quote ∉ structural := by decide
theorem backslash_not_structural : backslash ∉ structural := by decide
theorem lineFeed_blank : lineFeed ∈ blanks := by decide
theorem ne_quote_of_structural (hc : c ∈ structural) : c ≠ quote := by
  intro h
  exact quote_not_structural (h ▸ hc)

theorem ne_quote_of_blank (hc : c ∈ blanks) : c ≠ quote := by
  intro h
  exact quote_not_blank (h ▸ hc)

theorem not_blank_of_structural (hc : c ∈ structural) : c ∉ blanks := by
  intro hb
  simp only [structural, List.mem_cons, List.not_mem_nil, or_false] at hc
  obtain rfl | rfl | rfl | rfl | rfl | rfl := hc <;> exact absurd hb (by decide)

/-! One character of a text. -/

@[simp] theorem next_outside (hc : c ≠ quote) : Place.outside.next c = .outside := if_neg hc

theorem next_of_structural (hc : c ∈ structural) (hp : p ≠ .outside) : p.next c = .inside := by
  have hb : c ≠ backslash := by
    intro h
    exact backslash_not_structural (h ▸ hc)
  cases p with
  | outside => exact absurd rfl hp
  | inside => rw [Place.next, if_neg (ne_quote_of_structural hc), if_neg hb]
  | escaped => rfl

theorem squeeze_blank (hc : c ∈ blanks) : squeeze .outside (c :: l) = squeeze .outside l := by
  rw [squeeze, if_pos ⟨rfl, hc⟩]

theorem squeeze_word (hc : c ∉ blanks) : squeeze p (c :: l) = c :: squeeze (p.next c) l := by
  rw [squeeze, if_neg fun h => hc h.2]

theorem squeeze_within (hp : p ≠ .outside) : squeeze p (c :: l) = c :: squeeze (p.next c) l := by
  rw [squeeze, if_neg fun h => hp h.1]

theorem squeeze_outside (hc : c ∉ blanks) (hq : c ≠ quote) :
    squeeze .outside (c :: l) = c :: squeeze .outside l := by
  rw [squeeze_word hc, next_outside hq]

theorem tokens_blank (hc : c ∈ blanks) :
    tokens .outside word (c :: l) = flush word ++ tokens .outside [] l := by
  rw [tokens, if_pos hc]

theorem tokens_structural (hc : c ∈ structural) :
    tokens .outside word (c :: l) = flush word ++ [c] :: tokens .outside [] l := by
  rw [tokens, if_neg (not_blank_of_structural hc), if_pos hc]

theorem tokens_quote :
    tokens .outside word (quote :: l) = flush word ++ tokens .inside [quote] l := by
  rw [tokens, if_neg quote_not_blank, if_neg quote_not_structural, if_pos rfl]

theorem tokens_word (hb : c ∉ blanks) (hs : c ∉ structural) (hq : c ≠ quote) :
    tokens .outside word (c :: l) = tokens .outside (word ++ [c]) l := by
  rw [tokens, if_neg hb, if_neg hs, if_neg hq]

/-- Inside a string a token goes on, up to its closing quote. -/
theorem tokens_within (hp : p ≠ .outside) (hc : c ≠ quote) :
    tokens p word (c :: l) = tokens (p.next c) (word ++ [c]) l := by
  cases p with
  | outside => exact absurd rfl hp
  | inside => rw [tokens, if_neg hc]
  | escaped => rfl

end

/-! The characters of the tokens are those of the squeezed text. -/

@[simp] theorem flatten_flush (word : List UInt8) : (flush word).flatten = word := by
  rw [flush]
  split
  · next h => rw [h, List.flatten_nil]
  · exact List.flatten_singleton

theorem flatten_tokens (p : Place) (word l : List UInt8) :
    (tokens p word l).flatten = word ++ squeeze p l := by
  induction l generalizing p word with
  | nil => cases p <;> simp [tokens, squeeze]
  | cons c l ih =>
    cases p with
    | outside =>
      by_cases hb : c ∈ blanks
      · rw [tokens_blank hb, squeeze_blank hb]
        simp [ih]
      by_cases hs : c ∈ structural
      · rw [tokens_structural hs, squeeze_outside hb (ne_quote_of_structural hs)]
        simp [ih]
      by_cases hq : c = quote
      · subst hq
        rw [tokens_quote, squeeze_word hb]
        simp [ih, Place.next]
      · rw [tokens_word hb hs hq, squeeze_outside hb hq]
        simp [ih]
    | inside =>
      rw [tokens, squeeze_within (by decide)]
      by_cases hq : c = quote
      · simp [ih, Place.next, hq]
      · simp [ih, hq]
    | escaped => simp [tokens, squeeze_within, ih, Place.next]

/-! No token of a document has a line feed in it. -/

theorem not_lineFeed_of_digits {ds : List UInt8} (h : Digits ds) : lineFeed ∉ ds := by
  intro hmem
  exact absurd (h.2 _ hmem).1 (by decide)

theorem NumberWord.not_lineFeed {t : List UInt8} (h : NumberWord t) : lineFeed ∉ t := by
  obtain ⟨hsign, hinteger, hfraction, hexponent⟩ := h
  simp only [List.mem_append, not_or]
  refine ⟨⟨⟨?_, ?_⟩, ?_⟩, ?_⟩
  · obtain rfl | rfl := hsign <;> decide
  · obtain rfl | ⟨hdigits, -⟩ := hinteger
    · decide
    · exact not_lineFeed_of_digits hdigits
  · obtain rfl | ⟨ds, hdigits, rfl⟩ := hfraction
    · decide
    · exact List.not_mem_cons_of_ne_of_not_mem (by decide) (not_lineFeed_of_digits hdigits)
  · obtain rfl | ⟨e, he, s, hs, ds, hdigits, rfl⟩ := hexponent
    · decide
    · have hfirst : lineFeed ∉ e :: s := by
        simp only [List.mem_cons, List.not_mem_nil, or_false] at he hs
        obtain rfl | rfl := he <;> obtain rfl | rfl | rfl := hs <;> decide
      rw [← List.cons_append, List.mem_append, not_or]
      exact ⟨hfirst, not_lineFeed_of_digits hdigits⟩

theorem StringChars.not_lineFeed {l : List UInt8} (h : StringChars l) : lineFeed ∉ l := by
  induction h with
  | nil => exact List.not_mem_nil
  | plain hc hq hb h ih =>
    rw [List.mem_cons, not_or]
    refine ⟨?_, ih⟩
    rintro rfl
    exact absurd hc (by decide)
  | escape hc h ih =>
    rw [List.mem_cons, List.mem_cons, not_or, not_or]
    refine ⟨by decide, ?_, ih⟩
    rintro rfl
    exact absurd hc (by decide)
  | unicode hlength hhex h ih =>
    rw [List.mem_cons, List.mem_cons, List.mem_append, not_or, not_or, not_or]
    refine ⟨by decide, by decide, ?_, ih⟩
    intro hmem
    exact absurd (hhex _ hmem) (by decide)

theorem StringWord.not_lineFeed {t : List UInt8} (h : StringWord t) : lineFeed ∉ t := by
  obtain ⟨body, hbody, rfl⟩ := h
  apply List.not_mem_cons_of_ne_of_not_mem (by decide)
  rw [List.mem_append, not_or]
  exact ⟨hbody.not_lineFeed, by decide⟩

theorem ScalarWord.not_lineFeed {t : List UInt8} (h : ScalarWord t) : lineFeed ∉ t := by
  obtain hliteral | hnumber | hstring := h
  · simp only [literals, List.mem_cons, List.not_mem_nil, or_false] at hliteral
    obtain rfl | rfl | rfl := hliteral <;> decide
  · exact hnumber.not_lineFeed
  · exact hstring.not_lineFeed

theorem not_lineFeed_separator (last : Bool) :
    ∀ t ∈ (if last then [] else [[0x2C]] : List (List UInt8)), lineFeed ∉ t := by
  cases last <;> decide

mutual

theorem Doc.not_lineFeed (doc : Doc) : ∀ t ∈ doc.tokens, lineFeed ∉ t := by
  cases doc with
  | scalar t =>
    simp only [Doc.tokens, List.mem_singleton, forall_eq]
    exact t.2.not_lineFeed
  | array elements =>
    have helements := not_lineFeed_elements elements
    simp only [Doc.tokens, List.mem_cons, List.mem_append, List.not_mem_nil, or_false]
    rintro t (rfl | ht | rfl)
    · decide
    · exact helements t ht
    · decide
  | object members =>
    have hmembers := not_lineFeed_members members
    simp only [Doc.tokens, List.mem_cons, List.mem_append, List.not_mem_nil, or_false]
    rintro t (rfl | ht | rfl)
    · decide
    · exact hmembers t ht
    · decide

theorem not_lineFeed_elements (docs : List Doc) : ∀ t ∈ elementTokens docs, lineFeed ∉ t := by
  cases docs with
  | nil => simp [elementTokens]
  | cons doc docs =>
    have hdoc := doc.not_lineFeed
    have hmore := not_lineFeed_elements docs
    simp only [elementTokens, List.mem_append]
    rintro t ((ht | ht) | ht)
    · exact hdoc t ht
    · exact not_lineFeed_separator docs.isEmpty t ht
    · exact hmore t ht

theorem not_lineFeed_members (members : List ({ t // StringWord t } × Doc)) :
    ∀ t ∈ memberTokens members, lineFeed ∉ t := by
  cases members with
  | nil => simp [memberTokens]
  | cons member members =>
    obtain ⟨key, doc⟩ := member
    have hdoc := doc.not_lineFeed
    have hmore := not_lineFeed_members members
    simp only [memberTokens, List.mem_cons, List.mem_append]
    rintro t (rfl | rfl | (ht | ht) | ht)
    · exact key.2.not_lineFeed
    · decide
    · exact hdoc t ht
    · exact not_lineFeed_separator members.isEmpty t ht
    · exact hmore t ht

end

theorem Valid.not_lineFeed {text : List UInt8} (h : Valid text) :
    lineFeed ∉ squeeze .outside text := by
  obtain ⟨doc, hdoc⟩ := h
  have hflat := flatten_tokens .outside [] text
  rw [hdoc, List.nil_append] at hflat
  rw [← hflat, List.mem_flatten]
  intro hcase
  obtain ⟨t, ht, hmem⟩ := hcase
  exact doc.not_lineFeed t ht hmem

/-- Texts of the same tokens denote the same documents. -/
theorem denotes_congr {text text' : List UInt8} (h : tokens .outside [] text' = tokens .outside [] text)
    (doc : Doc) : Denotes doc text' ↔ Denotes doc text := by
  rw [Denotes, Denotes, h]

end WylesLibs.Library.JsonText
