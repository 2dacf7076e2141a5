import WylesLibs.Json.OnStream

/-! The fragment of JSON that the parser reads as it is meant: the trees, their layouts as text,
and that every layout of a tree is parsed to that tree. -/
namespace WylesLibs.Parser.Json
open Library WylesLibs.Stream
variable {D : Type} [DoubleArith D]

def maxBlank : Nat := 30000

/-- A run of space between tokens. -/
def Blank (space : List UInt8) : Prop := Space space ∧ space.length < maxBlank

def PlainString (s : List UInt8) : Prop :=
  s.length < maxLengthOfJsonStringValues ∧
    ∀ c ∈ s, c < 128 ∧ c ≠ Byte.quote ∧ c ≠ Byte.backslash

def PlainKey (k : List UInt8) : Prop :=
  k.length ≤ 254 ∧ ∀ c ∈ k, c ≠ Byte.quote ∧ c ≠ Byte.colon ∧ c ≠ Byte.closeBrace

instance (space : List UInt8) : Decidable (Blank space) :=
  inferInstanceAs (Decidable (_ ∧ _))

instance (k : List UInt8) : Decidable (PlainKey k) :=
  have : Decidable (∀ c ∈ k, c ≠ Byte.quote ∧ c ≠ Byte.colon ∧ c ≠ Byte.closeBrace) :=
    List.decidableBAll _ k
  inferInstanceAs (Decidable (_ ∧ _))

/-- The trees of the fragment, at the depth `depth`. -/
inductive Supported : Nat → JsonValue D → Prop where
  | null (depth : Nat) : Supported depth .null
  | boolean (depth : Nat) (b : Bool) : Supported depth (.boolean b)
  | natural {depth n digits : Nat} (hpos : 0 < digits) (hdigits : digits ≤ 10)
      (hn : n < 10 ^ digits) : Supported depth (.number (DoubleArith.ofNat n) digits 0)
  | string {depth : Nat} {s : List UInt8} (hs : PlainString s) : Supported depth (.string s)
  | array {depth : Nat} {vs : List (JsonValue D)} (hdepth : depth ≤ maxJsonDepth)
      (hvs : ∀ v ∈ vs, Supported (depth + 1) v) : Supported depth (.array depth vs)
  | object {depth : Nat} {keys : List (List UInt8)} {vs : List (JsonValue D)}
      (hdepth : depth ≤ maxJsonDepth) (hlen : keys.length = vs.length)
      (hkeys : ∀ k ∈ keys, PlainKey k) (hvs : ∀ v ∈ vs, Supported (depth + 1) v) :
      Supported depth (.object depth keys vs)

def IsNumber : JsonValue D → Prop
  | .number _ _ _ => True
  | _ => False

/-- The key with its quotes and its colon, in space. -/
def keyLayout (before k after : List UInt8) : List UInt8 :=
  before ++ Byte.quote :: k ++ Byte.quote :: after ++ [Byte.colon]

mutual

/-- The texts of a tree. -/
inductive Layout : JsonValue D → List UInt8 → Prop where
  | null : Layout .null (bytes ['n', 'u', 'l', 'l'])
  | true : Layout (.boolean true) (bytes ['t', 'r', 'u', 'e'])
  | false : Layout (.boolean false) (bytes ['f', 'a', 'l', 's', 'e'])
  | natural {ds : List UInt8} (hds : ∀ d ∈ ds, isDigit d = true) :
      Layout (.number (DoubleArith.ofNat (digitsValue ds 0)) ds.length 0) ds
  | string (s : List UInt8) : Layout (.string s) (Byte.quote :: s ++ [Byte.quote])
  | emptyArray (depth : Nat) {space : List UInt8} (hspace : Blank space) :
      Layout (.array depth []) (Byte.openBracket :: space ++ [Byte.closeBracket])
  | array {depth : Nat} {vs : List (JsonValue D)} {text : List UInt8}
      (h : ElementsLayout vs text) :
      Layout (.array depth vs) (Byte.openBracket :: text ++ [Byte.closeBracket])
  | emptyObject (depth : Nat) {space : List UInt8} (hspace : Blank space) :
      Layout (.object depth [] []) (Byte.openBrace :: space ++ [Byte.closeBrace])
  | object {depth : Nat} {keys : List (List UInt8)} {vs : List (JsonValue D)}
      {text : List UInt8} (h : MembersLayout keys vs text) :
      Layout (.object depth keys vs) (Byte.openBrace :: text ++ [Byte.closeBrace])

/-- The elements between the brackets, with or without a comma behind the last of them. A number
is not followed by the bracket itself. -/
inductive ElementsLayout : List (JsonValue D) → List UInt8 → Prop where
  | single {v : JsonValue D} {before text after : List UInt8} (hbefore : Blank before)
      (h : Layout v text) (hafter : Blank after) (hend : IsNumber v → after ≠ []) :
      ElementsLayout [v] (before ++ text ++ after)
  | trailing {v : JsonValue D} {before text after space : List UInt8} (hbefore : Blank before)
      (h : Layout v text) (hafter : Blank after) (hspace : Blank space) :
      ElementsLayout [v] (before ++ text ++ after ++ Byte.comma :: space)
  | cons {v : JsonValue D} {vs : List (JsonValue D)} {before text after more : List UInt8}
      (hbefore : Blank before) (h : Layout v text) (hafter : Blank after)
      (hmore : ElementsLayout vs more) :
      ElementsLayout (v :: vs) (before ++ text ++ after ++ Byte.comma :: more)

/-- The members between the braces. -/
inductive MembersLayout : List (List UInt8) → List (JsonValue D) → List UInt8 → Prop where
  | single {k : List UInt8} {v : JsonValue D} {outer inner before text after : List UInt8}
      (houter : Blank outer) (hinner : Blank inner) (hbefore : Blank before) (h : Layout v text)
      (hafter : Blank after) :
      MembersLayout [k] [v] (keyLayout outer k inner ++ (before ++ text ++ after))
  | trailing {k : List UInt8} {v : JsonValue D}
      {outer inner before text after space : List UInt8}
      (houter : Blank outer) (hinner : Blank inner) (hbefore : Blank before) (h : Layout v text)
      (hafter : Blank after) (hspace : Blank space) :
      MembersLayout [k] [v]
        (keyLayout outer k inner ++ (before ++ text ++ after) ++ Byte.comma :: space)
  | cons {k : List UInt8} {ks : List (List UInt8)} {v : JsonValue D} {vs : List (JsonValue D)}
      {outer inner before text after more : List UInt8}
      (houter : Blank outer) (hinner : Blank inner) (hbefore : Blank before) (h : Layout v text)
      (hafter : Blank after) (hmore : MembersLayout ks vs more) :
      MembersLayout (k :: ks) (v :: vs)
        (keyLayout outer k inner ++ (before ++ text ++ after) ++ Byte.comma :: more)

end

/-! The pieces of a layout as the parser reads them. -/

omit [DoubleArith D] in
theorem stringBody_plain {s : List UInt8} {left : Nat} {prev : UInt8} (hp : prev ≠ Byte.backslash)
    (hs : ∀ c ∈ s, c ≠ Byte.quote ∧ c ≠ Byte.backslash) (hleft : s.length < left) :
    StringBody left prev (s ++ [Byte.quote]) s := by
  induction s generalizing left prev with
  | nil =>
    obtain ⟨left, rfl⟩ : ∃ k, left = k + 1 := ⟨left - 1, by simp only [List.length_nil] at hleft; omega⟩
    exact .close left hp
  | cons c s ih =>
    obtain ⟨⟨hq, hb⟩, hs⟩ := List.forall_mem_cons.mp hs
    simp only [List.length_cons] at hleft
    obtain ⟨left, rfl⟩ : ∃ k, left = k + 1 := ⟨left - 1, by omega⟩
    exact .plain hp hq (ih hb hs (by omega))

theorem keyJunk_space {space : List UInt8} (hs : Space space) : space.foldl keyJunk 0 = 0 := by
  induction space with
  | nil => rfl
  | cons c space ih =>
    obtain ⟨hc, hs⟩ := List.forall_mem_cons.mp hs
    simp [keyJunk, hc, ih hs]

theorem not_keyEnd_of_whitespace {c : UInt8} (hc : isWhitespace c = true) : c ∉ keyEnd := by
  obtain rfl | rfl | rfl | rfl := whitespace_cases hc <;> decide

omit [DoubleArith D] in
theorem Supported.number_inv [DoubleArith D] {depth k d : Nat} {x : D}
    (h : Supported depth (.number x k d)) : 0 < k ∧ k ≤ 10 := by
  cases h with
  | natural hpos hdigits _ => exact ⟨hpos, hdigits⟩

def keyText (outer k inner : List UInt8) : KeyText := ⟨outer, some (k, inner), Byte.colon⟩

theorem keyText_text (outer k inner : List UInt8) :
    (keyText outer k inner).text = keyLayout outer k inner := by
  simp [keyText, keyLayout, KeyText.text, KeyText.before]

theorem keyText_valid {outer k inner : List UInt8} (houter : Blank outer) (hinner : Blank inner)
    (hk : PlainKey k) (rest : List UInt8) : (keyText outer k inner).Valid rest where
  space := houter.1
  quoted := by
    intro body tail heq
    obtain ⟨rfl, rfl⟩ : k = body ∧ inner = tail := by simpa [keyText] using heq
    refine ⟨fun hq => (hk.2 _ hq).1 rfl, fun c hc => ?_, fun c hc => ?_, keyJunk_space hinner.1⟩
    · simpa [keyEnd] using (hk.2 c hc).2
    · exact not_keyEnd_of_whitespace (hinner.1 c hc)
  delimiter := by simp [keyText, keyEnd]
  limit := by
    have houterLength := houter.2
    have hinnerLength := hinner.2
    have hkey := hk.1
    refine Nat.le_trans (seen_le _ _ _) ?_
    simp only [keyText, KeyText.before, List.length_append, List.length_cons, maxBlank,
      arbitrarySpatialUntilLimit] at *
    omega

theorem plainKey_short {k : List UInt8} (hk : PlainKey k) :
    k.length < maxLengthOfJsonStringKeys :=
  Nat.lt_of_le_of_lt hk.1 (by decide)

/-- No key at all: the object ends in front of it. -/
def noKeyText (space : List UInt8) : KeyText := ⟨space, none, Byte.closeBrace⟩

theorem noKeyText_text (space : List UInt8) :
    (noKeyText space).text = space ++ [Byte.closeBrace] := by
  simp [noKeyText, KeyText.text, KeyText.before]

theorem noKeyText_valid {space : List UInt8} (hspace : Blank space) (rest : List UInt8) :
    (noKeyText space).Valid rest where
  space := hspace.1
  quoted := by simp [noKeyText]
  delimiter := by simp [noKeyText, keyEnd]
  limit := by
    have hlength := hspace.2
    refine Nat.le_trans (seen_le _ _ _) ?_
    simp only [noKeyText, KeyText.before, List.length_append, List.length_nil, maxBlank,
      arbitrarySpatialUntilLimit] at *
    omega

/-- The delimiters stop `parseValue`. -/
theorem stops_comma (rest : List UInt8) : Stops (Byte.comma :: rest) := ⟨_, _, rfl, by decide⟩
theorem stops_brace (rest : List UInt8) : Stops (Byte.closeBrace :: rest) := ⟨_, _, rfl, by decide⟩
theorem stops_bracket (rest : List UInt8) : Stops (Byte.closeBracket :: rest) :=
  ⟨_, _, rfl, by decide⟩

/-- What may stand behind a value for it to be read whole. -/
def EndsNumber (v : JsonValue D) (rest : List UInt8) : Prop :=
  IsNumber v → ∃ c more, rest = c :: more ∧ behindNumber c

omit [DoubleArith D] in
theorem endsNumber_space {v : JsonValue D} {after : List UInt8} (ha : Blank after) {c : UInt8}
    (hc : IsNumber v → after = [] → c ∈ numberEnd) (rest : List UInt8) :
    EndsNumber v (after ++ c :: rest) := by
  intro hv
  cases after with
  | nil => exact ⟨c, rest, rfl, Or.inl (hc hv rfl)⟩
  | cons a after =>
    refine ⟨a, _, rfl, Or.inl ?_⟩
    obtain rfl | rfl | rfl | rfl := whitespace_cases (ha.1 a (by simp)) <;> decide

mutual

/-- Each layout of a supported tree is a reading of that tree. -/
theorem Layout.reading {v : JsonValue D} {text : List UInt8} (h : Layout v text) {depth : Nat}
    {rest : List UInt8} (hv : Supported depth v) (hend : EndsNumber v rest) :
    ∃ t : ValueText, t.text = text ∧ t.Valid depth rest ∧ t.value depth = v := by
  cases h with
  | null => exact ⟨.leaf .null, rfl, trivial, rfl⟩
  | true => exact ⟨.leaf (.boolean true), rfl, trivial, rfl⟩
  | false => exact ⟨.leaf (.boolean false), rfl, trivial, rfl⟩
  | natural hds =>
    obtain ⟨hpos, hdigits⟩ := hv.number_inv
    exact ⟨.leaf (.number ⟨text, none⟩), rfl,
      ⟨⟨hds, hdigits, by simp⟩, List.ne_nil_of_length_pos hpos, hend trivial⟩, rfl⟩
  | string s =>
    cases hv with
    | string hs =>
      exact ⟨.leaf (.string (s ++ [Byte.quote]) s), rfl,
        stringBody_plain (by decide) (fun c hc => (hs.2 c hc).2) hs.1, rfl⟩
  | emptyArray _ hspace =>
    cases hv with
    | array hdepth _ =>
      exact ⟨.array (.slot Byte.openBracket (.empty _) .close), rfl,
        ⟨hdepth, rfl, Or.inl rfl, ⟨hspace.1, stops_bracket rest⟩, trivial⟩, rfl⟩
  | array hels =>
    cases hv with
    | array hdepth hvs =>
      obtain ⟨els, htext, hhead, hvalid, hvalues⟩ :=
        hels.reading (c := Byte.openBracket) (Or.inl rfl) hvs
      exact ⟨.array els, htext, ⟨hdepth, hhead, hvalid⟩, by rw [ValueText.value, hvalues]⟩
  | emptyObject _ hspace =>
    cases hv with
    | object hdepth _ _ _ =>
      exact ⟨.object (.last Byte.openBrace (noKeyText _)),
        by simp [ValueText.text, MembersText.text, KeyText.text, KeyText.before, noKeyText],
        ⟨hdepth, rfl, Or.inl rfl, noKeyText_valid hspace rest, rfl⟩, rfl⟩
  | object hms =>
    cases hv with
    | object hdepth _ hkeys hvs =>
      obtain ⟨ms, htext, hhead, hvalid, hks, hvalues⟩ :=
        hms.reading (c := Byte.openBrace) (Or.inl rfl) hkeys hvs
      exact ⟨.object ms, htext, ⟨hdepth, hhead, hvalid⟩, by rw [ValueText.value, hks, hvalues]⟩

theorem ElementsLayout.reading {vs : List (JsonValue D)} {text : List UInt8}
    (h : ElementsLayout vs text) {depth : Nat} {rest : List UInt8} {c : UInt8}
    (hc : c = Byte.openBracket ∨ c = Byte.comma) (hvs : ∀ v ∈ vs, Supported (depth + 1) v) :
    ∃ els : ElementsText, els.text = c :: text ++ [Byte.closeBracket] ∧ els.head = c ∧
      els.Valid depth rest ∧ els.values depth = vs := by
  cases h with
  | @single v before text after hbefore hv hafter hend =>
    obtain ⟨t, rfl, hvalid, rfl⟩ := hv.reading (hvs _ (by simp))
      (endsNumber_space hafter (fun hn ha => absurd ha (hend hn)) rest)
    exact ⟨.slot c (.filled before t after) .close, by simp [ElementsText.text, SlotText.text], rfl,
      ⟨hc, ⟨hbefore.1, hvalid, hafter.1, stops_bracket rest⟩, trivial⟩, rfl⟩
  | @trailing v before text after space hbefore hv hafter hspace =>
    obtain ⟨t, rfl, hvalid, rfl⟩ := hv.reading (hvs _ (by simp))
      (endsNumber_space hafter (c := Byte.comma) (fun _ _ => by decide)
        (space ++ Byte.closeBracket :: rest))
    exact ⟨.slot c (.filled before t after) (.slot Byte.comma (.empty space) .close),
      by simp [ElementsText.text, SlotText.text], rfl,
      ⟨hc, ⟨hbefore.1, by simpa [ElementsText.text, SlotText.text] using hvalid, hafter.1,
        stops_comma _⟩, Or.inr rfl, ⟨hspace.1, stops_bracket rest⟩, trivial⟩, rfl⟩
  | @cons v vs before text after moreText hbefore hv hafter hmore =>
    obtain ⟨hv₁, hvs⟩ := List.forall_mem_cons.mp hvs
    obtain ⟨more, htext, hhead, hmoreValid, rfl⟩ :=
      hmore.reading (c := Byte.comma) (Or.inr rfl) hvs
    obtain ⟨t, rfl, hvalid, rfl⟩ := hv.reading hv₁
      (endsNumber_space hafter (c := Byte.comma) (fun _ _ => by decide)
        (moreText ++ Byte.closeBracket :: rest))
    exact ⟨.slot c (.filled before t after) more, by simp [ElementsText.text, SlotText.text, htext], rfl,
      ⟨hc, ⟨hbefore.1, by simpa [htext] using hvalid, hafter.1,
        by simpa [htext] using stops_comma _⟩, hmoreValid⟩, rfl⟩

theorem MembersLayout.reading {ks : List (List UInt8)} {vs : List (JsonValue D)}
    {text : List UInt8} (h : MembersLayout ks vs text) {depth : Nat} {rest : List UInt8}
    {c : UInt8} (hc : c = Byte.openBrace ∨ c = Byte.comma) (hks : ∀ k ∈ ks, PlainKey k)
    (hvs : ∀ v ∈ vs, Supported (depth + 1) v) :
    ∃ ms : MembersText, ms.text = c :: text ++ [Byte.closeBrace] ∧ ms.head = c ∧
      ms.Valid depth rest ∧ ms.keys = ks ∧ ms.values depth = vs := by
  cases h with
  | @single k v outer inner before text after houter hinner hbefore hv hafter =>
    obtain ⟨t, rfl, hvalid, rfl⟩ := hv.reading (hvs _ (by simp))
      (endsNumber_space hafter (c := Byte.closeBrace) (fun _ _ => by decide) rest)
    have hk := hks k (by simp)
    exact ⟨.member c (keyText outer k inner) (.filled before t after) .close,
      by simp [MembersText.text, SlotText.text, keyText_text], rfl,
      ⟨hc, keyText_valid houter hinner hk _, rfl, plainKey_short hk,
        ⟨hbefore.1, hvalid, hafter.1, stops_brace rest⟩, trivial⟩, rfl, rfl⟩
  | @trailing k v outer inner before text after space houter hinner hbefore hv hafter hspace =>
    obtain ⟨t, rfl, hvalid, rfl⟩ := hv.reading (hvs _ (by simp))
      (endsNumber_space hafter (c := Byte.comma) (fun _ _ => by decide)
        (space ++ Byte.closeBrace :: rest))
    have hk := hks k (by simp)
    refine ⟨.member c (keyText outer k inner) (.filled before t after) (.last Byte.comma (noKeyText space)),
      by simp [MembersText.text, SlotText.text, keyText_text, noKeyText_text], rfl,
      ⟨hc, keyText_valid houter hinner hk _, rfl, plainKey_short hk, ?_⟩, rfl, rfl⟩
    exact ⟨⟨hbefore.1, by simpa [MembersText.text, noKeyText_text] using hvalid, hafter.1,
      stops_comma _⟩, Or.inr rfl, noKeyText_valid hspace rest, rfl⟩
  | @cons k ks v vs outer inner before text after moreText houter hinner hbefore hv hafter hmore =>
    obtain ⟨hv₁, hvs⟩ := List.forall_mem_cons.mp hvs
    obtain ⟨hk, hks⟩ := List.forall_mem_cons.mp hks
    obtain ⟨more, htext, hhead, hmoreValid, rfl, rfl⟩ :=
      hmore.reading (c := Byte.comma) (Or.inr rfl) hks hvs
    obtain ⟨t, rfl, hvalid, rfl⟩ := hv.reading hv₁
      (endsNumber_space hafter (c := Byte.comma) (fun _ _ => by decide)
        (moreText ++ Byte.closeBrace :: rest))
    refine ⟨.member c (keyText outer k inner) (.filled before t after) more,
      by simp [MembersText.text, SlotText.text, keyText_text, htext], rfl,
      ⟨hc, keyText_valid houter hinner hk _, rfl, plainKey_short hk, ?_⟩, rfl, rfl⟩
    exact ⟨⟨hbefore.1, by simpa [htext] using hvalid, hafter.1,
      by simpa [htext] using stops_comma _⟩, hmoreValid⟩

end

/-- The root is an object or an array. -/
def IsNested : JsonValue D → Prop
  | .array _ _ => True
  | .object _ _ _ => True
  | _ => False

/-- A whole text, with space around the root. -/
def DocumentLayout (v : JsonValue D) (text : List UInt8) : Prop :=
  ∃ before t after, Blank before ∧ Layout v t ∧ Blank after ∧ text = before ++ t ++ after

theorem IsNested.reading {t : ValueText} (h : IsNested (t.value 0 : JsonValue D)) : t.Nested := by
  cases t with
  | leaf t => cases t <;> exact h
  | array els => trivial
  | object ms => trivial

omit [DoubleArith D] in
theorem IsNested.not_number {v : JsonValue D} (h : IsNested v) : ¬ IsNumber v := by
  cases v <;> simp_all [IsNested, IsNumber]

/-- Every layout of a supported tree is parsed to that tree. -/
theorem parse_layout {v : JsonValue D} (hv : Supported 0 v) (hroot : IsNested v)
    {text : List UInt8} (h : DocumentLayout v text) {n : Nat} (hn : text.length < n) :
    ∃ s, parse n (EStream.ofBuffer text) = .ok (v, s) := by
  obtain ⟨before, t, after, hbefore, hlayout, -, rfl⟩ := h
  obtain ⟨root, rfl, hvalid, rfl⟩ := hlayout.reading hv
    (fun hnumber => absurd hnumber hroot.not_number)
  have hdoc : DocumentText.Valid ⟨before, root⟩ after := ⟨hbefore.1, hroot.reading, hvalid⟩
  obtain ⟨s, hs, -⟩ := parse_ok (D := D) hdoc (n := n)
    (by simp only [List.length_append, DocumentText.text] at hn ⊢; omega)
  exact ⟨s, hs⟩

/-- Exact arithmetic, which is that of `double` where nothing is rounded. -/
instance : DoubleArith Rat where
  ofNat := Nat.cast
  ofInt := Int.cast
  add := (· + ·)
  mul := (· * ·)
  div := (· / ·)
  mul_one := Rat.mul_one

/-- An object with an array in it, both with a comma at the end. -/
theorem parse_layout_nested : ∃ s,
    parse 40 (EStream.ofBuffer (bytes
      [' ', '{', '"', 'a', '"', ' ', ':', '[', '1', '0', ',', 't', 'r', 'u', 'e', ' ', ',', ']',
        ',', '\n', '}'])) =
      .ok ((.object 0 [[0x61]] [.array 1 [.number 10 2 0, .boolean true]] : JsonValue Rat), s) := by
  have hblank : Blank [] := by decide
  have hspace : Blank [0x20] := by decide
  have hnumber : Supported 2 (.number (10 : Rat) 2 0) :=
    .natural (n := 10) (by decide) (by decide) (by decide)
  have hsupported : Supported 0
      (.object 0 [[0x61]] [.array 1 [.number 10 2 0, .boolean true]] : JsonValue Rat) := by
    refine .object (by decide) rfl (by decide) ?_
    simp only [List.forall_mem_singleton]
    refine .array (by decide) ?_
    simp only [List.forall_mem_cons]
    exact ⟨hnumber, .boolean 2 true, by simp⟩
  have hten : Layout (.number (10 : Rat) 2 0) [0x31, 0x30] :=
    Layout.natural (D := Rat) (show ∀ d ∈ [0x31, 0x30], isDigit d = true by simp [isDigit])
  have hels := ElementsLayout.cons hblank hten hblank
    (.trailing hblank (.true (D := Rat)) hspace hblank)
  have hend : Blank [0x0A] := by decide
  have harray : Layout (.array 1 [.number (10 : Rat) 2 0, .boolean true]) _ := .array hels
  have hms := MembersLayout.trailing (k := [0x61]) hblank hspace hblank harray hblank hend
  exact parse_layout hsupported trivial
    ⟨[0x20], _, [], hspace, .object hms, hblank, rfl⟩ (by decide)

end WylesLibs.Parser.Json
