import WylesLibs.Json.Layout

/-! `toJsonString`, and why what it writes is never read back. -/
namespace WylesLibs.Parser.Json
open Library WylesLibs.Stream
variable {D : Type}

def maxLengthOfJsonString : Nat := 2 <<< 27

/-- One run of tabs for each depth that may be asked for. -/
def spacing : List (List UInt8) := (List.range maxJsonDepth).map fun i => List.replicate (i + 1) 0x09

/-- `spacing[depth]`: the depth may be one that the array does not have. -/
def spacingAt (depth : Nat) : Outcome (List UInt8) :=
  match spacing[depth]? with
  | none => .undef
  | some s => .ok s

/-- `numToStringSigned` of a `size_t` taken for an `int64_t`. -/
def numToStringSigned (n : Nat) : List UInt8 :=
  if n < 2 ^ 63 then bytes (Nat.toDigits 10 n)
  else Byte.minus :: bytes (Nat.toDigits 10 (2 ^ 64 - n))

/-- The counts are put into a format of the kind that `printf` has. `WylesLibs::format` knows
nothing of it and copies it, so the number itself is not written. -/
def numberText (naturalDigitCount decimalDigitCount : Nat) : List UInt8 :=
  let given := ¬ (naturalDigitCount = sizeMax ∨ decimalDigitCount = sizeMax)
  let natural := if given then naturalDigitCount else numberMaxDigits
  let decimal := if given then decimalDigitCount else numberMaxDigits
  0x25 :: (numToStringSigned natural ++ Byte.dot :: (numToStringSigned decimal ++ [0x66]))

/-- The `char` that is left of a character constant of two characters: its value has the bytes of
both, the last one lowest. -/
def multichar (a b : UInt8) : UInt8 := UInt8.ofNat (a.toNat * 256 + b.toNat)

def newline : UInt8 := 0x0A

def JsonValue.isNull : JsonValue D → Bool
  | .null => true
  | _ => false

mutual

def JsonValue.toJsonString : JsonValue D → Outcome (List UInt8)
  | .null => .ok (bytes ['n', 'u', 'l', 'l'])
  | .boolean true => .ok (bytes ['t', 'r', 'u', 'e'])
  | .boolean false => .ok (bytes ['f', 'a', 'l', 's', 'e'])
  | .number _ naturalDigitCount decimalDigitCount =>
    .ok (numberText naturalDigitCount decimalDigitCount)
  | .string s => .ok (Byte.quote :: (s ++ [Byte.quote]))
  | .array depth values =>
    (elementsToString depth values).bind fun s =>
      .ok (Byte.openBracket :: newline :: (s ++ [multichar Byte.closeBracket newline]))
  | .object depth keys values =>
    (membersToString depth keys values).bind fun s =>
      .ok (Byte.openBrace :: newline :: (s ++ [multichar Byte.closeBrace newline]))

/-- The loop of `JsonArray::toJsonString`. None of its branches is that of `null`. -/
def elementsToString (depth : Nat) : List (JsonValue D) → Outcome (List UInt8)
  | [] => .ok []
  | v :: vs =>
    (spacingAt depth).bind fun tabs =>
      (if v.isNull then .ok [] else v.toJsonString).bind fun s =>
        (elementsToString depth vs).bind fun more =>
          .ok (tabs ++ s ++ (if vs.isEmpty then [] else [Byte.comma]) ++ newline :: more)

/-- The loop of `JsonObject::toJsonString`, which runs over the keys. -/
def membersToString (depth : Nat) (keys : List (List UInt8)) :
    List (JsonValue D) → Outcome (List UInt8)
  | [] =>
    match keys with
    | [] => .ok []
    | _ :: _ => (spacingAt depth).bind fun _ => .thrown "vector::_M_range_check"
  | v :: vs =>
    match keys with
    | [] => .ok []
    | k :: ks =>
      (spacingAt depth).bind fun tabs =>
        (if v.isNull then .ok [] else v.toJsonString).bind fun s =>
          (membersToString depth ks vs).bind fun more =>
            .ok (tabs ++ Byte.quote :: (k ++ [Byte.quote, Byte.colon, 0x20]) ++ s ++
              (if ks.isEmpty then [] else [Byte.comma]) ++ newline :: more)

end

/-- `parse(std::string)`. -/
def parseText [DoubleArith D] (steps : Nat) (json : List UInt8) :
    Outcome (JsonValue D × EStream UInt8) :=
  if json.length > maxLengthOfJsonString then .thrown "String to loooonnnng!"
  else parse steps (EStream.ofBuffer json)

/-! Trees that are the same to a reader: of one shape, with the same keys and leaves. The depths
and the counts of digits are those of one way or another to build them. -/

mutual

def JsonValue.bare : JsonValue D → JsonValue D
  | .null => .null
  | .boolean b => .boolean b
  | .number x _ _ => .number x 0 0
  | .string s => .string s
  | .array _ values => .array 0 (bareAll values)
  | .object _ keys values => .object 0 keys (bareAll values)

def bareAll : List (JsonValue D) → List (JsonValue D)
  | [] => []
  | v :: vs => v.bare :: bareAll vs

end

/-- What the tree is written as is accepted, and read as the same tree. -/
def RoundTrips [DoubleArith D] (tree : JsonValue D) : Prop :=
  ∃ text n v s, tree.toJsonString = .ok text ∧ parseText n text = .ok (v, s) ∧
    (v : JsonValue D).bare = tree.bare

/-! Closing brackets and braces. A tree has them in its keys and strings alone, and that is all
it writes of them; but each array and object that is read takes another one. -/

def isCloser (c : UInt8) : Bool := c = Byte.closeBrace || c = Byte.closeBracket

def closers (l : List UInt8) : Nat := l.countP isCloser

@[simp] theorem closers_nil : closers [] = 0 := rfl

@[simp] theorem closers_append (l m : List UInt8) : closers (l ++ m) = closers l + closers m :=
  List.countP_append

theorem closers_cons (c : UInt8) (l : List UInt8) :
    closers (c :: l) = closers l + if isCloser c then 1 else 0 := List.countP_cons

theorem closers_eq_zero {l : List UInt8} (h : ∀ c ∈ l, isCloser c = false) : closers l = 0 :=
  List.countP_eq_zero.mpr fun c hc => by simp [h c hc]

mutual

/-- The keys and strings of a tree. -/
def JsonValue.words : JsonValue D → List UInt8
  | .null => []
  | .boolean _ => []
  | .number _ _ _ => []
  | .string s => s
  | .array _ values => wordsOf values
  | .object _ keys values => keys.flatten ++ wordsOf values

def wordsOf : List (JsonValue D) → List UInt8
  | [] => []
  | v :: vs => v.words ++ wordsOf vs

end

theorem wordsOf_append (vs ws : List (JsonValue D)) :
    wordsOf (vs ++ ws) = wordsOf vs ++ wordsOf ws := by
  induction vs with
  | nil => rfl
  | cons v vs ih => simp [wordsOf, ih]

mutual

theorem JsonValue.words_bare (v : JsonValue D) : v.bare.words = v.words := by
  cases v with
  | null => rfl
  | boolean b => rfl
  | number x n d => rfl
  | string s => rfl
  | array depth values => exact wordsOf_bareAll values
  | object depth keys values =>
    simp only [JsonValue.bare, JsonValue.words, wordsOf_bareAll values]

theorem wordsOf_bareAll (vs : List (JsonValue D)) : wordsOf (bareAll vs) = wordsOf vs := by
  cases vs with
  | nil => rfl
  | cons v vs => simp only [bareAll, wordsOf, v.words_bare, wordsOf_bareAll vs]

end

/-! What is written. -/

theorem closers_spacing {depth : Nat} {tabs : List UInt8} (h : spacingAt depth = .ok tabs) :
    closers tabs = 0 := by
  unfold spacingAt at h
  split at h
  · cases h
  · rename_i s hs
    cases h
    refine closers_eq_zero fun c hc => ?_
    obtain ⟨i, -, rfl⟩ := List.mem_map.mp (List.mem_of_getElem? hs)
    obtain rfl := List.eq_of_mem_replicate hc
    rfl

theorem closers_digits (n : Nat) : closers (bytes (Nat.toDigits 10 n)) = 0 := by
  refine closers_eq_zero fun c hc => ?_
  obtain ⟨d, hd, rfl⟩ := List.mem_map.mp hc
  have hdigit := Nat.isDigit_of_mem_toDigits (by decide) (by decide) hd
  simp only [Char.isDigit, Bool.and_eq_true, decide_eq_true_eq] at hdigit
  have hle : d.toUInt8.toNat ≤ 0x39 := by
    have hval : d.val.toNat ≤ 0x39 := hdigit.2
    simp only [Char.toUInt8, UInt32.toNat_toUInt8]
    omega
  have hne : ∀ e : UInt8, 0x39 < e.toNat → d.toUInt8 ≠ e := by
    rintro e he rfl
    omega
  simp [isCloser, hne Byte.closeBrace (by decide), hne Byte.closeBracket (by decide)]

theorem closers_numToStringSigned (n : Nat) : closers (numToStringSigned n) = 0 := by
  unfold numToStringSigned
  split
  · exact closers_digits n
  · rw [closers_cons, closers_digits]
    rfl

theorem closers_numberText (natural decimal : Nat) : closers (numberText natural decimal) = 0 := by
  have hdot (l : List UInt8) : closers (Byte.dot :: l) = closers l := by
    rw [closers_cons]
    rfl
  have hpercent (l : List UInt8) : closers (0x25 :: l) = closers l := by
    rw [closers_cons]
    rfl
  simp only [numberText, hpercent, closers_append, hdot, closers_numToStringSigned]
  rfl

theorem multichar_newline (a : UInt8) : isCloser (multichar a newline) = false := by
  have hlow : multichar a newline = newline := by
    simp only [multichar, newline]
    rw [UInt8.ofNat_add, UInt8.ofNat_mul]
    simp
  rw [hlow]
  rfl

/-- The text of a container: what opens it, its lines, and a line feed in place of what closes
it. -/
theorem closers_container {c d : UInt8} (hc : isCloser c = false) (s : List UInt8) :
    closers (c :: newline :: (s ++ [multichar d newline])) = closers s := by
  have hnewline : isCloser newline = false := rfl
  simp [closers_cons, hc, hnewline, multichar_newline]

theorem closers_separator (last : Bool) :
    closers (if last then [] else [Byte.comma]) = 0 := by
  cases last <;> rfl

/-- What a line of a container adds to those behind it. -/
theorem closers_line (l : List UInt8) : closers (newline :: l) = closers l := by
  rw [closers_cons]
  rfl

theorem closers_keyQuotes (k : List UInt8) :
    closers (Byte.quote :: (k ++ [Byte.quote, Byte.colon, 0x20])) = closers k := by
  rw [closers_cons, closers_append]
  rfl

mutual

theorem JsonValue.closers_toJsonString (v : JsonValue D) {text : List UInt8}
    (h : v.toJsonString = .ok text) : closers text ≤ closers v.words := by
  cases v with
  | null =>
    cases h
    exact Nat.zero_le _
  | boolean b =>
    cases b <;> cases h <;> exact Nat.zero_le _
  | number x natural decimal =>
    cases h
    rw [closers_numberText]
    exact Nat.zero_le _
  | string s =>
    cases h
    have hquote : isCloser Byte.quote = false := rfl
    simp [closers_cons, hquote, JsonValue.words]
  | array depth values =>
    obtain ⟨s, hs, htext⟩ := Outcome.bind_eq_ok.mp h
    cases htext
    rw [closers_container rfl]
    exact closers_elementsToString depth values hs
  | object depth keys values =>
    obtain ⟨s, hs, htext⟩ := Outcome.bind_eq_ok.mp h
    cases htext
    rw [closers_container rfl]
    exact closers_membersToString depth keys values hs

theorem JsonValue.closers_within (v : JsonValue D) {text : List UInt8}
    (h : (if v.isNull then .ok [] else v.toJsonString) = .ok text) :
    closers text ≤ closers v.words := by
  cases hnull : v.isNull with
  | true =>
    simp only [hnull, if_true] at h
    cases h
    exact Nat.zero_le _
  | false =>
    simp only [hnull, Bool.false_eq_true, if_false] at h
    exact v.closers_toJsonString h

theorem closers_elementsToString (depth : Nat) (vs : List (JsonValue D)) {text : List UInt8}
    (h : elementsToString depth vs = .ok text) : closers text ≤ closers (wordsOf vs) := by
  cases vs with
  | nil =>
    cases h
    exact Nat.zero_le _
  | cons v vs =>
    obtain ⟨tabs, htabs, h₁⟩ := Outcome.bind_eq_ok.mp h
    obtain ⟨s, hs, h₂⟩ := Outcome.bind_eq_ok.mp h₁
    obtain ⟨more, hmore, h₃⟩ := Outcome.bind_eq_ok.mp h₂
    cases h₃
    have hv := v.closers_within hs
    have hvs := closers_elementsToString depth vs hmore
    simp only [closers_append, closers_spacing htabs, closers_separator, closers_line, wordsOf]
    omega

theorem closers_membersToString (depth : Nat) (keys : List (List UInt8))
    (vs : List (JsonValue D)) {text : List UInt8}
    (h : membersToString depth keys vs = .ok text) :
    closers text ≤ closers (keys.flatten ++ wordsOf vs) := by
  cases vs with
  | nil =>
    cases keys with
    | nil =>
      cases h
      exact Nat.zero_le _
    | cons k ks =>
      obtain ⟨_, -, hthrown⟩ := Outcome.bind_eq_ok.mp h
      cases hthrown
  | cons v vs =>
    cases keys with
    | nil =>
      cases h
      exact Nat.zero_le _
    | cons k ks =>
      obtain ⟨tabs, htabs, h₁⟩ := Outcome.bind_eq_ok.mp h
      obtain ⟨s, hs, h₂⟩ := Outcome.bind_eq_ok.mp h₁
      obtain ⟨more, hmore, h₃⟩ := Outcome.bind_eq_ok.mp h₂
      cases h₃
      have hv := v.closers_within hs
      have hvs := closers_membersToString depth ks vs hmore
      simp only [closers_append, closers_spacing htabs, closers_separator, closers_line,
        closers_keyQuotes, List.flatten_cons, wordsOf] at hvs ⊢
      omega

end

/-! What is read. -/

theorem closers_le_cons (c : UInt8) (l : List UInt8) : closers l ≤ closers (c :: l) := by
  rw [closers_cons]
  exact Nat.le_add_right _ _

theorem unescape_closer {c : UInt8} (h : isCloser (unescape c) = true) : isCloser c = true := by
  unfold unescape at h
  split at h
  · cases h
  split at h
  · cases h
  split at h
  · cases h
  split at h
  · cases h
  split at h
  · cases h
  exact h

theorem closers_stringBody {left : Nat} {prev : UInt8} {body s : List UInt8}
    (h : StringBody left prev body s) : closers s ≤ closers body := by
  induction h with
  | full => exact Nat.zero_le _
  | close => exact Nat.zero_le _
  | plain _ _ _ ih =>
    rw [closers_cons, closers_cons]
    omega
  | @escape _ c _ _ _ _ ih =>
    rw [closers_cons, closers_cons]
    have hc := unescape_closer (c := c)
    cases hu : isCloser (unescape c) with
    | false => simp only [Bool.false_eq_true, if_false]; omega
    | true =>
      simp only [hc hu, if_true]
      omega
  | unicode a b _ ih =>
    refine Nat.le_trans ih ?_
    rw [closers_cons, closers_cons, closers_cons]
    omega

theorem closers_keyText (k : KeyText) :
    closers k.key + closers [k.delimiter] ≤ closers k.text := by
  obtain ⟨space, quoted, delimiter⟩ := k
  cases quoted with
  | none =>
    simp only [KeyText.key, KeyText.text, KeyText.before, closers_append, closers_nil]
    omega
  | some q =>
    obtain ⟨body, tail⟩ := q
    have hquote := closers_le_cons Byte.quote (body ++ Byte.quote :: tail)
    simp only [KeyText.key, KeyText.text, KeyText.before, closers_append, List.cons_append]
      at hquote ⊢
    omega

/-- How many closers a text has that none of its words have. -/
def ValueText.ownClosers : ValueText → Nat
  | .leaf _ => 0
  | .array _ => 1
  | .object _ => 1

section
variable [DoubleArith D]

mutual

/-- What is read has each closer of its words, and each container its own besides. -/
theorem ValueText.closers_words (t : ValueText) {depth : Nat} {rest : List UInt8}
    (h : t.Valid depth rest) :
    closers (t.value depth : JsonValue D).words + t.ownClosers ≤ closers t.text := by
  cases t with
  | leaf t =>
    cases t with
    | string body s =>
      have hquote := closers_le_cons Byte.quote body
      exact Nat.le_trans (closers_stringBody h) hquote
    | null => exact Nat.zero_le _
    | boolean b => exact Nat.zero_le _
    | number t => exact Nat.zero_le _
  | array els => exact els.closers_words h.2.2
  | object ms => exact ms.closers_words h.2.2

theorem SlotText.closers_words (s : SlotText) {depth : Nat} {rest : List UInt8}
    (h : s.Valid depth rest) :
    closers (wordsOf (s.values depth : List (JsonValue D))) ≤ closers s.text := by
  cases s with
  | empty space => exact Nat.zero_le _
  | filled before v after =>
    have hv := v.closers_words h.2.1
    simp only [SlotText.values, wordsOf, SlotText.text, closers_append, closers_nil]
    omega

theorem ElementsText.closers_words (els : ElementsText) {depth : Nat} {rest : List UInt8}
    (h : els.Valid depth rest) :
    closers (wordsOf (els.values depth : List (JsonValue D))) + 1 ≤ closers els.text := by
  cases els with
  | close => exact Nat.le_refl _
  | slot c s more =>
    have hs := s.closers_words h.2.1
    have hmore := more.closers_words h.2.2
    have hcons := closers_le_cons c (s.text ++ more.text)
    simp only [ElementsText.values, wordsOf_append, ElementsText.text, closers_append] at hcons ⊢
    omega
  | skipped c more =>
    have hmore := more.closers_words h.2.2
    exact Nat.le_trans hmore (closers_le_cons c more.text)

theorem MembersText.closers_words (ms : MembersText) {depth : Nat} {rest : List UInt8}
    (h : ms.Valid depth rest) :
    closers (ms.keys.flatten ++ wordsOf (ms.values depth : List (JsonValue D))) + 1 ≤
      closers ms.text := by
  cases ms with
  | close => exact Nat.le_refl _
  | last c k =>
    have hk := closers_keyText k
    rw [h.2.2] at hk
    have hown : closers [Byte.closeBrace] = 1 := rfl
    have hcons := closers_le_cons c k.text
    simp only [MembersText.keys, MembersText.values, wordsOf, List.flatten_nil, List.append_nil,
      closers_nil, MembersText.text]
    omega
  | member c k s more =>
    obtain ⟨-, -, -, -, hs, hmore⟩ := h
    have hk := closers_keyText k
    have hslot := s.closers_words hs
    have hrest := more.closers_words hmore
    have hcons := closers_le_cons c (k.text ++ s.text ++ more.text)
    simp only [MembersText.keys, MembersText.values, wordsOf_append, List.flatten_cons,
      MembersText.text, closers_append] at hrest hcons ⊢
    omega

end

/-- A text that is read has more closers than the tree that it is read as. -/
theorem closers_lt_of_parse {n : Nat} {text : List UInt8} {v : JsonValue D} {s : EStream UInt8}
    (h : parseText n text = .ok (v, s)) : closers v.words < closers text := by
  unfold parseText at h
  split at h
  · cases h
  obtain ⟨doc, htext, hvalid, rfl⟩ := parse_inv h
  have hwords := doc.root.closers_words (D := D) hvalid.root
  have hown : doc.root.ownClosers = 1 := by
    obtain ⟨space, root⟩ := doc
    cases root with
    | leaf t => exact absurd hvalid.nested id
    | array els => rfl
    | object ms => rfl
  rw [htext, closers_append, DocumentText.text, closers_append]
  rw [hown] at hwords
  exact Nat.lt_of_lt_of_le hwords (by omega)

/-- No tree is read back from what it is written as. -/
theorem not_roundTrips (tree : JsonValue D) : ¬ RoundTrips tree := by
  rintro ⟨text, n, v, s, htext, hparse, hbare⟩
  have hread := closers_lt_of_parse hparse
  have hwritten := tree.closers_toJsonString htext
  rw [← v.words_bare, hbare, tree.words_bare] at hread
  omega

end

/-- The object that holds `true` under the key `a` is written without its brace. -/
theorem not_roundTrips_object :
    (JsonValue.object 0 [[0x61]] [.boolean true] : JsonValue Rat).toJsonString =
      .ok (bytes ['{', '\n', '\t', '"', 'a', '"', ':', ' ', 't', 'r', 'u', 'e', '\n', '\n']) ∧
    ¬ RoundTrips (JsonValue.object 0 [[0x61]] [.boolean true] : JsonValue Rat) := by
  refine ⟨rfl, ?_⟩
  rintro ⟨text, n, v, s, htext, hparse, -⟩
  have hread := closers_lt_of_parse hparse
  cases htext
  exact absurd hread (Nat.not_lt_zero _)

end WylesLibs.Parser.Json
