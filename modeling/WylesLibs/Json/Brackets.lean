import WylesLibs.Json.Members
import WylesLibs.Library.Brackets

/-! The brackets of the texts that are accepted. Outside strings and keys they are balanced as
long as no array is read past a closing brace. -/
namespace WylesLibs.Parser.Json
open Library Library.Bracket WylesLibs.Stream

inductive Nesting where
  | object
  | array
  deriving DecidableEq

def bracket? (c : UInt8) : Option (Bracket Nesting) :=
  if c = Byte.openBrace then some (.opening .object)
  else if c = Byte.closeBrace then some (.closing .object)
  else if c = Byte.openBracket then some (.opening .array)
  else if c = Byte.closeBracket then some (.closing .array)
  else none

def brackets (l : List UInt8) : List (Bracket Nesting) := l.filterMap bracket?

@[simp] theorem brackets_nil : brackets [] = [] := rfl

@[simp] theorem brackets_append (l m : List UInt8) :
    brackets (l ++ m) = brackets l ++ brackets m := List.filterMap_append

theorem brackets_eq_nil {l : List UInt8} (h : ∀ c ∈ l, bracket? c = none) : brackets l = [] :=
  List.filterMap_eq_nil_iff.mpr h

theorem brackets_space {l : List UInt8} (h : Space l) : brackets l = [] := by
  refine brackets_eq_nil fun c hc => ?_
  obtain rfl | rfl | rfl | rfl := whitespace_cases (h c hc) <;> rfl

theorem bracket_digit {c : UInt8} (hc : isDigit c = true) : bracket? c = none := by
  have hne : ∀ d : UInt8, isDigit d = false → c ≠ d := by
    rintro d hd rfl
    rw [hc] at hd
    cases hd
  simp [bracket?, hne _ (show isDigit Byte.openBrace = false by decide),
    hne _ (show isDigit Byte.closeBrace = false by decide),
    hne _ (show isDigit Byte.openBracket = false by decide),
    hne _ (show isDigit Byte.closeBracket = false by decide)]

/-! A text without its strings and quoted keys. `left` is what stays of a key besides the space
in front of it and the byte that ends it. -/

/-- What stands between the closing quote of a key and the byte that ends it. -/
def KeyText.tail (k : KeyText) : List UInt8 :=
  match k.quoted with
  | none => []
  | some (_, tail) => tail

def LeafText.stripped : LeafText → List UInt8
  | .string _ _ => []
  | t => t.text

section
variable (left : KeyText → List UInt8)

def KeyText.stripped (k : KeyText) : List UInt8 := k.space ++ left k ++ [k.delimiter]

mutual

def ValueText.stripped : ValueText → List UInt8
  | .leaf t => t.stripped
  | .array els => els.stripped
  | .object ms => ms.stripped

def SlotText.stripped : SlotText → List UInt8
  | .empty space => space
  | .filled before v after => before ++ v.stripped ++ after

def ElementsText.stripped : ElementsText → List UInt8
  | .close => [Byte.closeBracket]
  | .slot c s more => c :: (s.stripped ++ more.stripped)
  | .skipped c more => c :: more.stripped

def MembersText.stripped : MembersText → List UInt8
  | .close => [Byte.closeBrace]
  | .last c k => c :: k.stripped left
  | .member c k s more => c :: (k.stripped left ++ (s.stripped ++ more.stripped))

end

def DocumentText.stripped (doc : DocumentText) : List UInt8 :=
  doc.space ++ doc.root.stripped left

/-! The texts in which no opening brace stays of a key. -/

def KeyText.Braceless (k : KeyText) : Prop := Byte.openBrace ∉ left k

mutual

def ValueText.Braceless : ValueText → Prop
  | .leaf _ => True
  | .array els => els.Braceless
  | .object ms => ms.Braceless

def SlotText.Braceless : SlotText → Prop
  | .empty _ => True
  | .filled _ v _ => v.Braceless

def ElementsText.Braceless : ElementsText → Prop
  | .close => True
  | .slot _ s more => s.Braceless ∧ more.Braceless
  | .skipped _ more => more.Braceless

def MembersText.Braceless : MembersText → Prop
  | .close => True
  | .last _ k => k.Braceless left
  | .member _ k s more => k.Braceless left ∧ s.Braceless ∧ more.Braceless

end

/-! The texts in which the brackets that stay of the keys of one object match each other. -/

def MembersText.remains : MembersText → List UInt8
  | .close => []
  | .last _ k => left k
  | .member _ k _ more => left k ++ more.remains

mutual

def ValueText.Matched : ValueText → Prop
  | .leaf _ => True
  | .array els => els.Matched
  | .object ms => Balanced (brackets (ms.remains left)) ∧ ms.Matched

def SlotText.Matched : SlotText → Prop
  | .empty _ => True
  | .filled _ v _ => v.Matched

def ElementsText.Matched : ElementsText → Prop
  | .close => True
  | .slot _ s more => s.Matched ∧ more.Matched
  | .skipped _ more => more.Matched

/-- Of the objects within the members. -/
def MembersText.Matched : MembersText → Prop
  | .close => True
  | .last _ _ => True
  | .member _ _ s more => s.Matched ∧ more.Matched

end
end

/-! The texts in which no array is read past a closing brace. -/

mutual

def ValueText.Straight : ValueText → Prop
  | .leaf _ => True
  | .array els => els.Straight
  | .object ms => ms.Straight

def SlotText.Straight : SlotText → Prop
  | .empty _ => True
  | .filled _ v _ => v.Straight

def ElementsText.Straight : ElementsText → Prop
  | .close => True
  | .slot _ s more => s.Straight ∧ more.Straight
  | .skipped _ _ => False

def MembersText.Straight : MembersText → Prop
  | .close => True
  | .last _ _ => True
  | .member _ _ s more => s.Straight ∧ more.Straight

end

section
variable {left : KeyText → List UInt8}

theorem brackets_leaf {t : LeafText} {rest : List UInt8} (h : t.Valid rest) :
    brackets t.stripped = [] := by
  cases t with
  | null => rfl
  | boolean b => cases b <;> rfl
  | string body s => rfl
  | number t =>
    obtain ⟨natural, decimal⟩ := t
    have hnatural : brackets natural = [] :=
      brackets_eq_nil fun c hc => bracket_digit (h.1.natural c hc)
    cases decimal with
    | none => exact hnatural
    | some ds =>
      have hdecimal : brackets ds = [] :=
        brackets_eq_nil fun c hc => bracket_digit ((h.1.decimal ds rfl).1 c hc)
      have hdot : brackets (Byte.dot :: ds) = brackets ds := rfl
      simp [LeafText.stripped, LeafText.text, NumberText.text, hnatural, hdot, hdecimal]

theorem brackets_key {k : KeyText} {rest : List UInt8} (hk : k.Valid rest) :
    brackets (k.stripped left) = brackets (left k) ++ brackets [k.delimiter] := by
  simp [KeyText.stripped, brackets_space hk.space]

/-- The byte at which a loop goes on behind a value. -/
theorem head_valueEnd {s : SlotText} {depth : Nat} {rest : List UInt8} {c : UInt8}
    {l : List UInt8} (hs : s.Valid depth rest) (hrest : rest = c :: l) : c ∈ valueEnd := by
  obtain ⟨d, m, rfl, hd⟩ := hs.stops
  obtain ⟨rfl, -⟩ := List.cons.inj hrest
  exact hd

theorem ElementsText.head_valueEnd {els : ElementsText} {s : SlotText} {depth : Nat}
    {rest : List UInt8} (hs : s.Valid depth (els.text ++ rest)) : els.head ∈ valueEnd := by
  obtain ⟨t, ht⟩ := els.text_eq
  exact Json.head_valueEnd hs (l := t ++ rest) (by rw [ht]; rfl)

theorem MembersText.head_valueEnd {ms : MembersText} {s : SlotText} {depth : Nat}
    {rest : List UInt8} (hs : s.Valid depth (ms.text ++ rest)) : ms.head ∈ valueEnd := by
  obtain ⟨t, ht⟩ := ms.text_eq
  exact Json.head_valueEnd hs (l := t ++ rest) (by rw [ht]; rfl)

theorem openBracket_not_valueEnd : Byte.openBracket ∉ valueEnd := by decide
theorem openBrace_not_valueEnd : Byte.openBrace ∉ valueEnd := by decide
theorem comma_ne_openBracket : Byte.comma ≠ Byte.openBracket := by decide
theorem comma_ne_openBrace : Byte.comma ≠ Byte.openBrace := by decide

/-- What stays of a key does not reach the key's end. -/
def Inside (left : KeyText → List UInt8) : Prop :=
  ∀ (k : KeyText) (rest : List UInt8), k.Valid rest → Byte.closeBrace ∉ left k

theorem inside_nothing : Inside fun _ => [] := fun _ _ _ => List.not_mem_nil

theorem inside_tail : Inside KeyText.tail := by
  intro k rest hk
  unfold KeyText.tail
  cases hquoted : k.quoted with
  | none => exact List.not_mem_nil
  | some p =>
    obtain ⟨-, -, htail, -⟩ := hk.quoted p.1 p.2 hquoted
    exact fun hmem => htail _ hmem (by decide)

theorem opening_mem_brackets {l : List UInt8} :
    Bracket.opening Nesting.object ∈ brackets l ↔ Byte.openBrace ∈ l := by
  rw [brackets, List.mem_filterMap]
  refine ⟨fun ⟨c, hc, hbracket⟩ => ?_, fun h => ⟨_, h, rfl⟩⟩
  unfold bracket? at hbracket
  split at hbracket
  · next hopen => exact hopen ▸ hc
  · split_ifs at hbracket <;> cases hbracket

theorem closing_mem_brackets {l : List UInt8} :
    Bracket.closing Nesting.object ∈ brackets l ↔ Byte.closeBrace ∈ l := by
  rw [brackets, List.mem_filterMap]
  refine ⟨fun ⟨c, hc, hbracket⟩ => ?_, fun h => ⟨_, h, rfl⟩⟩
  unfold bracket? at hbracket
  split at hbracket
  · cases hbracket
  · split at hbracket
    · next hclose => exact hclose ▸ hc
    · split_ifs at hbracket <;> cases hbracket

/-! Straight texts, key by key. Over the object, the stack holds the arrays that its keys have left
open so far: `top`. -/

theorem leads_closeBrace {top : List Nesting} (htop : Nesting.object ∉ top) (st : List Nesting) :
    Leads (stack top ([] : List (Bracket Nesting)) = some []) (top ++ .object :: st) st
      [.closing .object] := by
  cases top with
  | nil => exact (leads_closing st Nesting.object).of_iff (by simp)
  | cons j top =>
    have hne : j ≠ Nesting.object := fun h => htop (h ▸ List.mem_cons_self)
    exact (leads_mismatch hne []).of_iff (by simp)

theorem KeyText.leads {k : KeyText} {rest : List UInt8} {P : Prop} {top st : List Nesting}
    {w u : List (Bracket Nesting)} (hleft : Inside left) (hk : k.Valid rest)
    (hb : k.Braceless left) (htop : Nesting.object ∉ top)
    (h : ∀ top, Nesting.object ∉ top →
      Leads (stack top w = some [] ∧ P) (top ++ .object :: st) st u) :
    Leads (stack top (brackets (left k) ++ w) = some [] ∧ P) (top ++ .object :: st) st
      (brackets (left k) ++ u) := by
  have habove := stack_above (mt closing_mem_brackets.mp (hleft k rest hk)) top st
  cases hstack : stack top (brackets (left k)) with
  | none =>
    rw [hstack, Option.map_none] at habove
    refine (leads_lost habove u).of_iff ?_
    simp [stack_append, hstack]
  | some top' =>
    rw [hstack, Option.map_some] at habove
    have htop' := not_mem_of_stack (mt opening_mem_brackets.mp hb) htop hstack
    refine ((h top' htop').behind habove).of_iff ?_
    rw [stack_append, hstack, Option.bind_some]

mutual

/-- A value leaves the stack as it was if it is straight and matched, and does not get to its end if
not. -/
theorem ValueText.leads (v : ValueText) (hleft : Inside left) {depth : Nat} {rest : List UInt8}
    (hv : v.Valid depth rest) (hb : v.Braceless left) (st : List Nesting) :
    Leads (v.Straight ∧ v.Matched left) st st (brackets (v.stripped left)) := by
  cases v with
  | leaf t =>
    rw [ValueText.stripped, brackets_leaf hv]
    exact (leads_nil st).of_iff (by simp [ValueText.Straight, ValueText.Matched])
  | array els => exact (els.leads hleft hv.2.2 hb st).1 hv.2.1
  | object ms =>
    refine ((ms.leads hleft hv.2.2 hb st).1 hv.2.1).of_iff ?_
    rw [← balanced_iff_stack]
    exact and_left_comm

theorem SlotText.leads (s : SlotText) (hleft : Inside left) {depth : Nat} {rest : List UInt8}
    (hs : s.Valid depth rest) (hb : s.Braceless left) (st : List Nesting) :
    Leads (s.Straight ∧ s.Matched left) st st (brackets (s.stripped left)) := by
  cases s with
  | empty space =>
    rw [SlotText.stripped, brackets_space hs.1]
    exact (leads_nil st).of_iff (by simp [SlotText.Straight, SlotText.Matched])
  | filled before v after =>
    have hv := v.leads hleft hs.2.1 hb st
    rw [SlotText.stripped, brackets_append, brackets_append, brackets_space hs.1,
      brackets_space hs.2.2.1, List.append_nil]
    exact hv

theorem ElementsText.leads (els : ElementsText) (hleft : Inside left) {depth : Nat}
    {rest : List UInt8} (h : els.Valid depth rest) (hb : els.Braceless left) (st : List Nesting) :
    (els.head = Byte.openBracket →
      Leads (els.Straight ∧ els.Matched left) st st (brackets (els.stripped left))) ∧
    (els.head ∈ valueEnd →
      Leads (els.Straight ∧ els.Matched left) (.array :: st) st (brackets (els.stripped left))) := by
  cases els with
  | close =>
    refine ⟨fun hhead => absurd hhead (by decide), fun _ => ?_⟩
    exact (leads_closing st Nesting.array).of_iff
      (by simp [ElementsText.Straight, ElementsText.Matched])
  | slot c s more =>
    obtain ⟨hc, hs, hmore⟩ := h
    have hslot := s.leads hleft hs hb.1 (.array :: st)
    have hrest := (more.leads hleft hmore hb.2 st).2 (ElementsText.head_valueEnd hs)
    have hboth := (hslot.append hrest).of_iff and_and_and_comm
    rw [← brackets_append] at hboth
    obtain rfl | rfl := hc
    · exact ⟨fun _ => hboth.opening, fun hend => absurd hend openBracket_not_valueEnd⟩
    · exact ⟨fun hhead => absurd hhead comma_ne_openBracket, fun _ => hboth⟩
  | skipped c more =>
    obtain ⟨hne, hc, -⟩ := h
    refine ⟨fun hhead => absurd (Or.inl hhead) hc, fun hend => ?_⟩
    -- the first byte that an array is read past is a closing brace
    obtain rfl : c = Byte.closeBrace := by
      simp only [ElementsText.head, valueEnd, List.mem_cons, List.not_mem_nil, or_false] at hend
      grind
    exact (leads_mismatch (by decide) _).of_iff (by simp [ElementsText.Straight])

theorem MembersText.leads (ms : MembersText) (hleft : Inside left) {depth : Nat}
    {rest : List UInt8} (h : ms.Valid depth rest) (hb : ms.Braceless left) (st : List Nesting) :
    (ms.head = Byte.openBrace →
      Leads (stack [] (brackets (ms.remains left)) = some [] ∧ ms.Straight ∧ ms.Matched left) st st
        (brackets (ms.stripped left))) ∧
    (ms.head ∈ valueEnd → ∀ top, Nesting.object ∉ top →
      Leads (stack top (brackets (ms.remains left)) = some [] ∧ ms.Straight ∧ ms.Matched left)
        (top ++ .object :: st) st (brackets (ms.stripped left))) := by
  cases ms with
  | close =>
    refine ⟨fun hhead => absurd hhead (by decide), fun _ top htop => ?_⟩
    exact (leads_closeBrace htop st).of_iff
      (by simp [MembersText.remains, MembersText.Straight, MembersText.Matched])
  | last c k =>
    obtain ⟨hc, hk, hd⟩ := h
    have hkey : brackets (k.stripped left) = brackets (left k) ++ [.closing .object] := by
      rw [brackets_key hk, hd]
      rfl
    have hclose : ∀ top, Nesting.object ∉ top →
        Leads (stack top (brackets (left k)) = some [] ∧ True ∧ True) (top ++ .object :: st) st
          (brackets (k.stripped left)) := by
      intro top htop
      have hlast := KeyText.leads (P := True ∧ True) (w := []) hleft hk hb htop
        (fun top htop => (leads_closeBrace htop st).of_iff (by simp))
      rw [List.append_nil] at hlast
      rw [hkey]
      exact hlast
    obtain rfl | rfl := hc
    · exact ⟨fun _ => (hclose [] List.not_mem_nil).opening,
        fun hend => absurd hend openBrace_not_valueEnd⟩
    · exact ⟨fun hhead => absurd hhead comma_ne_openBrace, fun _ => hclose⟩
  | member c k s more =>
    obtain ⟨hc, hk, hd, -, hs, hmore⟩ := h
    have hkey : brackets (k.stripped left) = brackets (left k) := by
      rw [brackets_key hk, hd]
      exact List.append_nil _
    have hboth : ∀ top, Nesting.object ∉ top →
        Leads (stack top (brackets (left k ++ more.remains left)) = some [] ∧
            (s.Straight ∧ more.Straight) ∧ s.Matched left ∧ more.Matched left)
          (top ++ .object :: st) st
          (brackets (k.stripped left ++ (s.stripped left ++ more.stripped left))) := by
      intro top htop
      rw [brackets_append, brackets_append, brackets_append, hkey]
      refine KeyText.leads hleft hk hb.1 htop fun top htop => ?_
      have hslot := s.leads hleft hs hb.2.1 (top ++ .object :: st)
      have hrest := (more.leads hleft hmore hb.2.2 st).2 (MembersText.head_valueEnd hs) top htop
      refine (hslot.append hrest).of_iff ?_
      rw [and_left_comm, and_and_and_comm]
    obtain rfl | rfl := hc
    · exact ⟨fun _ => (hboth [] List.not_mem_nil).opening,
        fun hend => absurd hend openBrace_not_valueEnd⟩
    · exact ⟨fun hhead => absurd hhead comma_ne_openBrace, fun _ => hboth⟩

end

/-! A straight text has as many opening braces as closing ones, and those that stay of its keys on
top. -/

theorem brackets_cons (c : UInt8) (l : List UInt8) :
    brackets (c :: l) = brackets [c] ++ brackets l := brackets_append [c] l

theorem KeyText.net_left {k : KeyText} {rest : List UInt8} (hleft : Inside left)
    (hk : k.Valid rest) :
    0 ≤ net Nesting.object (brackets (left k)) ∧
      (net Nesting.object (brackets (left k)) = 0 → k.Braceless left) := by
  rw [net_eq_count (mt closing_mem_brackets.mp (hleft k rest hk))]
  refine ⟨Nat.cast_nonneg _, fun hzero hmem => ?_⟩
  exact List.count_eq_zero.mp (Nat.cast_eq_zero.mp hzero) (opening_mem_brackets.mpr hmem)

mutual

theorem ValueText.net_stripped (v : ValueText) (hleft : Inside left) {depth : Nat}
    {rest : List UInt8} (hv : v.Valid depth rest) (hs : v.Straight) :
    0 ≤ net Nesting.object (brackets (v.stripped left)) ∧
      (net Nesting.object (brackets (v.stripped left)) = 0 → v.Braceless left) := by
  cases v with
  | leaf t =>
    rw [ValueText.stripped, brackets_leaf hv]
    exact ⟨le_rfl, fun _ => trivial⟩
  | array els => exact els.net_stripped hleft hv.2.2 hs
  | object ms => exact (ms.net_stripped hleft hv.2.2 hs).1 hv.2.1

theorem SlotText.net_stripped (s : SlotText) (hleft : Inside left) {depth : Nat}
    {rest : List UInt8} (h : s.Valid depth rest) (hs : s.Straight) :
    0 ≤ net Nesting.object (brackets (s.stripped left)) ∧
      (net Nesting.object (brackets (s.stripped left)) = 0 → s.Braceless left) := by
  cases s with
  | empty space =>
    rw [SlotText.stripped, brackets_space h.1]
    exact ⟨le_rfl, fun _ => trivial⟩
  | filled before v after =>
    have hv := v.net_stripped hleft h.2.1 hs
    rw [SlotText.stripped, brackets_append, brackets_append, brackets_space h.1,
      brackets_space h.2.2.1, List.append_nil]
    exact hv

theorem ElementsText.net_stripped (els : ElementsText) (hleft : Inside left) {depth : Nat}
    {rest : List UInt8} (h : els.Valid depth rest) (hs : els.Straight) :
    0 ≤ net Nesting.object (brackets (els.stripped left)) ∧
      (net Nesting.object (brackets (els.stripped left)) = 0 → els.Braceless left) := by
  cases els with
  | close => exact ⟨le_of_eq rfl, fun _ => trivial⟩
  | slot c s more =>
    obtain ⟨hc, hslot, hmore⟩ := h
    obtain ⟨hle, hslot⟩ := s.net_stripped hleft hslot hs.1
    obtain ⟨hle', hmore⟩ := more.net_stripped hleft hmore hs.2
    have hhead : net Nesting.object (brackets [c]) = 0 := by obtain rfl | rfl := hc <;> rfl
    rw [ElementsText.stripped, brackets_cons, brackets_append, net_append, net_append, hhead]
    exact ⟨by omega, fun hzero => ⟨hslot (by omega), hmore (by omega)⟩⟩
  | skipped c more => exact hs.elim

theorem MembersText.net_stripped (ms : MembersText) (hleft : Inside left) {depth : Nat}
    {rest : List UInt8} (h : ms.Valid depth rest) (hs : ms.Straight) :
    (ms.head = Byte.openBrace →
      0 ≤ net Nesting.object (brackets (ms.stripped left)) ∧
        (net Nesting.object (brackets (ms.stripped left)) = 0 → ms.Braceless left)) ∧
    (ms.head ∈ valueEnd →
      -1 ≤ net Nesting.object (brackets (ms.stripped left)) ∧
        (net Nesting.object (brackets (ms.stripped left)) = -1 → ms.Braceless left)) := by
  have hopen : net Nesting.object (brackets [Byte.openBrace]) = 1 := rfl
  have hcomma : net Nesting.object (brackets [Byte.comma]) = 0 := rfl
  have hclose : net Nesting.object (brackets [Byte.closeBrace]) = -1 := rfl
  cases ms with
  | close =>
    exact ⟨fun hhead => absurd hhead (by decide), fun _ => ⟨hclose.ge, fun _ => trivial⟩⟩
  | last c k =>
    obtain ⟨hc, hk, hd⟩ := h
    obtain ⟨hle, hkey⟩ := KeyText.net_left hleft hk
    rw [MembersText.stripped, brackets_cons, brackets_key hk, hd, net_append, net_append, hclose]
    obtain rfl | rfl := hc
    · rw [hopen]
      exact ⟨fun _ => ⟨by omega, fun hzero => hkey (by omega)⟩,
        fun hend => absurd hend openBrace_not_valueEnd⟩
    · rw [hcomma]
      exact ⟨fun hhead => absurd hhead comma_ne_openBrace,
        fun _ => ⟨by omega, fun hzero => hkey (by omega)⟩⟩
  | member c k s more =>
    obtain ⟨hc, hk, hd, -, hslot, hmore⟩ := h
    have hcolon : net Nesting.object (brackets [Byte.colon]) = 0 := rfl
    obtain ⟨hle, hkey⟩ := KeyText.net_left hleft hk
    have hend := MembersText.head_valueEnd hslot
    obtain ⟨hle', hslot⟩ := s.net_stripped hleft hslot hs.1
    obtain ⟨hle'', hmore⟩ := (more.net_stripped hleft hmore hs.2).2 hend
    rw [MembersText.stripped, brackets_cons, brackets_append, brackets_append, brackets_key hk, hd,
      net_append, net_append, net_append, net_append, hcolon]
    obtain rfl | rfl := hc
    · rw [hopen]
      exact ⟨fun _ => ⟨by omega, fun hzero => ⟨hkey (by omega), hslot (by omega), hmore (by omega)⟩⟩,
        fun hend => absurd hend openBrace_not_valueEnd⟩
    · rw [hcomma]
      exact ⟨fun hhead => absurd hhead comma_ne_openBrace,
        fun _ => ⟨by omega, fun hzero => ⟨hkey (by omega), hslot (by omega), hmore (by omega)⟩⟩⟩

end

/-! Where the brackets that stay of the keys match, none of them is a brace: no closing one is
there. -/

theorem MembersText.not_mem_remains (ms : MembersText) (hleft : Inside left) {depth : Nat}
    {rest : List UInt8} (h : ms.Valid depth rest) : Byte.closeBrace ∉ ms.remains left := by
  match ms, h with
  | .close, _ => exact List.not_mem_nil
  | .last c k, h => exact hleft k _ h.2.1
  | .member c k s more, h =>
    rw [MembersText.remains, List.mem_append, not_or]
    exact ⟨hleft k _ h.2.1, more.not_mem_remains hleft h.2.2.2.2.2⟩

theorem not_mem_of_balanced {l : List UInt8} (h : Balanced (brackets l))
    (hclose : Byte.closeBrace ∉ l) : Byte.openBrace ∉ l := by
  have hnet := h.net_eq_zero Nesting.object
  rw [net_eq_count (mt closing_mem_brackets.mp hclose)] at hnet
  exact fun hmem => List.count_eq_zero.mp (Nat.cast_eq_zero.mp hnet) (opening_mem_brackets.mpr hmem)

mutual

theorem ValueText.braceless_of_matched (v : ValueText) (hleft : Inside left) {depth : Nat}
    {rest : List UInt8} (hv : v.Valid depth rest) (hm : v.Matched left) : v.Braceless left := by
  cases v with
  | leaf t => trivial
  | array els => exact els.braceless_of_matched hleft hv.2.2 hm
  | object ms =>
    have hbrace := not_mem_of_balanced hm.1 (ms.not_mem_remains hleft hv.2.2)
    exact ms.braceless_of_matched hleft hv.2.2 hbrace hm.2

theorem SlotText.braceless_of_matched (s : SlotText) (hleft : Inside left) {depth : Nat}
    {rest : List UInt8} (hs : s.Valid depth rest) (hm : s.Matched left) : s.Braceless left := by
  cases s with
  | empty space => trivial
  | filled before v after => exact v.braceless_of_matched hleft hs.2.1 hm

theorem ElementsText.braceless_of_matched (els : ElementsText) (hleft : Inside left) {depth : Nat}
    {rest : List UInt8} (h : els.Valid depth rest) (hm : els.Matched left) :
    els.Braceless left := by
  cases els with
  | close => trivial
  | slot c s more =>
    exact ⟨s.braceless_of_matched hleft h.2.1 hm.1, more.braceless_of_matched hleft h.2.2 hm.2⟩
  | skipped c more => exact more.braceless_of_matched hleft h.2.2 hm

theorem MembersText.braceless_of_matched (ms : MembersText) (hleft : Inside left) {depth : Nat}
    {rest : List UInt8} (h : ms.Valid depth rest) (hbrace : Byte.openBrace ∉ ms.remains left)
    (hm : ms.Matched left) : ms.Braceless left := by
  cases ms with
  | close => trivial
  | last c k => exact hbrace
  | member c k s more =>
    obtain ⟨-, -, -, -, hs, hmore⟩ := h
    rw [MembersText.remains, List.mem_append, not_or] at hbrace
    exact ⟨hbrace.1, s.braceless_of_matched hleft hs hm.1,
      more.braceless_of_matched hleft hmore hbrace.2 hm.2⟩

end

theorem DocumentText.brackets_stripped {doc : DocumentText} {rest : List UInt8}
    (h : doc.Valid rest) : brackets (doc.stripped left) = brackets (doc.root.stripped left) := by
  rw [DocumentText.stripped, brackets_append, brackets_space h.space, List.nil_append]

/-- Straight and matched is what a text has to be, unless it is not straight and there are braces left
of its keys: these may make up for what the arrays are read past. -/
theorem DocumentText.balanced_iff {doc : DocumentText} {rest : List UInt8} (hleft : Inside left)
    (h : doc.Valid rest) (hone : doc.root.Straight ∨ doc.root.Braceless left) :
    Balanced (brackets (doc.stripped left)) ↔ doc.root.Straight ∧ doc.root.Matched left := by
  have hiff : doc.root.Braceless left →
      (Balanced (brackets (doc.stripped left)) ↔ doc.root.Straight ∧ doc.root.Matched left) := by
    intro hb
    rw [doc.brackets_stripped h]
    exact (doc.root.leads hleft h.root hb []).balanced_iff
  constructor
  · intro hbalanced
    have hb : doc.root.Braceless left := by
      obtain hs | hb := hone
      · have hnet := hbalanced.net_eq_zero Nesting.object
        rw [doc.brackets_stripped h] at hnet
        exact (doc.root.net_stripped hleft h.root hs).2 hnet
      · exact hb
    exact (hiff hb).mp hbalanced
  · rintro ⟨hs, hm⟩
    exact (hiff (doc.root.braceless_of_matched hleft h.root hm)).mpr ⟨hs, hm⟩

end

/-! Where nothing stays of the keys, there is nothing to match. -/

mutual

theorem ValueText.matched_nothing (v : ValueText) : v.Matched fun _ => [] := by
  cases v with
  | leaf t => trivial
  | array els => exact els.matched_nothing
  | object ms =>
    have hnothing : ms.remains (fun _ => []) = [] := ms.remains_nothing
    rw [ValueText.Matched, hnothing]
    exact ⟨.nil, ms.matched_nothing⟩

theorem SlotText.matched_nothing (s : SlotText) : s.Matched fun _ => [] := by
  cases s with
  | empty space => trivial
  | filled before v after => exact v.matched_nothing

theorem ElementsText.matched_nothing (els : ElementsText) : els.Matched fun _ => [] := by
  cases els with
  | close => trivial
  | slot c s more => exact ⟨s.matched_nothing, more.matched_nothing⟩
  | skipped c more => exact more.matched_nothing

theorem MembersText.matched_nothing (ms : MembersText) : ms.Matched fun _ => [] := by
  cases ms with
  | close => trivial
  | last c k => trivial
  | member c k s more => exact ⟨s.matched_nothing, more.matched_nothing⟩

theorem MembersText.remains_nothing (ms : MembersText) : ms.remains (fun _ => []) = [] := by
  cases ms with
  | close => rfl
  | last c k => rfl
  | member c k s more => exact more.remains_nothing

end

/-! The conditions on a text. -/

namespace DocumentText

/-- No array is read past a closing brace. -/
def Straight (doc : DocumentText) : Prop := doc.root.Straight

/-- The brackets between the closing quotes of an object's keys and the bytes that end them match
each other, if there are any. -/
def Matched (doc : DocumentText) : Prop := doc.root.Matched KeyText.tail

/-- There is no opening brace among them. -/
def Braceless (doc : DocumentText) : Prop := doc.root.Braceless KeyText.tail

end DocumentText

section
variable {D : Type} [DoubleArith D]

end

end WylesLibs.Parser.Json
