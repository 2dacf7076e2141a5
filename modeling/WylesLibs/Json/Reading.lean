import WylesLibs.Json.Token

/-! The texts that the parser reads, as they fall apart into tokens, and the values they come to.
The texts are those of the parser as it is, with all it lets pass: members without a value, keys
without quotes, and whatever stands behind a stray closing brace in an array. -/
namespace WylesLibs.Parser.Json
open Library WylesLibs.Stream
variable {D : Type}

inductive LeafText where
  | null
  | boolean (b : Bool)
  | number (t : NumberText)
  | string (body s : List UInt8)

mutual

/-- A value, from its first byte to its last. -/
inductive ValueText where
  | leaf (t : LeafText)
  | array (els : ElementsText)
  | object (ms : MembersText)

/-- What one call of `parseValue` takes: a value in space, or space alone. -/
inductive SlotText where
  | empty (space : List UInt8)
  | filled (before : List UInt8) (v : ValueText) (after : List UInt8)

/-- What the loop of `parseArray` takes, from the byte it looks at. -/
inductive ElementsText where
  | close
  | slot (c : UInt8) (s : SlotText) (more : ElementsText)
  | skipped (c : UInt8) (more : ElementsText)

/-- What the loop of `parseObject` takes, from the byte it looks at. -/
inductive MembersText where
  | close
  | last (c : UInt8) (k : KeyText)
  | member (c : UInt8) (k : KeyText) (s : SlotText) (more : MembersText)

end

/-! The bytes of a text. -/

def LeafText.text : LeafText → List UInt8
  | .null => bytes ['n', 'u', 'l', 'l']
  | .boolean true => bytes ['t', 'r', 'u', 'e']
  | .boolean false => bytes ['f', 'a', 'l', 's', 'e']
  | .number t => t.text
  | .string body _ => Byte.quote :: body

mutual

def ValueText.text : ValueText → List UInt8
  | .leaf t => t.text
  | .array els => els.text
  | .object ms => ms.text

def SlotText.text : SlotText → List UInt8
  | .empty space => space
  | .filled before v after => before ++ v.text ++ after

def ElementsText.text : ElementsText → List UInt8
  | .close => [Byte.closeBracket]
  | .slot c s more => c :: (s.text ++ more.text)
  | .skipped c more => c :: more.text

def MembersText.text : MembersText → List UInt8
  | .close => [Byte.closeBrace]
  | .last c k => c :: k.text
  | .member c k s more => c :: (k.text ++ s.text ++ more.text)

end

def ElementsText.head : ElementsText → UInt8
  | .close => Byte.closeBracket
  | .slot c _ _ => c
  | .skipped c _ => c

def MembersText.head : MembersText → UInt8
  | .close => Byte.closeBrace
  | .last c _ => c
  | .member c _ _ _ => c

theorem ElementsText.text_eq (els : ElementsText) : ∃ t, els.text = els.head :: t := by
  cases els <;> exact ⟨_, rfl⟩

theorem MembersText.text_eq (ms : MembersText) : ∃ t, ms.text = ms.head :: t := by
  cases ms <;> exact ⟨_, rfl⟩

/-! The values that a text comes to. An array or object of depth `depth` holds its elements at
the next depth. -/

def MembersText.keys : MembersText → List (List UInt8)
  | .close => []
  | .last _ _ => []
  | .member _ k _ more => k.key :: more.keys

section
variable [DoubleArith D]

def LeafText.value : LeafText → JsonValue D
  | .null => .null
  | .boolean b => .boolean b
  | .number t => .number t.value t.natural.length t.decimalDigits
  | .string _ s => .string s

mutual

def ValueText.value (depth : Nat) : ValueText → JsonValue D
  | .leaf t => t.value
  | .array els => .array depth (els.values depth)
  | .object ms => .object depth ms.keys (ms.values depth)

def SlotText.values (depth : Nat) : SlotText → List (JsonValue D)
  | .empty _ => []
  | .filled _ v _ => [v.value (depth + 1)]

def ElementsText.values (depth : Nat) : ElementsText → List (JsonValue D)
  | .close => []
  | .slot _ s more => s.values depth ++ more.values depth
  | .skipped _ more => more.values depth

def MembersText.values (depth : Nat) : MembersText → List (JsonValue D)
  | .close => []
  | .last _ _ => []
  | .member _ _ s more => s.values depth ++ more.values depth

end
end

/-! The texts that are read. `rest` is what follows in the stream: it decides where numbers,
values and keys end. -/

def Space (l : List UInt8) : Prop := ∀ c ∈ l, isWhitespace c = true

instance (l : List UInt8) : Decidable (Space l) := List.decidableBAll _ l

/-- The next byte is one at which `parseValue` stops. -/
def Stops (rest : List UInt8) : Prop := ∃ c more, rest = c :: more ∧ c ∈ valueEnd

def LeafText.Valid (rest : List UInt8) : LeafText → Prop
  | .null => True
  | .boolean _ => True
  | .number t => t.Valid ∧ t.natural ≠ [] ∧ ∃ c more, rest = c :: more ∧ behindNumber c
  | .string body s => StringBody maxLengthOfJsonStringValues 0 body s

mutual

def ValueText.Valid (depth : Nat) (rest : List UInt8) : ValueText → Prop
  | .leaf t => t.Valid rest
  | .array els =>
    depth ≤ maxJsonDepth ∧ els.head = Byte.openBracket ∧ els.Valid depth rest
  | .object ms =>
    depth ≤ maxJsonDepth ∧ ms.head = Byte.openBrace ∧ ms.Valid depth rest

def SlotText.Valid (depth : Nat) (rest : List UInt8) : SlotText → Prop
  | .empty space => Space space ∧ Stops rest
  | .filled before v after =>
    Space before ∧ v.Valid (depth + 1) (after ++ rest) ∧ Space after ∧ Stops rest

def ElementsText.Valid (depth : Nat) (rest : List UInt8) : ElementsText → Prop
  | .close => True
  | .slot c s more =>
    (c = Byte.openBracket ∨ c = Byte.comma) ∧ s.Valid depth (more.text ++ rest) ∧
      more.Valid depth rest
  | .skipped c more =>
    c ≠ Byte.closeBracket ∧ ¬ (c = Byte.openBracket ∨ c = Byte.comma) ∧ more.Valid depth rest

def MembersText.Valid (depth : Nat) (rest : List UInt8) : MembersText → Prop
  | .close => True
  | .last c k =>
    (c = Byte.openBrace ∨ c = Byte.comma) ∧ k.Valid rest ∧ k.delimiter = Byte.closeBrace
  | .member c k s more =>
    (c = Byte.openBrace ∨ c = Byte.comma) ∧ k.Valid (s.text ++ (more.text ++ rest)) ∧
      k.delimiter = Byte.colon ∧ k.key.length < maxLengthOfJsonStringKeys ∧
      s.Valid depth (more.text ++ rest) ∧ more.Valid depth rest

end

theorem SlotText.Valid.stops {s : SlotText} {depth : Nat} {rest : List UInt8}
    (hs : s.Valid depth rest) : Stops rest := by
  cases s with
  | empty space => exact hs.2
  | filled before v after => exact hs.2.2.2

end WylesLibs.Parser.Json
