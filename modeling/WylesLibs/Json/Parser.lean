import WylesLibs.Json.Value
import WylesLibs.EStream.ByteStream

/-! The JSON parser as it reads from a stream. `steps` bounds the turns of those loops whose end
the source leaves to the input; the logger is off. -/
namespace WylesLibs.Parser.Json
open Library WylesLibs.Stream
variable {σ D : Type}

section
variable [EStreamI σ UInt8] [DoubleArith D]

def skipWhitespace : Nat → UInt8 → Prog σ UInt8
  | 0, _ => Prog.spent
  | steps + 1, c => do
    if isWhitespace c then
      let _ ← (get : Prog σ UInt8)
      let c ← (peek : Prog σ UInt8)
      skipWhitespace steps c
    else
      pure c

def readWhiteSpaceUntil (steps : Nat) (untilChars : List UInt8) : Prog σ Unit := do
  let c ← (peek : Prog σ UInt8)
  if c ∈ untilChars then
    pure ()
  else
    let c ← skipWhitespace steps c
    if c ∈ untilChars then pure ()
    else Prog.raise "Only allow whitespace between tokens..."

/-- The bytes that may stand right behind a number. -/
def numberEnd : List UInt8 := [0x20, Byte.comma, Byte.closeBrace, 0x0D, 0x0A, 0x09]

/-- The loop that multiplies by ten once for each unit of the exponent. -/
def exponentialMultiplier : Nat → D
  | 0 => DoubleArith.ofNat 1
  | exp + 1 => DoubleArith.mul (exponentialMultiplier exp) (DoubleArith.ofNat 10)

/-- The sign is looked at and left where it is, so what follows it is never reached; the letter
of an exponent is looked at twice. -/
def parseNumber (obj : JsonArray D) : Prog σ (JsonArray D) := do
  let c ← (peek : Prog σ UInt8)
  let sign : Int := if c = Byte.minus then -1 else 1
  let c ← (peek : Prog σ UInt8)
  if isDigit c then
    let (value, naturalDigits, decimalDigits) ← (readDecimal : Prog σ (D × Nat × Nat))
    let c ← (peek : Prog σ UInt8)
    let value ←
      if c = 0x65 ∨ c = 0x45 then do
        let c ← (peek : Prog σ UInt8)
        if c = Byte.minus ∨ c = Byte.plus then
          let _ ← (get : Prog σ UInt8)
        let (exp, _) ← (readNatural : Prog σ (Nat × Nat))
        if exp > fltMaxExpAbs then
          Prog.raise "parseNumber: exponential to large."
        else if c = Byte.minus then
          pure (DoubleArith.div value (exponentialMultiplier exp))
        else if c = Byte.plus then
          pure (DoubleArith.mul value (exponentialMultiplier exp))
        else
          pure value
      else if c ∈ numberEnd then
        pure value
      else
        Prog.raise "Invalid number."
    pure (obj.addValue
      (.number (DoubleArith.mul value (DoubleArith.ofInt sign)) naturalDigits decimalDigits))
  else
    Prog.raise "Invalid number."

/-- What an escaped character stands for. -/
def unescape (c : UInt8) : UInt8 :=
  if c = 0x62 then 0x08
  else if c = 0x66 then 0x0C
  else if c = 0x6E then 0x0A
  else if c = 0x72 then 0x0D
  else if c = 0x74 then 0x09
  else c

/-- The first argument is what is left of the length limit. The backslash of an escape stays in
the string; the two digits behind a `u` are read and given up. -/
def parseStringLoop : Nat → UInt8 → UInt8 → List UInt8 → Prog σ (List UInt8)
  | 0, _, _, s => pure s
  | left + 1, prev, c, s =>
    if c ≠ Byte.quote ∨ prev = Byte.backslash then do
      let s ←
        if prev = Byte.backslash then
          if c = 0x75 then do
            let _ ← (readString 2 (none : Option (NullTask UInt8)) : Prog σ (List UInt8))
            pure s
          else pure (s ++ [unescape c])
        else pure (s ++ [c])
      let next ← (get : Prog σ UInt8)
      parseStringLoop left c next s
    else pure s

def parseString (obj : JsonArray D) : Prog σ (JsonArray D) := do
  let _ ← (get : Prog σ UInt8)
  let c ← (get : Prog σ UInt8)
  let s ← parseStringLoop maxLengthOfJsonStringValues 0 c []
  if s.length > maxLengthOfJsonStringValues then
    Prog.raise "parseString: string value too looooooonnnng!"
  else
    pure (obj.addValue (.string s))

def parseImmediate (obj : JsonArray D) (comp : List UInt8) (value : JsonValue D) :
    Prog σ (JsonArray D) :=
  Prog.rescue
    (do
      let _ ← (readString comp.length (some (ReaderTaskExact.mk' comp true)) :
        Prog σ (List UInt8))
      pure (obj.addValue value))
    "Invalid immediate value - throw away the whole object. Don't rest on your laurels!"

/-- What `parseKey` makes of the text it has read, which ends with the delimiter: `false` where
the end of the object was found in place of a key. -/
def acceptKey (obj : JsonObject D) (key : List UInt8) : Outcome (Bool × JsonObject D) :=
  if key.length < 1 then .thrown "Empty key string found."
  else if key.getLastD 0 = Byte.closeBrace then .ok (false, obj)
  else if key.length > maxLengthOfJsonStringKeys then .thrown "Key string to loooooonnng!"
  else .ok (true, obj.addKey (key.take (key.length - 1)))

def parseKey (obj : JsonObject D) : Prog σ (Bool × JsonObject D) := do
  let key ← (Stream.read [Byte.colon, Byte.closeBrace]
    (some (ReaderTaskExtract.mk' Byte.quote Byte.quote)) true : Prog σ (List UInt8))
  Prog.lift (acceptKey obj key)

/-- The bytes at which `parseValue` stops, whichever loop has called it. -/
def valueEnd : List UInt8 := [Byte.comma, Byte.closeBrace, Byte.closeBracket]

/-- What `parseValue` does at the byte `c` before a token is found: the array with the token, or
nothing yet. -/
def parseToken (nestedArray : JsonArray D → Prog σ (JsonArray D))
    (nestedObject : JsonObject D → Prog σ (JsonObject D)) (obj : JsonArray D) (c : UInt8) :
    Prog σ (JsonArray D × Bool) :=
  if c = Byte.quote then do
    let obj ← parseString obj
    pure (obj, true)
  else if isDigit c = true ∨ c = Byte.plus ∨ c = Byte.minus then do
    let obj ← parseNumber obj
    pure (obj, true)
  else if c = Byte.openBracket then do
    let arr ← Prog.lift (JsonArray.make (obj.depth + 1))
    let arr ← nestedArray arr
    pure (obj.addValue arr.toValue, true)
  else if c = 0x74 then do
    let obj ← parseImmediate obj (bytes ['t', 'r', 'u', 'e']) (.boolean true)
    pure (obj, true)
  else if c = 0x66 then do
    let obj ← parseImmediate obj (bytes ['f', 'a', 'l', 's', 'e']) (.boolean false)
    pure (obj, true)
  else if c = 0x6E then do
    let obj ← parseImmediate obj (bytes ['n', 'u', 'l', 'l']) .null
    pure (obj, true)
  else if c = Byte.openBrace then do
    let new ← Prog.lift (JsonObject.make (obj.depth + 1))
    let new ← nestedObject new
    pure (obj.addValue new.toValue, true)
  else if isWhitespace c = false then
    Prog.raise ("Found non-whitespace char left of value token. " ++ quoteChar c)
  else do
    let _ ← (get : Prog σ UInt8)
    pure (obj, false)

/-- What `parseValue` does at the byte `c` behind its token. -/
def parseBehindToken (c : UInt8) : Prog σ Unit :=
  if isWhitespace c = false then
    Prog.raise ("Found non-whitespace char right of value token. " ++ quoteChar c)
  else do
    let _ ← (get : Prog σ UInt8)
    pure ()

mutual

/-- The loop of `parseValue` at the byte `c`, which is peeked and not consumed. -/
def parseValueLoop : Nat → JsonArray D → Bool → UInt8 → Prog σ (JsonArray D)
  | 0, _, _, _ => Prog.spent
  | steps + 1, obj, parsed, c =>
    if c ∈ valueEnd then pure obj
    else do
      let (obj, parsed) ←
        if parsed = false then
          parseToken
            (fun arr => do
              let c ← (get : Prog σ UInt8)
              parseArrayLoop steps arr c)
            (fun new => do
              let c ← (get : Prog σ UInt8)
              parseObjectLoop steps new c)
            obj c
        else do
          parseBehindToken c
          pure (obj, true)
      let c ← (peek : Prog σ UInt8)
      parseValueLoop steps obj parsed c

/-- The loop of `parseArray` at the byte `c`, which is consumed. -/
def parseArrayLoop : Nat → JsonArray D → UInt8 → Prog σ (JsonArray D)
  | 0, _, _ => Prog.spent
  | steps + 1, arr, c =>
    if c = Byte.closeBracket then pure arr
    else do
      let arr ←
        if c = Byte.openBracket ∨ c = Byte.comma then do
          let c ← (peek : Prog σ UInt8)
          parseValueLoop steps arr false c
        else pure arr
      let c ← (get : Prog σ UInt8)
      parseArrayLoop steps arr c

/-- The loop of `parseObject` at the byte `c`, which is consumed. The next byte is taken only
where a member was read: at any other byte the loop turns without end. -/
def parseObjectLoop : Nat → JsonObject D → UInt8 → Prog σ (JsonObject D)
  | 0, _, _ => Prog.spent
  | steps + 1, obj, c =>
    if c = Byte.closeBrace then pure obj
    else if c = Byte.openBrace ∨ c = Byte.comma then do
      let (more, obj) ← parseKey obj
      if more then
        let c ← (peek : Prog σ UInt8)
        let values ← parseValueLoop steps obj.values false c
        let c ← (get : Prog σ UInt8)
        parseObjectLoop steps { obj with values := values } c
      else
        pure obj
    else parseObjectLoop steps obj c

end

def parseValue (steps : Nat) (obj : JsonArray D) : Prog σ (JsonArray D) := do
  let c ← (peek : Prog σ UInt8)
  parseValueLoop steps obj false c

def parseArray (steps : Nat) (arr : JsonArray D) : Prog σ (JsonArray D) := do
  let c ← (get : Prog σ UInt8)
  parseArrayLoop steps arr c

def parseObject (steps : Nat) (obj : JsonObject D) : Prog σ (JsonObject D) := do
  let c ← (get : Prog σ UInt8)
  parseObjectLoop steps obj c

/-- `parse(ByteEStream*, size_t&)`; the index is neither read nor written. -/
def parse (steps : Nat) : Prog σ (JsonValue D) := do
  readWhiteSpaceUntil steps [Byte.openBrace, Byte.openBracket]
  let c ← (peek : Prog σ UInt8)
  if c = Byte.openBrace then
    let obj ← Prog.lift (JsonObject.make 0)
    let obj ← parseObject steps obj
    pure obj.toValue
  else if c = Byte.openBracket then
    let arr ← Prog.lift (JsonArray.make 0)
    let arr ← parseArray steps arr
    pure arr.toValue
  else
    Prog.raise "Invalid JSON data."

end
end WylesLibs.Parser.Json
