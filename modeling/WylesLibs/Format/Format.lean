import WylesLibs.EStream.Tape
import WylesLibs.Format.NumToString

/-! `WylesLibs::format`. The template is read once for the positional arguments and, if it has
escapes or references, what the first pass wrote is read once more. -/
namespace WylesLibs.Format
open Library WylesLibs.Stream
variable {D σ : Type}

namespace Spec

abbrev startOfIndicatorFormat : UInt8 := 0x3C
abbrev defaultArgType : UInt8 := 0x7C
abbrev b : UInt8 := 0x62
abbrev c : UInt8 := 0x63
abbrev d : UInt8 := 0x64
abbrev e : UInt8 := 0x65
abbrev upperE : UInt8 := 0x45
abbrev f : UInt8 := 0x66
abbrev l : UInt8 := 0x6C
abbrev s : UInt8 := 0x73
abbrev t : UInt8 := 0x74
abbrev u : UInt8 := 0x75
abbrev x : UInt8 := 0x78
abbrev upperX : UInt8 := 0x58

end Spec

/-- An argument of the call, as it is passed after the default promotions. The bytes of a string
are those in front of its terminator; of a stream, those it still holds. -/
inductive VaArg (D : Type) where
  | int (v : Int)
  | int64 (v : Int)
  | uint64 (v : Nat)
  | double (x : D)
  | cstring (s : List UInt8)
  | istream (s : List UInt8)

/-- The text of a `double`. -/
class FloatToString (D : Type) where
  floatToString : D → StringFormatOpts → Outcome (List UInt8)

/-- For calls that have no `double` among their arguments. -/
instance : FloatToString Empty := ⟨fun x => nomatch x⟩

/-! `va_arg`: the list advances for the caller too, as on amd64. An argument of another type, or
none at all, is undefined. -/

section
variable (args : List (VaArg D))

def vaInt : Outcome (Int × List (VaArg D)) :=
  match args with
  | .int v :: args => .ok (v, args)
  | _ => .undef

def vaInt64 : Outcome (Int × List (VaArg D)) :=
  match args with
  | .int64 v :: args => .ok (v, args)
  | .uint64 v :: args => if v < 2 ^ 63 then .ok (v, args) else .undef
  | _ => .undef

def vaUint64 : Outcome (Nat × List (VaArg D)) :=
  match args with
  | .uint64 v :: args => .ok (v, args)
  | .int64 v :: args => if 0 ≤ v then .ok (v.toNat, args) else .undef
  | _ => .undef

def vaDouble : Outcome (D × List (VaArg D)) :=
  match args with
  | .double x :: args => .ok (x, args)
  | _ => .undef

def vaCstring : Outcome (List UInt8 × List (VaArg D)) :=
  match args with
  | .cstring s :: args => .ok (s.takeWhile (· ≠ 0), args)
  | _ => .undef

def vaIstream : Outcome (List UInt8 × List (VaArg D)) :=
  match args with
  | .istream s :: args => .ok (s, args)
  | _ => .undef

end

/-- `ptr` is what the pointer of the source points at. -/
structure Arg (D : Type) where
  ptr : Option (VaArg D)
  expandedValue : List UInt8
  type : UInt8

def message (cs : List UInt8) : String := String.ofList (cs.map fun c => Char.ofNat c.toNat)

/-- What a reference finds behind the pointer of an argument of one of the given types. -/
def Arg.pointee (arg : Arg D) (types : List UInt8) (wanted : String) : Outcome (VaArg D) :=
  match arg.ptr with
  | some v => if arg.type ∈ types then .ok v else .thrown (invalid "0")
  | none => .thrown (invalid "1")
where
  invalid (isNull : String) : String :=
    "Invalid arg reference. Expected non-null pointer and arg.type = " ++ wanted ++
      ". Is pointer null? " ++ isNull ++ ". Arg type: " ++ quoteChar arg.type ++ "."

section
variable [ByteEStreamI σ] [FloatToString D]

def unget : Prog σ Unit := ByteEStreamI.unget
def readNatural : Prog σ (Nat × Nat) := ByteEStreamI.readNatural

/-- The exponent starts at zero and is multiplied by what is read. -/
def parseFloatFormat (value : D) (opts : StringFormatOpts) : Prog σ (List UInt8) := do
  let formatType ← get
  if formatType = Spec.upperE ∨ formatType = Spec.e then
    let c ← get
    if c = Byte.plus ∨ c = Byte.minus then
      let sign : Int := if c = Byte.minus then -1 else opts.exponential
      let c ← peek
      let exponential ← (if isDigit c then do
          let (natural, _) ← readNatural
          pure (sign * signedChar natural)
        else pure sign)
      if (← peek) ≠ Byte.closeBrace then
        Prog.raise ("Invalid float format. Expected " ++ quoteChar Byte.closeBrace ++
          " after the exponential field specifier.")
      else
        Prog.lift (FloatToString.floatToString value
          { opts with exponential := exponential, exponentialDesignator := formatType })
    else Prog.raise "Invalid float format."
  else if formatType ≠ Spec.f then
    Prog.raise ("Invalid float format with format type: " ++ quoteChar formatType)
  else Prog.lift (FloatToString.floatToString value opts)

/-- A character that is at least the last of its case is moved to the other, no other is kept. -/
def parseStringCaseModifier (value expandedValue : List UInt8) : Prog σ (List UInt8) := do
  unget
  let c ← get
  let next ← get
  let nextnext ← peek
  if c = Spec.s ∧ next = Spec.l ∧ nextnext = Byte.closeBrace then
    pure (expandedValue ++ (value.filter fun c => 0x5A ≤ c && c < 0x80).map (· + 0x20))
  else if c = Spec.s ∧ next = Spec.u ∧ nextnext = Byte.closeBrace then
    pure (expandedValue ++ (value.filter fun c => 0x7A ≤ c && c < 0x80).map (· - 0x20))
  else
    Prog.raise ("Invalid 'string with case modifier' format at: '" ++
      message [c, next, nextnext] ++ "'")

mutual

/-- Width and precision as they are read, each of them a `uint8_t`. -/
def parsePositionalNumberModifier :
    Nat → List (VaArg D) → StringFormatOpts → Prog σ (Arg D × List (VaArg D))
  | 0, _, _ => Prog.spent
  | steps + 1, args, opts => do
    let (num, _) ← readNatural
    let next ← peek
    if next = Spec.f ∨ next = Spec.e ∨ next = Spec.upperE then
      parsePositionalModifiableFormat steps args { opts with precision := num % 256 }
    else if next = Byte.dot then
      let _ ← get
      parsePositionalNumberModifier steps args { opts with width := num % 256 }
    else parsePositionalModifiableFormat steps args { opts with width := num % 256 }

def parsePositionalModifiableFormat :
    Nat → List (VaArg D) → StringFormatOpts → Prog σ (Arg D × List (VaArg D))
  | 0, _, _ => Prog.spent
  | steps + 1, args, opts => do
    let prev ← peek
    let c ← get
    let next ← peek
    if next = Byte.closeBrace ∧ c = Spec.d then
      let (x, args) ← Prog.lift (vaInt64 args)
      let text ← Prog.lift (numToStringSigned x opts)
      pure (⟨some (.int64 x), text, c⟩, args)
    else if next = Byte.closeBrace ∧ (c = Spec.u ∨ c = Spec.x ∨ c = Spec.upperX) then
      let (x, args) ← Prog.lift (vaUint64 args)
      let opts := { opts with
        base := if c = Spec.u then 10 else 16, upper := c = Spec.upperX }
      let text ← Prog.lift (numToString x opts)
      pure (⟨some (.uint64 x), text, c⟩, args)
    else if (next = Byte.closeBrace ∧ c = Spec.f) ∨ c = Spec.upperE ∨ c = Spec.e then
      unget
      let (x, args) ← Prog.lift (vaDouble args)
      let text ← parseFloatFormat x opts
      pure (⟨some (.double x), text, Spec.f⟩, args)
    else if isDigit c then
      unget
      parsePositionalNumberModifier steps args opts
    else
      Prog.raise ("Invalid positional format at: '" ++ message [prev, c, next] ++ "'")

end

mutual

def parseReferencedNumberModifier : Nat → StringFormatOpts → Arg D → Prog σ (Arg D)
  | 0, _, _ => Prog.spent
  | steps + 1, opts, arg => do
    let (num, _) ← readNatural
    let next ← peek
    if next = Spec.f ∨ next = Spec.e ∨ next = Spec.upperE then
      parseReferencedModifiableFormat steps { opts with precision := num % 256 } arg
    else if next = Byte.dot then
      let _ ← get
      parseReferencedNumberModifier steps { opts with width := num % 256 } arg
    else parseReferencedModifiableFormat steps { opts with width := num % 256 } arg

def parseReferencedModifiableFormat : Nat → StringFormatOpts → Arg D → Prog σ (Arg D)
  | 0, _, _ => Prog.spent
  | steps + 1, opts, arg => do
    let prev ← peek
    let c ← get
    let next ← peek
    if next = Byte.closeBrace ∧ (c = Spec.x ∨ c = Spec.upperX ∨ c = Spec.u) then
      let v ← Prog.lift (arg.pointee [Spec.u, Spec.x, Spec.upperX] "'u', 'x' or 'X'")
      let (x, _) ← Prog.lift (vaUint64 [v])
      let opts := { opts with
        base := if c = Spec.u then 10 else 16, upper := c = Spec.upperX }
      let text ← Prog.lift (numToString x opts)
      pure { arg with expandedValue := text }
    else if next = Byte.closeBrace ∧ c = Spec.d then
      let v ← Prog.lift (arg.pointee [Spec.d] "'d'")
      let (x, _) ← Prog.lift (vaInt64 [v])
      let text ← Prog.lift (numToStringSigned x opts)
      pure { arg with expandedValue := text }
    else if (next = Byte.closeBrace ∧ c = Spec.f) ∨ c = Spec.upperE ∨ c = Spec.e then
      let v ← Prog.lift (arg.pointee [Spec.f] "'f'")
      unget
      let (x, _) ← Prog.lift (vaDouble [v])
      let text ← parseFloatFormat x opts
      pure { arg with expandedValue := text }
    else if isDigit c then
      unget
      parseReferencedNumberModifier steps opts arg
    else
      Prog.raise ("Invalid referenced format at: '" ++ message [prev, c, next] ++ "'")

end

/-- The first character names the type of the argument; the closing brace is consumed last. -/
def parsePositionalFormat (steps : Nat) (args : List (VaArg D)) :
    Prog σ (Arg D × List (VaArg D)) := do
  let _ ← peek
  let c ← get
  let next ← peek
  let opts : StringFormatOpts := {}
  let parsed ← (
    if next = Byte.closeBrace ∧ c = Spec.b then do
      let (v, args) ← Prog.lift (vaInt args)
      let text := if v = 0 then bytes "false".toList else bytes "true".toList
      pure ((⟨none, text, c⟩ : Arg D), args)
    else if next = Byte.closeBrace ∧ c = Spec.t then do
      let (s, args) ← Prog.lift (vaIstream args)
      -- the byte that reads as the end of the stream is left out wherever it stands
      pure (⟨none, s.filter (· ≠ 0xFF), c⟩, args)
    else if next = Byte.closeBrace ∧ c = Spec.c then do
      let (v, args) ← Prog.lift (vaInt args)
      pure (⟨none, [pushedChar v], c⟩, args)
    else if next = Byte.closeBrace ∧ c = Spec.s then do
      let (s, args) ← Prog.lift (vaCstring args)
      pure (⟨some (.cstring s), s, c⟩, args)
    else if c = Spec.s ∧ (next = Spec.l ∨ next = Spec.u) then do
      let (s, args) ← Prog.lift (vaCstring args)
      let text ← parseStringCaseModifier s []
      pure (⟨some (.cstring s), text, c⟩, args)
    else if c = Byte.plus then
      parsePositionalModifiableFormat steps args { opts with
        signMask := StringFormatOpts.signForPositives ||| StringFormatOpts.signForNegatives }
    else if c = Byte.minus then
      parsePositionalModifiableFormat steps args { opts with signMask := StringFormatOpts.noSign }
    else if isDigit c then do
      unget
      parsePositionalNumberModifier steps args opts
    else do
      unget
      parsePositionalModifiableFormat steps args opts)
  let _ ← get
  pure parsed

def parseReferencedFormatOverride (steps : Nat) (arg : Arg D) : Prog σ (Arg D) := do
  let _ ← peek
  let c ← get
  let next ← peek
  let opts : StringFormatOpts := {}
  let arg ← (
    if next = Byte.closeBrace ∧ (c = Spec.b ∨ c = Spec.c ∨ c = Spec.t ∨ c = Spec.s) then
      pure arg
    else if c = Spec.s ∧ (next = Spec.l ∨ next = Spec.u) then do
      let v ← Prog.lift (arg.pointee [Spec.s] "'s'")
      let (s, _) ← Prog.lift (vaCstring [v])
      let text ← parseStringCaseModifier s arg.expandedValue
      pure { arg with expandedValue := text }
    else if c = Byte.plus then
      parseReferencedModifiableFormat steps { opts with
        signMask := StringFormatOpts.signForPositives ||| StringFormatOpts.signForNegatives } arg
    else if c = Byte.minus then
      parseReferencedModifiableFormat steps { opts with signMask := StringFormatOpts.noSign } arg
    else if isDigit c then do
      unget
      parseReferencedNumberModifier steps opts arg
    else do
      unget
      parseReferencedModifiableFormat steps opts arg)
  let _ ← get
  pure arg

/-- What the first pass keeps: the arguments still to come, what the template turned out to have,
the text put together and the arguments it took. -/
structure FormatState (D : Type) where
  args : List (VaArg D)
  escaped : Bool
  hasReferenceSelection : Bool
  formatOut : List UInt8
  parsedArgs : List (Arg D)

def FormatState.start (args : List (VaArg D)) : FormatState D := ⟨args, false, false, [], []⟩

def FormatState.put (st : FormatState D) (cs : List UInt8) : FormatState D :=
  { st with formatOut := st.formatOut ++ cs }

def FormatState.take (st : FormatState D) (arg : Arg D) (args : List (VaArg D)) : FormatState D :=
  { st with
    args := args
    formatOut := st.formatOut ++ arg.expandedValue
    parsedArgs := st.parsedArgs ++ [arg] }

/-- A reference is left to the second pass. -/
def parseFormat (steps : Nat) (st : FormatState D) : Prog σ (FormatState D) := do
  let c ← peek
  if c = Spec.startOfIndicatorFormat then
    pure { st.put [Byte.openBrace] with hasReferenceSelection := true }
  else if c = Byte.closeBrace then
    let _ ← get
    let (s, args) ← Prog.lift (vaCstring st.args)
    pure (st.take ⟨none, s, Spec.defaultArgType⟩ args)
  else
    let (arg, args) ← parsePositionalFormat steps st.args
    pure (st.take arg args)

/-- The selection is a `size_t`, for which zero minus one is the greatest value. -/
def parseReferenceFormat (steps : Nat) (args : List (Arg D)) : Prog σ (List UInt8) := do
  let c ← get
  if c ≠ Spec.startOfIndicatorFormat then
    Prog.raise ("Invalid reference format. A reference format must start with a " ++
      quoteChar Spec.startOfIndicatorFormat ++ " and the following character was detected: " ++
      quoteChar c)
  else
    let c ← peek
    if isDigit c = false then
      Prog.raise ("Invalid reference format. A reference format must start with a " ++
        quoteChar Spec.startOfIndicatorFormat ++
        " and number - the following character was detected: " ++ quoteChar c)
    else
      let (natural, _) ← readNatural
      let selection := if natural = 0 then sizeMax else natural - 1
      match args[selection]? with
      | none =>
        Prog.raise ("Invalid selection in reference format: " ++ toString selection)
      | some arg =>
        let c ← get
        if c = Byte.comma then
          let arg ← parseReferencedFormatOverride steps arg
          pure arg.expandedValue
        else if c ≠ Byte.closeBrace then
          Prog.raise ("Invalid reference format. " ++
            "The following character is expected to be a comma: " ++ message [c])
        else pure arg.expandedValue

/-- The loop of the first pass: an escape is kept for the second. -/
def firstPass (fuel : Nat) : Nat → FormatState D → Prog σ (FormatState D)
  | 0, _ => Prog.spent
  | steps + 1, st => do
    if ← good then
      let c ← get
      if c = Byte.backslash then
        let next ← peek
        if next = Byte.openBrace ∨ next = Byte.closeBrace then
          let _ ← get
          firstPass fuel steps { st.put [c, next] with escaped := true }
        else firstPass fuel steps (st.put [c])
      else if c = Byte.openBrace then
        let st ← parseFormat fuel st
        firstPass fuel steps st
      else firstPass fuel steps (st.put [c])
    else pure st

/-- The loop of the second pass over all that the first one wrote. -/
def secondPass (fuel : Nat) (args : List (Arg D)) : Nat → List UInt8 → Prog σ (List UInt8)
  | 0, _ => Prog.spent
  | steps + 1, formatOut => do
    if ← good then
      let c ← get
      if c = Byte.backslash then
        let next ← peek
        if next = Byte.openBrace ∨ next = Byte.closeBrace then
          let _ ← get
          secondPass fuel args steps (formatOut ++ [next])
        else secondPass fuel args steps (formatOut ++ [c])
      else if c = Byte.openBrace then
        let text ← parseReferenceFormat fuel args
        secondPass fuel args steps (formatOut ++ text)
      else secondPass fuel args steps (formatOut ++ [c])
    else pure formatOut

end

/-- A pointer that is set goes with a type that is known. -/
def deleteArgs : List (Arg D) → Outcome Unit
  | [] => .ok ()
  | arg :: args =>
    if arg.type ∈ [Spec.u, Spec.upperX, Spec.x, Spec.d, Spec.f, Spec.s, Spec.defaultArgType] ∨
        arg.ptr.isNone = true then deleteArgs args
    else .thrown ("Invalid type detected in reference args structure - failed to delete. " ++
      "Type identifier: " ++ message [arg.type])

/-- `assign` is what the move assignment makes of the stream of the second pass, whose destructor
runs when the call is left, by a return or by a throw. Each turn of a loop and each modifier of a
format takes a byte, so the length of the text bounds both. -/
def format [FloatToString D] (assign : ByteEStream → ByteEStream) (format : List UInt8)
    (args : List (VaArg D)) : Outcome (List UInt8) :=
  let fuel := format.length + 1
  (firstPass fuel fuel (.start args) (ByteEStream.ofBuffer format)).bind fun r =>
    let st := r.1
    if st.escaped = true ∨ st.hasReferenceSelection = true then
      let s := assign (ByteEStream.ofBuffer st.formatOut)
      let fuel := st.formatOut.length + 1
      match secondPass fuel st.parsedArgs fuel [] s with
      | .ok (out, _) => s.destroy.bind fun _ => (deleteArgs st.parsedArgs).bind fun _ => .ok out
      | .thrown w => s.destroy.bind fun _ => .thrown w
      | .undef => .undef
      | .timeout => .timeout
    else (deleteArgs st.parsedArgs).bind fun _ => .ok st.formatOut

end WylesLibs.Format
