import WylesLibs.EStream.Chains
import WylesLibs.Format.Format
import WylesLibs.Json.Parser
import WylesLibs.Multipart.FormData
import WylesLibs.Validation
import WylesLibs.Web.WebsocketUpgrade

/-! `web/http/http_types`: requests and responses, and how they are read from a stream. -/
namespace WylesLibs.Http
open Library WylesLibs.Stream Datastructures WylesLibs.Parser
variable {σ ρ D : Type}

def httpFieldMax : Nat := 64

def ampersand : UInt8 := 0x26

def contentTypeKey : List UInt8 := bytes "content-type".toList
def contentLengthKey : List UInt8 := bytes "content-length".toList
def setCookieKey : List UInt8 := bytes "set-cookie".toList
def connectionKey : List UInt8 := bytes "Connection".toList

def fieldValuesToLowerCase : List (List UInt8) := [connectionName, upgradeName]

structure Url where
  path : List UInt8
  queryMap : KeyValue.KeyValues

/-- `s.substr(0, s.size() - n)`: a size below zero is a large one. -/
def substrBack (s : List UInt8) (n : Nat) : List UInt8 :=
  if s.length < n then s else s.take (s.length - n)

/-- `s[s.size() - 1]`. -/
def lastByte (s : List UInt8) : Outcome UInt8 :=
  match s.getLast? with
  | none => .undef
  | some c => .ok c

/-- The bytes that `c_str` shows of a string. -/
def cStr (s : List UInt8) : List UInt8 := s.takeWhile (· ≠ 0)

/-- What a `size_t` makes of an `int`. -/
def toSize (v : Int) : Nat := (v % 2 ^ 64).toNat

/-! The tasks that `initializeByteStreamReaderTasks` puts together. -/

abbrev WhitespaceChain := ReaderTaskDisallow (ReaderTaskLC (NullTask UInt8))

def whitespaceChain : WhitespaceChain := ⟨none, [Byte.tab, Byte.space], false⟩
def whitespaceLcChain : WhitespaceChain := ⟨some ⟨none⟩, [Byte.tab, Byte.space], false⟩

def chainOf (fieldName : List UInt8) : WhitespaceChain :=
  if cStr fieldName ∈ fieldValuesToLowerCase then whitespaceLcChain else whitespaceChain

section
variable [EStreamI σ UInt8]

/-- `io->read(until)`. -/
def readUntil (untilEls : List UInt8) : Prog σ (List UInt8) :=
  read untilEls (none : Option (NullTask UInt8)) true

def parseUrl (steps : Nat) : Prog σ Url := do
  let path ← readUntil [Byte.question, Byte.space]
  let queryMap ←
    if (← Prog.lift (back path)) = Byte.question then
      KeyValue.parseReader steps Byte.equals ampersand
    else pure ∅
  pure ⟨substrBack path 1, queryMap⟩

/-- The loop over the values of a field. `onValue` is what is done with each; values too short to
have a line end behind them are passed over. -/
def valuesLoop (chain : WhitespaceChain) (onValue : List UInt8 → ρ → Outcome ρ) :
    Nat → ρ → Prog σ ρ
  | 0, _ => Prog.spent
  | steps + 1, r => do
    let fieldValue ← read [Byte.comma, Byte.newline] (some chain) true
    let delimiter ← Prog.lift (lastByte fieldValue)
    let r ←
      if 2 ≤ fieldValue.length then Prog.lift (onValue (substrBack fieldValue 2) r) else pure r
    if delimiter = Byte.newline then pure r else valuesLoop chain onValue steps r

/-- The loop over the fields, which requests and responses have alike; `left` counts down from
the most that there may be. -/
def fieldsLoop (steps : Nat) (onValue : List UInt8 → List UInt8 → ρ → Outcome ρ) :
    Nat → ρ → Prog σ (Nat × ρ)
  | 0, r => pure (0, r)
  | left + 1, r => do
    let fieldName ← read [Byte.colon, Byte.newline] (some whitespaceLcChain) true
    if (← Prog.lift (lastByte fieldName)) = Byte.newline then pure (left + 1, r)
    else
      let fieldName := substrBack fieldName 1
      let r ← valuesLoop (chainOf fieldName) (onValue fieldName) steps r
      fieldsLoop steps onValue left r

end

/-! Requests. -/

/-- The fields that the code of this file sets; a length that was never assigned is `none`. -/
structure HttpRequest (D : Type) where
  method : List UInt8
  url : Url
  backwardsPath : List UInt8
  version : List UInt8
  fields : Fields
  contentLength : Option Nat
  jsonContent : Option (Json.JsonValue D)
  files : List Multipart.MultipartFile
  formContent : KeyValue.KeyValues
  content : List UInt8

/-- The array at `fields[name]`, which is a new one for a name that is not in the map. -/
def arrayAt (fields : Fields) (name : List UInt8) : List (List UInt8) :=
  (fields.lookup name).getD []

/-- `fields[name].append(value)`. -/
def appendAt (fields : Fields) (name value : List UInt8) : Fields :=
  fields.insert name (arrayAt fields name ++ [value])

namespace HttpRequest

/-- `SharedArray<std::string>` of a string has a string for each of its characters. -/
def ofString (s : List UInt8) : List (List UInt8) := s.map fun c => [c]

/-- The constructor that handlers are registered with. -/
def ofPath (path method contentType : List UInt8) : HttpRequest D where
  method := method
  url := ⟨path, ∅⟩
  backwardsPath := path.reverse
  version := []
  fields := (∅ : Fields).insert contentTypeKey (ofString contentType)
  contentLength := none
  jsonContent := none
  files := []
  formContent := ∅
  content := []

def onValue (fieldName fieldValue : List UInt8) (r : Fields × Nat) : Outcome (Fields × Nat) :=
  let fields := appendAt r.1 fieldName fieldValue
  if fieldName = contentLengthKey then
    (Validation.atoi fieldValue).bind fun v => .ok (fields, toSize v)
  else .ok (fields, r.2)

def readAll (r : HttpRequest D) (contentLength : Nat) :
    Prog (EStream UInt8) (HttpRequest D) := do
  let content ← EStream.readEls contentLength
  pure { r with content := content }

/-- Content of a type that is given. An `until` made of a size alone holds nothing. -/
def readTyped [DoubleArith D] (context : Multipart.Context) (steps : Nat) (r : HttpRequest D)
    (contentType : List UInt8) : Prog (EStream UInt8) (HttpRequest D) :=
  if contentType = bytes "application/json".toList then do
    let value ← Json.parse steps
    pure { r with jsonContent := some value }
  else if contentType = bytes "application/x-www-form-urlencoded".toList then do
    let formContent ← KeyValue.parseReader steps Byte.equals ampersand
    pure { r with formContent := formContent }
  else if contentType = bytes "multipart/formdata".toList then do
    let (files, formContent, _) ← Multipart.FormData.parse context steps r.files r.formContent
    pure { r with files := files, formContent := formContent }
  else if contentType = bytes "multipart/byteranges".toList then pure r
  else do
    let content ← readUntil []
    pure { r with content := content }

/-- Looking for the content type of a POST puts the name into the map. -/
def readContent [DoubleArith D] (context : Multipart.Context) (steps : Nat) (r : HttpRequest D)
    (contentLength : Nat) : Prog (EStream UInt8) (HttpRequest D) :=
  if r.method = bytes "POST".toList then
    let types := arrayAt r.fields contentTypeKey
    let r := { r with fields := r.fields.insert contentTypeKey types }
    match types with
    | [] => readAll r contentLength
    | contentType :: _ =>
      if contentLength = sizeMax then readAll r contentLength
      else readTyped context steps r contentType
  else readAll r contentLength

/-- `HttpRequest(io)`. Two bytes are cut off behind the method: the space is removed, and then the
last byte of what is left. -/
def parse [DoubleArith D] (context : Multipart.Context) (steps : Nat) :
    Prog (EStream UInt8) (HttpRequest D) := do
  let method ← readUntil [Byte.space]
  let method ← Prog.lift (removeBack method)
  let url ← parseUrl steps
  let version ← readUntil [Byte.newline]
  let version ← Prog.lift (removeBack version)
  let (left, fields, contentLength) ← fieldsLoop steps onValue httpFieldMax (∅, sizeMax)
  if left = 0 then Prog.raise "Too many fields in request."
  else
    readContent context steps
      { method := substrBack method 1
        url := url
        backwardsPath := []
        version := substrBack version 1
        fields := fields
        contentLength := some contentLength
        jsonContent := none
        files := []
        formContent := ∅
        content := [] }
      contentLength

end HttpRequest

/-! Responses. -/

/-- `fields` has its entries in the order in which a loop over the map meets them. -/
structure HttpResponse where
  statusCode : List UInt8
  version : List UInt8
  fields : KeyValue.Pairs
  cookies : List (List UInt8)
  content : List UInt8
  contentLength : Option Nat

namespace HttpResponse

def initial : HttpResponse where
  statusCode := bytes "500".toList
  version := bytes "HTTP/1.1".toList
  fields := (∅ : KeyValue.Pairs).insert connectionKey (bytes "close".toList)
  cookies := []
  content := []
  contentLength := none

/-- No line end is put behind the length of the content. -/
def toString (r : HttpResponse) : Outcome (List UInt8) :=
  (Format.format (D := Empty) ByteEStream.moveAssign
    (bytes "Content-Length: \x7bd\x7d".toList) [.uint64 r.content.length]).bind fun length =>
      .ok (r.version ++ [Byte.space] ++ r.statusCode ++ [Byte.newline] ++ length ++
        r.fields.entries.flatMap
          (fun f => f.1 ++ [Byte.colon, Byte.space] ++ f.2 ++ [Byte.newline]) ++
        r.cookies.flatMap
          (fun c => setCookieKey ++ [Byte.colon, Byte.space] ++ c ++ [Byte.newline]) ++
        [Byte.newline] ++ r.content)

/-- What the loop over the fields fills. -/
structure Filled where
  fields : KeyValue.Pairs
  cookies : List (List UInt8)
  contentLength : Option Nat

/-- A value for a field that is there is appended to the text of the field. -/
def onValue (fieldName fieldValue : List UInt8) (r : Filled) : Outcome Filled :=
  let r :=
    if fieldName = setCookieKey then { r with cookies := r.cookies ++ [fieldValue] }
    else
      let text := (r.fields.lookup fieldName).getD []
      { r with fields := r.fields.insert fieldName (text ++ fieldValue) }
  if fieldName = contentLengthKey then
    (Validation.atoi fieldValue).bind fun v => .ok { r with contentLength := some (toSize v) }
  else .ok r

/-- The content behind the fields; a length that was never assigned is read all the same. -/
def readContent : Option Nat → Prog (EStream UInt8) (List UInt8)
  | none => fun _ => .undef
  | some contentLength => if contentLength ≠ sizeMax then EStream.readEls contentLength else pure []

/-- What stands behind the status code. -/
def skipReason (last : UInt8) : Prog (EStream UInt8) (List UInt8) :=
  if last = Byte.space then readUntil [Byte.newline] else pure []

/-- `HttpResponse(io)`. The status code is put into a local array that hides the member. -/
def parse (steps : Nat) : Prog (EStream UInt8) HttpResponse := do
  let version ← readUntil [Byte.space]
  let version ← Prog.lift (removeBack version)
  let statusCode ← readUntil [Byte.space, Byte.newline]
  let last ← Prog.lift (back statusCode)
  let _ ← skipReason last
  let _ ← Prog.lift (removeBack statusCode)
  let (left, r) ← fieldsLoop steps onValue httpFieldMax ⟨∅, [], none⟩
  let content ← readContent r.contentLength
  if left = 0 then Prog.raise "Too many fields in request."
  else
    pure {
      statusCode := []
      version := version
      fields := r.fields
      cookies := r.cookies
      content := content
      contentLength := r.contentLength }

end HttpResponse
end WylesLibs.Http
