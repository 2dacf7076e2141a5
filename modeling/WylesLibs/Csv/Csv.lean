import WylesLibs.Datastructures
import WylesLibs.EStream.Memory
import WylesLibs.Library.Calls
import WylesLibs.StringUtils

/-! `CSV<std::string>`, reading from what is left of a stream over memory. No row is made a view, but
none is made with a null `view_obj` either: `MatrixVector() = default` leaves the pointer to what
memory holds. -/
namespace WylesLibs.Csv
open Library WylesLibs.Stream Datastructures

abbrev Record := List (List UInt8)

/-- Where memory holds null for the `view_obj` that nothing sets: in the vector of the rows, in the
header, and in each row, once it is put in, together with the vector that `Array::insert` deletes
then. -/
structure Views where
  matrix : Bool
  header : Bool
  row : Nat → Bool

/-- Memory that holds nothing but zeros. -/
def Views.zeros : Views := ⟨true, true, fun _ => true⟩

/-- `io` is what is left of the stream. -/
structure CSV where
  io : List UInt8
  recordSize : Nat
  separator : UInt8
  rows : List Record
  header : Record
  views : Views

/-- The pointers that lead to a record are null. -/
def Views.null (v : Views) (processHeader : Bool) (rI : Nat) : Bool :=
  if processHeader then v.header else v.matrix && v.row rI

/-- The reader, and what a call of `read` keeps in its locals. -/
structure Reading where
  csv : CSV
  quoted : Bool
  currentStr : List UInt8
  rI : Nat
  fI : Nat

def eofByte : UInt8 := 0xFF

def make (io : List UInt8) (separator : UInt8) (views : Views) : Outcome CSV :=
  if separator = Byte.dot then .thrown "Periods aren't allowed as CSV separator."
  else .ok ⟨io, 0, separator, [], [], views⟩

/-- The separator is a `char`: from 0x80 on it is negative and equal to no `uint8_t`. -/
def isSeparator (separator b : UInt8) : Bool := decide (separator < 0x80) && decide (b = separator)

def isDelimeter (separator b : UInt8) : Bool := isSeparator separator b || decide (b = Byte.newline)

def updateAndCheckRecordSize (newRecordSize : Nat) : Call CSV Unit := do
  Call.modify fun c => if 0 = c.recordSize then { c with recordSize := newRecordSize } else c
  let c ← Call.view id
  if 0 = newRecordSize ∨ c.recordSize ≠ newRecordSize then Call.raise "Invalid record size."

/-- On the reader of a call. -/
def onReader {α : Type} (m : Call CSV α) : Call Reading α := fun s =>
  ((m s.csv).1, { s with csv := (m s.csv).2 })

/-- The record that is filled; a row that is not there is made. -/
def record (processHeader : Bool) (s : Reading) : Record :=
  if processHeader then s.csv.header else element s.csv.rows s.rI []

def setRecord (processHeader : Bool) (s : Reading) (r : Record) : Reading :=
  if processHeader then { s with csv := { s.csv with header := r } }
  else { s with csv := { s.csv with rows := setElement s.csv.rows s.rI r } }

/-- `r = this->header` or `r = (*this)[r_i]`. A pointer that is not null is read through. -/
def lookUp (processHeader : Bool) : Call Reading Unit := fun s =>
  if s.csv.views.null processHeader s.rI then
    (.ok (), setRecord processHeader s (record processHeader s))
  else (.undef, s)

def processRecord (processHeader : Bool) : Call Reading Unit := fun s =>
  onReader (updateAndCheckRecordSize (record processHeader s).length) s

/-- `r[f_i++] = current_str`, and an empty string for the next field. -/
def putField (processHeader : Bool) (s : Reading) : Reading :=
  { setRecord processHeader s (setElement (record processHeader s) s.fI s.currentStr) with
    fI := s.fI + 1
    currentStr := [] }

def handleFieldDelimeter (b : UInt8) (processHeader : Bool) : Call Reading Bool := do
  lookUp processHeader
  if isDelimeter (← Call.view fun s => s.csv.separator) b then
    Call.modify (putField processHeader)
    if b = Byte.newline then
      processRecord processHeader
      Call.modify fun s => { s with rI := s.rI + 1, fI := 0 }
    pure true
  else
    pure false

def handleQuotes (b : UInt8) : Call Reading Bool := fun s =>
  if s.quoted = false then
    if b = Byte.quote then
      if s.currentStr.length ≠ 0 then
        (.thrown "Quoted string cannot be preceded by a non-delimiting character.", s)
      else (.ok true, { s with quoted := true })
    else (.ok (decide (b = Byte.carriageReturn)), s)
  else if b = Byte.quote then
    match s.csv.io with
    | [] => (.thrown endOfData, s)
    | peeked :: io =>
      if peeked = Byte.quote then (.ok false, { s with csv := { s.csv with io := io } })
      else if isDelimeter s.csv.separator peeked then (.ok true, { s with quoted := false })
      else (.thrown "Quoted string cannot be followed by a non-delimiting character.", s)
  else (.ok false, s)

def get : Call Reading UInt8 := fun s =>
  match s.csv.io with
  | [] => (.thrown endOfData, s)
  | b :: io => (.ok b, { s with csv := { s.csv with io := io } })

/-- The `while` loop of `read`; each turn takes a byte at least. -/
def readLoop (rCount : Nat) (processHeader : Bool) : Nat → Call Reading Unit
  | 0 => Call.spent
  | steps + 1 => do
    let s ← Call.view id
    if s.rI < rCount then
      let b ← get
      if b = eofByte then
        pure ()
      else if ← handleQuotes b then
        readLoop rCount processHeader steps
      else if ← handleFieldDelimeter b processHeader then
        readLoop rCount processHeader steps
      else
        Call.modify fun s => { s with currentStr := s.currentStr ++ [b] }
        readLoop rCount processHeader steps
    else
      pure ()

/-- The private `read`, which its first parameter selects. -/
def readRecords (rCount : Nat) (processHeader : Bool) : Call CSV Unit := fun c =>
  let (outcome, s) := readLoop rCount processHeader (c.io.length + 1) ⟨c, false, [], 0, 0⟩
  (outcome, s.csv)

def reset : Call CSV Unit := Call.modify fun c => { c with recordSize := 0 }

/-- `read(bool)`. -/
def readAll (hasHeader : Bool) : Call CSV Unit := do
  reset
  if hasHeader then
    readRecords 1 true
  readRecords sizeMax false

/-- `read(size_t)`. -/
def read (rCount : Nat) : Call CSV Unit := readRecords rCount false

end WylesLibs.Csv
