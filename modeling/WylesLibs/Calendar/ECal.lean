import WylesLibs.Calendar.ETime

/-! `ecal`: date-times as text, in three formats, and back. -/
namespace WylesLibs.Calendar
open Library WylesLibs.Stream WylesLibs.Format
variable {σ : Type}

inductive DatetimeFormat where
  | readable
  | iso8601
  | iso8601Readable

def monthName : List (List UInt8) :=
  [[], bytes ['J', 'a', 'n'], bytes ['F', 'e', 'b'], bytes ['M', 'a', 'r'], bytes ['A', 'p', 'r'],
    bytes ['M', 'a', 'y'], bytes ['J', 'u', 'n', 'e'], bytes ['J', 'u', 'l', 'y'],
    bytes ['A', 'u', 'g'], bytes ['S', 'e', 'p'], bytes ['O', 'c', 't'], bytes ['N', 'o', 'v'],
    bytes ['D', 'e', 'c']]

/-- `MONTH_NUM`; a name that is none of its keys gets the number zero. -/
def monthNum (name : List UInt8) : Nat :=
  (([(bytes ['J', 'a', 'n', ' '], 1), (bytes ['F', 'e', 'b', ' '], 2),
    (bytes ['M', 'a', 'r', ' '], 3), (bytes ['A', 'p', 'r', ' '], 4),
    (bytes ['M', 'a', 'y', ' '], 5), (bytes ['J', 'u', 'n', 'e', ' '], 6),
    (bytes ['J', 'u', 'l', 'y', ' '], 7), (bytes ['A', 'u', 'g', ' '], 8),
    (bytes ['S', 'e', 'p', ' '], 9), (bytes ['O', 'c', 't', ' '], 10),
    (bytes ['N', 'o', 'v', ' '], 11), (bytes ['D', 'e', 'c', ' '], 12)] :
      List (List UInt8 × Nat)).lookup name).getD 0

/-! `getFormattedDateTime`. -/

def uint32 (v : Int) : Nat := (v % (2 ^ 32 : Nat)).toNat

def yearLoop (epochSeconds : Nat) : Nat → Nat → Nat → Outcome (Nat × Nat)
  | 0, _, _ => .timeout
  | steps + 1, gregorianCount, year =>
    let gregorianCount := (gregorianCount + secondsPerNonLeapYear) % uint64Mod
    -- include feb 29
    let gregorianCount :=
      if isLeapYear year then (gregorianCount + secondsPerDay) % uint64Mod else gregorianCount
    let year := (year + 1) % 2 ^ 16
    if epochSeconds ≥ gregorianCount then yearLoop epochSeconds steps gregorianCount year
    else .ok (gregorianCount, year)

/-- The year and the seconds since its start. A loop that has not ended once it has seen every
`uint64_t` with every `uint16_t` does not end. -/
def yearOf (epochSeconds : Nat) : Outcome (Nat × Nat) :=
  if epochSeconds ≥ secondsPerNonLeapYear then
    (yearLoop epochSeconds (2 ^ 80) 0 1970).bind fun (gregorianCount, year) =>
      let year := (year + 2 ^ 16 - 1) % 2 ^ 16
      let secondsSinceYearStart :=
        uint64 (epochSeconds - uint64 (gregorianCount - secondsPerNonLeapYear))
      .ok (year, if isLeapYear year then uint64 (secondsSinceYearStart + secondsPerDay)
        else secondsSinceYearStart)
  else .ok (1970, epochSeconds)

/-- The numbers that are printed; the day counts from zero. -/
structure Fields where
  year : Nat
  month : Nat
  day : Nat
  hr : Nat
  min : Nat
  sec : Nat

def fieldsOf (year secondsSinceYearStart : Nat) : Outcome Fields :=
  let running := runningSecondsUpUntilMonth year
  -- the loop counts the months whose start is not past
  let month := (running.takeWhile (· ≤ secondsSinceYearStart)).length
  match running[if month = 0 then 0 else month - 1]? with
  | none => .undef
  | some secondsUpUntilMonth =>
    let secondsSinceMonthStart := uint32 (secondsSinceYearStart - secondsUpUntilMonth)
    let day := secondsSinceMonthStart / secondsPerDay % 256
    let secondsSinceDayStart := uint32 (secondsSinceMonthStart - day * secondsPerDay)
    let hr := secondsSinceDayStart / secondsPerHour % 256
    let min := uint32 (secondsSinceDayStart - hr * secondsPerHour) / secondsPerMinute % 256
    let sec :=
      uint32 (secondsSinceDayStart - hr * secondsPerHour - min * secondsPerMinute) % 256
    .ok ⟨year, month, day, hr, min, sec⟩

section
variable (format : DatetimeFormat)

def specU : List UInt8 := [Byte.openBrace, Spec.u, Byte.closeBrace]
def spec02u : List UInt8 := [Byte.openBrace, 0x30, 0x32, Spec.u, Byte.closeBrace]
def spec04u : List UInt8 := [Byte.openBrace, 0x30, 0x34, Spec.u, Byte.closeBrace]
def specPlusD : List UInt8 := [Byte.openBrace, Byte.plus, Spec.d, Byte.closeBrace]
def specMinus02d : List UInt8 :=
  [Byte.openBrace, Byte.minus, 0x30, 0x32, Spec.d, Byte.closeBrace]

def formattedOffset (offset : Int) : Outcome (List UInt8) :=
  if offset = 0 then .ok [Byte.upperZ]
  else
    match format with
    | .iso8601 => Format.format (D := Empty) ByteEStream.moveAssign specPlusD [.int64 offset]
    | _ => Format.format (D := Empty) ByteEStream.moveAssign
        (specPlusD ++ [Byte.colon] ++ specMinus02d) [.int64 (offset.tdiv 100), .int64 offset]

def formattedFields (fields : Fields) : Outcome (List UInt8) :=
  match format with
  | .readable =>
    match monthName[fields.month]? with
    | none => .undef
    | some name =>
      Format.format (D := Empty) ByteEStream.moveAssign
        ([Byte.openBrace, Spec.s, Byte.closeBrace] ++ [Byte.space] ++ specU ++ [Byte.space] ++
          specU ++ [Byte.comma, Byte.space] ++ spec02u ++ [Byte.colon] ++ spec02u ++
          [Byte.colon] ++ spec02u ++ [Byte.space])
        [.cstring name, .uint64 (fields.day + 1), .uint64 fields.year, .uint64 fields.hr,
          .uint64 fields.min, .uint64 fields.sec]
  | .iso8601Readable =>
    Format.format (D := Empty) ByteEStream.moveAssign
      (spec04u ++ [Byte.minus] ++ spec02u ++ [Byte.minus] ++ spec02u ++ [Byte.upperT] ++
        spec02u ++ [Byte.colon] ++ spec02u ++ [Byte.colon] ++ spec02u)
      [.uint64 fields.year, .uint64 fields.month, .uint64 (fields.day + 1), .uint64 fields.hr,
        .uint64 fields.min, .uint64 fields.sec]
  | .iso8601 =>
    Format.format (D := Empty) ByteEStream.moveAssign
      (spec04u ++ spec02u ++ spec02u ++ [Byte.upperT] ++ spec02u ++ spec02u ++ spec02u)
      [.uint64 fields.year, .uint64 fields.month, .uint64 (fields.day + 1), .uint64 fields.hr,
        .uint64 fields.min, .uint64 fields.sec]

/-- The offset that is printed is the one that the clock was read with. -/
def getFormattedDateTime (tvSec applicationTimeOffset offset : Int) : Outcome (List UInt8) :=
  (getZonedEpochTime tvSec applicationTimeOffset offset).bind fun (epochSeconds, offset) =>
    (yearOf epochSeconds).bind fun (year, secondsSinceYearStart) =>
      (fieldsOf year secondsSinceYearStart).bind fun fields =>
        (formattedOffset format offset).bind fun offsetText =>
          (formattedFields format fields).bind fun text => .ok (text ++ offsetText)

end

/-! The parsers. -/

/-- The number is passed as an `int`; on amd64 it fills the slot that `va_arg` takes a `uint64_t`
from. -/
def invalid (field : String) (v : Nat) : Prog σ Unit :=
  Prog.lift ((Format.format (D := Empty) ByteEStream.moveAssign
    (bytes ("Error parsing Readable Date Time, invalid " ++ field ++ ". ").toList ++ specU)
    [.uint64 v]).bind fun msg => .thrown (message msg))

def isValidYear (year digitCount : Nat) : Prog σ Unit :=
  if year < 1970 ∨ year > 9999 ∨ digitCount > 4 then invalid "year" year else pure ()

def isValidMonth (month digitCount : Nat) : Prog σ Unit :=
  if month < 1 ∨ month > 12 ∨ (digitCount ≠ uint8Max ∧ digitCount > 2) then
    invalid "month" month
  else pure ()

def isValidDay (day digitCount : Nat) : Prog σ Unit :=
  if day < 1 ∨ day > 31 ∨ digitCount > 2 then invalid "day" day else pure ()

def isValidHr (hr digitCount : Nat) : Prog σ Unit :=
  if hr > 23 ∨ digitCount > 2 then invalid "hour" hr else pure ()

def isValidMin (min digitCount : Nat) : Prog σ Unit :=
  if min > 59 ∨ digitCount > 2 then invalid "hour" min else pure ()

def isValidSec (sec digitCount : Nat) : Prog σ Unit :=
  if sec > 59 ∨ digitCount > 2 then invalid "sec" sec else pure ()

/-- The offset as an `int`, from its sign and two `int8_t`. -/
def offsetSeconds (signMul hourOffset minOffset : Int) : Int :=
  signMul * (hourOffset * secondsPerHour + minOffset * secondsPerMinute)

section
variable [EStreamI σ UInt8]

def expect (c : UInt8) (msg : String) : Prog σ Unit := do
  if (← get) ≠ c then Prog.raise msg else pure ()

def parseSign (c : UInt8) : Prog σ Int :=
  if c = Byte.plus then pure 1
  else if c = Byte.minus then pure (-1)
  else Prog.raise "Error parsing Readable Date Time, invalid sign."

/-- The result is an `int16_t`. -/
def parseReadableOffset : Prog σ Int := do
  let c ← get
  if c ≠ Byte.upperZ then
    let signMul ← parseSign c
    let (hour, hourDigits) ← readNatural
    if hourDigits > 1 then Prog.raise "Error parsing offset hour."
    else
      expect Byte.colon "Error parsing Readable Date Time, expected ':'."
      let (min, minDigits) ← readNaturalN 2
      if minDigits > 2 then Prog.raise "Error parsing offset min."
      else pure (Int.bmod (offsetSeconds signMul (signedChar hour) (signedChar min)) (2 ^ 16))
  else pure 0

/-- The years are multiplied as an `int`; the other products fit into one. -/
def addYears (epochSeconds year : Nat) : Outcome Nat :=
  (intOf ((year - 1970 : Int) * secondsPerNonLeapYear)).bind fun seconds =>
    (getNumLeapYears year).bind fun numLeapYears =>
      .ok (uint64 (uint64 (epochSeconds + seconds) + numLeapYears * secondsPerDay))

def parseReadableDateTime : Prog σ Nat := do
  let monthStr ← readStringUntil [Byte.space] (none : Option (NullTask UInt8)) true
  let month := monthNum monthStr
  isValidMonth month uint8Max
  let (day, digits) ← readNatural
  let day := day % 256
  isValidDay day digits
  expect Byte.space "Error parsing Readable Date Time, expected space."
  let (year, digits) ← readNatural
  let year := year % 2 ^ 16
  isValidYear year digits
  expect Byte.comma "Error parsing Readable Date Time - year, expected comma."
  expect Byte.space "Error parsing Readable Date Time - year, expected space."
  let epochSeconds ← Prog.lift (addYears 0 year)
  let months ← Prog.lift (secondsUpUntilMonth month year)
  let epochSeconds := uint64 (epochSeconds + months)
  let epochSeconds := uint64 (epochSeconds + (day - 1 : Int) * secondsPerDay)
  let (hr, digits) ← readNatural
  let hr := hr % 256
  isValidHr hr digits
  expect Byte.colon "Error parsing Readable Date Time - hr, expected colon."
  let epochSeconds := uint64 (epochSeconds + hr * secondsPerHour)
  let (min, digits) ← readNatural
  let min := min % 256
  isValidMin min digits
  expect Byte.colon "Error parsing Readable Date Time - min, expected colon."
  let epochSeconds := uint64 (epochSeconds + min * secondsPerMinute)
  let (sec, digits) ← readNatural
  let sec := sec % 256
  isValidSec sec digits
  expect Byte.space "Error parsing Readable Date Time - sec, expected space."
  let epochSeconds := uint64 (epochSeconds + sec)
  let offset ← parseReadableOffset
  pure (uint64 (epochSeconds + offset))

def parseIso8601ReadableDateTime : Prog σ Nat := do
  let (year, digits) ← readNaturalUntil [Byte.minus] true
  let year := year % 2 ^ 16
  isValidYear year digits
  let epochSeconds ← Prog.lift (addYears 0 year)
  let (month, digits) ← readNaturalUntil [Byte.minus] true
  let month := month % 256
  isValidMonth month digits
  let months ← Prog.lift (secondsUpUntilMonth month year)
  let epochSeconds := uint64 (epochSeconds + months)
  let (day, digits) ← readNaturalUntil [Byte.upperT] true
  let day := day % 256
  isValidDay day digits
  let epochSeconds := uint64 (epochSeconds + (day - 1 : Int) * secondsPerDay)
  let (hr, digits) ← readNaturalUntil [Byte.colon] true
  let hr := hr % 256
  isValidHr hr digits
  let epochSeconds := uint64 (epochSeconds + hr * secondsPerHour)
  let (min, digits) ← readNaturalUntil [Byte.colon] true
  let min := min % 256
  isValidMin min digits
  let epochSeconds := uint64 (epochSeconds + min * secondsPerMinute)
  let (sec, digits) ← readNaturalUntil [Byte.upperZ, Byte.plus, Byte.minus] false
  let sec := sec % 256
  isValidSec sec digits
  let epochSeconds := uint64 (epochSeconds + sec)
  let offset ← parseReadableOffset
  pure (uint64 (epochSeconds + offset))

def parseIso8601DateTime : Prog σ Nat := do
  let (year, digits) ← readNaturalN 4
  let year := year % 2 ^ 16
  isValidYear year digits
  let epochSeconds ← Prog.lift (addYears 0 year)
  let (month, digits) ← readNaturalN 2
  let month := month % 256
  isValidMonth month digits
  let months ← Prog.lift (secondsUpUntilMonth month year)
  let epochSeconds := uint64 (epochSeconds + months)
  let (day, digits) ← readNaturalN 2
  let day := day % 256
  isValidDay day digits
  let epochSeconds := uint64 (epochSeconds + (day - 1 : Int) * secondsPerDay)
  let _ ← get
  let (hr, digits) ← readNaturalN 2
  let hr := hr % 256
  isValidHr hr digits
  let epochSeconds := uint64 (epochSeconds + hr * secondsPerHour)
  let (min, digits) ← readNaturalN 2
  let min := min % 256
  isValidMin min digits
  let epochSeconds := uint64 (epochSeconds + min * secondsPerMinute)
  let (sec, digits) ← readNaturalN 2
  let sec := sec % 256
  isValidSec sec digits
  let epochSeconds := uint64 (epochSeconds + sec)
  let c ← get
  if c ≠ Byte.upperZ then
    let signMul ← parseSign c
    let (hour, hourDigits) ← readNaturalN 1
    if hourDigits > 1 then Prog.raise "Error parsing offset hour."
    else
      let (min, minDigits) ← readNaturalN 2
      if minDigits > 2 then Prog.raise "Error parsing offset min."
      else
        pure (uint64 (epochSeconds + offsetSeconds signMul (signedChar hour) (signedChar min)))
  else pure epochSeconds

def parseDateTime (format : DatetimeFormat) : Prog σ Nat :=
  match format with
  | .readable => parseReadableDateTime
  | .iso8601Readable => parseIso8601ReadableDateTime
  | .iso8601 => parseIso8601DateTime

end

def getEpochFromFormattedDateTime (dt : List UInt8) (format : DatetimeFormat) : Outcome Nat :=
  (parseDateTime format (EStream.ofBuffer dt)).bind fun r => .ok r.1

end WylesLibs.Calendar
