import WylesLibs.Format.Format

/-! `etime`: the clock in a time zone, and the seconds of years and months. -/
namespace WylesLibs.Calendar
open Library WylesLibs.Stream WylesLibs.Format

def secondsPerHour : Nat := 3600
def secondsPerMinute : Nat := 60
def secondsPerDay : Nat := 86400
def secondsPerNonLeapYear : Nat := 31536000

/-- An `int` that is out of range is undefined. -/
def intOf (v : Int) : Outcome Int := if v < -2 ^ 31 ∨ 2 ^ 31 ≤ v then .undef else .ok v
def timeOf (v : Int) : Outcome Int := if v < -2 ^ 63 ∨ 2 ^ 63 ≤ v then .undef else .ok v

/-- What a `uint64_t` holds of a number. -/
def uint64 (v : Int) : Nat := (v % (uint64Mod : Nat)).toNat

def runningSecondsUpUntilMonthNonLeapYear : List Nat :=
  [0, secondsPerDay * 31,
    secondsPerDay * (31 + 28),
    secondsPerDay * (31 + 28 + 31),
    secondsPerDay * (31 + 28 + 31 + 30),
    secondsPerDay * (31 + 28 + 31 + 30 + 31),
    secondsPerDay * (31 + 28 + 31 + 30 + 31 + 30),
    secondsPerDay * (31 + 28 + 31 + 30 + 31 + 30 + 31),
    secondsPerDay * (31 + 28 + 31 + 30 + 31 + 30 + 31 + 31),
    secondsPerDay * (31 + 28 + 31 + 30 + 31 + 30 + 31 + 31 + 30),
    secondsPerDay * (31 + 28 + 31 + 30 + 31 + 30 + 31 + 31 + 30 + 31),
    secondsPerDay * (31 + 28 + 31 + 30 + 31 + 30 + 31 + 31 + 30 + 31 + 30),
    secondsPerDay * (31 + 28 + 31 + 30 + 31 + 30 + 31 + 31 + 30 + 31 + 30 + 31)]

def runningSecondsUpUntilMonthLeapYear : List Nat :=
  [0, secondsPerDay * 31,
    secondsPerDay * (31 + 29),
    secondsPerDay * (31 + 29 + 31),
    secondsPerDay * (31 + 29 + 31 + 30),
    secondsPerDay * (31 + 29 + 31 + 30 + 31),
    secondsPerDay * (31 + 29 + 31 + 30 + 31 + 30),
    secondsPerDay * (31 + 29 + 31 + 30 + 31 + 30 + 31),
    secondsPerDay * (31 + 29 + 31 + 30 + 31 + 30 + 31 + 31),
    secondsPerDay * (31 + 29 + 31 + 30 + 31 + 30 + 31 + 31 + 30),
    secondsPerDay * (31 + 29 + 31 + 30 + 31 + 30 + 31 + 31 + 30 + 31),
    secondsPerDay * (31 + 29 + 31 + 30 + 31 + 30 + 31 + 31 + 30 + 31 + 30),
    secondsPerDay * (31 + 29 + 31 + 30 + 31 + 30 + 31 + 31 + 30 + 31 + 30 + 31)]

def isLeapYear (year : Nat) : Bool :=
  year % 4 = 0 && (year % 100 ≠ 0 || (year % 100 = 0 && year % 400 = 0))

def runningSecondsUpUntilMonth (year : Nat) : List Nat :=
  if isLeapYear year then runningSecondsUpUntilMonthLeapYear
  else runningSecondsUpUntilMonthNonLeapYear

def secondsUpUntilMonth (month year : Nat) : Outcome Nat :=
  if month = 0 then .undef
  else
    match (runningSecondsUpUntilMonth year)[month - 1]? with
    | none => .undef
    | some seconds => .ok seconds

/-- The cursor is a `uint16_t`. -/
def numLeapYearsLoop (year : Nat) : Nat → Nat → Nat → Outcome Nat
  | 0, _, _ => .timeout
  | steps + 1, yearCursor, numLeapYears =>
    if yearCursor < year then
      numLeapYearsLoop year steps ((yearCursor + 4) % 2 ^ 16)
        (if isLeapYear yearCursor then (numLeapYears + 1) % 2 ^ 16 else numLeapYears)
    else .ok numLeapYears

/-- A cursor that has gone through all multiples of four never reaches the year. -/
def getNumLeapYears (year : Nat) : Outcome Nat := numLeapYearsLoop year (2 ^ 14 + 1) 1972 0

def offsets : List Int :=
  [-1200, -1100, -1000, -900, -800, -700, -600, -500, -400, -300, -200, -100, 0, 100, 200, 300, 330,
    400, 430, 500, 530, 545, 600, 700, 800, 900, 930, 1000, 1030, 1100, 1200, 1245, 1300, 1345,
    1400]

/-- What becomes of `APPLICATION_TIME_OFFSET`. The message prints an `int` as an `int64_t`. -/
def setApplicationTimeOffset (offset : Int) : Outcome Int :=
  if offset ∉ offsets then
    (format (D := Empty) ByteEStream.moveAssign
      (bytes "Invalid offset provided: ".toList ++ [Byte.openBrace, Spec.d, Byte.closeBrace])
      [.int offset]).bind fun msg => .thrown (message msg)
  else .ok offset

/-- The clock shows `tvSec`; the offset is passed by reference, so the caller's changes too. -/
def getZonedEpochTime (tvSec applicationTimeOffset offset : Int) : Outcome (Nat × Int) :=
  let offset := if offset ∈ offsets then offset else applicationTimeOffset
  (timeOf (tvSec + offset * secondsPerHour)).bind fun tvSec => .ok (uint64 tvSec, offset)

end WylesLibs.Calendar
