import Mathlib

/-! Character classes of bytes. A `char` of the source is compared by its byte: what lies above
127 is in none of these classes whether it counts as negative or not. -/
namespace WylesLibs

/-- A `std::string` is compared by its bytes. -/
instance stringLawfulBEq : LawfulBEq (List UInt8) := inferInstance

def stringUtilsWhitespace : List UInt8 := [0x0D, 0x0A, 0x09, 0x09, 0x20]

def isWhitespace (c : UInt8) : Bool := decide (c ∈ stringUtilsWhitespace)

def isAlpha (c : UInt8) : Bool := (0x41 ≤ c && c ≤ 0x5A) || (0x61 ≤ c && c ≤ 0x7A)
def isDigit (c : UInt8) : Bool := 0x30 ≤ c && c ≤ 0x39
def isLowerHex (c : UInt8) : Bool := 0x61 ≤ c && c ≤ 0x66
def isUpperHex (c : UInt8) : Bool := 0x41 ≤ c && c ≤ 0x46
def isHexDigit (c : UInt8) : Bool := isDigit c || isLowerHex c || isUpperHex c

namespace Byte

abbrev tab : UInt8 := 0x09
abbrev newline : UInt8 := 0x0A
abbrev carriageReturn : UInt8 := 0x0D
abbrev space : UInt8 := 0x20
abbrev quote : UInt8 := 0x22
abbrev plus : UInt8 := 0x2B
abbrev comma : UInt8 := 0x2C
abbrev minus : UInt8 := 0x2D
abbrev dot : UInt8 := 0x2E
abbrev colon : UInt8 := 0x3A
abbrev semicolon : UInt8 := 0x3B
abbrev equals : UInt8 := 0x3D
abbrev question : UInt8 := 0x3F
abbrev upperT : UInt8 := 0x54
abbrev upperZ : UInt8 := 0x5A
abbrev openBracket : UInt8 := 0x5B
abbrev backslash : UInt8 := 0x5C
abbrev closeBracket : UInt8 := 0x5D
abbrev openBrace : UInt8 := 0x7B
abbrev closeBrace : UInt8 := 0x7D

end Byte

/-- The bytes of an ASCII text of the source. -/
def bytes (s : List Char) : List UInt8 := s.map Char.toUInt8

end WylesLibs
