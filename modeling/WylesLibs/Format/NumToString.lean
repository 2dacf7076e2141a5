import WylesLibs.Library.Outcome
import WylesLibs.StringUtils

/-! Numbers as text: `numToString` and `numToStringSigned`. -/
namespace WylesLibs.Format
open Library

def uint64Mod : Nat := 2 ^ 64
def uint8Max : Nat := 255

structure StringFormatOpts where
  base : Nat := 10
  width : Nat := uint8Max
  precision : Nat := 6
  exponential : Int := 0
  exponentialDesignator : UInt8 := 0x45
  upper : Bool := true
  signMask : UInt8 := 0x1
  isNegative : Bool := false

namespace StringFormatOpts

def noSign : UInt8 := 0x0
def signForNegatives : UInt8 := 0x1
def signForPositives : UInt8 := 0x2

end StringFormatOpts

/-- What a `char` holds of a number. -/
def signedChar (n : Nat) : Int := if n % 256 < 128 then (n % 256 : Nat) else (n % 256 : Nat) - 256

/-- A `char` pushed back onto a string. -/
def pushedChar (n : Int) : UInt8 := UInt8.ofNat (n % 256).toNat

/-- The first loop: the largest power of the base that is not above the number. A divisor that
has wrapped to zero divides no number. -/
def findDivisor (num base : Nat) : Nat → Nat → Nat → Outcome (Nat × Nat)
  | 0, _, _ => .timeout
  | steps + 1, divisor, digitCount =>
    if divisor = 0 then .undef
    else if num / divisor ≥ base then
      findDivisor num base steps (divisor * base % uint64Mod) ((digitCount + 1) % 256)
    else .ok (divisor, digitCount)

/-- The zeros behind a digit: the divisor goes down to where the next digit is. -/
def zeroRun (diff base : Nat) : Nat → Nat → List UInt8 → Outcome (Nat × List UInt8)
  | 0, _, _ => .timeout
  | steps + 1, divisor, s =>
    if divisor / base > diff then zeroRun diff base steps (divisor / base) (s ++ [0x30])
    else .ok (divisor, s)

/-- A digit that is none of the base is only logged. -/
def placeDigit (opts : StringFormatOpts) (digit : Int) (s : List UInt8) : List UInt8 :=
  if digit ≤ 9 then s ++ [pushedChar (digit + 0x30)]
  else if opts.base = 16 ∧ digit ≤ 0xF then
    if opts.upper then s ++ [pushedChar (digit - 0xA + 0x41)]
    else s ++ [pushedChar (digit - 0xA + 0x61)]
  else s

/-- The second loop. The zeros behind a digit are placed whatever the start index says. -/
def digitsLoop (opts : StringFormatOpts) (startIndex : Nat) :
    Nat → Nat → Nat → Nat → List UInt8 → Outcome (List UInt8)
  | 0, _, _, _, _ => .timeout
  | steps + 1, divisor, num, i, s =>
    if divisor > 0 then
      let digit := signedChar (num / divisor)
      let s := if i ≥ startIndex then placeDigit opts digit s else s
      let diff := ((num - digit * divisor) % uint64Mod).toNat
      if diff < divisor / opts.base then
        (zeroRun diff opts.base 65 divisor s).bind fun r =>
          digitsLoop opts startIndex steps (r.1 / opts.base) diff (i + 1) r.2
      else digitsLoop opts startIndex steps (divisor / opts.base) diff (i + 1) s
    else .ok s

/-- Sign and base, before the digits. -/
def numPrefix (opts : StringFormatOpts) : List UInt8 :=
  (if opts.isNegative then
      if opts.signMask &&& StringFormatOpts.signForNegatives > 0 then [Byte.minus] else []
    else if opts.signMask &&& StringFormatOpts.signForPositives > 0 then [Byte.plus] else []) ++
    if opts.base = 16 then [0x30, 0x78] else []

/-- The divisor is below 2^64 and loses a factor of the base in each turn, so 65 turns are more
than either loop can take. -/
def numToString (num : Nat) (opts : StringFormatOpts) : Outcome (List UInt8) :=
  if opts.base ≠ 10 ∧ opts.base ≠ 16 then .thrown "Base not supported."
  else
    (findDivisor num opts.base 65 1 1).bind fun (divisor, digitCount) =>
      if opts.width ≠ uint8Max ∧ digitCount < opts.width then
        -- pad to width
        digitsLoop opts 0 65 divisor num 0
          (numPrefix opts ++ List.replicate (opts.width - digitCount) 0x30)
      else
        -- truncate
        digitsLoop opts (digitCount - opts.width) 65 divisor num 0 (numPrefix opts)

/-- The negation is two's complement, so the least `int64_t` keeps its absolute value too. -/
def numToStringSigned (num : Int) (opts : StringFormatOpts) : Outcome (List UInt8) :=
  if num < 0 then numToString num.natAbs { opts with isNegative := true }
  else numToString num.toNat opts

end WylesLibs.Format
