import Mathlib

/-! `std::basic_ifstream<char>` and `std::basic_ofstream<char>` on a regular file: the position,
the state bits and what a failed call leaves alone. Independent of any particular program. -/
namespace WylesLibs.Library

/-- An offset from here on is negative as a `std::streamoff`. -/
def streamoffLimit : Nat := 2 ^ 63

/-- `failbit` stands for `badbit` too. -/
structure IFStream where
  content : List UInt8
  pos : Nat
  eofbit : Bool
  failbit : Bool

namespace IFStream

def opened (content : List UInt8) : IFStream := ⟨content, 0, false, false⟩

def good (s : IFStream) : Bool := !s.eofbit && !s.failbit

/-- `none` is `traits_type::eof()`. -/
def get (s : IFStream) : Option UInt8 × IFStream :=
  if s.good then
    match s.content[s.pos]? with
    | some c => (some c, { s with pos := s.pos + 1 })
    | none => (none, { s with eofbit := true, failbit := true })
  else (none, { s with failbit := true })

def peek (s : IFStream) : Option UInt8 × IFStream :=
  if s.good then
    match s.content[s.pos]? with
    | some c => (some c, s)
    | none => (none, { s with eofbit := true })
  else (none, { s with failbit := true })

def seekg (s : IFStream) (offset : Nat) : IFStream :=
  let s := { s with eofbit := false }
  if s.failbit then s
  else if streamoffLimit ≤ offset then { s with failbit := true }
  else { s with pos := offset }

end IFStream

structure OFStream where
  content : List UInt8
  pos : Nat
  failbit : Bool

namespace OFStream

/-- Opened with `out` and neither `in` nor `app`: the file is truncated. -/
def truncated : OFStream := ⟨[], 0, false⟩

def seekp (s : OFStream) (offset : Nat) : OFStream :=
  if s.failbit then s
  else if streamoffLimit ≤ offset then { s with failbit := true }
  else { s with pos := offset }

def seekpEnd (s : OFStream) : OFStream :=
  if s.failbit then s else { s with pos := s.content.length }

/-- What stands before `pos` and past the end of the content reads as zeros. -/
def spliced (content : List UInt8) (pos : Nat) (buffer : List UInt8) : List UInt8 :=
  content.take pos ++ List.replicate (pos - content.length) 0 ++ buffer ++
    content.drop (pos + buffer.length)

def write (s : OFStream) (buffer : List UInt8) : OFStream :=
  if s.failbit ∨ buffer = [] then s
  else { s with content := spliced s.content s.pos buffer, pos := s.pos + buffer.length }

variable (buffer : List UInt8) (offset : Nat)

theorem content_write_truncated : (truncated.write buffer).content = buffer := by
  by_cases hbuffer : buffer = []
  · simp [write, truncated, hbuffer]
  · simp [write, truncated, spliced, hbuffer]

@[simp] theorem seekpEnd_truncated : truncated.seekpEnd = truncated := rfl

@[simp] theorem seekp_zero_truncated : truncated.seekp 0 = truncated := rfl

/-- Whatever stood before the offset is gone. -/
theorem content_write_seekp_truncated :
    ((truncated.seekp offset).write buffer).content =
      if buffer = [] ∨ streamoffLimit ≤ offset then []
      else List.replicate offset 0 ++ buffer := by
  by_cases hoffset : streamoffLimit ≤ offset
  · simp [seekp, write, truncated, hoffset]
  · by_cases hbuffer : buffer = []
    · simp [seekp, write, truncated, hoffset, hbuffer]
    · simp [seekp, write, truncated, spliced, hoffset, hbuffer]

end OFStream
end WylesLibs.Library
