import WylesLibs.EStream.ByteStream
import WylesLibs.Library.Iostream

/-! A byte stream over a `std::basic_istream<char>`, and the reads of `io.h`. -/
namespace WylesLibs.Stream
open Library

/-- The constructor's parameters shadow `factory`, `path` and `chunk_size`, which are never set. -/
structure IStreamEStream where
  reader : IFStream

namespace IStreamEStream

/-- Adds the `chunk_size` that was never set. -/
def fillBuffer : Prog IStreamEStream Unit := fun _ => .undef

def readPastBuffer (s : IStreamEStream) : Bool := !s.reader.good

/-- The conversion of `traits_type::eof()` to a `uint8_t`. -/
def eofByte : UInt8 := 0xFF

def get : Prog IStreamEStream UInt8 := fun s =>
  if s.readPastBuffer then (fillBuffer s).bind fun _ => .undef
  else .ok (s.reader.get.1.getD eofByte, ⟨s.reader.get.2⟩)

def peek : Prog IStreamEStream UInt8 := fun s =>
  if s.readPastBuffer then (fillBuffer s).bind fun _ => .undef
  else .ok (s.reader.peek.1.getD eofByte, ⟨s.reader.peek.2⟩)

def good : Prog IStreamEStream Bool := fun s => .ok (s.reader.good, s)

instance : EStreamI IStreamEStream UInt8 where
  get := get
  peek := peek
  good := good

def seekg (offset : Nat) : Prog IStreamEStream Unit := Prog.modify fun s => ⟨s.reader.seekg offset⟩

def readElsLoop : Nat → List UInt8 → Prog IStreamEStream (List UInt8)
  | 0, data => pure data
  | n + 1, data => do
    let c ← get
    readElsLoop n (data ++ [c])

def readEls (n : Nat) : Prog IStreamEStream (List UInt8) :=
  if n = 0 then Prog.raise "It doesn't make sense to read zero els."
  else if arbitraryLimitBecauseDumb < n then
    Prog.raise "You're reading more than the limit specified... Read less, or you know what, don't read at all."
  else readElsLoop n []

/-- The `while` loop of `read` and of `readString`; each turn takes a byte or meets the end. -/
def readUntilEof : Nat → List UInt8 → Prog IStreamEStream (List UInt8)
  | 0, _ => Prog.spent
  | n + 1, fileData => do
    if ← good then
      let c ← get
      readUntilEof n (if c ≠ eofByte then fileData ++ [c] else fileData)
    else
      pure fileData

/-- The offset is sought again where there is one. -/
def readFrom (offset size : Nat) (readSize : Prog IStreamEStream (List UInt8)) :
    Prog IStreamEStream (List UInt8) := do
  if offset ≠ 0 then
    seekg offset
  if size = sizeMax then
    fun s => readUntilEof (s.reader.content.length + 2) [] s
  else
    readSize

def read (offset size : Nat) : Prog IStreamEStream (List UInt8) :=
  readFrom offset size (readEls size)

def readString (offset size : Nat) : Prog IStreamEStream (List UInt8) :=
  readFrom offset size (Stream.readString size (none : Option (NullTask UInt8)))

/-- At the end of the file the loop takes one byte more, which it drops with all its like. -/
theorem readUntilEof_eq {n : Nat} {content fileData : List UInt8} {pos : Nat}
    (hn : content.length + 2 ≤ pos + n) (hpos : pos ≤ content.length) :
    ∃ s, readUntilEof n fileData ⟨⟨content, pos, false, false⟩⟩ =
      .ok (fileData ++ (content.drop pos).filter (· ≠ eofByte), s) := by
  induction n generalizing fileData pos with
  | zero => omega
  | succ n ih =>
    obtain hlt | heq := Nat.lt_or_eq_of_le hpos
    · obtain ⟨s, hs⟩ := @ih (if content[pos] ≠ eofByte then fileData ++ [content[pos]]
        else fileData) (pos + 1) (by omega) hlt
      refine ⟨s, ?_⟩
      rw [List.drop_eq_getElem_cons hlt, List.filter_cons]
      have hget : content[pos]? = some content[pos] := List.getElem?_eq_getElem hlt
      simp only [readUntilEof, good, get, readPastBuffer, IFStream.good, IFStream.get, hget,
        Prog.bind_apply, Outcome.bind_ok, Bool.not_false, Bool.and_self, if_true,
        Bool.false_eq_true, if_false, Bool.not_true, Option.getD_some]
      rw [hs]
      by_cases hc : content[pos] = eofByte <;> simp [hc]
    · obtain ⟨n, rfl⟩ : ∃ m, n = m + 1 := ⟨n - 1, by omega⟩
      have hget : content[pos]? = none := List.getElem?_eq_none (by omega)
      have hdrop : content.drop pos = [] := List.drop_eq_nil_of_le (by omega)
      refine ⟨⟨⟨content, pos, true, true⟩⟩, ?_⟩
      simp [readUntilEof, good, get, readPastBuffer, IFStream.good, IFStream.get, hget, hdrop]

/-- Both reads of a whole file. -/
theorem readFrom_opened (content : List UInt8) (readSize : Prog IStreamEStream (List UInt8)) :
    ∃ s, readFrom 0 sizeMax readSize ⟨.opened content⟩ =
      .ok (content.filter (· ≠ eofByte), s) := by
  obtain ⟨s, hs⟩ := @readUntilEof_eq (content.length + 2) content [] 0 (by omega)
    (Nat.zero_le _)
  refine ⟨s, ?_⟩
  simpa [readFrom, IFStream.opened] using hs

end IStreamEStream
end WylesLibs.Stream
