import WylesLibs.EStream.IStreamEStream
import WylesLibs.Library.Runs

/-! `FileManager` and its `StreamFactory`, on the files of a system. -/
namespace WylesLibs.File
open Library WylesLibs.Stream

/-- `unreadable` and `unwritable` say which paths the system does not open for reading and for
writing. -/
structure FileManager where
  files : String → Option (List UInt8)
  unreadable : String → Bool
  unwritable : String → Bool
  writers : List String

namespace FileManager
variable {m : FileManager} {path : String} {content : List UInt8}

/-- `StreamFactory::reader`. -/
def reader (m : FileManager) (path : String) (offset : Nat) : Outcome IFStream :=
  match m.files path, m.unreadable path with
  | some content, false => .ok ((IFStream.opened content).seekg offset)
  | _, _ => .thrown ("Unable to open file at path: " ++ path ++ " for reading.\n")

/-- `StreamFactory::writer`. A writer that is registered already changes nothing; a refusal throws
with the lock held. -/
def writer (m : FileManager) (path : String) : Outcome (OFStream × FileManager) :=
  if m.unwritable path then
    .thrown ("Unable to open file at path: " ++ path ++ " for writing.\n")
  else .ok (.truncated, { m with writers := m.writers ++ [path] })

/-- `StreamFactory::removeWriter`. -/
def removeWriter (m : FileManager) (path : String) : FileManager :=
  { m with writers := m.writers.erase path }

/-- What the stream was given is in the file once it is flushed. -/
def flush (m : FileManager) (path : String) (s : OFStream) : FileManager :=
  { m with files := fun p => if p = path then some s.content else m.files p }

/-- The `write` that appends or overwrites. -/
def write (m : FileManager) (path : String) (buffer : List UInt8) (append : Bool) :
    Outcome FileManager :=
  (m.writer path).bind fun (s, m) =>
    let s := if append then s.seekpEnd else s.seekp 0
    .ok ((m.flush path (s.write buffer)).removeWriter path)

/-- The `write` at an offset. -/
def writeAt (m : FileManager) (path : String) (buffer : List UInt8) (offset : Nat) :
    Outcome FileManager :=
  (m.writer path).bind fun (s, m) =>
    .ok ((m.flush path ((s.seekp offset).write buffer)).removeWriter path)

def read (m : FileManager) (path : String) (offset size : Nat) : Outcome (List UInt8) :=
  (m.reader path offset).bind fun r =>
    (IStreamEStream.read offset size ⟨r⟩).bind fun p => .ok p.1

def readString (m : FileManager) (path : String) (offset size : Nat) : Outcome (List UInt8) :=
  (m.reader path offset).bind fun r =>
    (IStreamEStream.readString offset size ⟨r⟩).bind fun p => .ok p.1

/-- The content of a file that the system opens for reading. -/
def Holds (m : FileManager) (path : String) (content : List UInt8) : Prop :=
  m.files path = some content ∧ m.unreadable path = false

/-! Reading a whole file. -/

theorem Holds.reader (h : m.Holds path content) : m.reader path 0 = .ok (.opened content) := by
  simp [FileManager.reader, h.1, h.2, IFStream.seekg, IFStream.opened, streamoffLimit]

theorem Holds.read (h : m.Holds path content) :
    m.read path 0 sizeMax = .ok (content.filter (· ≠ IStreamEStream.eofByte)) := by
  obtain ⟨s, hs⟩ := IStreamEStream.readFrom_opened content (IStreamEStream.readEls sizeMax)
  simp only [FileManager.read, h.reader, Outcome.bind_ok, IStreamEStream.read, hs]

theorem Holds.readString (h : m.Holds path content) :
    m.readString path 0 sizeMax = .ok (content.filter (· ≠ IStreamEStream.eofByte)) := by
  obtain ⟨s, hs⟩ := IStreamEStream.readFrom_opened content
    (Stream.readString sizeMax (none : Option (NullTask UInt8)))
  simp only [FileManager.readString, h.reader, Outcome.bind_ok, IStreamEStream.readString, hs]

theorem filter_eofByte_iff :
    content.filter (· ≠ IStreamEStream.eofByte) = content ↔ (0xFF : UInt8) ∉ content := by
  rw [List.filter_eq_self]
  constructor
  · intro h hmem
    simpa [IStreamEStream.eofByte] using h _ hmem
  · intro h c hc
    have hne : c ≠ 0xFF := ne_of_mem_of_not_mem hc h
    exact decide_eq_true hne

/-- A file is read as it is exactly if it holds no byte that looks like the end of one. -/
theorem read_faithful_iff (h : m.Holds path content) :
    (m.read path 0 sizeMax = .ok content ↔ (0xFF : UInt8) ∉ content) ∧
      (m.readString path 0 sizeMax = .ok content ↔ (0xFF : UInt8) ∉ content) := by
  simp only [h.read, h.readString, Outcome.ok.injEq, filter_eofByte_iff, and_self]

/-- A manager over one file. -/
def ofFile (path : String) (content : List UInt8) : FileManager :=
  ⟨fun p => if p = path then some content else none, fun _ => false, fun _ => false, []⟩

theorem holds_ofFile (path : String) (content : List UInt8) :
    (ofFile path content).Holds path content := by
  simp [Holds, ofFile]

theorem read_faithful_text :
    ((ofFile "a" [65, 10]).read "a" 0 sizeMax = .ok [65, 10] ↔ (0xFF : UInt8) ∉ [65, 10]) ∧
      ((ofFile "a" [65, 10]).readString "a" 0 sizeMax = .ok [65, 10] ↔
        (0xFF : UInt8) ∉ [65, 10]) :=
  read_faithful_iff (holds_ofFile "a" [65, 10])

theorem read_drops_ff :
    (ofFile "a" [65, 0xFF, 66]).read "a" 0 sizeMax ≠ .ok [65, 0xFF, 66] ∧
      (ofFile "a" [65, 0xFF, 66]).readString "a" 0 sizeMax ≠ .ok [65, 0xFF, 66] := by
  have h := holds_ofFile "a" [65, 0xFF, 66]
  rw [h.read, h.readString]
  simp [IStreamEStream.eofByte]

end FileManager
end WylesLibs.File
