import WylesLibs.File.FileManager

/-! Writes to one path, one after the other. -/
namespace WylesLibs.File
open Library WylesLibs.Stream

inductive Write where
  | append (buffer : List UInt8) (append : Bool)
  | atOffset (buffer : List UInt8) (offset : Nat)

namespace FileManager

def perform (path : String) (m : FileManager) : Write → Option FileManager
  | .append buffer append => (m.write path buffer append).toOption
  | .atOffset buffer offset => (m.writeAt path buffer offset).toOption

/-- A file that is not there has no content. -/
def contentOf (m : FileManager) (path : String) : List UInt8 := (m.files path).getD []

/-- What a write is for. One at an offset says nothing of what it does past the end of the file. -/
def Updated (old new : List UInt8) : Write → Prop
  | .append buffer true => new = old ++ buffer
  | .append buffer false => new = buffer
  | .atOffset buffer offset => offset + buffer.length ≤ old.length →
      new = old.take offset ++ buffer ++ old.drop (offset + buffer.length)

def Updates (path : String) (m : FileManager) (w : Write) : Prop :=
  ∃ m', perform path m w = some m' ∧ Updated (m.contentOf path) (m'.contentOf path) w

/-- The truncation that comes with the opening takes nothing away, or nothing that counts. -/
def Harmless (old : List UInt8) : Write → Prop
  | .append _ true => old = []
  | .append _ false => True
  | .atOffset buffer offset => offset + buffer.length ≤ old.length →
      old.length = offset + buffer.length ∧ old.take offset = List.replicate offset 0 ∧
        (buffer = [] → old = []) ∧ offset < streamoffLimit

instance (old : List UInt8) : (w : Write) → Decidable (Harmless old w)
  | .append _ true => inferInstanceAs (Decidable (old = []))
  | .append _ false => isTrue trivial
  | .atOffset buffer offset => inferInstanceAs (Decidable (offset + buffer.length ≤ old.length →
      old.length = offset + buffer.length ∧ old.take offset = List.replicate offset 0 ∧
        (buffer = [] → old = []) ∧ offset < streamoffLimit))

/-- The system opens the file for writing, and the write is one that nothing is lost by. -/
def Opens (path : String) (m : FileManager) (w : Write) : Prop :=
  m.unwritable path = false ∧ Harmless (m.contentOf path) w

/-- What a write leaves in the file, whatever was there. -/
def written : Write → List UInt8
  | .append buffer _ => buffer
  | .atOffset buffer offset =>
    if buffer = [] ∨ streamoffLimit ≤ offset then [] else List.replicate offset 0 ++ buffer

section
variable {path : String} {m m' : FileManager} {w : Write}

theorem perform_unwritable (h : m.unwritable path = true) : perform path m w = none := by
  cases w <;> simp [perform, write, writeAt, writer, h, Outcome.toOption]

/-- The content is what was written, and nothing else changes. -/
theorem perform_opened (h : m.unwritable path = false) : ∃ m', perform path m w = some m' ∧
    m'.contentOf path = written w ∧ m'.unwritable = m.unwritable ∧
      ∀ p, p ≠ path → m'.contentOf p = m.contentOf p := by
  cases w with
  | append buffer append =>
    have hwrite : m.write path buffer append = .ok
        (({ m with writers := m.writers ++ [path] }.flush path
          (OFStream.truncated.write buffer)).removeWriter path) := by
      cases append <;> simp [write, writer, h]
    refine ⟨_, congrArg Outcome.toOption hwrite, ?_, rfl, ?_⟩
    · simp [contentOf, removeWriter, flush, written, OFStream.content_write_truncated]
    · intro p hp
      simp [contentOf, removeWriter, flush, hp]
  | atOffset buffer offset =>
    have hwrite : m.writeAt path buffer offset = .ok
        (({ m with writers := m.writers ++ [path] }.flush path
          ((OFStream.truncated.seekp offset).write buffer)).removeWriter path) := by
      simp [writeAt, writer, h]
    refine ⟨_, congrArg Outcome.toOption hwrite, ?_, rfl, ?_⟩
    · simp [contentOf, removeWriter, flush, written, OFStream.content_write_seekp_truncated]
    · intro p hp
      simp [contentOf, removeWriter, flush, hp]

/-- A file that ends where the write does, and begins with as many zeros as the truncated one. -/
theorem zeros_append_eq_iff {old buffer : List UInt8} {offset : Nat}
    (hin : offset + buffer.length ≤ old.length) :
    List.replicate offset 0 ++ buffer =
        old.take offset ++ buffer ++ old.drop (offset + buffer.length) ↔
      old.length = offset + buffer.length ∧ old.take offset = List.replicate offset 0 := by
  constructor
  · intro heq
    have hlen := congrArg List.length heq
    simp only [List.length_append, List.length_replicate, List.length_take,
      List.length_drop] at hlen
    have htake : (List.replicate offset (0 : UInt8)).length = (old.take offset).length := by
      simp
      omega
    rw [List.append_assoc (old.take offset)] at heq
    exact ⟨by omega, ((List.append_inj heq htake).1).symm⟩
  · rintro ⟨hlen, hzeros⟩
    have hdrop : old.drop (offset + buffer.length) = [] := List.drop_eq_nil_of_le hlen.le
    rw [hzeros, hdrop, List.append_nil]

theorem updated_written_iff {old : List UInt8} : Updated old (written w) w ↔ Harmless old w := by
  cases w with
  | append buffer append =>
    cases append with
    | true => simp [Updated, Harmless, written]
    | false => simp [Updated, Harmless, written]
  | atOffset buffer offset =>
    refine imp_congr_right fun hin => ?_
    by_cases hbuffer : buffer = []
    · subst hbuffer
      simp only [written, true_or, if_true, List.append_nil, List.length_nil, Nat.add_zero,
        List.take_append_drop]
      constructor
      · rintro rfl
        simp at hin
        simp [hin, streamoffLimit]
      · rintro ⟨-, -, hold, -⟩
        exact (hold trivial).symm
    · by_cases hoffset : streamoffLimit ≤ offset
      · simp [written, hoffset, hbuffer, Nat.not_lt.mpr hoffset]
      · simp only [written, hoffset, hbuffer, or_self, if_false, zeros_append_eq_iff hin,
          Nat.not_le.mp hoffset, false_implies, and_true]

theorem updates_iff_opens : Updates path m w ↔ Opens path m w := by
  cases hunwritable : m.unwritable path with
  | true => simp [Updates, Opens, perform_unwritable hunwritable, hunwritable]
  | false =>
    obtain ⟨m', hm', hcontent, -⟩ := perform_opened (w := w) hunwritable
    simp [Updates, Opens, hm', hcontent, hunwritable, updated_written_iff]

/-- Over any writes to a path, one after the other: each of them makes the update it is for exactly
if each finds the file open to it and loses nothing by truncating it. -/
theorem updates_along_iff (path : String) (m : FileManager) (writes : List Write) :
    Along (perform path) (Updates path) m writes ↔ Along (perform path) (Opens path) m writes :=
  ⟨Along.mono fun _ _ => updates_iff_opens.mp, Along.mono fun _ _ => updates_iff_opens.mpr⟩

/-- The first byte is lost to an append. -/
theorem not_updates_append : ¬ Along (perform "a") (Updates "a") (ofFile "a" [69])
    [.append [83] true] := by
  rintro ⟨⟨m', hm', hupdated⟩, -⟩
  cases hm'
  simp [Updated, contentOf, removeWriter, flush, ofFile, OFStream.content_write_truncated] at hupdated

end
end FileManager
end WylesLibs.File
