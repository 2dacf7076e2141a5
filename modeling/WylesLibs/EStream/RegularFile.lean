import WylesLibs.EStream.Stream

/-! A stream over the descriptor of a regular file, which `poll` reports as readable at its end
too. -/
namespace WylesLibs.Stream
open Library
variable {α : Type}

def readerRecommendedBufSize : Nat := 8096

/-- The answers of `::read`, each as long as the buffer but for the last. -/
def fileReads (bs : Nat) : Nat → List α → List (List α)
  | 0, _ => []
  | n + 1, l => if l.isEmpty then [] else l.take bs :: fileReads bs n (l.drop bs)

def Descriptor.ofFile (bs : Nat) (content : List α) : Descriptor α :=
  ⟨fileReads bs content.length content, true⟩

theorem fileReads_bounds {bs : Nat} (hbs : 0 < bs) (n : Nat) (l : List α) :
    ∀ c ∈ fileReads bs n l, c ≠ [] ∧ c.length ≤ bs := by
  induction n generalizing l with
  | zero => simp [fileReads]
  | succ n ih =>
    rw [fileReads]
    split
    · simp
    · rename_i hl
      refine List.forall_mem_cons.mpr ⟨⟨?_, List.length_take_le _ _⟩, ih _⟩
      simp only [List.isEmpty_iff] at hl
      simp [hl]
      omega

theorem flatten_fileReads {bs : Nat} (hbs : 0 < bs) {n : Nat} {l : List α} (h : l.length ≤ n) :
    (fileReads bs n l).flatten = l := by
  induction n generalizing l with
  | zero => rw [List.length_eq_zero_iff.mp (Nat.le_zero.mp h), fileReads, List.flatten_nil]
  | succ n ih =>
    rw [fileReads]
    split
    · rename_i hl
      rw [List.isEmpty_iff.mp hl, List.flatten_nil]
    · rw [List.flatten_cons, ih (by simp; omega), List.take_append_drop]

namespace EStream
variable {s : EStream α} {a : α} {l : List α}

/-- `l` is left to read of the file. -/
structure InFile (s : EStream α) (l : List α) : Prop where
  fd : ∃ chunks, s.fd = some ⟨chunks, true⟩ ∧ l = s.buffer.drop s.cursor ++ chunks.flatten ∧
    ∀ c ∈ chunks, c ≠ [] ∧ c.length ≤ s.bufferSize
  els : s.elsInBuffer = s.buffer.length
  cursor : s.cursor ≤ s.elsInBuffer
  ungot : s.ungot = false
  badbit : s.badbit = false

theorem InFile.ofFile [Inhabited α] {bs : Nat} (hbs : 0 < bs) (content : List α) :
    ∃ s, ofFd (.ofFile bs content) bs = .ok s ∧ s.InFile content := by
  refine ⟨_, if_neg (Nat.not_lt.mpr hbs), ?_⟩
  exact {
    fd := ⟨_, rfl, by simp [flatten_fileReads hbs le_rfl], fileReads_bounds hbs _ _⟩
    els := rfl
    cursor := Nat.le_refl 0
    ungot := rfl
    badbit := rfl }

theorem InFile.good (h : s.InFile l) : good s = .ok (true, s) := by
  obtain ⟨chunks, hfd, -⟩ := h.fd
  simp [EStream.good, h.badbit, readable, hfd, Descriptor.poll]

/-- With data in the buffer the cursor moves on. -/
theorem InFile.get_inside (h : s.InFile l) (hin : s.cursor < s.elsInBuffer) :
    ∃ a l', l = a :: l' ∧ ∃ s', get s = .ok (a, s') ∧ s'.InFile l' := by
  obtain ⟨chunks, hfd, hl, hchunks⟩ := h.fd
  have hlt : s.cursor < s.buffer.length := h.els ▸ hin
  refine ⟨s.buffer[s.cursor], s.buffer.drop (s.cursor + 1) ++ chunks.flatten, ?_,
    { s with cursor := s.cursor + 1 }, ?_, ⟨chunks, hfd, rfl, hchunks⟩, h.els, hin, h.ungot, h.badbit⟩
  · rw [hl, List.drop_eq_getElem_cons hlt, List.cons_append]
  · have hpast : s.readPastBuffer = false := by simpa [readPastBuffer] using hin
    simp [EStream.get, EStream.peek, h.good, refill, hpast, current, h.ungot, advance,
      List.getElem?_eq_getElem hlt]

/-- Past the buffer the next read answers, unless the file is at its end. -/
theorem InFile.refill_past (h : s.InFile l) (hpast : s.elsInBuffer ≤ s.cursor) :
    (l = [] ∧ refill s = .thrown "Read error.") ∨
      ∃ s', refill s = .ok ((), s') ∧ s'.InFile l ∧ s'.cursor < s'.elsInBuffer := by
  obtain ⟨chunks, hfd, hl, hchunks⟩ := h.fd
  have hread : s.readPastBuffer = true := by simpa [readPastBuffer] using hpast
  have hdrop : s.buffer.drop s.cursor = [] := List.drop_eq_nil_of_le (h.els ▸ hpast)
  obtain ⟨el, hsave⟩ : ∃ el, s.saveUngot = .ok { s with ungotEl := el } := by
    unfold saveUngot
    split
    · rename_i hcursor
      have hlt : s.cursor - 1 < s.buffer.length := by
        have hle := h.cursor
        rw [h.els] at hle
        omega
      exact ⟨s.buffer[s.cursor - 1], by rw [List.getElem?_eq_getElem hlt]⟩
    · exact ⟨s.ungotEl, rfl⟩
  have hrefill : refill s = fillBuffer { s with ungotEl := el } := by
    rw [refill, if_pos hread, hsave]
    rfl
  rw [hdrop, List.nil_append] at hl
  rw [hrefill]
  cases chunks with
  | nil => exact Or.inl ⟨hl, by simp [fillBuffer, hfd]⟩
  | cons c chunks =>
    obtain ⟨⟨hne, hle⟩, hrest⟩ := List.forall_mem_cons.mp hchunks
    refine Or.inr ⟨{ s with
      ungotEl := el, cursor := 0, buffer := c, elsInBuffer := c.length,
      fd := some ⟨chunks, true⟩ }, ?_, ?_, List.length_pos_iff.mpr hne⟩
    · simp [fillBuffer, hfd, hne, Nat.not_lt.mpr hle]
    · exact ⟨⟨chunks, rfl, by simpa using hl, hrest⟩, rfl, Nat.zero_le _, h.ungot, h.badbit⟩

theorem InFile.get_cons (h : s.InFile (a :: l)) : ∃ s', get s = .ok (a, s') ∧ s'.InFile l := by
  obtain hpast | hin := le_or_gt s.elsInBuffer s.cursor
  · obtain ⟨hnil, -⟩ | ⟨s', hrefill, h', hin⟩ := h.refill_past hpast
    · cases hnil
    · have hpast' : s'.readPastBuffer = false := by simpa [readPastBuffer] using hin
      obtain ⟨a', l', hl, s'', hget, h''⟩ := h'.get_inside hin
      obtain ⟨rfl, rfl⟩ := List.cons.inj hl
      refine ⟨s'', ?_, h''⟩
      have hrefill' : refill s' = .ok ((), s') := by simp [refill, hpast']
      have hsame : get s = get s' := by
        simp [EStream.get, EStream.peek, h.good, h'.good, hrefill, hrefill']
      rw [hsame, hget]
  · obtain ⟨a', l', hl, hget⟩ := h.get_inside hin
    obtain ⟨rfl, rfl⟩ := List.cons.inj hl
    exact hget

theorem InFile.get_nil (h : s.InFile []) : get s = .thrown "Read error." := by
  obtain hpast | hin := le_or_gt s.elsInBuffer s.cursor
  · obtain ⟨-, hthrown⟩ | ⟨s', -, h', hin⟩ := h.refill_past hpast
    · simp [EStream.get, EStream.peek, h.good, hthrown]
    · obtain ⟨a, l', hl, -⟩ := h'.get_inside hin
      cases hl
  · obtain ⟨a, l', hl, -⟩ := h.get_inside hin
    cases hl

end EStream
end WylesLibs.Stream
