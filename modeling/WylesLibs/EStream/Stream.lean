import WylesLibs.EStream.Types

/-! `EStream`: a buffer in front of a file descriptor, or the whole data of a memory-backed
stream, with one element of pushback across a refill. -/
namespace WylesLibs.Stream
open Library
variable {α θ : Type}

def arbitraryLimitBecauseDumb : Nat := 4294967296

/-- What the descriptor still holds: `chunks` are the reads it will answer, one for each call of
`::read`, and `readableAtEof` is what `poll` says once they are used up. -/
structure Descriptor (α : Type) where
  chunks : List (List α)
  readableAtEof : Bool

/-- `poll` reports one readable descriptor. -/
def Descriptor.poll (d : Descriptor α) : Bool := !d.chunks.isEmpty || d.readableAtEof

/-- `buffer` is the part of the buffer that the last refill wrote. Of the bits of `flags` only
`badbit` is ever set; a memory-backed stream has no descriptor (`fd` is -1). -/
structure EStream (α : Type) where
  buffer : List α
  bufferSize : Nat
  elsInBuffer : Nat
  cursor : Nat
  ungot : Bool
  ungotEl : α
  badbit : Bool
  fd : Option (Descriptor α)

namespace EStream

/-- `EStream(T * b, const size_t bs)`. -/
def ofBuffer [Inhabited α] (b : List α) : EStream α where
  buffer := b
  bufferSize := b.length
  elsInBuffer := b.length
  cursor := 0
  ungot := false
  ungotEl := default
  badbit := false
  fd := none

/-- `EStream(const int p_fd, const size_t bs)` on an open descriptor. -/
def ofFd [Inhabited α] (d : Descriptor α) (bs : Nat) : Outcome (EStream α) :=
  if bs < 1 then .thrown "Invalid buffer size provided."
  else .ok {
    buffer := []
    bufferSize := bs
    elsInBuffer := 0
    cursor := 0
    ungot := false
    ungotEl := default
    badbit := false
    fd := some d }

def readPastBuffer (s : EStream α) : Bool := decide (s.elsInBuffer ≤ s.cursor)

/-- A read of nothing is the end of the file; together with a failed read it throws. -/
def fillBuffer : Prog (EStream α) Unit := fun s =>
  match s.fd with
  | some ⟨chunk :: chunks, e⟩ =>
    if chunk.length = 0 ∨ s.bufferSize < chunk.length then .thrown "Read error."
    else .ok ((), { s with
      cursor := 0
      buffer := chunk
      elsInBuffer := chunk.length
      fd := some ⟨chunks, e⟩ })
  | _ => .thrown "Read error."

/-- What `poll` on the descriptor answers; there is none to ask in a memory-backed stream. -/
def readable (s : EStream α) : Bool :=
  match s.fd with
  | none => false
  | some d => d.poll

def good : Prog (EStream α) Bool := fun s =>
  let s := if s.badbit = false ∧ s.readPastBuffer = true ∧ s.readable = false then
      { s with badbit := true }
    else s
  .ok (!s.badbit, s)

def saveUngot (s : EStream α) : Outcome (EStream α) :=
  if s.cursor ≠ 0 then
    match s.buffer[s.cursor - 1]? with
    | none => .undef
    | some el => .ok { s with ungotEl := el }
  else .ok s

def current (s : EStream α) : Outcome α :=
  if s.cursor = 0 ∧ s.ungot = true then .ok s.ungotEl
  else
    match s.buffer[s.cursor]? with
    | none => .undef
    | some el => .ok el

def refill : Prog (EStream α) Unit := fun s =>
  if s.readPastBuffer then s.saveUngot.bind fillBuffer else .ok ((), s)

def peek : Prog (EStream α) α := do
  if ← good then
    refill
    Prog.view current
  else
    Prog.raise "Read error. No more data in the stream to fill buffer."

def advance (s : EStream α) : EStream α :=
  if s.cursor = 0 ∧ s.ungot = true then { s with ungot := false }
  else { s with cursor := s.cursor + 1 }

def get : Prog (EStream α) α := do
  let el ← peek
  Prog.modify advance
  pure el

def unget (s : EStream α) : EStream α :=
  if s.cursor = 0 then { s with ungot := true } else { s with cursor := s.cursor - 1 }

instance : EStreamI (EStream α) α where
  get := get
  peek := peek
  good := good

/-- The `while` loop of `readEls` without a task; each turn reads at least one element. -/
def readElsLoop (n : Nat) : Nat → Nat → List α → Prog (EStream α) (List α)
  | 0, _, _ => Prog.spent
  | steps + 1, elsRead, data => fun s =>
    if elsRead < n then
      let elsLeftToRead := n - elsRead
      let elsLeftInBuffer := s.elsInBuffer - s.cursor
      if elsLeftToRead > elsLeftInBuffer then
        (fillBuffer >>= fun _ => readElsLoop n steps (elsRead + elsLeftInBuffer)
          (data ++ (s.buffer.drop s.cursor).take elsLeftInBuffer)) s
      else
        readElsLoop n steps (elsRead + elsLeftToRead)
          (data ++ (s.buffer.drop s.cursor).take elsLeftToRead)
          { s with cursor := s.cursor + elsLeftToRead }
    else .ok (data, s)

def readEls (n : Nat) : Prog (EStream α) (List α) := fun s =>
  if n = 0 then .thrown "It doesn't make sense to read zero els."
  else if n > arbitraryLimitBecauseDumb then
    .thrown ("You're reading more than the limit specified... " ++
      "Read less, or you know what, don't read at all.")
  else if s.readPastBuffer then
    (fillBuffer >>= fun _ => readElsLoop n (n + 1) 0 []) s
  else if s.cursor = 0 ∧ s.ungot = true then
    readElsLoop n (n + 1) 1 [s.ungotEl] { s with ungot := false }
  else
    readElsLoop n (n + 1) 0 [] s

/-! The invariant of a stream: what is left to read, in order, and where the pushback counts. -/

def unread (s : EStream α) : List (List α) :=
  match s.fd with
  | none => []
  | some d => d.chunks

def remaining (s : EStream α) : List α :=
  (if s.ungot then [s.ungotEl] else []) ++ s.buffer.drop s.cursor ++ s.unread.flatten

/-- `poll` answers readable exactly while the descriptor holds unread bytes, and each `::read`
answers with at least one byte and no more than fit. -/
structure WellFormed (s : EStream α) : Prop where
  poll : ∀ d, s.fd = some d → d.readableAtEof = false
  chunk : ∀ c ∈ s.unread, c ≠ [] ∧ c.length ≤ s.bufferSize
  els : s.elsInBuffer = s.buffer.length
  cursor : s.cursor ≤ s.elsInBuffer
  ungot : s.ungot = true → s.cursor = 0 ∧ 0 < s.elsInBuffer
  badbit : s.badbit = true → s.remaining = []

theorem WellFormed.ofBuffer [Inhabited α] (b : List α) : (ofBuffer b).WellFormed where
  poll := by simp [EStream.ofBuffer]
  chunk := by simp [EStream.ofBuffer, unread]
  els := rfl
  cursor := Nat.zero_le _
  ungot := by simp [EStream.ofBuffer]
  badbit := by simp [EStream.ofBuffer]

@[simp] theorem remaining_ofBuffer [Inhabited α] (b : List α) : (ofBuffer b).remaining = b := by
  simp [remaining, ofBuffer, unread]

theorem WellFormed.ungot_of_past {s : EStream α} (h : s.WellFormed)
    (hp : s.readPastBuffer = true) : s.ungot = false := by
  cases hu : s.ungot with
  | false => rfl
  | true =>
    obtain ⟨hc, he⟩ := h.ungot hu
    simp only [readPastBuffer, decide_eq_true_eq] at hp
    omega

theorem remaining_of_past {s : EStream α} (h : s.WellFormed) (hp : s.readPastBuffer = true) :
    s.remaining = s.unread.flatten := by
  have hlen : s.buffer.length ≤ s.cursor := by
    simp only [readPastBuffer, decide_eq_true_eq] at hp
    rw [← h.els]
    exact hp
  simp [remaining, h.ungot_of_past hp, List.drop_eq_nil_of_le hlen]

theorem unread_flatten_ne_nil {s : EStream α} (h : s.WellFormed) (hne : s.unread ≠ []) :
    s.unread.flatten ≠ [] := by
  obtain ⟨c, cs, hc⟩ := List.exists_cons_of_ne_nil hne
  have := (h.chunk c (by simp [hc])).1
  simp [hc, this]

theorem readable_iff {s : EStream α} (h : s.WellFormed) :
    s.readable = true ↔ s.unread ≠ [] := by
  cases hd : s.fd with
  | none => simp [readable, unread, hd]
  | some d => simp [readable, unread, hd, Descriptor.poll, h.poll d hd]

theorem cursor_lt_of_not_past {s : EStream α} (h : s.WellFormed)
    (hp : s.readPastBuffer = false) : s.cursor < s.buffer.length := by
  simp only [readPastBuffer, decide_eq_false_iff_not, Nat.not_le] at hp
  rw [← h.els]
  exact hp

theorem remaining_ne_nil_of_not_past {s : EStream α} (h : s.WellFormed)
    (hp : s.readPastBuffer = false) : s.remaining ≠ [] := by
  have hlt := cursor_lt_of_not_past h hp
  intro hr
  simp only [remaining, List.append_eq_nil_iff, List.drop_eq_nil_iff] at hr
  omega

theorem past_and_unreadable_iff {s : EStream α} (h : s.WellFormed) :
    s.readPastBuffer = true ∧ s.readable = false ↔ s.remaining = [] := by
  constructor
  · rintro ⟨hp, hr⟩
    have hu : s.unread = [] := by
      by_contra hne
      rw [(readable_iff h).mpr hne] at hr
      cases hr
    rw [remaining_of_past h hp, hu, List.flatten_nil]
  · intro hrem
    cases hp : s.readPastBuffer with
    | false => exact absurd hrem (remaining_ne_nil_of_not_past h hp)
    | true =>
      refine ⟨rfl, ?_⟩
      cases hr : s.readable with
      | false => rfl
      | true =>
        rw [remaining_of_past h hp] at hrem
        exact absurd hrem (unread_flatten_ne_nil h ((readable_iff h).mp hr))

theorem WellFormed.setBadbit {s : EStream α} (h : s.WellFormed) {b : Bool}
    (hb : b = true → s.remaining = []) : ({ s with badbit := b } : EStream α).WellFormed :=
  { poll := h.poll, chunk := h.chunk, els := h.els, cursor := h.cursor, ungot := h.ungot
    badbit := hb }

/-- `good` tells whether an element is left, and changes nothing but the flag. -/
theorem good_spec {s : EStream α} (h : s.WellFormed) :
    good s = .ok (!s.remaining.isEmpty, { s with badbit := s.remaining.isEmpty }) := by
  by_cases hrem : s.remaining = []
  · obtain ⟨hp, hr⟩ := (past_and_unreadable_iff h).mpr hrem
    cases hb : s.badbit with
    | true =>
      simp [good, hb, hrem]
      rw [← hb]
    | false => simp [good, hb, hp, hr, hrem]
  · have hb : s.badbit = false := by
      cases hb : s.badbit with
      | false => rfl
      | true => exact absurd (h.badbit hb) hrem
    have hn : ¬ (s.readPastBuffer = true ∧ s.readable = false) := fun hpr =>
      hrem ((past_and_unreadable_iff h).mp hpr)
    have hempty : s.remaining.isEmpty = false := by simpa using hrem
    simp only [good, hempty, hn, and_false, if_false, hb]
    rw [← hb]

/-- The stream after a read that answered with `chunk`. -/
def filled (s : EStream α) (chunk : List α) (d : Descriptor α) : EStream α :=
  { s with cursor := 0, buffer := chunk, elsInBuffer := chunk.length, fd := some d }

theorem fd_of_unread {s : EStream α} (h : s.unread ≠ []) :
    ∃ chunk chunks e, s.fd = some ⟨chunk :: chunks, e⟩ := by
  cases hd : s.fd with
  | none => simp [unread, hd] at h
  | some d =>
    obtain ⟨chunks, e⟩ := d
    cases chunks with
    | nil => simp [unread, hd] at h
    | cons chunk chunks => exact ⟨chunk, chunks, e, rfl⟩

section
variable {s : EStream α} {chunk : List α} {chunks : List (List α)} {e : Bool}

theorem fillBuffer_eq (h : s.WellFormed) (hfd : s.fd = some ⟨chunk :: chunks, e⟩) :
    fillBuffer s = .ok ((), s.filled chunk ⟨chunks, e⟩) := by
  obtain ⟨hne, hle⟩ := h.chunk chunk (by simp [unread, hfd])
  simp [fillBuffer, hfd, hne, filled, Nat.not_lt.mpr hle]

theorem WellFormed.filled (h : s.WellFormed) (hfd : s.fd = some ⟨chunk :: chunks, e⟩)
    (hu : s.ungot = false) (hb : s.badbit = false) :
    (s.filled chunk ⟨chunks, e⟩).WellFormed where
  poll := by
    rintro d hd
    obtain rfl : (⟨chunks, e⟩ : Descriptor α) = d := by simpa [EStream.filled] using hd
    simpa using h.poll _ hfd
  chunk := by
    intro c hc
    exact h.chunk c (by simp only [unread, hfd]; exact List.mem_cons_of_mem _ hc)
  els := rfl
  cursor := Nat.zero_le _
  ungot := by simp [EStream.filled, hu]
  badbit := by simp [EStream.filled, hb]

theorem remaining_filled (hfd : s.fd = some ⟨chunk :: chunks, e⟩) (hu : s.ungot = false) :
    (s.filled chunk ⟨chunks, e⟩).remaining = s.unread.flatten := by
  simp [remaining, filled, unread, hfd, hu]

theorem readPastBuffer_filled (h : s.WellFormed) (hfd : s.fd = some ⟨chunk :: chunks, e⟩) :
    (s.filled chunk ⟨chunks, e⟩).readPastBuffer = false := by
  have hne := (h.chunk chunk (by simp [unread, hfd])).1
  simpa [readPastBuffer, filled, List.length_pos_iff] using hne

end

/-- An `unget` now would bring back `el`. -/
structure Recoverable (s : EStream α) (el : α) : Prop where
  badbit : s.badbit = false
  atStart : s.cursor = 0 → s.ungot = false ∧ s.ungotEl = el ∧ 0 < s.elsInBuffer
  inside : s.cursor ≠ 0 → s.buffer[s.cursor - 1]? = some el

/-- The pushback element saved by a refill. -/
def saved (s : EStream α) (el : α) : EStream α := { s with ungotEl := el }

theorem WellFormed.saveUngot {s : EStream α} (h : s.WellFormed) :
    ∃ el, s.saveUngot = .ok (s.saved el) ∧
      (s.cursor ≠ 0 → s.buffer[s.cursor - 1]? = some el) := by
  by_cases hc : s.cursor = 0
  · refine ⟨s.ungotEl, ?_, fun hne => absurd hc hne⟩
    rw [EStream.saveUngot, if_neg (not_not.mpr hc)]
    rfl
  · have hlt : s.cursor - 1 < s.buffer.length := by
      have := h.cursor
      rw [h.els] at this
      omega
    refine ⟨s.buffer[s.cursor - 1], ?_, fun _ => List.getElem?_eq_getElem hlt⟩
    simp [EStream.saveUngot, saved, hc, List.getElem?_eq_getElem hlt]

theorem WellFormed.saved {s : EStream α} (h : s.WellFormed) (hb : s.badbit = false)
    (el : α) : (s.saved el).WellFormed :=
  { poll := h.poll, chunk := h.chunk, els := h.els, cursor := h.cursor, ungot := h.ungot
    badbit := by simp [EStream.saved, hb] }

theorem WellFormed.badbit_of_remaining {s : EStream α} (h : s.WellFormed)
    (hne : s.remaining ≠ []) : s.badbit = false := by
  cases hb : s.badbit with
  | false => rfl
  | true => exact absurd (h.badbit hb) hne

theorem refill_spec {s : EStream α} (h : s.WellFormed) (hne : s.remaining ≠ []) :
    ∃ s', refill s = .ok ((), s') ∧ s'.WellFormed ∧ s'.remaining = s.remaining ∧
      s'.readPastBuffer = false ∧ ∀ el, s.Recoverable el → s'.Recoverable el := by
  cases hp : s.readPastBuffer with
  | false => exact ⟨s, by simp [refill, hp], h, rfl, hp, fun _ hel => hel⟩
  | true =>
    have hu := h.ungot_of_past hp
    have hb := h.badbit_of_remaining hne
    have hrem := remaining_of_past h hp
    obtain ⟨chunk, chunks, e, hfd⟩ := fd_of_unread (s := s) (by
      intro hn
      rw [hrem, hn] at hne
      exact hne rfl)
    obtain ⟨last, hsave, hlast⟩ := h.saveUngot
    have h' := h.saved hb last
    refine ⟨(s.saved last).filled chunk ⟨chunks, e⟩, ?_, h'.filled hfd hu hb, ?_,
      readPastBuffer_filled h' hfd, ?_⟩
    · rw [refill, hp, hsave]
      exact fillBuffer_eq h' hfd
    · rw [hrem]
      exact remaining_filled (s := s.saved last) hfd hu
    · intro el hel
      have hcur : s.cursor ≠ 0 := by
        intro hz
        have := (hel.atStart hz).2.2
        simp only [readPastBuffer, decide_eq_true_eq] at hp
        omega
      have hlen : 0 < chunk.length := List.length_pos_iff.mpr (h.chunk chunk (by simp [unread, hfd])).1
      refine ⟨hb, fun _ => ⟨hu, ?_, hlen⟩, fun hz => absurd rfl hz⟩
      exact Option.some.inj ((hlast hcur).symm.trans (hel.inside hcur))

theorem current_spec {s : EStream α} (h : s.WellFormed) (hp : s.readPastBuffer = false) :
    ∃ el, s.current = .ok el ∧ s.remaining = el :: s.advance.remaining ∧
      s.advance.WellFormed ∧ s.advance.badbit = false ∧ s.advance.Recoverable el := by
  have hlt := cursor_lt_of_not_past h hp
  have hne := remaining_ne_nil_of_not_past h hp
  have hb := h.badbit_of_remaining hne
  by_cases hu : s.cursor = 0 ∧ s.ungot = true
  · have hadv : s.advance = { s with ungot := false } := by simp [advance, hu]
    rw [hadv]
    refine ⟨s.ungotEl, by simp [current, hu], by simp [remaining, hu, unread], ?_, hb, hb,
      fun _ => ⟨rfl, rfl, (h.ungot hu.2).2⟩, fun hz => absurd hu.1 hz⟩
    exact { poll := h.poll, chunk := h.chunk, els := h.els, cursor := h.cursor
            ungot := by simp, badbit := by simp [hb] }
  · have hug : s.ungot = false := by
      cases hug : s.ungot with
      | false => rfl
      | true => exact absurd ⟨(h.ungot hug).1, hug⟩ hu
    have hadv : s.advance = { s with cursor := s.cursor + 1 } := by simp [advance, hug]
    rw [hadv]
    refine ⟨s.buffer[s.cursor], ?_, ?_, ?_, hb, hb, fun hz => absurd hz (Nat.succ_ne_zero _), ?_⟩
    · simp [current, hug, List.getElem?_eq_getElem hlt]
    · simp only [remaining, hug]
      rw [List.drop_eq_getElem_cons hlt]
      rfl
    · exact { poll := h.poll, chunk := h.chunk, els := h.els
              cursor := by have := h.els; simp only; omega
              ungot := by simp [hug], badbit := by simp [hb] }
    · exact fun _ => List.getElem?_eq_getElem hlt

theorem peek_nil {s : EStream α} (h : s.WellFormed) (hrem : s.remaining = []) :
    peek s = .thrown "Read error. No more data in the stream to fill buffer." := by
  simp [peek, good_spec h, hrem]

/-- `peek` finds the next element, refilling the buffer if it has to, and leaves what an
`unget` would bring back. -/
theorem peek_spec {s : EStream α} (h : s.WellFormed) {a : α} {rest : List α}
    (hrem : s.remaining = a :: rest) :
    ∃ s', peek s = .ok (a, s') ∧ s'.WellFormed ∧ s'.remaining = a :: rest ∧
      s'.readPastBuffer = false ∧ ∀ el, s.Recoverable el → s'.Recoverable el := by
  have hne : s.remaining ≠ [] := by simp [hrem]
  have hb := h.badbit_of_remaining hne
  have hgood : good s = .ok (true, s) := by
    rw [good_spec h, hrem]
    simp only [List.isEmpty_cons, Bool.not_false]
    rw [← hb]
  obtain ⟨s', hs', h', hrem', hp', hel'⟩ := refill_spec h hne
  obtain ⟨el, hcur, hel, -⟩ := current_spec h' hp'
  obtain rfl : el = a := by
    rw [hrem', hrem] at hel
    exact (List.cons.inj hel).1.symm
  exact ⟨s', by simp [peek, hgood, hs', hcur], h', hrem'.trans hrem, hp', hel'⟩

theorem get_nil {s : EStream α} (h : s.WellFormed) (hrem : s.remaining = []) :
    get s = .thrown "Read error. No more data in the stream to fill buffer." := by
  simp [get, peek_nil h hrem]

theorem get_spec {s : EStream α} (h : s.WellFormed) {a : α} {rest : List α}
    (hrem : s.remaining = a :: rest) :
    ∃ s', get s = .ok (a, s') ∧ s'.WellFormed ∧ s'.remaining = rest ∧ s'.Recoverable a := by
  obtain ⟨s', hs', h', hrem', hp', -⟩ := peek_spec h hrem
  obtain ⟨el, -, hel, hadv, -, hrec⟩ := current_spec h' hp'
  obtain ⟨rfl, hrest⟩ := List.cons.inj (hrem'.symm.trans hel)
  exact ⟨s'.advance, by simp [get, hs'], hadv, hrest.symm, hrec⟩

theorem unget_spec {s : EStream α} (h : s.WellFormed) {a : α} (ha : s.Recoverable a) :
    s.unget.WellFormed ∧ s.unget.remaining = a :: s.remaining := by
  by_cases hc : s.cursor = 0
  · obtain ⟨hu, hel, hlen⟩ := ha.atStart hc
    have hun : s.unget = { s with ungot := true } := by simp [unget, hc]
    rw [hun]
    refine ⟨?_, by simp [remaining, hu, hel, unread]⟩
    exact { poll := h.poll, chunk := h.chunk, els := h.els, cursor := h.cursor
            ungot := fun _ => ⟨hc, hlen⟩, badbit := by simp [ha.badbit] }
  · have hu : s.ungot = false := by
      cases hu : s.ungot with
      | false => rfl
      | true => exact absurd (h.ungot hu).1 hc
    have hun : s.unget = { s with cursor := s.cursor - 1 } := by simp [unget, hc]
    rw [hun]
    constructor
    · exact { poll := h.poll, chunk := h.chunk, els := h.els
              cursor := Nat.le_trans (Nat.sub_le _ _) h.cursor
              ungot := by simp [hu], badbit := by simp [ha.badbit] }
    · obtain ⟨hlt, hget⟩ := List.getElem?_eq_some_iff.mp (ha.inside hc)
      have hdrop : s.buffer.drop (s.cursor - 1) = a :: s.buffer.drop s.cursor := by
        rw [List.drop_eq_getElem_cons hlt, hget, Nat.sub_add_cancel (Nat.pos_of_ne_zero hc)]
      simp [remaining, hu, unread, hdrop]

/-- Within the buffer, `readEls` moves the cursor over `k` elements. -/
theorem skip_spec {s : EStream α} (h : s.WellFormed) (hu : s.ungot = false)
    (hb : s.badbit = false) {k : Nat} (hk : k ≤ s.buffer.length - s.cursor) :
    ({ s with cursor := s.cursor + k } : EStream α).WellFormed ∧
      (s.buffer.drop s.cursor).take k = s.remaining.take k ∧
      ({ s with cursor := s.cursor + k } : EStream α).remaining = s.remaining.drop k := by
  have hcur : s.cursor ≤ s.buffer.length := h.els ▸ h.cursor
  have hlen : k ≤ (s.buffer.drop s.cursor).length := by simpa using hk
  refine ⟨?_, ?_, ?_⟩
  · exact { poll := h.poll, chunk := h.chunk, els := h.els
            cursor := by have := h.els; simp only; omega
            ungot := by simp [hu], badbit := by simp [hb] }
  · simp only [remaining, hu]
    exact (List.take_append_of_le_length hlen).symm
  · have hdrop : s.buffer.drop (s.cursor + k) = (s.buffer.drop s.cursor).drop k :=
      List.drop_drop.symm
    simp only [remaining, hu, hdrop]
    exact (List.drop_append_of_le_length hlen).symm

theorem readElsLoop_spec {n : Nat} (steps elsRead : Nat) (data : List α) {s : EStream α}
    (h : s.WellFormed) (hu : s.ungot = false) (hb : s.badbit = false)
    (hpast : elsRead < n → s.readPastBuffer = false)
    (hle : n - elsRead ≤ s.remaining.length) (hsteps : n - elsRead < steps) :
    ∃ s', readElsLoop n steps elsRead data s =
        .ok (data ++ s.remaining.take (n - elsRead), s') ∧
      s'.WellFormed ∧ s'.remaining = s.remaining.drop (n - elsRead) := by
  induction steps generalizing elsRead data s with
  | zero => omega
  | succ steps ih =>
    by_cases hdone : elsRead < n
    · have hlt := cursor_lt_of_not_past h (hpast hdone)
      have hrem : s.remaining = s.buffer.drop s.cursor ++ s.unread.flatten := by
        simp [remaining, hu]
      have hlen : s.remaining.length = s.buffer.length - s.cursor + s.unread.flatten.length := by
        simp [hrem]
      by_cases hmore : n - elsRead > s.elsInBuffer - s.cursor
      · -- the buffer is used up and filled again
        rw [h.els] at hmore
        obtain ⟨chunk, chunks, e, hfd⟩ := fd_of_unread (s := s) (by
          intro hn
          rw [hn] at hlen
          simp only [List.flatten_nil, List.length_nil] at hlen
          omega)
        have hrem' := remaining_filled hfd hu
        obtain ⟨s', hs', h', hd'⟩ := ih (elsRead + (s.buffer.length - s.cursor))
          (data ++ s.buffer.drop s.cursor) (h.filled hfd hu hb) hu hb
          (fun _ => readPastBuffer_filled h hfd) (by rw [hrem']; omega) (by omega)
        have hsub : n - (elsRead + (s.buffer.length - s.cursor)) =
            n - elsRead - (s.buffer.length - s.cursor) := by omega
        refine ⟨s', ?_, h', ?_⟩
        · have hall : (s.buffer.drop s.cursor).take (n - elsRead) = s.buffer.drop s.cursor :=
            List.take_of_length_le (by simp only [List.length_drop]; omega)
          have hstep : readElsLoop n (steps + 1) elsRead data s =
              readElsLoop n steps (elsRead + (s.buffer.length - s.cursor))
                (data ++ s.buffer.drop s.cursor) (s.filled chunk ⟨chunks, e⟩) := by
            have hbuf : (s.buffer.drop s.cursor).take (s.buffer.length - s.cursor) =
                s.buffer.drop s.cursor := List.take_of_length_le (by simp)
            simp [readElsLoop, hdone, h.els, hmore, fillBuffer_eq h hfd, hbuf]
          rw [hstep, hs', hrem', hrem, List.take_append, hall, hsub]
          simp
        · have hskip : (s.buffer.drop s.cursor).drop (n - elsRead) = [] :=
            List.drop_eq_nil_of_le (by simp; omega)
          rw [hd', hrem', hrem, List.drop_append, List.length_drop, hsub, hskip, List.nil_append]
      · rw [h.els] at hmore
        obtain ⟨h', htake, hdrop⟩ := skip_spec h hu hb (Nat.not_lt.mp hmore)
        obtain ⟨s', hs', h'', hd'⟩ := ih (elsRead + (n - elsRead))
          (data ++ s.remaining.take (n - elsRead)) h' hu hb (by omega) (by omega) (by omega)
        refine ⟨s', ?_, h'', ?_⟩
        · have hstep : readElsLoop n (steps + 1) elsRead data s =
              readElsLoop n steps (elsRead + (n - elsRead)) (data ++ s.remaining.take (n - elsRead))
                { s with cursor := s.cursor + (n - elsRead) } := by
            simp [readElsLoop, hdone, h.els, hmore, htake]
          rw [hstep, hs', Nat.add_sub_cancel' (Nat.le_of_lt hdone)]
          simp
        · rw [hd', hdrop, Nat.add_sub_cancel' (Nat.le_of_lt hdone)]
          simp
    · refine ⟨s, ?_, h, ?_⟩
      · have hz : n - elsRead = 0 := by omega
        simp [readElsLoop, hdone, hz]
      · have hz : n - elsRead = 0 := by omega
        simp [hz]

/-- `readEls` returns the next `n` elements, whatever lies in the buffer and in the pushback. -/
theorem readEls_spec {n : Nat} (hn : 1 ≤ n) (hlimit : n ≤ arbitraryLimitBecauseDumb)
    {s : EStream α} (h : s.WellFormed) (hle : n ≤ s.remaining.length) :
    ∃ s', readEls n s = .ok (s.remaining.take n, s') ∧ s'.WellFormed ∧
      s'.remaining = s.remaining.drop n := by
  have hne : s.remaining ≠ [] := by
    intro hnil
    simp only [hnil, List.length_nil] at hle
    omega
  have hb := h.badbit_of_remaining hne
  have hz : n ≠ 0 := by omega
  have hlim : ¬ n > arbitraryLimitBecauseDumb := by omega
  cases hp : s.readPastBuffer with
  | true =>
    have hu := h.ungot_of_past hp
    have hrem := remaining_of_past h hp
    obtain ⟨chunk, chunks, e, hfd⟩ := fd_of_unread (s := s) (by
      intro hnil
      rw [hrem, hnil] at hne
      exact hne rfl)
    have hrem' := remaining_filled hfd hu
    obtain ⟨s', hs', h', hd'⟩ := readElsLoop_spec (n + 1) 0 [] (h.filled hfd hu hb) hu hb
      (fun _ => readPastBuffer_filled h hfd) (by rw [hrem', ← hrem]; omega) (by omega)
    rw [hrem', ← hrem] at hs' hd'
    refine ⟨s', ?_, h', by simpa using hd'⟩
    simpa [readEls, hz, hlim, hp, fillBuffer_eq h hfd] using hs'
  | false =>
    by_cases hu : s.cursor = 0 ∧ s.ungot = true
    · have h₁ : ({ s with ungot := false } : EStream α).WellFormed :=
        { poll := h.poll, chunk := h.chunk, els := h.els, cursor := h.cursor
          ungot := by simp, badbit := by simp [hb] }
      have hrem : s.remaining = s.ungotEl :: ({ s with ungot := false } : EStream α).remaining := by
        simp [remaining, hu, unread]
      obtain ⟨m, rfl⟩ : ∃ m, n = m + 1 := ⟨n - 1, by omega⟩
      obtain ⟨s', hs', h', hd'⟩ := readElsLoop_spec (n := m + 1) (m + 2) 1 [s.ungotEl] h₁ rfl hb
        (fun _ => hp) (by rw [hrem] at hle; simp only [List.length_cons] at hle; omega) (by omega)
      refine ⟨s', ?_, h', ?_⟩
      · rw [hrem, List.take_succ_cons]
        simpa [readEls, hlim, hp, hu] using hs'
      · rw [hd', hrem]
        simp
    · have hug : s.ungot = false := by
        cases hug : s.ungot with
        | false => rfl
        | true => exact absurd ⟨(h.ungot hug).1, hug⟩ hu
      obtain ⟨s', hs', h', hd'⟩ := readElsLoop_spec (n + 1) 0 [] h hug hb (fun _ => hp)
        (by omega) (by omega)
      refine ⟨s', ?_, h', by simpa using hd'⟩
      simpa [readEls, hz, hlim, hp, hug] using hs'

end EStream
end WylesLibs.Stream
