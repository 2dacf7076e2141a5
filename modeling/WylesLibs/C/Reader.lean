import WylesLibs.Library.Loops
import WylesLibs.Library.Links

/-! The reader of `c/reader.c`. The array that a call builds is only appended to: it is the list of
its bytes here. -/
namespace WylesLibs.C
open Library

/-- What the next calls of `read` put in the buffer, and whether those after them report an error,
or the end of the file. -/
structure Fd where
  chunks : List (List UInt8)
  failed : Bool

structure Reader where
  fd : Fd
  buf : List UInt8
  bufSize : Nat
  cursor : Nat
  bytesInBuffer : Nat

def Fd.read (fd : Fd) : Int × List UInt8 × Fd :=
  match fd.chunks with
  | [] => (if fd.failed = true then -1 else 0, [], fd)
  | chunk :: chunks => (chunk.length, chunk, { fd with chunks })

def readerInitialize (buf : List UInt8) (fd : Fd) (bufSize : Nat) : Reader :=
  { fd, buf, bufSize, cursor := 0, bytesInBuffer := 0 }

def fillBuffer (r : Reader) : Int × Reader :=
  let (ret, chunk, fd) := r.fd.read
  (ret, { r with
    fd, cursor := 0, buf := chunk ++ r.buf.drop chunk.length,
    bytesInBuffer := if ret = -1 ∨ ret.toNat > r.bufSize then 0 else ret.toNat })

def cursorCheck (r : Reader) : Bool × Reader :=
  if r.cursor ≥ r.bytesInBuffer then
    let (ret, r) := fillBuffer r
    (decide (¬ ret < 1), r)
  else (true, r)

/-- Accesses of the buffer. -/
def load (buf : List UInt8) (i : Nat) : Outcome UInt8 :=
  match buf[i]? with
  | some c => .ok c
  | none => .undef

def slice (buf : List UInt8) (start count : Nat) : Outcome (List UInt8) :=
  if start + count ≤ buf.length then .ok ((buf.drop start).take count) else (.undef)

/-- The locals of `reader_read_bytes`. -/
structure ReadingBytes where
  reader : Reader
  data : List UInt8
  bytesRead : Nat

/-- What a call returns, if not `NULL`, and the reader after it. -/
abbrev Returned := Option (List UInt8) × Reader

def readBytesTurn (n : Nat) (s : ReadingBytes) : Outcome (ReadingBytes ⊕ Returned) :=
  if s.bytesRead < n then
    let r := s.reader
    let bytesLeftToRead := n - s.bytesRead
    let bytesLeftInBuffer := r.bytesInBuffer - r.cursor
    if bytesLeftToRead > bytesLeftInBuffer then
      (slice r.buf r.cursor bytesLeftInBuffer).bind fun bytes =>
        let (ret, r) := fillBuffer r
        if ret = -1 then .ok (.inr (none, r))
        else .ok (.inl ⟨r, s.data ++ bytes, s.bytesRead + bytesLeftInBuffer⟩)
    else
      (slice r.buf r.cursor bytesLeftToRead).bind fun bytes =>
        .ok (.inl ⟨{ r with cursor := r.cursor + bytesLeftToRead }, s.data ++ bytes,
          s.bytesRead + bytesLeftToRead⟩)
  else .ok (.inr (some (s.data ++ [0]), s.reader))

def readerReadBytes (fuel n : Nat) (r : Reader) : Outcome Returned :=
  let (checked, r) := cursorCheck r
  if checked = true then whileLoop (readBytesTurn n) fuel ⟨r, [], 0⟩ else .ok (none, r)

/-- The locals of `reader_read_until`. -/
structure ReadingUntil where
  reader : Reader
  data : List UInt8
  startCursor : Nat
  c : UInt8

/-- `c == until`, where both are promoted to `int` and `char` is signed. -/
def isUntil (until_ : Int8) (c : UInt8) : Bool := (c.toNat : Int) == until_.toInt

def readUntilTurn (until_ : Int8) (s : ReadingUntil) : Outcome (ReadingUntil ⊕ Returned) :=
  let r := s.reader
  if isUntil until_ s.c = true then
    (slice r.buf s.startCursor (r.cursor + 1 - s.startCursor)).bind fun bytes =>
      .ok (.inr (some (s.data ++ bytes ++ [0]), { r with cursor := r.cursor + 1 }))
  else if r.cursor = r.bytesInBuffer then
    (slice r.buf s.startCursor (r.bytesInBuffer - s.startCursor)).bind fun bytes =>
      let (ret, r) := fillBuffer r
      if ret = -1 then .ok (.inr (none, r))
      else
        (load r.buf (r.cursor + 1)).bind fun c =>
          .ok (.inl ⟨{ r with cursor := r.cursor + 1 }, s.data ++ bytes, r.cursor, c⟩)
  else
    (load r.buf (r.cursor + 1)).bind fun c =>
      .ok (.inl ⟨{ r with cursor := r.cursor + 1 }, s.data, s.startCursor, c⟩)

def readerReadUntil (fuel : Nat) (until_ : Int8) (r : Reader) : Outcome Returned :=
  let (checked, r) := cursorCheck r
  if checked = true then
    (load r.buf r.cursor).bind fun c =>
      whileLoop (readUntilTurn until_) fuel ⟨r, [], r.cursor, c⟩
  else .ok (none, r)

inductive ReaderCall where
  | readUntil (until_ : Int8)
  | readBytes (n : Nat)

namespace ReaderCall

def onReader (fuel : Nat) : ReaderCall → Reader → Outcome Returned
  | readUntil until_ => readerReadUntil fuel until_
  | readBytes n => readerReadBytes fuel n

/-- The bytes that the call is for, and the data after them, if there is enough data. -/
def onData : ReaderCall → List UInt8 → Option (List UInt8 × List UInt8)
  | readUntil until_, l =>
      (l.findIdx? (· == until_.toUInt8)).map fun i => (l.take (i + 1), l.drop (i + 1))
  | readBytes n, l => if n ≤ l.length then some (l.take n, l.drop n) else none

end ReaderCall

/-- The data that has not been read: first what is left in the buffer. -/
def Reader.remaining (r : Reader) : List UInt8 :=
  (r.buf.take r.bytesInBuffer).drop r.cursor ++ r.fd.chunks.flatten

/-- The result that a call should have: the bytes and a `NUL`, or `NULL` without enough data. -/
def Expected (next : Option (List UInt8 × List UInt8)) (returned : Returned) : Prop :=
  match next with
  | some (bytes, rest) => returned.1 = some (bytes ++ [0]) ∧ returned.2.remaining = rest
  | none => returned.1 = none

/-- The call ends, after some number of turns of its loop. -/
def Returns (call : ReaderCall) (r : Reader) (returned : Returned) : Prop :=
  ∃ fuel, call.onReader fuel r = .ok returned

/-- The call ends with what it should return, whatever chunks the data is read in. -/
def Right (call : ReaderCall) (r : Reader) : Prop :=
  ∃ returned, Returns call r returned ∧ Expected (call.onData r.remaining) returned

/-- The buffer has its size, and is never asked to hold more. -/
structure WellFormed (r : Reader) : Prop where
  length : r.buf.length = r.bufSize
  bytes : r.bytesInBuffer ≤ r.bufSize
  chunks : ∀ chunk ∈ r.fd.chunks, chunk ≠ [] ∧ chunk.length ≤ r.bufSize

/-- The reader with a further chunk in its buffer. -/
def Reader.refilled (r : Reader) (chunk : List UInt8) (chunks : List (List UInt8)) : Reader :=
  { r with
    fd := { r.fd with chunks }, cursor := 0, buf := chunk ++ r.buf.drop chunk.length,
    bytesInBuffer := chunk.length }

/-- The reader with nothing in its buffer. -/
def Reader.emptied (r : Reader) : Reader := { r with cursor := 0, bytesInBuffer := 0 }

section
variable {r r' : Reader} {chunk : List UInt8} {chunks : List (List UInt8)}

theorem fillBuffer_chunk (h : WellFormed r) (hchunks : r.fd.chunks = chunk :: chunks) :
    fillBuffer r = ((chunk.length : Int), r.refilled chunk chunks) := by
  have hlength := (h.chunks chunk (hchunks ▸ List.mem_cons_self)).2
  simp [fillBuffer, Fd.read, hchunks, Reader.refilled]
  omega

theorem fillBuffer_nil (hchunks : r.fd.chunks = []) :
    fillBuffer r = (if r.fd.failed = true then -1 else 0, r.emptied) := by
  cases hfailed : r.fd.failed with
  | true => simp [fillBuffer, Fd.read, hchunks, hfailed, Reader.emptied]
  | false => simp [fillBuffer, Fd.read, hchunks, hfailed, Reader.emptied]

theorem WellFormed.refilled (h : WellFormed r) (hchunks : r.fd.chunks = chunk :: chunks) :
    WellFormed (r.refilled chunk chunks) := by
  have hlength := (h.chunks chunk (hchunks ▸ List.mem_cons_self)).2
  constructor
  · simp only [Reader.refilled, List.length_append, List.length_drop, h.length]
    omega
  · exact hlength
  · intro c hc
    exact h.chunks c (hchunks ▸ List.mem_cons_of_mem _ hc)

theorem remaining_refilled (r : Reader) (chunk : List UInt8) (chunks : List (List UInt8)) :
    (r.refilled chunk chunks).remaining = chunk ++ chunks.flatten := by
  simp [Reader.remaining, Reader.refilled]

theorem WellFormed.emptied (h : WellFormed r) : WellFormed r.emptied :=
  ⟨h.length, Nat.zero_le _, h.chunks⟩

theorem cursorCheck_of_lt (h : r.cursor < r.bytesInBuffer) : cursorCheck r = (true, r) :=
  if_neg (Nat.not_le.mpr h)

theorem cursorCheck_chunk (h : WellFormed r) (hcursor : r.bytesInBuffer ≤ r.cursor)
    (hchunks : r.fd.chunks = chunk :: chunks) :
    cursorCheck r = (true, r.refilled chunk chunks) := by
  have hne := (h.chunks chunk (hchunks ▸ List.mem_cons_self)).1
  have hpos := List.length_pos_iff.mpr hne
  rw [cursorCheck, if_pos hcursor, fillBuffer_chunk h hchunks]
  have hret : ¬ (chunk.length : Int) < 1 := by omega
  simp [hret]

theorem cursorCheck_nil (hcursor : r.bytesInBuffer ≤ r.cursor) (hchunks : r.fd.chunks = []) :
    cursorCheck r = (false, r.emptied) := by
  rw [cursorCheck, if_pos hcursor, fillBuffer_nil hchunks]
  cases r.fd.failed with
  | true => rfl
  | false => rfl

theorem remaining_of_le (hcursor : r.bytesInBuffer ≤ r.cursor) :
    r.remaining = r.fd.chunks.flatten := by
  rw [Reader.remaining, List.drop_eq_nil_of_le, List.nil_append]
  rw [List.length_take]
  omega

/-- There is data to read just if the cursor can be put on it. -/
theorem cursorCheck_cases (h : WellFormed r) :
    r.remaining = [] ∧ cursorCheck r = (false, r.emptied) ∨
      ∃ r', cursorCheck r = (true, r') ∧ WellFormed r' ∧ r'.cursor < r'.bytesInBuffer ∧
        r'.remaining = r.remaining ∧ r'.fd.failed = r.fd.failed ∧ r.remaining ≠ [] := by
  by_cases hcursor : r.cursor < r.bytesInBuffer
  · refine Or.inr ⟨r, cursorCheck_of_lt hcursor, h, hcursor, rfl, rfl, ?_⟩
    intro hnil
    rw [Reader.remaining, List.append_eq_nil_iff, List.drop_eq_nil_iff, List.length_take,
      h.length] at hnil
    have hbytes := h.bytes
    omega
  · have hle : r.bytesInBuffer ≤ r.cursor := Nat.not_lt.mp hcursor
    cases hchunks : r.fd.chunks with
    | nil =>
      refine Or.inl ⟨?_, cursorCheck_nil hle hchunks⟩
      rw [remaining_of_le hle, hchunks]
      rfl
    | cons chunk chunks =>
      have hne := (h.chunks chunk (hchunks ▸ List.mem_cons_self)).1
      have hrem : r.remaining = chunk ++ chunks.flatten := by
        rw [remaining_of_le hle, hchunks]
        rfl
      refine Or.inr ⟨_, cursorCheck_chunk h hle hchunks, h.refilled hchunks,
        List.length_pos_iff.mpr hne, (remaining_refilled _ _ _).trans hrem.symm, rfl, ?_⟩
      rw [hrem]
      simp [hne]

end

/-! Reading a number of bytes. -/

section
variable {r : Reader} {data : List UInt8} {n k m : Nat}

theorem slice_eq {buf : List UInt8} {start count : Nat} (h : start + count ≤ buf.length) :
    slice buf start count = .ok ((buf.drop start).take count) := if_pos h

/-- The bytes that are left in the buffer. -/
def Reader.inBuffer (r : Reader) : List UInt8 := (r.buf.take r.bytesInBuffer).drop r.cursor

theorem remaining_eq (r : Reader) : r.remaining = r.inBuffer ++ r.fd.chunks.flatten := rfl

theorem WellFormed.length_inBuffer (h : WellFormed r) :
    r.inBuffer.length = r.bytesInBuffer - r.cursor := by
  have hlength := h.length
  have hbytes := h.bytes
  rw [Reader.inBuffer, List.length_drop, List.length_take]
  omega

theorem WellFormed.slice_cursor (h : WellFormed r) (hcursor : r.cursor ≤ r.bytesInBuffer)
    (hm : m ≤ r.bytesInBuffer - r.cursor) :
    slice r.buf r.cursor m = .ok (r.inBuffer.take m) := by
  have hlength := h.length
  have hbytes := h.bytes
  rw [slice_eq (by omega), Reader.inBuffer, List.drop_take, List.take_take, Nat.min_eq_left hm]

theorem drop_inBuffer (r : Reader) (m : Nat) :
    ({ r with cursor := r.cursor + m } : Reader).inBuffer = r.inBuffer.drop m := by
  rw [Reader.inBuffer, Reader.inBuffer, List.drop_drop]

theorem readBytesTurn_done (h : n ≤ k) :
    readBytesTurn n ⟨r, data, k⟩ = .ok (.inr (some (data ++ [0]), r)) :=
  if_neg (Nat.not_lt.mpr h)

/-- The last turns, when there are enough bytes in the buffer. -/
theorem readBytes_in_buffer (h : WellFormed r) (hcursor : r.cursor ≤ r.bytesInBuffer)
    (hn : n - k ≤ r.bytesInBuffer - r.cursor) :
    ∃ r', LeavesWith (readBytesTurn n) ⟨r, data, k⟩
        (some (data ++ r.inBuffer.take (n - k) ++ [0]), r') ∧
      r'.remaining = r.inBuffer.drop (n - k) ++ r.fd.chunks.flatten := by
  by_cases hk : k < n
  · have hturn : readBytesTurn n ⟨r, data, k⟩ =
        .ok (.inl ⟨{ r with cursor := r.cursor + (n - k) }, data ++ r.inBuffer.take (n - k),
          k + (n - k)⟩) := by
      rw [readBytesTurn, if_pos hk]
      simp only [gt_iff_lt, if_neg (Nat.not_lt.mpr hn), h.slice_cursor hcursor hn,
        Outcome.bind_ok]
    have hlast : n ≤ k + (n - k) := by omega
    refine ⟨{ r with cursor := r.cursor + (n - k) }, ?_, ?_⟩
    · rw [leavesWith_of_next hturn, leavesWith_of_leave (readBytesTurn_done hlast)]
    · rw [remaining_eq, drop_inBuffer]
  · have hzero : n - k = 0 := by omega
    refine ⟨r, ?_, ?_⟩
    · rw [leavesWith_of_leave (readBytesTurn_done (Nat.not_lt.mp hk)), hzero, List.take_zero,
        List.append_nil]
    · rw [hzero, List.drop_zero, remaining_eq]

/-- A turn that empties the buffer, and goes on with the next chunk. -/
theorem readBytesTurn_chunk (h : WellFormed r) (hcursor : r.cursor ≤ r.bytesInBuffer)
    (hn : r.bytesInBuffer - r.cursor < n - k) {chunk : List UInt8} {chunks : List (List UInt8)}
    (hchunks : r.fd.chunks = chunk :: chunks) :
    readBytesTurn n ⟨r, data, k⟩ =
      .ok (.inl ⟨r.refilled chunk chunks, data ++ r.inBuffer, k + r.inBuffer.length⟩) := by
  have hret : (chunk.length : Int) ≠ -1 := by omega
  have hslice := h.slice_cursor hcursor le_rfl
  rw [← h.length_inBuffer, List.take_length] at hslice
  rw [← h.length_inBuffer] at hn
  rw [readBytesTurn, if_pos (by omega : k < n)]
  simp only [gt_iff_lt, ← h.length_inBuffer, if_pos hn, hslice, Outcome.bind_ok,
    fillBuffer_chunk h hchunks, if_neg hret]

/-- The loop reads on to the end of the call, if the data goes that far. -/
theorem readBytes_ends (h : WellFormed r) (hcursor : r.cursor ≤ r.bytesInBuffer)
    (hn : n - k ≤ r.remaining.length) :
    ∃ r', LeavesWith (readBytesTurn n) ⟨r, data, k⟩
        (some (data ++ r.remaining.take (n - k) ++ [0]), r') ∧
      r'.remaining = r.remaining.drop (n - k) := by
  induction hchunks : r.fd.chunks generalizing r data k with
  | nil =>
    have hrem : r.remaining = r.inBuffer := by
      rw [remaining_eq, hchunks, List.flatten_nil, List.append_nil]
    rw [hrem, h.length_inBuffer] at hn
    obtain ⟨r', hleaves, hrest⟩ := @readBytes_in_buffer r data n k h hcursor hn
    refine ⟨r', hrem ▸ hleaves, ?_⟩
    rw [hrest, hchunks, hrem, List.flatten_nil, List.append_nil]
  | cons chunk chunks ih =>
    by_cases hbuf : n - k ≤ r.bytesInBuffer - r.cursor
    · obtain ⟨r', hleaves, hrest⟩ := @readBytes_in_buffer r data n k h hcursor hbuf
      rw [← h.length_inBuffer] at hbuf
      refine ⟨r', ?_, ?_⟩
      · rwa [remaining_eq, List.take_append_of_le_length hbuf]
      · rw [hrest, remaining_eq, List.drop_append_of_le_length hbuf]
    · have hlt : r.bytesInBuffer - r.cursor < n - k := Nat.not_le.mp hbuf
      have hturn := @readBytesTurn_chunk r data n k h hcursor hlt chunk chunks hchunks
      have hrem : r.remaining = r.inBuffer ++ (r.refilled chunk chunks).remaining := by
        rw [remaining_eq, remaining_refilled, hchunks]
        rfl
      have hk : n - (k + r.inBuffer.length) = n - k - r.inBuffer.length := by omega
      rw [← h.length_inBuffer] at hlt
      have hn' : n - (k + r.inBuffer.length) ≤ (r.refilled chunk chunks).remaining.length := by
        rw [hrem, List.length_append] at hn
        omega
      obtain ⟨r', hleaves, hrest⟩ := @ih (r.refilled chunk chunks) (data ++ r.inBuffer)
        (k + r.inBuffer.length) (h.refilled hchunks) (Nat.zero_le _) hn' rfl
      refine ⟨r', ?_, ?_⟩
      · rw [leavesWith_of_next hturn, hrem, List.take_append, List.take_of_length_le hlt.le,
          ← hk, ← List.append_assoc]
        exact hleaves
      · rw [hrest, hrem, List.drop_append, List.drop_of_length_le hlt.le, hk]
        rfl

/-- A turn that empties the buffer at the end of the data. -/
theorem readBytesTurn_end (h : WellFormed r) (hcursor : r.cursor ≤ r.bytesInBuffer)
    (hn : r.bytesInBuffer - r.cursor < n - k) (hchunks : r.fd.chunks = []) :
    readBytesTurn n ⟨r, data, k⟩ =
      .ok (if r.fd.failed = true then .inr (none, r.emptied)
        else .inl ⟨r.emptied, data ++ r.inBuffer, k + r.inBuffer.length⟩) := by
  have hslice := h.slice_cursor hcursor le_rfl
  rw [← h.length_inBuffer, List.take_length] at hslice
  rw [← h.length_inBuffer] at hn
  rw [readBytesTurn, if_pos (by omega : k < n)]
  simp only [gt_iff_lt, ← h.length_inBuffer, if_pos hn, hslice, Outcome.bind_ok,
    fillBuffer_nil hchunks]
  cases r.fd.failed with
  | true => rfl
  | false => rfl

/-- Without enough data the loop leaves on an error, and on the end of the file goes round. -/
theorem readBytes_short (h : WellFormed r) (hcursor : r.cursor ≤ r.bytesInBuffer)
    (hn : r.remaining.length < n - k) :
    (r.fd.failed = true → ∃ r', LeavesWith (readBytesTurn n) ⟨r, data, k⟩ (none, r')) ∧
      (r.fd.failed = false → ∀ returned, ¬ LeavesWith (readBytesTurn n) ⟨r, data, k⟩ returned) := by
  induction hchunks : r.fd.chunks generalizing r data k with
  | nil =>
    have hrem : r.remaining = r.inBuffer := by
      rw [remaining_eq, hchunks, List.flatten_nil, List.append_nil]
    rw [hrem, h.length_inBuffer] at hn
    constructor
    · intro hfailed
      have hturn := @readBytesTurn_end r data n k h hcursor hn hchunks
      rw [if_pos hfailed] at hturn
      exact ⟨r.emptied, (leavesWith_of_leave hturn).mpr rfl⟩
    · intro hfailed returned
      -- from here on every turn finds the buffer empty, and reads nothing
      apply not_leavesWith (I := fun s => WellFormed s.reader ∧ s.reader.fd = r.fd ∧
        s.reader.cursor ≤ s.reader.bytesInBuffer ∧
        s.reader.bytesInBuffer - s.reader.cursor < n - s.bytesRead)
      · intro s hcase
        obtain ⟨t, data, k⟩ := s
        obtain ⟨hwell, hfd, hle, hlt⟩ := hcase
        have hturn := @readBytesTurn_end t data n k hwell hle hlt (hfd ▸ hchunks)
        rw [hfd, hfailed] at hturn
        refine ⟨_, hturn, hwell.emptied, hfd, Nat.zero_le _, ?_⟩
        have hlength := hwell.length_inBuffer
        simp only [Reader.emptied] at *
        omega
      · exact ⟨h, rfl, hcursor, hn⟩
  | cons chunk chunks ih =>
    have hrem : r.remaining = r.inBuffer ++ (r.refilled chunk chunks).remaining := by
      rw [remaining_eq, remaining_refilled, hchunks]
      rfl
    rw [hrem, List.length_append] at hn
    have hlt : r.bytesInBuffer - r.cursor < n - k := by
      rw [← h.length_inBuffer]
      omega
    have hturn := @readBytesTurn_chunk r data n k h hcursor hlt chunk chunks hchunks
    have hrest := @ih (r.refilled chunk chunks) (data ++ r.inBuffer) (k + r.inBuffer.length)
      (h.refilled hchunks) (Nat.zero_le _) (by omega) rfl
    simp only [leavesWith_of_next hturn]
    exact hrest

theorem returns_readBytes_none (hcheck : cursorCheck r = (false, r.emptied))
    (returned : Returned) : Returns (.readBytes n) r returned ↔ returned = (none, r.emptied) := by
  have hcall : ∀ fuel, readerReadBytes fuel n r = .ok (none, r.emptied) := by
    intro fuel
    rw [readerReadBytes, hcheck]
    rfl
  simp [Returns, ReaderCall.onReader, hcall, eq_comm]

theorem returns_readBytes {r' : Reader} (hcheck : cursorCheck r = (true, r'))
    (returned : Returned) :
    Returns (.readBytes n) r returned ↔ LeavesWith (readBytesTurn n) ⟨r', [], 0⟩ returned := by
  have hcall : ∀ fuel, readerReadBytes fuel n r = whileLoop (readBytesTurn n) fuel ⟨r', [], 0⟩ := by
    intro fuel
    rw [readerReadBytes, hcheck]
    rfl
  simp [Returns, ReaderCall.onReader, hcall, LeavesWith]

/-- The next `n` bytes are read as they should be just if there is data left, and enough of it or
an error after it; or if there is none left for a call that wants some. -/
theorem right_readBytes_iff (h : WellFormed r) (n : Nat) :
    Right (.readBytes n) r ↔
      if r.remaining = [] then n ≠ 0 else n ≤ r.remaining.length ∨ r.fd.failed = true := by
  have hcases := cursorCheck_cases h
  cases hcases with
  | inl hnone =>
    obtain ⟨hrem, hcheck⟩ := hnone
    rw [if_pos hrem, Right, hrem]
    simp only [returns_readBytes_none hcheck, exists_eq_left, ReaderCall.onData, Expected,
      List.length_nil, Nat.le_zero]
    by_cases hn : n = 0
    · simp [hn]
    · simp [hn]
  | inr hsome =>
    obtain ⟨r', hcheck, hwell, hlt, hrem, hfailed, hne⟩ := hsome
    rw [if_neg hne, Right]
    simp only [returns_readBytes hcheck]
    by_cases hn : n ≤ r.remaining.length
    · obtain ⟨t, hleaves, hrest⟩ := @readBytes_ends r' [] n 0 hwell hlt.le (by rw [hrem]; exact hn)
      refine iff_of_true ⟨_, hleaves, ?_⟩ (Or.inl hn)
      rw [ReaderCall.onData, if_pos hn]
      exact ⟨by rw [hrem]; rfl, by rw [hrest, hrem]; rfl⟩
    · have hshort := @readBytes_short r' [] n 0 hwell hlt.le (by rw [hrem]; omega)
      rw [hfailed] at hshort
      rw [ReaderCall.onData, if_neg hn]
      constructor
      · intro hcase
        obtain ⟨returned, hleaves, _⟩ := hcase
        cases hf : r.fd.failed with
        | true => exact Or.inr rfl
        | false => exact absurd hleaves (hshort.2 hf returned)
      · intro hor
        obtain ⟨t, hleaves⟩ := hshort.1 (hor.resolve_left hn)
        exact ⟨_, hleaves, rfl⟩

end

/-! Reading up to a byte. -/

section
variable {until_ : Int8} {r : Reader} {data : List UInt8} {start : Nat} {c : UInt8}
  {returned : Returned}

/-- A byte is `until` just if it is that `char`, and the `char` is not negative. -/
theorem isUntil_iff : isUntil until_ c = true ↔ c = until_.toUInt8 ∧ 0 ≤ until_.toInt := by
  have hint : until_.toInt = until_.toBitVec.toInt := rfl
  have hnat : until_.toBitVec.toNat = until_.toUInt8.toNat := rfl
  have hlt := until_.toUInt8.toNat_lt
  have hlt' := c.toNat_lt
  rw [isUntil, beq_iff_eq, ← UInt8.toNat_inj, hint, BitVec.toInt_eq_toNat_cond, hnat]
  split
  · omega
  · omega

theorem onData_readUntil_cons_self (l : List UInt8) :
    ReaderCall.onData (.readUntil until_) (until_.toUInt8 :: l) = some ([until_.toUInt8], l) := by
  have hfirst : (until_.toUInt8 :: l).findIdx? (· == until_.toUInt8) = some 0 := by
    simp [List.findIdx?_cons]
  rw [ReaderCall.onData, hfirst]
  rfl

theorem onData_readUntil_append {pre : List UInt8} (hpre : until_.toUInt8 ∉ pre)
    (l : List UInt8) :
    ReaderCall.onData (.readUntil until_) (pre ++ l) =
      (ReaderCall.onData (.readUntil until_) l).map fun next => (pre ++ next.1, next.2) := by
  have hnone : pre.findIdx? (· == until_.toUInt8) = none := by
    rw [List.findIdx?_eq_none_iff]
    intro c hc
    rw [beq_eq_false_iff_ne]
    rintro rfl
    exact hpre hc
  rw [ReaderCall.onData, ReaderCall.onData, List.findIdx?_append, hnone, Option.map_map,
    Option.none_or, Option.map_map]
  refine congrArg (fun f => Option.map f _) (funext fun i => ?_)
  have hindex : i + pre.length + 1 = pre.length + (i + 1) := by omega
  simp only [Function.comp_apply, hindex, List.take_length_add_append,
    List.drop_length_add_append]

theorem onData_readUntil_of_not_mem {l : List UInt8} (h : until_.toUInt8 ∉ l) :
    ReaderCall.onData (.readUntil until_) l = none := by
  have happend := onData_readUntil_append h []
  rw [List.append_nil] at happend
  rw [happend]
  rfl

/-- What a turn of the loop can do. -/
theorem readUntilTurn_cases {s : ReadingUntil} {next : ReadingUntil ⊕ Returned}
    (h : readUntilTurn until_ s = .ok next) :
    (isUntil until_ s.c = true ∧ ∃ bytes,
        slice s.reader.buf s.startCursor (s.reader.cursor + 1 - s.startCursor) = .ok bytes ∧
        next = .inr (some (s.data ++ bytes ++ [0]),
          { s.reader with cursor := s.reader.cursor + 1 })) ∨
      (isUntil until_ s.c = false ∧ s.reader.cursor = s.reader.bytesInBuffer ∧ ∃ bytes,
        slice s.reader.buf s.startCursor (s.reader.bytesInBuffer - s.startCursor) = .ok bytes ∧
        ((fillBuffer s.reader).1 = -1 ∧ next = .inr (none, (fillBuffer s.reader).2) ∨
          ∃ c, load (fillBuffer s.reader).2.buf ((fillBuffer s.reader).2.cursor + 1) = .ok c ∧
            next = .inl ⟨{ (fillBuffer s.reader).2 with
                cursor := (fillBuffer s.reader).2.cursor + 1 },
              s.data ++ bytes, (fillBuffer s.reader).2.cursor, c⟩)) ∨
      (isUntil until_ s.c = false ∧ s.reader.cursor ≠ s.reader.bytesInBuffer ∧ ∃ c,
        load s.reader.buf (s.reader.cursor + 1) = .ok c ∧
        next = .inl ⟨{ s.reader with cursor := s.reader.cursor + 1 }, s.data, s.startCursor, c⟩) := by
  rw [readUntilTurn] at h
  split at h
  · rename_i huntil
    obtain ⟨bytes, hbytes, hnext⟩ := Outcome.bind_eq_ok.mp h
    exact Or.inl ⟨huntil, bytes, hbytes, (Outcome.ok.inj hnext).symm⟩
  · rename_i huntil
    have hfalse := Bool.not_eq_true _ ▸ huntil
    split at h
    · rename_i hcursor
      obtain ⟨bytes, hbytes, hnext⟩ := Outcome.bind_eq_ok.mp h
      refine Or.inr (Or.inl ⟨hfalse, hcursor, bytes, hbytes, ?_⟩)
      simp only at hnext
      split at hnext
      · rename_i hret
        exact Or.inl ⟨hret, (Outcome.ok.inj hnext).symm⟩
      · obtain ⟨c, hc, hnext⟩ := Outcome.bind_eq_ok.mp hnext
        exact Or.inr ⟨c, hc, (Outcome.ok.inj hnext).symm⟩
    · rename_i hcursor
      obtain ⟨c, hc, hnext⟩ := Outcome.bind_eq_ok.mp h
      exact Or.inr (Or.inr ⟨hfalse, hcursor, c, hc, (Outcome.ok.inj hnext).symm⟩)

theorem load_eq_ok {buf : List UInt8} {i : Nat} : load buf i = .ok c ↔ buf[i]? = some c := by
  rw [load]
  cases buf[i]? with
  | none => simp
  | some c' => simp

theorem load_of_none {buf : List UInt8} {i : Nat} (h : buf[i]? = none) : load buf i = .undef := by
  rw [load, h]

theorem slice_ok_length {buf bytes : List UInt8} {count : Nat}
    (h : slice buf start count = .ok bytes) : bytes.length = count := by
  rw [slice] at h
  split at h
  · rw [← Outcome.ok.inj h, List.length_take, List.length_drop]
    omega
  · cases h

/-! What every result has in common. -/

theorem until_of_some {d : List UInt8} {s : ReadingUntil}
    (h : LeavesWith (readUntilTurn until_) s (some d, r)) : 0 ≤ until_.toInt := by
  apply h.invariant (I := fun _ => True) (Q := fun a => a.1 ≠ none → 0 ≤ until_.toInt) _ trivial
  · simp
  · intro s next _ hturn
    obtain ⟨huntil, bytes, -, rfl⟩ | ⟨-, -, bytes, -, ⟨-, rfl⟩ | ⟨c, -, rfl⟩⟩ |
      ⟨-, -, c, -, rfl⟩ := readUntilTurn_cases hturn
    · exact fun _ => (isUntil_iff.mp huntil).2
    · exact fun hsome => absurd rfl hsome
    · trivial
    · trivial

/-- Every turn but the last takes a byte without a look at what is before it. -/
theorem length_of_some {d : List UInt8} {s : ReadingUntil}
    (hstart : s.startCursor ≤ s.reader.cursor)
    (h : LeavesWith (readUntilTurn until_) s (some d, r)) :
    s.data.length + (s.reader.cursor - s.startCursor) + 2 ≤ d.length := by
  have hall := @LeavesWith.invariant _ _ _ _ _
    (fun t => t.startCursor ≤ t.reader.cursor ∧
      s.data.length + (s.reader.cursor - s.startCursor) ≤
        t.data.length + (t.reader.cursor - t.startCursor))
    (fun a => ∀ d ∈ a.1, s.data.length + (s.reader.cursor - s.startCursor) + 2 ≤ d.length)
    ?_ h ⟨hstart, le_rfl⟩
  · exact hall d rfl
  · intro t next hcase hturn
    obtain ⟨hle, hlength⟩ := hcase
    obtain ⟨-, bytes, hbytes, rfl⟩ | ⟨-, hcursor, bytes, hbytes, ⟨-, rfl⟩ | ⟨c, -, rfl⟩⟩ |
      ⟨-, -, c, -, rfl⟩ := readUntilTurn_cases hturn
    · intro d hd
      have hbytes' := slice_ok_length hbytes
      cases hd
      simp only [List.length_append, List.length_singleton]
      omega
    · simp
    · have hbytes' := slice_ok_length hbytes
      simp only [Sum.elim_inl, List.length_append]
      omega
    · simp only [Sum.elim_inl]
      omega

/-- Past the end of the file the loop goes on over what is left in the buffer. -/
theorem ne_none_of_past {s : ReadingUntil} (hpast : s.reader.bytesInBuffer < s.reader.cursor)
    (h : LeavesWith (readUntilTurn until_) s returned) : returned.1 ≠ none := by
  apply h.invariant (I := fun s => s.reader.bytesInBuffer < s.reader.cursor)
    (Q := fun a => a.1 ≠ none) _ hpast
  intro s next hs hturn
  obtain ⟨-, bytes, -, rfl⟩ | ⟨-, hcursor, -⟩ | ⟨-, -, c, -, rfl⟩ := readUntilTurn_cases hturn
  · exact Option.some_ne_none _
  · omega
  · exact Nat.lt_succ_of_lt hs

/-! One buffer. -/

theorem readUntilTurn_found (huntil : isUntil until_ c = true) (hstart : start ≤ r.cursor)
    (hcursor : r.cursor < r.buf.length) :
    readUntilTurn until_ ⟨r, data, start, c⟩ =
      .ok (.inr (some (data ++ (r.buf.drop start).take (r.cursor + 1 - start) ++ [0]),
        { r with cursor := r.cursor + 1 })) := by
  have hslice : start + (r.cursor + 1 - start) ≤ r.buf.length := by omega
  rw [readUntilTurn, if_pos huntil, slice_eq hslice]
  rfl

theorem readUntilTurn_next {d : UInt8} (huntil : isUntil until_ c = false)
    (hcursor : r.cursor ≠ r.bytesInBuffer) (hd : r.buf[r.cursor + 1]? = some d) :
    readUntilTurn until_ ⟨r, data, start, c⟩ =
      .ok (.inl ⟨{ r with cursor := r.cursor + 1 }, data, start, d⟩) := by
  rw [readUntilTurn, if_neg (Bool.not_eq_true _ ▸ huntil), if_neg hcursor, load_eq_ok.mpr hd]
  rfl

theorem readUntilTurn_past (huntil : isUntil until_ c = false)
    (hcursor : r.cursor ≠ r.bytesInBuffer) (hd : r.buf[r.cursor + 1]? = none) :
    readUntilTurn until_ ⟨r, data, start, c⟩ = .undef := by
  rw [readUntilTurn, if_neg (Bool.not_eq_true _ ▸ huntil), if_neg hcursor, load_of_none hd]
  rfl

theorem inBuffer_eq_cons (h : WellFormed r) (hlt : r.cursor < r.bytesInBuffer)
    (hc : r.buf[r.cursor]? = some c) :
    r.inBuffer = c :: ({ r with cursor := r.cursor + 1 } : Reader).inBuffer := by
  have hlength := h.length
  have hbytes := h.bytes
  have htake : r.cursor < (r.buf.take r.bytesInBuffer).length := by
    rw [List.length_take]
    omega
  have hget : (r.buf.take r.bytesInBuffer)[r.cursor] = c := by
    rw [List.getElem_take]
    exact (List.getElem?_eq_some_iff.mp hc).2
  rw [Reader.inBuffer, List.drop_eq_getElem_cons htake, hget]
  rfl

/-- The bytes from the start of the call up to the cursor and past it. -/
theorem take_past_cursor (hstart : start ≤ r.cursor) (hc : r.buf[r.cursor]? = some c) :
    (r.buf.drop start).take (r.cursor + 1 - start) =
      (r.buf.drop start).take (r.cursor - start) ++ [c] := by
  have hget : (r.buf.drop start)[r.cursor - start]? = some c := by
    rw [List.getElem?_drop, Nat.add_sub_cancel' hstart, hc]
  rw [Nat.sub_add_comm hstart, List.take_add_one, hget]
  rfl

theorem WellFormed.advanced (h : WellFormed r) (k : Nat) :
    WellFormed ({ r with cursor := k } : Reader) := ⟨h.length, h.bytes, h.chunks⟩

theorem exists_next (h : WellFormed r) (hlt : r.cursor + 1 < r.bytesInBuffer) :
    ∃ d, r.buf[r.cursor + 1]? = some d := by
  have hlength := h.length
  have hbytes := h.bytes
  exact ⟨_, List.getElem?_eq_getElem (by omega)⟩

/-- The loop stops at the first `until` in the buffer. -/
theorem readUntil_found (h : WellFormed r) (hstart : start ≤ r.cursor)
    (hc : r.buf[r.cursor]? = some c) {pre post : List UInt8} {m : UInt8}
    (hsplit : r.inBuffer = pre ++ m :: post) (hpre : ∀ d ∈ pre, isUntil until_ d = false)
    (hm : isUntil until_ m = true) :
    LeavesWith (readUntilTurn until_) ⟨r, data, start, c⟩ returned ↔
      returned = (some (data ++ ((r.buf.drop start).take (r.cursor - start) ++ (pre ++ [m])) ++ [0]),
        { r with cursor := r.cursor + (pre.length + 1) }) := by
  have hlt : r.cursor < r.bytesInBuffer := by
    have hlength := h.length_inBuffer
    rw [hsplit, List.length_append, List.length_cons] at hlength
    omega
  have hcons := inBuffer_eq_cons h hlt hc
  have htake := take_past_cursor hstart hc
  induction pre generalizing r c with
  | nil =>
    obtain ⟨rfl, -⟩ := List.cons.inj (hcons.symm.trans hsplit)
    have hcursor : r.cursor < r.buf.length := (List.getElem?_eq_some_iff.mp hc).1
    rw [leavesWith_of_leave (readUntilTurn_found hm hstart hcursor), htake]
    rfl
  | cons e pre ih =>
    obtain rfl : c = e := (List.cons.inj (hcons.symm.trans hsplit)).1
    have hrest : ({ r with cursor := r.cursor + 1 } : Reader).inBuffer = pre ++ m :: post :=
      (List.cons.inj (hcons.symm.trans hsplit)).2
    obtain ⟨he, hpre'⟩ := List.forall_mem_cons.mp hpre
    have hlt' : r.cursor + 1 < r.bytesInBuffer := by
      have hlength := (h.advanced (r.cursor + 1)).length_inBuffer
      rw [hrest, List.length_append, List.length_cons] at hlength
      dsimp only at hlength
      omega
    obtain ⟨d, hd⟩ := exists_next h hlt'
    have hstart' : start ≤ r.cursor + 1 := by omega
    have hturn := leavesWith_of_next (a := returned)
      (@readUntilTurn_next _ _ data start _ _ he hlt.ne hd)
    have hrec := @ih { r with cursor := r.cursor + 1 } d (h.advanced _) hstart' hd hrest hpre' hlt'
      (inBuffer_eq_cons (h.advanced _) hlt' hd) (take_past_cursor hstart' hd)
    refine hturn.trans (hrec.trans ?_)
    dsimp only
    rw [htake, Nat.add_assoc, Nat.add_comm 1]
    simp only [List.length_cons, List.append_assoc, List.cons_append, List.nil_append]

/-- Without an `until` in the buffer the loop goes on to the byte after it. -/
theorem readUntil_not_found (h : WellFormed r) (hcursor : r.cursor ≤ r.bytesInBuffer)
    (hc : r.buf[r.cursor]? = some c) (hnone : ∀ d ∈ r.inBuffer, isUntil until_ d = false) :
    (∀ d, r.buf[r.bytesInBuffer]? = some d →
      (LeavesWith (readUntilTurn until_) ⟨r, data, start, c⟩ returned ↔
        LeavesWith (readUntilTurn until_) ⟨{ r with cursor := r.bytesInBuffer }, data, start, d⟩
          returned)) ∧
    (r.buf[r.bytesInBuffer]? = none →
      ¬ LeavesWith (readUntilTurn until_) ⟨r, data, start, c⟩ returned) := by
  induction hk : r.bytesInBuffer - r.cursor generalizing r c with
  | zero =>
    have heq : r.cursor = r.bytesInBuffer := by omega
    have hsame : ({ r with cursor := r.bytesInBuffer } : Reader) = r :=
      congrArg (fun k => ({ r with cursor := k } : Reader)) heq.symm
    rw [heq] at hc
    rw [hc, hsame]
    constructor
    · intro d hd
      rw [Option.some.inj hd]
    · intro hnone
      cases hnone
  | succ k ih =>
    have hlt : r.cursor < r.bytesInBuffer := by omega
    rw [inBuffer_eq_cons h hlt hc] at hnone
    obtain ⟨hcnone, hnone'⟩ := List.forall_mem_cons.mp hnone
    cases hd : r.buf[r.cursor + 1]? with
    | none =>
      have hpast : r.buf[r.bytesInBuffer]? = none := by
        rw [List.getElem?_eq_none_iff] at hd ⊢
        omega
      have hundef := @readUntilTurn_past _ _ data start _ hcnone hlt.ne hd
      rw [hpast]
      constructor
      · intro d hd
        cases hd
      · intro _
        exact not_leavesWith_of_undef hundef
    | some d =>
      have hnext := @readUntilTurn_next _ _ data start _ _ hcnone hlt.ne hd
      rw [leavesWith_of_next hnext]
      exact @ih { r with cursor := r.cursor + 1 } d (h.advanced _) hlt hd hnone'
        (by dsimp only; omega)

/-! Chunk after chunk. -/

/-- An `until` is compared with in the first `bytesInBuffer` bytes, from `cursor` on. -/
def Found (until_ : Int8) (buf : List UInt8) (bytesInBuffer cursor : Nat) : Prop :=
  ∃ c ∈ (buf.take bytesInBuffer).drop cursor, isUntil until_ c = true

/-- There is none there, and the byte behind them, which is not of the data, is none either. -/
def Passes (until_ : Int8) (buf : List UInt8) (bytesInBuffer cursor : Nat) : Prop :=
  until_.toUInt8 ∉ (buf.take bytesInBuffer).drop cursor ∧
    ∃ c, buf[bytesInBuffer]? = some c ∧ isUntil until_ c = false

/-- No chunk is passed with an `until` in its first place, or before a byte that looks like one. -/
def Clean (until_ : Int8) (failed : Bool) : List (List UInt8) → List UInt8 → Nat → Nat → Prop
  | [], buf, bytesInBuffer, cursor =>
      Found until_ buf bytesInBuffer cursor ∨
        Passes until_ buf bytesInBuffer cursor ∧ failed = true
  | chunk :: chunks, buf, bytesInBuffer, cursor =>
      Found until_ buf bytesInBuffer cursor ∨
        Passes until_ buf bytesInBuffer cursor ∧ chunk.head? ≠ some until_.toUInt8 ∧
          Clean until_ failed chunks (chunk ++ buf.drop chunk.length) chunk.length 1

/-- `Expected` of a call that has read the bytes `before`. -/
def ExpectedAfter (before : List UInt8) (next : Option (List UInt8 × List UInt8))
    (returned : Returned) : Prop :=
  match next with
  | some (bytes, rest) => returned.1 = some (before ++ bytes ++ [0]) ∧ returned.2.remaining = rest
  | none => returned.1 = none

theorem expectedAfter_map (before pre : List UInt8) (next : Option (List UInt8 × List UInt8)) :
    ExpectedAfter before (next.map fun p => (pre ++ p.1, p.2)) returned ↔
      ExpectedAfter (before ++ pre) next returned := by
  cases next with
  | none => rfl
  | some p => simp [ExpectedAfter]

/-- What the code gets right from a state of its loop. -/
def RightFrom (until_ : Int8) (s : ReadingUntil) : Prop :=
  ∃ returned, LeavesWith (readUntilTurn until_) s returned ∧
    ExpectedAfter
      (s.data ++ (s.reader.buf.drop s.startCursor).take (s.reader.cursor - s.startCursor))
      (ReaderCall.onData (.readUntil until_) s.reader.remaining) returned

theorem rightFrom_found (h : WellFormed r) (hstart : start ≤ r.cursor)
    (hc : r.buf[r.cursor]? = some c) (hfound : Found until_ r.buf r.bytesInBuffer r.cursor) :
    RightFrom until_ ⟨r, data, start, c⟩ := by
  obtain ⟨m, hm, huntil⟩ := hfound
  obtain ⟨pre, m, post, hsplit, hpre, hm, -, -⟩ | ⟨hnone, -⟩ :=
    first_match r.inBuffer (isUntil until_)
  · refine ⟨_, (readUntil_found h hstart hc hsplit hpre hm).mpr rfl, ?_⟩
    obtain ⟨rfl, hsign⟩ := isUntil_iff.mp hm
    have hnotin : until_.toUInt8 ∉ pre := by
      intro hin
      rw [hpre _ hin] at hm
      cases hm
    have hdrop : ({ r with cursor := r.cursor + (pre.length + 1) } : Reader).inBuffer = post := by
      rw [drop_inBuffer, hsplit]
      simp
    rw [remaining_eq, hsplit, List.append_assoc, onData_readUntil_append hnotin, List.cons_append,
      onData_readUntil_cons_self]
    refine ⟨?_, ?_⟩
    · simp only [List.append_assoc]
    · rw [remaining_eq, hdrop]
  · have hfalse := hnone m hm
    rw [huntil] at hfalse
    cases hfalse

/-- The bytes from the start of the call up to the end of the buffer. -/
theorem take_to_end (hstart : start ≤ r.cursor) (hcursor : r.cursor ≤ r.bytesInBuffer) :
    (r.buf.drop start).take (r.bytesInBuffer - start) =
      (r.buf.drop start).take (r.cursor - start) ++ r.inBuffer := by
  have hsplit : r.bytesInBuffer - start = (r.cursor - start) + (r.bytesInBuffer - r.cursor) := by
    omega
  rw [hsplit, List.take_add, List.drop_drop, Nat.add_sub_cancel' hstart, Reader.inBuffer,
    List.drop_take]

theorem readUntilTurn_failed (h : WellFormed r) (huntil : isUntil until_ c = false)
    (hstart : start ≤ r.bytesInBuffer) (hchunks : r.fd.chunks = [])
    (hfailed : r.fd.failed = true) :
    readUntilTurn until_ ⟨{ r with cursor := r.bytesInBuffer }, data, start, c⟩ =
      .ok (.inr (none, r.emptied)) := by
  have hslice : start + (r.bytesInBuffer - start) ≤ r.buf.length := by
    have hlength := h.length
    have hbytes := h.bytes
    omega
  rw [readUntilTurn, if_neg (Bool.not_eq_true _ ▸ huntil), if_pos rfl]
  simp only [slice_eq hslice, Outcome.bind_ok, fillBuffer_nil
    (r := { r with cursor := r.bytesInBuffer }) hchunks, hfailed, if_true]
  rfl

theorem readUntilTurn_chunk (h : WellFormed r) (huntil : isUntil until_ c = false)
    (hstart : start ≤ r.bytesInBuffer) {chunk : List UInt8} {chunks : List (List UInt8)}
    (hchunks : r.fd.chunks = chunk :: chunks) :
    readUntilTurn until_ ⟨{ r with cursor := r.bytesInBuffer }, data, start, c⟩ =
      (load (r.refilled chunk chunks).buf 1).bind fun d =>
        .ok (.inl ⟨{ r.refilled chunk chunks with cursor := 1 },
          data ++ (r.buf.drop start).take (r.bytesInBuffer - start), 0, d⟩) := by
  have hslice : start + (r.bytesInBuffer - start) ≤ r.buf.length := by
    have hlength := h.length
    have hbytes := h.bytes
    omega
  have hret : (chunk.length : Int) ≠ -1 := by omega
  rw [readUntilTurn, if_neg (Bool.not_eq_true _ ▸ huntil), if_pos rfl]
  simp only [slice_eq hslice, Outcome.bind_ok, fillBuffer_chunk
    (r := { r with cursor := r.bytesInBuffer }) (h.advanced _) hchunks, if_neg hret]
  rfl

/-- The end of the file is not noticed. -/
theorem ne_none_of_eof (hcursor : r.cursor = r.bytesInBuffer) (hchunks : r.fd.chunks = [])
    (hfailed : r.fd.failed = false)
    (h : LeavesWith (readUntilTurn until_) ⟨r, data, start, c⟩ returned) : returned.1 ≠ none := by
  have hfill := fillBuffer_nil hchunks
  rw [hfailed, if_neg Bool.false_ne_true] at hfill
  obtain hleave | ⟨t, ht, hrest⟩ := leavesWith_iff.mp h
  · obtain ⟨-, bytes, -, hnext⟩ | ⟨-, -, bytes, -, ⟨hret, -⟩ | ⟨c, -, hnext⟩⟩ |
      ⟨-, hne, -⟩ := readUntilTurn_cases hleave
    · cases hnext
      simp
    · rw [hfill] at hret
      cases hret
    · cases hnext
    · exact absurd hcursor hne
  · obtain ⟨-, bytes, -, hnext⟩ | ⟨-, -, bytes, -, ⟨hret, -⟩ | ⟨c, -, hnext⟩⟩ |
      ⟨-, hne, -⟩ := readUntilTurn_cases ht
    · cases hnext
    · rw [hfill] at hret
      cases hret
    · cases hnext
      apply ne_none_of_past _ hrest
      rw [hfill]
      exact Nat.zero_lt_one
    · exact absurd hcursor hne

/-- Wrong from a buffer in which the loop finds nothing, though there is an `until` in it. -/
theorem not_rightFrom_of_mem (hmem : until_.toUInt8 ∈ r.inBuffer)
    (hnone : ∀ d ∈ r.inBuffer, isUntil until_ d = false) :
    ¬ RightFrom until_ ⟨r, data, start, c⟩ := by
  intro hcase
  obtain ⟨returned, hleaves, hexpected⟩ := hcase
  have hsign : ¬ 0 ≤ until_.toInt := by
    intro hsign
    have htrue := isUntil_iff.mpr ⟨rfl, hsign⟩
    rw [hnone _ hmem] at htrue
    cases htrue
  obtain ⟨pre, post, hsplit, hpre⟩ := List.eq_append_cons_of_mem hmem
  rw [remaining_eq, hsplit, List.append_assoc, onData_readUntil_append hpre, List.cons_append,
    onData_readUntil_cons_self] at hexpected
  obtain ⟨result, r'⟩ := returned
  obtain rfl := hexpected.1
  exact hsign (until_of_some hleaves)

/-- Wrong where the byte behind the buffer looks like `until`: what is left then is too much. -/
theorem not_rightFrom_of_stale (h : WellFormed r) (hstart : start ≤ r.cursor)
    (hcursor : r.cursor ≤ r.bytesInBuffer) (hc : r.buf[r.cursor]? = some c)
    (hnotin : until_.toUInt8 ∉ r.inBuffer) (hnone : ∀ d ∈ r.inBuffer, isUntil until_ d = false)
    {d : UInt8} (hd : r.buf[r.bytesInBuffer]? = some d) (huntil : isUntil until_ d = true) :
    ¬ RightFrom until_ ⟨r, data, start, c⟩ := by
  intro hcase
  obtain ⟨returned, hleaves, hexpected⟩ := hcase
  rw [(readUntil_not_found h hcursor hc hnone).1 d hd] at hleaves
  have hlt : r.bytesInBuffer < r.buf.length := (List.getElem?_eq_some_iff.mp hd).1
  rw [leavesWith_of_leave (readUntilTurn_found huntil (hstart.trans hcursor) hlt)] at hleaves
  have hrest : returned.2.remaining = r.fd.chunks.flatten := by
    rw [hleaves]
    exact remaining_of_le (Nat.le_succ _)
  rw [remaining_eq, onData_readUntil_append hnotin, ReaderCall.onData, Option.map_map] at hexpected
  cases hi : r.fd.chunks.flatten.findIdx? (· == until_.toUInt8) with
  | none =>
    rw [hi] at hexpected
    rw [hleaves] at hexpected
    cases hexpected
  | some i =>
    rw [hi] at hexpected
    have hlen : i < r.fd.chunks.flatten.length := (List.findIdx?_eq_some_iff_getElem.mp hi).1
    have hdrop := congrArg List.length (hexpected.2.symm.trans hrest)
    simp only [List.length_drop] at hdrop
    omega

/-- One chunk on: the bytes before it have no `until`, and neither has its first place. -/
theorem rightFrom_chunk {s t : ReadingUntil} {seg : List UInt8}
    (hleaves : ∀ a, LeavesWith (readUntilTurn until_) s a ↔ LeavesWith (readUntilTurn until_) t a)
    (hbefore : t.data ++ (t.reader.buf.drop t.startCursor).take (t.reader.cursor - t.startCursor) =
      s.data ++ (s.reader.buf.drop s.startCursor).take (s.reader.cursor - s.startCursor) ++ seg)
    (hrem : s.reader.remaining = seg ++ t.reader.remaining) (hseg : until_.toUInt8 ∉ seg) :
    RightFrom until_ s ↔ RightFrom until_ t := by
  rw [RightFrom, RightFrom, hrem, onData_readUntil_append hseg]
  simp only [hleaves, expectedAfter_map, hbefore]

/-- Wrong where the chunk that is read on to starts with `until`: its first byte is taken as if it
were none. -/
theorem not_rightFrom_of_head {s t : ReadingUntil} {seg l : List UInt8}
    (hleaves : ∀ a, LeavesWith (readUntilTurn until_) s a ↔ LeavesWith (readUntilTurn until_) t a)
    (hstart : t.startCursor ≤ t.reader.cursor)
    (hbefore : s.data.length +
        ((s.reader.buf.drop s.startCursor).take (s.reader.cursor - s.startCursor)).length +
          seg.length + 1 ≤ t.data.length + (t.reader.cursor - t.startCursor))
    (hrem : s.reader.remaining = seg ++ until_.toUInt8 :: l) (hseg : until_.toUInt8 ∉ seg) :
    ¬ RightFrom until_ s := by
  intro hcase
  obtain ⟨⟨result, r'⟩, hs, hexpected⟩ := hcase
  rw [hrem, onData_readUntil_append hseg, onData_readUntil_cons_self] at hexpected
  obtain rfl := hexpected.1
  have hlength := length_of_some hstart ((hleaves _).mp hs)
  simp only [List.length_append, List.length_singleton] at hlength hbefore
  omega

theorem isUntil_false_of_not_found
    (hfound : ¬ Found until_ r.buf r.bytesInBuffer r.cursor) :
    ∀ d ∈ r.inBuffer, isUntil until_ d = false := by
  intro d hd
  rw [← Bool.not_eq_true]
  exact fun huntil => hfound ⟨d, hd, huntil⟩

theorem found_or_passes (h : WellFormed r) (hstart : start ≤ r.cursor)
    (hcursor : r.cursor ≤ r.bytesInBuffer) (hc : r.buf[r.cursor]? = some c)
    (hright : RightFrom until_ ⟨r, data, start, c⟩) :
    Found until_ r.buf r.bytesInBuffer r.cursor ∨ Passes until_ r.buf r.bytesInBuffer r.cursor := by
  by_cases hfound : Found until_ r.buf r.bytesInBuffer r.cursor
  · exact Or.inl hfound
  · have hnone := isUntil_false_of_not_found hfound
    have hnotin : until_.toUInt8 ∉ r.inBuffer :=
      fun hmem => not_rightFrom_of_mem hmem hnone hright
    apply Or.inr
    refine ⟨hnotin, ?_⟩
    cases hd : r.buf[r.bytesInBuffer]? with
    | none =>
      obtain ⟨returned, hleaves, -⟩ := hright
      exact absurd hleaves ((readUntil_not_found h hcursor hc hnone).2 hd)
    | some d =>
      refine ⟨d, rfl, ?_⟩
      rw [← Bool.not_eq_true]
      intro huntil
      exact not_rightFrom_of_stale h hstart hcursor hc hnotin hnone hd huntil hright

theorem found_or_passes_of_clean {failed : Bool} {chunks : List (List UInt8)} {buf : List UInt8}
    {b k : Nat} (h : Clean until_ failed chunks buf b k) :
    Found until_ buf b k ∨ Passes until_ buf b k := by
  cases chunks with
  | nil => exact h.imp_right And.left
  | cons chunk chunks => exact h.imp_right And.left

/-- The next chunk, when there is nothing to stop at in this one. -/
theorem rightFrom_chunk_iff (h : WellFormed r) (hstart : start ≤ r.cursor)
    (hcursor : r.cursor ≤ r.bytesInBuffer) (hc : r.buf[r.cursor]? = some c)
    (hfound : ¬ Found until_ r.buf r.bytesInBuffer r.cursor)
    (hpasses : Passes until_ r.buf r.bytesInBuffer r.cursor) {chunk : List UInt8}
    {chunks : List (List UInt8)} (hchunks : r.fd.chunks = chunk :: chunks)
    (ih : ∀ data c, (r.refilled chunk chunks).buf[1]? = some c →
      (RightFrom until_ ⟨{ r.refilled chunk chunks with cursor := 1 }, data, 0, c⟩ ↔
        Clean until_ r.fd.failed chunks (r.refilled chunk chunks).buf chunk.length 1)) :
    RightFrom until_ ⟨r, data, start, c⟩ ↔ chunk.head? ≠ some until_.toUInt8 ∧
      Clean until_ r.fd.failed chunks (r.refilled chunk chunks).buf chunk.length 1 := by
  obtain ⟨hnotin, d, hd, hdnone⟩ := hpasses
  have hnone := isUntil_false_of_not_found hfound
  have hturn := @readUntilTurn_chunk until_ r data start d h hdnone (hstart.trans hcursor) chunk
    chunks hchunks
  have hbuf : (r.refilled chunk chunks).buf = chunk ++ r.buf.drop chunk.length := rfl
  cases he : (r.refilled chunk chunks).buf[1]? with
  | none =>
    rw [load_of_none he] at hturn
    refine iff_of_false (fun hright => ?_) fun hclean => ?_
    · obtain ⟨returned, hleaves, -⟩ := hright
      rw [(readUntil_not_found h hcursor hc hnone).1 d hd] at hleaves
      exact not_leavesWith_of_undef hturn hleaves
    · have hshort : chunk.length ≤ 1 := by
        rw [hbuf, List.getElem?_eq_none_iff, List.length_append] at he
        omega
      obtain ⟨m, hm, -⟩ | ⟨-, m, hm, -⟩ := found_or_passes_of_clean hclean.2
      · rw [List.drop_eq_nil_of_le (by rw [List.length_take]; omega)] at hm
        cases hm
      · rw [List.getElem?_eq_none_iff] at he
        have hlength := (List.getElem?_eq_some_iff.mp hm).1
        have hne := (h.chunks chunk (hchunks ▸ List.mem_cons_self)).1
        have hpos := List.length_pos_iff.mpr hne
        omega
  | some e =>
    rw [load_eq_ok.mpr he, Outcome.bind_ok] at hturn
    have hleaves : ∀ a, LeavesWith (readUntilTurn until_) ⟨r, data, start, c⟩ a ↔
        LeavesWith (readUntilTurn until_) ⟨{ r.refilled chunk chunks with cursor := 1 },
          data ++ (r.buf.drop start).take (r.bytesInBuffer - start), 0, e⟩ a := by
      intro a
      rw [(readUntil_not_found h hcursor hc hnone).1 d hd, leavesWith_of_next hturn]
    have htake := take_to_end hstart hcursor
    have hrem : r.remaining = r.inBuffer ++ (chunk ++ chunks.flatten) := by
      rw [remaining_eq, hchunks]
      rfl
    cases chunk with
    | nil => exact absurd rfl (h.chunks [] (hchunks ▸ List.mem_cons_self)).1
    | cons e₀ chunk =>
      by_cases hfirst : e₀ = until_.toUInt8
      · subst hfirst
        refine iff_of_false ?_ fun hclean => hclean.1 rfl
        apply not_rightFrom_of_head hleaves (Nat.zero_le _) _ hrem hnotin
        simp only [htake, List.length_append]
        omega
      · have hseg : until_.toUInt8 ∉ r.inBuffer ++ [e₀] := by
          rw [List.mem_append, List.mem_singleton]
          exact not_or.mpr ⟨hnotin, fun heq => hfirst heq.symm⟩
        have hne : (e₀ :: chunk).head? ≠ some until_.toUInt8 := fun heq =>
          hfirst (Option.some.inj heq)
        rw [rightFrom_chunk hleaves _ _ hseg, ih _ _ he]
        · exact (and_iff_right hne).symm
        · simp only [htake, List.append_assoc]
          rfl
        · rw [hrem, List.append_assoc]
          simp [Reader.remaining, Reader.refilled]

/-- The loop is right just if it is `Clean`. -/
theorem rightFrom_iff (h : WellFormed r) (hstart : start ≤ r.cursor)
    (hcursor : r.cursor ≤ r.bytesInBuffer) (hc : r.buf[r.cursor]? = some c) :
    RightFrom until_ ⟨r, data, start, c⟩ ↔
      Clean until_ r.fd.failed r.fd.chunks r.buf r.bytesInBuffer r.cursor := by
  induction hchunks : r.fd.chunks generalizing r data start c with
  | nil =>
    by_cases hfound : Found until_ r.buf r.bytesInBuffer r.cursor
    · exact iff_of_true (rightFrom_found h hstart hc hfound) (Or.inl hfound)
    · have hnone := isUntil_false_of_not_found hfound
      have hrem : r.remaining = r.inBuffer := by
        rw [remaining_eq, hchunks, List.flatten_nil, List.append_nil]
      have hnext : until_.toUInt8 ∉ r.inBuffer →
          ReaderCall.onData (.readUntil until_) r.remaining = none := by
        rw [hrem]
        exact onData_readUntil_of_not_mem
      constructor
      · intro hright
        have hpasses := (found_or_passes h hstart hcursor hc hright).resolve_left hfound
        refine Or.inr ⟨hpasses, ?_⟩
        obtain ⟨hnotin, d, hd, -⟩ := hpasses
        obtain ⟨returned, hleaves, hexpected⟩ := hright
        rw [hnext hnotin] at hexpected
        rw [(readUntil_not_found h hcursor hc hnone).1 d hd] at hleaves
        by_contra hfailed
        exact @ne_none_of_eof until_ { r with cursor := r.bytesInBuffer } data start d returned rfl
          hchunks (Bool.not_eq_true _ ▸ hfailed) hleaves hexpected
      · intro hclean
        obtain ⟨⟨hnotin, d, hd, hdnone⟩, hfailed⟩ := hclean.resolve_left hfound
        refine ⟨(none, r.emptied), ?_, ?_⟩
        · rw [(readUntil_not_found h hcursor hc hnone).1 d hd, leavesWith_of_leave
            (readUntilTurn_failed h hdnone (hstart.trans hcursor) hchunks hfailed)]
        · rw [hnext hnotin]
          rfl
  | cons chunk chunks ih =>
    by_cases hfound : Found until_ r.buf r.bytesInBuffer r.cursor
    · exact iff_of_true (rightFrom_found h hstart hc hfound) (Or.inl hfound)
    · have hnone := isUntil_false_of_not_found hfound
      by_cases hpasses : Passes until_ r.buf r.bytesInBuffer r.cursor
      · have hne := (h.chunks chunk (hchunks ▸ List.mem_cons_self)).1
        rw [rightFrom_chunk_iff h hstart hcursor hc hfound hpasses hchunks ?_, Clean]
        · exact ⟨fun hrest => Or.inr ⟨hpasses, hrest⟩, fun hclean => (hclean.resolve_left hfound).2⟩
        · intro data e he
          exact @ih { r.refilled chunk chunks with cursor := 1 } data 0 e
            ((h.refilled hchunks).advanced 1) (Nat.zero_le _) (List.length_pos_iff.mpr hne) he rfl
      · refine iff_of_false (fun hright => ?_) fun hclean => ?_
        · exact (found_or_passes h hstart hcursor hc hright).elim hfound hpasses
        · exact hclean.elim hfound fun hrest => hpasses hrest.1

theorem returns_readUntil_none (hcheck : cursorCheck r = (false, r.emptied)) :
    Returns (.readUntil until_) r returned ↔ returned = (none, r.emptied) := by
  have hcall : ∀ fuel, readerReadUntil fuel until_ r = .ok (none, r.emptied) := by
    intro fuel
    rw [readerReadUntil, hcheck]
    rfl
  simp [Returns, ReaderCall.onReader, hcall, eq_comm]

theorem right_readUntil_of_check {r' : Reader} (hcheck : cursorCheck r = (true, r'))
    (hwell : WellFormed r') (hlt : r'.cursor < r'.bytesInBuffer)
    (hrem : r'.remaining = r.remaining) :
    Right (.readUntil until_) r ↔
      Clean until_ r'.fd.failed r'.fd.chunks r'.buf r'.bytesInBuffer r'.cursor := by
  have hlength := hwell.length
  have hbytes := hwell.bytes
  have hc : r'.buf[r'.cursor]? = some r'.buf[r'.cursor] := List.getElem?_eq_getElem (by omega)
  have hcall : ∀ fuel, readerReadUntil fuel until_ r =
      whileLoop (readUntilTurn until_) fuel ⟨r', [], r'.cursor, r'.buf[r'.cursor]⟩ := by
    intro fuel
    rw [readerReadUntil, hcheck]
    simp only [if_true, load_eq_ok.mpr hc, Outcome.bind_ok]
  have hnothing : (r'.buf.drop r'.cursor).take (r'.cursor - r'.cursor) = [] := by
    rw [Nat.sub_self, List.take_zero]
  rw [← @rightFrom_iff until_ r' [] _ _ hwell le_rfl hlt.le hc]
  simp only [Right, Returns, ReaderCall.onReader, hcall, RightFrom, hnothing, hrem, LeavesWith]
  rfl

/-- What a call needs to be right. -/
def CleanCall : ReaderCall → Reader → Prop
  | .readBytes n, r =>
      if r.remaining = [] then n ≠ 0 else n ≤ r.remaining.length ∨ r.fd.failed = true
  | .readUntil until_, r =>
      if r.cursor < r.bytesInBuffer then
        Clean until_ r.fd.failed r.fd.chunks r.buf r.bytesInBuffer r.cursor
      else
        match r.fd.chunks with
        | [] => True
        | chunk :: chunks =>
            Clean until_ r.fd.failed chunks (chunk ++ r.buf.drop chunk.length) chunk.length 0

end

/-- A call is right just if it is clean, in every state that the calls before it may have left. -/
theorem reader_right_iff {r : Reader} (h : WellFormed r) (call : ReaderCall) :
    Right call r ↔ CleanCall call r := by
  cases call with
  | readBytes n => exact right_readBytes_iff h n
  | readUntil until_ =>
    rw [CleanCall]
    split
    · rename_i hlt
      exact right_readUntil_of_check (cursorCheck_of_lt hlt) h hlt rfl
    · rename_i hle
      rw [Nat.not_lt] at hle
      cases hchunks : r.fd.chunks with
      | nil =>
        have hrem : r.remaining = [] := by
          rw [remaining_of_le hle, hchunks]
          rfl
        refine iff_of_true ?_ trivial
        refine ⟨_, (returns_readUntil_none (cursorCheck_nil hle hchunks)).mpr rfl, ?_⟩
        rw [hrem, onData_readUntil_of_not_mem List.not_mem_nil]
        rfl
      | cons chunk chunks =>
        have hne := (h.chunks chunk (hchunks ▸ List.mem_cons_self)).1
        have hrem : (r.refilled chunk chunks).remaining = r.remaining := by
          rw [remaining_refilled, remaining_of_le hle, hchunks]
          rfl
        exact right_readUntil_of_check (cursorCheck_chunk h hle hchunks) (h.refilled hchunks)
          (List.length_pos_iff.mpr hne) hrem

theorem reader_right_two_chunks :
    Right (.readUntil 10) (readerInitialize [0, 0, 0, 0] ⟨[[97, 98], [99, 10]], false⟩ 4) := by
  refine (reader_right_iff ⟨rfl, by decide, by decide⟩ _).mpr ?_
  have hfirst : Passes 10 [97, 98, 0, 0] 2 0 := ⟨by decide, 0, rfl, rfl⟩
  have hsecond : Found 10 [99, 10, 0, 0] 2 1 := ⟨10, by decide, rfl⟩
  exact Or.inr ⟨hfirst, by decide, Or.inl hsecond⟩

/-- A line whose end comes first in the second chunk is not found. -/
theorem reader_wrong_boundary : ¬ ∀ (r : Reader) (call : ReaderCall), WellFormed r →
    Right call r := by
  intro hevery
  have hwell : WellFormed (readerInitialize [0, 0, 0, 0] ⟨[[97], [10, 98]], false⟩ 4) :=
    ⟨rfl, by decide, by decide⟩
  have hright := hevery _ (.readUntil 10) hwell
  rw [right_readUntil_of_check (cursorCheck_chunk hwell le_rfl rfl) (hwell.refilled rfl)
    (by decide) rfl] at hright
  obtain ⟨c, hc, huntil⟩ | ⟨-, hhead, -⟩ := hright
  · obtain rfl : c = 97 := by simpa [Reader.refilled, readerInitialize] using hc
    cases huntil
  · exact hhead rfl

/-! The states that calls leave. -/

section
variable {r r' : Reader} {call : ReaderCall} {result : Option (List UInt8)}

theorem wellFormed_readerInitialize {buf : List UInt8} {fd : Fd}
    (hchunks : ∀ chunk ∈ fd.chunks, chunk ≠ [] ∧ chunk.length ≤ buf.length) :
    WellFormed (readerInitialize buf fd buf.length) := ⟨rfl, Nat.zero_le _, hchunks⟩

theorem WellFormed.fillBuffer (h : WellFormed r) : WellFormed (fillBuffer r).2 := by
  cases hchunks : r.fd.chunks with
  | nil =>
    rw [fillBuffer_nil hchunks]
    exact h.emptied
  | cons chunk chunks =>
    rw [fillBuffer_chunk h hchunks]
    exact h.refilled hchunks

theorem WellFormed.cursorCheck (h : WellFormed r) : WellFormed (cursorCheck r).2 := by
  rw [C.cursorCheck]
  split
  · exact h.fillBuffer
  · exact h

theorem wellFormed_readBytesTurn {n : Nat} {s : ReadingBytes} {next : ReadingBytes ⊕ Returned}
    (h : WellFormed s.reader) (hturn : readBytesTurn n s = .ok next) :
    next.elim (fun t => WellFormed t.reader) (fun returned => WellFormed returned.2) := by
  rw [readBytesTurn] at hturn
  split at hturn
  · simp only at hturn
    split at hturn
    · obtain ⟨bytes, -, hnext⟩ := Outcome.bind_eq_ok.mp hturn
      split at hnext
      · rw [← Outcome.ok.inj hnext]
        exact h.fillBuffer
      · rw [← Outcome.ok.inj hnext]
        exact h.fillBuffer
    · obtain ⟨bytes, -, hnext⟩ := Outcome.bind_eq_ok.mp hturn
      rw [← Outcome.ok.inj hnext]
      exact h.advanced _
  · rw [← Outcome.ok.inj hturn]
    exact h

theorem wellFormed_readUntilTurn {until_ : Int8} {s : ReadingUntil}
    {next : ReadingUntil ⊕ Returned} (h : WellFormed s.reader)
    (hturn : readUntilTurn until_ s = .ok next) :
    next.elim (fun t => WellFormed t.reader) (fun returned => WellFormed returned.2) := by
  obtain ⟨-, bytes, -, rfl⟩ | ⟨-, -, bytes, -, ⟨-, rfl⟩ | ⟨c, -, rfl⟩⟩ | ⟨-, -, c, -, rfl⟩ :=
    readUntilTurn_cases hturn
  · exact h.advanced _
  · exact h.fillBuffer
  · exact h.fillBuffer.advanced _
  · exact h.advanced _

/-- Every call that returns leaves a reader of which `reader_right_iff` speaks. -/
theorem WellFormed.returns (h : WellFormed r) (hreturns : Returns call r (result, r')) :
    WellFormed r' := by
  obtain ⟨fuel, hfuel⟩ := hreturns
  have hcheck := h.cursorCheck
  cases call with
  | readBytes n =>
    rw [ReaderCall.onReader, readerReadBytes] at hfuel
    simp only at hfuel
    split at hfuel
    · exact LeavesWith.invariant (I := fun s => WellFormed s.reader)
        (Q := fun returned => WellFormed returned.2)
        (fun _ _ hs hturn => wellFormed_readBytesTurn hs hturn) ⟨fuel, hfuel⟩ hcheck
    · cases hfuel
      exact hcheck
  | readUntil until_ =>
    rw [ReaderCall.onReader, readerReadUntil] at hfuel
    simp only at hfuel
    split at hfuel
    · obtain ⟨c, -, hloop⟩ := Outcome.bind_eq_ok.mp hfuel
      exact LeavesWith.invariant (I := fun s => WellFormed s.reader)
        (Q := fun returned => WellFormed returned.2)
        (fun _ _ hs hturn => wellFormed_readUntilTurn hs hturn) ⟨fuel, hloop⟩ hcheck
    · cases hfuel
      exact hcheck

end

end WylesLibs.C
