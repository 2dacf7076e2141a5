import WylesLibs.File.Writers

/-! What is read of files after any calls of a `FileManager`: a store of contents by paths. -/
namespace WylesLibs.Stream
open Library

namespace IStreamEStream
variable {content data : List UInt8} {pos n offset size : Nat}

/-- Reads `n` bytes where `ahead` is what is left of the file: the byte behind its end is taken for
one that was read, and there is none behind that. -/
def taken (n : Nat) (ahead : List UInt8) : Outcome (List UInt8) :=
  if n ≤ ahead.length then .ok (ahead.take n)
  else if n = ahead.length + 1 then .ok (ahead ++ [eofByte])
  else (.undef)

/-- The same through `streamCollect`, which looks at each byte before it takes it. -/
def takenString (n : Nat) (ahead : List UInt8) : Outcome (List UInt8) :=
  if n ≤ ahead.length then .ok (ahead.take n) else (.undef)

/-- The sizes that `readEls` takes. -/
def ofSize (size : Nat) (out : Outcome (List UInt8)) : Outcome (List UInt8) :=
  if size = 0 then .thrown "It doesn't make sense to read zero els."
  else if arbitraryLimitBecauseDumb < size then
    .thrown "You're reading more than the limit specified... Read less, or you know what, don't read at all."
  else out

/-- What `read` gives of a file. -/
def readOut (offset size : Nat) (content : List UInt8) : Outcome (List UInt8) :=
  if size = sizeMax then
    .ok (if offset < streamoffLimit then (content.drop offset).filter (· ≠ eofByte) else [])
  else ofSize size
    (if offset < streamoffLimit then taken size (content.drop offset) else (.undef))

/-- What `readString` gives of a file. -/
def readStringOut (offset size : Nat) (content : List UInt8) : Outcome (List UInt8) :=
  if size = sizeMax then
    .ok (if offset < streamoffLimit then (content.drop offset).filter (· ≠ eofByte) else [])
  else if offset < streamoffLimit then takenString size (content.drop offset)
  else (.undef)

theorem taken_cons (n : Nat) (c : UInt8) (ahead : List UInt8) :
    taken (n + 1) (c :: ahead) = (taken n ahead).bind fun l => .ok (c :: l) := by
  by_cases hle : n ≤ ahead.length
  · simp [taken, hle]
  · by_cases heq : n = ahead.length + 1
    · simp [taken, heq]
    · simp [taken, hle, heq]

theorem takenString_cons (n : Nat) (c : UInt8) (ahead : List UInt8) :
    takenString (n + 1) (c :: ahead) = (takenString n ahead).bind fun l => .ok (c :: l) := by
  by_cases hle : n ≤ ahead.length
  · simp [takenString, hle]
  · simp [takenString, hle]

theorem drop_of_none (h : content[pos]? = none) : content.drop pos = [] :=
  List.drop_eq_nil_of_le (List.getElem?_eq_none_iff.mp h)

theorem drop_of_some {c : UInt8} (h : content[pos]? = some c) :
    content.drop pos = c :: content.drop (pos + 1) := by
  obtain ⟨hlt, rfl⟩ := List.getElem?_eq_some_iff.mp h
  exact List.drop_eq_getElem_cons hlt

/-! The calls on a stream that is good, and on one that is not. -/

theorem get_good (pos : Nat) :
    get ⟨⟨content, pos, false, false⟩⟩ =
      .ok (match content[pos]? with
        | some c => (c, ⟨⟨content, pos + 1, false, false⟩⟩)
        | none => (eofByte, ⟨⟨content, pos, true, true⟩⟩)) := by
  cases hc : content[pos]? <;>
    simp [get, readPastBuffer, IFStream.good, IFStream.get, hc]

theorem peek_good (pos : Nat) :
    peek ⟨⟨content, pos, false, false⟩⟩ =
      .ok (match content[pos]? with
        | some c => (c, ⟨⟨content, pos, false, false⟩⟩)
        | none => (eofByte, ⟨⟨content, pos, true, false⟩⟩)) := by
  cases hc : content[pos]? <;>
    simp [peek, readPastBuffer, IFStream.good, IFStream.peek, hc]

/-- A stream that is not good is made again of what was never set. -/
theorem get_bad {s : IStreamEStream} (h : s.reader.good = false) : get s = .undef := by
  simp [get, readPastBuffer, h, fillBuffer]

theorem peek_bad {s : IStreamEStream} (h : s.reader.good = false) : peek s = .undef := by
  simp [peek, readPastBuffer, h, fillBuffer]

/-! `readEls`. -/

theorem readElsLoop_good (n : Nat) (data : List UInt8) (pos : Nat) :
    ((readElsLoop n data ⟨⟨content, pos, false, false⟩⟩).bind fun p => .ok p.1) =
      (taken n (content.drop pos)).bind fun l => .ok (data ++ l) := by
  induction n generalizing data pos with
  | zero => simp [readElsLoop, taken]
  | succ n ih =>
    simp only [readElsLoop, Prog.bind_apply, get_good, Outcome.bind_ok]
    cases hc : content[pos]? with
    | some c =>
      rw [drop_of_some hc, taken_cons, Outcome.bind_assoc]
      simp only [ih, List.append_assoc, List.singleton_append, Outcome.bind_ok]
    | none =>
      rw [drop_of_none hc]
      cases n with
      | zero => simp [readElsLoop, taken]
      | succ n => simp [readElsLoop, get_bad, IFStream.good, taken]

/-! `readString` goes through `streamCollect`. -/

theorem collectLoop_eof {steps k : Nat} {el : UInt8} :
    collectLoop (steps + 1) el (⟨.good, .untilNumElements, true, k + 1, []⟩ : LoopCriteria UInt8)
      (none : Option (NullTask UInt8)) (⟨data⟩ : ByteStringCollector)
      (⟨⟨content, pos, true, false⟩⟩ : IStreamEStream) = .undef := by
  have hget : (EStreamI.get : Prog IStreamEStream UInt8) ⟨⟨content, pos, true, false⟩⟩ = .undef :=
    get_bad rfl
  by_cases hk : k = 0 <;>
    simp [collectLoop, LoopCriteriaI.nextState, LoopCriteria.nextState, LoopCriteria.untilSizeNext,
      LoopCriteriaState.isGood, hget, hk]

/-- One byte is taken, and the next one is looked at. -/
theorem collectLoop_take {steps : Nat} {c : UInt8} {criteria criteria' : LoopCriteria UInt8}
    {st : LoopCriteriaState} (hc : content[pos]? = some c)
    (hnext : LoopCriteriaI.nextState criteria c = .ok (st, criteria')) (hst : st.isGood = true) :
    collectLoop (steps + 1) c criteria (none : Option (NullTask UInt8))
      (⟨data⟩ : ByteStringCollector) (⟨⟨content, pos, false, false⟩⟩ : IStreamEStream) =
        match content[pos + 1]? with
        | some d => collectLoop steps d criteria' none ⟨data ++ [c]⟩
          ⟨⟨content, pos + 1, false, false⟩⟩
        | none => collectLoop steps eofByte criteria' none ⟨data ++ [c]⟩
          ⟨⟨content, pos + 1, true, false⟩⟩ := by
  have hget : (EStreamI.get : Prog IStreamEStream UInt8) ⟨⟨content, pos, false, false⟩⟩ =
      .ok (c, ⟨⟨content, pos + 1, false, false⟩⟩) := by
    rw [show (EStreamI.get : Prog IStreamEStream UInt8) = get from rfl, get_good, hc]
  have hpeek : (EStreamI.peek : Prog IStreamEStream UInt8) ⟨⟨content, pos + 1, false, false⟩⟩ = _ :=
    peek_good (pos + 1)
  have hgood : (EStreamI.good : Prog IStreamEStream Bool) ⟨⟨content, pos + 1, false, false⟩⟩ =
      .ok (true, ⟨⟨content, pos + 1, false, false⟩⟩) := rfl
  simp only [collectLoop, Prog.bind_apply, Prog.lift_apply, hnext, Outcome.bind_ok, hst, if_true,
    hget, hgood, performEl, Collector.accumulate, Bool.true_eq_false, false_and, if_false, hpeek]
  cases content[pos + 1]? <;> rfl

theorem collectLoop_good {steps k : Nat} (hsteps : k + 2 ≤ steps) {c : UInt8}
    (hc : content[pos]? = some c) :
    ((collectLoop steps c (⟨.good, .untilNumElements, true, k + 1, []⟩ : LoopCriteria UInt8)
      (none : Option (NullTask UInt8)) (⟨data⟩ : ByteStringCollector)
      (⟨⟨content, pos, false, false⟩⟩ : IStreamEStream)).bind fun p => .ok p.1.2.data) =
        (takenString (k + 1) (content.drop pos)).bind fun l => .ok (data ++ l) := by
  induction k generalizing steps pos c data with
  | zero =>
    obtain ⟨steps, rfl⟩ : ∃ m, steps = m + 2 := ⟨steps - 2, by omega⟩
    have hnext : LoopCriteria.nextState ⟨.good, .untilNumElements, true, 1, []⟩ c =
        .ok (.goodAtLast, ⟨.goodAtLast, .untilNumElements, true, 0, []⟩) := by
      simp [LoopCriteria.nextState, LoopCriteria.untilSizeNext]
    have hlast : ∀ d, LoopCriteriaI.nextState
        (⟨.goodAtLast, .untilNumElements, true, 0, []⟩ : LoopCriteria UInt8) d =
          .ok (.notGood, ⟨.notGood, .untilNumElements, true, sizeMax, []⟩) := by
      intro d
      simp [LoopCriteriaI.nextState, LoopCriteria.nextState, LoopCriteria.untilSizeNext,
        LoopCriteriaState.isGood]
    rw [collectLoop_take hc hnext rfl, drop_of_some hc, takenString_cons]
    cases hd : content[pos + 1]? <;>
      simp [collectLoop, hlast, LoopCriteriaState.isGood, takenString]
  | succ k ih =>
    obtain ⟨steps, rfl⟩ : ∃ m, steps = m + 2 := ⟨steps - 2, by omega⟩
    have hnext : LoopCriteria.nextState ⟨.good, .untilNumElements, true, k + 2, []⟩ c =
        .ok (.good, ⟨.good, .untilNumElements, true, k + 1, []⟩) := by
      simp [LoopCriteria.nextState, LoopCriteria.untilSizeNext, LoopCriteriaState.isGood]
    rw [collectLoop_take hc hnext rfl, drop_of_some hc, takenString_cons, Outcome.bind_assoc]
    cases hd : content[pos + 1]? with
    | some d =>
      have hrest := @ih (data ++ [c]) (pos + 1) (steps + 1) (by omega) d hd
      simp only [hrest, List.append_assoc, List.singleton_append, Outcome.bind_ok]
    | none =>
      simp [collectLoop_eof, drop_of_none hd, takenString]

theorem readString_loop {s t : IStreamEStream} {el : UInt8}
    (hpeek : (EStreamI.peek : Prog IStreamEStream UInt8) s = .ok (el, t)) (n : Nat) :
    ((Stream.readString n (none : Option (NullTask UInt8)) s).bind fun p => .ok p.1) =
      (collectLoop (n + 1) el (⟨.good, .untilNumElements, true, n, []⟩ : LoopCriteria UInt8)
        (none : Option (NullTask UInt8)) (⟨[]⟩ : ByteStringCollector) t).bind
          fun p => .ok p.1.2.data := by
  simp only [Stream.readString, streamCollect, Prog.bind_apply, hpeek, Outcome.bind_ok,
    Prog.lift_apply, Prog.pure_apply, Outcome.bind_assoc, Option.map_none]
  refine congrArg _ (funext fun p => ?_)
  obtain ⟨⟨task, collector⟩, u⟩ := p
  cases task with
  | none => rfl
  | some t => cases t

theorem readString_good (n pos : Nat) :
    ((Stream.readString n (none : Option (NullTask UInt8))
      (⟨⟨content, pos, false, false⟩⟩ : IStreamEStream)).bind fun p => .ok p.1) =
        takenString n (content.drop pos) := by
  have hpeek : (EStreamI.peek : Prog IStreamEStream UInt8) ⟨⟨content, pos, false, false⟩⟩ = _ :=
    peek_good pos
  rw [readString_loop hpeek]
  cases n with
  | zero =>
    simp [collectLoop, LoopCriteriaI.nextState, LoopCriteria.nextState,
      LoopCriteria.untilSizeNext, LoopCriteriaState.isGood, takenString]
  | succ k =>
    cases hc : content[pos]? with
    | some c => simpa using @collectLoop_good content [] pos (k + 2) k le_rfl c hc
    | none => simp [collectLoop_eof, drop_of_none hc, takenString]

/-! The reads of a file as a whole. -/

theorem readUntilEof_good (pos : Nat) :
    ((readUntilEof (content.length + 2) [] ⟨⟨content, pos, false, false⟩⟩).bind fun p => .ok p.1) =
      .ok ((content.drop pos).filter (· ≠ eofByte)) := by
  by_cases hpos : pos ≤ content.length
  · obtain ⟨s, hs⟩ := @readUntilEof_eq (content.length + 2) content [] pos (by omega) hpos
    rw [hs]
    rfl
  · have hget : content[pos]? = none := List.getElem?_eq_none (by omega)
    simp [readUntilEof, good, get, readPastBuffer, IFStream.good, IFStream.get, hget,
      drop_of_none hget]

theorem seekg_good (hoffset : offset < streamoffLimit) (pos : Nat) :
    IFStream.seekg ⟨content, pos, false, false⟩ offset = ⟨content, offset, false, false⟩ := by
  simp [IFStream.seekg, Nat.not_le.mpr hoffset]

/-- Where there is an offset it is sought once more. -/
theorem readFrom_apply (readSize : Prog IStreamEStream (List UInt8)) (s : IStreamEStream) :
    readFrom offset size readSize s =
      let t : IStreamEStream := if offset = 0 then s else ⟨s.reader.seekg offset⟩
      if size = sizeMax then readUntilEof (t.reader.content.length + 2) [] t else readSize t := by
  by_cases hzero : offset = 0
  · by_cases hsize : size = sizeMax <;> simp [readFrom, hzero, hsize]
  · simp only [readFrom, hzero, ne_eq, not_false_eq_true, if_true, if_false]
    by_cases hsize : size = sizeMax <;> simp only [hsize, if_true, if_false] <;> rfl

theorem readFrom_good (hoffset : offset < streamoffLimit)
    (readSize : Prog IStreamEStream (List UInt8)) :
    readFrom offset size readSize ⟨(IFStream.opened content).seekg offset⟩ =
      if size = sizeMax then
        readUntilEof (content.length + 2) [] ⟨⟨content, offset, false, false⟩⟩
      else readSize ⟨⟨content, offset, false, false⟩⟩ := by
  have hopened : (IFStream.opened content).seekg offset = ⟨content, offset, false, false⟩ :=
    seekg_good hoffset 0
  rw [readFrom_apply, hopened]
  by_cases hzero : offset = 0
  · simp [hzero]
  · simp [hzero, seekg_good hoffset]

theorem readFrom_bad (hoffset : streamoffLimit ≤ offset)
    (readSize : Prog IStreamEStream (List UInt8)) :
    readFrom offset size readSize ⟨(IFStream.opened content).seekg offset⟩ =
      if size = sizeMax then .ok ([], ⟨⟨content, 0, false, true⟩⟩)
      else readSize ⟨⟨content, 0, false, true⟩⟩ := by
  have hopened : (IFStream.opened content).seekg offset = ⟨content, 0, false, true⟩ := by
    simp [IFStream.seekg, IFStream.opened, hoffset]
  have hagain : IFStream.seekg ⟨content, 0, false, true⟩ offset = ⟨content, 0, false, true⟩ := by
    simp [IFStream.seekg]
  have hnone : readUntilEof (content.length + 2) [] ⟨⟨content, 0, false, true⟩⟩ =
      .ok ([], ⟨⟨content, 0, false, true⟩⟩) := rfl
  rw [readFrom_apply, hopened, hagain]
  simp only [ite_self, hnone]

theorem readEls_good (pos : Nat) :
    ((readEls size ⟨⟨content, pos, false, false⟩⟩).bind fun p => .ok p.1) =
      ofSize size (taken size (content.drop pos)) := by
  unfold readEls ofSize
  split_ifs
  · rfl
  · rfl
  · simpa using readElsLoop_good size [] pos

theorem readEls_bad {s : IStreamEStream} (h : s.reader.good = false) :
    ((readEls size s).bind fun p => .ok p.1) = ofSize size .undef := by
  cases size with
  | zero => rfl
  | succ n =>
    have hloop : readElsLoop (n + 1) [] s = .undef := by simp [readElsLoop, get_bad h]
    rw [readEls, ofSize, if_neg (Nat.succ_ne_zero n), if_neg (Nat.succ_ne_zero n)]
    split_ifs
    · rfl
    · rw [hloop]
      rfl

theorem read_opened (content : List UInt8) (offset size : Nat) :
    ((read offset size ⟨(IFStream.opened content).seekg offset⟩).bind fun p => .ok p.1) =
      readOut offset size content := by
  unfold read readOut
  by_cases hoffset : offset < streamoffLimit
  · rw [readFrom_good hoffset]
    by_cases hsize : size = sizeMax
    · simp only [hsize, hoffset, if_true, readUntilEof_good]
    · simp only [hsize, hoffset, if_true, if_false, readEls_good]
  · rw [readFrom_bad (Nat.not_lt.mp hoffset)]
    by_cases hsize : size = sizeMax
    · simp [hsize, hoffset]
    · simp only [hsize, hoffset, if_false, readEls_bad (s := ⟨⟨content, 0, false, true⟩⟩) rfl]

theorem readString_opened (content : List UInt8) (offset size : Nat) :
    ((readString offset size ⟨(IFStream.opened content).seekg offset⟩).bind fun p => .ok p.1) =
      readStringOut offset size content := by
  unfold readString readStringOut
  by_cases hoffset : offset < streamoffLimit
  · rw [readFrom_good hoffset]
    by_cases hsize : size = sizeMax
    · simp only [hsize, hoffset, if_true, readUntilEof_good]
    · simp only [hsize, hoffset, if_true, if_false, readString_good]
  · rw [readFrom_bad (Nat.not_lt.mp hoffset)]
    by_cases hsize : size = sizeMax
    · simp [hsize, hoffset]
    · have hpeek : (EStreamI.peek : Prog IStreamEStream UInt8) ⟨⟨content, 0, false, true⟩⟩ =
          .undef := peek_bad rfl
      simp [hsize, hoffset, Stream.readString, streamCollect, hpeek]

end IStreamEStream
end WylesLibs.Stream

namespace WylesLibs.File
open Library WylesLibs.Stream

/-- A `FileManager` with its `StreamFactory`. -/
structure Store where
  files : String → Option (List UInt8)
  unreadable : String → Bool
  unwritable : String → Bool
  factory : StreamFactory

inductive Request where
  | write (path : String) (w : Write)
  | read (path : String) (offset size : Nat)
  | readString (path : String) (offset size : Nat)

namespace Store

def manager (s : Store) : FileManager := ⟨s.files, s.unreadable, s.unwritable, s.factory.writers⟩

def onFactory (m : Call StreamFactory Unit) : Call Store Unit := fun s =>
  ((m s.factory).1, { s with factory := (m s.factory).2 })

/-- `FileManager::write`. The file is truncated when the factory opens it. -/
def write (path : String) (w : Write) : Call Store Unit := do
  let unwritable ← Call.view fun s => s.unwritable path
  onFactory (StreamFactory.writer path (!unwritable))
  Call.modify fun s => { s with
    files := Function.update s.files path (some ((w.seekp .truncated).write w.buffer).content) }
  onFactory (StreamFactory.removeWriter path)

def call : Request → Call Store (List UInt8)
  | .write path w => do
    write path w
    pure []
  | .read path offset size => fun s => (s.manager.read path offset size, s)
  | .readString path offset size => fun s => (s.manager.readString path offset size, s)

end Store

/-- What a file manager is: the contents by their paths, and whether a refused write has left the
lock behind. -/
structure Disk where
  files : String → Option (List UInt8)
  stuck : Bool

namespace Disk

def readThrough (out : List UInt8 → Outcome (List UInt8)) (unreadable : String → Bool)
    (path : String) (d : Disk) : Outcome (List UInt8) :=
  match d.files path, unreadable path with
  | some content, false => out content
  | _, _ => .thrown ("Unable to open file at path: " ++ path ++ " for reading.\n")

/-- A write leaves what it has written and nothing of what was there. -/
def call (unreadable unwritable : String → Bool) : Request → Call Disk (List UInt8)
  | .write path w => fun d =>
    if d.stuck then (.timeout, d)
    else if unwritable path then
      (.thrown ("Unable to open file at path: " ++ path ++ " for writing.\n"),
        { d with stuck := true })
    else (.ok [], { d with
      files := Function.update d.files path (some (FileManager.written w)) })
  | .read path offset size => fun d =>
    (d.readThrough (IStreamEStream.readOut offset size) unreadable path, d)
  | .readString path offset size => fun d =>
    (d.readThrough (IStreamEStream.readStringOut offset size) unreadable path, d)

end Disk

namespace Store

def disk (s : Store) : Disk := ⟨s.files, s.factory.writersLock⟩

section
variable {path : String} {w : Write} {offset size : Nat}

theorem read_manager (s : Store) : s.manager.read path offset size =
    s.disk.readThrough (IStreamEStream.readOut offset size) s.unreadable path := by
  simp only [manager, FileManager.read, FileManager.reader, Disk.readThrough, disk]
  cases s.files path with
  | none => rfl
  | some content =>
    cases s.unreadable path with
    | true => rfl
    | false => exact IStreamEStream.read_opened content offset size

theorem readString_manager (s : Store) : s.manager.readString path offset size =
    s.disk.readThrough (IStreamEStream.readStringOut offset size) s.unreadable path := by
  simp only [manager, FileManager.readString, FileManager.reader, Disk.readThrough, disk]
  cases s.files path with
  | none => rfl
  | some content =>
    cases s.unreadable path with
    | true => rfl
    | false => exact IStreamEStream.readString_opened content offset size

theorem write_locked {s : Store} (hlock : s.factory.writersLock = true) :
    write path w s = (.timeout, s) := by
  simp only [write, Bind.bind, Call.view_apply, onFactory, StreamFactory.writer_locked _ hlock]

theorem write_refused {s : Store} (hlock : s.factory.writersLock = false)
    (hunwritable : s.unwritable path = true) :
    write path w s = (.thrown ("Unable to open file at path: " ++ path ++ " for writing.\n"),
      { s with factory := ⟨s.factory.writers, true⟩ }) := by
  have hwriter : StreamFactory.writer path (!s.unwritable path) s.factory =
      (.thrown ("Unable to open file at path: " ++ path ++ " for writing.\n"),
        ⟨s.factory.writers, true⟩) := by
    rw [StreamFactory.eq_mk hlock, hunwritable]
    exact StreamFactory.writer_refused
  simp only [write, Bind.bind, Call.view_apply, onFactory, hwriter]

theorem write_opened {s : Store} (hlock : s.factory.writersLock = false)
    (hopens : s.unwritable path = false) :
    write path w s = (.ok (), { s with
      files := Function.update s.files path (some (FileManager.written w))
      factory := ⟨(s.factory.writers ++ [path]).erase path, false⟩ }) := by
  have hwriter : StreamFactory.writer path (!s.unwritable path) s.factory =
      (.ok (), ⟨s.factory.writers ++ [path], false⟩) := by
    rw [StreamFactory.eq_mk hlock, hopens]
    exact StreamFactory.writer_free
  simp only [write, Bind.bind, Call.view_apply, onFactory, hwriter, Call.modify_apply,
    StreamFactory.removeWriter_free, w.content_written]

/-- One call does to the files and to the lock what it does to the disk, and answers the same. -/
theorem call_disk (c : Request) (s : Store) :
    Disk.call s.unreadable s.unwritable c s.disk = ((call c s).1, (call c s).2.disk) ∧
      (call c s).2.unreadable = s.unreadable ∧ (call c s).2.unwritable = s.unwritable := by
  cases c with
  | read path offset size =>
    simp [Disk.call, call, read_manager]
  | readString path offset size =>
    simp [Disk.call, call, readString_manager]
  | write path w =>
    cases hlock : s.factory.writersLock with
    | true =>
      simp [Disk.call, call, Bind.bind, write_locked hlock, disk, hlock]
    | false =>
      cases hunwritable : s.unwritable path with
      | true =>
        simp [Disk.call, call, Bind.bind, write_refused hlock hunwritable, disk, hlock, hunwritable]
      | false =>
        simp [Disk.call, call, Bind.bind, write_opened hlock hunwritable, disk, hlock, hunwritable]

/-- Whatever is written and read, of whatever files, at whatever offsets and in whatever order: the
calls answer and leave behind what they would of the disk. -/
theorem trace_disk (calls : List Request) (s : Store) :
    (Call.trace call calls s).map (fun r => (r.1, r.2.disk)) =
      Call.trace (Disk.call s.unreadable s.unwritable) calls s.disk := by
  induction calls generalizing s with
  | nil => rfl
  | cons c calls ih =>
    obtain ⟨hcall, hunreadable, hunwritable⟩ := call_disk c s
    have hrest := ih (call c s).2
    rw [hunreadable, hunwritable] at hrest
    simp only [Call.trace, List.map_cons, hcall, hrest]

end
end Store
end WylesLibs.File
