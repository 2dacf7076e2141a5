import WylesLibs.File.StreamFactory
import WylesLibs.File.Update
import WylesLibs.Library.Endless

/-! Threads that write through one `FileManager` at the same time. -/
namespace WylesLibs.File
open Library

namespace Write

def buffer : Write → List UInt8
  | .append buffer _ => buffer
  | .atOffset buffer _ => buffer

def seekp (stream : OFStream) : Write → OFStream
  | .append _ true => stream.seekpEnd
  | .append _ false => stream.seekp 0
  | .atOffset _ offset => stream.seekp offset

theorem content_seekp (w : Write) (stream : OFStream) :
    (w.seekp stream).content = stream.content := by
  have hoffset : ∀ offset, (stream.seekp offset).content = stream.content := by
    intro offset
    unfold OFStream.seekp
    split_ifs <;> rfl
  cases w with
  | append buffer append =>
    cases append with
    | true =>
      unfold seekp OFStream.seekpEnd
      split_ifs <;> rfl
    | false => exact hoffset 0
  | atOffset buffer offset => exact hoffset offset

theorem content_written (w : Write) :
    ((w.seekp .truncated).write w.buffer).content = FileManager.written w := by
  cases w with
  | append buffer append =>
    cases append <;>
      simp [seekp, Write.buffer, FileManager.written, OFStream.content_write_truncated]
  | atOffset buffer offset =>
    simp [seekp, Write.buffer, FileManager.written, OFStream.content_write_seekp_truncated]

end Write

namespace StreamFactory
variable {f : StreamFactory} {path : String} {writersLock : Bool}

theorem eq_mk (h : f.writersLock = writersLock) : f = ⟨f.writers, writersLock⟩ := by
  rw [← h]

theorem writer_locked (opens : Bool) (h : f.writersLock = true) :
    writer path opens f = (.timeout, f) := by
  rw [eq_mk h]
  exact call_locked (c := .writer path opens)

theorem removeWriter_locked (h : f.writersLock = true) : removeWriter path f = (.timeout, f) := by
  rw [eq_mk h]
  exact call_locked (c := .removeWriter path)

end StreamFactory

/-- How far a thread has come with its `write`; the stream is closed when it is `flushed`. -/
inductive Stage where
  | idle
  | opened (path : String) (w : Write)
  | sought (path : String) (w : Write) (stream : OFStream)
  | flushed (path : String) (w : Write)
  | thrown

namespace Stage

/-- The path is on the list of writers for this thread. -/
def Holds (path : String) : Stage → Prop
  | opened p _ | sought p _ _ | flushed p _ => p = path
  | idle | thrown => False

theorem Holds.iff {stage : Stage} {path p : String} (h : stage.Holds path) :
    stage.Holds p ↔ p = path := by
  cases stage with
  | idle => exact h.elim
  | thrown => exact h.elim
  | opened q w => exact (h : q = path) ▸ eq_comm
  | sought q w stream => exact (h : q = path) ▸ eq_comm
  | flushed q w => exact (h : q = path) ▸ eq_comm

theorem Holds.unique {stage : Stage} {path p : String} (hp : stage.Holds p)
    (h : stage.Holds path) : p = path := h.iff.mp hp

/-- What the file of a thread is to hold while nobody else writes it. -/
def Content (file : Option (List UInt8)) : Stage → Prop
  | idle | thrown => True
  | opened _ _ => file = some []
  | sought _ w stream => file = some [] ∧ stream = w.seekp .truncated
  | flushed _ w => file = some (FileManager.written w)

end Stage

structure Concurrent where
  files : String → Option (List UInt8)
  unreadable : String → Bool
  unwritable : String → Bool
  factory : StreamFactory
  threads : Nat → Stage

namespace Concurrent

/-- The parts of `FileManager::write`. The rest of `StreamFactory::writer` runs under its lock. -/
inductive Turn where
  | writer (id : Nat) (path : String) (w : Write)
  | seekp (id : Nat)
  | write (id : Nat)
  | removeWriter (id : Nat)

def manager (s : Concurrent) : FileManager := ⟨s.files, s.unreadable, s.unwritable, s.factory.writers⟩

def contentOf (s : Concurrent) (path : String) : List UInt8 := s.manager.contentOf path

def put (s : Concurrent) (path : String) (content : List UInt8) : Concurrent :=
  { s with files := Function.update s.files path (some content) }

def goes (s : Concurrent) (id : Nat) (stage : Stage) : Concurrent :=
  { s with threads := Function.update s.threads id stage }

/-- A thread that waits for the lock takes no step. What is written goes where the thread has
sought, into what the file holds by then. -/
def step (s : Concurrent) : Turn → Option Concurrent
  | .writer id path w =>
    match s.threads id, StreamFactory.writer path (!s.unwritable path) s.factory with
    | .idle, (.ok (), factory) =>
      some (({ s with factory := factory }.put path []).goes id (.opened path w))
    | .idle, (.thrown _, factory) => some ({ s with factory := factory }.goes id .thrown)
    | _, _ => none
  | .seekp id =>
    match s.threads id with
    | .opened path w => some (s.goes id (.sought path w (w.seekp ⟨s.contentOf path, 0, false⟩)))
    | _ => none
  | .write id =>
    match s.threads id with
    | .sought path w stream =>
      let stream := { stream with content := s.contentOf path }.write w.buffer
      some ((s.put path stream.content).goes id (.flushed path w))
    | _ => none
  | .removeWriter id =>
    match s.threads id with
    | .flushed path _ =>
      match StreamFactory.removeWriter path s.factory with
      | (.ok (), factory) => some ({ s with factory := factory }.goes id .idle)
      | _ => none
    | _ => none

section
variable {s u : Concurrent} {id : Nat} {path : String} {w : Write} {turn : Turn}

/-- What a turn can do. -/
inductive Next (s : Concurrent) : Turn → Concurrent → Prop where
  | opened {id : Nat} {path : String} {w : Write} (hidle : s.threads id = .idle)
      (hlock : s.factory.writersLock = false) (hopens : s.unwritable path = false) :
      Next s (.writer id path w)
        (({ s with factory := ⟨s.factory.writers ++ [path], false⟩ }.put path []).goes id
          (.opened path w))
  | refused {id : Nat} {path : String} {w : Write} (hidle : s.threads id = .idle)
      (hlock : s.factory.writersLock = false) (hunwritable : s.unwritable path = true) :
      Next s (.writer id path w)
        ({ s with factory := ⟨s.factory.writers, true⟩ }.goes id .thrown)
  | sought {id : Nat} {path : String} {w : Write} (hstage : s.threads id = .opened path w) :
      Next s (.seekp id) (s.goes id (.sought path w (w.seekp ⟨s.contentOf path, 0, false⟩)))
  | flushed {id : Nat} {path : String} {w : Write} {stream : OFStream}
      (hstage : s.threads id = .sought path w stream) :
      Next s (.write id)
        ((s.put path ({ stream with content := s.contentOf path }.write w.buffer).content).goes id
          (.flushed path w))
  | returned {id : Nat} {path : String} {w : Write} (hstage : s.threads id = .flushed path w)
      (hlock : s.factory.writersLock = false) :
      Next s (.removeWriter id)
        ({ s with factory := ⟨s.factory.writers.erase path, false⟩ }.goes id .idle)

theorem step_writer_locked (h : s.factory.writersLock = true) :
    step s (.writer id path w) = none := by
  have hcall : StreamFactory.writer path (!s.unwritable path) s.factory = (.timeout, s.factory) :=
    StreamFactory.writer_locked _ h
  cases hstage : s.threads id <;> simp [step, hcall, hstage]

theorem step_removeWriter_locked (h : s.factory.writersLock = true) :
    step s (.removeWriter id) = none := by
  have hcall : ∀ path, StreamFactory.removeWriter path s.factory = (.timeout, s.factory) :=
    fun _ => StreamFactory.removeWriter_locked h
  cases hstage : s.threads id <;> simp [step, hcall, hstage]

theorem step_iff : step s turn = some u ↔ Next s turn u := by
  constructor
  · intro hstep
    cases turn with
    | writer id path w =>
      cases hlock : s.factory.writersLock with
      | true => simp [step_writer_locked hlock] at hstep
      | false =>
        have hfactory := StreamFactory.eq_mk hlock
        cases hstage : s.threads id with
        | idle =>
          cases hunwritable : s.unwritable path with
          | false =>
            rw [step, hstage, hfactory, hunwritable] at hstep
            cases hstep
            exact .opened hstage hlock hunwritable
          | true =>
            rw [step, hstage, hfactory, hunwritable] at hstep
            cases hstep
            exact .refused hstage hlock hunwritable
        | _ => simp [step, hstage] at hstep
    | seekp id =>
      cases hstage : s.threads id with
      | opened path w =>
        rw [step, hstage] at hstep
        cases hstep
        exact .sought hstage
      | _ => simp [step, hstage] at hstep
    | write id =>
      cases hstage : s.threads id with
      | sought path w stream =>
        rw [step, hstage] at hstep
        cases hstep
        exact .flushed hstage
      | _ => simp [step, hstage] at hstep
    | removeWriter id =>
      cases hlock : s.factory.writersLock with
      | true => simp [step_removeWriter_locked hlock] at hstep
      | false =>
        have hfactory := StreamFactory.eq_mk hlock
        cases hstage : s.threads id with
        | flushed path w =>
          rw [step, hstage, hfactory] at hstep
          cases hstep
          exact .returned hstage hlock
        | _ => simp [step, hstage] at hstep
  · intro hnext
    cases hnext with
    | opened hidle hlock hopens =>
      rw [step, hidle, StreamFactory.eq_mk hlock, hopens]
      rfl
    | refused hidle hlock hunwritable =>
      rw [step, hidle, StreamFactory.eq_mk hlock, hunwritable]
      rfl
    | sought hstage => rw [step, hstage]
    | flushed hstage => rw [step, hstage]
    | returned hstage hlock =>
      rw [step, hstage, StreamFactory.eq_mk hlock]
      rfl

/-! Writes one after the other. -/

/-- The calls that have come back, in the order of their `removeWriter`. -/
def returned (s : Concurrent) : Turn → Option (String × Write)
  | .removeWriter id =>
    match s.threads id with
    | .flushed path w => some (path, w)
    | _ => none
  | _ => none

def serially (m : FileManager) (call : String × Write) : Option FileManager :=
  FileManager.perform call.1 m call.2

/-- Nobody else is at the file when a thread opens it. The source asks the list of writers, and does
nothing about the answer. -/
def Alone (s : Concurrent) : Turn → Prop
  | .writer _ path _ => path ∉ s.factory.writers
  | _ => True

instance (s : Concurrent) : (turn : Turn) → Decidable (Alone s turn)
  | .writer _ path _ => inferInstanceAs (Decidable (path ∉ s.factory.writers))
  | .seekp _ | .write _ | .removeWriter _ => isTrue trivial

/-- The files are those of a manager that has made the calls `done` one after the other, but for
those that a thread is at. -/
structure Serial (m : FileManager) (done : List (String × Write)) (s : Concurrent) : Prop where
  nodup : s.factory.writers.Nodup
  writers : ∀ path, path ∈ s.factory.writers ↔ ∃ id, (s.threads id).Holds path
  one : ∀ path id id', (s.threads id).Holds path → (s.threads id').Holds path → id = id'
  opens : ∀ path id, (s.threads id).Holds path → s.unwritable path = false
  content : ∀ path id, (s.threads id).Holds path → (s.threads id).Content (s.files path)
  serial : ∃ m', run serially m done = some m' ∧ m'.unwritable = s.unwritable ∧
    ∀ path, path ∉ s.factory.writers → m'.files path = s.files path

@[simp] theorem threads_put (content : List UInt8) : (s.put path content).threads = s.threads := rfl
@[simp] theorem factory_put (content : List UInt8) : (s.put path content).factory = s.factory := rfl
@[simp] theorem unwritable_put (content : List UInt8) : (s.put path content).unwritable = s.unwritable := rfl
@[simp] theorem files_goes (stage : Stage) : (s.goes id stage).files = s.files := rfl
@[simp] theorem factory_goes (stage : Stage) : (s.goes id stage).factory = s.factory := rfl
@[simp] theorem unwritable_goes (stage : Stage) : (s.goes id stage).unwritable = s.unwritable := rfl
theorem threads_goes (stage : Stage) (i : Nat) :
    (s.goes id stage).threads i = if i = id then stage else s.threads i := by
  simp [goes, Function.update_apply]

theorem threads_goes_self (stage : Stage) : (s.goes id stage).threads id = stage :=
  Function.update_self _ _ _

theorem files_put (content : List UInt8) (p : String) :
    (s.put path content).files p = if p = path then some content else s.files p := by
  simp [put, Function.update_apply]

theorem perform_eq {m : FileManager} (h : m.unwritable path = false) :
    FileManager.perform path m w =
      some (({ m with writers := m.writers ++ [path] }.flush path
        ((w.seekp .truncated).write w.buffer)).removeWriter path) := by
  cases w with
  | append buffer append =>
    cases append <;>
      simp [FileManager.perform, FileManager.write, FileManager.writer, h, Outcome.toOption,
        Write.seekp, Write.buffer]
  | atOffset buffer offset =>
    simp [FileManager.perform, FileManager.writeAt, FileManager.writer, h, Outcome.toOption,
      Write.seekp, Write.buffer]

theorem perform_files {m : FileManager} (h : m.unwritable path = false) :
    ∃ m', FileManager.perform path m w = some m' ∧ m'.unwritable = m.unwritable ∧
      m'.files path = some (FileManager.written w) ∧ ∀ p, p ≠ path → m'.files p = m.files p := by
  refine ⟨_, perform_eq h, rfl, ?_, fun p hp => ?_⟩
  · simp [FileManager.removeWriter, FileManager.flush, Write.content_written]
  · simp [FileManager.removeWriter, FileManager.flush, hp]

namespace Serial
variable {m : FileManager} {done : List (String × Write)}

theorem start (hthreads : ∀ id, s.threads id = .idle) (hwriters : s.factory.writers = []) :
    Serial s.manager [] s where
  nodup := by simp [hwriters]
  writers path := by simp [hwriters, hthreads, Stage.Holds]
  one path id id' h := by simp [hthreads, Stage.Holds] at h
  opens path id h := by simp [hthreads, Stage.Holds] at h
  content path id h := by simp [hthreads, Stage.Holds] at h
  serial := ⟨s.manager, rfl, rfl, fun _ _ => rfl⟩

/-- A turn of a thread at its file: what it does to that file is all that it changes. -/
theorem moved (h : Serial m done s) (stage : Stage) (content : List UInt8)
    (hat : (s.threads id).Holds path) (hholds : stage.Holds path)
    (hcontent : stage.Content (some content)) :
    Serial m done ((s.put path content).goes id stage) := by
  have hsame : ∀ p i, (((s.put path content).goes id stage).threads i).Holds p ↔
      (s.threads i).Holds p := by
    intro p i
    rw [threads_goes]
    by_cases hi : i = id
    · subst hi
      simp only [if_true, hholds.iff, hat.iff]
    · simp [hi]
  constructor
  · exact h.nodup
  · intro p
    simp only [hsame]
    exact h.writers p
  · intro p i i'
    simp only [hsame]
    exact h.one p i i'
  · intro p i
    simp only [hsame]
    exact h.opens p i
  · intro p i hi
    rw [hsame] at hi
    rw [threads_goes, files_goes, files_put]
    by_cases hid : i = id
    · subst hid
      simpa [hi.unique hat] using hcontent
    · have hne : p ≠ path := by
        rintro rfl
        exact hid (h.one p i id hi hat)
      simpa [hid, hne] using h.content p i hi
  · obtain ⟨m', hm', hunwritable, hfiles⟩ := h.serial
    refine ⟨m', hm', hunwritable, fun p hp => ?_⟩
    have hne : p ≠ path := by
      rintro rfl
      exact hp ((h.writers p).mpr ⟨id, hat⟩)
    simpa [files_put, hne] using hfiles p hp

/-- A thread opens a file that nobody is at. -/
theorem opened (h : Serial m done s) (hidle : s.threads id = .idle)
    (hopens : s.unwritable path = false) (halone : path ∉ s.factory.writers) :
    Serial m done (({ s with factory := ⟨s.factory.writers ++ [path], false⟩ }.put path []).goes id
      (.opened path w)) := by
  have hfree : ∀ i, ¬ (s.threads i).Holds path := fun i hi => halone ((h.writers path).mpr ⟨i, hi⟩)
  have hholds : ∀ p i, ((if i = id then Stage.opened path w else s.threads i).Holds p ↔
      i = id ∧ p = path ∨ (s.threads i).Holds p) := by
    intro p i
    by_cases hi : i = id
    · simp [hi, hidle, Stage.Holds, eq_comm]
    · simp [hi]
  constructor
  · exact List.nodup_append.mpr ⟨h.nodup, List.nodup_singleton path, by
      rintro p hp q hq rfl
      exact halone (List.mem_singleton.mp hq ▸ hp)⟩
  · intro p
    simp only [threads_goes, threads_put, hholds, factory_goes, factory_put, List.mem_append,
      List.mem_singleton, h.writers p, exists_or, exists_eq_left]
    exact or_comm
  · intro p i i' hi hi'
    rw [threads_goes, threads_put, hholds] at hi hi'
    obtain ⟨rfl, rfl⟩ | hi := hi
    · obtain ⟨rfl, -⟩ | hi' := hi'
      · rfl
      · exact (hfree i' hi').elim
    · obtain ⟨rfl, rfl⟩ | hi' := hi'
      · exact (hfree i hi).elim
      · exact h.one p i i' hi hi'
  · intro p i hi
    rw [threads_goes, threads_put, hholds] at hi
    obtain ⟨-, rfl⟩ | hi := hi
    · exact hopens
    · exact h.opens p i hi
  · intro p i hi
    rw [threads_goes, threads_put, hholds] at hi
    rw [threads_goes, files_goes, files_put]
    obtain ⟨rfl, rfl⟩ | hi := hi
    · simp [Stage.Content]
    · have hp : p ≠ path := by
        rintro rfl
        exact hfree i hi
      have hid : i ≠ id := by
        rintro rfl
        simp [hidle, Stage.Holds] at hi
      simpa [hid, hp] using h.content p i hi
  · obtain ⟨m', hm', hunwritable, hfiles⟩ := h.serial
    refine ⟨m', hm', hunwritable, fun p hp => ?_⟩
    have hp' : p ∉ s.factory.writers ∧ p ≠ path := by simpa using hp
    simpa [files_put, hp'.2] using hfiles p hp'.1

/-- The call of a thread comes back. -/
theorem returned (h : Serial m done s) (hstage : s.threads id = .flushed path w) :
    Serial m (done ++ [(path, w)])
      ({ s with factory := ⟨s.factory.writers.erase path, false⟩ }.goes id .idle) := by
  have hat : (s.threads id).Holds path := by simp [hstage, Stage.Holds]
  have hholds : ∀ p i, ((if i = id then Stage.idle else s.threads i).Holds p ↔
      p ≠ path ∧ (s.threads i).Holds p) := by
    intro p i
    by_cases hi : i = id
    · subst hi
      simp only [if_true, hat.iff, not_and_self_iff, iff_false]
      exact id
    · simp only [hi, if_false]
      refine ⟨fun hp => ⟨?_, hp⟩, And.right⟩
      rintro rfl
      exact hi (h.one p i id hp hat)
  have hmem : ∀ p, p ∈ s.factory.writers.erase path ↔ p ≠ path ∧ p ∈ s.factory.writers :=
    fun p => h.nodup.mem_erase_iff
  constructor
  · exact h.nodup.erase path
  · intro p
    simp only [threads_goes, hholds, factory_goes, hmem, h.writers p, exists_and_left]
  · intro p i i' hi hi'
    rw [threads_goes, hholds] at hi hi'
    exact h.one p i i' hi.2 hi'.2
  · intro p i hi
    rw [threads_goes, hholds] at hi
    exact h.opens p i hi.2
  · intro p i hi
    rw [threads_goes, hholds] at hi
    rw [threads_goes]
    by_cases hid : i = id
    · simp [hid, Stage.Content]
    · simpa [hid] using h.content p i hi.2
  · obtain ⟨m', hm', hunwritable, hfiles⟩ := h.serial
    have hopens : m'.unwritable path = false := by
      rw [hunwritable]
      exact h.opens path id hat
    obtain ⟨m'', hm'', hunwritable', hpath, hother⟩ := perform_files (w := w) hopens
    have hcontent : s.files path = some (FileManager.written w) := by
      simpa [hstage, Stage.Content] using h.content path id hat
    refine ⟨m'', ?_, hunwritable'.trans hunwritable, fun p hp => ?_⟩
    · rw [run_append, hm', Option.bind_some, run_cons, serially, hm'']
      rfl
    · by_cases hp' : p = path
      · subst hp'
        exact hpath.trans hcontent.symm
      · rw [hother p hp']
        exact hfiles p fun hin => hp ((hmem p).mpr ⟨hp', hin⟩)

/-- A call that is refused leaves every file as it is. -/
theorem refused (h : Serial m done s) (hidle : s.threads id = .idle) :
    Serial m done ({ s with factory := ⟨s.factory.writers, true⟩ }.goes id .thrown) := by
  have hholds : ∀ p i, ((if i = id then Stage.thrown else s.threads i).Holds p ↔
      (s.threads i).Holds p) := by
    intro p i
    by_cases hi : i = id
    · simp [hi, hidle, Stage.Holds]
    · simp [hi]
  constructor
  · exact h.nodup
  · intro p
    simp only [threads_goes, hholds, factory_goes]
    exact h.writers p
  · intro p i i' hi hi'
    rw [threads_goes, hholds] at hi hi'
    exact h.one p i i' hi hi'
  · intro p i hi
    rw [threads_goes, hholds] at hi
    exact h.opens p i hi
  · intro p i hi
    rw [threads_goes, hholds] at hi
    rw [threads_goes]
    by_cases hid : i = id
    · simp [hid, Stage.Content]
    · simpa [hid] using h.content p i hi
  · exact h.serial

theorem put_self {content : List UInt8} (h : s.files path = some content) :
    s.put path content = s := by
  simp [put, ← h]

theorem contentOf_eq {content : List UInt8} (h : s.files path = some content) :
    s.contentOf path = content := by
  simp [contentOf, manager, FileManager.contentOf, h]

theorem step (h : Serial m done s) (halone : Alone s turn) (hstep : step s turn = some u) :
    Serial m (done ++ (Concurrent.returned s turn).toList) u := by
  cases step_iff.mp hstep with
  | opened hidle hlock hopens =>
    simpa [Concurrent.returned] using h.opened hidle hopens halone
  | refused hidle hlock hunwritable =>
    simpa [Concurrent.returned] using h.refused hidle
  | @sought id path w hstage =>
    have hat : (s.threads id).Holds path := by simp [hstage, Stage.Holds]
    have hempty : s.files path = some [] := by
      simpa [hstage, Stage.Content] using h.content path id hat
    have hmoved := h.moved (.sought path w (w.seekp .truncated)) [] hat rfl ⟨rfl, rfl⟩
    rw [put_self hempty] at hmoved
    simpa [Concurrent.returned, contentOf_eq hempty, OFStream.truncated] using hmoved
  | @flushed id path w stream hstage =>
    have hat : (s.threads id).Holds path := by simp [hstage, Stage.Holds]
    obtain ⟨hempty, hstream⟩ : s.files path = some [] ∧ stream = w.seekp .truncated := by
      simpa [hstage, Stage.Content] using h.content path id hat
    have hsame : { stream with content := s.contentOf path } = w.seekp .truncated := by
      rw [contentOf_eq hempty, hstream]
      exact congrArg (fun content => { w.seekp .truncated with content })
        (w.content_seekp .truncated).symm
    have hmoved := h.moved (.flushed path w) (FileManager.written w) hat rfl rfl
    rw [hsame, Write.content_written]
    simpa [Concurrent.returned] using hmoved
  | @returned id path w hstage hlock =>
    simpa [Concurrent.returned, hstage] using h.returned hstage

end Serial

/-! The lock. -/

def Turn.thread : Turn → Nat
  | .writer id _ _ | .seekp id | .write id | .removeWriter id => id

/-- The system opens the file that the turn is to open. -/
def Opens (unwritable : String → Bool) : Turn → Prop
  | .writer _ path _ => unwritable path = false
  | _ => True

theorem Next.unwritable (h : Next s turn u) : u.unwritable = s.unwritable := by
  cases h <;> rfl

theorem Next.writersLock (h : Next s turn u) :
    u.factory.writersLock = false ↔ s.factory.writersLock = false ∧ Opens s.unwritable turn := by
  cases h with
  | opened hidle hlock hopens => simp [Opens, hlock, hopens]
  | refused hidle hlock hunwritable => simp [Opens, hunwritable]
  | sought hstage => simp [Opens]
  | flushed hstage => simp [Opens]
  | returned hstage hlock => simp [Opens, hlock]

theorem writersLock_run {turns : List Turn} (hrun : run step s turns = some u) :
    u.factory.writersLock = false ↔
      s.factory.writersLock = false ∧ ∀ turn ∈ turns, Opens s.unwritable turn := by
  induction turns generalizing s with
  | nil =>
    obtain rfl : s = u := by simpa using hrun
    simp
  | cons turn turns ih =>
    rw [run_cons, Option.bind_eq_some_iff] at hrun
    obtain ⟨t, ht, hrun⟩ := hrun
    have hnext := step_iff.mp ht
    rw [ih hrun, hnext.writersLock, hnext.unwritable, List.forall_mem_cons, and_assoc]

/-- With the lock held, a thread that is at a file stays there. -/
theorem Next.holds_of_locked (h : Next s turn u) (hlock : s.factory.writersLock = true)
    (hat : (s.threads id).Holds path) : (u.threads id).Holds path := by
  cases h with
  | opened hidle hfree => simp [hfree] at hlock
  | refused hidle hfree => simp [hfree] at hlock
  | returned hstage hfree => simp [hfree] at hlock
  | @sought i p w hstage =>
    rw [threads_goes]
    by_cases hi : id = i
    · subst hi
      simpa [hstage, Stage.Holds] using hat
    · simpa [hi] using hat
  | @flushed i p w stream hstage =>
    rw [threads_goes]
    by_cases hi : id = i
    · subst hi
      simpa [hstage, Stage.Holds] using hat
    · simpa [hi] using hat

/-- Nobody comes back any more. -/
theorem holds_of_locked {turns : List Turn} (hlock : s.factory.writersLock = true)
    (hat : (s.threads id).Holds path) (hrun : run step s turns = some u) :
    (u.threads id).Holds path := by
  have h : u.factory.writersLock = true ∧ (u.threads id).Holds path := by
    refine invariant_of_run (I := fun s => s.factory.writersLock = true ∧ (s.threads id).Holds path)
      ?_ ⟨hlock, hat⟩ hrun
    intro s turn t hs hstep
    have hnext := step_iff.mp hstep
    refine ⟨?_, hnext.holds_of_locked hs.1 hs.2⟩
    by_contra hfree
    have hfree := hnext.writersLock.mp (Bool.not_eq_true _ ▸ hfree)
    simp [hs.1] at hfree
  exact h.2

/-- The thread can come back without any other taking a turn. -/
def Finishes (s : Concurrent) (id : Nat) : Prop :=
  ∃ turns v, (∀ turn ∈ turns, turn.thread = id) ∧ run step s turns = some v ∧ v.threads id = .idle

theorem Finishes.cons {t : Concurrent} (hnext : Next s turn t) (hturn : turn.thread = id)
    (h : Finishes t id) : Finishes s id := by
  obtain ⟨turns, v, hown, hrun, hidle⟩ := h
  refine ⟨turn :: turns, v, List.forall_mem_cons.mpr ⟨hturn, hown⟩, ?_, hidle⟩
  rw [run_cons, step_iff.mpr hnext, Option.bind_some, hrun]

theorem finishes_flushed (hlock : s.factory.writersLock = false)
    (hstage : s.threads id = .flushed path w) : Finishes s id :=
  Finishes.cons (.returned hstage hlock) rfl ⟨[], _, by simp, rfl, threads_goes_self .idle⟩

theorem finishes_sought {stream : OFStream} (hlock : s.factory.writersLock = false)
    (hstage : s.threads id = .sought path w stream) : Finishes s id :=
  Finishes.cons (.flushed hstage) rfl (finishes_flushed hlock (threads_goes_self _))

theorem finishes_opened (hlock : s.factory.writersLock = false)
    (hstage : s.threads id = .opened path w) : Finishes s id :=
  Finishes.cons (.sought hstage) rfl (finishes_sought hlock (threads_goes_self _))

/-- With the lock free, a thread that is at a file is not kept there by the others. -/
theorem finishes (hlock : s.factory.writersLock = false) (hat : (s.threads id).Holds path) :
    Finishes s id := by
  cases hstage : s.threads id with
  | idle => simp [hstage, Stage.Holds] at hat
  | thrown => simp [hstage, Stage.Holds] at hat
  | opened p w => exact finishes_opened hlock hstage
  | sought p w stream => exact finishes_sought hlock hstage
  | flushed p w => exact finishes_flushed hlock hstage

/-- No file is there, and no thread has begun. -/
def noFiles (unwritable : String → Bool) : Concurrent :=
  ⟨fun _ => none, fun _ => false, unwritable, ⟨[], false⟩, fun _ => .idle⟩

/-- One thread is at its file when another asks for a file that the system does not open. -/
def refusing : List Turn := [.writer 0 "a" (.append [1] true), .writer 1 "x" (.append [2] true)]

/-- Threads at two files, and at one of them one after the other. -/
def takingTurns : List Turn :=
  [.writer 0 "a" (.append [1, 2, 3] false), .writer 1 "b" (.append [4] true), .seekp 1, .seekp 0,
    .write 0, .write 1, .removeWriter 0, .writer 2 "a" (.atOffset [5] 1), .removeWriter 1,
    .seekp 2, .write 2, .removeWriter 2, .writer 0 "b" (.append [6] true)]

/-- Two threads at one file: what is left of it is neither's. -/
example : (run step (noFiles fun _ => false) [.writer 0 "a" (.append [1, 2, 3] false),
    .writer 1 "a" (.append [4] false), .seekp 0, .write 0, .seekp 1, .write 1]).map
      (fun s => s.contentOf "a") = some [4, 2, 3] := rfl

end
end Concurrent
end WylesLibs.File
