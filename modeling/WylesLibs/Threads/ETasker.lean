import WylesLibs.Library.Runs

/-! `ETasker`: a pool of threads with a queue of tasks and a timer that signals the threads whose
time is up. A state holds the tasker, the threads it created and the clock. One step is a section
that the mutex protects, or what a thread does between two of them. -/
namespace WylesLibs.ETasker

/-- `pthread_t`: no two threads that live at a time have the same one. -/
abbrev ThreadId := UInt64

/-- A call of `run` and the task that it was given, numbered in the order of the calls. -/
abbrev Task := Nat

def sizeMax : UInt64 := 0xFFFFFFFFFFFFFFFF

/-- A reading of `CLOCK_MONOTONIC` is a number of nanoseconds; it is below the end of `time_t`. -/
def clockEnd : Nat := 2 ^ 63 * 10 ^ 9

/-- `static_cast<uint64_t>` of the field `tv_sec`. -/
def tvSec (t : Nat) : UInt64 := UInt64.ofNat (t / 10 ^ 9)

structure EThread where
  startTime : Nat
  timeoutS : UInt64
  task : Option Task

/-- What `operator[]` of `thread_pool` puts where it finds nothing. -/
def EThread.zero : EThread := ⟨0, 0, none⟩

/-- How far a call of `threadTeardown` has come: `entered` up to the copy of the entry, `copied`
up to the `try`, `guarded` in it before `onExit`, `exiting` in `onExit`, `exited` up to the look at
the queue, `leaving` from the decision to go up to the removal of the signal handler, and
`unregistered` behind that. -/
inductive TeardownPc where
  | entered
  | copied (task : Option Task)
  | guarded (task : Option Task)
  | exiting
  | exited
  | leaving
  | unregistered
  deriving DecidableEq

/-- One call of `threadTeardown` on the stack of a thread. -/
structure Teardown where
  force : Bool
  pc : TeardownPc
  deriving DecidableEq

/-- An exception that comes up through this call is caught in it. -/
def Teardown.catches (f : Teardown) : Bool :=
  match f.pc with
  | .guarded _ | .exiting => true
  | _ => false

/-- Where a thread stands below its calls of `threadTeardown`. From `checkTask` on it is in
`processThread`; `finished` and `terminating` are the two places that call `threadTeardown`. -/
inductive Pc where
  | spawned (task : Task)
  | handled (task : Task)
  | loop
  | checkTask
  | waitQueue
  | lockQueue
  | initializing (task : Task)
  | running (task : Task)
  | clearing
  | finished
  | terminating
  deriving DecidableEq

namespace Pc

/-- The place is inside the `try` of `threadContext`. -/
def inTry : Pc → Bool
  | .spawned _ | .handled _ | .loop | .terminating => false
  | _ => true

/-- The thread is in `initialize` or `run` of its task. -/
def inTask : Pc → Bool
  | .initializing _ | .running _ => true
  | _ => false

end Pc

/-- A thread that the tasker created. `frames` are its calls of `threadTeardown`, the innermost
first: all but the last are of the signal handler. `pending` is a signal not yet delivered.
`takenAt` and `ownTimeoutS` are not data of the source: they keep when the thread took its task,
and the timeout that this task has by `initial_timeout_s` and its own `setThreadTimeout`. -/
structure Worker where
  pc : Pc
  frames : List Teardown
  pending : Bool
  takenAt : Nat
  ownTimeoutS : UInt64

/-- The fields from `submitted` on are not data of the source: how many calls of `run` there were,
how many threads were created and how many of these have gone, which tasks were put into the queue
and which were taken from it, of which tasks `run` was started and of which `onExit`. -/
structure State where
  threadPool : ThreadId → Option EThread
  threadPoolQueue : List Task
  threadLimit : UInt64
  numThreads : UInt64
  timerThread : ThreadId
  fixed : Bool
  initialTimeoutS : UInt64
  threadSpecificSigHandlers : ThreadId → Bool
  now : Nat
  workers : ThreadId → Option Worker
  crashed : Bool
  submitted : Task
  created : Nat
  completed : Nat
  queued : List Task
  taken : List Task
  started : List Task
  exited : List Task

/-- The constructor. Its `fixed = fixed` assigns the argument to itself, so whatever the memory
held before is what the field holds. -/
def make (tl timeoutS : UInt64) (fixed : Bool) (timerThread : ThreadId) (now : Nat) : State where
  threadPool := fun _ => none
  threadPoolQueue := []
  threadLimit := tl
  numThreads := 0
  timerThread := timerThread
  fixed := fixed
  initialTimeoutS := timeoutS
  threadSpecificSigHandlers := fun _ => false
  now := now
  workers := fun _ => none
  crashed := false
  submitted := 0
  created := 0
  completed := 0
  queued := []
  taken := []
  started := []
  exited := []

namespace State

/-- `thread_pool[pthread]`. -/
def entry (s : State) (id : ThreadId) : EThread := (s.threadPool id).getD .zero

def setEntry (s : State) (id : ThreadId) (e : EThread) : State :=
  { s with threadPool := Function.update s.threadPool id (some e) }

def setWorker (s : State) (id : ThreadId) (w : Worker) : State :=
  { s with workers := Function.update s.workers id (some w) }

end State

/-! Calls of clients. -/

/-- `thread` is what `pthread_create` answers: the new thread, or that there is none. -/
def run (s : State) (thread : Option ThreadId) : Option State :=
  if s.threadLimit ≠ sizeMax ∧ s.threadLimit ≤ s.numThreads then
    some { s with
      threadPoolQueue := s.threadPoolQueue ++ [s.submitted]
      queued := s.queued ++ [s.submitted]
      submitted := s.submitted + 1 }
  else
    match thread with
    | none => some { s with submitted := s.submitted + 1 }
    | some id =>
      if id = s.timerThread ∨ (s.workers id).isSome then none
      else some { s with
        workers := Function.update s.workers id (some ⟨.spawned s.submitted, [], false, 0, 0⟩)
        numThreads := s.numThreads + 1
        submitted := s.submitted + 1
        created := s.created + 1 }

/-- A task calls this for the thread it runs on. -/
def setThreadTimeout (s : State) (id : ThreadId) (w : Worker) (ts : UInt64) : Option State :=
  (s.threadPool id).map fun e =>
    (s.setEntry id { e with timeoutS := ts }).setWorker id
      { w with ownTimeoutS := if e.task.isSome then ts else w.ownTimeoutS }

/-! The timer. -/

/-- The test of `timerProcess`. -/
def expired (now : Nat) (e : EThread) : Bool := decide (tvSec e.startTime + e.timeoutS ≤ tvSec now)

def timerSignals (s : State) (id : ThreadId) : Bool :=
  match s.threadPool id with
  | none => false
  | some e => expired s.now e

/-- One pass over `thread_pool`. -/
def timerProcess (s : State) : State :=
  { s with workers := fun id =>
      (s.workers id).map fun w => { w with pending := w.pending || timerSignals s id } }

/-! The threads. -/

/-- The way of an exception up the stack, `caught` telling whether a task lets it through. What is
left is where it is caught; there is no such place outside the `try` of `threadContext`. -/
def unwind (caught : Bool) : List Teardown → Pc → Option (Pc × List Teardown)
  | f :: fs, pc => if f.catches then some (pc, { f with pc := .exited } :: fs)
    else unwind caught fs pc
  | [], pc => if pc.inTask && caught then some (pc, [])
    else if pc.inTry then some (.loop, [])
    else none

/-- The next step of the innermost call `f` of `threadTeardown`. An exception that nothing catches
ends the process. -/
def threadTeardown (s : State) (id : ThreadId) (w : Worker) (f : Teardown) (fs : List Teardown)
    (caught : Bool) : State :=
  match f.pc with
  | .entered =>
    (s.setEntry id (s.entry id)).setWorker id
      { w with frames := { f with pc := .copied (s.entry id).task } :: fs }
  | .copied task => s.setWorker id { w with frames := { f with pc := .guarded task } :: fs }
  | .guarded (some task) =>
    { s.setWorker id { w with frames := { f with pc := .exiting } :: fs } with
      exited := s.exited ++ [task] }
  | .guarded none | .exiting =>
    s.setWorker id { w with frames := { f with pc := .exited } :: fs }
  | .exited =>
    if s.threadLimit ≠ sizeMax ∧ s.threadPoolQueue ≠ [] ∧ f.force = false then
      let s := s.setEntry id { s.entry id with task := none }
      match unwind caught fs w.pc with
      | some (pc, frames) => s.setWorker id { w with pc := pc, frames := frames }
      | none => { s with crashed := true }
    else s.setWorker id { w with frames := { f with pc := .leaving } :: fs }
  | .leaving =>
    { s.setWorker id { w with frames := { f with pc := .unregistered } :: fs } with
      threadSpecificSigHandlers := Function.update s.threadSpecificSigHandlers id false }
  | .unregistered =>
    { s with
      threadPool := Function.update s.threadPool id none
      workers := Function.update s.workers id none
      numThreads := s.numThreads - 1
      completed := s.completed + 1 }

/-- The next step of `processThread`. Behind its last one stands a call of `threadTeardown`. -/
def processThread (s : State) (id : ThreadId) (w : Worker) : Option State :=
  match w.pc with
  | .checkTask =>
    match (s.entry id).task with
    | some task => some (s.setWorker id { w with pc := .initializing task })
    | none => some (s.setWorker id { w with pc := .waitQueue })
  | .waitQueue =>
    some (if s.threadPoolQueue = [] then s else s.setWorker id { w with pc := .lockQueue })
  | .lockQueue =>
    match s.threadPoolQueue with
    | [] => some (s.setWorker id { w with pc := .checkTask })
    | task :: queue =>
      some { (s.setEntry id { s.entry id with task := some task }).setWorker id
          { w with pc := .checkTask, takenAt := s.now, ownTimeoutS := s.initialTimeoutS } with
        threadPoolQueue := queue
        taken := s.taken ++ [task] }
  | .initializing task =>
    some { s.setWorker id { w with pc := .running task } with started := s.started ++ [task] }
  | .running _ =>
    some (s.setWorker id (if s.fixed then { w with pc := .clearing }
      else { w with pc := .finished, frames := [⟨false, .entered⟩] }))
  | .clearing =>
    some ((s.setEntry id { s.entry id with task := none }).setWorker id { w with pc := .loop })
  | _ => none

/-- The next step of a thread that is in no call of `threadTeardown`. -/
def threadContext (s : State) (id : ThreadId) (w : Worker) : Option State :=
  match w.pc with
  | .spawned task =>
    some { s.setWorker id { w with pc := .handled task } with
      threadSpecificSigHandlers := Function.update s.threadSpecificSigHandlers id true }
  | .handled task =>
    some ((s.setEntry id ⟨s.now, s.initialTimeoutS, some task⟩).setWorker id
      { w with pc := .loop, takenAt := s.now, ownTimeoutS := s.initialTimeoutS })
  | .loop => some (s.setWorker id { w with pc := .checkTask })
  | _ => processThread s id w

/-- The task throws: `initialize` and `run` end the thread, `onExit` only ends itself. -/
def taskThrows (s : State) (id : ThreadId) (w : Worker) : Option State :=
  match w.frames with
  | [] => if w.pc.inTask then
      some (s.setWorker id { w with pc := .terminating, frames := [⟨true, .entered⟩] })
    else none
  | f :: fs => if f.pc = .exiting then
      some (s.setWorker id { w with frames := { f with pc := .exited } :: fs })
    else none

/-- A thread is in code of its task. -/
def Worker.inTask (w : Worker) : Bool :=
  match w.frames with
  | [] => w.pc.inTask
  | f :: _ => f.pc = .exiting

/-- The handler is on the stack: there is a call of `threadTeardown` beside the one that `finished` and
`terminating` make themselves. `SIGTERM` is blocked meanwhile. -/
def Worker.handling (w : Worker) : Bool :=
  match w.pc, w.frames with
  | .finished, [_] | .terminating, [_] | _, [] => false
  | _, _ => true

/-- What the processor, the clients, the tasks, the clock and the timer may do next. -/
inductive Move where
  | run (thread : Option ThreadId)
  | work (id : ThreadId) (caught : Bool)
  | throws (id : ThreadId)
  | setThreadTimeout (id : ThreadId) (ts : UInt64)
  | setInitialTimeout (ts : UInt64)
  | timer
  | tick (d : Nat)

def move (s : State) : Move → Option State
  | .run thread => run s thread
  | .work id caught => (s.workers id).bind fun w =>
    match w.frames with
    | [] => threadContext s id w
    | f :: fs => some (threadTeardown s id w f fs caught)
  | .throws id => (s.workers id).bind fun w => taskThrows s id w
  | .setThreadTimeout id ts => (s.workers id).bind fun w =>
    if w.inTask then setThreadTimeout s id w ts else none
  | .setInitialTimeout ts => some { s with initialTimeoutS := ts }
  | .timer => some (timerProcess s)
  | .tick d => if s.now + d < clockEnd then some { s with now := s.now + d } else none

/-- The handler that the application installs, with `threadSigAction`. A signal that comes before
the thread has registered, or after it has taken itself out, is dropped. -/
def threadSigAction (s : State) (id : ThreadId) (w : Worker) : State :=
  if s.threadSpecificSigHandlers id then
    s.setWorker id { w with pending := false, frames := ⟨false, .entered⟩ :: w.frames }
  else s.setWorker id { w with pending := false }

inductive Act where
  | move (m : Move)
  | signal (id : ThreadId)

/-- No step of the pool without a signal, and no step at all once the process has ended. -/
def calm (s : State) (m : Move) : Option State := if s.crashed then none else move s m

def step (s : State) : Act → Option State
  | .move m => calm s m
  | .signal id => if s.crashed then none else (s.workers id).bind fun w =>
    if w.pending ∧ w.handling = false then some (threadSigAction s id w) else none

end WylesLibs.ETasker
