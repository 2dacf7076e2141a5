import WylesLibs.Threads.ETasker
import WylesLibs.Library.Ledger

/-! What a step of the pool can do, one case for each way a step can go. -/
namespace WylesLibs.ETasker
open Library

namespace State
variable (s : State) (id : ThreadId) (w : Worker) (e : EThread)

/-- The task in the entry of a thread. -/
def entryTask : Option Task := (s.threadPool id).bind EThread.task

theorem entry_task : (s.entry id).task = s.entryTask id := by
  unfold entry entryTask
  cases s.threadPool id <;> rfl

@[simp] theorem entryTask_setWorker (j : ThreadId) :
    (s.setWorker j w).entryTask id = s.entryTask id := rfl

@[simp] theorem entryTask_setEntry : (s.setEntry id e).entryTask id = e.task := by
  simp [entryTask, setEntry]

theorem entryTask_of_some {e : EThread} (h : s.threadPool id = some e) :
    s.entryTask id = e.task := by
  simp [entryTask, h]

end State

/-- The steps of the thread `id`. -/
inductive WorkerTurn (s : State) (id : ThreadId) (w : Worker) : Act → State → Prop where
  | handled {task : Task} {caught : Bool} (hf : w.frames = []) (hp : w.pc = .spawned task) :
      WorkerTurn s id w (.move (.work id caught))
        { s.setWorker id { w with pc := .handled task } with
          threadSpecificSigHandlers := Function.update s.threadSpecificSigHandlers id true }
  | registered {task : Task} {caught : Bool} (hf : w.frames = []) (hp : w.pc = .handled task) :
      WorkerTurn s id w (.move (.work id caught))
        ((s.setEntry id ⟨s.now, s.initialTimeoutS, some task⟩).setWorker id
          { w with pc := .loop, takenAt := s.now, ownTimeoutS := s.initialTimeoutS })
  | entered {caught : Bool} (hf : w.frames = []) (hp : w.pc = .loop) :
      WorkerTurn s id w (.move (.work id caught)) (s.setWorker id { w with pc := .checkTask })
  | found {task : Task} {caught : Bool} (hf : w.frames = []) (hp : w.pc = .checkTask)
      (htask : s.entryTask id = some task) :
      WorkerTurn s id w (.move (.work id caught))
        (s.setWorker id { w with pc := .initializing task })
  | idle {caught : Bool} (hf : w.frames = []) (hp : w.pc = .checkTask)
      (htask : s.entryTask id = none) :
      WorkerTurn s id w (.move (.work id caught)) (s.setWorker id { w with pc := .waitQueue })
  | waited {caught : Bool} (hf : w.frames = []) (hp : w.pc = .waitQueue)
      (hqueue : s.threadPoolQueue = []) : WorkerTurn s id w (.move (.work id caught)) s
  | woken {caught : Bool} (hf : w.frames = []) (hp : w.pc = .waitQueue)
      (hqueue : s.threadPoolQueue ≠ []) :
      WorkerTurn s id w (.move (.work id caught)) (s.setWorker id { w with pc := .lockQueue })
  | missed {caught : Bool} (hf : w.frames = []) (hp : w.pc = .lockQueue)
      (hqueue : s.threadPoolQueue = []) :
      WorkerTurn s id w (.move (.work id caught)) (s.setWorker id { w with pc := .checkTask })
  | took {task : Task} {queue : List Task} {caught : Bool} (hf : w.frames = [])
      (hp : w.pc = .lockQueue) (hqueue : s.threadPoolQueue = task :: queue) :
      WorkerTurn s id w (.move (.work id caught))
        { (s.setEntry id { s.entry id with task := some task }).setWorker id
            { w with pc := .checkTask, takenAt := s.now, ownTimeoutS := s.initialTimeoutS } with
          threadPoolQueue := queue
          taken := s.taken ++ [task] }
  | started {task : Task} {caught : Bool} (hf : w.frames = []) (hp : w.pc = .initializing task) :
      WorkerTurn s id w (.move (.work id caught))
        { s.setWorker id { w with pc := .running task } with started := s.started ++ [task] }
  | finished {task : Task} {caught : Bool} (hf : w.frames = []) (hp : w.pc = .running task)
      (hfixed : s.fixed = false) :
      WorkerTurn s id w (.move (.work id caught))
        (s.setWorker id { w with pc := .finished, frames := [⟨false, .entered⟩] })
  | clearing {task : Task} {caught : Bool} (hf : w.frames = []) (hp : w.pc = .running task)
      (hfixed : s.fixed = true) :
      WorkerTurn s id w (.move (.work id caught)) (s.setWorker id { w with pc := .clearing })
  | cleared {caught : Bool} (hf : w.frames = []) (hp : w.pc = .clearing) :
      WorkerTurn s id w (.move (.work id caught))
        ((s.setEntry id { s.entry id with task := none }).setWorker id { w with pc := .loop })
  | copied {f : Teardown} {fs : List Teardown} {caught : Bool} (hf : w.frames = f :: fs)
      (hp : f.pc = .entered) :
      WorkerTurn s id w (.move (.work id caught))
        ((s.setEntry id (s.entry id)).setWorker id
          { w with frames := { f with pc := .copied (s.entryTask id) } :: fs })
  | guarded {f : Teardown} {fs : List Teardown} {task : Option Task} {caught : Bool}
      (hf : w.frames = f :: fs) (hp : f.pc = .copied task) :
      WorkerTurn s id w (.move (.work id caught))
        (s.setWorker id { w with frames := { f with pc := .guarded task } :: fs })
  | exiting {f : Teardown} {fs : List Teardown} {task : Task} {caught : Bool}
      (hf : w.frames = f :: fs) (hp : f.pc = .guarded (some task)) :
      WorkerTurn s id w (.move (.work id caught))
        { s.setWorker id { w with frames := { f with pc := .exiting } :: fs } with
          exited := s.exited ++ [task] }
  | exited {f : Teardown} {fs : List Teardown} {caught : Bool} (hf : w.frames = f :: fs)
      (hp : f.pc = .guarded none ∨ f.pc = .exiting) :
      WorkerTurn s id w (.move (.work id caught))
        (s.setWorker id { w with frames := { f with pc := .exited } :: fs })
  | exitThrew {f : Teardown} {fs : List Teardown} (hf : w.frames = f :: fs)
      (hp : f.pc = .exiting) :
      WorkerTurn s id w (.move (.throws id))
        (s.setWorker id { w with frames := { f with pc := .exited } :: fs })
  | unwound {f : Teardown} {fs frames : List Teardown} {pc : Pc} {caught : Bool}
      (hf : w.frames = f :: fs) (hp : f.pc = .exited)
      (hback : s.threadLimit ≠ sizeMax ∧ s.threadPoolQueue ≠ [] ∧ f.force = false)
      (hunwind : unwind caught fs w.pc = some (pc, frames)) :
      WorkerTurn s id w (.move (.work id caught))
        ((s.setEntry id { s.entry id with task := none }).setWorker id
          { w with pc := pc, frames := frames })
  | crashed {f : Teardown} {fs : List Teardown} {caught : Bool} (hf : w.frames = f :: fs)
      (hp : f.pc = .exited)
      (hback : s.threadLimit ≠ sizeMax ∧ s.threadPoolQueue ≠ [] ∧ f.force = false)
      (hunwind : unwind caught fs w.pc = none) :
      WorkerTurn s id w (.move (.work id caught))
        { s.setEntry id { s.entry id with task := none } with crashed := true }
  | leaving {f : Teardown} {fs : List Teardown} {caught : Bool} (hf : w.frames = f :: fs)
      (hp : f.pc = .exited)
      (hback : ¬ (s.threadLimit ≠ sizeMax ∧ s.threadPoolQueue ≠ [] ∧ f.force = false)) :
      WorkerTurn s id w (.move (.work id caught))
        (s.setWorker id { w with frames := { f with pc := .leaving } :: fs })
  | unregistered {f : Teardown} {fs : List Teardown} {caught : Bool} (hf : w.frames = f :: fs)
      (hp : f.pc = .leaving) :
      WorkerTurn s id w (.move (.work id caught))
        { s.setWorker id { w with frames := { f with pc := .unregistered } :: fs } with
          threadSpecificSigHandlers := Function.update s.threadSpecificSigHandlers id false }
  | gone {f : Teardown} {fs : List Teardown} {caught : Bool} (hf : w.frames = f :: fs)
      (hp : f.pc = .unregistered) :
      WorkerTurn s id w (.move (.work id caught))
        { s with
          threadPool := Function.update s.threadPool id none
          workers := Function.update s.workers id none
          numThreads := s.numThreads - 1
          completed := s.completed + 1 }
  | threw (hf : w.frames = []) (hp : w.pc.inTask = true) :
      WorkerTurn s id w (.move (.throws id))
        (s.setWorker id { w with pc := .terminating, frames := [⟨true, .entered⟩] })
  | timeoutSet {e : EThread} {ts : UInt64} (hin : w.inTask = true)
      (he : s.threadPool id = some e) :
      WorkerTurn s id w (.move (.setThreadTimeout id ts))
        ((s.setEntry id { e with timeoutS := ts }).setWorker id
          { w with ownTimeoutS := if e.task.isSome then ts else w.ownTimeoutS })
  | signalled (hpending : w.pending = true) (hfree : w.handling = false)
      (hhandler : s.threadSpecificSigHandlers id = true) :
      WorkerTurn s id w (.signal id)
        (s.setWorker id { w with pending := false, frames := ⟨false, .entered⟩ :: w.frames })
  | dropped (hpending : w.pending = true) (hfree : w.handling = false)
      (hhandler : s.threadSpecificSigHandlers id = false) :
      WorkerTurn s id w (.signal id) (s.setWorker id { w with pending := false })

inductive Turn (s : State) : Act → State → Prop where
  | queued {thread : Option ThreadId}
      (hlimit : s.threadLimit ≠ sizeMax ∧ s.threadLimit ≤ s.numThreads) :
      Turn s (.move (.run thread))
        { s with
          threadPoolQueue := s.threadPoolQueue ++ [s.submitted]
          queued := s.queued ++ [s.submitted]
          submitted := s.submitted + 1 }
  | refused (hlimit : ¬ (s.threadLimit ≠ sizeMax ∧ s.threadLimit ≤ s.numThreads)) :
      Turn s (.move (.run none)) { s with submitted := s.submitted + 1 }
  | created {id : ThreadId} (hlimit : ¬ (s.threadLimit ≠ sizeMax ∧ s.threadLimit ≤ s.numThreads))
      (htimer : id ≠ s.timerThread) (hfresh : s.workers id = none) :
      Turn s (.move (.run (some id)))
        { s with
          workers := Function.update s.workers id (some ⟨.spawned s.submitted, [], false, 0, 0⟩)
          numThreads := s.numThreads + 1
          submitted := s.submitted + 1
          created := s.created + 1 }
  | timer : Turn s (.move .timer) (timerProcess s)
  | initialTimeoutSet (ts : UInt64) :
      Turn s (.move (.setInitialTimeout ts)) { s with initialTimeoutS := ts }
  | ticked {d : Nat} (hclock : s.now + d < clockEnd) :
      Turn s (.move (.tick d)) { s with now := s.now + d }
  | worker {id : ThreadId} {w : Worker} {a : Act} {t : State} (hw : s.workers id = some w)
      (h : WorkerTurn s id w a t) : Turn s a t

section
variable {s t : State} {id : ThreadId} {w : Worker}

theorem turn_of_teardown {f : Teardown} {fs : List Teardown} (caught : Bool)
    (hf : w.frames = f :: fs) :
    WorkerTurn s id w (.move (.work id caught)) (threadTeardown s id w f fs caught) := by
  unfold threadTeardown
  cases hp : f.pc with
  | entered =>
    rw [State.entry_task]
    exact .copied hf hp
  | copied task => exact .guarded hf hp
  | guarded task =>
    cases task with
    | none => exact .exited hf (Or.inl hp)
    | some task => exact .exiting hf hp
  | exiting => exact .exited hf (Or.inr hp)
  | exited =>
    by_cases hback : s.threadLimit ≠ sizeMax ∧ s.threadPoolQueue ≠ [] ∧ f.force = false
    · simp only [if_pos hback]
      cases hunwind : unwind caught fs w.pc with
      | none => exact .crashed hf hp hback hunwind
      | some p => exact .unwound hf hp hback hunwind
    · simp only [if_neg hback]
      exact .leaving hf hp hback
  | leaving => exact .unregistered hf hp
  | unregistered => exact .gone hf hp

theorem turn_of_processThread (caught : Bool) (hf : w.frames = [])
    (h : processThread s id w = some t) : WorkerTurn s id w (.move (.work id caught)) t := by
  unfold processThread at h
  cases hp : w.pc with
  | spawned task => simp [hp] at h
  | handled task => simp [hp] at h
  | loop => simp [hp] at h
  | finished => simp [hp] at h
  | terminating => simp [hp] at h
  | checkTask =>
    simp only [hp, State.entry_task] at h
    cases htask : s.entryTask id with
    | none =>
      simp only [htask, Option.some.injEq] at h
      exact h ▸ .idle hf hp htask
    | some task =>
      simp only [htask, Option.some.injEq] at h
      exact h ▸ .found hf hp htask
  | waitQueue =>
    simp only [hp, Option.some.injEq] at h
    by_cases hqueue : s.threadPoolQueue = []
    · rw [if_pos hqueue] at h
      exact h ▸ .waited hf hp hqueue
    · rw [if_neg hqueue] at h
      exact h ▸ .woken hf hp hqueue
  | lockQueue =>
    simp only [hp] at h
    cases hqueue : s.threadPoolQueue with
    | nil =>
      simp only [hqueue, Option.some.injEq] at h
      exact h ▸ .missed hf hp hqueue
    | cons task queue =>
      simp only [hqueue, Option.some.injEq] at h
      exact h ▸ .took hf hp hqueue
  | initializing task =>
    simp only [hp, Option.some.injEq] at h
    exact h ▸ .started hf hp
  | running task =>
    simp only [hp, Option.some.injEq] at h
    cases hfixed : s.fixed with
    | true =>
      rw [hfixed, if_pos rfl] at h
      exact h ▸ .clearing hf hp hfixed
    | false =>
      rw [hfixed, if_neg Bool.false_ne_true] at h
      exact h ▸ .finished hf hp hfixed
  | clearing =>
    simp only [hp, Option.some.injEq] at h
    exact h ▸ .cleared hf hp

theorem turn_of_threadContext (caught : Bool) (hf : w.frames = [])
    (h : threadContext s id w = some t) : WorkerTurn s id w (.move (.work id caught)) t := by
  unfold threadContext at h
  split at h
  · next task hp =>
    cases h
    exact .handled hf hp
  · next task hp =>
    cases h
    exact .registered hf hp
  · next hp =>
    cases h
    exact .entered hf hp
  · exact turn_of_processThread caught hf h

theorem turn_of_taskThrows (h : taskThrows s id w = some t) :
    WorkerTurn s id w (.move (.throws id)) t := by
  unfold taskThrows at h
  cases hf : w.frames with
  | nil =>
    simp only [hf] at h
    by_cases hp : w.pc.inTask = true
    · rw [if_pos hp] at h
      cases h
      exact .threw hf hp
    · rw [if_neg hp] at h
      cases h
  | cons f fs =>
    simp only [hf] at h
    by_cases hp : f.pc = .exiting
    · rw [if_pos hp] at h
      cases h
      exact .exitThrew hf hp
    · rw [if_neg hp] at h
      cases h

theorem turn_of_run {thread : Option ThreadId} (h : run s thread = some t) :
    Turn s (.move (.run thread)) t := by
  unfold run at h
  by_cases hlimit : s.threadLimit ≠ sizeMax ∧ s.threadLimit ≤ s.numThreads
  · rw [if_pos hlimit] at h
    cases h
    exact .queued hlimit
  · rw [if_neg hlimit] at h
    cases thread with
    | none =>
      cases h
      exact .refused hlimit
    | some id =>
      by_cases hid : id = s.timerThread ∨ (s.workers id).isSome
      · simp only [if_pos hid] at h
        cases h
      · simp only [if_neg hid] at h
        cases h
        rw [not_or, Option.not_isSome_iff_eq_none] at hid
        exact .created hlimit hid.1 hid.2

theorem turn_of_move {m : Move} (h : move s m = some t) : Turn s (.move m) t := by
  cases m with
  | run thread => exact turn_of_run h
  | work id caught =>
    obtain ⟨w, hw, h⟩ := Option.bind_eq_some_iff.mp h
    cases hf : w.frames with
    | nil =>
      simp only [hf] at h
      exact .worker hw (turn_of_threadContext caught hf h)
    | cons f fs =>
      simp only [hf, Option.some.injEq] at h
      exact .worker hw (h ▸ turn_of_teardown caught hf)
  | throws id =>
    obtain ⟨w, hw, h⟩ := Option.bind_eq_some_iff.mp h
    exact .worker hw (turn_of_taskThrows h)
  | setThreadTimeout id ts =>
    obtain ⟨w, hw, h⟩ := Option.bind_eq_some_iff.mp h
    by_cases hin : w.inTask = true
    · rw [if_pos hin] at h
      obtain ⟨e, he, rfl⟩ := Option.map_eq_some_iff.mp h
      exact .worker hw (.timeoutSet hin he)
    · rw [if_neg hin] at h
      cases h
  | setInitialTimeout ts =>
    cases h
    exact .initialTimeoutSet ts
  | timer =>
    cases h
    exact .timer
  | tick d =>
    by_cases hclock : s.now + d < clockEnd
    · simp only [move, if_pos hclock, Option.some.injEq] at h
      exact h ▸ .ticked hclock
    · simp only [move, if_neg hclock] at h
      cases h

theorem turn_of_calm {m : Move} (h : calm s m = some t) : Turn s (.move m) t := by
  unfold calm at h
  split at h
  · cases h
  · exact turn_of_move h

theorem turn_of_step {a : Act} (h : step s a = some t) : s.crashed = false ∧ Turn s a t := by
  cases hc : s.crashed with
  | true => cases a <;> simp [step, calm, hc] at h
  | false =>
    refine ⟨rfl, ?_⟩
    cases a with
    | move m => exact turn_of_calm h
    | signal id =>
      simp only [step, hc, Bool.false_eq_true, if_false] at h
      obtain ⟨w, hw, h⟩ := Option.bind_eq_some_iff.mp h
      by_cases hdelivered : w.pending = true ∧ w.handling = false
      · rw [if_pos hdelivered] at h
        cases h
        obtain ⟨hpending, hfree⟩ := hdelivered
        unfold threadSigAction
        cases hhandler : s.threadSpecificSigHandlers id with
        | true => exact .worker hw (.signalled hpending hfree hhandler)
        | false => exact .worker hw (.dropped hpending hfree hhandler)
      · rw [if_neg hdelivered] at h
        cases h

/-- A thread writes no entry but its own. -/
theorem WorkerTurn.frame {a : Act} (h : WorkerTurn s id w a t) {j : ThreadId} (hj : j ≠ id) :
    t.workers j = s.workers j ∧ t.threadPool j = s.threadPool j := by
  cases h <;> simp [State.setWorker, State.setEntry, Function.update_of_ne hj]

end

/-- An entry goes with its thread. -/
def State.Housed (s : State) : Prop := ∀ id, s.workers id = none → s.threadPool id = none

theorem housed_make (tl timeoutS : UInt64) (fixed : Bool) (timerThread : ThreadId) (now : Nat) :
    (make tl timeoutS fixed timerThread now).Housed := fun _ _ => rfl

section
variable {s t : State} {a : Act}

theorem Turn.housed (hs : s.Housed) (h : Turn s a t) : t.Housed := by
  intro j hj
  cases h with
  | @created id hlimit htimer hfresh =>
    by_cases hid : j = id
    · simp [hid] at hj
    · exact hs j (by simpa [hid] using hj)
  | timer => exact hs j (by simpa [timerProcess] using hj)
  | @worker id w _ _ hw h =>
    by_cases hid : j = id
    · subst hid
      cases h with
      | gone => simp
      | _ => simp [State.setWorker, State.setEntry, hw] at hj
    · obtain ⟨hworkers, hpool⟩ := h.frame hid
      rw [hpool]
      exact hs j (hworkers ▸ hj)
  | _ => exact hs j hj

end

/-! Rights of threads to do something with a task, by where the thread stands and what task is in
its entry. -/

/-- `spent` are the tasks with which it was done. -/
def State.ledger (s : State) (right : Worker → Option Task → Option Task) (spent : List Task) :
    Ledger ThreadId where
  next := s.submitted
  queue := s.threadPoolQueue
  queued := s.queued
  taken := s.taken
  spent := spent
  holds := fun id k => ∃ w, s.workers id = some w ∧ right w (s.entryTask id) = some k

section
variable {s t : State} {id : ThreadId} {w : Worker} {a : Act}
variable {right : Worker → Option Task → Option Task} {spent : List Task}

theorem State.ledger_make (tl timeoutS : UInt64) (fixed : Bool) (timerThread : ThreadId)
    (now : Nat) : ((make tl timeoutS fixed timerThread now).ledger right []).Ok := by
  have hholds : ((make tl timeoutS fixed timerThread now).ledger right []).holds =
      fun _ _ => False := by
    funext id k
    simp [State.ledger, make]
  have hempty : (make tl timeoutS fixed timerThread now).ledger right [] =
      ⟨0, [], [], [], [], fun _ _ => False⟩ := by
    rw [← hholds]
    rfl
  rw [hempty]
  exact .empty 0

/-- A new thread has the right that its `run` asked for, if any. -/
theorem State.ledger_created (hspawned : ∀ k l entry,
      right ⟨.spawned k, [], false, 0, 0⟩ entry = some l → l = k) :
    Ledger.Step (s.ledger right spent)
      (State.ledger { s with
        workers := Function.update s.workers id (some ⟨.spawned s.submitted, [], false, 0, 0⟩)
        numThreads := s.numThreads + 1
        submitted := s.submitted + 1
        created := s.created + 1 } right spent) := by
  refine .grant (some id) fun j k hk => ?_
  obtain ⟨w, hw, hright⟩ := hk
  by_cases hj : j = id
  · obtain rfl : _ = w := by simpa [hj] using hw
    exact Or.inr ⟨by rw [hj], hspawned s.submitted k _ hright⟩
  · exact Or.inl ⟨w, by simpa [hj] using hw, hright⟩

theorem State.ledger_timer (hpending : ∀ w pending entry,
      right { w with pending := pending } entry = right w entry) :
    Ledger.Step (s.ledger right spent) ((timerProcess s).ledger right spent) := by
  refine .keep fun j k hk => ?_
  obtain ⟨w, hw, hright⟩ := hk
  obtain ⟨w₀, hw₀, rfl⟩ := Option.map_eq_some_iff.mp hw
  exact ⟨w₀, hw₀, by rw [← hpending]; exact hright⟩

/-- At a step of one thread only its own rights change. -/
theorem WorkerTurn.holds_cases (right : Worker → Option Task → Option Task) (spent : List Task)
    (h : WorkerTurn s id w a t) {j : ThreadId} {k : Task}
    (hk : (t.ledger right spent).holds j k) :
    (j ≠ id ∧ (s.ledger right spent).holds j k) ∨
      (j = id ∧ ∃ w', t.workers id = some w' ∧ right w' (t.entryTask id) = some k) := by
  by_cases hj : j = id
  · subst hj
    exact Or.inr ⟨rfl, hk⟩
  · obtain ⟨w', hw', hright⟩ := hk
    obtain ⟨hworkers, hpool⟩ := h.frame hj
    refine Or.inl ⟨hj, w', hworkers ▸ hw', ?_⟩
    rwa [State.entryTask, hpool] at hright

end
end WylesLibs.ETasker
