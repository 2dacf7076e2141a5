import WylesLibs.Threads.Bounds

/-! When `onExit` is called once for every task that was started, with signals that may come
between any two steps of a thread. -/
namespace WylesLibs.ETasker
open Library

/-- The call has not yet come to `onExit`. -/
def TeardownPc.before : TeardownPc → Bool
  | .entered | .copied _ | .guarded _ => true
  | _ => false

/-- The innermost call of `threadTeardown` has begun with `onExit`, or is behind it. -/
def Worker.begun (w : Worker) : Bool :=
  match w.frames with
  | [] => false
  | f :: _ => !f.pc.before

/-- The task that a thread was created with, up to where it puts it into its entry. -/
def Pc.argument : Pc → Option Task
  | .spawned task | .handled task => some task
  | _ => none

/-- The task that a thread has yet to call `onExit` of. -/
def Worker.exitRight (w : Worker) (entry : Option Task) : Option Task :=
  w.pc.argument.or (if w.begun then none else entry)

def State.exits (s : State) : Ledger ThreadId := s.ledger Worker.exitRight s.exited

/-- Of every task that was started, `onExit` was called once, or there is a thread that has yet to
call it and no call was made. -/
def State.ExitedOnce (s : State) : Prop :=
  ∀ k ∈ s.started, s.exited.count k = 1 ∨
    (s.exited.count k = 0 ∧ s.crashed = false ∧ ∃ id w, s.workers id = some w ∧
      w.exitRight (s.entryTask id) = some k)

/-- What is asked of a step: a signal that is delivered finds no thread that has begun with `onExit`
while its entry still has the task, and an exception that sends a thread back finds a place that
catches it. -/
def Covered (s : State) : Act → Prop
  | .signal id => s.threadSpecificSigHandlers id = true → ∀ w ∈ s.workers id,
    w.handling = false → w.begun = true → s.entryTask id = none
  | .move (.work id caught) => ∀ w ∈ s.workers id, ∀ f ∈ w.frames.head?, f.pc = .exited →
    s.threadLimit ≠ sizeMax ∧ s.threadPoolQueue ≠ [] ∧ f.force = false →
    (unwind caught w.frames.tail w.pc).isSome = true
  | _ => True

instance (s : State) : (a : Act) → Decidable (Covered s a)
  | .signal id => by unfold Covered; infer_instance
  | .move (.work id caught) => by unfold Covered; infer_instance
  | .move (.run _) | .move (.throws _) | .move (.setThreadTimeout _ _)
  | .move (.setInitialTimeout _) | .move .timer | .move (.tick _) => isTrue trivial

/-- How the place of a thread and the task in its entry go together. -/
structure Orderly (s : State) (id : ThreadId) (w : Worker) : Prop where
  fresh : w.pc.argument ≠ none → w.frames = [] ∧ w.pending = false ∧ s.threadPool id = none
  copied : ∀ f fs task, w.frames = f :: fs → f.pc = .copied task ∨ f.pc = .guarded task →
    s.entryTask id = task
  begun : w.begun = true → ∀ k, s.entryTask id = some k → k ∈ s.exited
  inTask : ∀ k, w.pc = .initializing k ∨ w.pc = .running k →
    s.entryTask id = some k ∨ k ∈ s.exited
  waiting : w.pc = .waitQueue ∨ w.pc = .lockQueue → s.entryTask id = none
  notClearing : w.pc ≠ .clearing

section
variable {s t : State} {id : ThreadId} {w : Worker} {a : Act}

theorem Orderly.argument {f : Teardown} {fs : List Teardown} (hs : Orderly s id w)
    (hf : w.frames = f :: fs) : w.pc.argument = none := by
  by_contra hfresh
  have hnil := (hs.fresh hfresh).1
  simp [hf] at hnil

theorem Pc.argument_of_inTask {pc : Pc} (h : pc.inTask = true) : pc.argument = none := by
  cases pc <;> simp_all [inTask, argument]

theorem Pc.argument_unwind {caught : Bool} {fs frames : List Teardown} {pc pc' : Pc}
    (hpc : pc.argument = none) (h : unwind caught fs pc = some (pc', frames)) :
    pc'.argument = none := by
  obtain rfl | rfl := unwind_pc h
  · exact hpc
  · rfl

theorem WorkerTurn.exited_mono (h : WorkerTurn s id w a t) {k : Task} (hk : k ∈ s.exited) :
    k ∈ t.exited := by
  cases h with
  | exiting => exact List.mem_append_left _ hk
  | _ => exact hk

/-- A thread gets a task to call `onExit` of by taking it from the queue. -/
theorem WorkerTurn.exitRight_own (hs : Orderly s id w) (hw : s.workers id = some w)
    (hcovered : Covered s a) (h : WorkerTurn s id w a t) (w' : Worker) {k : Task}
    (hw' : t.workers id = some w') (hk : w'.exitRight (t.entryTask id) = some k) :
    w.exitRight (s.entryTask id) = some k ∨ t.taken = s.taken ++ [k] := by
  cases h with
  | gone => simp at hw'
  | copied hf hp =>
    obtain rfl : _ = w' := by simpa [State.setWorker] using hw'
    left
    simpa [Worker.exitRight, Worker.begun, TeardownPc.before, hf, hp, State.entry_task] using hk
  | exiting hf | exited hf | exitThrew hf | leaving hf | unregistered hf =>
    have harg := hs.argument hf
    obtain rfl : _ = w' := by simpa [State.setWorker] using hw'
    simp [Worker.exitRight, Worker.begun, TeardownPc.before, harg] at hk
  | unwound hf hp hback hunwind =>
    have harg := Pc.argument_unwind (hs.argument hf) hunwind
    obtain rfl : _ = w' := by simpa [State.setWorker] using hw'
    simp [Worker.exitRight, harg] at hk
  | threw hf hp =>
    have harg := Pc.argument_of_inTask hp
    obtain rfl : _ = w' := by simpa [State.setWorker] using hw'
    left
    have harg' : Pc.argument .terminating = none := rfl
    simpa [Worker.exitRight, Worker.begun, TeardownPc.before, hf, harg, harg'] using hk
  | signalled hpending hfree hhandler =>
    obtain rfl : _ = w' := by simpa [State.setWorker] using hw'
    left
    have hk' : w.pc.argument.or (s.entryTask id) = some k := by
      simpa [Worker.exitRight, Worker.begun, TeardownPc.before] using hk
    cases hb : w.begun with
    | false => simpa [Worker.exitRight, hb] using hk'
    | true => simpa [Worker.exitRight, hb, hcovered hhandler w hw hfree hb] using hk'
  | dropped =>
    obtain rfl : _ = w' := by simpa [State.setWorker] using hw'
    exact Or.inl hk
  | _ =>
    simp [State.setWorker, State.setEntry, hw] at hw'
    subst hw'
    simp_all [Worker.exitRight, Worker.begun, State.setWorker, State.setEntry, State.entryTask,
      TeardownPc.before, Pc.argument]

theorem WorkerTurn.exits (hs : Orderly s id w) (hw : s.workers id = some w)
    (hcovered : Covered s a) (h : WorkerTurn s id w a t) : Ledger.Step s.exits t.exits := by
  have hown := fun v k hv hk => h.exitRight_own hs hw hcovered v (k := k) hv hk
  have hcases := fun j k => h.holds_cases Worker.exitRight s.exited (j := j) (k := k)
  cases h with
  | @took task queue caught hf hp hqueue =>
    refine .take (i := id) hqueue fun j k hk => ?_
    obtain ⟨-, hk⟩ | ⟨rfl, w', hw', hk⟩ := hcases j k hk
    · exact Or.inl hk
    · obtain hk | htaken := hown w' k hw' hk
      · exact Or.inl ⟨w, hw, hk⟩
      · obtain rfl : task = k := by simpa using htaken
        exact Or.inr ⟨rfl, rfl⟩
  | @exiting f fs task caught hf hp =>
    have harg := hs.argument hf
    have hentry := hs.copied f fs _ hf (Or.inr hp)
    refine .spend (i := id) (k := task) ⟨w, hw, ?_⟩ fun j k hk => ?_
    · simp [Worker.exitRight, Worker.begun, TeardownPc.before, harg, hentry, hf, hp]
    · obtain ⟨hj, hk⟩ | ⟨rfl, w', hw', hk⟩ := hcases j k hk
      · exact ⟨hk, fun h => hj h.1⟩
      · obtain rfl : _ = w' := by simpa [State.setWorker] using hw'
        simp [Worker.exitRight, Worker.begun, TeardownPc.before, harg] at hk
  | _ =>
    refine .keep fun j k hk => ?_
    obtain ⟨-, hk⟩ | ⟨rfl, w', hw', hk⟩ := hcases j k hk
    · exact hk
    · obtain hk | htaken := hown w' k hw' hk
      · exact ⟨w, hw, hk⟩
      · simp [State.setWorker, State.setEntry] at htaken

/-- Without a crash a thread keeps the task it has to call `onExit` of until it does. -/
theorem WorkerTurn.exitRight_kept (hs : Orderly s id w) (hw : s.workers id = some w)
    (hcovered : Covered s a) (h : WorkerTurn s id w a t) {k : Task}
    (hk : w.exitRight (s.entryTask id) = some k) :
    k ∈ t.exited ∨ ∃ w', t.workers id = some w' ∧ w'.exitRight (t.entryTask id) = some k := by
  have hbegun : ∀ f fs, w.frames = f :: fs → f.pc.before = true := fun f fs hf => by
    by_contra hnot
    simp [Worker.exitRight, hs.argument hf, Worker.begun, hf, hnot] at hk
  cases h with
  | crashed hf hp hback hunwind =>
    have hsome := hcovered w hw _ (by simp [hf]) hp hback
    simp [hf, hunwind] at hsome
  | unwound hf hp | leaving hf hp | unregistered hf hp | gone hf hp | exitThrew hf hp =>
    have hbefore := hbegun _ _ hf
    simp [hp, TeardownPc.before] at hbefore
  | @exiting f fs task caught hf hp =>
    have hentry := hs.copied f fs _ hf (Or.inr hp)
    simp only [Worker.exitRight, hs.argument hf, Worker.begun, hf, hp, TeardownPc.before, hentry,
      Option.none_or, Bool.not_true, Bool.false_eq_true, if_false, Option.some.injEq] at hk
    exact Or.inl (by simp [hk])
  | @exited f fs caught hf hp =>
    obtain hp | hp := hp
    · have hentry := hs.copied f fs _ hf (Or.inr hp)
      simp [Worker.exitRight, hs.argument hf, hentry] at hk
    · have hbefore := hbegun _ _ hf
      simp [hp, TeardownPc.before] at hbefore
  | took hf hp =>
    simp [Worker.exitRight, hp, Pc.argument, hs.waiting (Or.inr hp)] at hk
  | cleared hf hp => exact absurd hp hs.notClearing
  | waited => exact Or.inr ⟨w, hw, hk⟩
  | signalled hpending hfree hhandler =>
    refine Or.inr ⟨_, Function.update_self _ _ _, ?_⟩
    have hk' : w.pc.argument.or (s.entryTask id) = some k := by
      cases hb : w.begun with
      | false => simpa [Worker.exitRight, hb] using hk
      | true => simpa [Worker.exitRight, hb, hcovered hhandler w hw hfree hb] using hk
    simpa [Worker.exitRight, Worker.begun, TeardownPc.before] using hk'
  | dropped => exact Or.inr ⟨_, Function.update_self _ _ _, hk⟩
  | threw hf hp =>
    have harg := Pc.argument_of_inTask hp
    have hk' : s.entryTask id = some k := by
      simpa [Worker.exitRight, Worker.begun, hf, harg] using hk
    exact Or.inr ⟨_, Function.update_self _ _ _, hk'⟩
  | copied hf hp =>
    refine Or.inr ⟨_, Function.update_self _ _ _, ?_⟩
    simpa [Worker.exitRight, Worker.begun, TeardownPc.before, hf, hp, State.entry_task] using hk
  | guarded hf hp =>
    refine Or.inr ⟨_, Function.update_self _ _ _, ?_⟩
    simpa [Worker.exitRight, Worker.begun, TeardownPc.before, hf, hp] using hk
  | _ =>
    refine Or.inr ⟨_, Function.update_self _ _ _, ?_⟩
    simp_all [Worker.exitRight, Worker.begun, TeardownPc.before, Pc.argument, State.setWorker,
      State.setEntry, State.entryTask]

/-! The places of threads and their entries. -/

theorem unwind_frames {caught : Bool} {fs frames : List Teardown} {pc pc' : Pc}
    (h : unwind caught fs pc = some (pc', frames)) : ∀ f ∈ frames.head?, f.pc = .exited := by
  induction fs with
  | nil =>
    unfold unwind at h
    split at h
    · cases h
      simp
    · split at h
      · cases h
        simp
      · cases h
  | cons f fs ih =>
    unfold unwind at h
    split at h
    · cases h
      simp
    · exact ih h

/-- A thread that is in no call of `threadTeardown`. -/
theorem Orderly.base {w' : Worker} (hframes : w'.frames = []) (harg : w'.pc.argument = none)
    (hinTask : ∀ k, w'.pc = .initializing k ∨ w'.pc = .running k →
      t.entryTask id = some k ∨ k ∈ t.exited)
    (hwaiting : w'.pc = .waitQueue ∨ w'.pc = .lockQueue → t.entryTask id = none)
    (hclearing : w'.pc ≠ .clearing) : Orderly t id w' where
  fresh := fun h => absurd harg h
  copied := by simp [hframes]
  begun := by simp [Worker.begun, hframes]
  inTask := hinTask
  waiting := hwaiting
  notClearing := hclearing

/-- A thread whose place below its calls of `threadTeardown` stays the same. -/
theorem Orderly.reframe (hs : Orderly s id w) (harg : w.pc.argument = none) {g : Teardown}
    {gs : List Teardown} {pending : Bool} (htask : t.entryTask id = s.entryTask id)
    (hexited : ∀ k ∈ s.exited, k ∈ t.exited)
    (hcopied : ∀ task, g.pc = .copied task ∨ g.pc = .guarded task → s.entryTask id = task)
    (hbegun : g.pc.before = false → ∀ k, s.entryTask id = some k → k ∈ t.exited) :
    Orderly t id { w with frames := g :: gs, pending := pending } where
  fresh := fun h => absurd harg h
  copied := by
    intro f fs task hf hp
    obtain ⟨rfl, rfl⟩ := List.cons.inj hf
    rw [htask]
    exact hcopied task hp
  begun := by
    intro hb
    rw [htask]
    exact hbegun (by simpa [Worker.begun] using hb)
  inTask := by
    intro k hk
    rw [htask]
    exact (hs.inTask k hk).imp_right (hexited k)
  waiting := by
    intro h
    rw [htask]
    exact hs.waiting h
  notClearing := hs.notClearing

/-- A thread that stays where it is, with the same task in its entry. -/
theorem Orderly.same {w' : Worker} (hs : Orderly s id w) (hpc : w'.pc = w.pc)
    (hframes : w'.frames = w.frames)
    (hfresh : w.pc.argument ≠ none → w'.pending = false ∧ t.threadPool id = none)
    (htask : t.entryTask id = s.entryTask id) (hexited : ∀ k ∈ s.exited, k ∈ t.exited) :
    Orderly t id w' where
  fresh := by
    rw [hpc, hframes]
    exact fun h => ⟨(hs.fresh h).1, hfresh h⟩
  copied := by
    rw [hframes, htask]
    exact hs.copied
  begun := by
    rw [show w'.begun = w.begun by simp [Worker.begun, hframes], htask]
    exact fun hb k hk => hexited k (hs.begun hb k hk)
  inTask := by
    rw [hpc, htask]
    exact fun k hk => (hs.inTask k hk).imp_right (hexited k)
  waiting := by
    rw [hpc, htask]
    exact hs.waiting
  notClearing := by
    rw [hpc]
    exact hs.notClearing

theorem Orderly.unmoved (hs : Orderly s id w) (hpool : t.threadPool id = s.threadPool id)
    (hexited : ∀ k ∈ s.exited, k ∈ t.exited) : Orderly t id w := by
  refine hs.same rfl rfl (fun hfresh => ?_) ?_ hexited
  · rw [hpool]
    exact (hs.fresh hfresh).2
  · rw [State.entryTask, State.entryTask, hpool]

/-- A thread that enters `threadTeardown` from its own code. -/
theorem Orderly.enter {pc : Pc} {force : Bool} (harg : pc.argument = none)
    (hpc : pc = .finished ∨ pc = .terminating) :
    Orderly t id { w with pc := pc, frames := [⟨force, .entered⟩] } where
  fresh := fun h => absurd harg h
  copied := by
    intro f fs task hf hp
    obtain ⟨rfl, -⟩ := List.cons.inj hf
    simp at hp
  begun := by simp [Worker.begun, TeardownPc.before]
  inTask := by obtain rfl | rfl := hpc <;> simp
  waiting := by obtain rfl | rfl := hpc <;> simp
  notClearing := by obtain rfl | rfl := hpc <;> simp

theorem WorkerTurn.orderly (hs : Orderly s id w) (hw : s.workers id = some w)
    (hfixed : s.fixed = false) (h : WorkerTurn s id w a t) {w' : Worker}
    (hw' : t.workers id = some w') : Orderly t id w' := by
  cases h with
  | gone => simp at hw'
  | waited =>
    obtain rfl : w = w' := by simpa [hw] using hw'
    exact hs
  | clearing hf hp htrue => simp [hfixed] at htrue
  | cleared hf hp => exact absurd hp hs.notClearing
  | handled hf hp =>
    obtain rfl : _ = w' := by simpa [State.setWorker] using hw'
    have hfresh := hs.fresh (by simp [hp, Pc.argument])
    exact {
      fresh := fun _ => ⟨hf, hfresh.2⟩
      copied := by simp [hf]
      begun := by simp [Worker.begun, hf]
      inTask := by simp
      waiting := by simp
      notClearing := by simp }
  | registered hf hp | entered hf hp | missed hf hp | took hf hp =>
    obtain rfl : _ = w' := by simpa [State.setWorker] using hw'
    exact .base hf rfl (by simp) (by simp) (by simp)
  | found hf hp htask =>
    obtain rfl : _ = w' := by simpa [State.setWorker] using hw'
    exact .base hf rfl (by simp [htask]) (by simp) (by simp)
  | idle hf hp htask =>
    obtain rfl : _ = w' := by simpa [State.setWorker] using hw'
    exact .base hf rfl (by simp) (fun _ => htask) (by simp)
  | woken hf hp =>
    obtain rfl : _ = w' := by simpa [State.setWorker] using hw'
    exact .base hf rfl (by simp) (fun _ => hs.waiting (Or.inl hp)) (by simp)
  | @started task caught hf hp =>
    obtain rfl : _ = w' := by simpa [State.setWorker] using hw'
    refine .base hf rfl (fun k hk => ?_) (by simp) (by simp)
    obtain rfl : task = k := by simpa using hk
    exact hs.inTask task (Or.inl hp)
  | finished =>
    obtain rfl : _ = w' := by simpa [State.setWorker] using hw'
    exact .enter rfl (Or.inl rfl)
  | threw =>
    obtain rfl : _ = w' := by simpa [State.setWorker] using hw'
    exact .enter rfl (Or.inr rfl)
  | copied hf hp =>
    obtain rfl : _ = w' := by simpa [State.setWorker] using hw'
    refine hs.reframe (hs.argument hf) ?_ (fun _ hk => hk) (by simp) (by simp [TeardownPc.before])
    simp [State.entry_task]
  | @guarded f fs task caught hf hp =>
    obtain rfl : _ = w' := by simpa [State.setWorker] using hw'
    refine hs.reframe (hs.argument hf) rfl (fun _ hk => hk) (fun task' h => ?_)
      (by simp [TeardownPc.before])
    obtain rfl : task = task' := by simpa using h
    exact hs.copied f fs task hf (Or.inl hp)
  | @exiting f fs task caught hf hp =>
    obtain rfl : _ = w' := by simpa [State.setWorker] using hw'
    refine hs.reframe (hs.argument hf) rfl (fun _ hk => List.mem_append_left _ hk) (by simp)
      (fun _ k hk => ?_)
    have hentry := hs.copied f fs _ hf (Or.inr hp)
    obtain rfl : task = k := by simpa [hentry] using hk
    simp
  | @exited f fs caught hf hp =>
    obtain rfl : _ = w' := by simpa [State.setWorker] using hw'
    refine hs.reframe (hs.argument hf) rfl (fun _ hk => hk) (by simp) (fun _ k hk => ?_)
    obtain hp | hp := hp
    · simp [hs.copied f fs _ hf (Or.inr hp)] at hk
    · exact hs.begun (by simp [Worker.begun, hf, hp, TeardownPc.before]) k hk
  | exitThrew hf hp | leaving hf hp | unregistered hf hp =>
    obtain rfl : _ = w' := by simpa [State.setWorker] using hw'
    exact hs.reframe (hs.argument hf) rfl (fun _ hk => hk) (by simp)
      fun _ => hs.begun (by simp [Worker.begun, hf, hp, TeardownPc.before])
  | @unwound f fs frames pc caught hf hp hback hunwind =>
    obtain rfl : _ = w' := by simpa [State.setWorker] using hw'
    have harg := Pc.argument_unwind (hs.argument hf) hunwind
    have hbegun := hs.begun (by simp [Worker.begun, hf, hp, TeardownPc.before])
    exact {
      fresh := fun h => absurd harg h
      copied := by
        intro g gs task hg hcopied
        have hexited := unwind_frames hunwind g (by simp [show frames = g :: gs from hg])
        simp [hexited] at hcopied
      begun := by simp
      inTask := by
        intro k hk
        obtain rfl | rfl := unwind_pc hunwind
        · exact Or.inr ((hs.inTask k hk).elim (hbegun k) fun h => h)
        · simp at hk
      waiting := by simp
      notClearing := by
        obtain rfl | rfl := unwind_pc hunwind
        · exact hs.notClearing
        · simp }
  | @crashed f fs caught hf hp =>
    obtain rfl : w = w' := by simpa [State.setEntry, hw] using hw'
    have hbegun := hs.begun (by simp [Worker.begun, hf, hp, TeardownPc.before])
    exact {
      fresh := fun h => absurd (hs.argument hf) h
      copied := by
        intro g gs task hg hcopied
        obtain ⟨rfl, -⟩ := List.cons.inj (hf.symm.trans hg)
        simp [hp] at hcopied
      begun := by simp [State.entryTask, State.setEntry]
      inTask := fun k hk => Or.inr ((hs.inTask k hk).elim (hbegun k) fun h => h)
      waiting := by simp [State.entryTask, State.setEntry]
      notClearing := hs.notClearing }
  | timeoutSet hin he =>
    obtain rfl : _ = w' := by simpa [State.setWorker] using hw'
    refine hs.same rfl rfl (fun hfresh => ?_) ?_ (fun _ hk => hk)
    · simp [(hs.fresh hfresh).2.2] at he
    · rw [s.entryTask_of_some id he]
      simp
  | signalled hpending =>
    obtain rfl : _ = w' := by simpa [State.setWorker] using hw'
    have harg : w.pc.argument = none := by
      by_contra hfresh
      simp [(hs.fresh hfresh).2.1] at hpending
    exact hs.reframe harg rfl (fun _ hk => hk) (by simp) (by simp [TeardownPc.before])
  | dropped =>
    obtain rfl : _ = w' := by simpa [State.setWorker] using hw'
    exact hs.same rfl rfl (fun hfresh => ⟨rfl, (hs.fresh hfresh).2.2⟩) rfl (fun _ hk => hk)

theorem WorkerTurn.fixed (h : WorkerTurn s id w a t) : t.fixed = s.fixed := by
  cases h <;> rfl

theorem WorkerTurn.notCrashed (hw : s.workers id = some w) (hcrashed : s.crashed = false)
    (hcovered : Covered s a) (h : WorkerTurn s id w a t) : t.crashed = false := by
  cases h with
  | crashed hf hp hback hunwind =>
    have hsome := hcovered w hw _ (by simp [hf]) hp hback
    simp [hf, hunwind] at hsome
  | _ => exact hcrashed

/-- `run` of a task is started by the thread that has yet to call its `onExit`, if it was not
called before. -/
theorem WorkerTurn.started_owed (hs : Orderly s id w) (h : WorkerTurn s id w a t) {k : Task}
    (hk : k ∈ t.started) :
    k ∈ s.started ∨ k ∈ s.exited ∨ w.exitRight (s.entryTask id) = some k := by
  cases h with
  | @started task caught hf hp =>
    obtain hk | hk := List.mem_append.mp hk
    · exact Or.inl hk
    · obtain rfl := List.mem_singleton.mp hk
      obtain hentry | hexited := hs.inTask k (Or.inl hp)
      · exact Or.inr (Or.inr (by simp [Worker.exitRight, hp, Pc.argument, Worker.begun, hf, hentry]))
      · exact Or.inr (Or.inl hexited)
  | _ => exact Or.inl hk

/-! Runs. -/

/-- What holds between the steps of a run that keeps to `Covered`. -/
structure Exiting (s : State) : Prop where
  notFixed : s.fixed = false
  notCrashed : s.crashed = false
  housed : s.Housed
  ledger : s.exits.Ok
  orderly : ∀ id w, s.workers id = some w → Orderly s id w
  owed : ∀ k ∈ s.started, k ∈ s.exited ∨ ∃ id, s.exits.holds id k

theorem exiting_make (tl timeoutS : UInt64) (timerThread : ThreadId) (now : Nat) :
    Exiting (make tl timeoutS false timerThread now) where
  notFixed := rfl
  notCrashed := rfl
  housed := housed_make tl timeoutS false timerThread now
  ledger := State.ledger_make tl timeoutS false timerThread now
  orderly := by simp [make]
  owed := by simp [make]

/-- A step of no thread: there may be a new one, and signals may be sent. -/
theorem Exiting.other (hs : Exiting s) (hfixed : t.fixed = s.fixed)
    (hcrashed : t.crashed = s.crashed) (hledger : Ledger.Step s.exits t.exits)
    (hstarted : t.started = s.started) (hexited : t.exited = s.exited)
    (hpool : t.threadPool = s.threadPool) (horderly : ∀ id w, t.workers id = some w → Orderly t id w)
    (hworkers : ∀ id w, s.workers id = some w →
      ∃ pending, t.workers id = some { w with pending := pending }) : Exiting t where
  notFixed := hfixed.trans hs.notFixed
  notCrashed := hcrashed.trans hs.notCrashed
  housed := by
    intro id hnone
    rw [hpool]
    refine hs.housed id ?_
    by_contra hsome
    obtain ⟨w, hw⟩ := Option.ne_none_iff_exists'.mp hsome
    obtain ⟨pending, hw'⟩ := hworkers id w hw
    simp [hnone] at hw'
  ledger := hs.ledger.step hledger
  orderly := horderly
  owed := by
    rw [hstarted, hexited]
    refine fun k hk => (hs.owed k hk).imp_right fun ⟨id, w, hw, hright⟩ => ?_
    obtain ⟨pending, hw'⟩ := hworkers id w hw
    exact ⟨id, _, hw', by rw [State.entryTask, hpool]; exact hright⟩

theorem Exiting.worker (hs : Exiting s) (hcovered : Covered s a) (hw : s.workers id = some w)
    (h : WorkerTurn s id w a t) : Exiting t where
  notFixed := h.fixed.trans hs.notFixed
  notCrashed := h.notCrashed hw hs.notCrashed hcovered
  housed := (Turn.worker hw h).housed hs.housed
  ledger := hs.ledger.step (h.exits (hs.orderly id w hw) hw hcovered)
  orderly := by
    intro j w' hw'
    by_cases hj : j = id
    · subst hj
      exact h.orderly (hs.orderly j w hw) hw hs.notFixed hw'
    · obtain ⟨hworkers, hpool⟩ := h.frame hj
      have hold := hs.orderly j w' (hworkers ▸ hw')
      exact hold.unmoved hpool fun k hk => h.exited_mono hk
  owed := by
    have hkept : ∀ j k, s.exits.holds j k → k ∈ t.exited ∨ ∃ i, t.exits.holds i k := by
      rintro j k ⟨w₀, hw₀, hright⟩
      by_cases hj : j = id
      · subst hj
        obtain rfl : w = w₀ := Option.some.inj (hw.symm.trans hw₀)
        obtain hexited | hheld := h.exitRight_kept (hs.orderly j w hw) hw hcovered hright
        · exact Or.inl hexited
        · exact Or.inr ⟨j, hheld⟩
      · obtain ⟨hworkers, hpool⟩ := h.frame hj
        refine Or.inr ⟨j, w₀, by rw [hworkers, hw₀], ?_⟩
        rwa [State.entryTask, hpool]
    intro k hk
    obtain hk | hk | hk := h.started_owed (hs.orderly id w hw) hk
    · obtain hexited | ⟨j, hheld⟩ := hs.owed k hk
      · exact Or.inl (h.exited_mono hexited)
      · exact hkept j k hheld
    · exact Or.inl (h.exited_mono hk)
    · exact hkept id k ⟨w, hw, hk⟩

theorem Exiting.turn (hs : Exiting s) (hcovered : Covered s a) (h : Turn s a t) : Exiting t := by
  have hsame : ∀ id w, s.workers id = some w →
      ∃ pending, s.workers id = some { w with pending := pending } := fun _ w hw => ⟨w.pending, hw⟩
  cases h with
  | queued hlimit =>
    exact hs.other rfl rfl (.enqueue fun _ _ hk => hk) rfl rfl rfl (fun id w hw =>
      (hs.orderly id w hw).unmoved rfl fun _ hk => hk) hsame
  | refused hlimit =>
    exact hs.other rfl rfl (.grant none fun _ _ hk => Or.inl hk) rfl rfl rfl (fun id w hw =>
      (hs.orderly id w hw).unmoved rfl fun _ hk => hk) hsame
  | initialTimeoutSet ts =>
    exact hs.other rfl rfl (.keep fun _ _ hk => hk) rfl rfl rfl (fun id w hw =>
      (hs.orderly id w hw).unmoved rfl fun _ hk => hk) hsame
  | ticked =>
    exact hs.other rfl rfl (.keep fun _ _ hk => hk) rfl rfl rfl (fun id w hw =>
      (hs.orderly id w hw).unmoved rfl fun _ hk => hk) hsame
  | @created id hlimit htimer hfresh =>
    refine hs.other rfl rfl (State.ledger_created fun k l entry h => ?_) rfl rfl rfl
      (fun j w hw => ?_) fun j w hw => ⟨w.pending, ?_⟩
    · simpa [Worker.exitRight, Pc.argument] using h.symm
    · by_cases hj : j = id
      · obtain rfl : _ = w := by simpa [hj] using hw
        have hnone : s.threadPool j = none := hs.housed j (by rw [hj, hfresh])
        exact {
          fresh := fun _ => ⟨rfl, rfl, hnone⟩
          copied := by simp
          begun := by simp [Worker.begun]
          inTask := by simp
          waiting := by simp
          notClearing := by simp }
      · exact (hs.orderly j w (by simpa [hj] using hw)).unmoved rfl fun _ hk => hk
    · have hj : j ≠ id := fun h => by simp [h, hfresh] at hw
      simpa [hj] using hw
  | timer =>
    refine hs.other rfl rfl (State.ledger_timer fun _ _ _ => rfl) rfl rfl rfl
      (fun j w' hw' => ?_) fun j w hw => ⟨w.pending || timerSignals s j, by simp [timerProcess, hw]⟩
    obtain ⟨w, hw, rfl⟩ := Option.map_eq_some_iff.mp hw'
    have hold := hs.orderly j w hw
    refine hold.same rfl rfl (fun hfresh => ?_) rfl fun _ hk => hk
    obtain ⟨-, hpending, hnone⟩ := hold.fresh hfresh
    exact ⟨by simp [hpending, timerSignals, hnone], hnone⟩
  | worker hw h => exact hs.worker hcovered hw h

theorem Exiting.exitedOnce (hs : Exiting s) : s.ExitedOnce := by
  intro k hk
  by_cases hexited : k ∈ s.exited
  · exact Or.inl (List.count_eq_one_of_mem hs.ledger.spent_nodup hexited)
  · obtain hexited' | ⟨id, w, hw, hright⟩ := hs.owed k hk
    · exact absurd hexited' hexited
    · exact Or.inr ⟨List.count_eq_zero_of_not_mem hexited, hs.notCrashed, id, w, hw, hright⟩

end

/-- The first task is timed out while it runs. -/
def timedOut : List Act :=
  .move (.run (some 1)) :: List.replicate 5 (.move (.work 1 false)) ++
    [.move (.tick 7000000000), .move .timer, .signal 1]

/-- The first task is done, and its time is up while its thread calls `onExit`. -/
def finishedLate : List Act :=
  .move (.run (some 1)) :: List.replicate 9 (.move (.work 1 false)) ++
    [.move (.tick 7000000000), .move .timer, .signal 1]

end WylesLibs.ETasker
