import WylesLibs.Threads.Bounds

/-! When the queue has a thread that will come back to it. -/
namespace WylesLibs.ETasker
open Library

/-- The call has not yet looked whether the queue is empty. -/
def TeardownPc.undecided : TeardownPc → Bool
  | .leaving | .unregistered => false
  | _ => true

/-- The thread will look at the queue again: it is in no call of `threadTeardown` that has decided
to go, and in none that is forced to. -/
def Worker.returns (w : Worker) : Bool := w.frames.all fun f => !f.force && f.pc.undecided

/-- Some thread other than `ex` will look at the queue again. -/
def State.Attended (s : State) (ex : Option ThreadId) : Prop :=
  ∃ id w, some id ≠ ex ∧ s.workers id = some w ∧ w.returns = true

/-- No task is left in the queue with nobody to take it. -/
def State.Served (s : State) : Prop := s.threadPoolQueue ≠ [] → s.Attended none

/-- A call of `run` that only queues its task finds a thread that will come back, and so does a
task that throws while others wait. -/
def Attends (s : State) : Move → Prop
  | .run _ => s.threadLimit ≠ sizeMax ∧ s.threadLimit ≤ s.numThreads → s.Attended none
  | .throws id => (∃ w, s.workers id = some w ∧ w.frames = []) → s.threadPoolQueue ≠ [] →
    s.Attended (some id)
  | _ => True

/-- Without signals a thread is in at most one call of `threadTeardown`. -/
def Worker.Plain (w : Worker) : Prop :=
  match w.frames with
  | [] => w.pc ≠ .finished ∧ w.pc ≠ .terminating
  | [f] => w.pc = if f.force then .terminating else .finished
  | _ => False

structure Unsignalled (s : State) : Prop where
  plain : ∀ id w, s.workers id = some w → w.Plain
  unlimited : s.threadLimit = sizeMax → s.threadPoolQueue = []

section
variable {s t : State} {id : ThreadId} {w : Worker} {m : Move}

theorem Worker.Plain.tail {f : Teardown} {fs : List Teardown} (h : w.Plain)
    (hf : w.frames = f :: fs) : fs = [] ∧ w.pc = if f.force then .terminating else .finished := by
  cases fs with
  | nil => exact ⟨rfl, by simpa [Plain, hf] using h⟩
  | cons g fs => simp [Plain, hf] at h

/-- The exception that sends a thread back is caught in its loop. -/
theorem Worker.Plain.unwind {f : Teardown} {fs : List Teardown} {caught : Bool} (h : w.Plain)
    (hf : w.frames = f :: fs) (hforce : f.force = false) :
    ETasker.unwind caught fs w.pc = some (.loop, []) := by
  obtain ⟨rfl, hpc⟩ := h.tail hf
  rw [hpc, hforce]
  rfl

theorem Worker.Plain.within {f : Teardown} {fs : List Teardown} (h : w.Plain)
    (hf : w.frames = f :: fs) (pc : TeardownPc) :
    Worker.Plain { w with frames := { f with pc := pc } :: fs } := by
  obtain ⟨rfl, hpc⟩ := h.tail hf
  exact hpc

theorem WorkerTurn.plain (hs : w.Plain) (hw : s.workers id = some w)
    (h : WorkerTurn s id w (.move m) t) {w' : Worker} (hw' : t.workers id = some w') :
    w'.Plain := by
  cases h with
  | gone => simp at hw'
  | unwound hf hp hback hunwind =>
    rw [hs.unwind hf hback.2.2] at hunwind
    cases hunwind
    obtain rfl : _ = w' := by simpa [State.setWorker] using hw'
    exact ⟨by simp, by simp⟩
  | crashed hf hp hback hunwind =>
    rw [hs.unwind hf hback.2.2] at hunwind
    cases hunwind
  | timeoutSet hin he =>
    obtain rfl : _ = w' := by simpa [State.setWorker] using hw'
    exact hs
  | waited =>
    obtain rfl : w = w' := by simpa [hw] using hw'
    exact hs
  | copied hf | guarded hf | exiting hf | exited hf | exitThrew hf | leaving hf | unregistered hf =>
    obtain rfl : _ = w' := by simpa [State.setWorker] using hw'
    exact hs.within hf _
  | _ =>
    simp [State.setWorker, State.setEntry] at hw'
    subst hw'
    simp_all [Worker.Plain]

theorem Turn.unsignalled (hs : Unsignalled s) (h : Turn s (.move m) t) : Unsignalled t := by
  cases h with
  | queued hlimit => exact ⟨hs.plain, fun h => absurd h hlimit.1⟩
  | refused => exact ⟨hs.plain, hs.unlimited⟩
  | @created id hlimit htimer hfresh =>
    refine ⟨fun j w hw => ?_, hs.unlimited⟩
    by_cases hj : j = id
    · obtain rfl : _ = w := by simpa [hj] using hw
      exact ⟨by simp, by simp⟩
    · exact hs.plain j w (by simpa [hj] using hw)
  | timer =>
    refine ⟨fun j w hw => ?_, hs.unlimited⟩
    obtain ⟨w₀, hw₀, rfl⟩ := Option.map_eq_some_iff.mp hw
    exact hs.plain j w₀ hw₀
  | initialTimeoutSet => exact ⟨hs.plain, hs.unlimited⟩
  | ticked => exact ⟨hs.plain, hs.unlimited⟩
  | @worker id w _ _ hw h =>
    constructor
    · intro j w' hw'
      by_cases hj : j = id
      · subst hj
        exact h.plain (hs.plain j w hw) hw hw'
      · exact hs.plain j w' ((h.frame hj).1 ▸ hw')
    · intro hlimit
      cases h with
      | took hf hp hqueue =>
        rw [hs.unlimited hlimit] at hqueue
        cases hqueue
      | _ => exact hs.unlimited hlimit

/-! What a step does to the threads that will come back. -/

theorem Worker.returns_cons {f : Teardown} {fs : List Teardown} (hf : w.frames = f :: fs) :
    w.returns = true ↔ (f.force = false ∧ f.pc.undecided = true) ∧
      ∀ g ∈ fs, (g.force = false ∧ g.pc.undecided = true) := by
  simp [returns, hf]

theorem Worker.returns_within {f : Teardown} {fs : List Teardown} (hret : w.returns = true)
    (hf : w.frames = f :: fs) {pc : TeardownPc} (hpc : pc.undecided = true) :
    Worker.returns { w with frames := { f with pc := pc } :: fs } = true := by
  obtain ⟨⟨hforce, -⟩, hfs⟩ := (returns_cons hf).mp hret
  have hhead : { f with pc := pc }.force = false ∧ { f with pc := pc }.pc.undecided = true :=
    ⟨hforce, hpc⟩
  exact (returns_cons rfl).mpr ⟨hhead, hfs⟩

/-- Only a throw of its task, and the decision to go, keep a thread from coming back. -/
theorem WorkerTurn.returns (hs : Unsignalled s) (hw : s.workers id = some w)
    (hret : w.returns = true) (h : WorkerTurn s id w (.move m) t)
    (hthrow : ∀ j, m = .throws j → w.frames ≠ []) (hqueue : t.threadPoolQueue ≠ []) :
    ∃ w', t.workers id = some w' ∧ w'.returns = true := by
  cases h with
  | threw hf => exact absurd hf (hthrow id rfl)
  | gone hf hp =>
    have hundecided := ((Worker.returns_cons hf).mp hret).1.2
    simp [hp, TeardownPc.undecided] at hundecided
  | unregistered hf hp =>
    have hundecided := ((Worker.returns_cons hf).mp hret).1.2
    simp [hp, TeardownPc.undecided] at hundecided
  | leaving hf hp hback =>
    have hforce := ((Worker.returns_cons hf).mp hret).1.1
    have hlimit : s.threadLimit ≠ sizeMax := fun h => hqueue (hs.unlimited h)
    exact absurd ⟨hlimit, hqueue, hforce⟩ hback
  | unwound hf hp hback hunwind =>
    rw [(hs.plain id w hw).unwind hf hback.2.2] at hunwind
    cases hunwind
    exact ⟨_, Function.update_self _ _ _, rfl⟩
  | crashed hf hp hback hunwind =>
    rw [(hs.plain id w hw).unwind hf hback.2.2] at hunwind
    cases hunwind
  | waited => exact ⟨w, hw, hret⟩
  | copied hf | guarded hf | exiting hf | exited hf | exitThrew hf =>
    exact ⟨_, Function.update_self _ _ _, Worker.returns_within hret hf rfl⟩
  | _ =>
    refine ⟨_, Function.update_self _ _ _, ?_⟩
    simp_all [Worker.returns, TeardownPc.undecided]

/-- The thread that moves may leave the queue alone, the others do not. -/
theorem State.Attended.frame (h : WorkerTurn s id w (.move m) t) (hs : s.Attended (some id)) :
    t.Attended none := by
  obtain ⟨j, w', hj, hw', hret⟩ := hs
  have hne : j ≠ id := fun h => hj (by rw [h])
  exact ⟨j, w', by simp, by rw [(h.frame hne).1, hw'], hret⟩

theorem State.Attended.other (hs : s.Attended none) :
    s.Attended (some id) ∨ ∃ w, s.workers id = some w ∧ w.returns = true := by
  obtain ⟨j, w', -, hw', hret⟩ := hs
  by_cases hj : j = id
  · exact Or.inr ⟨w', hj ▸ hw', hret⟩
  · exact Or.inl ⟨j, w', by simpa using hj, hw', hret⟩

/-- A step that the queue is not lengthened by, and that is no throw of a task. -/
theorem WorkerTurn.served (hs : Unsignalled s) (hw : s.workers id = some w) (hserved : s.Served)
    (h : WorkerTurn s id w (.move m) t) (hthrow : ∀ j, m = .throws j → w.frames ≠ []) :
    t.Served := by
  intro hqueue
  have hold : s.threadPoolQueue ≠ [] := by
    cases h with
    | took hf hp hcons =>
      rw [hcons]
      simp
    | _ => exact hqueue
  obtain hother | ⟨w₀, hw₀, hret⟩ := (hserved hold).other
  · exact hother.frame h
  · obtain rfl : w = w₀ := Option.some.inj (hw.symm.trans hw₀)
    obtain ⟨w', hw', hret'⟩ := h.returns hs hw hret hthrow hqueue
    exact ⟨id, w', by simp, hw', hret'⟩

/-- A task that throws ends its thread, which then does not come back. -/
theorem served_threw (hw : s.workers id = some w) (hf : w.frames = []) :
    (s.setWorker id { w with pc := .terminating, frames := [⟨true, .entered⟩] }).Served ↔
      Attends s (.throws id) := by
  constructor
  · intro hserved _ hqueue
    obtain ⟨j, w', -, hw', hret⟩ := hserved hqueue
    by_cases hj : j = id
    · obtain rfl : _ = w' := by simpa [State.setWorker, hj] using hw'
      simp [Worker.returns] at hret
    · exact ⟨j, w', by simpa using hj, by simpa [State.setWorker, hj] using hw', hret⟩
  · intro hattends hqueue
    obtain ⟨j, w', hj, hw', hret⟩ := hattends ⟨w, hw, hf⟩ hqueue
    have hne : j ≠ id := fun h => hj (by rw [h])
    exact ⟨j, w', by simp, by simpa [State.setWorker, hne] using hw', hret⟩

/-- Steps that leave the threads at work as they are. -/
theorem served_same (hqueue : t.threadPoolQueue = s.threadPoolQueue)
    (hworkers : ∀ j w, s.workers j = some w → w.returns = true →
      ∃ w', t.workers j = some w' ∧ w'.returns = true) (hserved : s.Served) : t.Served := by
  intro hne
  obtain ⟨j, w, -, hw, hret⟩ := hserved (hqueue ▸ hne)
  obtain ⟨w', hw', hret'⟩ := hworkers j w hw hret
  exact ⟨j, w', by simp, hw', hret'⟩

/-- A step keeps the queue served exactly if it meets `Attends`. -/
theorem Turn.served_iff (hs : Unsignalled s) (hserved : s.Served) (h : Turn s (.move m) t) :
    t.Served ↔ Attends s m := by
  cases h with
  | queued hlimit =>
    refine ⟨fun h _ => ?_, fun h _ => h hlimit⟩
    exact h (by simp)
  | refused hlimit => exact iff_of_true hserved fun h => absurd h hlimit
  | @created id hlimit htimer hfresh =>
    refine iff_of_true (served_same (s := s) rfl (fun j w hw hret => ⟨w, ?_, hret⟩) hserved)
      fun h => absurd h hlimit
    have hj : j ≠ id := fun h => by simp [h, hfresh] at hw
    simpa [hj] using hw
  | timer =>
    refine iff_of_true (served_same (s := s) rfl (fun j w hw hret => ?_) hserved) trivial
    exact ⟨{ w with pending := w.pending || timerSignals s j }, by simp [timerProcess, hw], hret⟩
  | initialTimeoutSet => exact iff_of_true hserved trivial
  | ticked => exact iff_of_true hserved trivial
  | @worker id w _ _ hw h =>
    cases m with
    | throws j =>
      cases h with
      | threw hf hp => exact served_threw hw hf
      | exitThrew hf hp =>
        refine iff_of_true ((WorkerTurn.exitThrew hf hp).served hs hw hserved ?_) ?_
        · intro j _
          simp [hf]
        · rintro ⟨w₀, hw₀, hnil⟩
          obtain rfl : w = w₀ := Option.some.inj (hw.symm.trans hw₀)
          simp [hf] at hnil
    | run thread => cases h
    | _ => exact iff_of_true (h.served hs hw hserved (by simp)) trivial

/-- In a run without signals the queue is served in every state exactly if every call that queues
its task, and every task that throws, finds a thread that will come back. -/
theorem served_iff_attends {tl timeoutS : UInt64} {fixed : Bool} {timerThread : ThreadId}
    {now : Nat} {moves : List Move}
    (h : Library.run calm (make tl timeoutS fixed timerThread now) moves = some s) :
    (∀ v, Visited calm (make tl timeoutS fixed timerThread now) moves v → v.Served) ↔
      Along calm Attends (make tl timeoutS fixed timerThread now) moves := by
  refine visited_iff_along (I := Unsignalled) (fun _ _ _ hs h => (turn_of_calm h).unsignalled hs)
    (fun _ _ _ hs hserved h => (turn_of_calm h).served_iff hs hserved) ⟨?_, fun _ => rfl⟩ ?_ h
  · intro id w hw
    simp [make] at hw
  · intro hqueue
    simp [make] at hqueue

end

/-- The second task waits for the thread of the first one, which finds its task done and the queue
filled again. -/
theorem served_reuse : ∃ s, Library.run calm (make 1 7 false 0 0)
      (.run (some 1) :: .run none :: List.replicate 12 (.work 1 false)) = some s ∧
    ((∀ v, Visited calm (make 1 7 false 0 0)
        (.run (some 1) :: .run none :: List.replicate 12 (.work 1 false)) v → v.Served) ↔
      Along calm Attends (make 1 7 false 0 0)
        (.run (some 1) :: .run none :: List.replicate 12 (.work 1 false))) := by
  have hrun : ((Library.run calm (make 1 7 false 0 0)
      (.run (some 1) :: .run none :: List.replicate 12 (.work 1 false))).isSome) = true := by
    decide +kernel
  obtain ⟨s, hs⟩ := Option.isSome_iff_exists.mp hrun
  exact ⟨s, hs, served_iff_attends hs⟩

/-- The thread has looked at the queue and found it empty, and `run` counts it still: the second
task is queued and then there is no thread at all. -/
theorem not_served_after_decision : ∃ s, Library.run calm (make 1 7 false 0 0)
      (.run (some 1) :: List.replicate 11 (.work 1 false) ++
        [.run none, .work 1 false, .work 1 false]) = some s ∧ ¬ s.Served := by
  have hrun : ((Library.run calm (make 1 7 false 0 0)
      (.run (some 1) :: List.replicate 11 (.work 1 false) ++
        [.run none, .work 1 false, .work 1 false])).map
      fun s => (s.threadPoolQueue, s.numThreads)) = some ([1], 0) := by decide +kernel
  obtain ⟨s, hs, hfields⟩ := Option.map_eq_some_iff.mp hrun
  obtain ⟨hqueue, hnum⟩ := Prod.mk.inj hfields
  refine ⟨s, hs, fun hserved => ?_⟩
  obtain ⟨id, w, -, hw, -⟩ := hserved (by simp [hqueue])
  obtain ⟨live, hlive⟩ := (invariant_of_run (fun _ _ _ hs h => hs.turn (turn_of_calm h))
    (bounded_make 1 7 false 0 0) hs).counted
  have hempty : live = [] := by
    rw [← List.length_eq_zero_iff, hlive.length, hnum]
    rfl
  have hmem := (hlive.mem id).mpr (by simp [hw])
  simp [hempty] at hmem

end WylesLibs.ETasker
