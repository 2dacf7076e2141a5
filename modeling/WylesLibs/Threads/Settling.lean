import WylesLibs.Threads.Accounts
import WylesLibs.Threads.Stranding

/-! What becomes of the pool when clients leave it alone. Without signals every step of a thread
takes it closer to its end, or to the place where it waits for the queue. -/
namespace WylesLibs.ETasker
open Library

/-! How many steps a thread has ahead of it. -/

def TeardownPc.ahead : TeardownPc → Nat
  | .entered => 9
  | .copied _ => 8
  | .guarded _ => 7
  | .exiting => 6
  | .exited => 5
  | .leaving => 2
  | .unregistered => 1

/-- A thread without a task goes around in a circle. Where it stands furthest ahead of the queue
depends on whether there is something in it. -/
def Pc.ahead (filled : Bool) (entry : Option Task) : Pc → Nat
  | .spawned _ => 15
  | .handled _ => 14
  | .loop => if entry.isSome then 13 else 4
  | .checkTask => if entry.isSome then 12 else if filled then 3 else 2
  | .waitQueue => if filled then 2 else 1
  | .lockQueue => if filled then 1 else 3
  | .initializing _ => 11
  | .running _ => 10
  | .clearing | .finished | .terminating => 1

def Worker.ahead (filled : Bool) (entry : Option Task) (w : Worker) : Nat :=
  match w.frames with
  | [] => w.pc.ahead filled entry
  | f :: _ => f.pc.ahead

def State.filled (s : State) : Bool := decide (s.threadPoolQueue ≠ [])

def State.aheadOf (s : State) (id : ThreadId) : Nat :=
  match s.workers id with
  | none => 0
  | some w => w.ahead s.filled (s.entryTask id)

def State.liveOf (s : State) (id : ThreadId) : Nat := if (s.workers id).isSome then 1 else 0

/-- A task in the queue counts for the steps that it takes, and for the threads that look for it
in vain. -/
def State.ahead (s : State) : Nat :=
  ∑ id, s.aheadOf id + s.threadPoolQueue.length * (12 + 2 * ∑ id, s.liveOf id)

/-! Who moves, and who has something to do. -/

def Move.takenBy : Move → Option ThreadId
  | .work id _ | .throws id => some id
  | _ => none

/-- The thread waits in `processThread` for the queue. -/
def Worker.Waits (w : Worker) : Prop := w.frames = [] ∧ w.pc = .waitQueue

def State.Busy (s : State) (id : ThreadId) : Prop :=
  ∃ w, s.workers id = some w ∧ ¬ (w.Waits ∧ s.threadPoolQueue = [])

/-- Every thread there is waits in vain. -/
def State.AtRest (s : State) : Prop := ∀ id, ¬ s.Busy id

section
variable {s t : State} {id : ThreadId} {w : Worker} {m : Move} {k : Task}

theorem Unsignalled.covered (hs : Unsignalled s) : Covered s (.move m) := by
  cases m with
  | work id caught =>
    intro w hw f hf hp hback
    obtain ⟨fs, hfs⟩ : ∃ fs, w.frames = f :: fs := by
      cases hframes : w.frames with
      | nil => simp [hframes] at hf
      | cons g fs =>
        obtain rfl : g = f := by simpa [hframes] using hf
        exact ⟨fs, rfl⟩
    rw [hfs, List.tail_cons, (hs.plain id w hw).unwind hfs hback.2.2]
    rfl
  | _ => trivial

theorem aheadOf_of_some (hw : s.workers id = some w) :
    s.aheadOf id = w.ahead s.filled (s.entryTask id) := by simp [State.aheadOf, hw]

theorem aheadOf_setWorker (s : State) (id : ThreadId) (w : Worker) :
    (s.setWorker id w).aheadOf id = w.ahead s.filled (s.entryTask id) :=
  aheadOf_of_some (Function.update_self _ _ _)

theorem ahead_of_frames {filled : Bool} {entry : Option Task} {f : Teardown} {fs : List Teardown}
    (hf : w.frames = f :: fs) : w.ahead filled entry = f.pc.ahead := by simp [Worker.ahead, hf]

theorem ahead_of_nil {filled : Bool} {entry : Option Task} (hf : w.frames = []) :
    w.ahead filled entry = w.pc.ahead filled entry := by simp [Worker.ahead, hf]

theorem ahead_moved {filled : Bool} {entry : Option Task} (hf : w.frames = []) (pc : Pc) :
    Worker.ahead filled entry { w with pc := pc } = pc.ahead filled entry := ahead_of_nil hf

/-- What one step of a thread does to the steps it has ahead: there are fewer of them, or it takes
a task, or it is no step of its own but a look at an empty queue. -/
theorem WorkerTurn.ahead_own (hs : Orderly s id w) (hplain : w.Plain) (hfixed : s.fixed = false)
    (hw : s.workers id = some w) (h : WorkerTurn s id w (.move m) t) :
    (t.threadPoolQueue = s.threadPoolQueue ∧ t.aheadOf id < s.aheadOf id) ∨
      (∃ task, s.threadPoolQueue = task :: t.threadPoolQueue ∧ t.aheadOf id = 12) ∨
      (t.threadPoolQueue = s.threadPoolQueue ∧ t.aheadOf id = s.aheadOf id ∧
        (∃ w', t.workers id = some w' ∧ (w'.Waits ↔ w.Waits)) ∧
        (m.takenBy = some id → w.Waits ∧ s.threadPoolQueue = [])) := by
  rw [aheadOf_of_some hw]
  cases h with
  | waited hf hp hqueue =>
    exact Or.inr (Or.inr ⟨rfl, aheadOf_of_some hw, ⟨w, hw, Iff.rfl⟩, fun _ => ⟨⟨hf, hp⟩, hqueue⟩⟩)
  | timeoutSet hin he =>
    refine Or.inr (Or.inr ⟨rfl, ?_, ⟨_, Function.update_self _ _ _, Iff.rfl⟩, by simp [Move.takenBy]⟩)
    rw [State.entryTask_of_some _ _ he]
    rw [aheadOf_setWorker, State.entryTask_setEntry]
    rfl
  | took hf hp hqueue =>
    refine Or.inr (Or.inl ⟨_, hqueue, ?_⟩)
    simp [State.aheadOf, State.setWorker, State.setEntry, State.entryTask, Worker.ahead, hf,
      Pc.ahead]
  | clearing hf hp h => rw [hfixed] at h; cases h
  | cleared hf hp => exact absurd hp hs.notClearing
  | crashed hf hp hback hunwind =>
    rw [hplain.unwind hf hback.2.2] at hunwind
    cases hunwind
  | unwound hf hp hback hunwind =>
    rw [hplain.unwind hf hback.2.2] at hunwind
    cases hunwind
    refine Or.inl ⟨rfl, ?_⟩
    rw [ahead_of_frames hf, hp]
    simp [State.aheadOf, TeardownPc.ahead, Worker.ahead, Pc.ahead, State.setWorker, State.setEntry,
      State.entryTask]
  | exited hf hp =>
    refine Or.inl ⟨rfl, ?_⟩
    rw [ahead_of_frames hf]
    obtain hp | hp := hp <;> simp [hp, State.aheadOf, TeardownPc.ahead, Worker.ahead, State.setWorker]
  | copied hf hp | guarded hf hp | exiting hf hp | exitThrew hf hp | leaving hf hp
  | unregistered hf hp | gone hf hp =>
    refine Or.inl ⟨rfl, ?_⟩
    rw [ahead_of_frames hf, hp]
    simp [State.aheadOf, TeardownPc.ahead, Worker.ahead, State.setWorker]
  | threw hf hp =>
    refine Or.inl ⟨rfl, ?_⟩
    rw [ahead_of_nil hf]
    cases hpc : w.pc <;> simp [hpc, Pc.inTask] at hp <;>
      simp [State.aheadOf, TeardownPc.ahead, Worker.ahead, Pc.ahead, State.setWorker]
  | handled hf hp | registered hf hp | started hf hp | finished hf hp =>
    refine Or.inl ⟨rfl, ?_⟩
    rw [ahead_of_nil hf, hp]
    simp [State.aheadOf, TeardownPc.ahead, Worker.ahead, Pc.ahead, hf, State.setWorker,
      State.setEntry, State.entryTask]
  | entered hf hp =>
    refine Or.inl ⟨rfl, ?_⟩
    rw [ahead_of_nil hf, hp]
    rw [aheadOf_setWorker, ahead_moved hf]
    cases s.entryTask id <;> cases s.filled <;> simp [Pc.ahead]
  | found hf hp htask =>
    refine Or.inl ⟨rfl, ?_⟩
    rw [ahead_of_nil hf, hp, aheadOf_setWorker, ahead_moved hf, htask]
    exact Nat.lt_succ_self 11
  | idle hf hp htask =>
    refine Or.inl ⟨rfl, ?_⟩
    rw [ahead_of_nil hf, hp, aheadOf_setWorker, ahead_moved hf, htask]
    cases s.filled <;> decide
  | woken hf hp hqueue =>
    have hfilled : s.filled = true := decide_eq_true hqueue
    refine Or.inl ⟨rfl, ?_⟩
    rw [ahead_of_nil hf, hp, aheadOf_setWorker, ahead_moved hf, hfilled]
    exact Nat.lt_succ_self 1
  | missed hf hp hqueue =>
    have hfilled : s.filled = false := decide_eq_false (not_not.mpr hqueue)
    refine Or.inl ⟨rfl, ?_⟩
    rw [ahead_of_nil hf, hp, aheadOf_setWorker, ahead_moved hf, hfilled, hs.waiting (Or.inr hp)]
    exact Nat.lt_succ_self 2

theorem Pc.ahead_le (pc : Pc) (b b' : Bool) (entry : Option Task) :
    pc.ahead b entry ≤ pc.ahead b' entry + 2 := by
  cases pc <;> cases b <;> cases b' <;> cases entry <;> simp [ahead]

/-- Whether the queue is empty makes a difference of two steps at most. -/
theorem Worker.ahead_le (w : Worker) (b b' : Bool) (entry : Option Task) :
    w.ahead b entry ≤ w.ahead b' entry + 2 := by
  unfold ahead
  cases w.frames with
  | nil => exact w.pc.ahead_le b b' entry
  | cons f fs => exact Nat.le_add_right _ _

theorem WorkerTurn.liveOf_le (hw : s.workers id = some w) (h : WorkerTurn s id w (.move m) t)
    (j : ThreadId) : t.liveOf j ≤ s.liveOf j := by
  by_cases hj : j = id
  · subst hj
    simp only [State.liveOf, hw, Option.isSome_some, if_true]
    split <;> omega
  · exact (congrArg (fun v : Option Worker => if v.isSome then 1 else 0) (h.frame hj).1).le

/-- The others have as much ahead of them as before, but for the circle around the queue. -/
theorem WorkerTurn.aheadOf_frame (h : WorkerTurn s id w (.move m) t) {j : ThreadId} (hj : j ≠ id) :
    t.aheadOf j ≤ s.aheadOf j + 2 * s.liveOf j ∧
      (t.threadPoolQueue = s.threadPoolQueue → t.aheadOf j = s.aheadOf j) := by
  obtain ⟨hworkers, hpool⟩ := h.frame hj
  have hentry : t.entryTask j = s.entryTask j := by rw [State.entryTask, hpool]; rfl
  cases hv : s.workers j with
  | none => simp [State.aheadOf, hworkers, hv]
  | some v =>
    rw [aheadOf_of_some (hworkers.trans hv), aheadOf_of_some hv, hentry]
    simp only [State.liveOf, hv, Option.isSome_some, if_true]
    exact ⟨v.ahead_le _ _ _, fun hqueue => by rw [State.filled, hqueue]; rfl⟩

/-- A step of a thread takes the pool closer to its rest, or it is not its own, or a look at an
empty queue. -/
theorem WorkerTurn.ahead (hs : Orderly s id w) (hplain : w.Plain) (hfixed : s.fixed = false)
    (hw : s.workers id = some w) (h : WorkerTurn s id w (.move m) t) :
    t.ahead < s.ahead ∨ t.ahead ≤ s.ahead ∧ t.threadPoolQueue = s.threadPoolQueue ∧
      (∃ w', t.workers id = some w' ∧ (w'.Waits ↔ w.Waits)) ∧
      (m.takenBy = some id → w.Waits ∧ s.threadPoolQueue = []) := by
  have hlive : ∑ j, t.liveOf j ≤ ∑ j, s.liveOf j := Finset.sum_le_sum fun j _ => h.liveOf_le hw j
  have hweight : 12 + 2 * ∑ j, t.liveOf j ≤ 12 + 2 * ∑ j, s.liveOf j := by omega
  obtain ⟨hqueue, hlt⟩ | ⟨task, hqueue, htwelve⟩ | ⟨hqueue, heq, hstays, htaken⟩ :=
    h.ahead_own hs hplain hfixed hw
  · left
    have hsum : ∑ j, t.aheadOf j < ∑ j, s.aheadOf j := by
      refine Finset.sum_lt_sum (fun j _ => ?_) ⟨id, Finset.mem_univ id, hlt⟩
      by_cases hj : j = id
      · exact hj ▸ hlt.le
      · exact ((h.aheadOf_frame hj).2 hqueue).le
    have hmul := Nat.mul_le_mul_left s.threadPoolQueue.length hweight
    rw [State.ahead, State.ahead, hqueue]
    omega
  · left
    have hsum : ∑ j, t.aheadOf j ≤ ∑ j, (s.aheadOf j + 2 * s.liveOf j + if j = id then 10 else 0) := by
      refine Finset.sum_le_sum fun j _ => ?_
      by_cases hj : j = id
      · subst hj
        simp only [htwelve, State.liveOf, hw, Option.isSome_some, if_true]
        omega
      · simpa [hj] using (h.aheadOf_frame hj).1
    rw [Finset.sum_add_distrib, Finset.sum_add_distrib, ← Finset.mul_sum,
      Finset.sum_ite_eq' Finset.univ id, if_pos (Finset.mem_univ id)] at hsum
    have hmul := Nat.mul_le_mul_left t.threadPoolQueue.length hweight
    rw [State.ahead, State.ahead, hqueue, List.length_cons, Nat.succ_mul t.threadPoolQueue.length]
    omega
  · right
    have hsum : ∑ j, t.aheadOf j ≤ ∑ j, s.aheadOf j := by
      refine Finset.sum_le_sum fun j _ => ?_
      by_cases hj : j = id
      · exact hj ▸ heq.le
      · exact ((h.aheadOf_frame hj).2 hqueue).le
    have hmul := Nat.mul_le_mul_left s.threadPoolQueue.length hweight
    refine ⟨?_, hqueue, hstays, htaken⟩
    rw [State.ahead, State.ahead, hqueue]
    omega

/-! What is handed over is begun. -/

/-- The task whose `initialize` ends with an exception at this step. -/
def fails (s : State) : Move → Option Task
  | .throws id => (s.workers id).bind fun w =>
    match w.frames, w.pc with
    | [], .initializing task => some task
    | _, _ => none
  | _ => none

theorem WorkerTurn.startRight_kept (hs : Orderly s id w) (hplain : w.Plain) (hfixed : s.fixed = false)
    (hw : s.workers id = some w) (h : WorkerTurn s id w (.move m) t)
    (hk : w.pc.startRight (s.entryTask id) = some k) :
    k ∈ t.started ∨ fails s m = some k ∨
      ∃ w', t.workers id = some w' ∧ w'.pc.startRight (t.entryTask id) = some k := by
  have hframes : ∀ f fs, w.frames = f :: fs → w.pc.startRight (s.entryTask id) = none := by
    intro f fs hf
    rw [(hplain.tail hf).2]
    split <;> rfl
  cases h with
  | waited => exact Or.inr (Or.inr ⟨w, hw, hk⟩)
  | clearing hf hp h => rw [hfixed] at h; cases h
  | cleared hf hp => exact absurd hp hs.notClearing
  | took hf hp => simp [hp, Pc.startRight, hs.waiting (Or.inr hp)] at hk
  | idle hf hp htask => simp [hp, Pc.startRight, htask] at hk
  | finished hf hp => simp [hp, Pc.startRight] at hk
  | started hf hp =>
    obtain rfl : _ = k := by simpa [hp, Pc.startRight] using hk
    exact Or.inl (List.mem_append_right _ (List.mem_singleton_self _))
  | threw hf hp =>
    cases hpc : w.pc with
    | initializing task =>
      obtain rfl : task = k := by simpa [hpc, Pc.startRight] using hk
      exact Or.inr (Or.inl (by simp [fails, hw, hf, hpc]))
    | running task => simp [hpc, Pc.startRight] at hk
    | _ => simp [hpc, Pc.inTask] at hp
  | timeoutSet hin he =>
    refine Or.inr (Or.inr ⟨_, Function.update_self _ _ _, ?_⟩)
    rw [State.entryTask_of_some _ _ he] at hk
    simpa using hk
  | copied hf | guarded hf | exiting hf | exited hf | exitThrew hf | unwound hf | crashed hf
  | leaving hf | unregistered hf | gone hf =>
    rw [hframes _ _ hf] at hk
    cases hk
  | _ =>
    refine Or.inr (Or.inr ⟨_, Function.update_self _ _ _, ?_⟩)
    simp_all [Pc.startRight, State.setWorker, State.setEntry, State.entryTask]

theorem WorkerTurn.started_mono (h : WorkerTurn s id w (.move m) t) (hk : k ∈ s.started) :
    k ∈ t.started := by
  cases h with
  | started => exact List.mem_append_left _ hk
  | _ => exact hk

/-- A task leaves the queue for a thread that may start it. -/
theorem WorkerTurn.queue_kept (h : WorkerTurn s id w (.move m) t) (hk : k ∈ s.threadPoolQueue) :
    k ∈ t.threadPoolQueue ∨ t.starts.holds id k := by
  cases h with
  | took hf hp hqueue =>
    rw [hqueue] at hk
    obtain rfl | hk := List.mem_cons.mp hk
    · right
      refine ⟨_, Function.update_self _ _ _, ?_⟩
      simp [Pc.startRight, State.entryTask, State.setEntry, State.setWorker]
    · exact Or.inl hk
  | _ => exact Or.inl hk

theorem WorkerTurn.starts_kept (hs : Exiting s) (hplain : Unsignalled s)
    (hw : s.workers id = some w) (h : WorkerTurn s id w (.move m) t) (hk : s.starts.Has k) :
    t.starts.Has k ∨ fails s m = some k := by
  obtain hk | ⟨j, v, hv, hk⟩ | hk := hk
  · obtain hk | hk := h.queue_kept hk
    · exact Or.inl (Or.inl hk)
    · exact Or.inl (Or.inr (Or.inl ⟨id, hk⟩))
  · by_cases hj : j = id
    · subst hj
      obtain rfl : w = v := Option.some.inj (hw.symm.trans hv)
      obtain hk | hk | hk :=
        h.startRight_kept (hs.orderly j w hw) (hplain.plain j w hw) hs.notFixed hw hk
      · exact Or.inl (Or.inr (Or.inr hk))
      · exact Or.inr hk
      · exact Or.inl (Or.inr (Or.inl ⟨j, hk⟩))
    · obtain ⟨hworkers, hpool⟩ := h.frame hj
      refine Or.inl (Or.inr (Or.inl ⟨j, v, hworkers.trans hv, ?_⟩))
      rwa [State.entryTask, hpool]
  · exact Or.inl (Or.inr (Or.inr (h.started_mono hk)))

/-- What has yet to be started stays so until it is, or its `initialize` fails. -/
theorem Turn.starts_kept (hs : Exiting s) (hplain : Unsignalled s) (h : Turn s (.move m) t)
    (hk : s.starts.Has k) : t.starts.Has k ∨ fails s m = some k := by
  cases h with
  | queued => exact Or.inl (hk.imp_left (List.mem_append_left _))
  | refused | initialTimeoutSet | ticked => exact Or.inl hk
  | @created i hlimit htimer hfresh =>
    obtain hk | ⟨j, v, hv, hk⟩ | hk := hk
    · exact Or.inl (Or.inl hk)
    · have hj : j ≠ i := fun h => by simp [h, hfresh] at hv
      exact Or.inl (Or.inr (Or.inl ⟨j, v, by simpa [hj] using hv, hk⟩))
    · exact Or.inl (Or.inr (Or.inr hk))
  | timer =>
    obtain hk | ⟨j, v, hv, hk⟩ | hk := hk
    · exact Or.inl (Or.inl hk)
    · have hv' : (timerProcess s).workers j =
          some { v with pending := v.pending || timerSignals s j } := by simp [timerProcess, hv]
      exact Or.inl (Or.inr (Or.inl ⟨j, _, hv', hk⟩))
    · exact Or.inl (Or.inr (Or.inr hk))
  | worker hw h => exact h.starts_kept hs hplain hw hk

/-- A task that was handed over may be started. -/
theorem Turn.starts_accepted (h : Turn s (.move m) t) (hk : accepts s (.move m) = some k) :
    t.starts.Has k := by
  cases h with
  | queued hlimit =>
    obtain rfl : s.submitted = k := by simpa [accepts, hlimit] using hk
    exact Or.inl (List.mem_append_right _ (List.mem_singleton_self _))
  | refused hlimit => simp [accepts, hlimit] at hk
  | created hlimit =>
    obtain rfl : s.submitted = k := by simpa [accepts, hlimit] using hk
    exact Or.inr (Or.inl ⟨_, _, Function.update_self _ _ _, rfl⟩)
  | worker hw h => cases h <;> simp [accepts] at hk
  | _ => simp [accepts] at hk

/-! Runs without signals. -/

/-- `failed` are the tasks whose `initialize` has thrown. -/
structure Begun (failed : List Task) (s : State) : Prop where
  exiting : Exiting s
  unsignalled : Unsignalled s
  begun : ∀ k, s.exits.Has k → s.starts.Has k ∨ k ∈ failed

theorem Begun.turn {failed : List Task} (hs : Begun failed s) (h : Turn s (.move m) t) :
    Begun (failed ++ (fails s m).toList) t where
  exiting := hs.exiting.turn hs.unsignalled.covered h
  unsignalled := h.unsignalled hs.unsignalled
  begun := by
    intro k hk
    obtain hk | hk := (h.has_iff hs.exiting hs.unsignalled.covered).mp hk
    · obtain hk | hk := hs.begun k hk
      · exact (h.starts_kept hs.exiting hs.unsignalled hk).imp_right fun hfails => by simp [hfails]
      · exact Or.inr (List.mem_append_left _ hk)
    · exact Or.inl (h.starts_accepted hk)

theorem aheadOf_timer (id : ThreadId) : (timerProcess s).aheadOf id = s.aheadOf id := by
  cases hw : s.workers id with
  | none => simp [State.aheadOf, timerProcess, hw]
  | some w =>
    have hw' : (timerProcess s).workers id =
        some { w with pending := w.pending || timerSignals s id } := by simp [timerProcess, hw]
    rw [aheadOf_of_some hw, aheadOf_of_some hw']
    rfl

theorem ahead_timer : (timerProcess s).ahead = s.ahead := by
  have hlive : ∀ id, (timerProcess s).liveOf id = s.liveOf id := by
    intro id
    cases hw : s.workers id <;> simp [State.liveOf, timerProcess, hw]
  simp only [State.ahead, aheadOf_timer, hlive]
  rfl

/-- Nothing but a call of `run` takes the pool away from its rest. -/
theorem Turn.ahead_le (hs : Exiting s) (hplain : Unsignalled s) (h : Turn s (.move m) t)
    (hquiet : ∀ thread, m ≠ .run thread) : t.ahead ≤ s.ahead := by
  cases h with
  | queued | refused | created => exact absurd rfl (hquiet _)
  | timer => exact ahead_timer.le
  | initialTimeoutSet | ticked => exact le_rfl
  | worker hw h =>
    obtain hlt | ⟨hle, -⟩ := h.ahead (hs.orderly _ _ hw) (hplain.plain _ _ hw) hs.notFixed hw
    · exact hlt.le
    · exact hle

theorem WorkerTurn.takenBy (h : WorkerTurn s id w (.move m) t) :
    m.takenBy = none ∨ m.takenBy = some id := by
  cases h <;> simp [Move.takenBy]

/-- A step that takes the pool no closer to its rest is not one of a thread with something to do,
and leaves it with that. -/
theorem Turn.busy (hs : Exiting s) (hplain : Unsignalled s) (h : Turn s (.move m) t)
    (hquiet : ∀ thread, m ≠ .run thread) (hsame : t.ahead = s.ahead) {j : ThreadId}
    (hbusy : s.Busy j) : t.Busy j ∧ m.takenBy ≠ some j := by
  obtain ⟨v, hv, hnot⟩ := hbusy
  cases h with
  | queued | refused | created => exact absurd rfl (hquiet _)
  | timer =>
    exact ⟨⟨{ v with pending := v.pending || timerSignals s j }, by simp [timerProcess, hv], hnot⟩,
      by simp [Move.takenBy]⟩
  | initialTimeoutSet | ticked => exact ⟨⟨v, hv, hnot⟩, by simp [Move.takenBy]⟩
  | @worker id w _ _ hw h =>
    obtain hlt | ⟨-, hqueue, ⟨w', hw', hwaits⟩, htaken⟩ :=
      h.ahead (hs.orderly _ _ hw) (hplain.plain _ _ hw) hs.notFixed hw
    · exact absurd hsame hlt.ne
    · by_cases hj : j = id
      · subst hj
        obtain rfl : w = v := Option.some.inj (hw.symm.trans hv)
        refine ⟨⟨w', hw', ?_⟩, fun h => hnot (htaken h)⟩
        rwa [hwaits, hqueue]
      · refine ⟨⟨v, (h.frame hj).1.trans hv, by rwa [hqueue]⟩, fun h' => ?_⟩
        obtain hnone | hid := h.takenBy
        · simp [hnone] at h'
        · exact hj (Option.some.inj (h'.symm.trans hid))

/-- A thread that waits in vain has no task. -/
theorem State.AtRest.owes (hs : Exiting s) (hrest : s.AtRest) (id : ThreadId) : s.owes id = none := by
  cases hw : s.workers id with
  | none => simp [State.owes, hw]
  | some w =>
    obtain ⟨⟨hf, hp⟩, -⟩ : w.Waits ∧ s.threadPoolQueue = [] := by
      by_contra hnot
      exact hrest id ⟨w, hw, hnot⟩
    have hentry := (hs.orderly id w hw).waiting (Or.inl hp)
    simp [State.owes, hw, Worker.exitRight, hp, Pc.argument, hentry]

theorem State.AtRest.starts (hs : Exiting s) (hrest : s.AtRest) (hk : s.starts.Has k) :
    k ∈ s.threadPoolQueue ∨ k ∈ s.started := by
  obtain hk | ⟨id, w, hw, hk⟩ | hk := hk
  · exact Or.inl hk
  · obtain ⟨⟨-, hp⟩, -⟩ : w.Waits ∧ s.threadPoolQueue = [] := by
      by_contra hnot
      exact hrest id ⟨w, hw, hnot⟩
    have hentry := (hs.orderly id w hw).waiting (Or.inl hp)
    simp [hp, Pc.startRight, hentry] at hk
  · exact Or.inr hk

/-- A queue that some thread comes back to is empty at rest. -/
theorem State.AtRest.queue (hrest : s.AtRest) (hserved : s.Served) : s.threadPoolQueue = [] := by
  by_contra hne
  obtain ⟨id, w, -, hw, -⟩ := hserved hne
  exact hrest id ⟨w, hw, fun h => hne h.2⟩

end

/-- The tasks that were handed over in the first `i` steps. -/
def handedOver (e : Endless calm) (i : Nat) : List Task :=
  gathered calm (fun s m => accepts s (.move m)) (e.state 0) (e.inputs i)

/-- The tasks among them whose `initialize` has thrown. -/
def failed (e : Endless calm) (i : Nat) : List Task := gathered calm fails (e.state 0) (e.inputs i)

section
variable {e : Endless calm} {tl timeoutS : UInt64} {timerThread : ThreadId} {now : Nat}

theorem accounted_handedOver (hstart : e.state 0 = make tl timeoutS false timerThread now) (i : Nat) :
    Accounted (handedOver e i) (e.state i) ∧ Unsignalled (e.state i) := by
  have hmake : Accounted [] (e.state 0) ∧ Unsignalled (e.state 0) := by
    rw [hstart]
    refine ⟨accounted_make tl timeoutS timerThread now, fun id w hw => ?_, fun _ => rfl⟩
    simp [make] at hw
  refine invariant_of_gathered (I := fun found s => Accounted found s ∧ Unsignalled s)
    (fun found s m t hs _ h => ?_) hmake (along_true _ _) (e.run_inputs i)
  have hturn := turn_of_calm h
  exact ⟨hs.1.turn hs.2.covered hturn, hturn.unsignalled hs.2⟩

theorem begun_failed (hstart : e.state 0 = make tl timeoutS false timerThread now) (i : Nat) :
    Begun (failed e i) (e.state i) := by
  have hmake : Begun [] (e.state 0) := {
    exiting := (accounted_handedOver hstart 0).1.exiting
    unsignalled := (accounted_handedOver hstart 0).2
    begun := by
      intro k hk
      have hnone : k ∈ handedOver e 0 := ((accounted_handedOver hstart 0).1.placed k).mpr hk
      simp [handedOver, gathered, Endless.inputs] at hnone }
  exact invariant_of_gathered (fun _ _ _ _ hs _ h => hs.turn (turn_of_calm h)) hmake
    (along_true _ _) (e.run_inputs i)

theorem served_of_attends (hstart : e.state 0 = make tl timeoutS false timerThread now) {i : Nat}
    (hattends : Along calm Attends (e.state 0) (e.inputs i)) : (e.state i).Served := by
  have hmake : (e.state 0).Served := by
    rw [hstart]
    intro hne
    simp [make] at hne
  have hplain : Unsignalled (e.state 0) := (accounted_handedOver hstart 0).2
  have hserved : Unsignalled (e.state i) ∧ (e.state i).Served :=
    invariant_of_along (I := fun s => Unsignalled s ∧ s.Served) (fun s m t hs hm h =>
      ⟨(turn_of_calm h).unsignalled hs.1, ((turn_of_calm h).served_iff hs.1 hs.2).mpr hm⟩)
      ⟨hplain, hmake⟩ hattends (e.run_inputs i)
  exact hserved.2

/-- At rest `onExit` of every task was called, but for those in the queue. -/
theorem State.AtRest.exited (hstart : e.state 0 = make tl timeoutS false timerThread now) {i : Nat}
    (hrest : (e.state i).AtRest) :
    (handedOver e i).Perm ((e.state i).exited ++ (e.state i).threadPoolQueue) := by
  obtain ⟨hacc, -⟩ := accounted_handedOver hstart i
  have hledger := hacc.exiting.ledger
  have hnodup : ((e.state i).exited ++ (e.state i).threadPoolQueue).Nodup :=
    List.nodup_append'.mpr ⟨hledger.spent_nodup, hledger.queue_nodup,
      fun k hk hq => hledger.queued_not_spent k hq hk⟩
  refine (List.perm_ext_iff_of_nodup (hacc.sorted.imp fun h => h.ne) hnodup).mpr fun k => ?_
  rw [hacc.placed, exits_has_iff, List.mem_append]
  simp only [hrest.owes hacc.exiting, reduceCtorEq, exists_false, false_or]
  exact or_comm

end

/-- The second task waits for the thread of the first one, which takes it and then goes. -/
def drained : List Move :=
  .run (some 1) :: .run none :: List.replicate 25 (.work 1 false)

theorem drained_end : ∃ s, Library.run calm (make 1 7 false 0 0) drained = some s ∧
    calm s (.tick 0) = some s ∧ ∀ id, s.workers id = none := by
  have hrun : ((Library.run calm (make 1 7 false 0 0) drained).map
      fun s => (s.numThreads, s.crashed, s.now)) = some (0, false, 0) := by decide +kernel
  obtain ⟨s, hs, hfields⟩ := Option.map_eq_some_iff.mp hrun
  obtain ⟨hnum, hcrashed, hnow⟩ : s.numThreads = 0 ∧ s.crashed = false ∧ s.now = 0 := by
    simpa using hfields
  refine ⟨s, hs, ?_, fun id => ?_⟩
  · have hclock : s.now + 0 < clockEnd := by
      rw [hnow]
      decide
    rw [calm, if_neg (by simp [hcrashed]), move, if_pos hclock]
    rfl
  · obtain ⟨live, hlive⟩ := (invariant_of_run (fun _ _ _ hs h => hs.turn (turn_of_calm h))
      (bounded_make 1 7 false 0 0) hs).counted
    have hempty : live = [] := by
      rw [← List.length_eq_zero_iff, hlive.length, hnum]
      rfl
    have hmem := (hlive.mem id).not
    simpa [hempty] using hmem

end WylesLibs.ETasker
