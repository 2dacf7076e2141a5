import WylesLibs.Threads.Turns

/-! When the timer lets a task have its time. -/
namespace WylesLibs.ETasker
open Library

/-- The first reading of the clock at which the entry counts as expired. The sum of seconds is one
of 64 bits, and what a reading has beside its seconds is left out of it. -/
def EThread.due (e : EThread) : Nat := (tvSec e.startTime + e.timeoutS).toNat * 10 ^ 9

/-- An entry with which the timer gives a task, taken at `takenAt` and with the timeout `own`, its
time: from `now` on the clock does not come to `due` before the time is up. -/
def EThread.Meets (e : EThread) (now takenAt : Nat) (own : UInt64) : Prop :=
  e.due < clockEnd → takenAt + own.toNat * 10 ^ 9 ≤ max e.due now

/-- Whenever the timer passes next, and the thread keeps its task up to then, it signals no thread
whose task has had less than its own timeout. -/
def State.OnTime (s : State) : Prop :=
  ∀ t, s.now ≤ t → t < clockEnd → ∀ id w k, s.workers id = some w → s.entryTask id = some k →
    timerSignals { s with now := t } id = true → w.takenAt + w.ownTimeoutS.toNat * 10 ^ 9 ≤ t

/-- What is asked of a step: the entry that a task is taken with, or given a new timeout in, meets
the timeout of the task. -/
def Punctual (s : State) : Act → Prop
  | .move (.work id _) => ∀ w, s.workers id = some w → w.frames = [] →
    (∀ k, w.pc = .handled k →
      (⟨s.now, s.initialTimeoutS, some k⟩ : EThread).Meets s.now s.now s.initialTimeoutS) ∧
    (w.pc = .lockQueue → s.threadPoolQueue ≠ [] →
      (s.entry id).Meets s.now s.now s.initialTimeoutS)
  | .move (.setThreadTimeout id ts) => ∀ w e, s.workers id = some w → s.threadPool id = some e →
    e.task.isSome = true → ({ e with timeoutS := ts } : EThread).Meets s.now w.takenAt ts
  | _ => True

section
variable {s t : State} {id : ThreadId} {w : Worker} {a : Act}

theorem expired_iff {now : Nat} (hnow : now < clockEnd) (e : EThread) :
    expired now e = true ↔ e.due ≤ now := by
  have hsec : (tvSec now).toNat = now / 10 ^ 9 := by
    unfold tvSec
    rw [UInt64.toNat_ofNat']
    refine Nat.mod_eq_of_lt ?_
    unfold clockEnd at hnow
    omega
  rw [expired, decide_eq_true_eq, UInt64.le_iff_toNat_le, hsec, EThread.due,
    Nat.le_div_iff_mul_le (by decide)]

/-- The entry of the thread is one that gives its task its time. -/
def Worker.Meets (w : Worker) (e : Option EThread) (now : Nat) : Prop :=
  ∀ e', e = some e' → e'.task.isSome = true → e'.Meets now w.takenAt w.ownTimeoutS

/-- The clock does not leave its range, and all entries are in order. -/
theorem onTime_iff (hnow : s.now < clockEnd) :
    s.OnTime ↔ ∀ id w, s.workers id = some w → w.Meets (s.threadPool id) s.now := by
  constructor
  · intro h id w hw e he htask hdue
    obtain ⟨k, hk⟩ := Option.isSome_iff_exists.mp htask
    have hlt : max e.due s.now < clockEnd := max_lt hdue hnow
    refine h (max e.due s.now) (le_max_right _ _) hlt id w k hw ?_ ?_
    · rw [s.entryTask_of_some id he, hk]
    · simp only [timerSignals, he]
      exact (expired_iff hlt e).mpr (le_max_left _ _)
  · intro h u hle hlt id w k hw hk hsignals
    obtain ⟨e, he, htask⟩ := Option.bind_eq_some_iff.mp hk
    simp only [timerSignals, he] at hsignals
    have hdue := (expired_iff hlt e).mp hsignals
    have hmeets := h id w hw e he (by simp [htask]) (Nat.lt_of_le_of_lt hdue hlt)
    exact Nat.le_trans hmeets (max_le hdue hle)

/-- A step of a thread leaves its entry in order exactly if it is a punctual one. -/
theorem WorkerTurn.meets_iff (hw : s.workers id = some w)
    (hs : w.Meets (s.threadPool id) s.now) (h : WorkerTurn s id w a t) :
    (∀ w', t.workers id = some w' → w'.Meets (t.threadPool id) t.now) ↔ Punctual s a := by
  cases h with
  | took hf hp hqueue =>
    have hdue : ∀ e : EThread, ∀ task, ({ e with task := task } : EThread).Meets s.now s.now
        s.initialTimeoutS ↔ e.Meets s.now s.now s.initialTimeoutS := fun _ _ => Iff.rfl
    simp [Punctual, Worker.Meets, State.setWorker, State.setEntry, hw, hf, hp, hqueue, hdue]
  | copied hf hp =>
    have hentry : (s.entry id).task.isSome = true →
        (s.entry id).Meets s.now w.takenAt w.ownTimeoutS := by
      unfold State.entry
      cases he : s.threadPool id with
      | none => simp [EThread.zero]
      | some e => exact hs e he
    simp [Punctual, Worker.Meets, State.setWorker, State.setEntry, hw, hf]
    exact hentry
  | _ => simp_all [Punctual, Worker.Meets, State.setWorker, State.setEntry]

theorem WorkerTurn.now_eq (h : WorkerTurn s id w a t) : t.now = s.now := by
  cases h <;> rfl

theorem Turn.now_lt (hnow : s.now < clockEnd) (h : Turn s a t) : t.now < clockEnd := by
  cases h with
  | ticked hclock => exact hclock
  | worker hw h => exact h.now_eq ▸ hnow
  | _ => exact hnow

/-- A step keeps the timer in time exactly if it is a punctual one. -/
theorem Turn.onTime_iff (hhoused : s.Housed) (hnow : s.now < clockEnd) (hs : s.OnTime) (h : Turn s a t) :
    t.OnTime ↔ Punctual s a := by
  have hmeets := (ETasker.onTime_iff hnow).mp hs
  rw [ETasker.onTime_iff (h.now_lt hnow)]
  cases h with
  | queued => exact iff_of_true hmeets trivial
  | refused => exact iff_of_true hmeets trivial
  | initialTimeoutSet => exact iff_of_true hmeets trivial
  | @created id hlimit htimer hfresh =>
    refine iff_of_true (fun j w hw e he => ?_) trivial
    by_cases hj : j = id
    · rw [hj, hhoused id hfresh] at he
      cases he
    · exact hmeets j w (by simpa [hj] using hw) e he
  | timer =>
    refine iff_of_true (fun j w hw => ?_) trivial
    obtain ⟨w₀, hw₀, rfl⟩ := Option.map_eq_some_iff.mp hw
    exact hmeets j w₀ hw₀
  | ticked hclock =>
    refine iff_of_true (fun j w hw e he htask hdue => ?_) trivial
    have hbefore := hmeets j w hw e he htask hdue
    exact Nat.le_trans hbefore (max_le_max le_rfl (Nat.le_add_right _ _))
  | @worker id w _ _ hw h =>
    rw [← h.meets_iff hw (hmeets id w hw)]
    constructor
    · exact fun hall w' hw' => hall id w' hw'
    · intro hown j w' hw'
      by_cases hj : j = id
      · exact hj ▸ hown w' (hj ▸ hw')
      · obtain ⟨hworkers, hpool⟩ := h.frame hj
        rw [hpool, h.now_eq]
        exact hmeets j w' (hworkers ▸ hw')

/-- In every state of a run the timer is in time exactly if every entry that a task is taken with,
and every timeout that a task sets, meets the timeout of the task. -/
theorem onTime_iff_punctual {tl timeoutS : UInt64} {fixed : Bool} {timerThread : ThreadId}
    {now : Nat} {acts : List Act} (hnow : now < clockEnd)
    (h : Library.run step (make tl timeoutS fixed timerThread now) acts = some s) :
    (∀ v, Visited step (make tl timeoutS fixed timerThread now) acts v → v.OnTime) ↔
      Along step Punctual (make tl timeoutS fixed timerThread now) acts := by
  refine visited_iff_along (I := fun v => v.Housed ∧ v.now < clockEnd) (fun _ _ _ hs h => ?_)
    (fun _ _ _ hs hon h => (turn_of_step h).2.onTime_iff hs.1 hs.2 hon) ⟨?_, hnow⟩ ?_ h
  · exact ⟨(turn_of_step h).2.housed hs.1, (turn_of_step h).2.now_lt hs.2⟩
  · exact housed_make tl timeoutS fixed timerThread now
  · intro u hle hlt id w k hw
    simp [make] at hw

end
/-- A task that is started on a whole second, with 7 seconds. -/
theorem onTime_first : 0 < clockEnd ∧ ∃ s, Library.run step (make 1 7 false 0 0)
      (.move (.run (some 1)) :: List.replicate 5 (.move (.work 1 false)) ++ [.move .timer]) =
        some s ∧
    ((∀ v, Visited step (make 1 7 false 0 0)
        (.move (.run (some 1)) :: List.replicate 5 (.move (.work 1 false)) ++ [.move .timer]) v →
          v.OnTime) ↔
      Along step Punctual (make 1 7 false 0 0)
        (.move (.run (some 1)) :: List.replicate 5 (.move (.work 1 false)) ++ [.move .timer])) := by
  have hnow : 0 < clockEnd := by decide
  have hrun : (Library.run step (make 1 7 false 0 0) (.move (.run (some 1)) ::
      List.replicate 5 (.move (.work 1 false)) ++ [.move .timer])).isSome = true := by
    decide +kernel
  obtain ⟨s, hs⟩ := Option.isSome_iff_exists.mp hrun
  exact ⟨hnow, s, hs, onTime_iff_punctual hnow hs⟩

/-- The second task is taken by the thread of the first, 6 seconds after that one was: the thread is
signalled a second later. -/
theorem not_onTime_reuse : ∃ s, Library.run step (make 1 7 false 0 0)
      ([.move (.run (some 1)), .move (.run none)] ++ List.replicate 5 (.move (.work 1 false)) ++
        [.move (.tick 6000000000)] ++ List.replicate 10 (.move (.work 1 false)) ++
        [.move (.tick 1000000000)]) = some s ∧
    timerSignals s 1 = true ∧ ¬ s.OnTime := by
  have hrun : (Library.run step (make 1 7 false 0 0)
      ([.move (.run (some 1)), .move (.run none)] ++ List.replicate 5 (.move (.work 1 false)) ++
        [.move (.tick 6000000000)] ++ List.replicate 10 (.move (.work 1 false)) ++
        [.move (.tick 1000000000)])).map (fun s => (timerSignals s 1, s.now, s.entryTask 1,
          (s.workers 1).map fun w => (w.takenAt, w.ownTimeoutS))) =
      some (true, 7000000000, some 1, some (6000000000, 7)) := by decide +kernel
  obtain ⟨s, hs, hfields⟩ := Option.map_eq_some_iff.mp hrun
  simp only [Prod.mk.injEq, Option.map_eq_some_iff] at hfields
  obtain ⟨hsignals, hnow, htask, w, hw, htaken, hown⟩ := hfields
  refine ⟨s, hs, hsignals, fun hon => ?_⟩
  have hlt : s.now < clockEnd := by
    rw [hnow]
    decide
  have htime := hon s.now (Nat.le_refl _) hlt 1 w 1 hw htask hsignals
  rw [htaken, hown, hnow] at htime
  exact absurd htime (by decide)

end WylesLibs.ETasker
