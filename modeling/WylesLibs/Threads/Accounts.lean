import WylesLibs.Threads.OnExit
import WylesLibs.Library.Endless

/-! Where the tasks are that clients have handed over. -/
namespace WylesLibs.ETasker
open Library

/-- The task that this step hands over, which is to say that `run` answers 0. -/
def accepts (s : State) : Act → Option Task
  | .move (.run thread) =>
    if s.threadLimit ≠ sizeMax ∧ s.threadLimit ≤ s.numThreads then some s.submitted
    else thread.map fun _ => s.submitted
  | _ => none

/-- The task that a thread has yet to call `onExit` of. -/
def State.owes (s : State) (id : ThreadId) : Option Task :=
  (s.workers id).bind fun w => w.exitRight (s.entryTask id)

section
variable {s t : State} {id : ThreadId} {w : Worker} {a : Act} {k : Task}

theorem exits_holds_iff : s.exits.holds id k ↔ s.owes id = some k := Option.bind_eq_some_iff.symm

theorem exits_has_iff : s.exits.Has k ↔
    k ∈ s.threadPoolQueue ∨ (∃ id, s.owes id = some k) ∨ k ∈ s.exited := by
  simp only [Ledger.Has, exits_holds_iff]
  rfl

theorem accepts_lt (h : Turn s a t) (hk : accepts s a = some k) :
    k = s.submitted ∧ t.submitted = s.submitted + 1 := by
  cases h with
  | queued hlimit =>
    simp only [accepts, if_pos hlimit, Option.some.injEq] at hk
    exact ⟨hk.symm, rfl⟩
  | refused hlimit => simp [accepts, hlimit] at hk
  | created hlimit =>
    simp only [accepts, if_neg hlimit, Option.map_some, Option.some.injEq] at hk
    exact ⟨hk.symm, rfl⟩
  | worker hw h => cases h <;> simp [accepts] at hk
  | _ => simp [accepts] at hk

theorem Turn.submitted_le (h : Turn s a t) : s.submitted ≤ t.submitted := by
  cases h with
  | worker hw h => cases h <;> exact le_rfl
  | queued | refused | created => exact Nat.le_succ _
  | _ => exact le_rfl

/-- A thread neither drops a task nor makes one. -/
theorem WorkerTurn.has_iff (hs : Orderly s id w) (hw : s.workers id = some w)
    (hcovered : Covered s a) (h : WorkerTurn s id w a t) : t.exits.Has k ↔ s.exits.Has k := by
  have hsubmitted : t.submitted = s.submitted := by cases h <;> rfl
  constructor
  · intro hk
    obtain hk | ⟨-, hnext⟩ := (h.exits hs hw hcovered).has hk
    · exact hk
    · exact absurd (hsubmitted.symm.trans hnext) (Nat.succ_ne_self s.submitted).symm
  · rintro (hk | ⟨j, hk⟩ | hk)
    · have htaken : k ∈ t.threadPoolQueue ∨ t.exits.holds id k := by
        cases h with
        | @took task queue caught hf hp hqueue =>
          have hk' : k ∈ task :: queue := hqueue ▸ hk
          obtain rfl | hk := List.mem_cons.mp hk'
          · right
            refine ⟨_, Function.update_self _ _ _, ?_⟩
            simp [Worker.exitRight, Worker.begun, Pc.argument, hf, State.setEntry, State.setWorker,
              State.entryTask]
          · exact Or.inl hk
        | _ => exact Or.inl hk
      obtain hk | hk := htaken
      · exact Or.inl hk
      · exact Or.inr (Or.inl ⟨id, hk⟩)
    · by_cases hj : j = id
      · subst hj
        obtain ⟨w₀, hw₀, hright⟩ := hk
        obtain rfl : w = w₀ := Option.some.inj (hw.symm.trans hw₀)
        obtain hexited | hheld := h.exitRight_kept hs hw hcovered hright
        · exact Or.inr (Or.inr hexited)
        · exact Or.inr (Or.inl ⟨j, hheld⟩)
      · obtain ⟨w₀, hw₀, hright⟩ := hk
        obtain ⟨hworkers, hpool⟩ := h.frame hj
        refine Or.inr (Or.inl ⟨j, w₀, by rw [hworkers, hw₀], ?_⟩)
        rwa [State.entryTask, hpool]
    · exact Or.inr (Or.inr (h.exited_mono hk))

/-- What a new thread owes is the task it was created with. -/
theorem owes_created (j : ThreadId) :
    State.owes { s with
      workers := Function.update s.workers id (some ⟨.spawned s.submitted, [], false, 0, 0⟩)
      numThreads := s.numThreads + 1
      submitted := s.submitted + 1
      created := s.created + 1 } j = if j = id then some s.submitted else s.owes j := by
  by_cases hj : j = id
  · simp [State.owes, hj, Worker.exitRight, Pc.argument]
  · simp [State.owes, hj, State.entryTask]

theorem owes_timer (j : ThreadId) : (timerProcess s).owes j = s.owes j := by
  cases hw : s.workers j with
  | none => simp [State.owes, timerProcess, hw]
  | some w =>
    simp only [State.owes, timerProcess, hw, Option.map_some, Option.bind_some]
    rfl

/-- Only clients bring tasks, and none is dropped. -/
theorem Turn.has_iff (hs : Exiting s) (hcovered : Covered s a) (h : Turn s a t) :
    t.exits.Has k ↔ s.exits.Has k ∨ accepts s a = some k := by
  cases h with
  | queued hlimit =>
    have howes : State.owes { s with
        threadPoolQueue := s.threadPoolQueue ++ [s.submitted]
        queued := s.queued ++ [s.submitted]
        submitted := s.submitted + 1 } = s.owes := rfl
    simp only [exits_has_iff, howes, accepts, if_pos hlimit, List.mem_append, List.mem_singleton,
      Option.some.injEq, eq_comm (a := s.submitted)]
    tauto
  | refused hlimit =>
    simp only [accepts, if_neg hlimit, Option.map_none, reduceCtorEq, or_false]
    exact Iff.rfl
  | @created i hlimit htimer hfresh =>
    have hnone : s.owes i = none := by simp [State.owes, hfresh]
    have hheld : (∃ j, (if j = i then some s.submitted else s.owes j) = some k) ↔
        s.submitted = k ∨ ∃ j, s.owes j = some k := by
      constructor
      · rintro ⟨j, hj⟩
        by_cases hji : j = i
        · exact Or.inl (by simpa [hji] using hj)
        · exact Or.inr ⟨j, by simpa [hji] using hj⟩
      · rintro (rfl | ⟨j, hj⟩)
        · exact ⟨i, by simp⟩
        · have hji : j ≠ i := fun h => by simp [h, hnone] at hj
          exact ⟨j, by simpa [hji] using hj⟩
    simp only [exits_has_iff, owes_created, hheld, accepts, if_neg hlimit, Option.map_some,
      Option.some.injEq]
    tauto
  | timer =>
    simp only [exits_has_iff, owes_timer, accepts, reduceCtorEq, or_false]
    exact Iff.rfl
  | initialTimeoutSet =>
    simp only [accepts, reduceCtorEq, or_false]
    exact Iff.rfl
  | ticked =>
    simp only [accepts, reduceCtorEq, or_false]
    exact Iff.rfl
  | worker hw h =>
    rw [h.has_iff (hs.orderly _ _ hw) hw hcovered]
    cases h <;> simp [accepts]

/-! Runs. -/

/-- `found` are the tasks that were handed over, in the order of the calls. -/
structure Accounted (found : List Task) (s : State) : Prop where
  exiting : Exiting s
  sorted : found.Pairwise (· < ·)
  lt : ∀ k ∈ found, k < s.submitted
  placed : ∀ k, k ∈ found ↔ s.exits.Has k

theorem Accounted.turn {found : List Task} (hs : Accounted found s) (hcovered : Covered s a)
    (h : Turn s a t) : Accounted (found ++ (accepts s a).toList) t where
  exiting := hs.exiting.turn hcovered h
  sorted := by
    refine List.pairwise_append.mpr ⟨hs.sorted, ?_, fun k hk l hl => ?_⟩
    · cases accepts s a <;> simp
    · obtain ⟨rfl, -⟩ := accepts_lt h (by simpa using hl)
      exact hs.lt k hk
  lt := by
    intro k hk
    obtain hk | hk := List.mem_append.mp hk
    · exact Nat.lt_of_lt_of_le (hs.lt k hk) h.submitted_le
    · obtain ⟨rfl, hnext⟩ := accepts_lt h (by simpa using hk)
      rw [hnext]
      exact Nat.lt_succ_self s.submitted
  placed := by
    intro k
    rw [h.has_iff hs.exiting hcovered, ← hs.placed]
    simp

theorem accounted_make (tl timeoutS : UInt64) (timerThread : ThreadId) (now : Nat) :
    Accounted [] (make tl timeoutS false timerThread now) where
  exiting := exiting_make tl timeoutS timerThread now
  sorted := .nil
  lt := by simp
  placed := by simp [exits_has_iff, State.owes, make]

end

end WylesLibs.ETasker
