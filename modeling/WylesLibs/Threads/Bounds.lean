import WylesLibs.Threads.Turns

/-! The bounds of the pool: how many threads there are, that no task is run twice, and that the
queue is one. -/
namespace WylesLibs.ETasker
open Library

section
variable {s t : State} {id : ThreadId} {w : Worker} {a : Act}

/-! The count of threads. -/

/-- `live` are the threads that were created and have not gone. As the timer is a thread too, not
every identifier is one of theirs. -/
structure Counted (s : State) (live : List ThreadId) : Prop where
  nodup : live.Nodup
  mem : ∀ id, id ∈ live ↔ (s.workers id).isSome = true
  timer : s.timerThread ∉ live
  length : live.length = s.numThreads.toNat
  balance : s.numThreads.toNat + s.completed = s.created
  limit : s.threadLimit ≠ sizeMax → s.numThreads ≤ s.threadLimit

theorem counted_make (tl timeoutS : UInt64) (fixed : Bool) (timerThread : ThreadId) (now : Nat) :
    Counted (make tl timeoutS fixed timerThread now) [] where
  nodup := .nil
  mem := by simp [make]
  timer := by simp
  length := rfl
  balance := rfl
  limit := fun _ => UInt64.zero_le

theorem length_live {live : List ThreadId} (h : live.Nodup) : live.length ≤ 2 ^ 64 := by
  have hcard := h.length_le_card
  rwa [← FinEnum.card_eq_fintypeCard, FinEnum.card_UInt64] at hcard

/-- One more thread is one that `num_threads` can still count. -/
theorem Counted.room {live : List ThreadId} (hs : Counted s live) (htimer : id ≠ s.timerThread)
    (hfresh : s.workers id = none) : s.numThreads.toNat + 1 < 2 ^ 64 := by
  have hid : id ∉ live := by simp [hs.mem, hfresh]
  have hnodup : (s.timerThread :: id :: live).Nodup :=
    List.nodup_cons.mpr ⟨by simp [htimer.symm, hs.timer], List.nodup_cons.mpr ⟨hid, hs.nodup⟩⟩
  have hlength := length_live hnodup
  simp only [List.length_cons, hs.length] at hlength
  omega

theorem Counted.created {live : List ThreadId} (hs : Counted s live)
    (hlimit : ¬ (s.threadLimit ≠ sizeMax ∧ s.threadLimit ≤ s.numThreads))
    (htimer : id ≠ s.timerThread) (hfresh : s.workers id = none) :
    Counted { s with
      workers := Function.update s.workers id (some ⟨.spawned s.submitted, [], false, 0, 0⟩)
      numThreads := s.numThreads + 1
      submitted := s.submitted + 1
      created := s.created + 1 } (id :: live) := by
  have hroom := hs.room htimer hfresh
  have hnum : (s.numThreads + 1).toNat = s.numThreads.toNat + 1 := by
    rw [UInt64.toNat_add]
    exact Nat.mod_eq_of_lt hroom
  exact {
    nodup := List.nodup_cons.mpr ⟨by simp [hs.mem, hfresh], hs.nodup⟩
    mem := fun j => by
      by_cases hj : j = id
      · simp [hj]
      · simp [hj, hs.mem]
    timer := by simp [htimer.symm, hs.timer]
    length := by rw [List.length_cons, hs.length, hnum]
    balance := by
      have hbalance := hs.balance
      simp only [hnum]
      omega
    limit := fun hne => by
      have hlt : s.numThreads < s.threadLimit := by
        rw [not_and, UInt64.not_le] at hlimit
        exact hlimit hne
      rw [UInt64.le_iff_toNat_le, hnum]
      exact UInt64.lt_iff_toNat_lt.mp hlt }

theorem Counted.gone {live : List ThreadId} (hs : Counted s live) (hw : s.workers id = some w) :
    Counted { s with
      threadPool := Function.update s.threadPool id none
      workers := Function.update s.workers id none
      numThreads := s.numThreads - 1
      completed := s.completed + 1 } (live.erase id) := by
  have hid : id ∈ live := by simp [hs.mem, hw]
  have hpos : 0 < live.length := List.length_pos_of_mem hid
  have hone : (1 : UInt64) ≤ s.numThreads := by
    rw [UInt64.le_iff_toNat_le, ← hs.length]
    exact hpos
  have hnum : (s.numThreads - 1).toNat = s.numThreads.toNat - 1 :=
    UInt64.toNat_sub_of_le _ _ hone
  have hlength := hs.length
  exact {
    nodup := hs.nodup.erase id
    mem := fun j => by
      rw [hs.nodup.mem_erase_iff]
      by_cases hj : j = id
      · simp [hj]
      · simp [hj, hs.mem]
    timer := fun h => hs.timer (List.mem_of_mem_erase h)
    length := by
      rw [List.length_erase_of_mem hid, hnum, hlength]
    balance := by
      have hbalance := hs.balance
      simp only [hnum]
      omega
    limit := fun hne => by
      have hle := UInt64.le_iff_toNat_le.mp (hs.limit hne)
      rw [UInt64.le_iff_toNat_le, hnum]
      exact Nat.le_trans (Nat.sub_le _ 1) hle }

/-- Threads, counters and limits are left as they are. -/
theorem Counted.same {live : List ThreadId} (hs : Counted s live)
    (hworkers : ∀ j, (t.workers j).isSome = (s.workers j).isSome)
    (htimer : t.timerThread = s.timerThread) (hlimit : t.threadLimit = s.threadLimit)
    (hnum : t.numThreads = s.numThreads) (hcreated : t.created = s.created)
    (hcompleted : t.completed = s.completed) : Counted t live where
  nodup := hs.nodup
  mem := fun j => by rw [hworkers, hs.mem]
  timer := htimer ▸ hs.timer
  length := hnum ▸ hs.length
  balance := by rw [hnum, hcreated, hcompleted, hs.balance]
  limit := by rw [hnum, hlimit]; exact hs.limit

theorem Counted.set {live : List ThreadId} (hs : Counted s live) (hw : s.workers id = some w)
    {w' : Worker} (hworkers : t.workers = Function.update s.workers id (some w'))
    (htimer : t.timerThread = s.timerThread) (hlimit : t.threadLimit = s.threadLimit)
    (hnum : t.numThreads = s.numThreads) (hcreated : t.created = s.created)
    (hcompleted : t.completed = s.completed) : Counted t live := by
  refine hs.same (fun j => ?_) htimer hlimit hnum hcreated hcompleted
  by_cases hj : j = id
  · simp [hworkers, hj, hw]
  · simp [hworkers, hj]

theorem WorkerTurn.counted {live : List ThreadId} (hs : Counted s live)
    (hw : s.workers id = some w) (h : WorkerTurn s id w a t) : ∃ live', Counted t live' := by
  cases h with
  | waited => exact ⟨live, hs⟩
  | crashed => exact ⟨live, hs.same (fun _ => rfl) rfl rfl rfl rfl rfl⟩
  | gone => exact ⟨_, hs.gone hw⟩
  | _ => exact ⟨live, hs.set hw rfl rfl rfl rfl rfl rfl⟩

theorem Turn.counted {live : List ThreadId} (hs : Counted s live) (h : Turn s a t) :
    ∃ live', Counted t live' := by
  cases h with
  | created hlimit htimer hfresh => exact ⟨_, hs.created hlimit htimer hfresh⟩
  | timer =>
    exact ⟨live, hs.same (fun j => by simp [timerProcess]) rfl rfl rfl rfl rfl⟩
  | worker hw h => exact h.counted hs hw
  | _ => exact ⟨live, hs.same (fun _ => rfl) rfl rfl rfl rfl rfl⟩

/-! The right to start a task. -/

/-- The task that a thread may yet start: the one it was created with, and then the one in its
entry. -/
def Pc.startRight (pc : Pc) (entry : Option Task) : Option Task :=
  match pc with
  | .spawned task | .handled task | .initializing task => some task
  | .loop | .checkTask | .waitQueue | .lockQueue => entry
  | .running _ | .clearing | .finished | .terminating => none

def State.starts (s : State) : Ledger ThreadId :=
  s.ledger (fun w entry => w.pc.startRight entry) s.started

theorem Pc.startRight_none {pc : Pc} {entry : Option Task} {k : Task}
    (h : pc.startRight none = some k) : pc.startRight entry = some k := by
  cases pc <;> simp_all [startRight]

theorem unwind_pc {caught : Bool} {fs frames : List Teardown} {pc pc' : Pc}
    (h : unwind caught fs pc = some (pc', frames)) : pc' = pc ∨ pc' = .loop := by
  induction fs with
  | nil =>
    unfold unwind at h
    split at h
    · cases h
      exact Or.inl rfl
    · split at h
      · cases h
        exact Or.inr rfl
      · cases h
  | cons f fs ih =>
    unfold unwind at h
    split at h
    · cases h
      exact Or.inl rfl
    · exact ih h

/-- A thread gets the right to start a task by taking it from the queue. -/
theorem WorkerTurn.startRight_own (hw : s.workers id = some w) (h : WorkerTurn s id w a t)
    (w' : Worker) {k : Task} (hw' : t.workers id = some w')
    (hk : w'.pc.startRight (t.entryTask id) = some k) :
    w.pc.startRight (s.entryTask id) = some k ∨ t.taken = s.taken ++ [k] := by
  cases h with
  | copied =>
    obtain rfl : _ = w' := by simpa [State.setWorker] using hw'
    simp only [State.entryTask, State.setWorker, State.setEntry, Function.update_self,
      Option.bind_some, State.entry_task] at hk
    exact Or.inl hk
  | unwound hf hp hback hunwind =>
    obtain rfl : _ = w' := by simpa [State.setWorker] using hw'
    simp only [State.entryTask, State.setWorker, State.setEntry, Function.update_self,
      Option.bind_some] at hk
    obtain rfl | rfl := unwind_pc hunwind
    · exact Or.inl (Pc.startRight_none hk)
    · simp [Pc.startRight] at hk
  | crashed =>
    obtain rfl : w = w' := by simpa [State.setEntry, hw] using hw'
    simp only [State.entryTask, State.setEntry, Function.update_self, Option.bind_some] at hk
    exact Or.inl (Pc.startRight_none hk)
  | gone => simp at hw'
  | _ =>
    simp [State.setWorker, State.setEntry, hw] at hw'
    subst hw'
    simp_all [Pc.startRight, State.setWorker, State.setEntry, State.entryTask]

theorem WorkerTurn.starts (hw : s.workers id = some w) (h : WorkerTurn s id w a t) :
    Ledger.Step s.starts t.starts := by
  have hown := fun v k hv hk => h.startRight_own hw v (k := k) hv hk
  have hcases := fun j k =>
    h.holds_cases (fun w entry => w.pc.startRight entry) s.started (j := j) (k := k)
  cases h with
  | @took task queue caught hf hp hqueue =>
    refine .take (i := id) hqueue fun j k hk => ?_
    obtain ⟨-, hk⟩ | ⟨rfl, w', hw', hk⟩ := hcases j k hk
    · exact Or.inl hk
    · obtain hk | htaken := hown w' k hw' hk
      · exact Or.inl ⟨w, hw, hk⟩
      · obtain rfl : task = k := by simpa using htaken
        exact Or.inr ⟨rfl, rfl⟩
  | @started task caught hf hp =>
    refine .spend (i := id) (k := task) ⟨w, hw, by simp [Pc.startRight, hp]⟩ fun j k hk => ?_
    obtain ⟨hj, hk⟩ | ⟨rfl, w', hw', hk⟩ := hcases j k hk
    · exact ⟨hk, fun h => hj h.1⟩
    · obtain rfl : _ = w' := by simpa [State.setWorker] using hw'
      simp [Pc.startRight] at hk
  | _ =>
    refine .keep fun j k hk => ?_
    obtain ⟨-, hk⟩ | ⟨rfl, w', hw', hk⟩ := hcases j k hk
    · exact hk
    · obtain hk | htaken := hown w' k hw' hk
      · exact ⟨w, hw, hk⟩
      · simp [State.setWorker, State.setEntry] at htaken

theorem Turn.starts (h : Turn s a t) : Ledger.Step s.starts t.starts := by
  cases h with
  | queued => exact .enqueue fun _ _ hk => hk
  | refused => exact .grant none fun _ _ hk => Or.inl hk
  | created hlimit htimer hfresh =>
    exact State.ledger_created fun k l entry h => by simpa [Pc.startRight] using h.symm
  | timer => exact State.ledger_timer fun _ _ _ => rfl
  | initialTimeoutSet => exact .keep fun _ _ hk => hk
  | ticked => exact .keep fun _ _ hk => hk
  | worker hw h => exact h.starts hw

/-! Runs. -/

/-- What is always true of the counters, the queue and the starts of tasks. -/
structure Bounded (s : State) : Prop where
  counted : ∃ live, Counted s live
  starts : s.starts.Ok

theorem bounded_make (tl timeoutS : UInt64) (fixed : Bool) (timerThread : ThreadId) (now : Nat) :
    Bounded (make tl timeoutS fixed timerThread now) :=
  ⟨⟨[], counted_make tl timeoutS fixed timerThread now⟩,
    State.ledger_make tl timeoutS fixed timerThread now⟩

theorem Bounded.turn (hs : Bounded s) (h : Turn s a t) : Bounded t := by
  obtain ⟨live, hlive⟩ := hs.counted
  exact ⟨h.counted hlive, hs.starts.step h.starts⟩

theorem Bounded.limit (hs : Bounded s) : s.numThreads ≤ s.threadLimit := by
  obtain ⟨live, hlive⟩ := hs.counted
  by_cases hmax : s.threadLimit = sizeMax
  · rw [hmax, UInt64.le_iff_toNat_le]
    have hlt := UInt64.toNat_lt s.numThreads
    simp only [sizeMax, UInt64.toNat_ofNat]
    omega
  · exact hlive.limit hmax

/-- Whatever the clients, the threads and the tasks do, as long as no signal is delivered, the
tasker counts its threads and keeps to its limit, starts each task at most once and hands out the
queue in the order of the calls. -/
theorem pool_bounds {tl timeoutS : UInt64} {fixed : Bool} {timerThread : ThreadId} {now : Nat}
    {moves : List Move}
    (h : Library.run calm (make tl timeoutS fixed timerThread now) moves = some s) :
    s.numThreads.toNat = s.created - s.completed ∧ s.completed ≤ s.created ∧
      s.numThreads ≤ s.threadLimit ∧ s.started.Nodup ∧
      s.taken ++ s.threadPoolQueue = s.queued ∧ s.queued.Pairwise (· < ·) := by
  have hs : Bounded s := invariant_of_run (fun _ _ _ hs h => hs.turn (turn_of_calm h))
    (bounded_make tl timeoutS fixed timerThread now) h
  obtain ⟨live, hlive⟩ := hs.counted
  have hbalance := hlive.balance
  exact ⟨by omega, by omega, hs.limit, hs.starts.spent_nodup, hs.starts.fifo, hs.starts.sorted⟩

end

/-- One thread runs its task to the end and takes the second task, which had to wait. -/
theorem pool_bounds_reuse : ∃ s,
    Library.run calm (make 1 7 false 0 0) (.run (some 1) :: .run (some 2) ::
      List.replicate 16 (.work 1 false)) = some s ∧ s.taken = [1] ∧
    s.numThreads.toNat = s.created - s.completed ∧ s.completed ≤ s.created ∧
      s.numThreads ≤ s.threadLimit ∧ s.started.Nodup ∧
      s.taken ++ s.threadPoolQueue = s.queued ∧ s.queued.Pairwise (· < ·) := by
  have hrun : ((Library.run calm (make 1 7 false 0 0) (.run (some 1) :: .run (some 2) ::
      List.replicate 16 (.work 1 false))).map State.taken) = some [1] := by decide +kernel
  obtain ⟨s, hs, htaken⟩ := Option.map_eq_some_iff.mp hrun
  exact ⟨s, hs, htaken, pool_bounds hs⟩

end WylesLibs.ETasker
