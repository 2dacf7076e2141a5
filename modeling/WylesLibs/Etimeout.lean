import WylesLibs.Library.Runs

/-! `etimeout` once `posix_spawn` has started the child: the steps of `main`, and what may come
between any two of them: time, and the exit of the child, of itself or of the signal that kills it.
-/
namespace WylesLibs.Etimeout
open Library

/-- The step of `main` that comes next. -/
inductive Pc where
  | sigaction
  | assign
  | test
  | sleep
  | clock
  | kill
  | check
  | returned
  deriving DecidableEq

/-- What the child exited with, when, and before which step of `main`. -/
structure Exit where
  status : Int
  time : Int
  landing : Pc

structure State where
  pc : Pc
  childProcessAvailable : Int
  childProcessCode : Int
  hasTimedOut : Bool
  exitCode : Int
  timeout : Int
  tsStart : Int
  now : Int
  killed : Bool
  child : Option Exit

def State.deadline (s : State) : Int := s.tsStart + s.timeout

/-- `posix_spawn` has just returned. -/
def start (timeout tsStart now : Int) : State where
  pc := .sigaction
  childProcessAvailable := -1
  childProcessCode := -1
  hasTimedOut := false
  exitCode := 0
  timeout
  tsStart
  now
  killed := false
  child := none

/-- A step of `main`. The time that `sleep` takes is not told apart from other time: a signal ends
it early. -/
def mainStep (s : State) : Option State :=
  match s.pc with
  | .sigaction => some { s with pc := .assign }
  | .assign => some { s with childProcessAvailable := 1, pc := .test }
  | .test =>
    if s.childProcessAvailable ≠ 0 ∧ s.hasTimedOut = false then some { s with pc := .sleep }
    else some { s with pc := .check }
  | .sleep => some { s with pc := .clock }
  | .clock =>
    if s.now ≥ s.tsStart + s.timeout then some { s with pc := .kill } else some { s with pc := .test }
  | .kill => some { s with killed := true, hasTimedOut := true, exitCode := 177, pc := .test }
  | .check =>
    if s.childProcessAvailable = 0 then some { s with exitCode := s.childProcessCode, pc := .returned }
    else some { s with pc := .returned }
  | .returned => none

/-- `SIGCHLD`: without the handler it is ignored. -/
def sigHandler (status : Int) (s : State) : State :=
  match s.pc with
  | .sigaction => s
  | _ => { s with childProcessCode := status, childProcessAvailable := 0 }

inductive Act where
  | main
  | tick
  | exit (status : Int)
  deriving DecidableEq

def step (s : State) : Act → Option State
  | .main => mainStep s
  | .tick => some { s with now := s.now + 1 }
  | .exit status =>
    match s.child with
    | some _ => none
    | none => some (sigHandler status { s with child := some ⟨status, s.now, s.pc⟩ })

/-- An exit in time gives its status; otherwise the child is killed, and the answer is 177. -/
def Right (s : State) : Prop :=
  s.pc = .returned →
    (∀ e, s.child = some e → e.time < s.deadline → s.exitCode = e.status) ∧
    ((∀ e, s.child = some e → s.deadline ≤ e.time) → s.exitCode = 177 ∧ s.killed = true)

/-- Up to here a signal is ignored, or the flag that it sets is set back. -/
def Early (pc : Pc) : Prop := pc = .sigaction ∨ pc = .assign

instance (pc : Pc) : Decidable (Early pc) := inferInstanceAs (Decidable (_ ∨ _))

/-- An exit in time comes after the flag is set; a later one before that, or after the answer. -/
def Timely (s : State) : Act → Prop
  | .exit _ => if s.now < s.deadline then ¬ Early s.pc else Early s.pc ∨ s.pc = .returned
  | _ => True

instance (s : State) : (a : Act) → Decidable (Timely s a)
  | .exit _ => inferInstanceAs
    (Decidable (if s.now < s.deadline then ¬ Early s.pc else Early s.pc ∨ s.pc = .returned))
  | .main | .tick => isTrue trivial

/-! The exit that `main` notices. -/

def noticed (s : State) : Option Int :=
  s.child.bind fun e => if Early e.landing ∨ e.landing = .returned then none else some e.status

structure Inv (s : State) : Prop where
  flag : ¬ Early s.pc → s.pc ≠ .returned →
    s.childProcessAvailable = if noticed s = none then 1 else 0
  code : ∀ status, noticed s = some status → s.childProcessCode = status ∧ ¬ Early s.pc
  elapsed : s.hasTimedOut = true → s.deadline ≤ s.now
  timedOut : s.hasTimedOut = true → s.killed = true ∧ (s.pc ≠ .returned → s.exitCode = 177)
  kill : s.pc = .kill → s.deadline ≤ s.now
  check : s.pc = .check ∨ s.pc = .returned → noticed s = none → s.hasTimedOut = true
  answer : s.pc = .returned → s.exitCode = (noticed s).getD 177
  late : ∀ e, s.child = some e → e.landing = .returned → s.pc = .returned ∧ s.deadline ≤ e.time

section
variable {s t u : State} {e : Exit} {acts : List Act} {a : Act}

theorem noticed_of_child (h : s.child = some e) :
    noticed s = if Early e.landing ∨ e.landing = .returned then none else some e.status := by
  rw [noticed, h, Option.bind_some]

theorem inv_start (timeout tsStart now : Int) : Inv (start timeout tsStart now) where
  flag h := absurd (Or.inl rfl) h
  code _ h := by simp [noticed, start] at h
  elapsed h := by simp [start] at h
  timedOut h := by simp [start] at h
  kill h := by simp [start] at h
  check h := by simp [start] at h
  answer h := by simp [start] at h
  late e h := by simp [start] at h

theorem mainStep_child (h : mainStep s = some t) :
    t.child = s.child ∧ t.deadline = s.deadline ∧ t.now = s.now := by
  unfold mainStep at h
  cases hpc : s.pc
  all_goals
    simp only [hpc] at h
    first
      | (split at h <;> cases h <;> exact ⟨rfl, rfl, rfl⟩)
      | (cases h; exact ⟨rfl, rfl, rfl⟩)
      | cases h

/-- A step of `main` from one place behind the assignment to another. -/
theorem Inv.move (hi : Inv s) {pc : Pc} (hearly : ¬ Early s.pc) (hreturned : s.pc ≠ .returned)
    (hearly' : ¬ Early pc) (hreturned' : pc ≠ .returned)
    (hkill : pc = .kill → s.deadline ≤ s.now)
    (hcheck : pc = .check → noticed s = none → s.hasTimedOut = true) : Inv { s with pc } where
  flag _ _ := hi.flag hearly hreturned
  code status h := ⟨(hi.code status h).1, hearly'⟩
  elapsed := hi.elapsed
  timedOut h := ⟨(hi.timedOut h).1, fun _ => (hi.timedOut h).2 hreturned⟩
  kill := hkill
  check h := hcheck (h.resolve_right hreturned')
  answer h := absurd h hreturned'
  late e he hl := absurd (hi.late e he hl).1 hreturned

/-- No exit before the assignment is noticed. -/
theorem Inv.noticed_eq_none (hi : Inv s) (hearly : Early s.pc) : noticed s = none := by
  rw [Option.eq_none_iff_forall_ne_some]
  intro status hstatus
  exact (hi.code status hstatus).2 hearly

/-- A step of `main` keeps all that is known of the exit. -/
theorem Inv.main (hi : Inv s) (h : mainStep s = some t) : Inv t := by
  cases hpc : s.pc with
  | sigaction =>
    have hnone := hi.noticed_eq_none (Or.inl hpc)
    simp only [mainStep, hpc, Option.some.injEq] at h
    subst h
    exact ⟨fun h => absurd (Or.inr rfl) h, fun status hn => absurd (hnone.symm.trans hn) (by simp),
      hi.elapsed, fun h => ⟨(hi.timedOut h).1, fun _ => (hi.timedOut h).2 (by simp [hpc])⟩,
      by simp, by simp, by simp, fun e he hl => absurd (hi.late e he hl).1 (by simp [hpc])⟩
  | assign =>
    have hnone := hi.noticed_eq_none (Or.inr hpc)
    simp only [mainStep, hpc, Option.some.injEq] at h
    subst h
    exact ⟨fun _ _ => (if_pos hnone).symm, fun status hn => absurd (hnone.symm.trans hn) (by simp),
      hi.elapsed, fun h => ⟨(hi.timedOut h).1, fun _ => (hi.timedOut h).2 (by simp [hpc])⟩,
      by simp, by simp, by simp, fun e he hl => absurd (hi.late e he hl).1 (by simp [hpc])⟩
  | test =>
    have hearly : ¬ Early s.pc := by simp [Early, hpc]
    have hreturned : s.pc ≠ .returned := by simp [hpc]
    by_cases hloop : s.childProcessAvailable ≠ 0 ∧ s.hasTimedOut = false
    · simp only [mainStep, hpc, if_pos hloop, Option.some.injEq] at h
      subst h
      exact hi.move hearly hreturned (by simp [Early]) (by simp) (by simp) (by simp)
    · simp only [mainStep, hpc, if_neg hloop, Option.some.injEq] at h
      subst h
      apply hi.move hearly hreturned (by simp [Early]) (by simp) (by simp)
      intro _ hnone
      have hflag : s.childProcessAvailable = 1 :=
        (hi.flag hearly hreturned).trans (if_pos hnone)
      simpa [hflag] using hloop
  | sleep =>
    simp only [mainStep, hpc, Option.some.injEq] at h
    subst h
    exact hi.move (by simp [Early, hpc]) (by simp [hpc]) (by simp [Early]) (by simp) (by simp)
      (by simp)
  | clock =>
    have hearly : ¬ Early s.pc := by simp [Early, hpc]
    have hreturned : s.pc ≠ .returned := by simp [hpc]
    by_cases hpast : s.now ≥ s.tsStart + s.timeout
    · simp only [mainStep, hpc, if_pos hpast, Option.some.injEq] at h
      subst h
      exact hi.move hearly hreturned (by simp [Early]) (by simp) (fun _ => hpast) (by simp)
    · simp only [mainStep, hpc, if_neg hpast, Option.some.injEq] at h
      subst h
      exact hi.move hearly hreturned (by simp [Early]) (by simp) (by simp) (by simp)
  | kill =>
    have hearly : ¬ Early s.pc := by simp [Early, hpc]
    have hreturned : s.pc ≠ .returned := by simp [hpc]
    simp only [mainStep, hpc, Option.some.injEq] at h
    subst h
    exact ⟨fun _ _ => hi.flag hearly hreturned,
      fun status hn => ⟨(hi.code status hn).1, by simp [Early]⟩, fun _ => hi.kill hpc,
      fun _ => ⟨rfl, fun _ => rfl⟩, by simp, by simp, by simp,
      fun e he hl => absurd (hi.late e he hl).1 hreturned⟩
  | check =>
    have hearly : ¬ Early s.pc := by simp [Early, hpc]
    have hreturned : s.pc ≠ .returned := by simp [hpc]
    have hflag := hi.flag hearly hreturned
    cases hnoticed : noticed s with
    | none =>
      have hone : s.childProcessAvailable = 1 := hflag.trans (if_pos hnoticed)
      have htimed := hi.check (Or.inl hpc) hnoticed
      have h177 := (hi.timedOut htimed).2 hreturned
      simp only [mainStep, hpc, hone, if_neg one_ne_zero, Option.some.injEq] at h
      subst h
      exact ⟨by simp, fun status hn => ⟨(hi.code status hn).1, by simp [Early]⟩, hi.elapsed,
        fun h => ⟨(hi.timedOut h).1, by simp⟩, by simp, fun _ _ => htimed,
        fun _ => h177.trans (congrArg (·.getD 177) hnoticed).symm,
        fun e he hl => absurd (hi.late e he hl).1 hreturned⟩
    | some status =>
      have hzero : s.childProcessAvailable = 0 := hflag.trans (if_neg (by simp [hnoticed]))
      have hcode := (hi.code status hnoticed).1
      simp only [mainStep, hpc, if_pos hzero, Option.some.injEq] at h
      subst h
      exact ⟨by simp, fun status hn => ⟨(hi.code status hn).1, by simp [Early]⟩, hi.elapsed,
        fun h => ⟨(hi.timedOut h).1, by simp⟩, by simp, fun _ => hi.check (Or.inl hpc),
        fun _ => hcode.trans (congrArg (·.getD 177) hnoticed).symm,
        fun e he hl => absurd (hi.late e he hl).1 hreturned⟩
  | returned => simp [mainStep, hpc] at h

theorem Inv.tick (hi : Inv s) : Inv { s with now := s.now + 1 } where
  flag := hi.flag
  code := hi.code
  elapsed h := (hi.elapsed h).trans (by simp)
  timedOut := hi.timedOut
  kill h := (hi.kill h).trans (by simp)
  check := hi.check
  answer := hi.answer
  late := hi.late

/-- The child has exited, and the flags are left so. -/
def State.exited (s : State) (status available code : Int) : State :=
  { s with
    child := some ⟨status, s.now, s.pc⟩
    childProcessAvailable := available
    childProcessCode := code }

/-- An exit that the handler does not see, or whose traces `main` sets back, changes no answer. -/
theorem Inv.exit_unnoticed (hi : Inv s) (hchild : s.child = none) (status available code : Int)
    (h : Early s.pc ∨ s.pc = .returned) : Inv (s.exited status available code) := by
  have hnone : noticed s = none := by simp [noticed, hchild]
  have hnone' : noticed (s.exited status available code) = none := by
    simp [noticed, State.exited, h]
  refine ⟨fun hearly hreturned => absurd h (not_or.mpr ⟨hearly, hreturned⟩), ?_, hi.elapsed,
    hi.timedOut, hi.kill, fun hpc _ => hi.check hpc hnone, fun hpc => ?_, fun e he hl => ?_⟩
  · intro code hcode
    rw [hnone'] at hcode
    cases hcode
  · rw [hnone', ← hnone]
    exact hi.answer hpc
  · obtain rfl := Option.some.inj he
    exact ⟨hl, hi.elapsed (hi.check (Or.inr hl) hnone)⟩

theorem Inv.exit_noticed (hi : Inv s) (status : Int) (hearly : ¬ Early s.pc)
    (hreturned : s.pc ≠ .returned) : Inv (s.exited status 0 status) := by
  have hsome : noticed (s.exited status 0 status) = some status := by
    simp [noticed, State.exited, hearly, hreturned]
  refine ⟨fun _ _ => ?_, fun code hcode => ⟨?_, hearly⟩, hi.elapsed, hi.timedOut, hi.kill,
    fun _ hnone => ?_, fun hpc => absurd hpc hreturned, fun e he hl => ?_⟩
  · rw [hsome]
    rfl
  · rw [hsome] at hcode
    exact Option.some.inj hcode
  · rw [hsome] at hnone
    cases hnone
  · obtain rfl := Option.some.inj he
    exact absurd hl hreturned

theorem exit_eq_some {status : Int} (h : step s (.exit status) = some t) :
    s.child = none ∧ t = sigHandler status { s with child := some ⟨status, s.now, s.pc⟩ } := by
  cases hchild : s.child with
  | none =>
    simp only [step, hchild, Option.some.injEq] at h
    exact ⟨rfl, h.symm⟩
  | some e =>
    simp only [step, hchild] at h
    cases h

theorem Inv.step (hi : Inv s) (h : Etimeout.step s a = some t) : Inv t := by
  cases a with
  | main => exact hi.main h
  | tick =>
    obtain rfl := Option.some.inj h
    exact hi.tick
  | exit status =>
    obtain ⟨hchild, rfl⟩ := exit_eq_some h
    by_cases hsigaction : s.pc = .sigaction
    · have hseen := hi.exit_unnoticed hchild status s.childProcessAvailable s.childProcessCode
        (Or.inl (Or.inl hsigaction))
      simpa [sigHandler, hsigaction, State.exited] using hseen
    · have hhandler : sigHandler status { s with child := some ⟨status, s.now, s.pc⟩ } =
          s.exited status 0 status := by
        unfold sigHandler
        split
        · exact absurd ‹_› hsigaction
        · rfl
      rw [hhandler]
      by_cases hlost : Early s.pc ∨ s.pc = .returned
      · exact hi.exit_unnoticed hchild status 0 status hlost
      · exact hi.exit_noticed status (not_or.mp hlost).1 (not_or.mp hlost).2

/-! Where the exit came. -/

def Exit.OnTime (e : Exit) (deadline : Int) : Prop :=
  if e.time < deadline then ¬ Early e.landing else Early e.landing ∨ e.landing = .returned

theorem step_child (h : step s a = some t) (ha : ∀ status, a ≠ .exit status) :
    t.child = s.child ∧ t.deadline = s.deadline := by
  cases a with
  | main => exact ⟨(mainStep_child h).1, (mainStep_child h).2.1⟩
  | tick =>
    obtain rfl := Option.some.inj h
    exact ⟨rfl, rfl⟩
  | exit status => exact absurd rfl (ha status)

theorem exit_child {status : Int} (h : step s (.exit status) = some t) :
    t.child = some ⟨status, s.now, s.pc⟩ ∧ t.deadline = s.deadline := by
  obtain ⟨-, rfl⟩ := exit_eq_some h
  unfold sigHandler
  split
  · exact ⟨rfl, rfl⟩
  · exact ⟨rfl, rfl⟩

/-- The exit that a run met, if any, is on time exactly if the step that it came at is timely. -/
theorem onTime_step (h : step s a = some t) (hs : ∀ e, s.child = some e → e.OnTime s.deadline)
    (ha : Timely s a) : ∀ e, t.child = some e → e.OnTime t.deadline := by
  cases a with
  | exit status =>
    obtain ⟨hchild, hdeadline⟩ := exit_child h
    intro e he
    obtain rfl := Option.some.inj (hchild.symm.trans he)
    rw [hdeadline]
    exact ha
  | main =>
    obtain ⟨hchild, hdeadline⟩ := step_child h (by simp)
    rwa [hchild, hdeadline]
  | tick =>
    obtain ⟨hchild, hdeadline⟩ := step_child h (by simp)
    rwa [hchild, hdeadline]

/-- An exit that was not on time stays so. -/
def Mistimed (s : State) : Prop := ∃ e, s.child = some e ∧ ¬ e.OnTime s.deadline

theorem mistimed_of_not_timely (ha : ¬ Timely s a) (h : step s a = some t) : Mistimed t := by
  cases a with
  | exit status =>
    obtain ⟨hchild, hdeadline⟩ := exit_child h
    refine ⟨_, hchild, ?_⟩
    rw [hdeadline]
    exact ha
  | main => exact absurd trivial ha
  | tick => exact absurd trivial ha

theorem Mistimed.step (hs : Mistimed s) (h : Etimeout.step s a = some t) : Mistimed t := by
  obtain ⟨e, he, hnot⟩ := hs
  cases a with
  | exit status =>
    rw [(exit_eq_some h).1] at he
    cases he
  | main =>
    obtain ⟨hchild, hdeadline⟩ := step_child h (by simp)
    exact ⟨e, hchild.trans he, by rwa [hdeadline]⟩
  | tick =>
    obtain ⟨hchild, hdeadline⟩ := step_child h (by simp)
    exact ⟨e, hchild.trans he, by rwa [hdeadline]⟩

theorem Inv.right (hi : Inv s) (honTime : ∀ e, s.child = some e → e.OnTime s.deadline) :
    Right s := by
  intro hreturned
  have hanswer := hi.answer hreturned
  constructor
  · intro e he htime
    have hearly : ¬ Early e.landing := by simpa [Exit.OnTime, htime] using honTime e he
    have hlanding : e.landing ≠ .returned := fun hl => by
      have := (hi.late e he hl).2
      omega
    rw [hanswer, noticed_of_child he, if_neg (not_or.mpr ⟨hearly, hlanding⟩), Option.getD_some]
  · intro hlate
    have hnone : noticed s = none := by
      cases hchild : s.child with
      | none => simp [noticed, hchild]
      | some e =>
        have hnot : ¬ e.time < s.deadline := not_lt.mpr (hlate e hchild)
        rw [noticed_of_child hchild, if_pos]
        simpa [Exit.OnTime, hnot] using honTime e hchild
    rw [hanswer, hnone, Option.getD_none]
    exact ⟨rfl, (hi.timedOut (hi.check (Or.inr hreturned) hnone)).1⟩

theorem Inv.not_mistimed (hi : Inv s) (hreturned : s.pc = .returned)
    (h177 : ∀ e, s.child = some e → e.status ≠ 177) (hright : Right s) : ¬ Mistimed s := by
  intro hcase
  obtain ⟨e, he, hnot⟩ := hcase
  have hanswer := hi.answer hreturned
  have hchild := noticed_of_child he
  obtain ⟨hin, hout⟩ := hright hreturned
  by_cases htime : e.time < s.deadline
  · have hearly : Early e.landing := by simpa [Exit.OnTime, htime] using hnot
    rw [if_pos (Or.inl hearly)] at hchild
    rw [hchild, Option.getD_none] at hanswer
    exact h177 e he ((hin e he htime).symm.trans hanswer)
  · have hlost : ¬ (Early e.landing ∨ e.landing = .returned) := by
      simpa [Exit.OnTime, htime] using hnot
    have hlate : ∀ e', s.child = some e' → s.deadline ≤ e'.time := by
      intro e' he'
      obtain rfl := Option.some.inj (he.symm.trans he')
      exact not_lt.mp htime
    rw [if_neg hlost] at hchild
    rw [hchild, Option.getD_some] at hanswer
    exact h177 e he (hanswer.symm.trans (hout hlate).1)

/-! How long `main` goes on. -/

/-- The steps that `main` has left once the time is over. -/
def left (s : State) : Nat :=
  match s.pc with
  | .sigaction => 8
  | .assign => 7
  | .test => if s.hasTimedOut then 2 else 6
  | .sleep => 5
  | .clock => 4
  | .kill => 3
  | .check => 1
  | .returned => 0

theorem left_le (s : State) : left s ≤ 8 := by
  unfold left
  split
  case h_3 => split <;> omega
  all_goals omega

theorem left_main (hover : s.deadline ≤ s.now) (h : mainStep s = some t) : left t < left s := by
  have hpast : s.now ≥ s.tsStart + s.timeout := hover
  cases hpc : s.pc with
  | sigaction =>
    simp only [mainStep, hpc, Option.some.injEq] at h
    subst h
    simp [left, hpc]
  | assign =>
    simp only [mainStep, hpc, Option.some.injEq] at h
    subst h
    cases hs : s.hasTimedOut
    · simp [left, hpc]
    · simp [left, hpc]
  | test =>
    by_cases hloop : s.childProcessAvailable ≠ 0 ∧ s.hasTimedOut = false
    · simp only [mainStep, hpc, if_pos hloop, Option.some.injEq] at h
      subst h
      simp [left, hpc, hloop.2]
    · simp only [mainStep, hpc, if_neg hloop, Option.some.injEq] at h
      subst h
      cases hs : s.hasTimedOut
      · simp [left, hpc, hs]
      · simp [left, hpc, hs]
  | sleep =>
    simp only [mainStep, hpc, Option.some.injEq] at h
    subst h
    simp [left, hpc]
  | clock =>
    simp only [mainStep, hpc, if_pos hpast, Option.some.injEq] at h
    subst h
    simp [left, hpc]
  | kill =>
    simp only [mainStep, hpc, Option.some.injEq] at h
    subst h
    simp [left, hpc]
  | check =>
    simp only [mainStep, hpc] at h
    split at h
    · cases h
      simp [left, hpc]
    · cases h
      simp [left, hpc]
  | returned => simp [mainStep, hpc] at h

theorem left_step (h : step s a = some t) (ha : a ≠ .main) :
    left t = left s ∧ s.now ≤ t.now ∧ t.deadline = s.deadline := by
  cases a with
  | main => exact absurd rfl ha
  | tick =>
    obtain rfl := Option.some.inj h
    exact ⟨rfl, by simp, rfl⟩
  | exit status =>
    obtain ⟨-, rfl⟩ := exit_eq_some h
    unfold sigHandler
    split
    · exact ⟨rfl, le_rfl, rfl⟩
    · exact ⟨rfl, le_rfl, rfl⟩

theorem left_run (hover : s.deadline ≤ s.now) (h : run step s acts = some t) :
    acts.count .main + left t ≤ left s := by
  induction acts generalizing s with
  | nil =>
    obtain rfl := Option.some.inj h
    simp
  | cons a acts ih =>
    rw [run_cons, Option.bind_eq_some_iff] at h
    obtain ⟨s', hs', hrun⟩ := h
    by_cases ha : a = .main
    · subst ha
      obtain ⟨-, hdeadline, hnow⟩ := mainStep_child hs'
      have hrest := ih (by omega) hrun
      have hlt := left_main hover hs'
      rw [List.count_cons_self]
      omega
    · obtain ⟨hleft, hnow, hdeadline⟩ := left_step hs' ha
      have hrest := ih (by omega) hrun
      rw [List.count_cons_of_ne ha]
      omega

theorem pc_of_left (h : left s = 0) : s.pc = .returned := by
  unfold left at h
  split at h
  case h_3 => split at h <;> omega
  case h_8 => assumption
  all_goals omega

theorem main_isSome (h : s.pc ≠ .returned) : (step s .main).isSome = true := by
  cases hpc : s.pc with
  | sigaction => simp [step, mainStep, hpc]
  | assign => simp [step, mainStep, hpc]
  | test =>
    by_cases hloop : s.childProcessAvailable ≠ 0 ∧ s.hasTimedOut = false
    · simp only [step, mainStep, hpc, if_pos hloop, Option.isSome_some]
    · simp only [step, mainStep, hpc, if_neg hloop, Option.isSome_some]
  | sleep => simp [step, mainStep, hpc]
  | clock =>
    by_cases hpast : s.now ≥ s.tsStart + s.timeout
    · simp only [step, mainStep, hpc, if_pos hpast, Option.isSome_some]
    · simp only [step, mainStep, hpc, if_neg hpast, Option.isSome_some]
  | kill => simp [step, mainStep, hpc]
  | check =>
    by_cases hflag : s.childProcessAvailable = 0
    · simp only [step, mainStep, hpc, if_pos hflag, Option.isSome_some]
    · simp only [step, mainStep, hpc, if_neg hflag, Option.isSome_some]
  | returned => exact absurd hpc h

/-- The child exits with 3 while `main` sleeps. -/
def sleepRun : List Act := [.main, .main, .main, .exit 3, .main, .main, .main, .main]

/-- The child exits with 0 before the handler is there. -/
def lostRun : List Act :=
  .exit 0 :: List.replicate 4 .main ++ List.replicate 5 .tick ++ List.replicate 4 .main

end
end WylesLibs.Etimeout
