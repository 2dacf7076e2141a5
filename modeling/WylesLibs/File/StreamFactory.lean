import WylesLibs.File.FileManager
import WylesLibs.Library.Calls

/-! The list of writers of a `StreamFactory` and the lock around it, over any history of calls. -/
namespace WylesLibs.File
open Library

/-- `writersLock` says whether the mutex is held. -/
structure StreamFactory where
  writers : List String
  writersLock : Bool

namespace StreamFactory

/-- A call that waits for a lock that no running call holds does not come back. -/
def lock : Call StreamFactory Unit := do
  if ← Call.view writersLock then Call.spent
  else Call.modify fun s => { s with writersLock := true }

def unlock : Call StreamFactory Unit := Call.modify fun s => { s with writersLock := false }

/-- `opens` is what the system makes of the path. -/
def writer (path : String) (opens : Bool) : Call StreamFactory Unit := do
  lock
  if opens = false then
    Call.raise ("Unable to open file at path: " ++ path ++ " for writing.\n")
  else
    Call.modify fun s => { s with writers := s.writers ++ [path] }
    unlock

def removeWriter (path : String) : Call StreamFactory Unit := do
  lock
  Call.modify fun s => { s with writers := s.writers.erase path }
  unlock

inductive FactoryCall where
  | writer (path : String) (opens : Bool)
  | removeWriter (path : String)
  deriving DecidableEq

def call : FactoryCall → Call StreamFactory Unit
  | .writer path opens => writer path opens
  | .removeWriter path => removeWriter path

section
variable {c : FactoryCall} {cs : List FactoryCall} {path : String} {writers : List String}

theorem writer_free : writer path true ⟨writers, false⟩ = (.ok (), ⟨writers ++ [path], false⟩) := rfl

/-- The refusal leaves the function with the lock held. -/
theorem writer_refused : writer path false ⟨writers, false⟩ =
    (.thrown ("Unable to open file at path: " ++ path ++ " for writing.\n"), ⟨writers, true⟩) := rfl

theorem removeWriter_free :
    removeWriter path ⟨writers, false⟩ = (.ok (), ⟨writers.erase path, false⟩) := rfl

theorem call_locked : call c ⟨writers, true⟩ = (.timeout, ⟨writers, true⟩) := by
  cases c with
  | writer path opens => rfl
  | removeWriter path => rfl

/-- Once the lock is left held, no call comes back. -/
theorem trace_locked : ∀ r ∈ Call.trace call cs ⟨writers, true⟩, r = (.timeout, ⟨writers, true⟩) := by
  induction cs with
  | nil => simp [Call.trace]
  | cons c cs ih =>
    simp only [Call.trace, call_locked, List.mem_cons]
    rintro r (rfl | hr)
    · rfl
    · exact ih r hr

/-- The `writer` of the file manager, where the lock is free. -/
theorem writer_fileManager (m : FileManager) (path : String) :
    (m.writer path).bind (fun p => .ok p.2.writers) =
      (writer path (!m.unwritable path) ⟨m.writers, false⟩).1.bind fun _ =>
        .ok (writer path (!m.unwritable path) ⟨m.writers, false⟩).2.writers := by
  cases h : m.unwritable path with
  | true => simp [FileManager.writer, h, writer_refused]
  | false => simp [FileManager.writer, h, writer_free]

/-- What a call is to do: the lock is free when it returns or throws, a `writer` that returns has
added its path once and one that throws has added nothing, and a `removeWriter` has removed its path
once if it was there. -/
def Keeps (s : StreamFactory) (c : FactoryCall) : Prop :=
  let (answer, t) := call c s
  t.writersLock = false ∧
    match c with
    | .writer path _ =>
      answer = .ok () ∧
          (∀ p, t.writers.count p = s.writers.count p + if p = path then 1 else 0) ∨
        (∃ w, answer = .thrown w) ∧ ∀ p, t.writers.count p = s.writers.count p
    | .removeWriter path =>
      answer = .ok () ∧ ∀ p, t.writers.count p = s.writers.count p - if p = path then 1 else 0

theorem keeps_iff : Keeps ⟨writers, false⟩ c ↔ ∀ path, c ≠ .writer path false := by
  cases c with
  | writer path opens =>
    cases opens with
    | true =>
      refine iff_of_true ⟨rfl, Or.inl ⟨rfl, fun p => ?_⟩⟩ (by simp)
      change (writers ++ [path]).count p = _
      rw [List.count_append]
      by_cases hp : p = path
      · simp [hp]
      · simp [hp, Ne.symm hp]
    | false =>
      refine iff_of_false (fun h => ?_) fun h => h path rfl
      have hlock : true = false := h.1
      cases hlock
  | removeWriter path =>
    refine iff_of_true ⟨rfl, rfl, fun p => ?_⟩ (by simp)
    change (writers.erase path).count p = _
    rw [List.count_erase]
    by_cases hp : p = path
    · simp [hp]
    · simp [hp, Ne.symm hp]

/-- A call that keeps them leaves a factory to which the next call can come. -/
theorem Keeps.free (h : Keeps ⟨writers, false⟩ c) :
    ∃ writers', (call c ⟨writers, false⟩).2 = ⟨writers', false⟩ :=
  ⟨_, congrArg (StreamFactory.mk _) h.1⟩

/-- Every call of a history keeps the lock and the list as they should be if and only if every file
asked for could be opened. -/
theorem bookkeeping_iff (writers : List String) (cs : List FactoryCall) :
    Call.Allowed call Keeps cs ⟨writers, false⟩ ↔ ∀ path, FactoryCall.writer path false ∉ cs := by
  induction cs generalizing writers with
  | nil => simp [Call.Allowed]
  | cons c cs ih =>
    have hhead : Keeps ⟨writers, false⟩ c ↔ ∀ path, FactoryCall.writer path false ≠ c := by
      simp only [keeps_iff, ne_comm]
    simp only [List.mem_cons, not_or, forall_and]
    have hrest : Keeps ⟨writers, false⟩ c →
        (Call.Allowed call Keeps cs (call c ⟨writers, false⟩).2 ↔
          ∀ path, FactoryCall.writer path false ∉ cs) := by
      intro hkeeps
      obtain ⟨writers', hafter⟩ := hkeeps.free
      rw [hafter]
      exact ih writers'
    exact (and_congr_right hrest).trans (and_congr_left' hhead)

/-- One path that cannot be opened, and the next call waits for ever. -/
theorem bookkeeping_refused :
    ¬ ∀ (writers : List String) (cs : List FactoryCall),
      Call.Allowed call Keeps cs ⟨writers, false⟩ := by
  intro hevery
  have hkeeps := (hevery [] [.writer "missing/f" false, .writer "f" true]).1
  exact keeps_iff.mp hkeeps "missing/f" rfl

end
end StreamFactory
end WylesLibs.File
