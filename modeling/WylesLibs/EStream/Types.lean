import WylesLibs.Library.Outcome

/-! The parts a stream read is put together from: loop criteria, collectors and tasks, and the
loop of `streamCollect` over any stream that has `get`, `peek` and `good`. -/
namespace WylesLibs.Stream
open Library
variable {α σ γ κ ρ θ : Type}

def sizeMax : Nat := 2 ^ 64 - 1
def arbitrarySpatialUntilLimit : Nat := 1 <<< 16

inductive LoopCriteriaMode where
  | untilMatch | untilNumElements
  deriving DecidableEq

inductive LoopCriteriaState where
  | notGood | good | atLast | goodAtLast
  deriving DecidableEq

/-- The bit `LOOP_CRITERIA_STATE_GOOD`. -/
def LoopCriteriaState.isGood : LoopCriteriaState → Bool
  | .good | .goodAtLast => true
  | _ => false

/-- The bit `LOOP_CRITERIA_STATE_AT_LAST`. -/
def LoopCriteriaState.isAtLast : LoopCriteriaState → Bool
  | .atLast | .goodAtLast => true
  | _ => false

/-- What a loop asks of its criteria. `steps` bounds how often `nextState` can still answer with
a good state; it is the step bound of the loop, not a part of the source. -/
class LoopCriteriaI (γ : Type) (α : outParam Type) where
  nextState : γ → α → Outcome (LoopCriteriaState × γ)
  state : γ → LoopCriteriaState
  preemptiveBail : γ → γ
  steps : γ → Nat
  steps_nextState : ∀ (c c' : γ) (el : α) (st : LoopCriteriaState),
    nextState c el = .ok (st, c') → st.isGood = true → steps c' < steps c
  steps_preemptiveBail : ∀ c : γ, steps (preemptiveBail c) = steps c

/-- `LoopCriteria` with the fields of its `LoopCriteriaInfo`. -/
structure LoopCriteria (α : Type) where
  state : LoopCriteriaState
  mode : LoopCriteriaMode
  inclusive : Bool
  untilSize : Nat
  untilEls : List α

namespace LoopCriteria

/-- The constructor of `LoopCriteriaInfo`: the state starts good. -/
def mk' (mode : LoopCriteriaMode) (inclusive : Bool) (untilSize : Nat) (untilEls : List α) :
    LoopCriteria α :=
  ⟨.good, mode, inclusive, untilSize, untilEls⟩

section
variable [DecidableEq α]

def untilMatchNext (c : LoopCriteria α) (el : α) : LoopCriteria α :=
  let untilMatch := decide (el ∈ c.untilEls)
  if c.state = .notGood ∧ untilMatch = false then { c with state := .good }
  else if c.state = .good ∧ c.inclusive = true ∧ untilMatch = true then
    { c with state := .goodAtLast }
  else if c.state = .good ∧ c.inclusive = false ∧ untilMatch = true then
    { c with state := .notGood }
  else if c.state = .goodAtLast then { c with state := .notGood }
  else c

/-- The decrement is one of a `size_t`: it wraps at zero. -/
def untilSizeNext (c : LoopCriteria α) : LoopCriteria α :=
  let state :=
    if c.state = .notGood ∧ 0 < c.untilSize then .good
    else if c.state = .good ∧ c.untilSize = 1 then .goodAtLast
    else if c.state.isGood = true ∧ c.untilSize = 0 then .notGood
    else c.state
  { c with state := state, untilSize := if c.untilSize = 0 then sizeMax else c.untilSize - 1 }

/-- The limit keeps the counter of the first mode far from where a `size_t` would wrap. -/
def nextState (c : LoopCriteria α) (el : α) : Outcome (LoopCriteriaState × LoopCriteria α) :=
  match c.mode with
  | .untilMatch =>
    if c.untilSize + 1 > arbitrarySpatialUntilLimit then
      .thrown "Spatial until limit of 65536 reached."
    else
      let c := ({ c with untilSize := c.untilSize + 1 }).untilMatchNext el
      .ok (c.state, c)
  | .untilNumElements =>
    let c := c.untilSizeNext
    .ok (c.state, c)

def steps (c : LoopCriteria α) : Nat :=
  match c.mode with
  | .untilMatch => arbitrarySpatialUntilLimit - c.untilSize
  | .untilNumElements => c.untilSize

@[simp] theorem untilMatchNext_mode (c : LoopCriteria α) (el : α) :
    (c.untilMatchNext el).mode = c.mode := by
  unfold untilMatchNext
  grind

@[simp] theorem untilMatchNext_untilSize (c : LoopCriteria α) (el : α) :
    (c.untilMatchNext el).untilSize = c.untilSize := by
  unfold untilMatchNext
  grind

theorem steps_nextState (c c' : LoopCriteria α) (el : α) (st : LoopCriteriaState)
    (h : c.nextState el = .ok (st, c')) (hgood : st.isGood = true) : c'.steps < c.steps := by
  unfold nextState at h
  cases hm : c.mode with
  | untilMatch =>
    simp only [hm] at h
    split at h
    · cases h
    · cases h
      simp only [steps, untilMatchNext_mode, untilMatchNext_untilSize, hm]
      omega
  | untilNumElements =>
    simp only [hm] at h
    cases h
    by_cases hz : c.untilSize = 0
    · exfalso
      cases hs : c.state <;> simp [untilSizeNext, hz, hs, LoopCriteriaState.isGood] at hgood
    · simp only [steps, untilSizeNext, hm, hz, if_false]
      omega

end

instance [DecidableEq α] : LoopCriteriaI (LoopCriteria α) α where
  nextState := nextState
  state c := c.state
  preemptiveBail c := { c with state := .notGood }
  steps := steps
  steps_nextState := steps_nextState
  steps_preemptiveBail _ := rfl

end LoopCriteria

/-- `init` is the source's `initialize`, which Lean keeps for itself. -/
class Collector (κ : Type) (α ρ : outParam Type) where
  init : κ → κ
  accumulate : κ → α → Outcome κ
  accumulateEls : κ → List α → Outcome κ :=
    fun _ _ => .thrown "Accumulate function of multiple elements isn't implemented!"
  collect : κ → ρ

structure ArrayCollector (α : Type) where
  data : List α

instance : Collector (ArrayCollector α) α (List α) where
  init _ := ⟨[]⟩
  accumulate c el := .ok ⟨c.data ++ [el]⟩
  accumulateEls c els := .ok ⟨c.data ++ els⟩
  collect c := c.data

/-- A task sees the criteria and the collector that `streamCollect` lends to it. -/
class StreamTask (θ : Type) (α : outParam Type) where
  init : θ → θ
  perform {γ κ ρ : Type} [LoopCriteriaI γ α] [Collector κ α ρ] :
    θ → α → γ → κ → Outcome (θ × γ × κ)
  flush {κ ρ : Type} [Collector κ α ρ] : θ → κ → Outcome (θ × κ)

/-- The type of a task pointer that is never set. -/
inductive NullTask (α : Type) : Type

instance : StreamTask (NullTask α) α where
  init t := t
  perform t _ _ _ := nomatch t
  flush t _ := nomatch t

/-- The calls of `EStreamI` that the reading loops make. -/
class EStreamI (σ : Type) (α : outParam Type) where
  get : Prog σ α
  peek : Prog σ α
  good : Prog σ Bool

export EStreamI (get peek good)

section
variable [EStreamI σ α] [LoopCriteriaI γ α] [Collector κ α ρ] [StreamTask θ α]

/-- One element: the collector takes it, or the task if there is one. -/
def performEl (task : Option θ) (el : α) (criteria : γ) (collector : κ) :
    Outcome (Option θ × γ × κ) :=
  match task with
  | none => (Collector.accumulate collector el).bind fun k => .ok (none, criteria, k)
  | some t => (StreamTask.perform t el criteria collector).bind fun r => .ok (some r.1, r.2)

def flushTask (task : Option θ) (collector : κ) : Outcome (Option θ × κ) :=
  match task with
  | none => .ok (none, collector)
  | some t => (StreamTask.flush t collector).bind fun r => .ok (some r.1, r.2)

/-- The `while` loop of `streamCollect`; `el` is the element peeked last. -/
def collectLoop : Nat → α → γ → Option θ → κ → Prog σ (Option θ × κ)
  | 0, _, _, _, _ => Prog.spent
  | n + 1, el, criteria, task, collector => do
    let (st, criteria) ← Prog.lift (LoopCriteriaI.nextState criteria el)
    if st.isGood then
      let _ ← (get : Prog σ α)
      let (task, criteria, collector) ← Prog.lift (performEl task el criteria collector)
      let more ← (good : Prog σ Bool)
      -- at the last element the end of the data is no error
      if more = false ∧ (LoopCriteriaI.state criteria).isAtLast = true then
        pure (task, collector)
      else
        let el ← (peek : Prog σ α)
        collectLoop n el criteria task collector
    else
      pure (task, collector)

/-- Criteria and collector are never null here: every caller passes objects of the stream. -/
def streamCollect (criteria : γ) (task : Option θ) (collector : κ) : Prog σ (ρ × Option θ) := do
  let el ← (peek : Prog σ α)
  let (task, collector) ← collectLoop (LoopCriteriaI.steps criteria + 1) el criteria
    (task.map StreamTask.init) (Collector.init collector)
  let (task, collector) ← Prog.lift (flushTask task collector)
  pure (Collector.collect collector, task)

/-- `EStream::read`. -/
def read [DecidableEq α] (untilEls : List α) (operation : Option θ) (inclusive : Bool) :
    Prog σ (List α) := do
  let (data, _) ← streamCollect (LoopCriteria.mk' .untilMatch inclusive 0 untilEls) operation
    (⟨[]⟩ : ArrayCollector α)
  pure data

end
end WylesLibs.Stream
