import WylesLibs.EStream.Stream

/-! Reading as reading from a list: what is left of a stream is all that `get`, `peek` and `good`
depend on, so every loop written over them may be reasoned about on the list. -/
namespace WylesLibs.Stream
open Library
variable {α σ τ γ κ ρ θ : Type}

def endOfData : String := "Read error. No more data in the stream to fill buffer."

instance : EStreamI (List α) α where
  get := fun
    | [] => .thrown endOfData
    | a :: l => .ok (a, l)
  peek := fun
    | [] => .thrown endOfData
    | a :: l => .ok (a, a :: l)
  good := fun l => .ok (!l.isEmpty, l)

section
variable (a : α) (l : List α)

@[simp] theorem get_list_nil : (get : Prog (List α) α) [] = .thrown endOfData := rfl
@[simp] theorem get_list_cons : (get : Prog (List α) α) (a :: l) = .ok (a, l) := rfl
@[simp] theorem peek_list_nil : (peek : Prog (List α) α) [] = .thrown endOfData := rfl
@[simp] theorem peek_list_cons : (peek : Prog (List α) α) (a :: l) = .ok (a, a :: l) := rfl
@[simp] theorem good_list : (good : Prog (List α) Bool) l = .ok (!l.isEmpty, l) := rfl

end

theorem settles_get : (get : Prog (List α) α).Settles := by
  intro l
  cases l with
  | nil => exact Outcome.settled_thrown _
  | cons a l => exact Outcome.settled_ok _

theorem settles_peek : (peek : Prog (List α) α).Settles := by
  intro l
  cases l with
  | nil => exact Outcome.settled_thrown _
  | cons a l => exact Outcome.settled_ok _

/-- Criteria, collectors and tasks that always come to an answer of their own. -/
class SettledCriteria (γ : Type) {α : outParam Type} [LoopCriteriaI γ α] : Prop where
  nextState : ∀ (c : γ) (el : α), (LoopCriteriaI.nextState c el).Settled

class SettledCollector (κ : Type) {α ρ : outParam Type} [Collector κ α ρ] : Prop where
  accumulate : ∀ (k : κ) (el : α), (Collector.accumulate k el).Settled
  accumulateEls : ∀ (k : κ) (els : List α), (Collector.accumulateEls k els).Settled

class SettledTask (θ : Type) {α : outParam Type} [StreamTask θ α] : Prop where
  perform : ∀ {γ κ ρ : Type} [LoopCriteriaI γ α] [Collector κ α ρ] [SettledCollector κ]
    (t : θ) (el : α) (c : γ) (k : κ), (StreamTask.perform t el c k).Settled
  steps_perform : ∀ {γ κ ρ : Type} [LoopCriteriaI γ α] [Collector κ α ρ] (t t' : θ) (el : α)
    (c c' : γ) (k k' : κ), StreamTask.perform t el c k = .ok (t', c', k') →
      LoopCriteriaI.steps c' = LoopCriteriaI.steps c
  flush : ∀ {κ ρ : Type} [Collector κ α ρ] [SettledCollector κ] (t : θ) (k : κ),
    (StreamTask.flush t k).Settled

instance [DecidableEq α] : SettledCriteria (LoopCriteria α) where
  nextState c el := by
    simp only [LoopCriteriaI.nextState, LoopCriteria.nextState]
    cases c.mode with
    | untilMatch => exact .ite (Outcome.settled_thrown _) (Outcome.settled_ok _)
    | untilNumElements => exact Outcome.settled_ok _

instance : SettledCollector (ArrayCollector α) where
  accumulate _ _ := Outcome.settled_ok _
  accumulateEls _ _ := Outcome.settled_ok _

instance : SettledTask (NullTask α) where
  perform t := nomatch t
  steps_perform t := nomatch t
  flush t := nomatch t

section
variable [LoopCriteriaI γ α] [Collector κ α ρ] [StreamTask θ α]
variable [SettledCollector κ] [SettledTask θ]

theorem settled_performEl (task : Option θ) (el : α) (criteria : γ) (collector : κ) :
    (performEl task el criteria collector).Settled := by
  cases task with
  | none => exact (SettledCollector.accumulate _ _).bind fun _ _ => Outcome.settled_ok _
  | some t => exact (SettledTask.perform _ _ _ _).bind fun _ _ => Outcome.settled_ok _

omit [SettledCollector κ] in
theorem steps_performEl {task task' : Option θ} {el : α} {criteria criteria' : γ}
    {collector collector' : κ}
    (hp : performEl task el criteria collector = .ok (task', criteria', collector')) :
    LoopCriteriaI.steps criteria' = LoopCriteriaI.steps criteria := by
  cases task with
  | none =>
    obtain ⟨k, -, hk⟩ := Outcome.bind_eq_ok.mp hp
    cases hk
    rfl
  | some t =>
    obtain ⟨⟨t', criteria₁, collector₁⟩, hr, hk⟩ := Outcome.bind_eq_ok.mp hp
    cases hk
    exact SettledTask.steps_perform t t' el criteria _ collector _ hr

theorem settled_flushTask (task : Option θ) (collector : κ) :
    (flushTask task collector).Settled := by
  cases task with
  | none => exact Outcome.settled_ok _
  | some t => exact (SettledTask.flush _ _).bind fun _ _ => Outcome.settled_ok _

end

/-- Two kinds of stream that answer alike. -/
structure EStreamSim [EStreamI σ α] [EStreamI τ α] (R : σ → τ → Prop) : Prop where
  get : Prog.Sim R (get : Prog σ α) get
  peek : Prog.Sim R (peek : Prog σ α) peek
  good : Prog.Sim R (good : Prog σ Bool) good

namespace EStreamSim
variable [EStreamI σ α] [EStreamI τ α] {R : σ → τ → Prop}
variable [LoopCriteriaI γ α] [Collector κ α ρ] [StreamTask θ α]
variable [SettledCriteria γ] [SettledCollector κ] [SettledTask θ]

theorem symm {R : σ → τ → Prop} (h : EStreamSim (σ := σ) (τ := τ) (α := α) R) :
    EStreamSim (σ := τ) (τ := σ) (α := α) fun t s => R s t where
  get t s hR := (h.get s t hR).symm
  peek t s hR := (h.peek s t hR).symm
  good t s hR := (h.good s t hR).symm

theorem collectLoop (h : EStreamSim R) (n : Nat) (el : α) (criteria : γ) (task : Option θ)
    (collector : κ) :
    Prog.Sim R (collectLoop n el criteria task collector)
      (Stream.collectLoop n el criteria task collector) := by
  induction n generalizing el criteria task collector with
  | zero => exact .spent
  | succ n ih =>
    refine .bind (.lift (SettledCriteria.nextState _ _)) fun r => .ite ?_ (.pure _)
    refine .bind h.get fun _ => .bind (.lift (settled_performEl _ _ _ _)) fun p => ?_
    exact .bind h.good fun more =>
      .ite (.pure _) (.bind h.peek fun el => ih el p.2.1 p.1 p.2.2)

theorem streamCollect (h : EStreamSim R) (criteria : γ) (task : Option θ) (collector : κ) :
    Prog.Sim R (streamCollect criteria task collector)
      (Stream.streamCollect criteria task collector) :=
  .bind h.peek fun _ => .bind (h.collectLoop _ _ _ _ _) fun _ =>
    .bind (.lift (settled_flushTask _ _)) fun _ => .pure _

omit [LoopCriteriaI γ α] [SettledCriteria γ] [Collector κ α ρ] [SettledCollector κ] in
theorem read [DecidableEq α] (h : EStreamSim R) (untilEls : List α) (operation : Option θ)
    (inclusive : Bool) :
    Prog.Sim R (read untilEls operation inclusive) (Stream.read untilEls operation inclusive) :=
  .bind (h.streamCollect _ _ _) fun _ => .pure _

end EStreamSim

/-- A stream stands for the list of what is left of it. -/
def Holds (s : EStream α) (l : List α) : Prop := s.WellFormed ∧ s.remaining = l

theorem holds_sim : EStreamSim (Holds (α := α)) where
  get := by
    rintro s l ⟨h, rfl⟩
    cases hrem : s.remaining with
    | nil =>
      change (EStream.get s).Rel _ _
      rw [EStream.get_nil h hrem]
      exact .thrown _
    | cons a rest =>
      obtain ⟨s', hs', h', hrest, -⟩ := EStream.get_spec h hrem
      change (EStream.get s).Rel _ _
      rw [hs']
      exact .ok ⟨h', hrest⟩
  peek := by
    rintro s l ⟨h, rfl⟩
    cases hrem : s.remaining with
    | nil =>
      change (EStream.peek s).Rel _ _
      rw [EStream.peek_nil h hrem]
      exact .thrown _
    | cons a rest =>
      obtain ⟨s', hs', h', hrest, -⟩ := EStream.peek_spec h hrem
      change (EStream.peek s).Rel _ _
      rw [hs']
      exact .ok ⟨h', hrest⟩
  good := by
    rintro s l ⟨h, rfl⟩
    change (EStream.good s).Rel _ _
    rw [EStream.good_spec h]
    exact .ok ⟨h.setBadbit (by simp), rfl⟩

theorem holds_ofBuffer [Inhabited α] (b : List α) : Holds (EStream.ofBuffer b) b :=
  ⟨.ofBuffer b, EStream.remaining_ofBuffer b⟩

section
variable [LoopCriteriaI γ α] [Collector κ α ρ] [StreamTask θ α]
variable [SettledCriteria γ] [SettledCollector κ] [SettledTask θ]

/-- The step bound of the loop is never what ends it: each element uses up the criteria. -/
theorem settled_collectLoop {l : List α} {n : Nat} {el : α} {criteria : γ}
    {task : Option θ} {collector : κ} (hn : LoopCriteriaI.steps criteria < n) :
    (collectLoop n el criteria task collector l).Settled := by
  induction n generalizing l el criteria task collector with
  | zero => omega
  | succ n ih =>
    simp only [collectLoop, Prog.bind_apply, Prog.lift_apply]
    refine .bind (.bind (SettledCriteria.nextState _ _) fun _ _ => Outcome.settled_ok _) ?_
    rintro ⟨⟨st, criteria₁⟩, l₁⟩ hst
    obtain ⟨p, hnext, hp⟩ := Outcome.bind_eq_ok.mp hst
    cases hp
    cases hgood : st.isGood with
    | false => simp
    | true =>
      have hdec := LoopCriteriaI.steps_nextState _ _ _ _ hnext hgood
      simp only [if_true, Prog.bind_apply, Prog.lift_apply]
      cases l with
      | nil => simp
      | cons a l =>
        simp only [get_list_cons, Outcome.bind_ok]
        refine .bind (.bind (settled_performEl _ _ _ _) fun _ _ => Outcome.settled_ok _) ?_
        rintro ⟨⟨task₂, criteria₂, collector₂⟩, l₂⟩ hp
        obtain ⟨p, hperf, hp⟩ := Outcome.bind_eq_ok.mp hp
        cases hp
        have hsteps := steps_performEl hperf
        simp only [good_list, Outcome.bind_ok]
        split
        · simp
        · cases l with
          | nil => simp
          | cons b l =>
            simp only [Prog.bind_apply, peek_list_cons, Outcome.bind_ok]
            exact ih (by omega)

theorem settles_streamCollect (criteria : γ) (task : Option θ) (collector : κ) :
    (streamCollect criteria task collector : Prog (List α) _).Settles := by
  intro l
  cases l with
  | nil => simp [streamCollect]
  | cons a l =>
    simp only [streamCollect, Prog.bind_apply, peek_list_cons, Outcome.bind_ok, Prog.lift_apply]
    refine .bind (settled_collectLoop (Nat.lt_succ_self _)) fun p _ => ?_
    refine .bind (.bind (settled_flushTask _ _) fun _ _ => Outcome.settled_ok _) fun q _ => ?_
    exact Outcome.settled_ok _

omit [LoopCriteriaI γ α] [SettledCriteria γ] [Collector κ α ρ] [SettledCollector κ] in
theorem settles_read [DecidableEq α] (untilEls : List α) (operation : Option θ)
    (inclusive : Bool) : (read untilEls operation inclusive : Prog (List α) _).Settles :=
  .bind (settles_streamCollect _ _ _) fun _ => .pure _

end

namespace LoopCriteria
variable [DecidableEq α] {inclusive : Bool} {untilEls : List α} {j : Nat} {el : α}

theorem nextState_pass (hel : el ∉ untilEls) (hj : j + 1 ≤ arbitrarySpatialUntilLimit) :
    nextState ⟨.good, .untilMatch, inclusive, j, untilEls⟩ el =
      .ok (.good, ⟨.good, .untilMatch, inclusive, j + 1, untilEls⟩) := by
  simp [nextState, untilMatchNext, hel, Nat.not_lt.mpr hj]

theorem nextState_match (hel : el ∈ untilEls) (hj : j + 1 ≤ arbitrarySpatialUntilLimit) :
    nextState ⟨.good, .untilMatch, inclusive, j, untilEls⟩ el =
      .ok (if inclusive then .goodAtLast else .notGood,
        ⟨if inclusive then .goodAtLast else .notGood, .untilMatch, inclusive, j + 1, untilEls⟩) := by
  cases inclusive <;> simp [nextState, untilMatchNext, hel, Nat.not_lt.mpr hj]

theorem nextState_last (hj : j + 1 ≤ arbitrarySpatialUntilLimit) :
    nextState ⟨.goodAtLast, .untilMatch, inclusive, j, untilEls⟩ el =
      .ok (.notGood, ⟨.notGood, .untilMatch, inclusive, j + 1, untilEls⟩) := by
  simp [nextState, untilMatchNext, Nat.not_lt.mpr hj]

end LoopCriteria

end WylesLibs.Stream
