import WylesLibs.EStream.ReaderTask
import WylesLibs.EStream.Reads

/-! Reads through a chain of tasks that treat every byte by itself. -/
namespace WylesLibs.Stream
open Library
variable {θ : Type}

/-- The chain hands on what `f` makes of a byte, and keeps nothing. -/
structure ActsAs [StreamTask θ UInt8] (task : Option θ) (f : UInt8 → Option UInt8) : Prop where
  init : task.map StreamTask.init = task
  perform : ∀ {γ : Type} [LoopCriteriaI γ UInt8] (c : UInt8) (criteria : γ) (data : List UInt8),
    performEl task c criteria (⟨data⟩ : ArrayCollector UInt8) =
      .ok (task, criteria, ⟨data ++ (f c).toList⟩)
  flush : ∀ data : List UInt8,
    flushTask task (⟨data⟩ : ArrayCollector UInt8) = .ok (task, ⟨data⟩)

section
variable [StreamTask θ UInt8] {task : Option θ} {f : UInt8 → Option UInt8}

theorem performEl_some {γ κ ρ : Type} [LoopCriteriaI γ UInt8] [Collector κ UInt8 ρ] (t : θ)
    (c : UInt8) (criteria : γ) (collector : κ) :
    performEl (some t) c criteria collector =
      (StreamTask.perform t c criteria collector).bind fun r => .ok (some r.1, r.2) := rfl

theorem flushTask_some {κ ρ : Type} [Collector κ UInt8 ρ] (t : θ) (collector : κ) :
    flushTask (some t) collector =
      (StreamTask.flush t collector).bind fun r => .ok (some r.1, r.2) := rfl

theorem actsAs_none : ActsAs (none : Option θ) some where
  init := rfl
  perform _ _ _ := rfl
  flush _ := rfl

theorem ActsAs.lc (h : ActsAs task f) :
    ActsAs (some (⟨task⟩ : ReaderTaskLC θ)) fun c => f (lowerCase c) where
  init := rfl
  perform c criteria data := by
    rw [performEl_some]
    simp only [StreamTask.perform, chainNext, h.perform, Outcome.bind_ok]
  flush data := by
    rw [flushTask_some]
    simp only [StreamTask.flush, chainFlush, h.flush, Outcome.bind_ok]

theorem ActsAs.disallow (h : ActsAs task f) (toDisallow : List UInt8) :
    ActsAs (some (⟨task, toDisallow, false⟩ : ReaderTaskDisallow θ)) fun c =>
      if c ∈ toDisallow then none else f c where
  init := rfl
  perform c criteria data := by
    rw [performEl_some]
    by_cases hc : c ∈ toDisallow
    · simp [StreamTask.perform, hc]
    · simp only [StreamTask.perform, if_neg hc, chainNext, h.perform, Outcome.bind_ok]
  flush data := by
    rw [flushTask_some]
    simp only [StreamTask.flush, chainFlush, h.flush, Outcome.bind_ok]

/-- What the chain does to task and collector. -/
def passed (f : UInt8 → Option UInt8) (_ : Bool) (c : UInt8)
    (p : Option θ × ArrayCollector UInt8) : Outcome (Option θ × ArrayCollector UInt8) :=
  .ok (p.1, ⟨p.2.data ++ (f c).toList⟩)

theorem ActsAs.folds (h : ActsAs task f) :
    Folds (fun p => p.1 = task) (passed f : Bool → UInt8 → Option θ × ArrayCollector UInt8 → _) where
  perform c p criteria hp := by
    obtain ⟨task', data⟩ := p
    obtain rfl : task' = task := hp
    exact h.perform c criteria data.data
  keeps last c p q hp hq := by
    obtain rfl := Outcome.ok.inj hq
    exact hp

omit [StreamTask θ UInt8] in
theorem feed_passed (last : Bool) (cs data : List UInt8) :
    feed (passed f last) cs (task, ⟨data⟩) = .ok (task, ⟨data ++ cs.filterMap f⟩) := by
  induction cs generalizing data with
  | nil => simp
  | cons c cs ih => cases hc : f c <;> simp [feed_cons, passed, ih, hc]

variable {pre untilEls rest l l' data : List UInt8} {u : UInt8}

/-- A read up to a match returns what the chain lets through of it. -/
theorem ActsAs.read_list (h : ActsAs task f) (hpre : ∀ c ∈ pre, c ∉ untilEls) (hu : u ∈ untilEls)
    (hlimit : seen true pre rest ≤ arbitrarySpatialUntilLimit) :
    read untilEls task true (pre ++ u :: rest) = .ok ((pre ++ [u]).filterMap f, rest) := by
  have hread := h.folds.streamCollect_until hpre hu hlimit task (⟨[]⟩ : ArrayCollector UInt8) h.init
  have hend : ∀ k : List UInt8, finish ((task, (⟨k⟩ : ArrayCollector UInt8)), rest) =
      .ok ((k, task), rest) := by
    intro k
    simp [finish, h.flush, Collector.collect]
  rw [read, Prog.bind_apply, hread]
  simp only [readEnd, h.init, Collector.init, feed_passed, Outcome.bind_ok, if_true, passed, hend]
  cases hu : f u <;> simp [hu]

/-- A read that returns has come to a match. -/
theorem ActsAs.read_inv (h : ActsAs task f)
    (hread : read untilEls task true l = .ok (data, l')) :
    ∃ pre u, l = pre ++ u :: l' ∧ (∀ c ∈ pre, c ∉ untilEls) ∧ u ∈ untilEls ∧
      data = (pre ++ [u]).filterMap f := by
  rw [read, Prog.bind_ok_iff] at hread
  obtain ⟨⟨data', task'⟩, l'', hcollect, hpure⟩ := hread
  cases hpure
  obtain ⟨pre, u, rest, rfl, hpre, hu, hlimit, -⟩ := h.folds.streamCollect_until_inv h.init hcollect
  have hread := h.read_list hpre hu hlimit
  rw [read, Prog.bind_apply, hcollect] at hread
  cases hread
  exact ⟨pre, u, rfl, hpre, hu, rfl⟩

end
end WylesLibs.Stream
