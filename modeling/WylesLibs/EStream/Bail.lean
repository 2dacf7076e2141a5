import WylesLibs.EStream.EndOfFile
import WylesLibs.EStream.ReaderTask

/-! What becomes of a loop whose task bails out: the criteria are in a state that `nextState` steps
on from. -/
namespace WylesLibs.Stream
open Library
variable {α κ ρ θ : Type}

/-- `l` is what is left of the stream, whatever `poll` says at its end. -/
def Contains (s : EStream α) (l : List α) : Prop := Holds s l ∨ s.HoldsFile ⟨l⟩

namespace Contains
variable {s : EStream α} {a : α} {l : List α}

theorem remaining (h : Contains s l) : s.remaining = l := by
  obtain h | h := h
  · exact h.2
  · exact h.remaining

theorem get (h : Contains s (a :: l)) :
    ∃ s', (get : Prog (EStream α) α) s = .ok (a, s') ∧ Contains s' l := by
  obtain h | h := h
  · have hrel := holds_sim.get s (a :: l) h
    rw [get_list_cons] at hrel
    obtain ⟨s', hs, h'⟩ := hrel.of_ok
    exact ⟨s', hs, .inl h'⟩
  · have hrel := EStream.file_sim.get s ⟨a :: l⟩ h
    rw [FileTail.get_cons] at hrel
    obtain ⟨s', hs, h'⟩ := hrel.of_ok
    exact ⟨s', hs, .inr h'⟩

theorem peek (h : Contains s (a :: l)) :
    ∃ s', (peek : Prog (EStream α) α) s = .ok (a, s') ∧ Contains s' (a :: l) := by
  obtain h | h := h
  · have hrel := holds_sim.peek s (a :: l) h
    rw [peek_list_cons] at hrel
    obtain ⟨s', hs, h'⟩ := hrel.of_ok
    exact ⟨s', hs, .inl h'⟩
  · have hrel := EStream.file_sim.peek s ⟨a :: l⟩ h
    rw [FileTail.peek_cons] at hrel
    obtain ⟨s', hs, h'⟩ := hrel.of_ok
    exact ⟨s', hs, .inr h'⟩

theorem peek_nil (h : Contains s []) : ∃ w, (Stream.peek : Prog (EStream α) α) s = .thrown w := by
  obtain h | h := h
  · exact ⟨_, EStream.peek_nil h.1 h.2⟩
  · exact ⟨_, h.peek_nil⟩

theorem get_nil (h : Contains s []) : ∃ w, (Stream.get : Prog (EStream α) α) s = .thrown w := by
  obtain ⟨w, hpeek⟩ := h.peek_nil
  have hpeek' : EStream.peek s = .thrown w := hpeek
  refine ⟨w, ?_⟩
  change EStream.get s = _
  simp [EStream.get, hpeek']

theorem good (h : Contains s l) :
    ∃ more s', (good : Prog (EStream α) Bool) s = .ok (more, s') ∧ Contains s' l ∧
      (l ≠ [] → more = true) := by
  obtain h | h := h
  · have hrel := holds_sim.good s l h
    rw [good_list] at hrel
    obtain ⟨s', hs, h'⟩ := hrel.of_ok
    exact ⟨_, s', hs, .inl h', by simp⟩
  · exact ⟨true, s, h.good, .inr h, fun _ => rfl⟩

end Contains

section
variable [DecidableEq α] [Collector κ α ρ] [StreamTask θ α]
  {n : Nat} {a b el : α} {c c₁ c₂ : LoopCriteria α} {st : LoopCriteriaState} {task task' : Option θ}
  {k k' : κ} {l : List α} {s s' : EStream α} {p : Option θ × κ}

/-- A turn of the loop with another element ahead. -/
theorem collectLoop_go (h : Contains s (a :: b :: l)) (hn : c.nextState a = .ok (st, c₁))
    (hg : st.isGood = true) (hp : performEl task a c₁ k = .ok (task', c₂, k')) :
    ∃ s', Contains s' (b :: l) ∧
      collectLoop (n + 1) a c task k s = collectLoop n b c₂ task' k' s' := by
  obtain ⟨s₁, hget, h₁⟩ := h.get
  obtain ⟨more, s₂, hgood, h₂, hmore⟩ := h₁.good
  obtain ⟨s₃, hpeek, h₃⟩ := h₂.peek
  have hmore' : more = true := hmore (List.cons_ne_nil b l)
  have hnext : LoopCriteriaI.nextState c a = .ok (st, c₁) := hn
  refine ⟨s₃, h₃, ?_⟩
  simp [collectLoop, hnext, hg, hget, hp, hgood, hmore', hpeek]

/-- What is left when the loop ends is no more than there was, and less if it takes an element. -/
theorem collectLoop_left (h : Contains s l)
    (hloop : collectLoop n el c task k s = .ok (p, s')) :
    ∃ l', Contains s' l' ∧ l'.length ≤ l.length ∧
      (∀ st c₁, c.nextState el = .ok (st, c₁) → st.isGood = true → l'.length < l.length) := by
  induction n generalizing el c task k l s with
  | zero => simp [collectLoop] at hloop
  | succ n ih =>
    obtain ⟨⟨st, c₁⟩, t, hnext, hturn⟩ := Prog.bind_ok_iff.mp hloop
    obtain ⟨r, hn, hr⟩ := Outcome.bind_eq_ok.mp hnext
    cases hr
    cases hg : st.isGood with
    | false =>
      simp only [hg, Bool.false_eq_true, if_false, Prog.pure_apply] at hturn
      cases hturn
      refine ⟨l, h, Nat.le_refl _, fun st' c' hn' hgood => ?_⟩
      have heq : Outcome.ok (st', c') = Outcome.ok (st, c₁) := hn'.symm.trans hn
      cases heq
      exact absurd hgood (by simp [hg])
    | true =>
      simp only [hg, if_true] at hturn
      cases l with
      | nil =>
        obtain ⟨w, hget⟩ := h.get_nil
        simp [hget] at hturn
      | cons a l =>
        obtain ⟨s₁, hget, h₁⟩ := h.get
        obtain ⟨more, s₂, hgood, h₂, -⟩ := h₁.good
        cases hp : performEl task el c₁ k with
        | thrown w => simp [hget, hp] at hturn
        | undef => simp [hget, hp] at hturn
        | timeout => simp [hget, hp] at hturn
        | ok q =>
          simp only [Prog.bind_apply, Prog.lift_apply, hget, hp, hgood, Outcome.bind_ok] at hturn
          split at hturn
          · cases hturn
            refine ⟨l, h₂, ?_, fun _ _ _ _ => ?_⟩
            · simp
            · simp
          · cases l with
            | nil =>
              obtain ⟨w, hpeek⟩ := h₂.peek_nil
              simp [hpeek] at hturn
            | cons b l =>
              obtain ⟨s₃, hpeek, h₃⟩ := h₂.peek
              simp only [Prog.bind_apply, hpeek, Outcome.bind_ok] at hturn
              obtain ⟨l', h', hlen, -⟩ := ih h₃ hturn
              simp only [List.length_cons] at hlen
              refine ⟨l', h', ?_, fun _ _ _ _ => ?_⟩
              · simp only [List.length_cons]
                omega
              · simp only [List.length_cons]
                omega

end

/-- Where the loop stands between two turns: `el` is the element peeked last, `rest` what comes
after it. -/
structure LoopState (α κ θ : Type) where
  criteria : LoopCriteria α
  task : θ
  collector : κ
  el : α
  rest : List α

section
variable [DecidableEq α] [Collector κ α ρ] [StreamTask θ α]

/-- A turn of the loop that another one follows. All that a task can do to the criteria is to bail
out. -/
inductive Turn : LoopState α κ θ → LoopState α κ θ → Prop
  | mk {c c₁ c₂ : LoopCriteria α} {st : LoopCriteriaState} {t t' : θ} {k k' : κ} {a b : α}
      {l : List α} (next : c.nextState a = .ok (st, c₁)) (good : st.isGood = true)
      (perform : StreamTask.perform t a c₁ k = .ok (t', c₂, k'))
      (criteria : c₂ = c₁ ∨ c₂ = LoopCriteriaI.preemptiveBail c₁) :
      Turn ⟨c, t, k, a, b :: l⟩ ⟨c₂, t', k', b, l⟩

/-- The loop from a state on. -/
def LoopState.loop (n : Nat) (p : LoopState α κ θ) : Prog (EStream α) (Option θ × κ) :=
  collectLoop n p.el p.criteria (some p.task) p.collector

variable {p q : LoopState α κ θ} {n : Nat} {s : EStream α}

theorem steps_bail (c : LoopCriteria α) :
    LoopCriteria.steps (LoopCriteriaI.preemptiveBail c) = c.steps := rfl

omit [DecidableEq α] in
theorem performEl_ok {γ : Type} [LoopCriteriaI γ α] {t t' : θ} {a : α} {c c' : γ} {k k' : κ}
    (h : StreamTask.perform t a c k = .ok (t', c', k')) :
    performEl (some t) a c k = .ok (some t', c', k') := by
  simp [performEl, h]

theorem turn_loop (h : Turn p q) (hs : p.criteria.steps < n) (hc : Contains s (p.el :: p.rest)) :
    ∃ m s', q.criteria.steps < m ∧ Contains s' (q.el :: q.rest) ∧
      p.loop n s = q.loop m s' := by
  cases h with
  | mk next good perform criteria =>
    obtain ⟨m, rfl⟩ : ∃ m, n = m + 1 := Nat.exists_eq_succ_of_ne_zero (by omega)
    obtain ⟨s', hc', hloop⟩ := collectLoop_go (n := m) hc next good (performEl_ok perform)
    refine ⟨m, s', ?_, hc', hloop⟩
    have hlt := LoopCriteria.steps_nextState _ _ _ _ next good
    obtain rfl | rfl := criteria
    · simp only at hs ⊢
      omega
    · rw [steps_bail]
      simp only at hs
      omega

theorem run_loop (h : Relation.ReflTransGen Turn p q) (hs : p.criteria.steps < n)
    (hc : Contains s (p.el :: p.rest)) :
    ∃ m s', q.criteria.steps < m ∧ Contains s' (q.el :: q.rest) ∧
      p.loop n s = q.loop m s' := by
  induction h with
  | refl => exact ⟨n, s, hs, hc, rfl⟩
  | tail _ turn ih =>
    obtain ⟨m, s₁, hs₁, hc₁, hloop⟩ := ih
    obtain ⟨m', s₂, hs₂, hc₂, hloop'⟩ := turn_loop turn hs₁ hc₁
    exact ⟨m', s₂, hs₂, hc₂, hloop.trans hloop'⟩

/-- What has to hold when a task bails out for the read to end there: `c` has taken the step for the
element at hand, and `rest` comes after it. -/
def Stops (c : LoopCriteria α) (rest : List α) : Prop :=
  match c.mode with
  | .untilMatch => c.untilSize < arbitrarySpatialUntilLimit ∧ ∃ b l, rest = b :: l ∧ b ∈ c.untilEls
  | .untilNumElements => c.untilSize = 0 ∧ rest ≠ []

/-- A match keeps the state that the bail has set, any other element makes it good again. -/
theorem nextState_bail_stops {c : LoopCriteria α} {b : α} {l : List α} (h : Stops c (b :: l)) :
    ∃ c', (LoopCriteriaI.preemptiveBail c).nextState b = .ok (.notGood, c') := by
  cases hm : c.mode with
  | untilMatch =>
    simp only [Stops, hm] at h
    obtain ⟨hlt, b', l', hcons, hb⟩ := h
    cases hcons
    simp [LoopCriteriaI.preemptiveBail, LoopCriteria.nextState, LoopCriteria.untilMatchNext, hm, hb,
      Nat.not_lt.mpr hlt]
  | untilNumElements =>
    simp only [Stops, hm] at h
    simp [LoopCriteriaI.preemptiveBail, LoopCriteria.nextState, LoopCriteria.untilSizeNext, hm, h,
      LoopCriteriaState.isGood]

theorem nextState_bail_goes {c : LoopCriteria α} {b : α} {l : List α} (h : ¬ Stops c (b :: l)) :
    (∃ w, (LoopCriteriaI.preemptiveBail c).nextState b = .thrown w) ∨
      ∃ c', (LoopCriteriaI.preemptiveBail c).nextState b = .ok (.good, c') := by
  cases hm : c.mode with
  | untilMatch =>
    by_cases hlt : c.untilSize < arbitrarySpatialUntilLimit
    · have hb : b ∉ c.untilEls := by
        intro hb
        apply h
        simp only [Stops, hm]
        exact ⟨hlt, b, l, rfl, hb⟩
      right
      simp [LoopCriteriaI.preemptiveBail, LoopCriteria.nextState, LoopCriteria.untilMatchNext, hm,
        hb, Nat.not_lt.mpr hlt]
    · left
      simp [LoopCriteriaI.preemptiveBail, LoopCriteria.nextState, hm, Nat.not_lt.mp hlt]
  | untilNumElements =>
    have hpos : 0 < c.untilSize := by
      apply Nat.pos_of_ne_zero
      intro hz
      apply h
      simp [Stops, hm, hz]
    right
    simp [LoopCriteriaI.preemptiveBail, LoopCriteria.nextState, LoopCriteria.untilSizeNext, hm, hpos]

/-- `streamCollect` up to the flush of its task. -/
def beforeFlush (c : LoopCriteria α) (task : Option θ) (k : κ) : Prog (EStream α) (Option θ × κ) := do
  let el ← (peek : Prog (EStream α) α)
  collectLoop (LoopCriteriaI.steps c + 1) el c (task.map StreamTask.init) (Collector.init k)

theorem streamCollect_flush (c : LoopCriteria α) (task : Option θ) (k : κ) (s : EStream α) :
    streamCollect c task k s = (beforeFlush c task k s).bind fun r =>
      (flushTask r.1.1 r.1.2).bind fun q => .ok ((Collector.collect q.2, q.1), r.2) := by
  simp only [streamCollect, beforeFlush, Prog.bind_apply, Outcome.bind_assoc, Prog.lift_apply,
    Prog.pure_apply, Outcome.bind_ok]

/-- At the last element the bail has cleared what tells the loop not to look for another one. -/
theorem bail_nil {t t' : θ} {a : α} {c c₁ : LoopCriteria α} {st : LoopCriteriaState} {k k' : κ}
    (h : Contains s [a]) (next : c.nextState a = .ok (st, c₁)) (good : st.isGood = true)
    (bail : StreamTask.perform t a c₁ k = .ok (t', LoopCriteriaI.preemptiveBail c₁, k')) :
    ∃ w, collectLoop (n + 1) a c (some t) k s = .thrown w := by
  obtain ⟨s₁, hget, h₁⟩ := h.get
  obtain ⟨more, s₂, hgood, h₂, -⟩ := h₁.good
  obtain ⟨w, hpeek⟩ := h₂.peek_nil
  have hnext : LoopCriteriaI.nextState c a = .ok (st, c₁) := next
  have hperform := performEl_ok bail
  have hlast : (LoopCriteriaI.state (LoopCriteriaI.preemptiveBail c₁)).isAtLast = false := rfl
  exact ⟨w, by simp [collectLoop, hnext, good, hget, hperform, hgood, hlast, hpeek]⟩

theorem bail_cons {b : α} {l : List α} {c : LoopCriteria α} {task : Option θ} {k : κ}
    (h : Contains s (b :: l)) :
    (∃ s', Contains s' (b :: l) ∧
      collectLoop (n + 1) b (LoopCriteriaI.preemptiveBail c) task k s = .ok ((task, k), s')) ↔
    Stops c (b :: l) := by
  constructor
  · intro hcase
    obtain ⟨s', h', hloop⟩ := hcase
    by_contra hstops
    obtain ⟨l', hl', -, hless⟩ := collectLoop_left h hloop
    have hsame : l' = b :: l := hl'.remaining.symm.trans h'.remaining
    obtain ⟨w, hw⟩ | ⟨c', hc'⟩ := nextState_bail_goes hstops
    · have hnext : LoopCriteriaI.nextState (LoopCriteriaI.preemptiveBail c) b = .thrown w := hw
      simp [collectLoop, hnext] at hloop
    · have hlt := hless _ _ hc' rfl
      rw [hsame] at hlt
      exact Nat.lt_irrefl _ hlt
  · intro hstops
    obtain ⟨c', hc'⟩ := nextState_bail_stops hstops
    have hnext : LoopCriteriaI.nextState (LoopCriteriaI.preemptiveBail c) b = .ok (.notGood, c') :=
      hc'
    exact ⟨s, h, by simp [collectLoop, hnext, LoopCriteriaState.isGood]⟩

/-- The loop ends where a task bails out only if the next element would have ended it as well. -/
theorem loop_stops_iff {mode : LoopCriteriaMode} {inclusive : Bool} {num : Nat} {untilEls : List α}
    {task t t' : θ} {collector k k' : κ} {first a : α} {l rest : List α} {st : LoopCriteriaState}
    {c c₁ : LoopCriteria α} (h : Contains s (first :: l))
    (run : Relation.ReflTransGen Turn
      ⟨LoopCriteria.mk' mode inclusive num untilEls, StreamTask.init task, Collector.init collector, first, l⟩
      ⟨c, t, k, a, rest⟩)
    (next : c.nextState a = .ok (st, c₁)) (good : st.isGood = true)
    (bail : StreamTask.perform t a c₁ k = .ok (t', LoopCriteriaI.preemptiveBail c₁, k')) :
    (∃ s', Contains s' rest ∧
      beforeFlush (LoopCriteria.mk' mode inclusive num untilEls) (some task) collector s =
        .ok ((some t', k'), s')) ↔
    Stops c₁ rest := by
  obtain ⟨s₀, hpeek, h₀⟩ := h.peek
  have hfuel : (LoopCriteria.mk' mode inclusive num untilEls).steps <
      LoopCriteriaI.steps (LoopCriteria.mk' mode inclusive num untilEls) + 1 := Nat.lt_succ_self _
  obtain ⟨n, s₁, hn, h₁, hloop⟩ := run_loop run hfuel h₀
  have hbefore : beforeFlush (LoopCriteria.mk' mode inclusive num untilEls) (some task) collector s =
      collectLoop n a c (some t) k s₁ := by
    simpa [beforeFlush, hpeek, LoopState.loop] using hloop
  obtain ⟨n, rfl⟩ : ∃ m, n = m + 1 := Nat.exists_eq_succ_of_ne_zero (by simp only at hn; omega)
  rw [hbefore]
  cases rest with
  | nil =>
    obtain ⟨w, hthrown⟩ := bail_nil (n := n) h₁ next good bail
    have hstops : ¬ Stops c₁ ([] : List α) := by
      unfold Stops
      cases c₁.mode with
      | untilMatch => simp
      | untilNumElements => simp
    simp [hthrown, hstops]
  | cons b rest =>
    obtain ⟨s₂, h₂, hturn⟩ := collectLoop_go (n := n) h₁ next good (performEl_ok bail)
    have hsteps := LoopCriteria.steps_nextState _ _ _ _ next good
    obtain ⟨m, rfl⟩ : ∃ m, n = m + 1 :=
      Nat.exists_eq_succ_of_ne_zero (by simp only at hn; omega)
    rw [hturn]
    exact bail_cons h₂

/-- So does the read, which then returns what was collected. -/
theorem bail_stops_iff {mode : LoopCriteriaMode} {inclusive : Bool} {num : Nat} {untilEls : List α}
    {task t t' : θ} {collector k k' : κ} {first a : α} {l rest : List α} {st : LoopCriteriaState}
    {c c₁ : LoopCriteria α} (h : Contains s (first :: l))
    (run : Relation.ReflTransGen Turn
      ⟨LoopCriteria.mk' mode inclusive num untilEls, StreamTask.init task, Collector.init collector, first, l⟩
      ⟨c, t, k, a, rest⟩)
    (next : c.nextState a = .ok (st, c₁)) (good : st.isGood = true)
    (bail : StreamTask.perform t a c₁ k = .ok (t', LoopCriteriaI.preemptiveBail c₁, k')) :
    (∃ s', Contains s' rest ∧
      beforeFlush (LoopCriteria.mk' mode inclusive num untilEls) (some task) collector s =
        .ok ((some t', k'), s') ∧
      streamCollect (LoopCriteria.mk' mode inclusive num untilEls) (some task) collector s =
        (flushTask (some t') k').bind fun r => .ok ((Collector.collect r.2, r.1), s')) ↔
    Stops c₁ rest := by
  rw [← loop_stops_iff h run next good bail]
  constructor
  · intro hcase
    obtain ⟨s', h', hloop, _⟩ := hcase
    exact ⟨s', h', hloop⟩
  · intro hcase
    obtain ⟨s', h', hloop⟩ := hcase
    refine ⟨s', h', hloop, ?_⟩
    rw [streamCollect_flush, hloop]
    rfl

end

/-- Looking for `"ab"` up to a `'c'`: one turn on, the text is `"ax"` and then `rest`. -/
theorem turn_exact (rest : List UInt8) :
    Turn (⟨LoopCriteria.mk' .untilMatch true 0 [99],
        StreamTask.init (ReaderTaskExact.mk' [97, 98] false),
        Collector.init (⟨[]⟩ : ArrayCollector UInt8), 97, 120 :: rest⟩)
      ⟨⟨.good, .untilMatch, true, 1, [99]⟩, ⟨none, [97, 98], 1, false, true⟩, ⟨[97]⟩, 120, rest⟩ :=
  .mk rfl rfl rfl (Or.inl rfl)

/-- The task bails out at the `'x'`. -/
theorem perform_exact : StreamTask.perform
      (⟨none, [97, 98], 1, false, true⟩ : ReaderTaskExact (NullTask UInt8)) 120
      (⟨.good, .untilMatch, true, 2, [99]⟩ : LoopCriteria UInt8) (⟨[97]⟩ : ArrayCollector UInt8) =
    .ok (⟨none, [97, 98], 2, false, false⟩,
      LoopCriteriaI.preemptiveBail (⟨.good, .untilMatch, true, 2, [99]⟩ : LoopCriteria UInt8),
      ⟨[97]⟩) :=
  rfl

theorem bail_stops_iff_match : ∃ s', Contains s' [99] ∧
    streamCollect (LoopCriteria.mk' .untilMatch true 0 [(99 : UInt8)])
        (some (ReaderTaskExact.mk' [97, 98] false)) (⟨[]⟩ : ArrayCollector UInt8)
        (EStream.ofBuffer [97, 120, 99]) =
      .ok (([97], some ⟨none, [97, 98], 0, false, false⟩), s') := by
  have h : Contains (EStream.ofBuffer [97, 120, 99]) [(97 : UInt8), 120, 99] :=
    Or.inl (holds_ofBuffer [97, 120, 99])
  have hstops : Stops (⟨.good, .untilMatch, true, 2, [99]⟩ : LoopCriteria UInt8) [99] :=
    ⟨by decide, 99, [], rfl, by simp⟩
  have next : (⟨.good, .untilMatch, true, 1, [99]⟩ : LoopCriteria UInt8).nextState 120 =
      .ok (.good, ⟨.good, .untilMatch, true, 2, [99]⟩) := rfl
  obtain ⟨s', h', -, hcollect⟩ :=
    (bail_stops_iff h (.single (turn_exact [99])) next rfl perform_exact).mpr hstops
  exact ⟨s', h', hcollect⟩

/-- After `"ax"`, the `'y'` makes the state good again, and the task looks past the end of its
text. -/
theorem bail_not_always :
    ¬ ∀ (mode : LoopCriteriaMode) (inclusive : Bool) (num : Nat) (untilEls l rest : List UInt8)
      (task t t' : ReaderTaskExact (NullTask UInt8)) (collector k k' : ArrayCollector UInt8)
      (first a : UInt8) (st : LoopCriteriaState) (c c₁ : LoopCriteria UInt8) (s : EStream UInt8),
      Contains s (first :: l) →
      Relation.ReflTransGen Turn
        ⟨LoopCriteria.mk' mode inclusive num untilEls, StreamTask.init task,
          Collector.init collector, first, l⟩ ⟨c, t, k, a, rest⟩ →
      c.nextState a = .ok (st, c₁) → st.isGood = true →
      StreamTask.perform t a c₁ k = .ok (t', LoopCriteriaI.preemptiveBail c₁, k') →
      ∃ s', Contains s' rest ∧
        beforeFlush (LoopCriteria.mk' mode inclusive num untilEls) (some task) collector s =
          .ok ((some t', k'), s') ∧
        streamCollect (LoopCriteria.mk' mode inclusive num untilEls) (some task) collector s =
          (flushTask (some t') k').bind fun r => .ok ((Collector.collect r.2, r.1), s') := by
  intro hevery
  have h : Contains (EStream.ofBuffer [97, 120, 121, 99]) [(97 : UInt8), 120, 121, 99] :=
    Or.inl (holds_ofBuffer [97, 120, 121, 99])
  have run := Relation.ReflTransGen.single (turn_exact [121, 99])
  have next : (⟨.good, .untilMatch, true, 1, [99]⟩ : LoopCriteria UInt8).nextState 120 =
      .ok (.good, ⟨.good, .untilMatch, true, 2, [99]⟩) := rfl
  obtain ⟨s', h', hloop, -⟩ := hevery _ _ _ _ _ _ _ _ _ _ _ _ _ _ _ _ _ _ h run next rfl perform_exact
  have hstops := (loop_stops_iff h run next rfl perform_exact).mp ⟨s', h', hloop⟩
  obtain ⟨-, b, l, hcons, hb⟩ := hstops
  cases hcons
  simp at hb

end WylesLibs.Stream
