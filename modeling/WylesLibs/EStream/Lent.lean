import WylesLibs.EStream.ReaderTask

/-! Criteria and collector are lent to a task. It knows the collector by `accumulate` alone, so a
read does the same with any two collectors that take elements alike. -/
namespace WylesLibs.Stream
open Library
variable {α σ γ κ κ' ρ ρ' θ : Type}

/-- Collectors related by `R` stay related whatever they are given. -/
structure TakeAlike [Collector κ α ρ] [Collector κ' α ρ'] (R : κ → κ' → Prop) : Prop where
  accumulate : ∀ (k : κ) (k' : κ') (el : α), R k k' →
    (Collector.accumulate k el).Both R (Collector.accumulate k' el)
  accumulateEls : ∀ (k : κ) (k' : κ') (els : List α), R k k' →
    (Collector.accumulateEls k els).Both R (Collector.accumulateEls k' els)

def SameFst {β δ η : Type} (R : δ → η → Prop) (p : β × δ) (q : β × η) : Prop :=
  p.1 = q.1 ∧ R p.2 q.2

/-- A task that takes nothing from its collector and gives it nothing but elements. -/
class LentTask (θ : Type) {α : outParam Type} [StreamTask θ α] : Prop where
  perform : ∀ {γ κ κ' ρ ρ' : Type} [LoopCriteriaI γ α] [Collector κ α ρ] [Collector κ' α ρ']
    {R : κ → κ' → Prop}, TakeAlike R → ∀ (t : θ) (el : α) (c : γ) (k : κ) (k' : κ'), R k k' →
      (StreamTask.perform t el c k).Both (SameFst (SameFst R)) (StreamTask.perform t el c k')
  flush : ∀ {κ κ' ρ ρ' : Type} [Collector κ α ρ] [Collector κ' α ρ'] {R : κ → κ' → Prop},
    TakeAlike R → ∀ (t : θ) (k : κ) (k' : κ'), R k k' →
      (StreamTask.flush t k).Both (SameFst R) (StreamTask.flush t k')

instance : LentTask (NullTask α) where
  perform _ t := nomatch t
  flush _ t := nomatch t

section
variable [LoopCriteriaI γ α] [Collector κ α ρ] [Collector κ' α ρ'] [StreamTask θ α] [LentTask θ]
variable {R : κ → κ' → Prop} {k : κ} {k' : κ'}

theorem TakeAlike.performEl (ha : TakeAlike R) (task : Option θ) (el : α) (criteria : γ)
    (hR : R k k') :
    (performEl task el criteria k).Both (SameFst (SameFst R)) (performEl task el criteria k') := by
  cases task with
  | none => exact .bind (ha.accumulate k k' el hR) fun _ _ h => .ok ⟨rfl, rfl, h⟩
  | some t =>
    apply Outcome.Both.bind (LentTask.perform ha t el criteria k k' hR)
    intro r r' h
    exact .ok ⟨congrArg some h.1, h.2⟩

theorem TakeAlike.flushTask (ha : TakeAlike R) (task : Option θ) (hR : R k k') :
    (flushTask task k).Both (SameFst R) (flushTask task k') := by
  cases task with
  | none => exact .ok ⟨rfl, hR⟩
  | some t =>
    apply Outcome.Both.bind (LentTask.flush ha t k k' hR)
    intro r r' h
    exact .ok ⟨congrArg some h.1, h.2⟩

/-- What two runs of the loop end with: the same task and stream, and related collectors. -/
def Collected (R : κ → κ' → Prop) (p : (Option θ × κ) × σ) (q : (Option θ × κ') × σ) : Prop :=
  p.2 = q.2 ∧ SameFst R p.1 q.1

theorem TakeAlike.collectLoop [EStreamI σ α] (ha : TakeAlike R) (n : Nat) (el : α) (criteria : γ)
    (task : Option θ) (s : σ) (hR : R k k') :
    (collectLoop n el criteria task k s).Both (Collected R)
      (collectLoop n el criteria task k' s) := by
  induction n generalizing el criteria task k k' s with
  | zero => exact .timeout
  | succ n ih =>
    simp only [Stream.collectLoop, Prog.bind_apply, Prog.lift_apply, Outcome.bind_assoc,
      Outcome.bind_ok]
    cases LoopCriteriaI.nextState criteria el with
    | thrown w => exact .thrown w
    | undef => exact .undef
    | timeout => exact .timeout
    | ok r =>
      obtain ⟨st, c⟩ := r
      cases hst : st.isGood with
      | false => simpa [hst] using .ok ⟨rfl, rfl, hR⟩
      | true =>
        simp only [Outcome.bind_ok, hst, if_true, Prog.bind_apply, Prog.lift_apply,
          Outcome.bind_assoc]
        apply Outcome.Both.bind (.refl (R := Eq) (fun _ => rfl) _)
        intro p q hpq
        subst hpq
        apply Outcome.Both.bind (ha.performEl task el c hR)
        intro r r' h
        obtain ⟨t, c₁, k₁⟩ := r
        obtain ⟨t', c₁', k₁'⟩ := r'
        obtain ⟨ht, hc, hR₁⟩ : t = t' ∧ c₁ = c₁' ∧ R k₁ k₁' := h
        subst ht hc
        apply Outcome.Both.bind (.refl (R := Eq) (fun _ => rfl) _)
        intro p q hpq
        subst hpq
        split
        · exact .ok ⟨rfl, rfl, hR₁⟩
        · apply Outcome.Both.bind (.refl (R := Eq) (fun _ => rfl) _)
          intro p q hpq
          subst hpq
          exact ih p.1 c₁ t p.2 hR₁

/-- A read into one collector and the same read into another, from collectors that are related
once they are initialised. -/
theorem TakeAlike.streamCollect [EStreamI σ α] (ha : TakeAlike R) (criteria : γ)
    (task : Option θ) (s : σ) (hR : R (Collector.init k) (Collector.init k')) :
    (streamCollect criteria task k s).Both
      (fun p q => p.2 = q.2 ∧ p.1.2 = q.1.2 ∧ ∃ k₁ k₁', R k₁ k₁' ∧
        p.1.1 = Collector.collect k₁ ∧ q.1.1 = Collector.collect k₁')
      (streamCollect criteria task k' s) := by
  simp only [Stream.streamCollect, Prog.bind_apply, Prog.lift_apply, Prog.pure_apply,
    Outcome.bind_assoc, Outcome.bind_ok]
  apply Outcome.Both.bind (.refl (R := Eq) (fun _ => rfl) _)
  intro p q hpq
  subst hpq
  apply Outcome.Both.bind (ha.collectLoop _ p.1 criteria _ p.2 hR)
  intro p q h
  obtain ⟨⟨t, k₁⟩, s₁⟩ := p
  obtain ⟨⟨t', k₁'⟩, s₁'⟩ := q
  obtain ⟨hs, ht, hR₁⟩ : s₁ = s₁' ∧ t = t' ∧ R k₁ k₁' := h
  subst hs ht
  apply Outcome.Both.bind (ha.flushTask t hR₁)
  intro r r' h
  exact .ok ⟨rfl, h.1, r.2, r'.2, h.2, rfl, rfl⟩

end

/-! The tasks of the library. -/

section
variable [StreamTask θ UInt8] [LentTask θ] [LoopCriteriaI γ UInt8] [Collector κ UInt8 ρ]
  [Collector κ' UInt8 ρ'] {R : κ → κ' → Prop} {k : κ} {k' : κ'} {η : Type}

/-- A link hands a byte on, and keeps what comes back of the task behind it. -/
theorem TakeAlike.chainNext (ha : TakeAlike R) (next : Option θ) (c : UInt8) (criteria : γ)
    (f : Option θ → η) (hR : R k k') :
    ((chainNext next c criteria k).bind fun r => .ok (f r.1, r.2)).Both (SameFst (SameFst R))
      ((chainNext next c criteria k').bind fun r => .ok (f r.1, r.2)) := by
  apply Outcome.Both.bind (ha.performEl next c criteria hR)
  intro r r' h
  exact .ok ⟨congrArg f h.1, h.2⟩

theorem TakeAlike.chainFlush (ha : TakeAlike R) (next : Option θ) (f : Option θ → η)
    (hR : R k k') :
    ((chainFlush next k).bind fun r => .ok (f r.1, r.2)).Both (SameFst R)
      ((chainFlush next k').bind fun r => .ok (f r.1, r.2)) := by
  apply Outcome.Both.bind (ha.flushTask next hR)
  intro r r' h
  exact .ok ⟨congrArg f h.1, h.2⟩

end

section
variable [StreamTask θ UInt8] [LentTask θ]

instance : LentTask (ReaderTaskLC θ) where
  perform ha t c criteria _ _ hR := ha.chainNext t.nextOperation (lowerCase c) criteria _ hR
  flush ha t _ _ hR := ha.chainFlush t.nextOperation _ hR

instance : LentTask (ReaderTaskUC θ) where
  perform ha t c criteria _ _ hR := ha.chainNext t.nextOperation (upperCase c) criteria _ hR
  flush ha t _ _ hR := ha.chainFlush t.nextOperation _ hR

instance : LentTask (ReaderTaskDisallow θ) where
  perform ha t c criteria _ _ hR := by
    apply Outcome.Both.ite
    · exact .ite (.thrown _) (.ok ⟨rfl, rfl, hR⟩)
    · exact ha.chainNext t.nextOperation c criteria (fun next => { t with nextOperation := next }) hR
  flush ha t _ _ hR :=
    ha.chainFlush t.nextOperation (fun next => { t with nextOperation := next }) hR

instance : LentTask (ReaderTaskAllow θ) where
  perform ha t c criteria _ _ hR := by
    apply Outcome.Both.ite
    · exact ha.chainNext t.nextOperation c criteria (fun next => { t with nextOperation := next }) hR
    · exact .ite (.thrown _) (.ok ⟨rfl, rfl, hR⟩)
  flush ha t _ _ hR :=
    ha.chainFlush t.nextOperation (fun next => { t with nextOperation := next }) hR

instance : LentTask (ReaderTaskExact θ) where
  perform ha t c criteria _ _ hR := by
    simp only [StreamTask.perform]
    split
    · exact .thrown _
    · apply Outcome.Both.ite
      · exact .ite (.thrown _) (.ok ⟨rfl, rfl, hR⟩)
      · exact ha.chainNext t.nextOperation c criteria
          (fun next => { t with i := t.i + 1, nextOperation := next }) hR
  flush _ _ _ _ hR := .ok ⟨rfl, hR⟩

end

section
variable [LoopCriteriaI γ UInt8] [Collector κ UInt8 ρ] [Collector κ' UInt8 ρ']
  {R : κ → κ' → Prop} {k : κ} {k' : κ'}

theorem ReaderTaskTrim.perform_alike (ha : TakeAlike R) (t : ReaderTaskTrim) (c : UInt8)
    (hR : R k k') : (t.perform c k).Both (SameFst R) (t.perform c k') := by
  have hone : ∀ (u : ReaderTaskTrim),
      ((Collector.accumulate k c).bind fun k => .ok (u, k)).Both (SameFst R)
        ((Collector.accumulate k' c).bind fun k => .ok (u, k)) :=
    fun u => .bind (ha.accumulate k k' c hR) fun _ _ h => .ok ⟨rfl, h⟩
  have hflush : (t.rTrimFlush k).Both (SameFst R) (t.rTrimFlush k') := by
    apply Outcome.Both.ite
    · exact .bind (ha.accumulateEls k k' t.rTrim hR) fun _ _ h => .ok ⟨rfl, h⟩
    · exact .ok ⟨rfl, hR⟩
  apply Outcome.Both.ite
  · apply Outcome.Both.ite
    · exact .ok ⟨rfl, hR⟩
    · apply Outcome.Both.ite
      · apply Outcome.Both.bind hflush
        intro r r' h
        obtain ⟨u, k₁⟩ := r
        obtain ⟨u', k₁'⟩ := r'
        obtain ⟨hu, hR₁⟩ : u = u' ∧ R k₁ k₁' := h
        subst hu
        exact .bind (ha.accumulate k₁ k₁' c hR₁) fun _ _ h => .ok ⟨rfl, h⟩
      · exact hone t
  · exact .ite (hone _) (.ok ⟨rfl, hR⟩)

theorem ReaderTaskExtract.perform_alike (ha : TakeAlike R) (t : ReaderTaskExtract) (c : UInt8)
    (criteria : γ) (hR : R k k') :
    (t.perform c criteria k).Both (SameFst (SameFst R)) (t.perform c criteria k') := by
  have hone : ∀ (u : ReaderTaskExtract),
      ((Collector.accumulate k c).bind fun k => .ok (u, criteria, k)).Both (SameFst (SameFst R))
        ((Collector.accumulate k' c).bind fun k => .ok (u, criteria, k)) :=
    fun u => .bind (ha.accumulate k k' c hR) fun _ _ h => .ok ⟨rfl, rfl, h⟩
  have hflush : (t.rTrimFlush k).Both (SameFst R) (t.rTrimFlush k') := by
    apply Outcome.Both.ite
    · exact .bind (ha.accumulateEls k k' t.rTrim hR) fun _ _ h => .ok ⟨rfl, h⟩
    · exact .ok ⟨rfl, hR⟩
  apply Outcome.Both.ite
  · apply Outcome.Both.ite (.ok ⟨rfl, rfl, hR⟩)
    apply Outcome.Both.ite
    · apply Outcome.Both.ite
      · apply Outcome.Both.bind hflush
        intro r r' h
        exact .ok ⟨by rw [h.1], rfl, h.2⟩
      · exact .ite (.ok ⟨rfl, rfl, hR⟩) (.ite (.ok ⟨rfl, rfl, hR⟩) (.ok ⟨rfl, rfl, hR⟩))
    · exact hone t
  · apply Outcome.Both.ite
    · exact .ite (.ok ⟨rfl, rfl, hR⟩) (.ite (hone t) (.thrown _))
    · exact .ok ⟨rfl, rfl, hR⟩

end

instance : LentTask ReaderTaskTrim where
  perform ha t c criteria _ _ hR := by
    apply Outcome.Both.bind (t.perform_alike ha c hR)
    intro r r' h
    exact .ok ⟨h.1, rfl, h.2⟩
  flush _ _ _ _ hR := .ok ⟨rfl, hR⟩

instance : LentTask ReaderTaskExtract where
  perform ha t c criteria _ _ hR := t.perform_alike ha c criteria hR
  flush ha t k k' hR := by
    apply Outcome.Both.ite (.thrown _)
    apply Outcome.Both.ite (.thrown _)
    apply Outcome.Both.ite
    · exact .bind (ha.accumulate k k' _ hR) fun _ _ h => .ok ⟨rfl, h⟩
    · exact .ok ⟨rfl, hR⟩

end WylesLibs.Stream
