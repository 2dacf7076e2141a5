import Mathlib

/-! Runs of machines whose next state is fixed by the state and an input. Inputs stand for all
that is not decided by the state: the operation called, the party that moves, what the
environment answers. Independent of any particular machine. -/
namespace WylesLibs.Library
variable {σ τ ι ο : Type}

def run (step : σ → ι → Option σ) : σ → List ι → Option σ
  | s, [] => some s
  | s, a :: as => (step s a).bind fun t => run step t as

section
variable {step : σ → ι → Option σ}

@[simp] theorem run_nil (s : σ) : run step s [] = some s := rfl

theorem run_cons (s : σ) (a : ι) (as : List ι) :
    run step s (a :: as) = (step s a).bind fun t => run step t as := rfl

theorem run_append (as bs : List ι) (s : σ) :
    run step s (as ++ bs) = (run step s as).bind fun t => run step t bs := by
  induction as generalizing s with
  | nil => rfl
  | cons a as ih =>
    simp only [List.cons_append, run_cons]
    cases step s a with
    | none => rfl
    | some t => simpa using ih t

/-- The state `u` is met on the run of `as` from `s`, its two ends included. -/
def Visited (step : σ → ι → Option σ) (s : σ) (as : List ι) (u : σ) : Prop :=
  ∃ pre post, as = pre ++ post ∧ run step s pre = some u

theorem visited_start (s : σ) (as : List ι) : Visited step s as s := ⟨[], as, rfl, rfl⟩

theorem visited_cons {s t u : σ} {a : ι} {as : List ι} (h : step s a = some t) :
    Visited step s (a :: as) u ↔ u = s ∨ Visited step t as u := by
  constructor
  · rintro ⟨pre, post, heq, hr⟩
    cases pre with
    | nil =>
      left
      simpa using hr.symm
    | cons b pre =>
      obtain ⟨rfl, rfl⟩ : a = b ∧ as = pre ++ post := by simpa using heq
      right
      exact ⟨pre, post, rfl, by simpa [run_cons, h] using hr⟩
  · rintro (rfl | ⟨pre, post, rfl, hr⟩)
    · exact visited_start u (a :: as)
    · exact ⟨a :: pre, post, rfl, by simpa [run_cons, h] using hr⟩

/-- Every step that the run of `as` from `s` takes meets `P` in the state before it. -/
def Along (step : σ → ι → Option σ) (P : σ → ι → Prop) : σ → List ι → Prop
  | _, [] => True
  | s, a :: as => P s a ∧ ∀ t, step s a = some t → Along step P t as

theorem Along.mono {P Q : σ → ι → Prop} (hPQ : ∀ s a, P s a → Q s a) {as : List ι} {s : σ}
    (h : Along step P s as) : Along step Q s as := by
  induction as generalizing s with
  | nil => trivial
  | cons a as ih => exact ⟨hPQ s a h.1, fun t ht => ih (h.2 t ht)⟩

/-- An invariant that the steps meeting `P` keep holds in every state met along them. -/
theorem invariant_of_along {I : σ → Prop} {P : σ → ι → Prop}
    (hstep : ∀ s a t, I s → P s a → step s a = some t → I t) {as : List ι} {s u : σ}
    (hs : I s) (ha : Along step P s as) (hr : run step s as = some u) : I u := by
  induction as generalizing s with
  | nil =>
    obtain rfl : s = u := by simpa using hr
    exact hs
  | cons a as ih =>
    rw [run_cons, Option.bind_eq_some_iff] at hr
    obtain ⟨t, ht, hr⟩ := hr
    exact ih (hstep s a t hs ha.1 ht) (ha.2 t ht) hr

theorem Along.left {P : σ → ι → Prop} {as bs : List ι} {s : σ} (h : Along step P s (as ++ bs)) :
    Along step P s as := by
  induction as generalizing s with
  | nil => trivial
  | cons a as ih => exact ⟨h.1, fun t ht => ih (h.2 t ht)⟩

theorem invariant_of_visited {I : σ → Prop} {P : σ → ι → Prop}
    (hstep : ∀ s a t, I s → P s a → step s a = some t → I t) {as : List ι} {s u : σ}
    (hs : I s) (ha : Along step P s as) (hv : Visited step s as u) : I u := by
  obtain ⟨pre, post, rfl, hr⟩ := hv
  exact invariant_of_along hstep hs ha.left hr

/-- Whether the steps of a run meet `P` is found out by taking them. -/
instance Along.decidable {P : σ → ι → Prop} [∀ s a, Decidable (P s a)] :
    (s : σ) → (as : List ι) → Decidable (Along step P s as)
  | _, [] => isTrue trivial
  | s, a :: as =>
    match h : step s a with
    | none => decidable_of_iff (P s a) ⟨fun hp => ⟨hp, by simp [h]⟩, fun ha => ha.1⟩
    | some t =>
      have : Decidable (Along step P t as) := Along.decidable t as
      decidable_of_iff (P s a ∧ Along step P t as)
        ⟨fun hp => ⟨hp.1, fun _ ht => (Option.some.inj (h.symm.trans ht)) ▸ hp.2⟩,
          fun ha => ⟨ha.1, ha.2 t h⟩⟩

theorem along_true (as : List ι) (s : σ) : Along step (fun _ _ => True) s as := by
  induction as generalizing s with
  | nil => trivial
  | cons a as ih => exact ⟨trivial, fun t _ => ih t⟩

theorem invariant_of_run {I : σ → Prop} (hstep : ∀ s a t, I s → step s a = some t → I t)
    {as : List ι} {s u : σ} (hs : I s) (hr : run step s as = some u) : I u :=
  invariant_of_along (P := fun _ _ => True) (fun s a t hi _ h => hstep s a t hi h) hs
    (along_true as s) hr

/-- Where every input that meets `P` is answered, so is every list of them. -/
theorem run_of_progress {I : σ → Prop} {P : ι → Prop}
    (hstep : ∀ s a, I s → P a → ∃ t, step s a = some t ∧ I t) {as : List ι} {s : σ} (hs : I s)
    (ha : ∀ a ∈ as, P a) : ∃ u, run step s as = some u ∧ I u := by
  induction as generalizing s with
  | nil => exact ⟨s, rfl, hs⟩
  | cons a as ih =>
    obtain ⟨t, ht, hit⟩ := hstep s a hs (ha a List.mem_cons_self)
    obtain ⟨u, hr, hu⟩ := ih hit fun b hb => ha b (List.mem_cons_of_mem a hb)
    exact ⟨u, by rw [run_cons, ht, Option.bind_some, hr], hu⟩

/-- Where `P` says of each step exactly whether it keeps `Q`, a run keeps `Q` throughout if and
only if each of its steps meets `P`. -/
theorem visited_iff_along {I Q : σ → Prop} {P : σ → ι → Prop}
    (hI : ∀ s a t, I s → step s a = some t → I t)
    (hQ : ∀ s a t, I s → Q s → step s a = some t → (Q t ↔ P s a))
    {as : List ι} {s u : σ} (hi : I s) (hq : Q s) (hr : run step s as = some u) :
    (∀ v, Visited step s as v → Q v) ↔ Along step P s as := by
  induction as generalizing s with
  | nil =>
    refine ⟨fun _ => trivial, fun _ v hv => ?_⟩
    obtain ⟨pre, post, heq, hp⟩ := hv
    obtain ⟨rfl, -⟩ : pre = [] ∧ post = [] := by simpa using heq.symm
    obtain rfl : s = v := by simpa using hp
    exact hq
  | cons a as ih =>
    rw [run_cons, Option.bind_eq_some_iff] at hr
    obtain ⟨t, ht, hr⟩ := hr
    have hit := hI s a t hi ht
    constructor
    · intro h
      have hqt : Q t := h t ((visited_cons ht).mpr (Or.inr (visited_start t as)))
      refine ⟨(hQ s a t hi hq ht).mp hqt, fun t' ht' => ?_⟩
      obtain rfl : t = t' := by simpa [ht] using ht'
      exact (ih hit hqt hr).mp fun v hv => h v ((visited_cons ht).mpr (Or.inr hv))
    · rintro ⟨hp, hrest⟩ v hv
      have hqt := (hQ s a t hi hq ht).mpr hp
      obtain rfl | hv := (visited_cons ht).mp hv
      · exact hq
      · exact (ih hit hqt hr).mpr (hrest t ht) v hv

/-- If a step that does not meet `P` spoils the run for good, a run that ends unspoilt met `P` at
every step. -/
theorem along_of_end {I B : σ → Prop} {P : σ → ι → Prop}
    (hI : ∀ s a t, I s → step s a = some t → I t)
    (hspoil : ∀ s a t, I s → ¬ P s a → step s a = some t → B t)
    (hkeep : ∀ s a t, I s → B s → step s a = some t → B t)
    {as : List ι} {s u : σ} (hs : I s) (hr : run step s as = some u) (hu : ¬ B u) :
    Along step P s as := by
  induction as generalizing s with
  | nil => trivial
  | cons a as ih =>
    rw [run_cons, Option.bind_eq_some_iff] at hr
    obtain ⟨t, ht, hr⟩ := hr
    refine ⟨?_, fun t' ht' => ?_⟩
    · by_contra hp
      have hb : I u ∧ B u := invariant_of_run (I := fun v => I v ∧ B v)
        (fun v b w hv hw => ⟨hI v b w hv.1 hw, hkeep v b w hv.1 hv.2 hw⟩)
        ⟨hI s a t hs ht, hspoil s a t hs hp ht⟩ hr
      exact hu hb.2
    · obtain rfl : t = t' := Option.some.inj (ht.symm.trans ht')
      exact ih (hI s a t hs ht) hr

end

/-- What a client sees of a machine that answers each input, up to its first failure. -/
def answers (step : σ → ι → Option (ο × σ)) : σ → List ι → List ο
  | _, [] => []
  | s, a :: as =>
    match step s a with
    | none => []
    | some (o, t) => o :: answers step t as

/-- Each input is one the client may give in the state it is given in. -/
def Permitted (step : σ → ι → Option (ο × σ)) (may : σ → ι → Prop) : σ → List ι → Prop
  | _, [] => True
  | s, a :: as => may s a ∧ ∀ o t, step s a = some (o, t) → Permitted step may t as

/-- Forward simulation: as long as the specification answers, so does the implementation, and
with the same answers. -/
theorem answers_prefix {astep : τ → ι → Option (ο × τ)} {cstep : σ → ι → Option (ο × σ)}
    {may : τ → ι → Prop} {R : τ → σ → Prop}
    (hsim : ∀ t s a o t', R t s → may t a → astep t a = some (o, t') →
      ∃ s', cstep s a = some (o, s') ∧ R t' s')
    {as : List ι} {t : τ} {s : σ} (hr : R t s) (hp : Permitted astep may t as) :
    answers astep t as <+: answers cstep s as := by
  induction as generalizing t s with
  | nil => exact List.nil_prefix
  | cons a as ih =>
    obtain ⟨hmay, hrest⟩ := hp
    cases ha : astep t a with
    | none => simp [answers, ha]
    | some p =>
      obtain ⟨o, t'⟩ := p
      obtain ⟨s', hs', hr'⟩ := hsim t s a o t' hr hmay ha
      have htail := ih hr' (hrest o t' ha)
      simpa [answers, ha, hs'] using htail

end WylesLibs.Library
