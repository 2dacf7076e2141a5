import WylesLibs.Library.Outcome

/-! Programs that leave a state behind when they throw: an object that is used again after one of
its calls has thrown. Independent of any particular program. -/
namespace WylesLibs.Library
variable {α β σ : Type}

def Call (σ α : Type) := σ → Outcome α × σ

instance : Monad (Call σ) where
  pure a := fun s => (.ok a, s)
  bind m f := fun s =>
    match m s with
    | (.ok a, t) => f a t
    | (.thrown w, t) => (.thrown w, t)
    | (.undef, t) => (.undef, t)
    | (.timeout, t) => (.timeout, t)

namespace Call

def raise (w : String) : Call σ α := fun s => (.thrown w, s)
def spent : Call σ α := fun s => (.timeout, s)
def view (f : σ → α) : Call σ α := fun s => (.ok (f s), s)
def lift (m : Outcome α) : Call σ α := fun s => (m, s)
def modify (f : σ → σ) : Call σ Unit := fun s => (.ok (), f s)

/-- The new state is worked out from the old one. -/
def become (f : σ → Outcome σ) : Call σ Unit := fun s =>
  match f s with
  | .ok t => (.ok (), t)
  | .thrown w => (.thrown w, s)
  | .undef => (.undef, s)
  | .timeout => (.timeout, s)

/-- The same for each element of a list. -/
def each (body : α → Call σ Unit) : List α → Call σ Unit
  | [] => pure ()
  | a :: as => do
    body a
    each body as

variable {m : Call σ α} {f : α → Call σ β} {s t : σ} {a : α} {w : String}

@[simp] theorem pure_apply (a : α) (s : σ) : (pure a : Call σ α) s = (.ok a, s) := rfl
@[simp] theorem raise_apply (w : String) (s : σ) : (raise w : Call σ α) s = (.thrown w, s) := rfl
@[simp] theorem spent_apply (s : σ) : (spent : Call σ α) s = (.timeout, s) := rfl
@[simp] theorem view_apply (f : σ → α) (s : σ) : view f s = (.ok (f s), s) := rfl
@[simp] theorem lift_apply (m : Outcome α) (s : σ) : lift m s = (m, s) := rfl
@[simp] theorem modify_apply (f : σ → σ) (s : σ) : modify f s = (.ok (), f s) := rfl

theorem bind_of_ok (h : m s = (.ok a, t)) : (m >>= f) s = f a t := by
  simp only [bind, h]

theorem bind_of_thrown (h : m s = (.thrown w, t)) : (m >>= f) s = (.thrown w, t) := by
  simp only [bind, h]

theorem bind_of_undef (h : m s = (.undef, t)) : (m >>= f) s = (.undef, t) := by
  simp only [bind, h]

theorem bind_lift_ok (a : α) (f : α → Call σ β) : (lift (.ok a) >>= f) = f a := rfl

theorem become_of_ok {f : σ → Outcome σ} (h : f s = .ok t) : become f s = (.ok (), t) := by
  rw [become, h]

/-! A program on one state that does what another does on what the state is carried over to. -/

def Carries {τ : Type} (f : σ → τ) (m : Call σ α) (m' : Call τ α) (s : σ) : Prop :=
  m' (f s) = ((m s).1, f (m s).2)

theorem Carries.bind {τ : Type} {f : σ → τ} {m : Call σ α} {m' : Call τ α} {k : α → Call σ β}
    {k' : α → Call τ β} {s : σ} (hm : Carries f m m' s)
    (hk : ∀ a t, m s = (.ok a, t) → Carries f (k a) (k' a) t) :
    Carries f (m >>= k) (m' >>= k') s := by
  unfold Carries at hm ⊢
  simp only [Bind.bind, hm]
  cases hms : m s with
  | mk o t =>
    cases o with
    | ok a => exact hk a t hms
    | thrown w => rfl
    | undef => rfl
    | timeout => rfl

/-- What holds of the state before still does behind. -/
def Keeps (I : σ → Prop) (m : Call σ α) : Prop := ∀ s, I s → I (m s).2

theorem Keeps.bind {I : σ → Prop} {m : Call σ α} {k : α → Call σ β} (hm : Keeps I m)
    (hk : ∀ a, Keeps I (k a)) : Keeps I (m >>= k) := by
  intro s hs
  have ht := hm s hs
  simp only [Bind.bind]
  cases hms : m s with
  | mk o t =>
    rw [hms] at ht
    cases o with
    | ok a => exact hk a t ht
    | thrown w => exact ht
    | undef => exact ht
    | timeout => exact ht

/-! The calls of a client one after the other. -/

/-- What each of the calls answers, and the state that it leaves. -/
def trace {ι : Type} (call : ι → Call σ α) : List ι → σ → List (Outcome α × σ)
  | [], _ => []
  | a :: as, s => call a s :: trace call as (call a s).2

/-- Each input is one that may be given in the state it is given in. -/
def Allowed {ι : Type} (call : ι → Call σ α) (may : σ → ι → Prop) : List ι → σ → Prop
  | [], _ => True
  | a :: as, s => may s a ∧ Allowed call may as (call a s).2

/-- The state after the calls. -/
def after {ι : Type} (call : ι → Call σ α) : List ι → σ → σ
  | [], s => s
  | a :: as, s => after call as (call a s).2

@[simp] theorem after_append {ι : Type} (call : ι → Call σ α) (as bs : List ι) (s : σ) :
    after call (as ++ bs) s = after call bs (after call as s) := by
  induction as generalizing s with
  | nil => rfl
  | cons a as ih => exact ih (call a s).2

theorem allowed_append {ι : Type} {call : ι → Call σ α} {may : σ → ι → Prop} {as bs : List ι}
    {s : σ} :
    Allowed call may (as ++ bs) s ↔ Allowed call may as s ∧ Allowed call may bs (after call as s) := by
  induction as generalizing s with
  | nil => exact (and_iff_right trivial).symm
  | cons a as ih => exact (and_congr_right fun _ => ih).trans and_assoc.symm

theorem Allowed.and_forall {ι : Type} {call : ι → Call σ α} {may : σ → ι → Prop} {P : ι → Prop}
    {as : List ι} {s : σ} (h : Allowed call may as s) (hP : ∀ a ∈ as, P a) :
    Allowed call (fun s a => may s a ∧ P a) as s := by
  induction as generalizing s with
  | nil => trivial
  | cons a as ih =>
    obtain ⟨ha, has⟩ := List.forall_mem_cons.mp hP
    exact ⟨⟨h.1, ha⟩, ih h.2 has⟩

/-- An invariant that the permitted calls keep holds after them. -/
theorem after_invariant {ι : Type} {I : σ → Prop} {may : σ → ι → Prop} {call : ι → Call σ α}
    (hcall : ∀ a s, I s → may s a → I (call a s).2) {as : List ι} {s : σ} (hs : I s)
    (hmay : Allowed call may as s) : I (after call as s) := by
  induction as generalizing s with
  | nil => exact hs
  | cons a as ih => exact ih (hcall a s hs hmay.1) hmay.2

/-- If what two objects do in one call is related, and what is so related leaves them fit for the
next call, all that they do is related. -/
theorem trace_related {ι τ : Type} {R : τ → σ → Prop} {Q : Outcome α × τ → Outcome α × σ → Prop}
    {may : σ → ι → Prop} {concrete : ι → Call τ α} {abstract : ι → Call σ α}
    (hcall : ∀ a t s, R t s → may s a → Q (concrete a t) (abstract a s))
    (hkeep : ∀ r q, Q r q → R r.2 q.2)
    {as : List ι} {t : τ} {s : σ} (hR : R t s) (hmay : Allowed abstract may as s) :
    List.Forall₂ Q (trace concrete as t) (trace abstract as s) := by
  induction as generalizing t s with
  | nil => exact .nil
  | cons a as ih =>
    have h := hcall a t s hR hmay.1
    exact .cons h (ih (hkeep _ _ h) hmay.2)


/-- Where `may` says of each call exactly whether what two objects do in it is related, all that
they do is related just if every call may be made. -/
theorem trace_related_iff {ι τ : Type} {R : τ → σ → Prop}
    {Q : Outcome α × τ → Outcome α × σ → Prop} {dom may : σ → ι → Prop} {concrete : ι → Call τ α}
    {abstract : ι → Call σ α}
    (hcall : ∀ a t s, R t s → dom s a → (Q (concrete a t) (abstract a s) ↔ may s a))
    (hkeep : ∀ r q, Q r q → R r.2 q.2)
    {as : List ι} {t : τ} {s : σ} (hR : R t s) (hdom : Allowed abstract dom as s) :
    List.Forall₂ Q (trace concrete as t) (trace abstract as s) ↔ Allowed abstract may as s := by
  induction as generalizing t s with
  | nil => exact iff_of_true .nil trivial
  | cons a as ih =>
    have h := hcall a t s hR hdom.1
    simp only [trace, List.forall₂_cons, Allowed, h]
    constructor
    · intro hall
      exact ⟨hall.1, (ih (hkeep _ _ (h.mpr hall.1)) hdom.2).mp hall.2⟩
    · intro hall
      exact ⟨hall.1, (ih (hkeep _ _ (h.mpr hall.1)) hdom.2).mpr hall.2⟩

/-- Two conditions that say the same of a call in every state that the calls go through. -/
theorem allowed_iff {ι : Type} {I : σ → Prop} {P Q : σ → ι → Prop} {call : ι → Call σ α}
    (hcall : ∀ a s, I s → (P s a ↔ Q s a)) (hkeep : ∀ a s, I s → P s a → I (call a s).2)
    {as : List ι} {s : σ} (hs : I s) : Allowed call P as s ↔ Allowed call Q as s := by
  induction as generalizing s with
  | nil => exact Iff.rfl
  | cons a as ih =>
    have h := hcall a s hs
    constructor
    · intro hall
      exact ⟨h.mp hall.1, (ih (hkeep a s hs hall.1)).mp hall.2⟩
    · intro hall
      have hP := h.mpr hall.1
      exact ⟨hP, (ih (hkeep a s hs hP)).mpr hall.2⟩

/-- `P` holds of every call, in the states that two objects are in when it is made of both. -/
def Beside {ι τ α' : Type} (concrete : ι → Call τ α') (abstract : ι → Call σ α)
    (P : ι → τ → σ → Prop) : List ι → τ → σ → Prop
  | [], _, _ => True
  | a :: as, t, s => P a t s ∧ Beside concrete abstract P as (concrete a t).2 (abstract a s).2

/-- Where `may` says of each call exactly whether `P` holds of it, `P` holds of every call just if
all of them may be made. -/
theorem beside_iff {ι τ α' : Type} {R : τ → σ → Prop} {P : ι → τ → σ → Prop}
    {dom may : σ → ι → Prop} {concrete : ι → Call τ α'} {abstract : ι → Call σ α}
    (hcall : ∀ a t s, R t s → dom s a → (P a t s ↔ may s a))
    (hkeep : ∀ a t s, R t s → P a t s → R (concrete a t).2 (abstract a s).2)
    {as : List ι} {t : τ} {s : σ} (hR : R t s) (hdom : Allowed abstract dom as s) :
    Beside concrete abstract P as t s ↔ Allowed abstract may as s := by
  induction as generalizing t s with
  | nil => exact Iff.rfl
  | cons a as ih =>
    have h := hcall a t s hR hdom.1
    constructor
    · intro hall
      exact ⟨h.mp hall.1, (ih (hkeep a t s hR hall.1) hdom.2).mp hall.2⟩
    · intro hall
      have hP := h.mpr hall.1
      exact ⟨hP, (ih (hkeep a t s hR hP) hdom.2).mpr hall.2⟩

end Call
end WylesLibs.Library
