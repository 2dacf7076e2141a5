import WylesLibs.Library.Outcome

/-! What holds after a call, however it ends: the weakest preconditions of programs that return or
throw. Independent of any particular program. -/
namespace WylesLibs.Library
variable {α β σ : Type}

namespace Outcome

/-- A value that is returned has a property, or an exception is allowed. Nothing else happens. -/
def Ends (o : Outcome α) (returns : α → Prop) (throws : Prop) : Prop :=
  match o with
  | .ok a => returns a
  | .thrown _ => throws
  | .undef => False
  | .timeout => False

variable {R : α → Prop} {T : Prop}

@[simp] theorem ends_ok (a : α) : (ok a).Ends R T ↔ R a := Iff.rfl
@[simp] theorem ends_thrown (w : String) : (thrown w : Outcome α).Ends R T ↔ T := Iff.rfl
@[simp] theorem ends_undef : ¬ (undef : Outcome α).Ends R T := id
@[simp] theorem ends_timeout : ¬ (timeout : Outcome α).Ends R T := id

theorem ends_bind (m : Outcome α) (f : α → Outcome β) (R : β → Prop) :
    (m.bind f).Ends R T ↔ m.Ends (fun a => (f a).Ends R T) T := by
  cases m <;> rfl

/-- Where exceptions are allowed, only what is returned counts. -/
theorem Settled.ends_iff {m : Outcome α} (h : m.Settled) :
    m.Ends R True ↔ ∀ a, m = .ok a → R a := by
  cases m with
  | ok a => simp
  | thrown w => simp
  | undef => exact absurd rfl h.1
  | timeout => exact absurd rfl h.2

end Outcome

namespace Prog

theorem ends_bind (m : Prog σ α) (f : α → Prog σ β) (s : σ) (R : β × σ → Prop) (T : Prop) :
    ((m >>= f) s).Ends R T ↔ (m s).Ends (fun p => (f p.1 p.2).Ends R T) T :=
  Outcome.ends_bind _ _ _

theorem ends_pure (a : α) (s : σ) (R : α × σ → Prop) (T : Prop) :
    ((pure a : Prog σ α) s).Ends R T ↔ R (a, s) := Iff.rfl

theorem ends_raise (w : String) (s : σ) (R : α × σ → Prop) (T : Prop) :
    ((raise w : Prog σ α) s).Ends R T ↔ T := Iff.rfl

theorem ends_lift (m : Outcome α) (s : σ) (R : α × σ → Prop) (T : Prop) :
    (lift m s).Ends R T ↔ m.Ends (fun a => R (a, s)) T :=
  Outcome.ends_bind _ _ _

theorem ends_ite {c : Prop} [Decidable c] (m k : Prog σ α) (s : σ) (R : α × σ → Prop) (T : Prop) :
    ((if c then m else k) s).Ends R T ↔ (c → (m s).Ends R T) ∧ (¬ c → (k s).Ends R T) := by
  by_cases h : c <;> simp [h]

/-- A check that throws when it fails. -/
theorem ends_check {c : Prop} [Decidable c] {m : Prog σ Unit} {s : σ} (hm : ∃ w, m s = .thrown w)
    (R : Unit × σ → Prop) :
    ((if c then m else pure ()) s).Ends R True ↔ (¬ c → R ((), s)) := by
  obtain ⟨w, hw⟩ := hm
  rw [ends_ite, hw]
  simp

end Prog
end WylesLibs.Library
