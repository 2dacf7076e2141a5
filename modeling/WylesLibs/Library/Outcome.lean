import Mathlib

/-! Outcomes of calls that may return, throw or run into undefined behaviour, and programs
over an explicit state. Independent of any particular program. -/
namespace WylesLibs.Library
variable {α β σ τ : Type}

/-- `timeout` is no behaviour of a program: it says that the step bound given to a loop of the
model was too small for it to tell what the program does. -/
inductive Outcome (α : Type) where
  | ok (value : α)
  | thrown (what : String)
  | undef
  | timeout

namespace Outcome

def bind : Outcome α → (α → Outcome β) → Outcome β
  | .ok a, f => f a
  | .thrown w, _ => .thrown w
  | .undef, _ => .undef
  | .timeout, _ => .timeout

def toOption : Outcome α → Option α
  | .ok a => some a
  | _ => none

@[simp] theorem bind_ok (a : α) (f : α → Outcome β) : (ok a).bind f = f a := rfl
@[simp] theorem bind_thrown (w : String) (f : α → Outcome β) :
    (thrown w : Outcome α).bind f = thrown w := rfl
@[simp] theorem bind_undef (f : α → Outcome β) : (undef : Outcome α).bind f = undef := rfl
@[simp] theorem bind_timeout (f : α → Outcome β) : (timeout : Outcome α).bind f = timeout := rfl

theorem bind_eq_ok {m : Outcome α} {f : α → Outcome β} {b : β} :
    m.bind f = ok b ↔ ∃ a, m = ok a ∧ f a = ok b := by
  cases m <;> simp [bind]

@[simp] theorem bind_ok_right (m : Outcome α) : m.bind ok = m := by
  cases m <;> rfl

theorem bind_assoc {γ : Type} (m : Outcome α) (f : α → Outcome β) (g : β → Outcome γ) :
    (m.bind f).bind g = m.bind fun a => (f a).bind g := by
  cases m <;> rfl

theorem bind_eq_timeout {m : Outcome α} {f : α → Outcome β} :
    m.bind f = timeout ↔ m = timeout ∨ ∃ a, m = ok a ∧ f a = timeout := by
  cases m <;> simp [bind]

/-- A larger step bound may only replace a timeout. -/
def Le (a b : Outcome α) : Prop := a = timeout ∨ a = b

theorem Le.refl (a : Outcome α) : Le a a := Or.inr rfl

theorem Le.trans {a b c : Outcome α} (hab : Le a b) (hbc : Le b c) : Le a c := by
  obtain rfl | rfl := hab
  · exact Or.inl rfl
  · exact hbc

theorem Le.ok {a b : Outcome α} {v : α} (h : Le a b) (ha : a = .ok v) : b = .ok v := by
  obtain h | h := h
  · rw [ha] at h
    cases h
  · rw [← h, ha]

theorem Le.timeout {a b : Outcome α} (h : Le a b) (hb : b = .timeout) : a = .timeout := by
  obtain h | h := h
  · exact h
  · exact h.trans hb

theorem Le.bind {m m' : Outcome α} {f f' : α → Outcome β} (hm : Le m m')
    (hf : ∀ a, Le (f a) (f' a)) : Le (m.bind f) (m'.bind f') := by
  obtain rfl | rfl := hm
  · exact Or.inl rfl
  · cases m with
    | ok a => exact hf a
    | thrown w => exact Or.inr rfl
    | undef => exact Or.inr rfl
    | timeout => exact Or.inl rfl

/-- Neither undefined nor cut off. -/
def Settled (m : Outcome α) : Prop := m ≠ undef ∧ m ≠ timeout

@[simp] theorem settled_ok (a : α) : (ok a).Settled := by simp [Settled]
@[simp] theorem settled_thrown (w : String) : (thrown w : Outcome α).Settled := by simp [Settled]

theorem Settled.bind {m : Outcome α} {f : α → Outcome β} (hm : m.Settled)
    (hf : ∀ a, m = .ok a → (f a).Settled) : (m.bind f).Settled := by
  cases m with
  | ok a => exact hf a rfl
  | thrown w => exact settled_thrown w
  | undef => exact absurd rfl hm.1
  | timeout => exact absurd rfl hm.2

theorem Settled.ite {c : Prop} [Decidable c] {m k : Outcome α} (hm : m.Settled)
    (hk : k.Settled) : (if c then m else k).Settled := by
  split
  · exact hm
  · exact hk

/-- Equal outcomes whose states are related, and none of them undefined. -/
inductive Rel (R : σ → τ → Prop) : Outcome (α × σ) → Outcome (α × τ) → Prop where
  | ok {a : α} {s : σ} {t : τ} (h : R s t) : Rel R (.ok (a, s)) (.ok (a, t))
  | thrown (w : String) : Rel R (.thrown w) (.thrown w)
  | timeout : Rel R .timeout .timeout

namespace Rel
variable {R : σ → τ → Prop} {m : Outcome (α × σ)} {m' : Outcome (α × τ)}

theorem ne_undef (h : Rel R m m') : m ≠ .undef := by
  cases h <;> simp

theorem timeout_iff (h : Rel R m m') : m = .timeout ↔ m' = .timeout := by
  cases h <;> simp

theorem of_ok {a : α} {t : τ} (h : Rel R m (.ok (a, t))) : ∃ s, m = .ok (a, s) ∧ R s t := by
  cases h with
  | ok hR => exact ⟨_, rfl, hR⟩

theorem of_thrown {w : String} (h : Rel R m (.thrown w)) : m = .thrown w := by
  cases h with
  | thrown => rfl

theorem symm (h : Rel R m m') : Rel (fun t s => R s t) m' m := by
  cases h with
  | ok hR => exact .ok hR
  | thrown w => exact .thrown w
  | timeout => exact .timeout

theorem to_ok {a : α} {s : σ} (h : Rel R (.ok (a, s)) m') : ∃ t, m' = .ok (a, t) ∧ R s t := by
  cases h with
  | ok hR => exact ⟨_, rfl, hR⟩

end Rel

/-- Outcomes of one kind whose values are related. -/
inductive Both {γ : Type} (R : α → γ → Prop) : Outcome α → Outcome γ → Prop
  | ok {a : α} {c : γ} (h : R a c) : Both R (.ok a) (.ok c)
  | thrown (w : String) : Both R (.thrown w) (.thrown w)
  | undef : Both R .undef .undef
  | timeout : Both R .timeout .timeout

namespace Both
variable {γ δ : Type} {R : α → γ → Prop}

theorem refl {R : α → α → Prop} (hR : ∀ a, R a a) (m : Outcome α) : Both R m m := by
  cases m with
  | ok a => exact .ok (hR a)
  | thrown w => exact .thrown w
  | undef => exact .undef
  | timeout => exact .timeout

theorem bind {S : β → δ → Prop} {m : Outcome α} {m' : Outcome γ} {f : α → Outcome β}
    {f' : γ → Outcome δ} (h : Both R m m') (hf : ∀ a c, R a c → Both S (f a) (f' c)) :
    Both S (m.bind f) (m'.bind f') := by
  cases h with
  | ok hR => exact hf _ _ hR
  | thrown w => exact .thrown w
  | undef => exact .undef
  | timeout => exact .timeout

theorem bind_left {S : β → γ → Prop} {m : Outcome α} {m' : Outcome γ} {f : α → Outcome β}
    (h : Both R m m') (hf : ∀ a c, R a c → Both S (f a) (.ok c)) : Both S (m.bind f) m' := by
  rw [← bind_ok_right m']
  exact h.bind hf

theorem mono {S : α → γ → Prop} {m : Outcome α} {m' : Outcome γ} (h : Both R m m')
    (hRS : ∀ a c, R a c → S a c) : Both S m m' := by
  cases h with
  | ok hR => exact .ok (hRS _ _ hR)
  | thrown w => exact .thrown w
  | undef => exact .undef
  | timeout => exact .timeout

theorem ite {c : Prop} [Decidable c] {m k : Outcome α} {m' k' : Outcome γ} (hm : Both R m m')
    (hk : Both R k k') : Both R (if c then m else k) (if c then m' else k') := by
  split
  · exact hm
  · exact hk

theorem to_ok {m' : Outcome γ} {a : α} (h : Both R (.ok a) m') : ∃ c, m' = .ok c ∧ R a c := by
  cases h with
  | ok hR => exact ⟨_, rfl, hR⟩

end Both

end Outcome

/-- The elements of a list handed over one after the other. -/
def feed (upd : α → β → Outcome β) : List α → β → Outcome β
  | [], p => .ok p
  | a :: as, p => (upd a p).bind (feed upd as)

@[simp] theorem feed_nil (upd : α → β → Outcome β) (p : β) : feed upd [] p = .ok p := rfl

theorem feed_cons (upd : α → β → Outcome β) (a : α) (as : List α) (p : β) :
    feed upd (a :: as) p = (upd a p).bind (feed upd as) := rfl

theorem feed_append (upd : α → β → Outcome β) (as bs : List α) (p : β) :
    feed upd (as ++ bs) p = (feed upd as p).bind (feed upd bs) := by
  induction as generalizing p with
  | nil => rfl
  | cons a as ih =>
    simp only [List.cons_append, feed_cons, Outcome.bind_assoc]
    cases upd a p with
    | ok q => exact ih q
    | thrown w => rfl
    | undef => rfl
    | timeout => rfl

/-- A program over the state `σ`. A throw drops the state: no caller in the source goes on
reading from a stream after one of its calls has thrown. -/
def Prog (σ α : Type) := σ → Outcome (α × σ)

instance : Monad (Prog σ) where
  pure a := fun s => .ok (a, s)
  bind m f := fun s => (m s).bind fun p => f p.1 p.2

namespace Prog

def raise (w : String) : Prog σ α := fun _ => .thrown w
def spent : Prog σ α := fun _ => .timeout
def lift (m : Outcome α) : Prog σ α := fun s => m.bind fun a => .ok (a, s)
def view (f : σ → Outcome α) : Prog σ α := fun s => (f s).bind fun a => .ok (a, s)
def modify (f : σ → σ) : Prog σ Unit := fun s => .ok ((), f s)

/-- A handler that replaces every exception by one of its own. -/
def rescue (m : Prog σ α) (w : String) : Prog σ α := fun s =>
  match m s with
  | .thrown _ => .thrown w
  | r => r

@[simp] theorem pure_apply (a : α) (s : σ) : (pure a : Prog σ α) s = .ok (a, s) := rfl
@[simp] theorem bind_apply (m : Prog σ α) (f : α → Prog σ β) (s : σ) :
    (m >>= f) s = (m s).bind fun p => f p.1 p.2 := rfl
@[simp] theorem raise_apply (w : String) (s : σ) : (raise w : Prog σ α) s = .thrown w := rfl
@[simp] theorem spent_apply (s : σ) : (spent : Prog σ α) s = .timeout := rfl
@[simp] theorem lift_apply (m : Outcome α) (s : σ) :
    (lift m : Prog σ α) s = m.bind fun a => .ok (a, s) := rfl
@[simp] theorem view_apply (f : σ → Outcome α) (s : σ) :
    view f s = (f s).bind fun a => .ok (a, s) := rfl
@[simp] theorem modify_apply (f : σ → σ) (s : σ) : modify f s = .ok ((), f s) := rfl

theorem bind_ok_iff {m : Prog σ α} {f : α → Prog σ β} {s t : σ} {b : β} :
    (m >>= f) s = .ok (b, t) ↔ ∃ a u, m s = .ok (a, u) ∧ f a u = .ok (b, t) := by
  simp [Outcome.bind_eq_ok]

theorem lift_bind_ok_iff {m : Outcome α} {f : α → Prog σ β} {s t : σ} {b : β} :
    (lift m >>= f) s = .ok (b, t) ↔ ∃ a, m = .ok a ∧ f a s = .ok (b, t) := by
  simp [Outcome.bind_assoc, Outcome.bind_eq_ok]

theorem rescue_ok_iff {m : Prog σ α} {w : String} {s : σ} {r : α × σ} :
    m.rescue w s = .ok r ↔ m s = .ok r := by
  unfold rescue
  cases m s <;> simp

theorem rescue_settled {m : Prog σ α} {w : String} {s : σ} (h : (m s).Settled) :
    (m.rescue w s).Settled := by
  unfold rescue
  cases hm : m s with
  | thrown _ => exact Outcome.settled_thrown w
  | ok r => exact Outcome.settled_ok r
  | undef => exact absurd hm h.1
  | timeout => exact absurd hm h.2

/-- `m` comes to an answer of its own in every state. -/
def Settles (m : Prog σ α) : Prop := ∀ s, (m s).Settled

theorem Settles.pure (a : α) : Settles (Pure.pure a : Prog σ α) := fun _ => Outcome.settled_ok _
theorem Settles.raise (w : String) : Settles (raise w : Prog σ α) :=
  fun _ => Outcome.settled_thrown w

theorem Settles.lift {m : Outcome α} (hm : m.Settled) : Settles (lift m : Prog σ α) :=
  fun _ => hm.bind fun _ _ => Outcome.settled_ok _

theorem Settles.bind {m : Prog σ α} {f : α → Prog σ β} (hm : Settles m)
    (hf : ∀ a, Settles (f a)) : Settles (m >>= f) :=
  fun s => (hm s).bind fun p _ => hf p.1 p.2

theorem Settles.ite {c : Prop} [Decidable c] {m k : Prog σ α} (hm : Settles m)
    (hk : Settles k) : Settles (if c then m else k) := by
  split
  · exact hm
  · exact hk

theorem Settles.rescue {m : Prog σ α} (hm : Settles m) (w : String) : Settles (m.rescue w) :=
  fun s => rescue_settled (hm s)

/-- `m'` does what `m` does wherever `m` is not cut off. -/
def Le (m m' : Prog σ α) : Prop := ∀ s, (m s).Le (m' s)

theorem Le.refl (m : Prog σ α) : Le m m := fun s => Outcome.Le.refl (m s)

theorem Le.trans {m m' m'' : Prog σ α} (h : Le m m') (h' : Le m' m'') : Le m m'' :=
  fun s => (h s).trans (h' s)

theorem Le.spent (m : Prog σ α) : Le spent m := fun _ => Or.inl rfl

theorem Le.bind {m m' : Prog σ α} {f f' : α → Prog σ β} (hm : Le m m')
    (hf : ∀ a, Le (f a) (f' a)) : Le (m >>= f) (m' >>= f') :=
  fun s => (hm s).bind fun p => hf p.1 p.2

theorem Le.ite {c : Prop} [Decidable c] {m m' k k' : Prog σ α} (hm : Le m m') (hk : Le k k') :
    Le (if c then m else k) (if c then m' else k') := by
  split
  · exact hm
  · exact hk

/-- What is true of neighbouring step bounds is true of any two. -/
theorem Le.of_step {m : Nat → Prog σ α} (h : ∀ n, Le (m n) (m (n + 1))) {n k : Nat}
    (hn : n ≤ k) : Le (m n) (m k) := by
  induction hn with
  | refl => exact .refl _
  | step _ ih => exact ih.trans (h _)

/-- Two programs over related states that return the same values, keep the relation and stay
clear of undefined behaviour. -/
def Sim (R : σ → τ → Prop) (m : Prog σ α) (m' : Prog τ α) : Prop :=
  ∀ s t, R s t → (m s).Rel R (m' t)

section
variable {R : σ → τ → Prop}

theorem Sim.pure (a : α) : Sim R (Pure.pure a) (Pure.pure a) := fun _ _ h => .ok h
theorem Sim.raise (w : String) : Sim R (raise w : Prog σ α) (Prog.raise w) := fun _ _ _ => .thrown w
theorem Sim.spent : Sim R (spent : Prog σ α) Prog.spent := fun _ _ _ => .timeout

theorem Sim.lift {m : Outcome α} (hm : m.Settled) : Sim R (lift m) (Prog.lift m) := by
  intro s t h
  cases m with
  | ok a => exact .ok h
  | thrown w => exact .thrown w
  | undef => exact absurd rfl hm.1
  | timeout => exact .timeout

theorem Sim.bind {m : Prog σ α} {m' : Prog τ α} {f : α → Prog σ β} {f' : α → Prog τ β}
    (hm : Sim R m m') (hf : ∀ a, Sim R (f a) (f' a)) : Sim R (m >>= f) (m' >>= f') := by
  intro s t h
  have hr := hm s t h
  simp only [bind_apply]
  generalize m s = x at hr
  generalize m' t = y at hr
  cases hr with
  | ok h' => exact hf _ _ _ h'
  | thrown w => exact .thrown w
  | timeout => exact .timeout

theorem Sim.rescue {m : Prog σ α} {m' : Prog τ α} (hm : Sim R m m') (w : String) :
    Sim R (m.rescue w) (m'.rescue w) := by
  intro s t h
  have hr := hm s t h
  unfold Prog.rescue
  generalize m s = x at hr
  generalize m' t = y at hr
  cases hr with
  | ok h' => exact .ok h'
  | thrown _ => exact .thrown w
  | timeout => exact .timeout

theorem Sim.ite {c : Prop} [Decidable c] {m k : Prog σ α} {m' k' : Prog τ α}
    (hm : Sim R m m') (hk : Sim R k k') :
    Sim R (if c then m else k) (if c then m' else k') := by
  split
  · exact hm
  · exact hk

/-- A stream that does as another one does what comes to an answer there. -/
theorem Sim.ok_iff {m : Prog σ β} {m' : Prog τ β} (h : Sim R m m')
    (hR : ∀ s t t', R s t → R s t' → t = t') {s : σ} {t t' : τ} {b : β}
    (hst : R s t) : (∃ s', m s = .ok (b, s') ∧ R s' t') ↔ m' t = .ok (b, t') := by
  have hrel := h s t hst
  constructor
  · intro hcase
    obtain ⟨s', hs, hR'⟩ := hcase
    rw [hs] at hrel
    obtain ⟨t₁, ht, hR₁⟩ := hrel.to_ok
    rw [ht, hR s' t₁ t' hR₁ hR']
  · intro ht
    rw [ht] at hrel
    obtain ⟨s', hs, hR'⟩ := hrel.of_ok
    exact ⟨s', hs, hR'⟩

/-- What such programs return. -/
theorem Sim.value {m : Prog σ α} {m' : Prog τ α} (h : Sim R m m') {s : σ} {t : τ} (hst : R s t) :
    ((m s).bind fun r => .ok r.1) = (m' t).bind fun r => .ok r.1 := by
  have hrel := h s t hst
  generalize m s = x at hrel
  generalize m' t = y at hrel
  cases hrel <;> rfl

/-- The first does what the second does wherever the second is defined. -/
def Refines (R : σ → τ → Prop) (m : Prog σ α) (m' : Prog τ α) : Prop :=
  ∀ s t, R s t → m' t = .undef ∨ (m s).Rel R (m' t)

theorem Refines.of_sim {m : Prog σ α} {m' : Prog τ α} (h : Sim R m m') : Refines R m m' :=
  fun s t hst => Or.inr (h s t hst)

theorem Refines.pure (a : α) : Refines R (Pure.pure a) (Pure.pure a) := .of_sim (.pure a)
theorem Refines.raise (w : String) : Refines R (raise w : Prog σ α) (Prog.raise w) :=
  .of_sim (.raise w)
theorem Refines.spent : Refines R (spent : Prog σ α) Prog.spent := .of_sim .spent

theorem Refines.lift (m : Outcome α) : Refines R (lift m) (Prog.lift m) := by
  intro s t h
  cases m with
  | ok a => exact Or.inr (.ok h)
  | thrown w => exact Or.inr (.thrown w)
  | undef => exact Or.inl rfl
  | timeout => exact Or.inr .timeout

theorem Refines.bind {m : Prog σ α} {m' : Prog τ α} {f : α → Prog σ β} {f' : α → Prog τ β}
    (hm : Refines R m m') (hf : ∀ a, Refines R (f a) (f' a)) :
    Refines R (m >>= f) (m' >>= f') := by
  intro s t h
  obtain hu | hr := hm s t h
  · exact Or.inl (by simp [hu])
  simp only [bind_apply]
  generalize m s = x at hr
  generalize m' t = y at hr
  cases hr with
  | ok h' => exact hf _ _ _ h'
  | thrown w => exact Or.inr (.thrown w)
  | timeout => exact Or.inr .timeout

theorem Refines.ite {c : Prop} [Decidable c] {m k : Prog σ α} {m' k' : Prog τ α}
    (hm : Refines R m m') (hk : Refines R k k') :
    Refines R (if c then m else k) (if c then m' else k') := by
  split
  · exact hm
  · exact hk

end
end Prog
end WylesLibs.Library
