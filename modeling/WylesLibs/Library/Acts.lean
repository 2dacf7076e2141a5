import WylesLibs.Library.Outcome
import WylesLibs.Library.Runs

/-! Programs that leave marks of what they do, and a monitor that follows the marks. A throw keeps
the marks and the state. Independent of any particular program. -/
namespace WylesLibs.Library
variable {σ ε π α β : Type}

structure Trace (σ ε α : Type) where
  events : List ε
  outcome : Outcome α
  state : σ

def Act (σ ε α : Type) := σ → Trace σ ε α

namespace Act

/-- What was done before comes first. -/
def behind (events : List ε) (t : Trace σ ε α) : Trace σ ε α :=
  { t with events := events ++ t.events }

def andThen (t : Trace σ ε α) (f : α → Act σ ε β) : Trace σ ε β :=
  match t.outcome with
  | .ok a => behind t.events (f a t.state)
  | .thrown w => ⟨t.events, .thrown w, t.state⟩
  | .undef => ⟨t.events, .undef, t.state⟩
  | .timeout => ⟨t.events, .timeout, t.state⟩

instance monad : Monad (Act σ ε) where
  pure a := fun s => ⟨[], .ok a, s⟩
  bind m f := fun s => andThen (m s) f

def emit (e : ε) : Act σ ε Unit := fun s => ⟨[e], .ok (), s⟩
def lift (m : Outcome α) : Act σ ε α := fun s => ⟨[], m, s⟩
def raise (w : String) : Act σ ε α := lift (.thrown w)
def change (f : σ → α × σ) : Act σ ε α := fun s => ⟨[], .ok (f s).1, (f s).2⟩

def rescued (t : Trace σ ε α) (handler : Act σ ε α) : Trace σ ε α :=
  match t.outcome with
  | .thrown _ => behind t.events (handler t.state)
  | _ => t

/-- `try` with a handler for every exception. -/
def handle (m handler : Act σ ε α) : Act σ ε α := fun s => rescued (m s) handler

/-- What holds of the monitor and the state when a program returns, when it throws, and when nothing
more can be said of it. -/
structure Post (π σ α : Type) where
  ok : π → α → σ → Prop
  thrown : π → σ → Prop
  stuck : π → σ → Prop

def Post.at (P : Post π σ α) (p : π) (s : σ) : Outcome α → Prop
  | .ok a => P.ok p a s
  | .thrown _ => P.thrown p s
  | .undef | .timeout => P.stuck p s

/-- The monitor follows all that is done, from `p` on. -/
def Ensures (monitor : π → ε → Option π) (m : Act σ ε α) (s : σ) (p : π) (P : Post π σ α) : Prop :=
  ∃ q, run monitor p (m s).events = some q ∧ P.at q (m s).state (m s).outcome

section
variable {monitor : π → ε → Option π} {P Q : Post π σ α} {R : Post π σ β}
  {m handler : Act σ ε α} {f : α → Act σ ε β} {s : σ} {p : π}

theorem Ensures.mono (h : Ensures monitor m s p P) (hok : ∀ q a t, P.ok q a t → Q.ok q a t)
    (hthrown : ∀ q t, P.thrown q t → Q.thrown q t)
    (hstuck : ∀ q t, P.stuck q t → Q.stuck q t) : Ensures monitor m s p Q := by
  obtain ⟨q, hrun, h⟩ := h
  refine ⟨q, hrun, ?_⟩
  cases ho : (m s).outcome with
  | ok a => exact hok q a _ (by rwa [ho] at h)
  | thrown w => exact hthrown q _ (by rwa [ho] at h)
  | undef => exact hstuck q _ (by rwa [ho] at h)
  | timeout => exact hstuck q _ (by rwa [ho] at h)

theorem Ensures.pure {a : α} (h : P.ok p a s) : Ensures monitor (Pure.pure a) s p P :=
  ⟨p, rfl, h⟩

theorem Ensures.raise {w : String} (h : P.thrown p s) : Ensures monitor (Act.raise w) s p P :=
  ⟨p, rfl, h⟩

theorem Ensures.change {g : σ → α × σ} (h : P.ok p (g s).1 (g s).2) :
    Ensures monitor (Act.change g) s p P :=
  ⟨p, rfl, h⟩

theorem Ensures.emit {e : ε} {q : π} {P : Post π σ Unit} (hstep : monitor p e = some q)
    (h : P.ok q () s) : Ensures monitor (Act.emit e) s p P := by
  refine ⟨q, ?_, h⟩
  simp [Act.emit, run_cons, hstep]

theorem Ensures.lift {o : Outcome α} (hok : ∀ a, o = .ok a → P.ok p a s)
    (hthrown : P.thrown p s) (hstuck : P.stuck p s) : Ensures monitor (Act.lift o) s p P := by
  refine ⟨p, rfl, ?_⟩
  cases o with
  | ok a => exact hok a rfl
  | thrown w => exact hthrown
  | undef => exact hstuck
  | timeout => exact hstuck

theorem run_behind {es es' : List ε} {q r : π} (hes : run monitor p es = some q)
    (hes' : run monitor q es' = some r) : run monitor p (es ++ es') = some r := by
  rw [run_append, hes, Option.bind_some, hes']

/-- What comes behind a program goes on from where it returned. -/
theorem Ensures.bind (h : Ensures monitor m s p
      ⟨fun q a t => Ensures monitor (f a) t q R, R.thrown, R.stuck⟩) :
    Ensures monitor (m >>= f) s p R := by
  obtain ⟨q, hrun, h⟩ := h
  have hbind : (m >>= f) s = andThen (m s) f := rfl
  rw [Ensures, hbind]
  generalize m s = t at hrun h ⊢
  obtain ⟨es, outcome, u⟩ := t
  cases outcome with
  | ok a =>
    obtain ⟨r, hnext, hR⟩ := h
    exact ⟨r, run_behind hrun hnext, hR⟩
  | thrown w => exact ⟨q, hrun, h⟩
  | undef => exact ⟨q, hrun, h⟩
  | timeout => exact ⟨q, hrun, h⟩

/-- The handler goes on from where the exception was thrown. -/
theorem Ensures.handle (h : Ensures monitor m s p
      ⟨P.ok, fun q t => Ensures monitor handler t q P, P.stuck⟩) :
    Ensures monitor (m.handle handler) s p P := by
  obtain ⟨q, hrun, h⟩ := h
  have hhandle : (m.handle handler) s = rescued (m s) handler := rfl
  rw [Ensures, hhandle]
  generalize m s = t at hrun h ⊢
  obtain ⟨es, outcome, u⟩ := t
  cases outcome with
  | ok a => exact ⟨q, hrun, h⟩
  | thrown w =>
    obtain ⟨r, hnext, hP⟩ := h
    exact ⟨r, run_behind hrun hnext, hP⟩
  | undef => exact ⟨q, hrun, h⟩
  | timeout => exact ⟨q, hrun, h⟩

theorem Ensures.ite {c : Prop} [Decidable c] {m' : Act σ ε α}
    (hm : c → Ensures monitor m s p P) (hm' : ¬ c → Ensures monitor m' s p P) :
    Ensures monitor (if c then m else m') s p P := by
  split
  · next hc => exact hm hc
  · next hc => exact hm' hc

end

section
variable {m handler : Act σ ε α} {f : α → Act σ ε β} {s : σ} {e : ε}

theorem mem_bind_left (he : e ∈ (m s).events) : e ∈ ((m >>= f) s).events := by
  have hbind : (m >>= f) s = andThen (m s) f := rfl
  rw [hbind, andThen]
  cases (m s).outcome with
  | ok a => exact List.mem_append_left _ he
  | thrown w => exact he
  | undef => exact he
  | timeout => exact he

theorem mem_bind_right {a : α} (ha : (m s).outcome = .ok a) (he : e ∈ (f a (m s).state).events) :
    e ∈ ((m >>= f) s).events := by
  have hbind : (m >>= f) s = andThen (m s) f := rfl
  rw [hbind, andThen, ha]
  exact List.mem_append_right _ he

theorem mem_handle (he : e ∈ (m s).events) : e ∈ ((m.handle handler) s).events := by
  have hhandle : (m.handle handler) s = rescued (m s) handler := rfl
  rw [hhandle, rescued]
  cases (m s).outcome with
  | ok a => exact he
  | thrown w => exact List.mem_append_left _ he
  | undef => exact he
  | timeout => exact he

end

/-! Programs that do not tell some states from others, and leave only some of the marks. -/

/-- What is left and come to is the same, and the states are alike. -/
structure Trace.Alike (R : σ → σ → Prop) (allowed : ε → Prop) (t t' : Trace σ ε α) : Prop where
  events : t.events = t'.events
  allowed : ∀ e ∈ t.events, allowed e
  outcome : t.outcome = t'.outcome
  state : R t.state t'.state

def Blind (R : σ → σ → Prop) (allowed : ε → Prop) (m : Act σ ε α) : Prop :=
  ∀ s s', R s s' → Trace.Alike R allowed (m s) (m s')

section
variable {R : σ → σ → Prop} {allowed : ε → Prop} {m handler : Act σ ε α} {f : α → Act σ ε β}

theorem Trace.Alike.of_nil {o : Outcome α} {s s' : σ} (hs : R s s') :
    Trace.Alike R allowed ⟨[], o, s⟩ ⟨[], o, s'⟩ :=
  ⟨rfl, by simp, rfl, hs⟩

theorem Trace.Alike.behind {t t' : Trace σ ε α} (h : Trace.Alike R allowed t t') {events : List ε}
    (hevents : ∀ e ∈ events, allowed e) :
    Trace.Alike R allowed (Act.behind events t) (Act.behind events t') where
  events := congrArg (events ++ ·) h.events
  allowed := List.forall_mem_append.mpr ⟨hevents, h.allowed⟩
  outcome := h.outcome
  state := h.state

theorem Blind.pure (a : α) : Blind R allowed (Pure.pure a) := fun _ _ hs => .of_nil hs

theorem Blind.lift (o : Outcome α) : Blind R allowed (Act.lift o) := fun _ _ hs => .of_nil hs

theorem Blind.emit {e : ε} (he : allowed e) : Blind R allowed (Act.emit e) :=
  fun _ _ hs => ⟨rfl, List.forall_mem_singleton.mpr he, rfl, hs⟩

theorem Blind.change {g : σ → α × σ}
    (hg : ∀ s s', R s s' → (g s).1 = (g s').1 ∧ R (g s).2 (g s').2) :
    Blind R allowed (Act.change g) := by
  intro s s' hs
  obtain ⟨hvalue, hstate⟩ := hg s s' hs
  exact ⟨rfl, by simp [Act.change], congrArg Outcome.ok hvalue, hstate⟩

theorem Blind.bind (hm : Blind R allowed m)
    (hf : ∀ s s' a, R s s' → (m s).outcome = .ok a → Blind R allowed (f a)) :
    Blind R allowed (m >>= f) := by
  intro s s' hs
  have hbind : ∀ s, (m >>= f) s = andThen (m s) f := fun _ => rfl
  obtain ⟨hevents, hallowed, houtcome, hstate⟩ := hm s s' hs
  have hnext := fun a => hf s s' a hs
  simp only [hbind]
  generalize m s = t at hevents hallowed houtcome hstate hnext ⊢
  generalize m s' = t' at hevents houtcome hstate ⊢
  obtain ⟨es, outcome, u⟩ := t
  obtain ⟨es', outcome', u'⟩ := t'
  obtain rfl : es = es' := hevents
  obtain rfl : outcome = outcome' := houtcome
  cases outcome with
  | ok a => exact (hnext a rfl u u' hstate).behind hallowed
  | thrown w => exact ⟨rfl, hallowed, rfl, hstate⟩
  | undef => exact ⟨rfl, hallowed, rfl, hstate⟩
  | timeout => exact ⟨rfl, hallowed, rfl, hstate⟩

theorem Blind.then (hm : Blind R allowed m) (hf : ∀ a, Blind R allowed (f a)) :
    Blind R allowed (m >>= f) :=
  hm.bind fun _ _ a _ _ => hf a

theorem Blind.handle (hm : Blind R allowed m) (hhandler : Blind R allowed handler) :
    Blind R allowed (m.handle handler) := by
  intro s s' hs
  have hhandle : ∀ s, (m.handle handler) s = rescued (m s) handler := fun _ => rfl
  obtain ⟨hevents, hallowed, houtcome, hstate⟩ := hm s s' hs
  simp only [hhandle]
  generalize m s = t at hevents hallowed houtcome hstate ⊢
  generalize m s' = t' at hevents houtcome hstate ⊢
  obtain ⟨es, outcome, u⟩ := t
  obtain ⟨es', outcome', u'⟩ := t'
  obtain rfl : es = es' := hevents
  obtain rfl : outcome = outcome' := houtcome
  cases outcome with
  | ok a => exact ⟨rfl, hallowed, rfl, hstate⟩
  | thrown w => exact (hhandler u u' hstate).behind hallowed
  | undef => exact ⟨rfl, hallowed, rfl, hstate⟩
  | timeout => exact ⟨rfl, hallowed, rfl, hstate⟩

theorem Blind.ite {c : Prop} [Decidable c] {m' : Act σ ε α} (hm : c → Blind R allowed m)
    (hm' : ¬ c → Blind R allowed m') : Blind R allowed (if c then m else m') := by
  split
  · next hc => exact hm hc
  · next hc => exact hm' hc

end

end Act
end WylesLibs.Library
