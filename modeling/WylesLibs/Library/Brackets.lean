import Mathlib

/-! Words of brackets of several kinds, and the stack that tells the balanced ones. Independent
of any particular alphabet. -/
namespace WylesLibs.Library
variable {κ : Type}

inductive Bracket (κ : Type) where
  | opening (k : κ)
  | closing (k : κ)
  deriving DecidableEq

namespace Bracket

/-- Each bracket is closed by one of its kind, properly nested. -/
inductive Balanced : List (Bracket κ) → Prop where
  | nil : Balanced []
  | nest (k : κ) {w u : List (Bracket κ)} (hw : Balanced w) (hu : Balanced u) :
      Balanced (opening k :: (w ++ closing k :: u))

/-- A matched pair may be put anywhere. -/
theorem Balanced.insert {w : List (Bracket κ)} (h : Balanced w) (k : κ) {a b : List (Bracket κ)}
    (hw : w = a ++ b) : Balanced (a ++ opening k :: closing k :: b) := by
  induction h generalizing a b with
  | nil =>
    obtain ⟨rfl, rfl⟩ := List.append_eq_nil_iff.mp hw.symm
    exact .nest k .nil .nil
  | @nest j w u hwb hub ihw ihu =>
    cases a with
    | nil =>
      obtain rfl := hw
      exact .nest k .nil (.nest j hwb hub)
    | cons c a =>
      obtain ⟨rfl, hsplit⟩ := List.cons.inj hw
      obtain ⟨m, rfl, hm⟩ | ⟨m, rfl, rfl⟩ := List.append_eq_append_iff.mp hsplit
      · cases m with
        | nil =>
          -- right behind the inner word
          obtain rfl := hm
          have hinner := ihw (a := w) (b := []) (by simp)
          simpa using Balanced.nest j hinner hub
        | cons d m =>
          obtain ⟨rfl, rfl⟩ := List.cons.inj hm
          simpa using Balanced.nest j hwb (ihu rfl)
      · simpa using Balanced.nest j (ihw rfl) hub

section
variable [DecidableEq κ]

/-- What is still open behind a word, where `st` was open in front of it: the innermost first. -/
def stack : List κ → List (Bracket κ) → Option (List κ)
  | st, [] => some st
  | st, opening k :: w => stack (k :: st) w
  | [], closing _ :: _ => none
  | j :: st, closing k :: w => if j = k then stack st w else none

@[simp] theorem stack_nil (st : List κ) : stack st [] = some st := by
  cases st <;> rfl

@[simp] theorem stack_opening (st : List κ) (k : κ) (w : List (Bracket κ)) :
    stack st (opening k :: w) = stack (k :: st) w := by
  cases st <;> rfl

@[simp] theorem stack_closing (st : List κ) (j k : κ) (w : List (Bracket κ)) :
    stack (j :: st) (closing k :: w) = if j = k then stack st w else none := rfl

theorem stack_append (w u : List (Bracket κ)) (st : List κ) :
    stack st (w ++ u) = (stack st w).bind fun st => stack st u := by
  induction w generalizing st with
  | nil => simp
  | cons b w ih =>
    cases b with
    | opening k => simpa using ih (k :: st)
    | closing k =>
      cases st with
      | nil => rfl
      | cons j st =>
        by_cases hk : j = k
        · simpa [hk] using ih st
        · simp [hk]

theorem Balanced.stack_eq {w : List (Bracket κ)} (h : Balanced w) (st : List κ) :
    stack st w = some st := by
  induction h generalizing st with
  | nil => simp
  | nest k _ _ ihw ihu => simp [stack_append, ihw, ihu]

/-- The brackets that a word leaves nothing of are those that were open in front of it. -/
theorem balanced_of_stack {w : List (Bracket κ)} {st : List κ} (h : stack st w = some []) :
    Balanced (st.reverse.map opening ++ w) := by
  induction w generalizing st with
  | nil =>
    obtain rfl : st = [] := by simpa using h
    exact .nil
  | cons b w ih =>
    cases b with
    | opening k =>
      have hrest := ih (by simpa using h)
      simpa using hrest
    | closing k =>
      cases st with
      | nil => cases h
      | cons j st =>
        rw [stack_closing] at h
        split at h
        · rename_i hk
          subst hk
          have hrest := (ih h).insert j rfl
          simpa using hrest
        · cases h

theorem balanced_iff_stack (w : List (Bracket κ)) : Balanced w ↔ stack [] w = some [] :=
  ⟨fun h => h.stack_eq [], fun h => balanced_of_stack h⟩

instance (w : List (Bracket κ)) : Decidable (Balanced w) :=
  decidable_of_iff _ (balanced_iff_stack w).symm

/-- A word that closes nothing of the kind `j` does not get at an open `j`. -/
theorem stack_above {j : κ} {w : List (Bracket κ)} (hw : closing j ∉ w) (top st : List κ) :
    stack (top ++ j :: st) w = (stack top w).map (· ++ j :: st) := by
  induction w generalizing top with
  | nil => simp
  | cons b w ih =>
    rw [List.mem_cons, not_or] at hw
    cases b with
    | opening k => simpa using ih hw.2 (k :: top)
    | closing k =>
      cases top with
      | nil =>
        have hne : j ≠ k := fun h => hw.1 (h ▸ rfl)
        simp [stack, hne]
      | cons i top =>
        rw [List.cons_append, stack_closing, stack_closing]
        split
        · exact ih hw.2 top
        · rfl

theorem not_mem_of_stack {j : κ} {w : List (Bracket κ)} {st st' : List κ}
    (hw : opening j ∉ w) (hst : j ∉ st) (h : stack st w = some st') : j ∉ st' := by
  induction w generalizing st with
  | nil =>
    obtain rfl : st = st' := by simpa using h
    exact hst
  | cons b w ih =>
    rw [List.mem_cons, not_or] at hw
    cases b with
    | opening k =>
      have hne : j ≠ k := fun h => hw.1 (h ▸ rfl)
      have hmem : j ∉ k :: st := by simp [hne, hst]
      exact ih hw.2 hmem (by simpa using h)
    | closing k =>
      cases st with
      | nil => cases h
      | cons i st =>
        rw [stack_closing] at h
        split at h
        · exact ih hw.2 (fun hmem => hst (List.mem_cons_of_mem i hmem)) h
        · cases h

/-! Openings of a kind over closings of it. -/

def net (k : κ) (w : List (Bracket κ)) : ℤ := w.count (opening k) - w.count (closing k)

@[simp] theorem net_nil (k : κ) : net k [] = 0 := rfl

@[simp] theorem net_append (k : κ) (w u : List (Bracket κ)) : net k (w ++ u) = net k w + net k u := by
  simp only [net, List.count_append, Nat.cast_add]
  ring

theorem Balanced.net_eq_zero {w : List (Bracket κ)} (h : Balanced w) (k : κ) : net k w = 0 := by
  induction h with
  | nil => rfl
  | @nest j w u _ _ ihw ihu =>
    have hsplit : opening j :: (w ++ closing j :: u) = [opening j] ++ w ++ [closing j] ++ u := by simp
    have hpair : net k [opening j] + net k [closing j] = 0 := by
      by_cases hk : j = k <;> simp [net, hk]
    rw [hsplit, net_append, net_append, net_append]
    omega

theorem net_eq_count {k : κ} {w : List (Bracket κ)} (hw : closing k ∉ w) :
    net k w = w.count (opening k) := by
  rw [net, List.count_eq_zero_of_not_mem hw, Nat.cast_zero, sub_zero]

/-- The word leads from one stack to another if `P` holds, and nowhere if it does not. -/
def Leads (P : Prop) (st st' : List κ) (w : List (Bracket κ)) : Prop :=
  (P → stack st w = some st') ∧ (¬ P → stack st w = none)

theorem Leads.append {P Q : Prop} {st st' st'' : List κ} {w u : List (Bracket κ)}
    (hw : Leads P st st' w) (hu : Leads Q st' st'' u) : Leads (P ∧ Q) st st'' (w ++ u) := by
  by_cases hP : P
  · refine ⟨fun h => ?_, fun h => ?_⟩
    · rw [stack_append, hw.1 hP, Option.bind_some, hu.1 h.2]
    · rw [stack_append, hw.1 hP, Option.bind_some, hu.2 fun hQ => h ⟨hP, hQ⟩]
  · exact ⟨fun h => absurd h.1 hP, fun _ => by rw [stack_append, hw.2 hP, Option.bind_none]⟩

/-- Behind a word that leads on. -/
theorem Leads.behind {P : Prop} {st st' st'' : List κ} {w u : List (Bracket κ)}
    (h : stack st w = some st') (hu : Leads P st' st'' u) : Leads P st st'' (w ++ u) := by
  rw [Leads, stack_append, h, Option.bind_some]
  exact hu

/-- Behind a word that leads nowhere. -/
theorem leads_lost {st st' : List κ} {w : List (Bracket κ)} (h : stack st w = none)
    (u : List (Bracket κ)) : Leads False st st' (w ++ u) := by
  refine ⟨False.elim, fun _ => ?_⟩
  rw [stack_append, h, Option.bind_none]

theorem Leads.of_iff {P Q : Prop} {st st' : List κ} {w : List (Bracket κ)} (h : Leads P st st' w)
    (hPQ : P ↔ Q) : Leads Q st st' w := by
  rw [Leads, ← hPQ]
  exact h

theorem leads_nil (st : List κ) : Leads True st st [] := by simp [Leads]

theorem Leads.opening {P : Prop} {st st' : List κ} {k : κ} {w : List (Bracket κ)}
    (h : Leads P (k :: st) st' w) : Leads P st st' (opening k :: w) := by
  simpa [Leads] using h

theorem leads_closing (st : List κ) (k : κ) : Leads True (k :: st) st [closing k] := by
  simp [Leads]

theorem leads_mismatch {st st' : List κ} {j k : κ} (hjk : j ≠ k) (w : List (Bracket κ)) :
    Leads False (j :: st) st' (closing k :: w) := by
  simp [Leads, hjk]

theorem Leads.balanced_iff {P : Prop} {w : List (Bracket κ)} (h : Leads P [] [] w) :
    Balanced w ↔ P := by
  rw [balanced_iff_stack]
  by_cases hP : P
  · simp [h.1 hP, hP]
  · simp [h.2 hP, hP]

end
end Bracket
end WylesLibs.Library
