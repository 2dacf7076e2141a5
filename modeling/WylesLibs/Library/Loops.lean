import WylesLibs.Library.Outcome

/-! Loops that count upwards, and loops that go on until they leave. Independent of any particular
program. -/
namespace WylesLibs.Library
variable {σ α : Type}

/-- `for (i = first; ...; i++)` with `count` turns. -/
def forCount (turn : Nat → σ → Outcome σ) : Nat → Nat → σ → Outcome σ
  | _, 0, s => .ok s
  | i, count + 1, s => (turn i s).bind (forCount turn (i + 1) count)

section
variable {turn : Nat → σ → Outcome σ}

@[simp] theorem forCount_zero (i : Nat) (s : σ) : forCount turn i 0 s = .ok s := rfl

/-- An invariant that each turn keeps, and with which each turn is defined. -/
theorem forCount_ok {I : Nat → σ → Prop} {count i : Nat} {s : σ}
    (hturn : ∀ k s, i ≤ k → k < i + count → I k s → ∃ t, turn k s = .ok t ∧ I (k + 1) t)
    (hs : I i s) : ∃ t, forCount turn i count s = .ok t ∧ I (i + count) t := by
  induction count generalizing i s with
  | zero => exact ⟨s, rfl, hs⟩
  | succ count ih =>
    obtain ⟨t, ht, hi⟩ := hturn i s le_rfl (by omega) hs
    obtain ⟨u, hu, hi'⟩ := ih (fun k s hk hlt => hturn k s (by omega) (by omega)) hi
    refine ⟨u, by rw [forCount, ht, Outcome.bind_ok, hu], ?_⟩
    rwa [Nat.add_right_comm] at hi'

end

/-- A loop of at most `fuel` turns. A turn goes on from a new state, or leaves with a result. -/
def whileLoop (turn : σ → Outcome (σ ⊕ α)) : Nat → σ → Outcome α
  | 0, _ => .timeout
  | fuel + 1, s => (turn s).bind fun
      | .inl t => whileLoop turn fuel t
      | .inr a => .ok a

/-- The loop leaves with `a`, after some number of turns. -/
def LeavesWith (turn : σ → Outcome (σ ⊕ α)) (s : σ) (a : α) : Prop :=
  ∃ fuel, whileLoop turn fuel s = .ok a

section
variable {turn : σ → Outcome (σ ⊕ α)} {s t : σ} {a b : α}

theorem leavesWith_iff :
    LeavesWith turn s a ↔
      turn s = .ok (.inr a) ∨ ∃ t, turn s = .ok (.inl t) ∧ LeavesWith turn t a := by
  constructor
  · intro hcase
    obtain ⟨fuel, hfuel⟩ := hcase
    cases fuel with
    | zero => cases hfuel
    | succ fuel =>
      rw [whileLoop, Outcome.bind_eq_ok] at hfuel
      obtain ⟨r, hr, hleft⟩ := hfuel
      cases r with
      | inl t => exact Or.inr ⟨t, hr, fuel, hleft⟩
      | inr b =>
        obtain rfl : b = a := Outcome.ok.inj hleft
        exact Or.inl hr
  · intro h
    cases h with
    | inl hleave => exact ⟨1, by rw [whileLoop, hleave, Outcome.bind_ok]⟩
    | inr hnext =>
      obtain ⟨t, ht, fuel, hfuel⟩ := hnext
      refine ⟨fuel + 1, ?_⟩
      rw [whileLoop, ht, Outcome.bind_ok]
      exact hfuel

theorem leavesWith_of_next (h : turn s = .ok (.inl t)) :
    LeavesWith turn s a ↔ LeavesWith turn t a := by
  rw [leavesWith_iff, h]
  simp

theorem leavesWith_of_leave (h : turn s = .ok (.inr b)) : LeavesWith turn s a ↔ a = b := by
  rw [leavesWith_iff, h]
  simp [eq_comm]

theorem not_leavesWith_of_undef (h : turn s = .undef) : ¬ LeavesWith turn s a := by
  rw [leavesWith_iff, h]
  simp

/-- An invariant of the turns, and what it says of a turn that leaves. -/
theorem LeavesWith.invariant {I : σ → Prop} {Q : α → Prop}
    (hturn : ∀ s next, I s → turn s = .ok next → next.elim I Q) (h : LeavesWith turn s a)
    (hs : I s) : Q a := by
  obtain ⟨fuel, hfuel⟩ := h
  induction fuel generalizing s with
  | zero => cases hfuel
  | succ fuel ih =>
    rw [whileLoop, Outcome.bind_eq_ok] at hfuel
    obtain ⟨r, hr, hleft⟩ := hfuel
    cases r with
    | inl t => exact ih (hturn s (.inl t) hs hr) hleft
    | inr b =>
      obtain rfl : b = a := Outcome.ok.inj hleft
      exact hturn s (.inr b) hs hr

/-- A loop that goes on whenever it is in a set of states never leaves from there. -/
theorem not_leavesWith {I : σ → Prop} (hnext : ∀ s, I s → ∃ t, turn s = .ok (.inl t) ∧ I t)
    (hs : I s) : ¬ LeavesWith turn s a := by
  intro h
  apply h.invariant (I := I) (Q := fun _ => False) _ hs
  intro s next hI hturn
  obtain ⟨t, ht, hI'⟩ := hnext s hI
  obtain rfl : .inl t = next := Outcome.ok.inj (ht.symm.trans hturn)
  exact hI'

end
end WylesLibs.Library
