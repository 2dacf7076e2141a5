import WylesLibs.Library.Runs

/-! Runs that never end, and what is found along a run. A run settles once nothing is left to do
for any of its parties, however they are scheduled. Independent of any particular machine. -/
namespace WylesLibs.Library
variable {σ ι κ : Type} {step : σ → ι → Option σ}

/-! What the steps of a run leave in a list. -/

/-- What `f` makes of the steps of the run of `as` from `s`, in order of time. -/
def gathered (step : σ → ι → Option σ) (f : σ → ι → Option κ) : σ → List ι → List κ
  | _, [] => []
  | s, a :: as => (f s a).toList ++
    match step s a with
    | none => []
    | some t => gathered step f t as

/-- An invariant that speaks of the state and of all that was gathered before it. -/
theorem invariant_of_gathered {f : σ → ι → Option κ} {I : List κ → σ → Prop} {P : σ → ι → Prop}
    (hstep : ∀ found s a t, I found s → P s a → step s a = some t → I (found ++ (f s a).toList) t)
    {as : List ι} {found : List κ} {s u : σ} (hs : I found s) (ha : Along step P s as)
    (hr : run step s as = some u) : I (found ++ gathered step f s as) u := by
  induction as generalizing found s with
  | nil =>
    obtain rfl : s = u := by simpa using hr
    simpa [gathered] using hs
  | cons a as ih =>
    rw [run_cons, Option.bind_eq_some_iff] at hr
    obtain ⟨t, ht, hr⟩ := hr
    have hrest := ih (hstep found s a t hs ha.1 ht) (ha.2 t ht) hr
    simpa [gathered, ht] using hrest

/-! Endless runs. -/

structure Endless (step : σ → ι → Option σ) where
  state : Nat → σ
  input : Nat → ι
  next : ∀ i, step (state i) (input i) = some (state (i + 1))

namespace Endless
variable {e : Endless step}

/-- The inputs of the first `n` steps. -/
def inputs (e : Endless step) (n : Nat) : List ι := (List.range n).map e.input

theorem run_inputs (e : Endless step) (n : Nat) :
    run step (e.state 0) (e.inputs n) = some (e.state n) := by
  induction n with
  | zero => rfl
  | succ n ih =>
    have hlast : e.inputs (n + 1) = e.inputs n ++ [e.input n] := by
      simp [inputs, List.range_succ]
    rw [hlast, run_append, ih, Option.bind_some, run_cons, e.next n]
    rfl

/-- A run that is cut off goes on with an input that changes nothing. -/
def ofRun {s u : σ} {as : List ι} {idle : ι} (hr : run step s as = some u)
    (hidle : step u idle = some u) : Endless step where
  state i := (run step s (as.take i)).getD u
  input i := as.getD i idle
  next i := by
    obtain hi | hi := Nat.lt_or_ge i as.length
    · obtain ⟨t, ht⟩ : ∃ t, run step s (as.take (i + 1)) = some t := by
        rw [← List.take_append_drop (i + 1) as, run_append, Option.bind_eq_some_iff] at hr
        obtain ⟨t, ht, -⟩ := hr
        exact ⟨t, ht⟩
      have hlast := ht
      rw [List.take_succ_eq_append_getElem hi, run_append, Option.bind_eq_some_iff] at hlast
      obtain ⟨v, hv, hlast⟩ := hlast
      rw [run_cons, Option.bind_eq_some_iff] at hlast
      obtain ⟨t', ht', hnil⟩ := hlast
      obtain rfl : t' = t := by simpa using hnil
      simpa [hv, ht, hi] using ht'
    · have hdone : as.getD i idle = idle := List.getD_eq_default _ _ hi
      rw [hdone, List.take_of_length_le hi, List.take_of_length_le (by omega), hr]
      exact hidle

section
variable {s u : σ} {as : List ι} {idle : ι} (hr : run step s as = some u)
  (hidle : step u idle = some u)

@[simp] theorem ofRun_start : (ofRun hr hidle).state 0 = s := by simp [ofRun]

theorem ofRun_end {i : Nat} (hi : as.length ≤ i) : (ofRun hr hidle).state i = u := by
  simp [ofRun, List.take_of_length_le hi, hr]

@[simp] theorem ofRun_input (i : Nat) : (ofRun hr hidle).input i = as.getD i idle := rfl

end

/-- What no step makes greater is the same from some step on. -/
theorem eventually_constant {μ : σ → Nat} {m : Nat}
    (hle : ∀ i ≥ m, μ (e.state (i + 1)) ≤ μ (e.state i)) :
    ∃ n ≥ m, ∀ i ≥ n, μ (e.state (i + 1)) = μ (e.state i) := by
  have hanti : Antitone fun i => μ (e.state (m + i)) :=
    antitone_nat_of_succ_le fun i => hle (m + i) (Nat.le_add_right m i)
  obtain ⟨b, hleast⟩ : ∃ b, ∀ i, μ (e.state (m + b)) ≤ μ (e.state (m + i)) :=
    ⟨_, fun i => Function.argmin_le (fun i => μ (e.state (m + i))) i⟩
  refine ⟨m + b, Nat.le_add_right m b, fun i hi => ?_⟩
  obtain ⟨d, rfl⟩ := Nat.exists_eq_add_of_le (Nat.le_trans (Nat.le_add_right m b) hi)
  have hbefore : μ (e.state (m + d)) ≤ μ (e.state (m + b)) := hanti (Nat.le_of_add_le_add_left hi)
  have hafter := hleast (d + 1)
  have hstep := hle (m + d) (Nat.le_add_right m d)
  rw [← Nat.add_assoc] at hafter
  omega

/-- Where a step that leaves the measure as it is was none of a party with something to do, and
leaves that party with it, nothing is left to do in the end, if no such party is passed over
forever. -/
theorem comes_to_rest {μ : σ → Nat} {Ready : κ → σ → Prop} {Serves : ι → κ → Prop} {m : Nat}
    (hle : ∀ i ≥ m, μ (e.state (i + 1)) ≤ μ (e.state i))
    (hready : ∀ i ≥ m, ∀ k, μ (e.state (i + 1)) = μ (e.state i) → Ready k (e.state i) →
      Ready k (e.state (i + 1)) ∧ ¬ Serves (e.input i) k)
    (hfair : ∀ i k, Ready k (e.state i) → ∃ j ≥ i, Serves (e.input j) k ∨ ¬ Ready k (e.state j)) :
    ∃ n ≥ m, ∀ i ≥ n, ∀ k, ¬ Ready k (e.state i) := by
  obtain ⟨n, hn, hconst⟩ := eventually_constant hle
  refine ⟨n, hn, fun i hi k hk => ?_⟩
  have hstays : ∀ d, Ready k (e.state (i + d)) := by
    intro d
    induction d with
    | zero => exact hk
    | succ d ih => exact (hready (i + d) (by omega) k (hconst (i + d) (by omega)) ih).1
  obtain ⟨j, hj, hserved⟩ := hfair i k hk
  obtain ⟨d, rfl⟩ := Nat.exists_eq_add_of_le hj
  obtain hserved | hdone := hserved
  · exact (hready (i + d) (by omega) k (hconst (i + d) (by omega)) (hstays d)).2 hserved
  · exact hdone (hstays d)

end Endless
end WylesLibs.Library
