import Mathlib

/-! Lists that are cut at delimiters. Independent of any particular program. -/
namespace WylesLibs.Library
variable {α : Type}

/-- What comes before a delimiter is determined if the delimiter does not occur in it. -/
theorem delimited_inj {p : α → Prop} {as as' rest rest' : List α} {c c' : α}
    (has : ∀ a ∈ as, p a) (has' : ∀ a ∈ as', p a) (hc : ¬ p c) (hc' : ¬ p c')
    (h : as ++ c :: rest = as' ++ c' :: rest') : as = as' ∧ rest = rest' := by
  induction as generalizing as' with
  | nil =>
    cases as' with
    | nil => exact ⟨rfl, (List.cons.inj h).2⟩
    | cons a as' =>
      obtain ⟨rfl, -⟩ := List.cons.inj h
      exact absurd (has' c (by simp)) hc
  | cons a as ih =>
    cases as' with
    | nil =>
      obtain ⟨rfl, -⟩ := List.cons.inj h
      exact absurd (has a (by simp)) hc'
    | cons a' as' =>
      obtain ⟨rfl, htail⟩ := List.cons.inj h
      obtain ⟨rfl, hrest⟩ := ih (fun b hb => has b (by simp [hb]))
        (fun b hb => has' b (by simp [hb])) htail
      exact ⟨rfl, hrest⟩

end WylesLibs.Library
