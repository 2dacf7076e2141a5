import WylesLibs.Format.FirstPass

/-! What the second pass makes of the text that the first one wrote. -/
namespace WylesLibs.Format
open Library WylesLibs.Stream
variable {D : Type} [FloatToString D] {fuel steps : Nat} {args : List (Arg D)}
variable {acc l rest text out : List UInt8} {last : Option UInt8} {c : UInt8}

theorem secondPass_end :
    secondPass fuel args (steps + 1) acc (Tape.mk [] last) = .ok (acc, ⟨[], none⟩) := by
  simp [secondPass]

theorem secondPass_char (hslash : c ≠ Byte.backslash) (hbrace : c ≠ Byte.openBrace) :
    secondPass fuel args (steps + 1) acc (Tape.mk (c :: l) last) =
      secondPass fuel args steps (acc ++ [c]) ⟨l, some c⟩ := by
  simp [secondPass, hslash, hbrace]

theorem secondPass_escape (hc : c = Byte.openBrace ∨ c = Byte.closeBrace) :
    secondPass fuel args (steps + 1) acc (Tape.mk (Byte.backslash :: c :: l) last) =
      secondPass fuel args steps (acc ++ [c]) ⟨l, some c⟩ := by
  simp [secondPass, hc]

theorem secondPass_backslash {d : UInt8} (hopen : d ≠ Byte.openBrace)
    (hclose : d ≠ Byte.closeBrace) :
    secondPass fuel args (steps + 1) acc (Tape.mk (Byte.backslash :: d :: l) last) =
      secondPass fuel args steps (acc ++ [Byte.backslash]) ⟨d :: l, some Byte.backslash⟩ := by
  simp [secondPass, hopen, hclose]

theorem secondPass_reference {t : Tape}
    (h : parseReferenceFormat fuel args (Tape.mk l (some Byte.openBrace)) = .ok (out, t)) :
    secondPass fuel args (steps + 1) acc (Tape.mk (Byte.openBrace :: l) last) =
      secondPass fuel args steps (acc ++ out) t := by
  simp +decide [secondPass, h]

/-- A brace at the end opens a reference that is not there. -/
theorem secondPass_brace_end :
    secondPass fuel args (steps + 1) acc (Tape.mk [Byte.openBrace] last) = .thrown endOfData := by
  have hslash : Byte.openBrace ≠ Byte.backslash := by decide
  have hparse : parseReferenceFormat fuel args (Tape.mk [] (some Byte.openBrace)) =
      .thrown endOfData := rfl
  simp only [secondPass, Prog.bind_apply, Tape.good_cons, Tape.get_cons, Outcome.bind_ok, if_true,
    if_neg hslash, hparse, Outcome.bind_thrown]

/-- Reading `text` in front of `rest`, the second pass writes `out`. -/
def Rewrites (fuel : Nat) (args : List (Arg D)) (text out rest : List UInt8) : Prop :=
  ∀ steps acc last, text.length ≤ steps → ∃ steps' last', steps ≤ steps' + text.length ∧
    secondPass fuel args steps acc (Tape.mk (text ++ rest) last) =
      secondPass fuel args steps' (acc ++ out) ⟨rest, last'⟩

/-- Nothing in `text`, which stands in front of `rest`, means anything to the second pass: there
is no opening brace, and behind a backslash comes a character that is no brace. -/
def Inert : List UInt8 → List UInt8 → Prop
  | [], _ => True
  | c :: cs, rest =>
    c ≠ Byte.openBrace ∧
      (c = Byte.backslash →
        (cs ++ rest).head? ∉ [none, some Byte.openBrace, some Byte.closeBrace]) ∧
      Inert cs rest

namespace Rewrites

theorem nil (rest : List UInt8) : Rewrites fuel args [] [] rest :=
  fun steps _ last _ => ⟨steps, last, by simp, by simp⟩

theorem append {text₁ text₂ out₁ out₂ : List UInt8}
    (h₁ : Rewrites fuel args text₁ out₁ (text₂ ++ rest))
    (h₂ : Rewrites fuel args text₂ out₂ rest) :
    Rewrites fuel args (text₁ ++ text₂) (out₁ ++ out₂) rest := by
  intro steps acc last hsteps
  rw [List.length_append] at hsteps ⊢
  obtain ⟨steps₁, last₁, hle₁, heq₁⟩ := h₁ steps acc last (by omega)
  obtain ⟨steps₂, last₂, hle₂, heq₂⟩ := h₂ steps₁ (acc ++ out₁) last₁ (by omega)
  exact ⟨steps₂, last₂, by omega, by rw [List.append_assoc, heq₁, heq₂, List.append_assoc]⟩

theorem char (hslash : c ≠ Byte.backslash) (hbrace : c ≠ Byte.openBrace) :
    Rewrites fuel args [c] [c] rest := by
  intro steps acc last hsteps
  obtain ⟨steps, rfl⟩ : ∃ n, steps = n + 1 := ⟨steps - 1, by simp at hsteps; omega⟩
  exact ⟨steps, some c, by simp, secondPass_char hslash hbrace⟩

theorem escape (hc : c = Byte.openBrace ∨ c = Byte.closeBrace) :
    Rewrites fuel args [Byte.backslash, c] [c] rest := by
  intro steps acc last hsteps
  obtain ⟨steps, rfl⟩ : ∃ n, steps = n + 1 := ⟨steps - 1, by simp at hsteps; omega⟩
  exact ⟨steps, some c, by simp, secondPass_escape hc⟩

theorem backslash
    (h : rest.head? ∉ [none, some Byte.openBrace, some Byte.closeBrace]) :
    Rewrites fuel args [Byte.backslash] [Byte.backslash] rest := by
  intro steps acc last hsteps
  obtain ⟨steps, rfl⟩ : ∃ n, steps = n + 1 := ⟨steps - 1, by simp at hsteps; omega⟩
  cases rest with
  | nil => simp at h
  | cons d rest =>
    simp only [List.head?_cons, List.mem_cons, Option.some.injEq, reduceCtorEq, false_or,
      List.not_mem_nil, or_false, not_or] at h
    exact ⟨steps, some Byte.backslash, by simp, secondPass_backslash h.1 h.2⟩

theorem inert (h : Inert text rest) : Rewrites fuel args text text rest := by
  induction text with
  | nil => exact nil rest
  | cons c cs ih =>
    obtain ⟨hbrace, hslash, hrest⟩ := h
    have hc : Rewrites fuel args [c] [c] (cs ++ rest) := by
      by_cases hc : c = Byte.backslash
      · rw [hc]
        exact backslash (hslash hc)
      · exact char hc hbrace
    exact hc.append (ih hrest)

/-- A reference is replaced by the text of the argument it names. -/
theorem reference {ds : List UInt8} {arg : Arg D} (hds : ∀ d ∈ ds, isDigit d = true)
    (hne : ds ≠ []) (hlen : ds.length ≤ numberMaxDigits) (hpos : digitsValue ds 0 ≠ 0)
    (harg : args[digitsValue ds 0 - 1]? = some arg) :
    Rewrites fuel args
      (Byte.openBrace :: Spec.startOfIndicatorFormat :: (ds ++ [Byte.closeBrace]))
      arg.expandedValue rest := by
  intro steps acc last hsteps
  obtain ⟨steps, rfl⟩ : ∃ n, steps = n + 1 := ⟨steps - 1, by simp at hsteps; omega⟩
  obtain ⟨last', hread⟩ := Tape.readNatural_eq (readNatural_iff.mpr
    ⟨ds, Byte.closeBrace, rest, rfl, rfl, hds, by decide, hlen, rfl⟩)
    (some Spec.startOfIndicatorFormat)
  obtain ⟨d, ds', rfl⟩ := List.exists_cons_of_ne_nil hne
  have hd : isDigit d = true := hds d (by simp)
  have hparse : parseReferenceFormat fuel args (Tape.mk
      (Spec.startOfIndicatorFormat :: (d :: ds' ++ Byte.closeBrace :: rest))
      (some Byte.openBrace)) = .ok (arg.expandedValue, ⟨rest, some Byte.closeBrace⟩) := by
    have hcomma : Byte.closeBrace ≠ Byte.comma := by decide
    simp only [List.cons_append] at hread ⊢
    simp only [parseReferenceFormat, Prog.bind_apply, Tape.get_cons, Tape.peek_cons,
      Outcome.bind_ok, ne_eq, not_true, if_false, hd, reduceCtorEq, readNatural, hread, hpos,
      harg, hcomma, Prog.pure_apply]
  refine ⟨steps, some Byte.closeBrace, by simp, ?_⟩
  simp only [List.cons_append, List.append_assoc, List.nil_append] at hparse ⊢
  exact secondPass_reference hparse

theorem run (h : Rewrites fuel args text out []) (last : Option UInt8) :
    secondPass fuel args (text.length + 1) [] (Tape.mk text last) = .ok (out, ⟨[], none⟩) := by
  obtain ⟨steps, last', hle, heq⟩ := h (text.length + 1) [] last (by omega)
  obtain ⟨steps, rfl⟩ : ∃ n, steps = n + 1 := ⟨steps - 1, by omega⟩
  rw [List.append_nil, List.nil_append] at heq
  rw [heq, secondPass_end]

end Rewrites
end WylesLibs.Format
