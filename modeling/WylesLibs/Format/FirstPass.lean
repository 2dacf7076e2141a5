import WylesLibs.Format.Format
import WylesLibs.Format.Decimal

/-! What the first pass makes of a template, piece by piece. -/
namespace WylesLibs.Format
open Library WylesLibs.Stream
variable {D : Type} [FloatToString D] {fuel steps : Nat} {st st' : FormatState D}
variable {args : List (VaArg D)} {l rest text : List UInt8} {last : Option UInt8} {c : UInt8}

@[simp] theorem unget_tape (a : UInt8) (l : List UInt8) :
    (unget : Prog Tape Unit) ⟨l, some a⟩ = .ok ((), ⟨a :: l, none⟩) := rfl

theorem firstPass_end : firstPass fuel (steps + 1) st (Tape.mk [] last) = .ok (st, ⟨[], none⟩) := by
  simp [firstPass]

theorem firstPass_char (hslash : c ≠ Byte.backslash) (hbrace : c ≠ Byte.openBrace) :
    firstPass fuel (steps + 1) st (Tape.mk (c :: l) last) =
      firstPass fuel steps (st.put [c]) ⟨l, some c⟩ := by
  simp [firstPass, hslash, hbrace]

theorem firstPass_escape (hc : c = Byte.openBrace ∨ c = Byte.closeBrace) :
    firstPass fuel (steps + 1) st (Tape.mk (Byte.backslash :: c :: l) last) =
      firstPass fuel steps { st.put [Byte.backslash, c] with escaped := true } ⟨l, some c⟩ := by
  simp [firstPass, hc]

theorem firstPass_format {t : Tape}
    (h : parseFormat fuel st (Tape.mk l (some Byte.openBrace)) = .ok (st', t)) :
    firstPass fuel (steps + 1) st (Tape.mk (Byte.openBrace :: l) last) =
      firstPass fuel steps st' t := by
  simp +decide [firstPass, h]

/-- Reading `text`, the first pass comes from `st` to `st'`. -/
def Advances (fuel : Nat) (text : List UInt8) (st st' : FormatState D) : Prop :=
  ∀ steps rest last, text.length ≤ steps → ∃ steps' last', steps ≤ steps' + text.length ∧
    firstPass fuel steps st (Tape.mk (text ++ rest) last) =
      firstPass fuel steps' st' ⟨rest, last'⟩

namespace Advances

theorem nil (st : FormatState D) : Advances fuel [] st st :=
  fun steps _ last _ => ⟨steps, last, by simp, rfl⟩

theorem append {text₁ text₂ : List UInt8} {st₁ st₂ st₃ : FormatState D}
    (h₁ : Advances fuel text₁ st₁ st₂) (h₂ : Advances fuel text₂ st₂ st₃) :
    Advances fuel (text₁ ++ text₂) st₁ st₃ := by
  intro steps rest last hsteps
  rw [List.length_append] at hsteps ⊢
  obtain ⟨steps₁, last₁, hle₁, heq₁⟩ := h₁ steps (text₂ ++ rest) last (by omega)
  obtain ⟨steps₂, last₂, hle₂, heq₂⟩ := h₂ steps₁ rest last₁ (by omega)
  exact ⟨steps₂, last₂, by omega, by rw [List.append_assoc, heq₁, heq₂]⟩

theorem char (hslash : c ≠ Byte.backslash) (hbrace : c ≠ Byte.openBrace) (st : FormatState D) :
    Advances fuel [c] st (st.put [c]) := by
  intro steps rest last hsteps
  obtain ⟨steps, rfl⟩ : ∃ n, steps = n + 1 := ⟨steps - 1, by simp at hsteps; omega⟩
  exact ⟨steps, some c, by simp, firstPass_char hslash hbrace⟩

theorem chars {cs : List UInt8} (hcs : ∀ c ∈ cs, c ≠ Byte.backslash ∧ c ≠ Byte.openBrace)
    (st : FormatState D) : Advances fuel cs st (st.put cs) := by
  induction cs generalizing st with
  | nil => simpa [FormatState.put] using nil st
  | cons c cs ih =>
    obtain ⟨⟨hslash, hbrace⟩, hcs⟩ := List.forall_mem_cons.mp hcs
    simpa [FormatState.put] using (char hslash hbrace st).append (ih hcs (st.put [c]))

theorem escape (hc : c = Byte.openBrace ∨ c = Byte.closeBrace) (st : FormatState D) :
    Advances fuel [Byte.backslash, c] st
      { st.put [Byte.backslash, c] with escaped := true } := by
  intro steps rest last hsteps
  obtain ⟨steps, rfl⟩ : ∃ n, steps = n + 1 := ⟨steps - 1, by simp at hsteps; omega⟩
  exact ⟨steps, some c, by simp, firstPass_escape hc⟩

theorem format (h : ∀ rest, ∃ last',
      parseFormat fuel st (Tape.mk (text ++ rest) (some Byte.openBrace)) =
        .ok (st', ⟨rest, last'⟩)) :
    Advances fuel (Byte.openBrace :: text) st st' := by
  intro steps rest last hsteps
  obtain ⟨steps, rfl⟩ : ∃ n, steps = n + 1 := ⟨steps - 1, by simp at hsteps; omega⟩
  obtain ⟨last', hrest⟩ := h rest
  exact ⟨steps, last', by simp, firstPass_format hrest⟩

/-- A reference stays what it is. -/
theorem reference {cs : List UInt8} (hcs : ∀ c ∈ cs, c ≠ Byte.backslash ∧ c ≠ Byte.openBrace)
    (st : FormatState D) :
    Advances fuel (Byte.openBrace :: Spec.startOfIndicatorFormat :: cs) st
      { st.put (Byte.openBrace :: Spec.startOfIndicatorFormat :: cs) with
        hasReferenceSelection := true } := by
  intro steps rest last hsteps
  obtain ⟨steps, rfl⟩ : ∃ n, steps = n + 1 := ⟨steps - 1, by simp at hsteps; omega⟩
  have hparse : parseFormat fuel st
      (Tape.mk (Spec.startOfIndicatorFormat :: cs ++ rest) (some Byte.openBrace)) =
        .ok ({ st.put [Byte.openBrace] with hasReferenceSelection := true },
          ⟨Spec.startOfIndicatorFormat :: cs ++ rest, some Byte.openBrace⟩) := by
    simp [parseFormat]
  have hindicator : ∀ c ∈ Spec.startOfIndicatorFormat :: cs,
      c ≠ Byte.backslash ∧ c ≠ Byte.openBrace :=
    List.forall_mem_cons.mpr ⟨by decide, hcs⟩
  obtain ⟨steps', last', hle, heq⟩ := chars hindicator
    { st.put [Byte.openBrace] with hasReferenceSelection := true } steps rest
    (some Byte.openBrace) (by simpa using hsteps)
  refine ⟨steps', last', by simp only [List.length_cons] at hle ⊢; omega, ?_⟩
  rw [List.cons_append, firstPass_format hparse, heq]
  simp [FormatState.put]

theorem run (h : Advances fuel text st st') (last : Option UInt8) :
    firstPass fuel (text.length + 1) st (Tape.mk text last) = .ok (st', ⟨[], none⟩) := by
  obtain ⟨steps, last', hle, heq⟩ := h (text.length + 1) [] last (by omega)
  obtain ⟨steps, rfl⟩ : ∃ n, steps = n + 1 := ⟨steps - 1, by omega⟩
  rw [List.append_nil] at heq
  rw [heq, firstPass_end]

end Advances

/-! The positional formats. -/

omit [FloatToString D] in
theorem vaCstring_cons {s : List UInt8} (hs : ∀ c ∈ s, c ≠ 0) (args : List (VaArg D)) :
    vaCstring (.cstring s :: args) = .ok (s, args) := by
  have hall : s.takeWhile (· ≠ 0) = s := by
    rw [List.takeWhile_eq_self_iff]
    simpa using hs
  rw [vaCstring, hall]

theorem parseFormat_plain {s : List UInt8} (hs : ∀ c ∈ s, c ≠ 0)
    (hargs : st.args = .cstring s :: args) :
    parseFormat fuel st (Tape.mk (Byte.closeBrace :: rest) last) =
      .ok (st.take ⟨none, s, Spec.defaultArgType⟩ args, ⟨rest, some Byte.closeBrace⟩) := by
  simp +decide [parseFormat, hargs, vaCstring_cons hs]

theorem parseFormat_s {s : List UInt8} (hs : ∀ c ∈ s, c ≠ 0)
    (hargs : st.args = .cstring s :: args) :
    parseFormat fuel st (Tape.mk (Spec.s :: Byte.closeBrace :: rest) last) =
      .ok (st.take ⟨some (.cstring s), s, Spec.s⟩ args, ⟨rest, some Byte.closeBrace⟩) := by
  simp +decide [parseFormat, parsePositionalFormat, hargs, vaCstring_cons hs]

/-! Numbers, with a width of some digits or without one. -/

theorem modifiable_u (steps : Nat) (args : List (VaArg D)) (rest : List UInt8)
    (last : Option UInt8) (opts : StringFormatOpts) {n : Nat}
    (htext : numToString n { opts with base := 10, upper := false } = .ok text) :
    parsePositionalModifiableFormat (steps + 1) (.uint64 n :: args) opts
        (Tape.mk (Spec.u :: Byte.closeBrace :: rest) last) =
      .ok ((⟨some (.uint64 n), text, Spec.u⟩, args), ⟨Byte.closeBrace :: rest, some Spec.u⟩) := by
  simp +decide [parsePositionalModifiableFormat, vaUint64, htext]

theorem numberModifier (args : List (VaArg D)) (opts : StringFormatOpts) {ds : List UInt8}
    (hds : ∀ d ∈ ds, isDigit d = true) (hlen : ds.length ≤ numberMaxDigits)
    (hc : c = Spec.u ∨ c = Spec.d) :
    ∃ last', parsePositionalNumberModifier (steps + 1) args opts
        (Tape.mk (ds ++ c :: rest) last) =
      parsePositionalModifiableFormat steps args
        { opts with width := digitsValue ds 0 % 256 } ⟨c :: rest, last'⟩ := by
  have hdigit : isDigit c = false := by
    obtain rfl | rfl := hc <;> decide
  obtain ⟨last', hread⟩ := Tape.readNatural_eq
    (readNatural_iff.mpr ⟨ds, c, rest, rfl, rfl, hds, hdigit, hlen, rfl⟩) last
  refine ⟨last', ?_⟩
  obtain rfl | rfl := hc
  · simp +decide [parsePositionalNumberModifier, readNatural, hread]
  · simp +decide [parsePositionalNumberModifier, readNatural, hread]

theorem ne_of_digit {d v : UInt8} (hd : isDigit d = true) (hv : isDigit v = false) : d ≠ v := by
  rintro rfl
  simp [hd] at hv

/-- A format that starts with a digit is one with a width or a precision. -/
theorem parseFormat_digit {d e : UInt8} (hd : isDigit d = true) :
    parseFormat fuel st (Tape.mk (d :: e :: l) last) =
      (parsePositionalNumberModifier fuel st.args {} ⟨d :: e :: l, none⟩).bind fun r =>
        (get r.2).bind fun r' => .ok (st.take r.1.1 r.1.2, r'.2) := by
  have hb := ne_of_digit hd (v := Spec.b) (by decide)
  have hc := ne_of_digit hd (v := Spec.c) (by decide)
  have ht := ne_of_digit hd (v := Spec.t) (by decide)
  have hs := ne_of_digit hd (v := Spec.s) (by decide)
  have hplus := ne_of_digit hd (v := Byte.plus) (by decide)
  have hminus := ne_of_digit hd (v := Byte.minus) (by decide)
  have hless := ne_of_digit hd (v := Spec.startOfIndicatorFormat) (by decide)
  have hbrace := ne_of_digit hd (v := Byte.closeBrace) (by decide)
  simp [parseFormat, parsePositionalFormat, hd, hb, hc, ht, hs, hplus, hminus, hless, hbrace,
    Outcome.bind_assoc]

namespace Advances
variable {opts : StringFormatOpts}

theorem u {n : Nat} (hfuel : 0 < fuel) (hargs : st.args = .uint64 n :: args)
    (htext : numToString n { upper := false } = .ok text) :
    Advances fuel [Byte.openBrace, Spec.u, Byte.closeBrace] st
      (st.take ⟨some (.uint64 n), text, Spec.u⟩ args) := by
  obtain ⟨fuel, rfl⟩ : ∃ k, fuel = k + 1 := ⟨fuel - 1, by omega⟩
  refine format fun rest => ⟨some Byte.closeBrace, ?_⟩
  have hmod := modifiable_u fuel args rest none {} htext
  simp +decide [parseFormat, parsePositionalFormat, hargs, hmod]

theorem width_u (ds : List UInt8) {n : Nat} (hfuel : 1 < fuel)
    (hds : ∀ d ∈ ds, isDigit d = true) (hne : ds ≠ []) (hlen : ds.length ≤ numberMaxDigits)
    (hargs : st.args = .uint64 n :: args)
    (htext : numToString n { width := digitsValue ds 0 % 256, upper := false } = .ok text) :
    Advances fuel (Byte.openBrace :: (ds ++ [Spec.u, Byte.closeBrace])) st
      (st.take ⟨some (.uint64 n), text, Spec.u⟩ args) := by
  obtain ⟨fuel, rfl⟩ : ∃ k, fuel = k + 2 := ⟨fuel - 2, by omega⟩
  refine format fun rest => ⟨some Byte.closeBrace, ?_⟩
  obtain ⟨last', hnumber⟩ := numberModifier st.args {} (c := Spec.u) hds hlen
    (Or.inl rfl)
  have hmod := modifiable_u fuel args rest last' { width := digitsValue ds 0 % 256 } htext
  obtain ⟨d, ds, rfl⟩ := List.exists_cons_of_ne_nil hne
  have hd : isDigit d = true := hds d (by simp)
  obtain ⟨e, l, he⟩ : ∃ e l, ds ++ Spec.u :: Byte.closeBrace :: rest = e :: l :=
    List.exists_cons_of_ne_nil (by simp)
  rw [List.cons_append, he] at hnumber
  have htext' : d :: ds ++ [Spec.u, Byte.closeBrace] ++ rest = d :: e :: l := by simp [← he]
  rw [htext', parseFormat_digit hd, hnumber, hargs, hmod]
  simp

end Advances
end WylesLibs.Format
