import WylesLibs.Format.Format

/-! The formatter reads a memory-backed stream as it reads a tape. -/
namespace WylesLibs.Format
open Library WylesLibs.Stream Prog
variable {D : Type} [FloatToString D]

/-- One program on both. -/
def OnBoth {α : Type} (m : Prog ByteEStream α) (m' : Prog Tape α) : Prop :=
  Refines ByteEStream.Stands m m'

namespace OnBoth

theorem get : OnBoth (Stream.get : Prog ByteEStream UInt8) Stream.get :=
  .of_sim ByteEStream.stands_sim.get
theorem peek : OnBoth (Stream.peek : Prog ByteEStream UInt8) Stream.peek :=
  .of_sim ByteEStream.stands_sim.peek
theorem good : OnBoth (Stream.good : Prog ByteEStream Bool) Stream.good :=
  .of_sim ByteEStream.stands_sim.good
theorem unget : OnBoth (Format.unget : Prog ByteEStream Unit) Format.unget :=
  ByteEStream.refines_unget
theorem readNatural : OnBoth (Format.readNatural : Prog ByteEStream _) Format.readNatural :=
  ByteEStream.refines_readNatural

theorem parseFloatFormat (value : D) (opts : StringFormatOpts) :
    OnBoth (Format.parseFloatFormat value opts) (Format.parseFloatFormat value opts) := by
  refine Refines.bind get fun formatType => .ite ?_ (.ite (.raise _) (.lift _))
  refine Refines.bind get fun c => .ite ?_ (.raise _)
  refine Refines.bind peek fun c => .bind (.ite ?_ (.pure _)) fun exponential => ?_
  · exact Refines.bind readNatural fun _ => .pure _
  · exact Refines.bind peek fun _ => .ite (.raise _) (.lift _)

theorem parseStringCaseModifier (value expandedValue : List UInt8) :
    OnBoth (Format.parseStringCaseModifier value expandedValue)
      (Format.parseStringCaseModifier value expandedValue) := by
  refine Refines.bind unget fun _ => .bind get fun c => .bind get fun next => ?_
  exact Refines.bind peek fun nextnext => .ite (.pure _) (.ite (.pure _) (.raise _))

theorem positional (steps : Nat) (args : List (VaArg D)) (opts : StringFormatOpts) :
    OnBoth (parsePositionalNumberModifier steps args opts)
        (parsePositionalNumberModifier steps args opts) ∧
      OnBoth (parsePositionalModifiableFormat steps args opts)
        (parsePositionalModifiableFormat steps args opts) := by
  induction steps generalizing args opts with
  | zero => exact ⟨.spent, .spent⟩
  | succ steps ih =>
    constructor
    · refine Refines.bind readNatural fun natural => .bind peek fun next => ?_
      refine .ite (ih _ _).2 (.ite ?_ (ih _ _).2)
      exact Refines.bind get fun _ => (ih _ _).1
    · refine Refines.bind peek fun prev => .bind get fun c => .bind peek fun next => ?_
      refine .ite ?_ (.ite ?_ (.ite ?_ (.ite ?_ (.raise _))))
      · exact Refines.bind (.lift _) fun _ => .bind (.lift _) fun _ => .pure _
      · exact Refines.bind (.lift _) fun _ => .bind (.lift _) fun _ => .pure _
      · refine Refines.bind unget fun _ => .bind (.lift _) fun _ => ?_
        exact Refines.bind (parseFloatFormat _ _) fun _ => .pure _
      · exact Refines.bind unget fun _ => (ih _ _).1

theorem referenced (steps : Nat) (opts : StringFormatOpts) (arg : Arg D) :
    OnBoth (parseReferencedNumberModifier steps opts arg)
        (parseReferencedNumberModifier steps opts arg) ∧
      OnBoth (parseReferencedModifiableFormat steps opts arg)
        (parseReferencedModifiableFormat steps opts arg) := by
  induction steps generalizing opts arg with
  | zero => exact ⟨.spent, .spent⟩
  | succ steps ih =>
    constructor
    · refine Refines.bind readNatural fun natural => .bind peek fun next => ?_
      refine .ite (ih _ _).2 (.ite ?_ (ih _ _).2)
      exact Refines.bind get fun _ => (ih _ _).1
    · refine Refines.bind peek fun prev => .bind get fun c => .bind peek fun next => ?_
      refine .ite ?_ (.ite ?_ (.ite ?_ (.ite ?_ (.raise _))))
      · refine Refines.bind (.lift _) fun _ => .bind (.lift _) fun _ => ?_
        exact Refines.bind (.lift _) fun _ => .pure _
      · refine Refines.bind (.lift _) fun _ => .bind (.lift _) fun _ => ?_
        exact Refines.bind (.lift _) fun _ => .pure _
      · refine Refines.bind (.lift _) fun _ => .bind unget fun _ => .bind (.lift _) fun _ => ?_
        exact Refines.bind (parseFloatFormat _ _) fun _ => .pure _
      · exact Refines.bind unget fun _ => (ih _ _).1

theorem parsePositionalFormat (steps : Nat) (args : List (VaArg D)) :
    OnBoth (Format.parsePositionalFormat steps args) (Format.parsePositionalFormat steps args) := by
  refine Refines.bind peek fun _ => .bind get fun c => .bind peek fun next => ?_
  refine Refines.bind ?_ fun parsed => .bind get fun _ => .pure _
  refine .ite ?_ (.ite ?_ (.ite ?_ (.ite ?_ (.ite ?_ ?_))))
  · exact Refines.bind (.lift _) fun _ => .pure _
  · exact Refines.bind (.lift _) fun _ => .pure _
  · exact Refines.bind (.lift _) fun _ => .pure _
  · exact Refines.bind (.lift _) fun _ => .pure _
  · refine Refines.bind (.lift _) fun _ => ?_
    exact Refines.bind (parseStringCaseModifier _ _) fun _ => .pure _
  · refine .ite (positional _ _ _).2 (.ite (positional _ _ _).2 (.ite ?_ ?_))
    · exact Refines.bind unget fun _ => (positional _ _ _).1
    · exact Refines.bind unget fun _ => (positional _ _ _).2

theorem parseReferencedFormatOverride (steps : Nat) (arg : Arg D) :
    OnBoth (Format.parseReferencedFormatOverride steps arg)
      (Format.parseReferencedFormatOverride steps arg) := by
  refine Refines.bind peek fun _ => .bind get fun c => .bind peek fun next => ?_
  refine Refines.bind ?_ fun parsed => .bind get fun _ => .pure _
  refine .ite (.pure _) (.ite ?_ ?_)
  · refine Refines.bind (.lift _) fun _ => .bind (.lift _) fun _ => ?_
    exact Refines.bind (parseStringCaseModifier _ _) fun _ => .pure _
  · refine .ite (referenced _ _ _).2 (.ite (referenced _ _ _).2 (.ite ?_ ?_))
    · exact Refines.bind unget fun _ => (referenced _ _ _).1
    · exact Refines.bind unget fun _ => (referenced _ _ _).2

theorem parseFormat (steps : Nat) (st : FormatState D) :
    OnBoth (Format.parseFormat steps st) (Format.parseFormat steps st) := by
  refine Refines.bind peek fun c => .ite (.pure _) (.ite ?_ ?_)
  · exact Refines.bind get fun _ => .bind (.lift _) fun _ => .pure _
  · exact Refines.bind (parsePositionalFormat _ _) fun _ => .pure _

theorem parseReferenceFormat (steps : Nat) (args : List (Arg D)) :
    OnBoth (Format.parseReferenceFormat steps args) (Format.parseReferenceFormat steps args) := by
  refine Refines.bind get fun c => .ite (.raise _) ?_
  refine Refines.bind peek fun c => .ite (.raise _) ?_
  refine Refines.bind readNatural fun natural => ?_
  dsimp only
  cases args[if natural.1 = 0 then sizeMax else natural.1 - 1]? with
  | none => exact .raise _
  | some arg =>
    refine Refines.bind get fun c => .ite ?_ (.ite (.raise _) (.pure _))
    exact Refines.bind (parseReferencedFormatOverride _ _) fun _ => .pure _

theorem firstPass (fuel steps : Nat) (st : FormatState D) :
    OnBoth (Format.firstPass fuel steps st) (Format.firstPass fuel steps st) := by
  induction steps generalizing st with
  | zero => exact .spent
  | succ steps ih =>
    refine Refines.bind good fun more => .ite ?_ (.pure _)
    refine Refines.bind get fun c => .ite ?_ (.ite ?_ (ih _))
    · refine Refines.bind peek fun next => .ite ?_ (ih _)
      exact Refines.bind get fun _ => ih _
    · exact Refines.bind (parseFormat _ _) fun _ => ih _

theorem secondPass (fuel : Nat) (args : List (Arg D)) (steps : Nat) (out : List UInt8) :
    OnBoth (Format.secondPass fuel args steps out) (Format.secondPass fuel args steps out) := by
  induction steps generalizing out with
  | zero => exact .spent
  | succ steps ih =>
    refine Refines.bind good fun more => .ite ?_ (.pure _)
    refine Refines.bind get fun c => .ite ?_ (.ite ?_ (ih _))
    · refine Refines.bind peek fun next => .ite ?_ (ih _)
      exact Refines.bind get fun _ => ih _
    · exact Refines.bind (parseReferenceFormat _ _) fun _ => ih _

theorem ok {α : Type} {m : Prog ByteEStream α} {m' : Prog Tape α} (h : OnBoth m m') {b : List UInt8}
    {a : α} {t : Tape} (ha : m' ⟨b, none⟩ = .ok (a, t)) :
    ∃ s, m (ByteEStream.ofBuffer b) = .ok (a, s) := by
  obtain hu | hr := h _ _ (.ofBuffer b)
  · rw [ha] at hu
    cases hu
  · rw [ha] at hr
    obtain ⟨s, hs, -⟩ := hr.of_ok
    exact ⟨s, hs⟩

theorem thrown {α : Type} {m : Prog ByteEStream α} {m' : Prog Tape α} (h : OnBoth m m')
    {b : List UInt8} {w : String} (hw : m' ⟨b, none⟩ = .thrown w) :
    m (ByteEStream.ofBuffer b) = .thrown w := by
  obtain hu | hr := h _ _ (.ofBuffer b)
  · rw [hw] at hu
    cases hu
  · rw [hw] at hr
    exact hr.of_thrown

end OnBoth

section
variable {assign : ByteEStream → ByteEStream} {text : List UInt8} {args : List (VaArg D)}
variable {st : FormatState D} {t : Tape}

/-- Without escapes and references the call ends with the first pass. -/
theorem format_of_firstPass
    (h : firstPass (text.length + 1) (text.length + 1) (.start args) (Tape.mk text none) =
      .ok (st, t))
    (hescaped : st.escaped = false) (href : st.hasReferenceSelection = false) :
    format assign text args = (deleteArgs st.parsedArgs).bind fun _ => .ok st.formatOut := by
  obtain ⟨s, hs⟩ := (OnBoth.firstPass _ _ _).ok h
  simp [format, hs, hescaped, href]

/-- As long as the second stream is its own, the text of the second pass is returned. -/
theorem format_of_secondPass {out : List UInt8} {t' : Tape}
    (h : firstPass (text.length + 1) (text.length + 1) (.start args) (Tape.mk text none) =
      .ok (st, t))
    (hsecond : st.escaped = true ∨ st.hasReferenceSelection = true)
    (hout : secondPass (st.formatOut.length + 1) st.parsedArgs (st.formatOut.length + 1) []
      (Tape.mk st.formatOut none) = .ok (out, t')) :
    format id text args = (deleteArgs st.parsedArgs).bind fun _ => .ok out := by
  obtain ⟨s, hs⟩ := (OnBoth.firstPass _ _ _).ok h
  obtain ⟨s', hs'⟩ := (OnBoth.secondPass _ _ _ _).ok hout
  simp only [format, hs, Outcome.bind_ok, if_pos hsecond, id_eq, hs',
    ByteEStream.destroy_ofBuffer]

theorem format_of_secondPass_thrown {w : String}
    (h : firstPass (text.length + 1) (text.length + 1) (.start args) (Tape.mk text none) =
      .ok (st, t))
    (hsecond : st.escaped = true ∨ st.hasReferenceSelection = true)
    (hw : secondPass (st.formatOut.length + 1) st.parsedArgs (st.formatOut.length + 1) []
      (Tape.mk st.formatOut none) = .thrown w) :
    format id text args = .thrown w := by
  obtain ⟨s, hs⟩ := (OnBoth.firstPass _ _ _).ok h
  have hs' := (OnBoth.secondPass _ _ _ _).thrown hw
  simp only [format, hs, Outcome.bind_ok, if_pos hsecond, id_eq, hs',
    ByteEStream.destroy_ofBuffer]

/-- A second pass never comes to a return: its stream shares what the temporary has deleted. -/
theorem format_moveAssign_ne_ok {out : List UInt8}
    (h : firstPass (text.length + 1) (text.length + 1) (.start args) (Tape.mk text none) =
      .ok (st, t))
    (hsecond : st.escaped = true ∨ st.hasReferenceSelection = true) :
    format ByteEStream.moveAssign text args ≠ .ok out := by
  obtain ⟨s, hs⟩ := (OnBoth.firstPass _ _ _).ok h
  simp only [format, hs, Outcome.bind_ok, if_pos hsecond]
  split <;> simp

end
end WylesLibs.Format
