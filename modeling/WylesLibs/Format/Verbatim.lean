import WylesLibs.Format.OnStream
import WylesLibs.Format.SecondPass

/-! Templates of literal text, escapes, string specifiers and references, and the text they stand
for. -/
namespace WylesLibs.Format
open Library WylesLibs.Stream
variable {D : Type} {fuel : Nat}

inductive Piece where
  | literal (c : UInt8) (hslash : c ≠ Byte.backslash) (hopen : c ≠ Byte.openBrace)
    (hclose : c ≠ Byte.closeBrace)
  | escaped (closing : Bool)
  | plain (s : Bool)
  | reference (n : Nat)

abbrev Template := List Piece

def brace (closing : Bool) : UInt8 := if closing then Byte.closeBrace else Byte.openBrace

namespace Piece

def text : Piece → List UInt8
  | .literal c _ _ _ => [c]
  | .escaped closing => [Byte.backslash, brace closing]
  | .plain false => [Byte.openBrace, Byte.closeBrace]
  | .plain true => [Byte.openBrace, Spec.s, Byte.closeBrace]
  | .reference n =>
    Byte.openBrace :: Spec.startOfIndicatorFormat :: (decimal n ++ [Byte.closeBrace])

def isPlain : Piece → Bool
  | .plain _ => true
  | _ => false

/-- What only the second pass can resolve. -/
def isDeferred : Piece → Bool
  | .escaped _ => true
  | .reference _ => true
  | _ => false

end Piece

namespace Template

def text (t : Template) : List UInt8 := t.flatMap Piece.text
def plainCount (t : Template) : Nat := t.countP Piece.isPlain
def deferred (t : Template) : Bool := t.any Piece.isDeferred

/-- The text a template stands for; `all` are the arguments of the call, the last argument of the
function those still to come. -/
def verbatim (all : List (List UInt8)) : Template → List (List UInt8) → List UInt8
  | [], _ => []
  | .literal c _ _ _ :: t, as => c :: verbatim all t as
  | .escaped closing :: t, as => brace closing :: verbatim all t as
  | .plain _ :: t, a :: as => a ++ verbatim all t as
  | .plain _ :: t, [] => verbatim all t []
  | .reference n :: t, as => all.getD (n - 1) [] ++ verbatim all t as

/-- What the first pass writes. -/
def firstText : Template → List (List UInt8) → List UInt8
  | [], _ => []
  | .plain _ :: t, a :: as => a ++ firstText t as
  | .plain _ :: t, [] => firstText t []
  | p :: t, as => p.text ++ firstText t as

/-- Nothing in an argument means anything to the second pass. -/
def Clean : Template → List (List UInt8) → Prop
  | [], _ => True
  | .plain _ :: t, a :: as => Inert a (firstText t as) ∧ Clean t as
  | .plain _ :: t, [] => Clean t []
  | _ :: t, as => Clean t as

/-- References name an argument that a specifier takes. -/
def Bound (t : Template) : Prop := ∀ n, .reference n ∈ t → 1 ≤ n ∧ n ≤ t.plainCount

/-- The reader of numbers takes ten digits and no more. -/
def Short (t : Template) : Prop := ∀ n, .reference n ∈ t → numDigits 10 n ≤ numberMaxDigits

end Template

/-! The first pass. -/

/-- What becomes of an argument when a specifier takes it. -/
def plainArg (s : Bool) (a : List UInt8) : Arg D :=
  if s then ⟨some (.cstring a), a, Spec.s⟩ else ⟨none, a, Spec.defaultArgType⟩

namespace Template

/-- The state after a template, from the one before it. -/
def through : Template → List (List UInt8) → FormatState D → FormatState D
  | [], _, st => st
  | .literal c _ _ _ :: t, as, st => through t as (st.put [c])
  | .escaped closing :: t, as, st =>
    through t as { st.put [Byte.backslash, brace closing] with escaped := true }
  | .plain s :: t, a :: as, st => through t as (st.take (plainArg s a) (as.map .cstring))
  | .plain _ :: t, [], st => through t [] st
  | .reference n :: t, as, st =>
    through t as { st.put (Piece.reference n).text with hasReferenceSelection := true }

variable {t : Template} {all as : List (List UInt8)} {st : FormatState D}

theorem plainCount_cons (p : Piece) (t : Template) :
    plainCount (p :: t) = plainCount t + if p.isPlain then 1 else 0 := by
  simp [plainCount, List.countP_cons]

section
variable [FloatToString D]

theorem advances_plain {s : Bool} {a : List UInt8} (ha : ∀ c ∈ a, c ≠ 0)
    {args : List (VaArg D)} (hargs : st.args = .cstring a :: args) :
    Advances fuel (Piece.plain s).text st (st.take (plainArg s a) args) := by
  cases s with
  | false => exact .format fun rest => ⟨_, parseFormat_plain ha hargs⟩
  | true => exact .format fun rest => ⟨_, parseFormat_s ha hargs⟩

theorem advances_reference (n : Nat) (st : FormatState D) :
    Advances fuel (Piece.reference n).text st
      { st.put (Piece.reference n).text with hasReferenceSelection := true } := by
  refine .reference (fun c hc => ?_) st
  obtain hc | hc := List.mem_append.mp hc
  · exact ⟨ne_of_digit (decimal_isDigit n c hc) (by decide),
      ne_of_digit (decimal_isDigit n c hc) (by decide)⟩
  · rw [List.mem_singleton] at hc
    rw [hc]
    decide

theorem advances_through (hnul : ∀ a ∈ as, ∀ c ∈ a, c ≠ 0) (hcount : plainCount t ≤ as.length)
    (hargs : st.args = as.map .cstring) : Advances fuel t.text st (through t as st) := by
  induction t generalizing as st with
  | nil => exact .nil st
  | cons p t ih =>
    rw [plainCount_cons] at hcount
    have htext : text (p :: t) = p.text ++ text t := rfl
    rw [htext]
    cases p with
    | literal c hslash hopen hclose =>
      exact (Advances.char hslash hopen st).append (ih hnul hcount hargs)
    | escaped closing =>
      refine (Advances.escape ?_ st).append (ih hnul hcount hargs)
      cases closing
      · exact Or.inl rfl
      · exact Or.inr rfl
    | plain s =>
      cases as with
      | nil => simp [Piece.isPlain] at hcount
      | cons a as =>
        obtain ⟨ha, hnul⟩ := List.forall_mem_cons.mp hnul
        simp only [Piece.isPlain, List.length_cons] at hcount
        exact (advances_plain ha hargs).append (ih hnul (by simpa using hcount) rfl)
    | reference n => exact (advances_reference n st).append (ih hnul hcount hargs)

end

theorem through_formatOut (t : Template) (as : List (List UInt8)) (st : FormatState D) :
    (through t as st).formatOut = st.formatOut ++ firstText t as := by
  induction t generalizing as st with
  | nil => simp [through, firstText]
  | cons p t ih =>
    cases p with
    | literal c _ _ _ => simp [through, ih, firstText, FormatState.put, Piece.text]
    | escaped closing => simp [through, ih, firstText, FormatState.put, Piece.text]
    | reference n => simp [through, ih, firstText, FormatState.put]
    | plain s =>
      cases as with
      | nil => simp [through, ih, firstText]
      | cons a as => cases s <;> simp [through, ih, firstText, FormatState.take, plainArg]

/-- The flags are set by what the second pass is for. -/
theorem through_flags (t : Template) (as : List (List UInt8)) (st : FormatState D) :
    ((through t as st).escaped = true ∨ (through t as st).hasReferenceSelection = true) ↔
      (st.escaped = true ∨ st.hasReferenceSelection = true) ∨ t.deferred = true := by
  induction t generalizing as st with
  | nil => simp [through, deferred]
  | cons p t ih =>
    have hcons : deferred (p :: t) = (p.isDeferred || deferred t) := rfl
    rw [hcons]
    cases p with
    | literal c _ _ _ => simpa [through, FormatState.put, Piece.isDeferred] using ih as _
    | escaped closing =>
      have := ih as { st.put [Byte.backslash, brace closing] with escaped := true }
      simpa [through, FormatState.put, Piece.isDeferred] using this
    | reference n =>
      have := ih as { st.put (Piece.reference n).text with hasReferenceSelection := true }
      simpa [through, FormatState.put, Piece.isDeferred] using this
    | plain s =>
      cases as with
      | nil => simpa [through, Piece.isDeferred] using ih [] st
      | cons a as => simpa [through, FormatState.take, Piece.isDeferred] using ih as _

/-- The arguments taken are those of the call, in their order. -/
theorem through_parsedArgs (hcount : plainCount t ≤ as.length) (st : FormatState D) :
    (through t as st).parsedArgs.map Arg.expandedValue =
      st.parsedArgs.map Arg.expandedValue ++ as.take (plainCount t) := by
  induction t generalizing as st with
  | nil => simp [through, plainCount]
  | cons p t ih =>
    rw [plainCount_cons] at hcount ⊢
    cases p with
    | literal c _ _ _ => simpa [through, FormatState.put, Piece.isPlain] using ih hcount _
    | escaped closing => simpa [through, FormatState.put, Piece.isPlain] using ih hcount _
    | reference n => simpa [through, FormatState.put, Piece.isPlain] using ih hcount _
    | plain s =>
      cases as with
      | nil => simp [Piece.isPlain] at hcount
      | cons a as =>
        simp only [Piece.isPlain, List.length_cons] at hcount
        have hrest := ih (by simpa using hcount) (st.take (plainArg s a) (as.map .cstring))
        cases s <;> simpa [through, FormatState.take, plainArg, Piece.isPlain] using hrest

theorem through_deleteArgs (t : Template) (as : List (List UInt8)) (st : FormatState D)
    (hst : deleteArgs st.parsedArgs = .ok ()) : deleteArgs (through t as st).parsedArgs = .ok () := by
  have happend : ∀ (args : List (Arg D)) (s : Bool) (a : List UInt8),
      deleteArgs args = .ok () → deleteArgs (args ++ [plainArg s a]) = .ok () := by
    intro args s a h
    induction args with
    | nil => cases s <;> simp [deleteArgs, plainArg]
    | cons arg args ih =>
      simp only [deleteArgs, List.cons_append] at h ⊢
      split at h
      · rename_i harg
        rw [if_pos harg]
        exact ih h
      · cases h
  induction t generalizing as st with
  | nil => exact hst
  | cons p t ih =>
    cases p with
    | literal c _ _ _ => exact ih as _ hst
    | escaped closing => exact ih as _ hst
    | reference n => exact ih as _ hst
    | plain s =>
      cases as with
      | nil => exact ih [] st hst
      | cons a as => exact ih as _ (happend _ s a hst)

/-! The second pass. -/

theorem rewrites_verbatim [FloatToString D] {args : List (Arg D)} (hclean : Clean t as)
    (hrefs : ∀ n, .reference n ∈ t → n ≠ 0 ∧ numDigits 10 n ≤ numberMaxDigits ∧
      ∃ arg, args[n - 1]? = some arg ∧ arg.expandedValue = all.getD (n - 1) [])
    (fuel : Nat) : Rewrites fuel args (firstText t as) (verbatim all t as) [] := by
  induction t generalizing as with
  | nil => exact .nil []
  | cons p t ih =>
    have hrefs' := fun n hn => hrefs n (List.mem_cons_of_mem p hn)
    cases p with
    | literal c hslash hopen hclose =>
      exact (Rewrites.char hslash hopen).append (ih hclean hrefs')
    | escaped closing =>
      refine (Rewrites.escape ?_).append (ih hclean hrefs')
      cases closing
      · exact Or.inl rfl
      · exact Or.inr rfl
    | plain s =>
      cases as with
      | nil => exact ih hclean hrefs'
      | cons a as =>
        refine Rewrites.append (.inert ?_) (ih hclean.2 hrefs')
        rw [List.append_nil]
        exact hclean.1
    | reference n =>
      obtain ⟨hpos, hshort, arg, harg, hvalue⟩ := hrefs n (by simp)
      refine Rewrites.append ?_ (ih hclean hrefs')
      rw [← hvalue]
      refine .reference (decimal_isDigit n) (decimal_ne_nil n) ?_ ?_ ?_
      · simpa [decimal, length_digitsText] using hshort
      · rwa [digitsValue_decimal]
      · rwa [digitsValue_decimal]

theorem firstText_eq_verbatim (h : t.deferred = false) (hcount : plainCount t ≤ as.length) :
    firstText t as = verbatim all t as := by
  induction t generalizing as with
  | nil => rfl
  | cons p t ih =>
    have hcons : deferred (p :: t) = (p.isDeferred || deferred t) := rfl
    rw [hcons, Bool.or_eq_false_iff] at h
    rw [plainCount_cons] at hcount
    cases p with
    | literal c _ _ _ => simpa [firstText, verbatim, Piece.text] using ih h.2 hcount
    | escaped closing => simp [Piece.isDeferred] at h
    | reference n => simp [Piece.isDeferred] at h
    | plain s =>
      cases as with
      | nil => simp [Piece.isPlain] at hcount
      | cons a as =>
        simp only [Piece.isPlain, List.length_cons] at hcount
        simp [firstText, verbatim, ih h.2 (by simpa using hcount)]

end Template

section
variable {t : Template} {as : List (List UInt8)}

/-- The state of the first pass at the end of a template. -/
def Template.passed (t : Template) (as : List (List UInt8)) : FormatState D :=
  t.through as (.start (as.map .cstring))

theorem firstPass_template [FloatToString D] (hnul : ∀ a ∈ as, ∀ c ∈ a, c ≠ 0)
    (hcount : t.plainCount ≤ as.length) :
    firstPass (t.text.length + 1) (t.text.length + 1) (.start (as.map .cstring))
      (Tape.mk t.text none) = .ok ((t.passed as : FormatState D), ⟨[], none⟩) :=
  (Template.advances_through hnul hcount rfl).run none

theorem passed_flags (t : Template) (as : List (List UInt8)) :
    ((t.passed as : FormatState D).escaped = true ∨
      (t.passed as : FormatState D).hasReferenceSelection = true) ↔ t.deferred = true := by
  rw [Template.passed, t.through_flags]
  simp [FormatState.start]

theorem passed_formatOut : (t.passed as : FormatState D).formatOut = t.firstText as :=
  t.through_formatOut as _

theorem passed_deleteArgs : deleteArgs (t.passed as : FormatState D).parsedArgs = .ok () :=
  t.through_deleteArgs as _ rfl

theorem passed_parsedArgs (hcount : t.plainCount ≤ as.length) {n : Nat} (hpos : 1 ≤ n)
    (hle : n ≤ t.plainCount) :
    ∃ arg, (t.passed as : FormatState D).parsedArgs[n - 1]? = some arg ∧
      arg.expandedValue = as.getD (n - 1) [] := by
  have hparsed : (t.passed as : FormatState D).parsedArgs.map Arg.expandedValue =
      as.take t.plainCount := Template.through_parsedArgs hcount _
  have hget : ((t.passed as : FormatState D).parsedArgs.map Arg.expandedValue)[n - 1]? =
      as[n - 1]? := by
    rw [hparsed, List.getElem?_take, if_pos (by omega)]
  rw [List.getElem?_map, List.getElem?_eq_getElem (l := as) (by omega),
    Option.map_eq_some_iff] at hget
  obtain ⟨arg, harg, hvalue⟩ := hget
  exact ⟨arg, harg, by rw [hvalue, List.getD_eq_getElem _ _ (by omega)]⟩

variable [FloatToString D]

/-- With a stream of its own for the second pass, arguments that mean nothing to that pass are
inserted as they are. -/
theorem format_of_clean (hnul : ∀ a ∈ as, ∀ c ∈ a, c ≠ 0) (hcount : t.plainCount ≤ as.length)
    (hbound : t.Bound) (hdeferred : t.deferred = true) (hclean : t.Clean as)
    (hshort : t.Short) :
    format (D := D) id t.text (as.map .cstring) = .ok (t.verbatim as as) := by
  have hrewrites := Template.rewrites_verbatim
    (D := D) hclean fun n hn => by
      obtain ⟨hpos, hle⟩ := hbound n hn
      exact ⟨by omega, hshort n hn, passed_parsedArgs hcount hpos hle⟩
  have hsecond := Rewrites.run (hrewrites ((t.firstText as).length + 1)) none
  rw [← passed_formatOut (D := D)] at hsecond
  rw [format_of_secondPass (firstPass_template hnul hcount) ((passed_flags t as).mpr hdeferred) hsecond,
    passed_deleteArgs, Outcome.bind_ok]

variable (D) in
/-- Arguments are inserted as they are exactly when nothing is left to a second pass. The stream
of that pass does not outlive the temporary it is assigned from; if it did, the pass would still
have to find nothing of its own in the arguments. -/
theorem verbatim_iff_not_deferred (t : Template) (as : List (List UInt8))
    (hnul : ∀ a ∈ as, ∀ c ∈ a, c ≠ 0) (hcount : t.plainCount ≤ as.length) (hbound : t.Bound) :
    (format (D := D) ByteEStream.moveAssign t.text (as.map .cstring) = .ok (t.verbatim as as) ↔
        t.deferred = false) ∧
      (t.deferred = true → t.Clean as → t.Short →
        format (D := D) id t.text (as.map .cstring) = .ok (t.verbatim as as)) := by
  have hfirst := firstPass_template (D := D) hnul hcount
  have hflags := passed_flags (D := D) t as
  refine ⟨⟨fun h => ?_, fun hdeferred => ?_⟩, format_of_clean hnul hcount hbound⟩
  · cases hdeferred : t.deferred with
    | false => rfl
    | true => exact absurd h (format_moveAssign_ne_ok hfirst (hflags.mpr hdeferred))
  · rw [hdeferred, iff_false_right (by simp), not_or, Bool.not_eq_true, Bool.not_eq_true] at hflags
    rw [format_of_firstPass hfirst hflags.1 hflags.2, passed_deleteArgs, Outcome.bind_ok,
      passed_formatOut, Template.firstText_eq_verbatim hdeferred hcount]

theorem verbatim_braces :
    format (D := Empty) ByteEStream.moveAssign
        (Template.text [.plain true, .plain false])
        [.cstring [Byte.openBrace], .cstring [Byte.backslash, Byte.closeBrace]] =
      .ok [Byte.openBrace, Byte.backslash, Byte.closeBrace] ∧
    format (D := Empty) id (Template.text [.plain false, .reference 1]) [.cstring [Byte.quote]] =
      .ok [Byte.quote, Byte.quote] := by
  constructor
  · exact (verbatim_iff_not_deferred Empty [.plain true, .plain false]
      [[Byte.openBrace], [Byte.backslash, Byte.closeBrace]]
      (by simp [show Byte.openBrace ≠ 0 by decide, show Byte.backslash ≠ 0 by decide,
        show Byte.closeBrace ≠ 0 by decide]) (by decide)
      (by simp [Template.Bound])).1.mpr rfl
  · refine (verbatim_iff_not_deferred Empty [.plain false, .reference 1] [[Byte.quote]]
      (by simp [show Byte.quote ≠ 0 by decide]) (by decide) ?_).2 rfl ?_ ?_
    · simp [Template.Bound, Template.plainCount, Piece.isPlain]
    · simp +decide [Template.Clean, Inert]
    · simp [Template.Short, numDigits, numberMaxDigits]

/-- An opening brace behind an escape: the second pass takes it for a reference. -/
theorem not_verbatim_open_brace :
    format (D := Empty) ByteEStream.moveAssign (Template.text [.escaped false, .plain false])
        [.cstring [Byte.openBrace]] ≠
      .ok (Template.verbatim [[Byte.openBrace]] [.escaped false, .plain false]
        [[Byte.openBrace]]) ∧
    format (D := Empty) id (Template.text [.escaped false, .plain false])
        [.cstring [Byte.openBrace]] ≠
      .ok (Template.verbatim [[Byte.openBrace]] [.escaped false, .plain false]
        [[Byte.openBrace]]) := by
  have hnul : ∀ a ∈ [[Byte.openBrace]], ∀ c ∈ a, c ≠ 0 := by
    simp [show Byte.openBrace ≠ 0 by decide]
  have hfirst := firstPass_template (D := Empty) (t := [.escaped false, .plain false]) hnul
    (by decide)
  have hflags := (passed_flags (D := Empty) [.escaped false, .plain false]
    [[Byte.openBrace]]).mpr rfl
  refine ⟨format_moveAssign_ne_ok hfirst hflags, ?_⟩
  have hsecond : secondPass (D := Empty) 4 [plainArg false [Byte.openBrace]] 4 []
      (Tape.mk [Byte.backslash, Byte.openBrace, Byte.openBrace] none) = .thrown endOfData := by
    rw [secondPass_escape (Or.inl rfl), secondPass_brace_end]
  have hthrown := format_of_secondPass_thrown hfirst hflags hsecond
  intro h
  rw [List.map_singleton] at hthrown
  rw [hthrown] at h
  cases h

end
end WylesLibs.Format
