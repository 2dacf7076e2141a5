import WylesLibs.EStream.Naturals
import WylesLibs.Json.Layout

/-! Number literals as JSON has them, and which of them the parser reads. -/
namespace WylesLibs.Parser.Json
open Library WylesLibs.Stream

/-! The literals. -/

structure Exponent where
  upper : Bool
  sign : Option Bool
  digits : List UInt8
  digits_ne : digits ≠ []
  digits_isDigit : ∀ d ∈ digits, isDigit d = true
  magnitude : digitsValue digits 0 ≤ fltMaxExpAbs

/-- At most ten digits in front of the point and at most ten behind it. -/
structure NumberLiteral where
  negative : Bool
  integer : List UInt8
  fraction : Option (List UInt8)
  exponent : Option Exponent
  integer_ne : integer ≠ []
  integer_isDigit : ∀ d ∈ integer, isDigit d = true
  /-- No zero in front of other digits. -/
  integer_head : integer.head? = some 0x30 → integer.length = 1
  integer_length : integer.length ≤ 10
  fraction_isDigit : ∀ ds ∈ fraction, ds ≠ [] ∧ (∀ d ∈ ds, isDigit d = true) ∧ ds.length ≤ 10

namespace Exponent

/-- `true` is a minus. -/
def signText : Option Bool → List UInt8
  | none => []
  | some true => [Byte.minus]
  | some false => [Byte.plus]

def letter (e : Exponent) : UInt8 := if e.upper then 0x45 else 0x65

def text (e : Exponent) : List UInt8 := e.letter :: (signText e.sign ++ e.digits)

def factor (e : Exponent) : ℚ :=
  if e.sign = some true then (10 ^ digitsValue e.digits 0)⁻¹ else 10 ^ digitsValue e.digits 0

end Exponent

namespace NumberLiteral

def mantissa (n : NumberLiteral) : NumberText := ⟨n.integer, n.fraction⟩

def exponentText (n : NumberLiteral) : List UInt8 :=
  match n.exponent with
  | none => []
  | some e => e.text

def text (n : NumberLiteral) : List UInt8 :=
  (if n.negative then [Byte.minus] else []) ++ n.mantissa.text ++ n.exponentText

def fractionValue (n : NumberLiteral) : ℚ :=
  match n.fraction with
  | none => 0
  | some ds => digitsValue ds 0 / 10 ^ ds.length

def value (n : NumberLiteral) : ℚ :=
  (if n.negative then -1 else 1) * (digitsValue n.integer 0 + n.fractionValue) *
    match n.exponent with
    | none => 1
    | some e => e.factor

theorem mantissa_valid (n : NumberLiteral) : n.mantissa.Valid where
  natural := n.integer_isDigit
  naturalLength := n.integer_length
  decimal ds hds := (n.fraction_isDigit ds hds).2

end NumberLiteral

/-! The value of the digits. -/

theorem digitsValue_add (ds : List UInt8) (v : Nat) :
    digitsValue ds v = v * 10 ^ ds.length + digitsValue ds 0 := by
  induction ds generalizing v with
  | nil => simp [digitsValue]
  | cons d ds ih =>
    have hstep : ∀ v, digitsValue (d :: ds) v = digitsValue ds (v * 10 + (d.toNat - 0x30)) :=
      fun _ => rfl
    rw [hstep, hstep, ih, ih (0 * 10 + (d.toNat - 0x30)), List.length_cons]
    ring

theorem decimalStep_rat (k : DecimalCollector ℚ) (d : UInt8) :
    decimalStep k d = ⟨k.decimalDivisor * 10, k.digitCount + 1,
      k.value + (((d.toNat : Int) - 0x30 : Int) : ℚ) / k.decimalDivisor⟩ := rfl

/-- The digits behind the point, the first of them being divided by `10 ^ (k + 1)`. -/
theorem foldl_decimalStep_value {ds : List UInt8} (hds : ∀ d ∈ ds, isDigit d = true) (k n : Nat)
    (v : ℚ) : (ds.foldl decimalStep (⟨10 ^ (k + 1), n, v⟩ : DecimalCollector ℚ)).value =
      v + digitsValue ds 0 / 10 ^ (k + ds.length) := by
  induction ds generalizing k n v with
  | nil => simp [digitsValue]
  | cons d ds ih =>
    obtain ⟨hd, hds⟩ := List.forall_mem_cons.mp hds
    obtain ⟨hlo, -⟩ := digit_bounds hd
    have hcast : (((d.toNat : Int) - 0x30 : Int) : ℚ) = ((d.toNat - 0x30 : Nat) : ℚ) := by
      rw [Nat.cast_sub hlo]
      push_cast
      rfl
    have hstep : decimalStep (⟨10 ^ (k + 1), n, v⟩ : DecimalCollector ℚ) d =
        ⟨10 ^ (k + 1 + 1), n + 1, v + ((d.toNat - 0x30 : Nat) : ℚ) / 10 ^ (k + 1)⟩ := by
      rw [decimalStep_rat, hcast, pow_succ 10 (k + 1)]
    have hvalue : digitsValue (d :: ds) 0 =
        (d.toNat - 0x30) * 10 ^ ds.length + digitsValue ds 0 := by
      rw [← digitsValue_add]
      simp [digitsValue]
    rw [List.foldl_cons, hstep, ih hds, hvalue, List.length_cons]
    push_cast
    field_simp
    ring

theorem NumberLiteral.mantissa_value (n : NumberLiteral) :
    (n.mantissa.value : ℚ) = digitsValue n.integer 0 + n.fractionValue := by
  obtain ⟨negative, integer, fraction, exponent, -, -, -, -, hfraction⟩ := n
  cases fraction with
  | none => exact (add_zero _).symm
  | some ds =>
    have hfold := foldl_decimalStep_value (hfraction ds rfl).2.1 0 0 0
    rw [zero_add, zero_add, pow_one, zero_add] at hfold
    exact congrArg (fun x : ℚ => digitsValue integer 0 + x) hfold

/-! The reads, on any stream. -/

section
variable {s : EStream UInt8} {ds rest : List UInt8} {c : UInt8} {t : NumberText}

theorem contains_readNatural (h : Contains s (ds ++ c :: rest)) (hds : ∀ d ∈ ds, isDigit d = true)
    (hc : isDigit c = false) (hlen : ds.length ≤ numberMaxDigits) :
    ∃ s', readNatural s = .ok ((digitsValue ds 0, ds.length), s') ∧ Contains s' (c :: rest) := by
  obtain ⟨ds', c', rest', s', hl, hds', hc', -, hs, h'⟩ | ⟨-, htoo⟩ := readNatural_cases h
  · obtain ⟨rfl, -⟩ := delimited_inj hds hds' (by simp [hc]) (by simp [hc']) hl
    cases List.append_cancel_left hl
    exact ⟨s', hs, h'⟩
  · exact absurd (htoo ds c rest rfl hds hc) (Nat.not_lt.mpr hlen)

variable {D : Type} [DoubleArith D]

theorem contains_streamCollect_decimal (h : Contains s (ds ++ c :: rest))
    (hds : ∀ d ∈ ds, isDigit d = true) (hc : isDigit c = false) (hlen : ds.length ≤ numberMaxDigits)
    {k : DecimalCollector D} (hk : k = ⟨DoubleArith.ofNat 10, 0, DoubleArith.ofNat 0⟩) :
    ∃ s', streamCollect (ByteIsCharClassCriteria.mk' ByteIsCharClassCriteria.digitClass)
        (none : Option (NullTask UInt8)) k s =
      .ok ((((ds.foldl decimalStep k).value, ds.length), none), s') ∧ Contains s' (c :: rest) := by
  have hinit : (Collector.init k : DecimalCollector D) = k := hk.symm
  have hcount : k.digitCount = 0 := by rw [hk]
  have hgather := (gather_decimal ds k _ (by omega)).mpr ⟨by omega, rfl⟩
  have hlist := @streamCollect_digits_ok _ _ _ ds rest c _ hds hc hlen k (hinit.symm ▸ hgather)
  obtain ⟨r, l', s', hlist', -, hs, h'⟩ | ⟨-, hnone⟩ := Contains.streamCollect_cases
    (ByteIsCharClassCriteria.mk' ByteIsCharClassCriteria.digitClass)
    (none : Option (NullTask UInt8)) k h
  · rw [hlist] at hlist'
    cases hlist'
    refine ⟨s', hs.trans ?_, h'⟩
    simp [Collector.collect, hinit, hcount]
  · exact absurd (hnone _ _ hlist).1 (List.cons_ne_nil c rest)

theorem contains_readDecimal (h : Contains s (t.text ++ c :: rest)) (hv : t.Valid)
    (hc : isDigit c = false) (hdot : c ≠ Byte.dot) :
    ∃ s', readDecimal s = .ok (((t.value : D), t.natural.length, t.decimalDigits), s') ∧
      Contains s' (c :: rest) := by
  obtain ⟨natural, decimal⟩ := t
  cases decimal with
  | none =>
    obtain ⟨s₁, hnatural, h₁⟩ := contains_readNatural h hv.natural hc hv.naturalLength
    obtain ⟨s₂, hpeek, h₂⟩ := h₁.peek
    refine ⟨s₂, ?_, h₂⟩
    simp only [NumberText.text] at hnatural
    simp [readDecimal, hnatural, hpeek, hdot, NumberText.value, NumberText.decimalDigits]
  | some ds =>
    obtain ⟨hds, hlen⟩ := hv.decimal ds rfl
    have htext : NumberText.text ⟨natural, some ds⟩ ++ c :: rest =
        natural ++ Byte.dot :: (ds ++ c :: rest) := by simp [NumberText.text]
    rw [htext] at h
    obtain ⟨s₁, hnatural, h₁⟩ := contains_readNatural h hv.natural (by decide) hv.naturalLength
    obtain ⟨s₂, hpeek, h₂⟩ := h₁.peek
    obtain ⟨s₃, hget, h₃⟩ := h₂.get
    obtain ⟨s₄, hdecimal, h₄⟩ := contains_streamCollect_decimal (D := D) h₃ hds hc hlen rfl
    refine ⟨s₄, ?_, h₄⟩
    simp [readDecimal, hnatural, hpeek, hget, hdecimal, NumberText.value, NumberText.decimalDigits]

/-- What `parseNumber` makes of the digits up to the byte `c` that follows them. -/
theorem contains_parseNumber (h : Contains s (t.text ++ c :: rest)) (hv : t.Valid)
    (hne : t.natural ≠ []) (hc : isDigit c = false) (hdot : c ≠ Byte.dot) (hminus : c ≠ Byte.minus)
    (hplus : c ≠ Byte.plus) (obj : JsonArray D) :
    (behindNumber c → ∃ s', parseNumber obj s =
      .ok (obj.addValue (.number t.value t.natural.length t.decimalDigits), s') ∧
        Contains s' (c :: rest)) ∧
    (¬ behindNumber c → ∃ w, parseNumber obj s = .thrown w) := by
  obtain ⟨d, l, hl, hd⟩ := numberText_head hne hv (c :: rest)
  have hsign : d ≠ Byte.minus := by
    rintro rfl
    exact absurd hd (by decide)
  rw [hl] at h
  obtain ⟨s₁, hpeek₁, h₁⟩ := h.peek
  obtain ⟨s₂, hpeek₂, h₂⟩ := h₁.peek
  rw [← hl] at h₂
  obtain ⟨s₃, hdecimal, h₃⟩ := contains_readDecimal (D := D) h₂ hv hc hdot
  obtain ⟨s₄, hpeek₄, h₄⟩ := h₃.peek
  constructor
  · intro hbehind
    by_cases he : c = 0x65 ∨ c = 0x45
    · obtain ⟨s₅, hpeek₅, h₅⟩ := h₄.peek
      obtain ⟨s₆, hnatural, h₆⟩ := @contains_readNatural _ [] _ _ h₅ (by simp) hc (Nat.zero_le _)
      refine ⟨s₆, ?_, h₆⟩
      simp [parseNumber, hpeek₁, hpeek₂, hd, hdecimal, hpeek₄, hpeek₅, he, hminus, hplus, hnatural,
        hsign, DoubleArith.mul_one, digitsValue]
    · have hmem : c ∈ numberEnd := by simpa [behindNumber, he] using hbehind
      refine ⟨s₄, ?_, h₄⟩
      simp [parseNumber, hpeek₁, hpeek₂, hd, hdecimal, hpeek₄, he, hmem, hsign, DoubleArith.mul_one]
  · intro hbehind
    have hnot : ¬ (c = 0x65 ∨ c = 0x45) := fun he => hbehind (Or.inr he)
    have hmem : c ∉ numberEnd := fun hmem => hbehind (Or.inl hmem)
    refine ⟨"Invalid number.", ?_⟩
    simp [parseNumber, hpeek₁, hpeek₂, hd, hdecimal, hpeek₄, hnot, hmem]

end

/-! A number in the place of a value. -/

/-- What may follow a value in an object or an array. -/
def Terminator (c : UInt8) : Prop := isWhitespace c = true ∨ c ∈ valueEnd

theorem terminator_spec {c : UInt8} (hc : Terminator c) :
    isDigit c = false ∧ c ≠ Byte.dot ∧ c ≠ Byte.minus ∧ c ≠ Byte.plus ∧
      (behindNumber c ↔ c ≠ Byte.closeBracket) := by
  have hcases : c = 0x0D ∨ c = 0x0A ∨ c = 0x09 ∨ c = 0x20 ∨ c = Byte.comma ∨ c = Byte.closeBrace ∨
      c = Byte.closeBracket := by
    obtain hspace | hend := hc
    · obtain h | h | h | h := whitespace_cases hspace <;> simp [h]
    · simp only [valueEnd, List.mem_cons, List.not_mem_nil, or_false] at hend
      obtain h | h | h := hend <;> simp [h]
  have hmem : ∀ c : UInt8, c ∈ numberEnd → behindNumber c := fun _ => Or.inl
  obtain rfl | rfl | rfl | rfl | rfl | rfl | rfl := hcases
  · exact ⟨by decide, by decide, by decide, by decide, fun _ => by decide, fun _ => hmem _ (by decide)⟩
  · exact ⟨by decide, by decide, by decide, by decide, fun _ => by decide, fun _ => hmem _ (by decide)⟩
  · exact ⟨by decide, by decide, by decide, by decide, fun _ => by decide, fun _ => hmem _ (by decide)⟩
  · exact ⟨by decide, by decide, by decide, by decide, fun _ => by decide, fun _ => hmem _ (by decide)⟩
  · exact ⟨by decide, by decide, by decide, by decide, fun _ => by decide, fun _ => hmem _ (by decide)⟩
  · exact ⟨by decide, by decide, by decide, by decide, fun _ => by decide, fun _ => hmem _ (by decide)⟩
  · refine ⟨by decide, by decide, by decide, by decide, ?_, fun hne => absurd rfl hne⟩
    rintro (hend | hletter)
    · exact absurd hend (by decide)
    · exact absurd hletter (by decide)

theorem Exponent.behindNumber_letter (e : Exponent) : behindNumber e.letter := by
  rw [Exponent.letter]
  split
  · exact Or.inr (Or.inr rfl)
  · exact Or.inr (Or.inl rfl)

section
variable {s : EStream UInt8} {n : NumberLiteral} {c : UInt8} {rest l : List UInt8}
variable {nestedArray : JsonArray ℚ → Prog (EStream UInt8) (JsonArray ℚ)}
variable {nestedObject : JsonObject ℚ → Prog (EStream UInt8) (JsonObject ℚ)}

/-- A turn of the loop of `parseValue` that finds a number. -/
def valueTurn (nestedArray : JsonArray ℚ → Prog (EStream UInt8) (JsonArray ℚ))
    (nestedObject : JsonObject ℚ → Prog (EStream UInt8) (JsonObject ℚ)) (obj : JsonArray ℚ) :
    Prog (EStream UInt8) (JsonArray ℚ × Bool) := do
  let c ← (peek : Prog (EStream UInt8) UInt8)
  parseToken nestedArray nestedObject obj c

/-- It is the turn that `parseValue` makes at a byte that does not end the values. -/
theorem parseValue_turn {d : UInt8} (h : Contains s (d :: l)) (hd : d ∉ valueEnd) (steps : Nat)
    (obj : JsonArray ℚ) :
    parseValue (steps + 1) obj s =
      (valueTurn (fun arr => get >>= parseArrayLoop steps arr)
        (fun new => get >>= parseObjectLoop steps new) obj s).bind fun r =>
          (peek >>= parseValueLoop steps r.1.1 r.1.2) r.2 := by
  obtain ⟨s', hpeek, -⟩ := h.peek
  simp only [parseValue, valueTurn, Prog.bind_apply, hpeek, Outcome.bind_ok]
  rw [parseValueLoop, if_neg hd]
  rfl

theorem valueTurn_minus (h : Contains s (Byte.minus :: l)) (obj : JsonArray ℚ) :
    ∃ w, valueTurn nestedArray nestedObject obj s = .thrown w := by
  obtain ⟨s₁, hpeek₁, h₁⟩ := h.peek
  obtain ⟨s₂, hpeek₂, h₂⟩ := h₁.peek
  obtain ⟨s₃, hpeek₃, -⟩ := h₂.peek
  have hdigit : isDigit Byte.minus = false := by decide
  have hquote : Byte.minus ≠ Byte.quote := by decide
  refine ⟨"Invalid number.", ?_⟩
  simp [valueTurn, hpeek₁, parseToken, hquote, parseNumber, hpeek₂, hpeek₃, hdigit]

/-- No call of `parseValue` gets past a minus sign. -/
theorem parseValue_minus (h : Contains s (Byte.minus :: l)) (steps : Nat) (obj : JsonArray ℚ) :
    ∃ w, parseValue (steps + 1) obj s = .thrown w := by
  obtain ⟨w, hw⟩ := valueTurn_minus h obj
  rw [parseValue_turn h (by decide), hw]
  exact ⟨w, rfl⟩

theorem valueTurn_digit {d : UInt8} (h : Contains s (d :: l)) (hd : isDigit d = true)
    (obj : JsonArray ℚ) :
    ∃ s', Contains s' (d :: l) ∧ valueTurn nestedArray nestedObject obj s =
      (parseNumber obj s').bind fun r => .ok ((r.1, true), r.2) := by
  obtain ⟨s', hpeek, h'⟩ := h.peek
  refine ⟨s', h', ?_⟩
  rw [valueTurn, Prog.bind_apply, hpeek, Outcome.bind_ok, parseToken_digit hd]
  rfl

/-- The literal is read with its value, up to what follows it, if it has neither a sign nor an
exponent and does not end an array. -/
theorem number_value_iff (hc : Terminator c) (h : Contains s (n.text ++ c :: rest))
    (obj : JsonArray ℚ) :
    (∃ s', valueTurn nestedArray nestedObject obj s =
        .ok ((obj.addValue (.number n.value n.integer.length n.mantissa.decimalDigits), true), s') ∧
      Contains s' (c :: rest)) ↔
      n.negative = false ∧ n.exponent = none ∧ c ≠ Byte.closeBracket := by
  cases hsign : n.negative with
  | true =>
    have htext : n.text ++ c :: rest =
        Byte.minus :: (n.mantissa.text ++ n.exponentText ++ c :: rest) := by
      simp [NumberLiteral.text, hsign]
    rw [htext] at h
    obtain ⟨w, hthrown⟩ := @valueTurn_minus _ _ nestedArray nestedObject h obj
    simp [hthrown]
  | false =>
    -- the byte behind the digits
    obtain ⟨b, more, htext, hb⟩ : ∃ b more, n.text ++ c :: rest = n.mantissa.text ++ b :: more ∧
        ((n.exponent = none ∧ b = c ∧ more = rest) ∨
          ∃ e, n.exponent = some e ∧ b = e.letter ∧
            more = Exponent.signText e.sign ++ e.digits ++ c :: rest) := by
      cases hexp : n.exponent with
      | none => exact ⟨c, rest, by simp [NumberLiteral.text, NumberLiteral.exponentText, hsign, hexp],
          Or.inl ⟨rfl, rfl, rfl⟩⟩
      | some e => exact ⟨e.letter, _, by
          simp [NumberLiteral.text, NumberLiteral.exponentText, hsign, hexp, Exponent.text],
          Or.inr ⟨e, rfl, rfl, rfl⟩⟩
    have hspec : isDigit b = false ∧ b ≠ Byte.dot ∧ b ≠ Byte.minus ∧ b ≠ Byte.plus := by
      obtain ⟨-, rfl, -⟩ | ⟨e, -, rfl, -⟩ := hb
      · obtain ⟨h₁, h₂, h₃, h₄, -⟩ := terminator_spec hc
        exact ⟨h₁, h₂, h₃, h₄⟩
      · exact behindNumber_spec e.behindNumber_letter
    obtain ⟨hdigit, hdot, hminus, hplus⟩ := hspec
    rw [htext] at h
    obtain ⟨d, l, hl, hd⟩ := numberText_head (t := n.mantissa) n.integer_ne n.mantissa_valid (b :: more)
    rw [hl] at h
    obtain ⟨s₁, h₁, hturn⟩ := valueTurn_digit h hd obj
    rw [← hl] at h₁
    obtain ⟨hok, hthrown⟩ := contains_parseNumber h₁ n.mantissa_valid n.integer_ne hdigit hdot hminus
      hplus obj
    rw [hturn]
    obtain ⟨hexp, rfl, rfl⟩ | ⟨e, hexp, rfl, rfl⟩ := hb
    · have hbehind := (terminator_spec hc).2.2.2.2
      by_cases hclose : b = Byte.closeBracket
      · obtain ⟨w, hw⟩ := hthrown fun hb => (hbehind.mp hb) hclose
        simp [hw, hclose]
      · obtain ⟨s₂, hs₂, h₂⟩ := hok (hbehind.mpr hclose)
        have hvalue : n.value = n.mantissa.value := by
          rw [n.mantissa_value, NumberLiteral.value, hexp, hsign]
          simp
        refine ⟨fun _ => ⟨rfl, hexp, hclose⟩, fun _ => ⟨s₂, ?_, h₂⟩⟩
        rw [hs₂, Outcome.bind_ok, hvalue]
        rfl
    · obtain ⟨s₂, hs₂, h₂⟩ := hok e.behindNumber_letter
      constructor
      · rintro ⟨s', hs', h'⟩
        rw [hs₂, Outcome.bind_ok] at hs'
        obtain rfl : s₂ = s' := (Prod.mk.inj (Outcome.ok.inj hs')).2
        -- the letter of the exponent is still there
        have hlen := congrArg List.length (h₂.remaining.symm.trans h'.remaining)
        simp only [List.length_cons, List.length_append] at hlen
        omega
      · rintro ⟨-, hnone, -⟩
        rw [hexp] at hnone
        cases hnone

/-- The literal `1`. -/
def one : NumberLiteral :=
  ⟨false, [0x31], none, none, by simp, by simp [isDigit], fun _ => rfl, by decide, by simp⟩

theorem number_value_one : ∃ s',
    valueTurn (fun arr => pure arr) (fun new => pure new) ⟨0, []⟩
        (EStream.ofBuffer [0x31, Byte.comma]) =
      .ok ((⟨0, [.number one.value 1 0]⟩, true), s') ∧ Contains s' [Byte.comma] := by
  have h : Contains (EStream.ofBuffer [0x31, Byte.comma]) (one.text ++ Byte.comma :: []) :=
    Or.inl (holds_ofBuffer _)
  exact (number_value_iff (Or.inr (by simp [valueEnd])) h ⟨0, []⟩).mpr ⟨rfl, rfl, by decide⟩

/-- A number that ends an array is refused. -/
theorem number_value_closeBracket :
    ¬ ∀ (n : NumberLiteral) (c : UInt8) (rest : List UInt8) (s : EStream UInt8)
      (nestedArray : JsonArray ℚ → Prog (EStream UInt8) (JsonArray ℚ))
      (nestedObject : JsonObject ℚ → Prog (EStream UInt8) (JsonObject ℚ)) (obj : JsonArray ℚ),
      Terminator c → Contains s (n.text ++ c :: rest) →
        ∃ s', valueTurn nestedArray nestedObject obj s =
          .ok ((obj.addValue (.number n.value n.integer.length n.mantissa.decimalDigits), true), s') ∧
            Contains s' (c :: rest) := by
  intro hevery
  have h : Contains (EStream.ofBuffer [0x31, Byte.closeBracket])
      (one.mantissa.text ++ Byte.closeBracket :: []) := Or.inl (holds_ofBuffer _)
  obtain ⟨s', hs', -⟩ := hevery one Byte.closeBracket [] _ (fun arr => pure arr) (fun new => pure new)
    ⟨0, []⟩ (Or.inr (by simp [valueEnd])) h
  obtain ⟨s₁, h₁, hturn⟩ := valueTurn_digit h (by decide) (⟨0, []⟩ : JsonArray ℚ)
  obtain ⟨-, hthrown⟩ := contains_parseNumber h₁ one.mantissa_valid one.integer_ne
    (c := Byte.closeBracket) (by decide) (by decide) (by decide) (by decide)
    (⟨0, []⟩ : JsonArray ℚ)
  have hclose : ¬ behindNumber Byte.closeBracket := by
    rintro (hend | hletter)
    · exact absurd hend (by decide)
    · exact absurd hletter (by decide)
  obtain ⟨w, hw⟩ := hthrown hclose
  rw [hturn, hw] at hs'
  cases hs'

end

end WylesLibs.Parser.Json
