import WylesLibs.Library.Gregorian
import WylesLibs.Library.Delimited
import WylesLibs.Calendar.ECal
import WylesLibs.Format.Decimal

/-! How a date-time and its offset are written in each of the formats, and that what is written
can be read in one way only. -/
namespace WylesLibs.Calendar
open Library Library.Gregorian WylesLibs.Stream WylesLibs.Format

/-- An offset from UTC other than `Z`. -/
structure UtcOffset where
  negative : Bool
  hour : Nat
  minute : Nat
  minute_lt : minute < 60

namespace UtcOffset

def sign (o : UtcOffset) : Int := if o.negative then -1 else 1
def signChar (o : UtcOffset) : UInt8 := if o.negative then Byte.minus else Byte.plus
def seconds (o : UtcOffset) : Int := o.sign * (3600 * o.hour + 60 * o.minute)

/-- The seconds of an offset that may be `Z`. -/
def secondsOf : Option UtcOffset → Int
  | none => 0
  | some o => o.seconds

theorem signChar_ne (o : UtcOffset) : o.signChar ≠ Byte.upperZ := by
  unfold signChar
  split <;> decide

end UtcOffset

def digits2 (n : Nat) : List UInt8 := digitsText {} 2 n
def digits4 (n : Nat) : List UInt8 := digitsText {} 4 n

namespace DatetimeFormat

/-- The ISO formats have four digits for a year. -/
def HasYear : DatetimeFormat → Nat → Prop
  | .readable, _ => True
  | _, year => year ≤ 9999

def offsetText (format : DatetimeFormat) : Option UtcOffset → List UInt8
  | none => [Byte.upperZ]
  | some o =>
    o.signChar ::
      match format with
      | .iso8601 => decimal o.hour ++ digits2 o.minute
      | _ => decimal o.hour ++ Byte.colon :: digits2 o.minute

/-- A date-time in front of `rest`. -/
def dateText (format : DatetimeFormat) (dt : DateTime) (rest : List UInt8) : List UInt8 :=
  match format with
  | .readable =>
    monthName.getD dt.month [] ++ Byte.space :: (decimal dt.day ++ Byte.space ::
      (decimal dt.year ++ Byte.comma :: Byte.space :: (digits2 dt.hour ++ Byte.colon ::
        (digits2 dt.minute ++ Byte.colon :: (digits2 dt.second ++ Byte.space :: rest)))))
  | .iso8601Readable =>
    digits4 dt.year ++ Byte.minus :: (digits2 dt.month ++ Byte.minus :: (digits2 dt.day ++
      Byte.upperT :: (digits2 dt.hour ++ Byte.colon :: (digits2 dt.minute ++ Byte.colon ::
        (digits2 dt.second ++ rest)))))
  | .iso8601 =>
    digits4 dt.year ++ (digits2 dt.month ++ (digits2 dt.day ++ Byte.upperT ::
      (digits2 dt.hour ++ (digits2 dt.minute ++ (digits2 dt.second ++ rest)))))

def text (format : DatetimeFormat) (dt : DateTime) (o : Option UtcOffset) : List UInt8 :=
  format.dateText dt (format.offsetText o)

end DatetimeFormat

/-- Read as a local date-time, the text stands for the instant `t`. -/
def Denotes (format : DatetimeFormat) (text : List UInt8) (t : Int) : Prop :=
  ∃ dt o, format.HasYear dt.year ∧ text = format.text dt o ∧
    dt.seconds - UtcOffset.secondsOf o = t

/-! Reading back. -/

theorem digitsText_append_inj {k m n : Nat} {rest rest' : List UInt8} (hm : m < 10 ^ k)
    (hn : n < 10 ^ k) (h : digitsText {} k m ++ rest = digitsText {} k n ++ rest') :
    m = n ∧ rest = rest' := by
  obtain ⟨htext, hrest⟩ := List.append_inj h (by simp only [length_digitsText])
  have hvalue : digitsValue (digitsText {} k m) 0 = m := digitsValue_digitsText rfl hm
  rw [htext, digitsValue_digitsText rfl hn] at hvalue
  exact ⟨hvalue.symm, hrest⟩

theorem decimal_append_inj {m n : Nat} {c c' : UInt8} {rest rest' : List UInt8}
    (hc : isDigit c = false) (hc' : isDigit c' = false)
    (h : decimal m ++ c :: rest = decimal n ++ c' :: rest') : m = n ∧ rest = rest' := by
  obtain ⟨htext, hrest⟩ := delimited_inj (decimal_isDigit m) (decimal_isDigit n) (by simp [hc])
    (by simp [hc']) h
  have hvalue := congrArg (digitsValue · 0) htext
  simp only [digitsValue_decimal] at hvalue
  exact ⟨hvalue, hrest⟩

theorem monthName_letters {m : Nat} (hm : m ≤ 12) :
    ∀ c ∈ monthName.getD m [], c ≠ Byte.space ∧ c ≠ 0 := by
  have hall : monthName.all (·.all fun c => c != Byte.space && c != 0) = true := by rfl
  simp only [List.all_eq_true, Bool.and_eq_true, bne_iff_ne] at hall
  refine hall _ ?_
  rw [List.getD_eq_getElem _ _ (Nat.lt_succ_of_le hm)]
  exact List.getElem_mem _

theorem monthName_ne_space {m : Nat} (hm : m ≤ 12) :
    ∀ c ∈ monthName.getD m [], c ≠ Byte.space := fun c hc => (monthName_letters hm c hc).1

theorem monthNum_monthName {m : Nat} (h₁ : 1 ≤ m) (h₁₂ : m ≤ 12) :
    monthNum (monthName.getD m [] ++ [Byte.space]) = m := by
  interval_cases m <;> decide

theorem monthName_append_inj {m n : Nat} {rest rest' : List UInt8} (hm₁ : 1 ≤ m) (hm : m ≤ 12)
    (hn₁ : 1 ≤ n) (hn : n ≤ 12)
    (h : monthName.getD m [] ++ Byte.space :: rest = monthName.getD n [] ++ Byte.space :: rest') :
    m = n ∧ rest = rest' := by
  obtain ⟨hname, hrest⟩ := delimited_inj (monthName_ne_space hm) (monthName_ne_space hn)
    (by simp) (by simp) h
  have hnum := monthNum_monthName hm₁ hm
  rw [hname, monthNum_monthName hn₁ hn] at hnum
  exact ⟨hnum.symm, hrest⟩

namespace DatetimeFormat
variable {format : DatetimeFormat} {o o' : Option UtcOffset} {dt dt' : DateTime}

/-- Sign, hour and minute of an offset as they are read from its text. -/
theorem offsetText_inv {c : UInt8} {hour : Nat} {minuteText : List UInt8} {o : UtcOffset}
    (h : c :: (decimal hour ++ Byte.colon :: minuteText) = format.offsetText (some o))
    (hformat : format ≠ .iso8601) :
    c = o.signChar ∧ hour = o.hour ∧ digitsValue minuteText 0 = o.minute := by
  have hcolon : isDigit Byte.colon = false := by decide
  have hlt := o.minute_lt
  have hboth : decimal hour ++ Byte.colon :: minuteText =
      decimal o.hour ++ Byte.colon :: digits2 o.minute := by
    cases format with
    | iso8601 => exact absurd rfl hformat
    | readable => exact (List.cons.inj h).2
    | iso8601Readable => exact (List.cons.inj h).2
  obtain ⟨hhour, rfl⟩ := decimal_append_inj hcolon hcolon hboth
  exact ⟨(List.cons.inj h).1, hhour, digitsValue_digitsText rfl (by omega)⟩

theorem offsetText_iso8601_inv {c : UInt8} {hour minute : Nat} {o : UtcOffset} (hminute : minute < 60)
    (h : c :: (decimal hour ++ digits2 minute) = iso8601.offsetText (some o)) :
    c = o.signChar ∧ hour = o.hour ∧ minute = o.minute := by
  have hlt := o.minute_lt
  obtain ⟨hhour, htwo⟩ := List.append_inj' (List.cons.inj h).2
    (by simp only [digits2, length_digitsText])
  have hvalue := congrArg (digitsValue · 0) hhour
  simp only [digitsValue_decimal] at hvalue
  have hminute' : digits2 minute ++ [] = digits2 o.minute ++ [] := by rw [htwo]
  exact ⟨(List.cons.inj h).1, hvalue,
    (digitsText_append_inj (by omega) (by omega) hminute').1⟩

/-- A text is written for one date-time only, whatever follows. -/
theorem dateText_inj {rest rest' : List UInt8} (hyear : format.HasYear dt.year)
    (hyear' : format.HasYear dt'.year) (h : format.dateText dt rest = format.dateText dt' rest') :
    dt.seconds = dt'.seconds ∧ rest = rest' := by
  have hmonth := dt.month_le
  have hmonth' := dt'.month_le
  have hday := dt.day_le.trans (daysInMonth_le _ _)
  have hday' := dt'.day_le.trans (daysInMonth_le _ _)
  have hhour := dt.hour_lt
  have hhour' := dt'.hour_lt
  have hminute := dt.minute_lt
  have hminute' := dt'.minute_lt
  have hsecond := dt.second_lt
  have hsecond' := dt'.second_lt
  have hall : dt.year = dt'.year ∧ dt.month = dt'.month ∧ dt.day = dt'.day ∧ dt.hour = dt'.hour ∧
      dt.minute = dt'.minute ∧ dt.second = dt'.second ∧ rest = rest' := by
    cases format with
    | readable =>
      obtain ⟨h₁, h⟩ := monthName_append_inj dt.month_pos hmonth dt'.month_pos hmonth' h
      obtain ⟨h₂, h⟩ := decimal_append_inj (by decide) (by decide) h
      obtain ⟨h₃, h⟩ := decimal_append_inj (by decide) (by decide) h
      obtain ⟨h₄, h⟩ := digitsText_append_inj (by omega) (by omega) (List.cons.inj h).2
      obtain ⟨h₅, h⟩ := digitsText_append_inj (by omega) (by omega) (List.cons.inj h).2
      obtain ⟨h₆, h⟩ := digitsText_append_inj (by omega) (by omega) (List.cons.inj h).2
      exact ⟨h₃, h₁, h₂, h₄, h₅, h₆, (List.cons.inj h).2⟩
    | iso8601Readable =>
      simp only [HasYear] at hyear hyear'
      obtain ⟨h₁, h⟩ := digitsText_append_inj (by omega) (by omega) h
      obtain ⟨h₂, h⟩ := digitsText_append_inj (by omega) (by omega) (List.cons.inj h).2
      obtain ⟨h₃, h⟩ := digitsText_append_inj (by omega) (by omega) (List.cons.inj h).2
      obtain ⟨h₄, h⟩ := digitsText_append_inj (by omega) (by omega) (List.cons.inj h).2
      obtain ⟨h₅, h⟩ := digitsText_append_inj (by omega) (by omega) (List.cons.inj h).2
      obtain ⟨h₆, h⟩ := digitsText_append_inj (by omega) (by omega) (List.cons.inj h).2
      exact ⟨h₁, h₂, h₃, h₄, h₅, h₆, h⟩
    | iso8601 =>
      simp only [HasYear] at hyear hyear'
      obtain ⟨h₁, h⟩ := digitsText_append_inj (by omega) (by omega) h
      obtain ⟨h₂, h⟩ := digitsText_append_inj (by omega) (by omega) h
      obtain ⟨h₃, h⟩ := digitsText_append_inj (by omega) (by omega) h
      obtain ⟨h₄, h⟩ := digitsText_append_inj (by omega) (by omega) (List.cons.inj h).2
      obtain ⟨h₅, h⟩ := digitsText_append_inj (by omega) (by omega) h
      obtain ⟨h₆, h⟩ := digitsText_append_inj (by omega) (by omega) h
      exact ⟨h₁, h₂, h₃, h₄, h₅, h₆, h⟩
  obtain ⟨h₁, h₂, h₃, h₄, h₅, h₆, h₇⟩ := hall
  exact ⟨by simp only [DateTime.seconds, DateTime.secondOfYear, h₁, h₂, h₃, h₄, h₅, h₆], h₇⟩

end DatetimeFormat

/-- What a text that starts with a date-time stands for. -/
theorem denotes_dateText_iff {format : DatetimeFormat} {dt : DateTime} {rest : List UInt8} {t : Int}
    (hyear : format.HasYear dt.year) :
    Denotes format (format.dateText dt rest) t ↔
      ∃ o, rest = format.offsetText o ∧ dt.seconds - UtcOffset.secondsOf o = t := by
  constructor
  · rintro ⟨dt', o, hyear', htext, rfl⟩
    obtain ⟨hseconds, hrest⟩ := DatetimeFormat.dateText_inj hyear hyear' htext
    exact ⟨o, hrest, by rw [hseconds]⟩
  · rintro ⟨o, rfl, h⟩
    exact ⟨dt, o, hyear, rfl, h⟩

end WylesLibs.Calendar
