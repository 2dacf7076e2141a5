import WylesLibs.Calendar.DateText
import WylesLibs.Calendar.Tables

/-! What the parsers make of a date-time as it is written. -/
namespace WylesLibs.Calendar
open Library Library.Gregorian WylesLibs.Stream WylesLibs.Format

/-! The stream stands for the list that it holds. -/

section
variable {σ τ : Type} {R : σ → τ → Prop}

theorem refines_isValidYear (year digits : Nat) :
    Prog.Refines R (isValidYear year digits) (isValidYear year digits) :=
  .ite (.lift _) (.pure _)

theorem refines_isValidMonth (month digits : Nat) :
    Prog.Refines R (isValidMonth month digits) (isValidMonth month digits) :=
  .ite (.lift _) (.pure _)

theorem refines_isValidDay (day digits : Nat) :
    Prog.Refines R (isValidDay day digits) (isValidDay day digits) :=
  .ite (.lift _) (.pure _)

theorem refines_isValidHr (hr digits : Nat) :
    Prog.Refines R (isValidHr hr digits) (isValidHr hr digits) :=
  .ite (.lift _) (.pure _)

theorem refines_isValidMin (min digits : Nat) :
    Prog.Refines R (isValidMin min digits) (isValidMin min digits) :=
  .ite (.lift _) (.pure _)

theorem refines_isValidSec (sec digits : Nat) :
    Prog.Refines R (isValidSec sec digits) (isValidSec sec digits) :=
  .ite (.lift _) (.pure _)

theorem refines_parseSign (c : UInt8) : Prog.Refines R (parseSign c) (parseSign c) :=
  .ite (.pure _) (.ite (.pure _) (.raise _))

variable [EStreamI σ UInt8] [EStreamI τ UInt8]

theorem refines_expect (h : EStreamSim R) (c : UInt8) (msg : String) :
    Prog.Refines R (expect c msg) (expect c msg) :=
  .bind (.of_sim h.get) fun _ => .ite (.raise _) (.pure _)

theorem refines_parseReadableOffset (h : EStreamSim R) :
    Prog.Refines R (parseReadableOffset : Prog σ _) parseReadableOffset := by
  refine .bind (.of_sim h.get) fun c => .ite ?_ (.pure _)
  refine .bind (refines_parseSign c) fun sign => .bind (.of_sim h.readNatural) fun hour => ?_
  refine .ite (.raise _) (.bind (refines_expect h _ _) fun _ => ?_)
  exact .bind (.of_sim (h.readNaturalN 2)) fun min => .ite (.raise _) (.pure _)

theorem refines_parseReadableDateTime (h : EStreamSim R) :
    Prog.Refines R (parseReadableDateTime : Prog σ _) parseReadableDateTime := by
  refine .bind (.of_sim (h.readStringUntil _ _ _)) fun month => ?_
  refine .bind (refines_isValidMonth _ _) fun _ => .bind (.of_sim h.readNatural) fun day => ?_
  refine .bind (refines_isValidDay _ _) fun _ => .bind (refines_expect h _ _) fun _ => ?_
  refine .bind (.of_sim h.readNatural) fun year => .bind (refines_isValidYear _ _) fun _ => ?_
  refine .bind (refines_expect h _ _) fun _ => .bind (refines_expect h _ _) fun _ => ?_
  refine .bind (.lift _) fun epoch => .bind (.lift _) fun months => ?_
  refine .bind (.of_sim h.readNatural) fun hr => .bind (refines_isValidHr _ _) fun _ => ?_
  refine .bind (refines_expect h _ _) fun _ => .bind (.of_sim h.readNatural) fun min => ?_
  refine .bind (refines_isValidMin _ _) fun _ => .bind (refines_expect h _ _) fun _ => ?_
  refine .bind (.of_sim h.readNatural) fun sec => .bind (refines_isValidSec _ _) fun _ => ?_
  refine .bind (refines_expect h _ _) fun _ => ?_
  exact .bind (refines_parseReadableOffset h) fun _ => .pure _

theorem refines_parseIso8601ReadableDateTime (h : EStreamSim R) :
    Prog.Refines R (parseIso8601ReadableDateTime : Prog σ _) parseIso8601ReadableDateTime := by
  have hread := fun untilEls consume => Prog.Refines.of_sim (h.readNaturalUntil untilEls consume)
  refine .bind (hread _ _) fun year => .bind (refines_isValidYear _ _) fun _ => ?_
  refine .bind (.lift _) fun epoch => .bind (hread _ _) fun month => ?_
  refine .bind (refines_isValidMonth _ _) fun _ => .bind (.lift _) fun months => ?_
  refine .bind (hread _ _) fun day => .bind (refines_isValidDay _ _) fun _ => ?_
  refine .bind (hread _ _) fun hr => .bind (refines_isValidHr _ _) fun _ => ?_
  refine .bind (hread _ _) fun min => .bind (refines_isValidMin _ _) fun _ => ?_
  refine .bind (hread _ _) fun sec => .bind (refines_isValidSec _ _) fun _ => ?_
  exact .bind (refines_parseReadableOffset h) fun _ => .pure _

theorem refines_parseIso8601DateTime (h : EStreamSim R) :
    Prog.Refines R (parseIso8601DateTime : Prog σ _) parseIso8601DateTime := by
  have hread := fun n => Prog.Refines.of_sim (h.readNaturalN n)
  refine .bind (hread _) fun year => .bind (refines_isValidYear _ _) fun _ => ?_
  refine .bind (.lift _) fun epoch => .bind (hread _) fun month => ?_
  refine .bind (refines_isValidMonth _ _) fun _ => .bind (.lift _) fun months => ?_
  refine .bind (hread _) fun day => .bind (refines_isValidDay _ _) fun _ => ?_
  refine .bind (.of_sim h.get) fun _ => ?_
  refine .bind (hread _) fun hr => .bind (refines_isValidHr _ _) fun _ => ?_
  refine .bind (hread _) fun min => .bind (refines_isValidMin _ _) fun _ => ?_
  refine .bind (hread _) fun sec => .bind (refines_isValidSec _ _) fun _ => ?_
  refine .bind (.of_sim h.get) fun c => .ite ?_ (.pure _)
  refine .bind (refines_parseSign c) fun sign => .bind (hread _) fun hour => ?_
  exact .ite (.raise _) (.bind (hread _) fun min => .ite (.raise _) (.pure _))

theorem refines_parseDateTime (h : EStreamSim R) (format : DatetimeFormat) :
    Prog.Refines R (parseDateTime format : Prog σ _) (parseDateTime format) := by
  cases format with
  | readable => exact refines_parseReadableDateTime h
  | iso8601 => exact refines_parseIso8601DateTime h
  | iso8601Readable => exact refines_parseIso8601ReadableDateTime h

end

theorem getEpochFromFormattedDateTime_eq (dt : List UInt8) (format : DatetimeFormat) :
    getEpochFromFormattedDateTime dt format = (parseDateTime format dt).bind fun r => .ok r.1 := by
  have hholds := holds_ofBuffer dt
  have hto := refines_parseDateTime holds_sim format _ _ hholds
  have hfrom := refines_parseDateTime (EStreamSim.symm holds_sim) format _ _ hholds
  rw [getEpochFromFormattedDateTime]
  obtain hundef | hrel := hto
  · obtain hundef' | hrel := hfrom
    · rw [hundef, hundef']
      rfl
    · exact absurd hundef hrel.ne_undef
  · generalize parseDateTime format (EStream.ofBuffer dt) = r at hrel
    generalize parseDateTime format dt = r' at hrel
    cases hrel <;> rfl

/-! The numbers of a text. -/

section
variable {n k : Nat} {c : UInt8} {rest : List UInt8}

theorem readNatural_decimal (rest : List UInt8) (hn : numDigits 10 n ≤ numberMaxDigits) (hc : isDigit c = false) :
    readNatural (decimal n ++ c :: rest) = .ok ((n, numDigits 10 n), c :: rest) := by
  refine readNatural_iff.mpr ⟨decimal n, c, rest, rfl, rfl, decimal_isDigit n, hc, ?_, ?_⟩
  · rwa [decimal, length_digitsText]
  · rw [digitsValue_decimal, decimal, length_digitsText]

theorem readNatural_digits2 (rest : List UInt8) (hn : n < 100) (hc : isDigit c = false) :
    readNatural (digits2 n ++ c :: rest) = .ok ((n, 2), c :: rest) := by
  refine readNatural_iff.mpr ⟨digits2 n, c, rest, rfl, rfl, digitsText_isDigit rfl hn, hc, ?_, ?_⟩
  · rw [digits2, length_digitsText]
    decide
  · rw [digits2, digitsValue_digitsText rfl hn, length_digitsText]

theorem readNaturalUntil_digitsText {untilEls : List UInt8} (consume : Bool) (rest : List UInt8)
    (hn : n < 10 ^ k)
    (hk : k ≤ numberMaxDigits) (hc : c ∈ untilEls)
    (huntil : ∀ v ∈ untilEls, isDigit v = false) :
    readNaturalUntil untilEls consume (digitsText {} k n ++ c :: rest) =
      .ok ((n, k), if consume then rest else c :: rest) := by
  have hdigits : ∀ d ∈ digitsText {} k n, isDigit d = true := digitsText_isDigit rfl hn
  have hread : readNaturalUntil untilEls consume (digitsText {} k n ++ c :: rest) = _ :=
    readNaturalUntil_ok hdigits (by rwa [length_digitsText]) hc huntil
  rwa [digitsValue_digitsText rfl hn, length_digitsText] at hread

theorem readNaturalN_digitsText (rest : List UInt8) (hn : n < 10 ^ k) (hpos : 0 < k) (hk : k ≤ numberMaxDigits) :
    readNaturalN k (digitsText {} k n ++ rest) = .ok ((n, k), rest) := by
  have hlen := length_digitsText {} k n
  have hdigits : ∀ d ∈ digitsText {} k n, isDigit d = true := digitsText_isDigit rfl hn
  have hne : digitsText {} k n ≠ [] := by
    intro hnil
    simp [hnil] at hlen
    omega
  have hread := readNaturalN_ok rest hdigits hne (by rwa [hlen])
  rwa [digitsValue_digitsText rfl hn, hlen] at hread

end

theorem numDigits_le_two {n : Nat} (hn : n < 100) : numDigits 10 n ≤ 2 :=
  numDigits_le (by decide) hn

/-! The offset. -/

namespace DatetimeFormat

/-- The seconds that are read of an offset: an `int16_t` but for the format without colons. -/
def parsedOffset (format : DatetimeFormat) (o : Option UtcOffset) : Int :=
  match format with
  | .iso8601 => UtcOffset.secondsOf o
  | _ => Int.bmod (UtcOffset.secondsOf o) (2 ^ 16)

end DatetimeFormat

theorem parseSign_signChar (o : UtcOffset) (l : List UInt8) :
    parseSign o.signChar l = .ok (o.sign, l) := by
  cases hneg : o.negative <;> simp +decide [parseSign, UtcOffset.signChar, UtcOffset.sign, hneg]

theorem offsetSeconds_eq {o : UtcOffset} (hhour : o.hour ≤ 9) :
    offsetSeconds o.sign (signedChar o.hour) (signedChar o.minute) = o.seconds := by
  have hminute := o.minute_lt
  rw [signedChar_of_lt (by omega), signedChar_of_lt (by omega)]
  simp only [offsetSeconds, UtcOffset.seconds, secondsPerHour, secondsPerMinute]
  ring

theorem parseReadableOffset_text {format : DatetimeFormat} {o : Option UtcOffset}
    (hhour : ∀ x ∈ o, x.hour ≤ 9) (hformat : format ≠ .iso8601) :
    parseReadableOffset (format.offsetText o) = .ok (format.parsedOffset o, []) := by
  have hparsed : format.parsedOffset o = Int.bmod (UtcOffset.secondsOf o) (2 ^ 16) := by
    cases format with
    | iso8601 => exact absurd rfl hformat
    | readable => rfl
    | iso8601Readable => rfl
  rw [hparsed]
  cases o with
  | none => rfl
  | some o =>
    have htext : format.offsetText (some o) =
        o.signChar :: (decimal o.hour ++ Byte.colon :: (digits2 o.minute ++ [])) := by
      rw [List.append_nil]
      cases format with
      | iso8601 => exact absurd rfl hformat
      | readable => rfl
      | iso8601Readable => rfl
    have hle : o.hour ≤ 9 := hhour o rfl
    have hminute := o.minute_lt
    have hdigits : numDigits 10 o.hour ≤ 1 := numDigits_le (by decide) (by omega)
    have hread := readNatural_decimal (n := o.hour) (c := Byte.colon) (digits2 o.minute ++ [])
      (hdigits.trans (by decide)) (by decide)
    have hreadN : readNaturalN 2 (digits2 o.minute ++ []) = .ok ((o.minute, 2), []) :=
      readNaturalN_digitsText [] (by omega) (by decide) (by decide)
    rw [htext]
    simp only [parseReadableOffset, Prog.bind_apply, get_list_cons, Outcome.bind_ok,
      ne_eq, o.signChar_ne, not_false_eq_true, if_true, parseSign_signChar, hread,
      if_neg (by omega : ¬ numDigits 10 o.hour > 1), expect, not_true, if_false, hreadN,
      Prog.pure_apply, offsetSeconds_eq hle]
    rfl

/-! The checks. -/

section
variable {σ : Type} {n k : Nat}

theorem isValidYear_ok (h : 1970 ≤ n) (h' : n ≤ 9999) (hk : k ≤ 4) :
    (isValidYear n k : Prog σ Unit) = pure () := if_neg (by omega)

theorem isValidMonth_ok (h : 1 ≤ n) (h' : n ≤ 12) (hk : k = uint8Max ∨ k ≤ 2) :
    (isValidMonth n k : Prog σ Unit) = pure () := if_neg (by omega)

theorem isValidDay_ok (h : 1 ≤ n) (h' : n ≤ 31) (hk : k ≤ 2) :
    (isValidDay n k : Prog σ Unit) = pure () := if_neg (by omega)

theorem isValidHr_ok (h : n < 24) (hk : k ≤ 2) : (isValidHr n k : Prog σ Unit) = pure () :=
  if_neg (by omega)

theorem isValidMin_ok (h : n < 60) (hk : k ≤ 2) : (isValidMin n k : Prog σ Unit) = pure () :=
  if_neg (by omega)

theorem isValidSec_ok (h : n < 60) (hk : k ≤ 2) : (isValidSec n k : Prog σ Unit) = pure () :=
  if_neg (by omega)

theorem expect_ok (c : UInt8) (msg : String) (l : List UInt8) :
    expect c msg (c :: l) = .ok ((), l) := by
  simp [expect]

end

/-! The date and the time. -/

/-- The product of the years leaves the `int` in 2039. -/
theorem addYears_eq {y : Nat} (hy : 1970 ≤ y) (hy' : y ≤ 2038) :
    addYears 0 y = .ok (uint64 (86400 * daysBeforeYear y)) := by
  have hint : intOf ((y - 1970 : Int) * secondsPerNonLeapYear) =
      .ok ((y - 1970 : Int) * secondsPerNonLeapYear) := by
    rw [intOf, if_neg (by simp only [secondsPerNonLeapYear]; omega)]
  rw [addYears, hint, Outcome.bind_ok, getNumLeapYears_eq hy (by omega), Outcome.bind_ok,
    uint64_add, daysBeforeYear_eq hy]
  congr 2
  simp only [secondsPerNonLeapYear, secondsPerDay]
  push_cast
  ring

theorem addYears_undef {y : Nat} (hy : 2039 ≤ y) : addYears 0 y = .undef := by
  have hint : intOf ((y - 1970 : Int) * secondsPerNonLeapYear) = .undef := by
    rw [intOf, if_pos (by simp only [secondsPerNonLeapYear]; omega)]
  rw [addYears, hint, Outcome.bind_undef]

section
variable {dt : DateTime} {o : Option UtcOffset} {format : DatetimeFormat}

/-- The sums of the parsers. -/
theorem epoch_sum (dt : DateTime) (offset : Int) :
    uint64 ((uint64 ((uint64 ((uint64 ((uint64 ((uint64 ((uint64 (86400 * daysBeforeYear dt.year) :
      Nat) + (86400 * daysBeforeMonth dt.year dt.month : Nat)) : Nat) +
      (dt.day - 1 : Int) * secondsPerDay) : Nat) + (dt.hour : Int) * secondsPerHour) : Nat) +
      (dt.minute : Int) * secondsPerMinute) : Nat) + dt.second) : Nat) + offset) =
      uint64 (dt.seconds + offset) := by
  have hday := dt.day_pos
  simp only [uint64_add]
  congr 2
  simp only [DateTime.seconds, DateTime.secondOfYear, secondsPerDay, secondsPerHour,
    secondsPerMinute]
  push_cast [Nat.cast_sub hday]
  ring

theorem parse_iso8601 (hyear : 1970 ≤ dt.year) (hyear' : dt.year ≤ 2038)
    (hhour : ∀ x ∈ o, x.hour ≤ 9) :
    parseIso8601DateTime (DatetimeFormat.iso8601.text dt o) =
      .ok (uint64 (dt.seconds + UtcOffset.secondsOf o), []) := by
  have hmonth := dt.month_le
  have hday := dt.day_le.trans (daysInMonth_le _ _)
  have hhr := dt.hour_lt
  have hminute := dt.minute_lt
  have hsecond := dt.second_lt
  have hread : ∀ n rest, n < 100 → readNaturalN 2 (digitsText {} 2 n ++ rest) = .ok ((n, 2), rest) :=
    fun n rest hn => readNaturalN_digitsText rest hn (by decide) (by decide)
  have hread4 : ∀ rest, readNaturalN 4 (digitsText {} 4 dt.year ++ rest) = .ok ((dt.year, 4), rest) :=
    fun rest => readNaturalN_digitsText rest (by omega) (by decide) (by decide)
  have hmod : ∀ n, n < 100 → n % 256 = n := fun n hn => Nat.mod_eq_of_lt (by omega)
  have hmodYear : dt.year % 2 ^ 16 = dt.year := Nat.mod_eq_of_lt (by omega)
  simp only [parseIso8601DateTime, DatetimeFormat.text, DatetimeFormat.dateText, digits4, digits2,
    Prog.bind_apply, hread4, Outcome.bind_ok, hmodYear,
    isValidYear_ok hyear (hyear'.trans (by decide)) (le_refl 4), Prog.pure_apply, Prog.lift_apply,
    addYears_eq hyear hyear', hread dt.month _ (by omega), hmod dt.month (by omega),
    isValidMonth_ok dt.month_pos hmonth (Or.inr (le_refl 2)),
    secondsUpUntilMonth_eq dt.month_pos hmonth, hread dt.day _ (by omega), hmod dt.day (by omega),
    isValidDay_ok dt.day_pos hday (le_refl 2), get_list_cons, hread dt.hour _ (by omega),
    hmod dt.hour (by omega), isValidHr_ok hhr (le_refl 2), hread dt.minute _ (by omega),
    hmod dt.minute (by omega), isValidMin_ok hminute (le_refl 2), hread dt.second _ (by omega),
    hmod dt.second (by omega), isValidSec_ok hsecond (le_refl 2)]
  cases o with
  | none =>
    have hsum := epoch_sum dt 0
    simp only [uint64_add] at hsum ⊢
    simpa [DatetimeFormat.offsetText, UtcOffset.secondsOf] using hsum
  | some o =>
    have hle : o.hour ≤ 9 := hhour o rfl
    have hhourText : decimal o.hour = digitsText {} 1 o.hour := by
      have hdigits : numDigits 10 o.hour = 1 :=
        Nat.le_antisymm (numDigits_le (by decide) (by omega)) (Nat.succ_pos _)
      rw [decimal, hdigits]
    have hhour1 : readNaturalN 1 (decimal o.hour ++ digitsText {} 2 o.minute) =
        .ok ((o.hour, 1), digitsText {} 2 o.minute) := by
      rw [hhourText]
      exact readNaturalN_digitsText _ (by omega) (by decide) (by decide)
    have hmin2 := hread o.minute [] (by have := o.minute_lt; omega)
    rw [List.append_nil] at hmin2
    simp only [DatetimeFormat.offsetText, get_list_cons, Outcome.bind_ok, ne_eq, o.signChar_ne,
      not_false_eq_true, if_true, Prog.bind_apply, parseSign_signChar, digits2, hhour1, gt_iff_lt,
      lt_irrefl, if_false, hmin2, Prog.pure_apply, offsetSeconds_eq hle, epoch_sum]
    rfl

theorem parse_iso8601Readable (hyear : 1970 ≤ dt.year) (hyear' : dt.year ≤ 2038)
    (hhour : ∀ x ∈ o, x.hour ≤ 9) :
    parseIso8601ReadableDateTime (DatetimeFormat.iso8601Readable.text dt o) =
      .ok (uint64 (dt.seconds + DatetimeFormat.iso8601Readable.parsedOffset o), []) := by
  have hmonth := dt.month_le
  have hday := dt.day_le.trans (daysInMonth_le _ _)
  have hhr := dt.hour_lt
  have hminute := dt.minute_lt
  have hsecond := dt.second_lt
  have hread4 : ∀ rest, readNaturalUntil [Byte.minus] true
      (digitsText {} 4 dt.year ++ Byte.minus :: rest) = .ok ((dt.year, 4), rest) := fun rest =>
    readNaturalUntil_digitsText true rest (by omega) (by decide) (by simp) (by simp [isDigit, Byte.minus])
  have hread : ∀ n c rest, n < 100 → isDigit c = false →
      readNaturalUntil [c] true (digitsText {} 2 n ++ c :: rest) = .ok ((n, 2), rest) :=
    fun n c rest hn hc =>
      readNaturalUntil_digitsText true rest hn (by decide) (by simp) (by simpa using hc)
  -- the sign stays in the stream
  obtain ⟨c, rest, hoffset, hc⟩ : ∃ c rest, DatetimeFormat.iso8601Readable.offsetText o = c :: rest ∧
      c ∈ [Byte.upperZ, Byte.plus, Byte.minus] := by
    cases o with
    | none => exact ⟨_, _, rfl, by simp⟩
    | some o =>
      refine ⟨_, _, rfl, ?_⟩
      unfold UtcOffset.signChar
      split <;> simp
  have hsec : readNaturalUntil [Byte.upperZ, Byte.plus, Byte.minus] false
      (digitsText {} 2 dt.second ++ c :: rest) = .ok ((dt.second, 2), c :: rest) :=
    readNaturalUntil_digitsText false rest (by omega) (by decide) hc
      (by simp [isDigit, Byte.upperZ, Byte.plus, Byte.minus])
  have hparse := @parseReadableOffset_text .iso8601Readable _ hhour (by simp)
  rw [hoffset] at hparse
  have hmod : ∀ n, n < 100 → n % 256 = n := fun n hn => Nat.mod_eq_of_lt (by omega)
  have hmodYear : dt.year % 2 ^ 16 = dt.year := Nat.mod_eq_of_lt (by omega)
  simp only [parseIso8601ReadableDateTime, DatetimeFormat.text, DatetimeFormat.dateText, hoffset,
    digits4, digits2, Prog.bind_apply, hread4, Outcome.bind_ok, hmodYear,
    isValidYear_ok hyear (hyear'.trans (by decide)) (le_refl 4), Prog.pure_apply, Prog.lift_apply,
    addYears_eq hyear hyear', hread dt.month Byte.minus _ (by omega) (by decide),
    hmod dt.month (by omega), isValidMonth_ok dt.month_pos hmonth (Or.inr (le_refl 2)),
    secondsUpUntilMonth_eq dt.month_pos hmonth, hread dt.day Byte.upperT _ (by omega) (by decide),
    hmod dt.day (by omega), isValidDay_ok dt.day_pos hday (le_refl 2),
    hread dt.hour Byte.colon _ (by omega) (by decide), hmod dt.hour (by omega),
    isValidHr_ok hhr (le_refl 2), hread dt.minute Byte.colon _ (by omega) (by decide),
    hmod dt.minute (by omega), isValidMin_ok hminute (le_refl 2), hsec, hmod dt.second (by omega),
    isValidSec_ok hsecond (le_refl 2), hparse, epoch_sum]

theorem readStringUntil_monthName (hmonth : dt.month ≤ 12) (rest : List UInt8) :
    readStringUntil [Byte.space] (none : Option (NullTask UInt8)) true
      (monthName.getD dt.month [] ++ Byte.space :: rest) =
        .ok (monthName.getD dt.month [] ++ [Byte.space], rest) := by
  have hlen : (monthName.getD dt.month []).length ≤ 4 := by
    interval_cases dt.month <;> decide
  refine readStringUntil_ok (fun a ha => ?_) (by simp)
    ((Nat.add_le_add_right hlen 2).trans (by decide))
  simpa using monthName_ne_space hmonth a ha

theorem readNatural_day (hday : dt.day ≤ 31) (rest : List UInt8) :
    readNatural (decimal dt.day ++ Byte.space :: rest) =
      .ok ((dt.day, numDigits 10 dt.day), Byte.space :: rest) :=
  readNatural_decimal rest ((numDigits_le_two (by omega)).trans (by decide)) (by decide)

theorem readNatural_year (hyear : dt.year ≤ 9999) (rest : List UInt8) :
    readNatural (decimal dt.year ++ Byte.comma :: rest) =
      .ok ((dt.year, numDigits 10 dt.year), Byte.comma :: rest) := by
  have hdigits : numDigits 10 dt.year ≤ 4 := numDigits_le (by decide) (by omega)
  exact readNatural_decimal rest (hdigits.trans (by decide)) (by decide)

theorem parse_readable (hyear : 1970 ≤ dt.year) (hyear' : dt.year ≤ 2038)
    (hhour : ∀ x ∈ o, x.hour ≤ 9) :
    parseReadableDateTime (DatetimeFormat.readable.text dt o) =
      .ok (uint64 (dt.seconds + DatetimeFormat.readable.parsedOffset o), []) := by
  have hmonth := dt.month_le
  have hday := dt.day_le.trans (daysInMonth_le _ _)
  have hhr := dt.hour_lt
  have hminute := dt.minute_lt
  have hsecond := dt.second_lt
  have hdigits := numDigits_le_two (n := dt.day) (by omega)
  have hdigitsYear : numDigits 10 dt.year ≤ 4 := numDigits_le (by decide) (by omega)
  have hread : ∀ n c rest, n < 100 → isDigit c = false →
      readNatural (digitsText {} 2 n ++ c :: rest) = .ok ((n, 2), c :: rest) :=
    fun n c rest hn hc => readNatural_digits2 rest hn hc
  have hparse := @parseReadableOffset_text .readable _ hhour (by simp)
  have hmod : ∀ n, n < 100 → n % 256 = n := fun n hn => Nat.mod_eq_of_lt (by omega)
  have hmodYear : dt.year % 2 ^ 16 = dt.year := Nat.mod_eq_of_lt (by omega)
  simp only [parseReadableDateTime, DatetimeFormat.text, DatetimeFormat.dateText, digits2,
    Prog.bind_apply, readStringUntil_monthName hmonth, Outcome.bind_ok,
    monthNum_monthName dt.month_pos hmonth,
    isValidMonth_ok dt.month_pos hmonth (Or.inl rfl), Prog.pure_apply,
    readNatural_day hday, hmod dt.day (by omega), isValidDay_ok dt.day_pos hday hdigits, expect_ok,
    readNatural_year (hyear'.trans (by decide)), hmodYear,
    isValidYear_ok hyear (hyear'.trans (by decide)) hdigitsYear, Prog.lift_apply,
    addYears_eq hyear hyear', secondsUpUntilMonth_eq dt.month_pos hmonth,
    hread dt.hour Byte.colon _ (by omega) (by decide), hmod dt.hour (by omega),
    isValidHr_ok hhr (le_refl 2), hread dt.minute Byte.colon _ (by omega) (by decide),
    hmod dt.minute (by omega), isValidMin_ok hminute (le_refl 2),
    hread dt.second Byte.space _ (by omega) (by decide), hmod dt.second (by omega),
    isValidSec_ok hsecond (le_refl 2), hparse, epoch_sum]

theorem parse_text (hyear : 1970 ≤ dt.year) (hyear' : dt.year ≤ 2038)
    (hhour : ∀ x ∈ o, x.hour ≤ 9) :
    getEpochFromFormattedDateTime (format.text dt o) format =
      .ok (uint64 (dt.seconds + format.parsedOffset o)) := by
  rw [getEpochFromFormattedDateTime_eq]
  cases format with
  | readable => rw [parseDateTime, parse_readable hyear hyear' hhour, Outcome.bind_ok]
  | iso8601 =>
    rw [parseDateTime, parse_iso8601 hyear hyear' hhour, Outcome.bind_ok]
    rfl
  | iso8601Readable =>
    rw [parseDateTime, parse_iso8601Readable hyear hyear' hhour, Outcome.bind_ok]

/-- From 2039 on the years alone are undefined. -/
theorem parse_text_undef (hyear : 2039 ≤ dt.year) (hyear' : dt.year ≤ 9999) :
    getEpochFromFormattedDateTime (format.text dt o) format = .undef := by
  have hmonth := dt.month_le
  have hday := dt.day_le.trans (daysInMonth_le _ _)
  have hvalid : 1970 ≤ dt.year := (by decide : 1970 ≤ 2039).trans hyear
  have hmodYear : dt.year % 2 ^ 16 = dt.year := Nat.mod_eq_of_lt (by omega)
  rw [getEpochFromFormattedDateTime_eq]
  suffices hparse : parseDateTime format (format.text dt o) = .undef by
    rw [hparse, Outcome.bind_undef]
  cases format with
  | readable =>
    have hdigits := numDigits_le_two (n := dt.day) (by omega)
    have hdigitsYear : numDigits 10 dt.year ≤ 4 := numDigits_le (by decide) (by omega)
    have hmodDay : dt.day % 256 = dt.day := Nat.mod_eq_of_lt (by omega)
    simp only [parseDateTime, parseReadableDateTime, DatetimeFormat.text,
      DatetimeFormat.dateText, Prog.bind_apply, readStringUntil_monthName hmonth,
      Outcome.bind_ok, monthNum_monthName dt.month_pos hmonth,
      isValidMonth_ok dt.month_pos hmonth (Or.inl rfl), Prog.pure_apply, readNatural_day hday,
      hmodDay, isValidDay_ok dt.day_pos hday hdigits, expect_ok, readNatural_year hyear',
      hmodYear, isValidYear_ok hvalid hyear' hdigitsYear, Prog.lift_apply, addYears_undef hyear,
      Outcome.bind_undef]
  | iso8601 =>
    have hread4 : ∀ rest, readNaturalN 4 (digitsText {} 4 dt.year ++ rest) =
        .ok ((dt.year, 4), rest) :=
      fun rest => readNaturalN_digitsText rest (by omega) (by decide) (by decide)
    simp only [parseDateTime, parseIso8601DateTime, DatetimeFormat.text, DatetimeFormat.dateText,
      digits4, Prog.bind_apply, hread4, Outcome.bind_ok, hmodYear,
      isValidYear_ok hvalid hyear' (le_refl 4), Prog.pure_apply, Prog.lift_apply,
      addYears_undef hyear, Outcome.bind_undef]
  | iso8601Readable =>
    have hread4 : ∀ rest, readNaturalUntil [Byte.minus] true
        (digitsText {} 4 dt.year ++ Byte.minus :: rest) = .ok ((dt.year, 4), rest) := fun rest =>
      readNaturalUntil_digitsText true rest (by omega) (by decide) (by simp) (by simp [isDigit, Byte.minus])
    simp only [parseDateTime, parseIso8601ReadableDateTime, DatetimeFormat.text,
      DatetimeFormat.dateText, digits4, Prog.bind_apply, hread4, Outcome.bind_ok, hmodYear,
      isValidYear_ok hvalid hyear' (le_refl 4), Prog.pure_apply, Prog.lift_apply,
      addYears_undef hyear, Outcome.bind_undef]

end
end WylesLibs.Calendar
