import WylesLibs.Calendar.Parsed
import WylesLibs.Calendar.Printed
import WylesLibs.Calendar.Years

/-! Printing and reading back at offset zero, and what the three parsers make of one date-time. -/
namespace WylesLibs.Calendar
open Library Library.Gregorian WylesLibs.Stream WylesLibs.Format

section
variable {format : DatetimeFormat} {offset t : Int} {y s : Nat} {offsetText : List UInt8}

/-- What is printed when the clock shows the second `s` of the year `y`. -/
theorem getFormattedDateTime_eq (applicationTimeOffset : Int) (hoffset : offset ∈ offsets)
    (htime : timeOf (t + offset * secondsPerHour) = .ok (t + offset * secondsPerHour))
    (hyear : yearOf (uint64 (t + offset * secondsPerHour)) = .ok (y, s)) (hy : y < 2 ^ 16)
    (hs : s < 86400 * daysInYear y) (htext : formattedOffset format offset = .ok offsetText) :
    ∃ dt : DateTime, dt.year = y ∧ dt.secondOfYear = s ∧
      getFormattedDateTime format t applicationTimeOffset offset =
        .ok (format.dateText (format.printed dt) offsetText) := by
  obtain ⟨dt, hdtYear, hdtSecond, hfields⟩ := fieldsOf_spec hs
  obtain ⟨text, hformatted, hrest⟩ := formattedFields_text format dt (by rwa [hdtYear])
  refine ⟨dt, hdtYear, hdtSecond, ?_⟩
  simp only [getFormattedDateTime, getZonedEpochTime, if_pos hoffset, htime, Outcome.bind_ok,
    hyear, hfields, htext, hformatted, hrest]

/-- The same for a second from 1970 on. -/
theorem getFormattedDateTime_of_nonneg (applicationTimeOffset : Int) (hoffset : offset ∈ offsets)
    (hpos : 0 ≤ t + offset * secondsPerHour)
    (hlt : t + offset * secondsPerHour < 86400 * daysBeforeYear 65535)
    (htext : formattedOffset format offset = .ok offsetText) :
    ∃ dt : DateTime, dt.seconds = t + offset * secondsPerHour ∧ dt.year < 2 ^ 16 ∧
      getFormattedDateTime format t applicationTimeOffset offset =
        .ok (format.dateText (format.printed dt) offsetText) := by
  obtain ⟨n, hn⟩ := Int.eq_ofNat_of_zero_le hpos
  have hend : daysBeforeYear 65535 < 2 ^ 32 := by simp [daysBeforeYear]
  have hbound : n < 2 ^ 63 := by
    rw [hn] at hlt
    omega
  have htime : timeOf (t + offset * secondsPerHour) = .ok (t + offset * secondsPerHour) := by
    rw [timeOf, if_neg (by omega)]
  have huint : uint64 (t + offset * secondsPerHour) = n :=
    uint64_of_eq hn (hbound.trans (by decide))
  obtain ⟨y, s, hyear, hy, hs, hseconds⟩ := @yearOf_spec n (by rwa [← hn])
  obtain ⟨dt, hdtYear, hdtSecond, hprinted⟩ := getFormattedDateTime_eq applicationTimeOffset hoffset
    htime (by rw [huint, hyear]) hy hs htext
  refine ⟨dt, ?_, by rwa [hdtYear], hprinted⟩
  rw [DateTime.seconds, hdtYear, hdtSecond, hn, hseconds]

end

section
variable {format : DatetimeFormat}

theorem printed_eq (format : DatetimeFormat) {dt : DateTime} (hyear : dt.year ≤ 9999) :
    format.printed dt = dt := by
  have hprinted : format.printedYear dt.year = dt.year := by
    cases format with
    | readable => rfl
    | iso8601 => exact Nat.mod_eq_of_lt (Nat.lt_succ_of_le hyear)
    | iso8601Readable => exact Nat.mod_eq_of_lt (Nat.lt_succ_of_le hyear)
  cases dt
  simp only [DatetimeFormat.printed, hprinted]

/-- Every second up to the end of 9999 is printed as the date-time that it is. -/
theorem getFormattedDateTime_text (format : DatetimeFormat) {t : Nat} (applicationTimeOffset : Int)
    (ht : (t : Int) < 86400 * daysBeforeYear 10000) :
    ∃ dt : DateTime, dt.seconds = t ∧ dt.year ≤ 9999 ∧
      getFormattedDateTime format t applicationTimeOffset 0 = .ok (format.text dt none) := by
  have hmono : daysBeforeYear 10000 ≤ daysBeforeYear 65535 := daysBeforeYear_mono (by decide)
  obtain ⟨dt, hseconds, -, hprinted⟩ := @getFormattedDateTime_of_nonneg _ 0 t _
    applicationTimeOffset (by decide) (by simp) (by simp only [zero_mul]; omega)
    (rfl : formattedOffset format 0 = .ok [Byte.upperZ])
  simp only [zero_mul, add_zero] at hseconds
  rw [← hseconds] at ht
  have hyear : dt.year < 10000 := (dt.seconds_lt_iff 10000).mp ht
  rw [printed_eq format (Nat.le_of_lt_succ hyear)] at hprinted
  exact ⟨dt, hseconds, Nat.le_of_lt_succ hyear, hprinted⟩

/-- From 2039 on what is printed is not read back. -/
theorem reparsed_undef (format : DatetimeFormat) (applicationTimeOffset : Int) {t : Nat}
    (ht : (t : Int) < 86400 * daysBeforeYear 10000) (hlate : 86400 * daysBeforeYear 2039 ≤ t) :
    ∃ text, getFormattedDateTime format t applicationTimeOffset 0 = .ok text ∧
      getEpochFromFormattedDateTime text format = .undef := by
  obtain ⟨dt, hseconds, hyear, hprinted⟩ :=
    getFormattedDateTime_text format applicationTimeOffset ht
  have hyear' : 2039 ≤ dt.year := by
    by_contra hearly
    have hlt := (dt.seconds_lt_iff 2039).mpr (Nat.lt_of_not_le hearly)
    rw [hseconds] at hlt
    omega
  exact ⟨_, hprinted, parse_text_undef hyear' hyear⟩

/-- Reading back what is printed gives the second that was printed, before 2039 only. -/
theorem reparsed_iff (format : DatetimeFormat) (applicationTimeOffset : Int) (t : Nat)
    (ht : (t : Int) < 86400 * daysBeforeYear 10000) :
    (∃ text, getFormattedDateTime format t applicationTimeOffset 0 = .ok text ∧
      getEpochFromFormattedDateTime text format = .ok t) ↔
        (t : Int) < 86400 * daysBeforeYear 2039 := by
  constructor
  · rintro ⟨text, htext, hparsed⟩
    by_contra hlate
    obtain ⟨text', htext', hundef⟩ :=
      reparsed_undef format applicationTimeOffset ht (Int.not_lt.mp hlate)
    rw [htext] at htext'
    rw [← Outcome.ok.inj htext', hparsed] at hundef
    cases hundef
  · intro hearly
    obtain ⟨dt, hseconds, -, hprinted⟩ :=
      getFormattedDateTime_text format applicationTimeOffset ht
    have hafter : 1970 ≤ dt.year := by
      by_contra hbefore
      have hlt := (dt.seconds_lt_iff 1970).mpr (Nat.lt_of_not_le hbefore)
      rw [hseconds, (by decide : daysBeforeYear 1970 = 0)] at hlt
      omega
    have hyear : dt.year < 2039 := by
      rw [← hseconds] at hearly
      exact (dt.seconds_lt_iff 2039).mp hearly
    refine ⟨_, hprinted, ?_⟩
    rw [parse_text hafter (Nat.le_of_lt_succ hyear) (by simp)]
    have hoffset : format.parsedOffset none = 0 := by cases format <;> rfl
    have ht64 : t < uint64Mod := by
      have hend : daysBeforeYear 10000 < 2 ^ 32 := by simp [daysBeforeYear]
      unfold uint64Mod
      omega
    rw [hoffset, add_zero, hseconds, uint64_of_eq rfl ht64]

theorem reparsed_last_day_of_2038 :
    ∃ text, getFormattedDateTime .readable 2177452799 0 0 = .ok text ∧
      getEpochFromFormattedDateTime text .readable = .ok 2177452799 :=
  (reparsed_iff .readable 0 2177452799 (by simp [daysBeforeYear])).mpr (by simp [daysBeforeYear])

/-- The first second of 2039. -/
theorem not_reparsed_2039 :
    ¬ ∀ (format : DatetimeFormat) (applicationTimeOffset : Int) (t : Nat),
      (t : Int) < 86400 * daysBeforeYear 10000 →
        ∃ text, getFormattedDateTime format t applicationTimeOffset 0 = .ok text ∧
          getEpochFromFormattedDateTime text format = .ok t := by
  intro h
  have ht : ((2177452800 : Nat) : Int) < 86400 * daysBeforeYear 10000 := by simp [daysBeforeYear]
  obtain ⟨text, htext, hparsed⟩ := h .readable 0 2177452800 ht
  obtain ⟨text', htext', hundef⟩ := reparsed_undef .readable 0 ht (by simp [daysBeforeYear])
  rw [htext] at htext'
  rw [← Outcome.ok.inj htext', hparsed] at hundef
  cases hundef

/-! One date-time in the three formats. -/

theorem secondsOf_bounds {o : UtcOffset} (hhour : o.hour ≤ 9) :
    -36000 < o.seconds ∧ o.seconds < 36000 := by
  have hminute := o.minute_lt
  unfold UtcOffset.seconds UtcOffset.sign
  split <;> omega

/-- An offset survives the `int16_t` up to nine hours and six minutes. -/
theorem bmod_seconds_iff {o : UtcOffset} (hhour : o.hour ≤ 9) :
    Int.bmod o.seconds (2 ^ 16) = o.seconds ↔ ¬ (o.hour = 9 ∧ 7 ≤ o.minute) := by
  have hminute := o.minute_lt
  unfold UtcOffset.seconds UtcOffset.sign
  rw [Int.bmod_def]
  split <;> split <;> omega

theorem parse_text_some {dt : DateTime} {o : UtcOffset} (hyear : 1970 ≤ dt.year)
    (hyear' : dt.year ≤ 2037) (hhour : o.hour ≤ 9) (format : DatetimeFormat) :
    getEpochFromFormattedDateTime (format.text dt (some o)) format =
      .ok (uint64 (dt.seconds + format.parsedOffset (some o))) :=
  parse_text hyear (hyear'.trans (by decide)) (by simpa using hhour)

/-- Where the parsers agree, the `int16_t` holds the offset. -/
theorem bmod_of_agree {dt : DateTime} {o : UtcOffset} {epoch : Nat} (hyear : 1970 ≤ dt.year)
    (hyear' : dt.year ≤ 2037) (hhour : o.hour ≤ 9)
    (hall : ∀ format : DatetimeFormat,
      getEpochFromFormattedDateTime (format.text dt (some o)) format = .ok epoch) :
    Int.bmod o.seconds (2 ^ 16) = o.seconds := by
  have hparse := parse_text_some hyear hyear' hhour
  have hiso := Outcome.ok.inj ((hparse .iso8601).symm.trans (hall .iso8601))
  have hreadable := Outcome.ok.inj ((hparse .readable).symm.trans (hall .readable))
  rw [← hiso] at hreadable
  have hbounds := secondsOf_bounds hhour
  have hlt := Int.bmod_lt (x := o.seconds) (m := 2 ^ 16) (by decide)
  have hle := Int.le_bmod (x := o.seconds) (m := 2 ^ 16) (by decide)
  simp only [DatetimeFormat.parsedOffset, UtcOffset.secondsOf, uint64, uint64Mod] at hreadable
  omega

/-- The parsers agree unless the offset is too far for an `int16_t`. -/
theorem parsers_agree_iff (dt : DateTime) (o : UtcOffset) (hyear : 1970 ≤ dt.year)
    (hyear' : dt.year ≤ 2037) (hhour : o.hour ≤ 9) :
    (∃ epoch, ∀ format : DatetimeFormat,
      getEpochFromFormattedDateTime (format.text dt (some o)) format = .ok epoch) ↔
        ¬ (o.hour = 9 ∧ 7 ≤ o.minute) := by
  rw [← bmod_seconds_iff hhour]
  constructor
  · rintro ⟨epoch, hall⟩
    exact bmod_of_agree hyear hyear' hhour hall
  · intro hsame
    refine ⟨uint64 (dt.seconds + o.seconds), fun format => ?_⟩
    rw [parse_text_some hyear hyear' hhour]
    cases format with
    | readable => simp only [DatetimeFormat.parsedOffset, UtcOffset.secondsOf, hsame]
    | iso8601 => rfl
    | iso8601Readable => simp only [DatetimeFormat.parsedOffset, UtcOffset.secondsOf, hsame]

/-- Noon on the leap day of the year 2000. -/
def leapDay : DateTime :=
  { year := 2000, month := 2, day := 29, hour := 12, minute := 0, second := 0,
    month_pos := by decide, month_le := by decide, day_pos := by decide, day_le := by decide,
    hour_lt := by decide, minute_lt := by decide, second_lt := by decide }

theorem parsers_agree_leapDay :
    ∃ epoch, ∀ format : DatetimeFormat,
      getEpochFromFormattedDateTime (format.text leapDay (some ⟨false, 9, 6, by decide⟩)) format =
        .ok epoch :=
  (parsers_agree_iff leapDay ⟨false, 9, 6, by decide⟩ (by decide) (by decide) (by decide)).mpr
    (by decide)

theorem parsers_disagree :
    ¬ ∀ (dt : DateTime) (o : UtcOffset), 1970 ≤ dt.year → dt.year ≤ 2037 → o.hour ≤ 9 →
      ∃ epoch, ∀ format : DatetimeFormat,
        getEpochFromFormattedDateTime (format.text dt (some o)) format = .ok epoch := by
  intro h
  obtain ⟨epoch, hall⟩ :=
    h leapDay ⟨false, 9, 30, by decide⟩ (by decide) (by decide) (by decide)
  exact absurd (bmod_of_agree (by decide) (by decide) (by decide) hall) (by decide)

end
end WylesLibs.Calendar
