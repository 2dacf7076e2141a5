import WylesLibs.Calendar.RoundTrip

/-! Date-times in a zone other than UTC: the offset that is applied to the clock is counted in
hundredths of an hour as if they were hours, the one that is printed in hours and minutes. -/
namespace WylesLibs.Calendar
open Library Library.Gregorian WylesLibs.Stream WylesLibs.Format
variable {format : DatetimeFormat} {offset t : Int}

/-! The offset that is printed. -/

/-- The minutes of the readable formats: the last two digits of the offset, save where the digit
before them is a zero. -/
def minuteText (offset : Int) : List UInt8 :=
  if offset.natAbs = 1000 then [0x30, 0x30, 0x30]
  else if offset.natAbs = 1030 then [0x30, 0x30]
  else digits2 (offset.natAbs % 100)

def printedMinute : DatetimeFormat → Int → Nat
  | .iso8601, offset => offset.natAbs % 100
  | _, offset => digitsValue (minuteText offset) 0

def signOf (offset : Int) : UInt8 := if offset < 0 then Byte.minus else Byte.plus

def printedSeconds (format : DatetimeFormat) (offset : Int) : Int :=
  (if offset < 0 then -1 else 1) *
    (3600 * (offset.natAbs / 100 : Nat) + 60 * printedMinute format offset)

theorem formattedOffset_iso8601 : ∀ offset ∈ offsets, offset ≠ 0 →
    (formattedOffset .iso8601 offset).toOption =
      some (signOf offset :: (decimal (offset.natAbs / 100) ++ digits2 (offset.natAbs % 100))) := by
  decide +kernel

theorem formattedOffset_readable : ∀ offset ∈ offsets, offset ≠ 0 →
    (formattedOffset .readable offset).toOption =
      some (signOf offset :: (decimal (offset.natAbs / 100) ++ Byte.colon :: minuteText offset)) := by
  decide +kernel

theorem seconds_of_signOf {o : UtcOffset} (hsign : signOf offset = o.signChar)
    (hhour : offset.natAbs / 100 = o.hour) (hminute : printedMinute format offset = o.minute) :
    o.seconds = printedSeconds format offset := by
  have hnegative : o.sign = if offset < 0 then -1 else 1 := by
    unfold signOf UtcOffset.signChar at hsign
    unfold UtcOffset.sign
    split at hsign <;> split at hsign <;> simp_all +decide
  rw [UtcOffset.seconds, printedSeconds, hnegative, hhour, hminute]

theorem ok_of_toOption {α : Type} {m : Outcome α} {a : α} (h : m.toOption = some a) : m = .ok a := by
  cases m with
  | ok b => rw [Option.some.inj h]
  | _ => cases h

theorem formattedOffset_other (hformat : format ≠ .iso8601) (offset : Int) :
    formattedOffset format offset = formattedOffset .readable offset := by
  cases format with
  | iso8601 => exact absurd rfl hformat
  | _ => rfl

theorem printedMinute_other (hformat : format ≠ .iso8601) (offset : Int) :
    printedMinute format offset = digitsValue (minuteText offset) 0 := by
  cases format with
  | iso8601 => exact absurd rfl hformat
  | _ => rfl

theorem minute_lt : ∀ offset ∈ offsets, offset.natAbs % 100 < 60 := by decide

theorem signOf_ne (offset : Int) : signOf offset ≠ Byte.upperZ := by
  unfold signOf
  split <;> decide

theorem printedSeconds_zero (format : DatetimeFormat) : printedSeconds format 0 = 0 := by
  cases format <;> rfl

/-- Whoever reads the printed offset reads these seconds. -/
theorem formattedOffset_spec (format : DatetimeFormat) (hoffset : offset ∈ offsets) :
    ∃ text, formattedOffset format offset = .ok text ∧
      ∀ o, text = format.offsetText o → UtcOffset.secondsOf o = printedSeconds format offset := by
  by_cases hzero : offset = 0
  · refine ⟨[Byte.upperZ], by simp [formattedOffset, hzero], fun o ho => ?_⟩
    cases o with
    | none => rw [hzero, printedSeconds_zero, UtcOffset.secondsOf]
    | some o => exact absurd (List.cons.inj ho).1.symm o.signChar_ne
  by_cases hformat : format = .iso8601
  · subst hformat
    refine ⟨_, ok_of_toOption (formattedOffset_iso8601 offset hoffset hzero), fun o ho => ?_⟩
    cases o with
    | none => exact absurd (List.cons.inj ho).1 (signOf_ne offset)
    | some o =>
      obtain ⟨hsign, hhour, hminute⟩ :=
        DatetimeFormat.offsetText_iso8601_inv (minute_lt offset hoffset) ho
      exact seconds_of_signOf hsign hhour hminute
  · refine ⟨_, (formattedOffset_other hformat offset).trans
      (ok_of_toOption (formattedOffset_readable offset hoffset hzero)), fun o ho => ?_⟩
    cases o with
    | none => exact absurd (List.cons.inj ho).1 (signOf_ne offset)
    | some o =>
      obtain ⟨hsign, hhour, hminute⟩ := DatetimeFormat.offsetText_inv ho hformat
      exact seconds_of_signOf hsign hhour ((printedMinute_other hformat offset).trans hminute)

/-- How far the offset that is applied is from the one that is printed. -/
def excess (format : DatetimeFormat) (offset : Int) : Int :=
  offset * secondsPerHour - printedSeconds format offset

/-- The two offsets differ, and by whole days in two cases at most. -/
structure Excess (d : Int) : Prop where
  ne_zero : d ≠ 0
  lower : -10000000 < d
  upper : d < 10000000
  days : 128 ∣ d → d = 86400 * 33 ∨ d = 86400 * -33

theorem excess_spec (format : DatetimeFormat) (hoffset : offset ∈ offsets) (hne : offset ≠ 0) :
    Excess (excess format offset) := by
  have hall : ∀ iso : Bool, ∀ offset ∈ offsets, offset ≠ 0 →
      let d := excess (if iso then .iso8601 else .readable) offset
      d ≠ 0 ∧ -10000000 < d ∧ d < 10000000 ∧ (128 ∣ d → d = 86400 * 33 ∨ d = 86400 * -33) := by
    decide
  by_cases hformat : format = .iso8601
  · subst hformat
    obtain ⟨hzero, hlower, hupper, hdays⟩ := hall true offset hoffset hne
    exact ⟨hzero, hlower, hupper, hdays⟩
  · have heq : excess format offset = excess .readable offset := by
      cases format with
      | iso8601 => exact absurd rfl hformat
      | _ => rfl
    obtain ⟨hzero, hlower, hupper, hdays⟩ := hall false offset hoffset hne
    exact heq ▸ ⟨hzero, hlower, hupper, hdays⟩

theorem excess_zero (format : DatetimeFormat) : excess format 0 = 0 := by
  rw [excess, printedSeconds_zero]
  simp

/-! A clock before 1970: the seconds are those of a `uint64_t`, and the count of the year loop
wraps until it meets them. -/

theorem dvd_countAfter (n : Nat) : 128 ∣ countAfter n := by
  have heq := countAfter_eq n
  omega

/-- At this turn the count is as far as it can be before it wraps: the loop has ended by then. -/
def lastTurn : Nat := 274759698942701870

theorem countAfter_lastTurn :
    countAfter lastTurn = 86400 * 100353917328679649013 := by
  have heq := countAfter_eq lastTurn
  have hyear : yearAfter lastTurn = 47328 := by
    unfold yearAfter lastTurn
    norm_num
  have hcycles : (1970 + lastTurn) / 2 ^ 16 = 4192500289042 := by
    unfold lastTurn
    norm_num
  have hdays : daysBeforeYear 47328 = 16566669 := by decide
  rw [hyear, hcycles, hdays, cycleDays] at heq
  push_cast at heq
  omega

/-- Where the loop ends, the seconds lie in the year that it has come to, some cycles of years on
and short of some wraps of the count. -/
theorem yearOf_wrapped {epochSeconds y s : Nat} (hlate : 2 ^ 63 ≤ epochSeconds)
    (h : yearOf epochSeconds = .ok (y, s)) :
    ∃ w q : Nat, w ≤ 470032 ∧ y < 2 ^ 16 ∧ s < 86400 * daysInYear y ∧
      (epochSeconds : Int) + 2 ^ 64 * w = 86400 * (cycleDays * q + daysBeforeYear y) + s := by
  obtain ⟨n, hgo, hstop, rfl, hseconds, hs⟩ :=
    yearOf_inv (by unfold secondsPerNonLeapYear; omega) h
  have hdvd := dvd_countAfter (n + 1)
  have hlast := countAfter_lastTurn
  have hturns : n < lastTurn := by
    by_contra hge
    have hle := hgo lastTurn (by omega)
    rw [hlast] at hle
    simp only [uint64Mod] at hle hstop
    omega
  have hle := (strictMono_nat_of_lt_succ countAfter_lt_succ).monotone hturns.le
  rw [hlast] at hle
  have hcount := countAfter_eq n
  refine ⟨countAfter n / 2 ^ 64, (1970 + n) / 2 ^ 16, by omega, Nat.mod_lt _ (by decide), hs, ?_⟩
  rw [← hcount]
  simp only [uint64Mod] at hseconds
  omega

/-- Some powers of two of days are no whole number of cycles, nor of those and some ten thousands
of years: `4225418` is an inverse. -/
theorem days_ne {j q k : Nat} {e : Int} (hj₁ : 1 ≤ j) (hj₂ : j ≤ 696) (hk : k ≤ 6)
    (he : e = 0 ∨ e = 33 ∨ e = -33) :
    2 ^ 57 * (j : Int) + e ≠ cycleDays * q + 3652425 * k := by
  intro h
  obtain ⟨z, hz⟩ : ∃ z : Int, 4 * (j : Int) = 23936532 * z + 4225418 * (3652425 * k - e) := by
    refine ⟨4225418 * q - 25440064156708531 * j, ?_⟩
    simp only [cycleDays] at h
    linear_combination 4225418 * h
  clear h
  obtain rfl | rfl | rfl := he
  · interval_cases k <;> omega
  · interval_cases k <;> omega
  · interval_cases k <;> omega

/-- Wraps of the count and cycles of years do not come to the same number of days. -/
theorem wraps_ne {w q k : Nat} {e : Int} (hw : w ≤ 470032) (hk : k ≤ 6)
    (he : e = 0 ∨ e = 33 ∨ e = -33) :
    2 ^ 64 * (1 + (w : Int)) + 86400 * e ≠ 86400 * (cycleDays * q + 3652425 * k) := by
  intro h
  have hprod : (675 : Int) ∣ 2 ^ 57 * (1 + w : Nat) := by
    refine ⟨cycleDays * q + 3652425 * k - e, ?_⟩
    push_cast
    linarith
  have hdvd : (675 : Int) ∣ (1 + w : Nat) :=
    (by norm_num : IsCoprime (675 : Int) (2 ^ 57)).dvd_of_dvd_mul_left hprod
  obtain ⟨j, hj⟩ : 675 ∣ 1 + w := by exact_mod_cast hdvd
  have hdays : 2 ^ 57 * (j : Int) + e = cycleDays * q + 3652425 * k := by
    have hj' : 1 + (w : Int) = 675 * j := by exact_mod_cast hj
    rw [hj'] at h
    linarith
  clear h hprod hdvd
  exact days_ne (by omega) (by omega) hk he hdays

/-! What the text stands for. -/

/-- The date-time that is printed lies some ten thousands of years before the one that is meant. -/
theorem printed_seconds (format : DatetimeFormat) {dt : DateTime} (hyear : dt.year < 2 ^ 16) :
    ∃ k ≤ 6, (format.printed dt).seconds + 86400 * (3652425 * (k : Nat)) = dt.seconds := by
  obtain ⟨k, hk⟩ := format.printedYear_add dt.year
  have hdays := daysBeforeYear_add (format.printedYear dt.year) (25 * k)
  rw [← hk] at hdays
  refine ⟨k, by omega, ?_⟩
  have hprinted : (format.printed dt).year = format.printedYear dt.year := rfl
  rw [DateTime.seconds, DateTime.seconds, DatetimeFormat.secondOfYear_printed, hprinted, hdays]
  push_cast
  ring

/-- The text of a date-time and the printed offset stand for the instant that is as far from the
date-time as is printed, if they stand for any. -/
theorem denotes_printed {dt : DateTime} {offsetText : List UInt8}
    (hyear : dt.year < 2 ^ 16)
    (hoffset : ∀ o, offsetText = format.offsetText o →
      UtcOffset.secondsOf o = printedSeconds format offset)
    (h : Denotes format (format.dateText (format.printed dt) offsetText) t) :
    ∃ k ≤ 6, dt.seconds = t + printedSeconds format offset + 86400 * (3652425 * (k : Nat)) := by
  obtain ⟨o, ho, hseconds⟩ :=
    (denotes_dateText_iff (DatetimeFormat.hasYear_printedYear format dt.year)).mp h
  obtain ⟨k, hk, hprinted⟩ := printed_seconds format hyear
  rw [hoffset o ho] at hseconds
  exact ⟨k, hk, by linarith⟩

theorem getFormattedDateTime_inv {applicationTimeOffset : Int} {text : List UInt8}
    (hoffset : offset ∈ offsets)
    (h : getFormattedDateTime format t applicationTimeOffset offset = .ok text) :
    -2 ^ 63 ≤ t + offset * secondsPerHour ∧ ∃ y s,
      yearOf (uint64 (t + offset * secondsPerHour)) = .ok (y, s) := by
  obtain ⟨⟨epochSeconds, offset'⟩, hzoned, h⟩ := Outcome.bind_eq_ok.mp h
  obtain ⟨⟨y, s⟩, hyear, -⟩ := Outcome.bind_eq_ok.mp h
  simp only [getZonedEpochTime, if_pos hoffset] at hzoned
  obtain ⟨tvSec, htime, hzoned⟩ := Outcome.bind_eq_ok.mp hzoned
  unfold timeOf at htime
  split at htime
  · cases htime
  · cases htime
    cases hzoned
    exact ⟨by omega, y, s, hyear⟩

/-- A clock that the offset brings before 1970 is never printed as it is. -/
theorem not_denotes_of_neg {applicationTimeOffset : Int} {text : List UInt8}
    (hoffset : offset ∈ offsets) (hneg : t + offset * secondsPerHour < 0)
    (htext : getFormattedDateTime format t applicationTimeOffset offset = .ok text) :
    ¬ Denotes format text t := by
  intro hdenotes
  obtain ⟨hlower, y, s, hyear⟩ := getFormattedDateTime_inv hoffset htext
  have huint : ((uint64 (t + offset * secondsPerHour) : Nat) : Int) =
      2 ^ 64 + (t + offset * secondsPerHour) := by
    simp only [uint64, uint64Mod]
    omega
  obtain ⟨w, q, hw, hy, hs, hwrapped⟩ := yearOf_wrapped (by omega) hyear
  have htime : timeOf (t + offset * secondsPerHour) = .ok (t + offset * secondsPerHour) := by
    rw [timeOf, if_neg (by omega)]
  obtain ⟨offsetText, hoffsetText, hread⟩ := formattedOffset_spec format hoffset
  obtain ⟨dt, hdtYear, hdtSecond, hprinted⟩ :=
    getFormattedDateTime_eq applicationTimeOffset hoffset htime hyear hy hs hoffsetText
  obtain rfl := Outcome.ok.inj (htext.symm.trans hprinted)
  obtain ⟨k, hk, hseconds⟩ := denotes_printed (by rwa [hdtYear]) hread hdenotes
  rw [DateTime.seconds, hdtYear, hdtSecond] at hseconds
  have hsum : 2 ^ 64 * (1 + (w : Int)) + excess format offset =
      86400 * (cycleDays * q + 3652425 * k) := by
    rw [excess]
    linarith
  obtain ⟨e, he, hexcess⟩ : ∃ e : Int, (e = 0 ∨ e = 33 ∨ e = -33) ∧
      excess format offset = 86400 * e := by
    by_cases hzero : offset = 0
    · exact ⟨0, .inl rfl, by rw [hzero, excess_zero, mul_zero]⟩
    · obtain hdays | hdays := (excess_spec format hoffset hzero).days (by omega)
      · exact ⟨33, .inr (.inl rfl), hdays⟩
      · exact ⟨-33, .inr (.inr rfl), hdays⟩
  rw [hexcess] at hsum
  exact wraps_ne hw hk he hsum

theorem offset_le : ∀ offset ∈ offsets, offset ≤ 1400 := by decide

theorem eq_zero_of_denotes {applicationTimeOffset : Int} {text : List UInt8}
    (ht : t < 86400 * daysBeforeYear 10000) (hoffset : offset ∈ offsets)
    (htext : getFormattedDateTime format t applicationTimeOffset offset = .ok text)
    (hdenotes : Denotes format text t) : offset = 0 ∧ 0 ≤ t := by
  have hpos : 0 ≤ t + offset * secondsPerHour := by
    by_contra hneg
    exact not_denotes_of_neg hoffset (by omega) htext hdenotes
  have hlt : t + offset * secondsPerHour < 86400 * daysBeforeYear 65535 := by
    have hle := offset_le offset hoffset
    have hnear : daysBeforeYear 10000 = 2932897 := by decide
    have hfar : daysBeforeYear 65535 = 23216639 := by decide
    simp only [secondsPerHour]
    omega
  obtain ⟨offsetText, hoffsetText, hread⟩ := formattedOffset_spec format hoffset
  obtain ⟨dt, hseconds, hyear, hprinted⟩ :=
    getFormattedDateTime_of_nonneg applicationTimeOffset hoffset hpos hlt hoffsetText
  obtain rfl := Outcome.ok.inj (htext.symm.trans hprinted)
  obtain ⟨k, hk, hread⟩ := denotes_printed hyear hread hdenotes
  have hexcess : excess format offset = 86400 * (3652425 * k) := by
    rw [excess]
    linarith
  have hzero : offset = 0 := by
    by_contra hne
    obtain ⟨hne, hlower, hupper, -⟩ := excess_spec format hoffset hne
    omega
  refine ⟨hzero, ?_⟩
  simpa [hzero] using hpos

/-- The text stands for the instant on the clock at offset zero from 1970 on, and never else. -/
theorem denotes_iff (format : DatetimeFormat) (applicationTimeOffset : Int)
    (ht : t < 86400 * daysBeforeYear 10000) (hoffset : offset ∈ offsets) :
    (∃ text, getFormattedDateTime format t applicationTimeOffset offset = .ok text ∧
      Denotes format text t) ↔ offset = 0 ∧ 0 ≤ t := by
  constructor
  · intro h
    obtain ⟨text, htext, hdenotes⟩ := h
    exact eq_zero_of_denotes ht hoffset htext hdenotes
  · intro h
    obtain ⟨rfl, hpos⟩ := h
    obtain ⟨n, rfl⟩ := Int.eq_ofNat_of_zero_le hpos
    obtain ⟨dt, hseconds, hyear, hprinted⟩ :=
      getFormattedDateTime_text format applicationTimeOffset ht
    refine ⟨_, hprinted, dt, none, ?_, rfl, ?_⟩
    · cases format with
      | readable => trivial
      | _ => exact hyear
    · simpa [UtcOffset.secondsOf] using hseconds

theorem denotes_at_start_of_1970 : ∃ text, getFormattedDateTime .iso8601 0 330 0 = .ok text ∧
    Denotes .iso8601 text 0 :=
  (denotes_iff .iso8601 330 (by simp [daysBeforeYear]) (by decide)).mpr ⟨rfl, le_refl 0⟩

theorem not_denotes_one_hour_east : ¬ ∀ (format : DatetimeFormat) (applicationTimeOffset : Int)
    (t : Nat), (t : Int) < 86400 * daysBeforeYear 10000 → ∀ offset ∈ offsets,
      ∃ text, getFormattedDateTime format t applicationTimeOffset offset = .ok text ∧
        Denotes format text t := by
  intro hall
  have ht : ((0 : Nat) : Int) < 86400 * daysBeforeYear 10000 := by simp [daysBeforeYear]
  have hoffset : (100 : Int) ∈ offsets := by decide
  obtain ⟨text, htext, hdenotes⟩ := hall .readable 0 0 ht 100 hoffset
  obtain ⟨hzero, -⟩ := eq_zero_of_denotes ht hoffset htext hdenotes
  exact absurd hzero (by decide)

end WylesLibs.Calendar
