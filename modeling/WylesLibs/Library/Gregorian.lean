import Mathlib

/-! The proleptic Gregorian calendar from the year 0 on, counted from 1970-01-01. -/
namespace WylesLibs.Library.Gregorian
variable {y m : Nat}

def IsLeap (y : Nat) : Prop := 4 ∣ y ∧ (¬ 100 ∣ y ∨ 400 ∣ y)

instance : DecidablePred IsLeap := fun y => inferInstanceAs (Decidable (4 ∣ y ∧ _))

def daysInYear (y : Nat) : Nat := if IsLeap y then 366 else 365

/-- Days up to the first of January. -/
def daysBeforeYear (y : Nat) : Int :=
  365 * y + ((y + 3) / 4 : Nat) - ((y + 99) / 100 : Nat) + ((y + 399) / 400 : Nat) - 719528

theorem daysBeforeYear_succ (y : Nat) : daysBeforeYear (y + 1) = daysBeforeYear y + daysInYear y := by
  unfold daysBeforeYear daysInYear
  by_cases hleap : IsLeap y
  · rw [if_pos hleap]
    simp only [IsLeap] at hleap
    omega
  · rw [if_neg hleap]
    simp only [IsLeap] at hleap
    omega

theorem daysBeforeYear_mono {y z : Nat} (h : y ≤ z) : daysBeforeYear y ≤ daysBeforeYear z := by
  induction h with
  | refl => exact le_refl _
  | step _ ih =>
    rw [daysBeforeYear_succ]
    omega

/-- The calendar repeats after 400 years. -/
theorem daysBeforeYear_add (y k : Nat) :
    daysBeforeYear (y + 400 * k) = daysBeforeYear y + 146097 * k := by
  simp only [daysBeforeYear]
  omega

theorem isLeap_add (y k : Nat) : IsLeap (y + 400 * k) ↔ IsLeap y := by
  simp only [IsLeap]
  omega

def monthLengths (y : Nat) : List Nat :=
  [31, if IsLeap y then 29 else 28, 31, 30, 31, 30, 31, 31, 30, 31, 30, 31]

def daysInMonth (y m : Nat) : Nat := (monthLengths y).getD (m - 1) 0
def daysBeforeMonth (y m : Nat) : Nat := ((monthLengths y).take (m - 1)).sum

theorem daysBeforeMonth_one (y : Nat) : daysBeforeMonth y 1 = 0 := rfl

theorem daysBeforeMonth_succ (h₁ : 1 ≤ m) (h₁₂ : m ≤ 12) :
    daysBeforeMonth y (m + 1) = daysBeforeMonth y m + daysInMonth y m := by
  obtain ⟨i, rfl⟩ : ∃ i, m = i + 1 := ⟨m - 1, by omega⟩
  have hi : i < (monthLengths y).length := by
    simp only [monthLengths, List.length_cons, List.length_nil]
    omega
  simp only [daysBeforeMonth, daysInMonth, Nat.add_sub_cancel]
  rw [List.take_add_one, List.getElem?_eq_getElem hi, List.sum_append,
    List.getD_eq_getElem _ _ hi]
  simp

theorem daysBeforeMonth_end (y : Nat) : daysBeforeMonth y 13 = daysInYear y := by
  simp only [daysBeforeMonth, monthLengths, daysInYear]
  split <;> rfl

theorem daysBeforeMonth_mono {m n : Nat} (h₁ : 1 ≤ m) (hn : m ≤ n) (h₁₃ : n ≤ 13) :
    daysBeforeMonth y m ≤ daysBeforeMonth y n := by
  induction hn with
  | refl => exact le_refl _
  | step hle ih =>
    have := ih (by omega)
    rw [Nat.succ_eq_add_one, daysBeforeMonth_succ (h₁.trans hle) (by omega)]
    omega

/-- A date and a time of its day. -/
structure DateTime where
  year : Nat
  month : Nat
  day : Nat
  hour : Nat
  minute : Nat
  second : Nat
  month_pos : 1 ≤ month
  month_le : month ≤ 12
  day_pos : 1 ≤ day
  day_le : day ≤ daysInMonth year month
  hour_lt : hour < 24
  minute_lt : minute < 60
  second_lt : second < 60

theorem daysInMonth_le (y m : Nat) : daysInMonth y m ≤ 31 := by
  unfold daysInMonth
  obtain h | h := Nat.lt_or_ge (m - 1) (monthLengths y).length
  · rw [List.getD_eq_getElem _ _ h]
    have hmem := List.getElem_mem h
    generalize (monthLengths y)[m - 1] = d at hmem
    simp only [monthLengths, List.mem_cons, List.not_mem_nil, or_false] at hmem
    split at hmem <;> omega
  · rw [List.getD_eq_default _ _ h]
    exact Nat.zero_le 31

namespace DateTime
variable (dt : DateTime)

def secondOfYear : Nat :=
  86400 * (daysBeforeMonth dt.year dt.month + (dt.day - 1)) + 3600 * dt.hour + 60 * dt.minute +
    dt.second

/-- Seconds from the start of 1970. -/
def seconds : Int := 86400 * daysBeforeYear dt.year + dt.secondOfYear

theorem secondOfYear_lt : dt.secondOfYear < 86400 * daysInYear dt.year := by
  have hday := dt.day_le
  have hday' := dt.day_pos
  have hhour := dt.hour_lt
  have hminute := dt.minute_lt
  have hsecond := dt.second_lt
  have hsucc := daysBeforeMonth_succ (y := dt.year) dt.month_pos dt.month_le
  have hmono := daysBeforeMonth_mono (y := dt.year) (m := dt.month + 1) (n := 13) (by omega)
    (by have := dt.month_le; omega) (by omega)
  rw [daysBeforeMonth_end] at hmono
  unfold secondOfYear
  omega

theorem seconds_lt : dt.seconds < 86400 * daysBeforeYear (dt.year + 1) := by
  have hlt := dt.secondOfYear_lt
  rw [daysBeforeYear_succ, seconds]
  omega

theorem le_seconds : 86400 * daysBeforeYear dt.year ≤ dt.seconds := by
  rw [seconds]
  omega

/-- A date-time lies before the start of a year exactly when its year does. -/
theorem seconds_lt_iff (y : Nat) : dt.seconds < 86400 * daysBeforeYear y ↔ dt.year < y := by
  constructor
  · intro h
    by_contra hle
    have hmono := daysBeforeYear_mono (Nat.le_of_not_lt hle)
    have hge := dt.le_seconds
    omega
  · intro h
    have hmono := daysBeforeYear_mono (Nat.succ_le_of_lt h)
    have hlt := dt.seconds_lt
    simp only [Nat.succ_eq_add_one] at hmono
    omega

/-- The day of the year tells the month, its start the day of the month. -/
theorem month_unique {y m m' d : Nat} (h₁ : 1 ≤ m) (h₁₂ : m ≤ 12) (h₁' : 1 ≤ m') (h₁₂' : m' ≤ 12)
    (hle : daysBeforeMonth y m ≤ d) (hlt : d < daysBeforeMonth y (m + 1))
    (hle' : daysBeforeMonth y m' ≤ d) (hlt' : d < daysBeforeMonth y (m' + 1)) : m = m' := by
  apply Nat.le_antisymm
  · by_contra hgt
    have hmono := daysBeforeMonth_mono (y := y) (m := m' + 1) (n := m) (by omega) (by omega) (by omega)
    omega
  · by_contra hgt
    have hmono := daysBeforeMonth_mono (y := y) (m := m + 1) (n := m') (by omega) (by omega) (by omega)
    omega

variable {dt} in
/-- The seconds tell the date-time. -/
theorem seconds_inj {dt' : DateTime} (h : dt.seconds = dt'.seconds) : dt = dt' := by
  have hyear : dt.year = dt'.year := by
    apply Nat.le_antisymm
    · have hlt := (dt.seconds_lt_iff (dt'.year + 1)).mp (h ▸ dt'.seconds_lt)
      omega
    · have hlt := (dt'.seconds_lt_iff (dt.year + 1)).mp (h ▸ dt.seconds_lt)
      omega
  have hsecond : dt.secondOfYear = dt'.secondOfYear := by
    simp only [seconds, hyear] at h
    omega
  obtain ⟨year, month, day, hour, minute, second, h₁, h₁₂, hday, hday', hhour, hminute, hsec⟩ := dt
  obtain ⟨year', month', day', hour', minute', second', h₁', h₁₂', hday₁, hday₁', hhour', hminute',
    hsec'⟩ := dt'
  obtain rfl : year = year' := hyear
  simp only [secondOfYear] at hsecond
  have hsucc := daysBeforeMonth_succ (y := year) h₁ h₁₂
  have hsucc' := daysBeforeMonth_succ (y := year) h₁' h₁₂'
  have hdays : daysBeforeMonth year month + (day - 1) =
      daysBeforeMonth year month' + (day' - 1) := by omega
  obtain rfl : month = month' := month_unique (y := year) (d := daysBeforeMonth year month + (day - 1)) h₁ h₁₂
    h₁' h₁₂' (by omega) (by omega) (by omega) (by omega)
  obtain rfl : day = day' := by omega
  obtain rfl : hour = hour' := by omega
  obtain rfl : minute = minute' := by omega
  obtain rfl : second = second' := by omega
  rfl

end DateTime
end WylesLibs.Library.Gregorian
