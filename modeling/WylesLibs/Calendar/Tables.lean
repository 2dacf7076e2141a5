import WylesLibs.Library.Gregorian
import WylesLibs.Calendar.ETime

/-! The tables and the leap years of `etime` are those of the calendar. -/
namespace WylesLibs.Calendar
open Library Library.Gregorian WylesLibs.Format
variable {y m : Nat}

theorem uint64_of_eq {v : Int} {n : Nat} (h : v = n) (hn : n < uint64Mod) : uint64 v = n := by
  rw [uint64, h, ← Int.natCast_mod, Int.toNat_natCast, Nat.mod_eq_of_lt hn]

theorem uint64_add (a b : Int) : uint64 ((uint64 a : Nat) + b) = uint64 (a + b) := by
  unfold uint64 uint64Mod
  omega

theorem isLeapYear_iff (y : Nat) : isLeapYear y = true ↔ IsLeap y := by
  simp only [isLeapYear, IsLeap, Bool.and_eq_true, Bool.or_eq_true, decide_eq_true_eq]
  omega

theorem runningSecondsUpUntilMonth_eq (y : Nat) :
    runningSecondsUpUntilMonth y =
      (List.range 13).map fun i => 86400 * daysBeforeMonth y (i + 1) := by
  simp only [runningSecondsUpUntilMonth, isLeapYear_iff, daysBeforeMonth, monthLengths]
  by_cases hleap : IsLeap y
  · simp only [if_pos hleap]
    rfl
  · simp only [if_neg hleap]
    rfl

theorem runningSecondsUpUntilMonth_getElem? (h₁ : 1 ≤ m) (h₁₃ : m ≤ 13) :
    (runningSecondsUpUntilMonth y)[m - 1]? = some (86400 * daysBeforeMonth y m) := by
  rw [runningSecondsUpUntilMonth_eq, List.getElem?_map, List.getElem?_range (by omega)]
  simp only [Option.map_some]
  rw [Nat.sub_add_cancel h₁]

theorem secondsUpUntilMonth_eq (h₁ : 1 ≤ m) (h₁₂ : m ≤ 12) :
    secondsUpUntilMonth m y = .ok (86400 * daysBeforeMonth y m) := by
  rw [secondsUpUntilMonth, if_neg (by omega), runningSecondsUpUntilMonth_getElem? h₁ (by omega)]

/-- The leap years from 1972 on that come before a year. -/
def leapYearsBefore (y : Nat) : Nat := (y + 3) / 4 + (y + 399) / 400 - (y + 99) / 100 - 478

theorem daysBeforeYear_eq (hy : 1970 ≤ y) :
    daysBeforeYear y = 365 * ((y : Int) - 1970) + leapYearsBefore y := by
  unfold daysBeforeYear leapYearsBefore
  omega

theorem numLeapYearsLoop_spec {steps cursor count : Nat} (hy : 1970 ≤ y) (hy' : y ≤ 9999)
    (hcursor : 4 ∣ cursor) (hge : 1972 ≤ cursor) (hclose : cursor < y + 4)
    (hsteps : y + 4 ≤ cursor + 4 * steps) (hcount : count = leapYearsBefore cursor) :
    numLeapYearsLoop y steps cursor count = .ok (leapYearsBefore y) := by
  induction steps generalizing cursor count with
  | zero => omega
  | succ steps ih =>
    rw [numLeapYearsLoop]
    by_cases hlt : cursor < y
    · rw [if_pos hlt, Nat.mod_eq_of_lt (by omega)]
      have hmax : leapYearsBefore cursor ≤ 2500 := by
        unfold leapYearsBefore
        omega
      refine ih (by omega) (by omega) (by omega) (by omega) ?_
      rw [hcount]
      by_cases hleap : IsLeap cursor
      · rw [if_pos ((isLeapYear_iff cursor).mpr hleap), Nat.mod_eq_of_lt (by omega)]
        unfold leapYearsBefore
        unfold IsLeap at hleap
        omega
      · rw [if_neg fun h => hleap ((isLeapYear_iff cursor).mp h)]
        unfold leapYearsBefore
        unfold IsLeap at hleap
        omega
    · have hsame : leapYearsBefore cursor = leapYearsBefore y := by
        unfold leapYearsBefore
        omega
      rw [if_neg hlt, hcount, hsame]

theorem getNumLeapYears_eq (hy : 1970 ≤ y) (hy' : y ≤ 9999) :
    getNumLeapYears y = .ok (leapYearsBefore y) :=
  numLeapYearsLoop_spec hy hy' (by decide) (le_refl 1972) (by omega) (by omega) rfl

end WylesLibs.Calendar
