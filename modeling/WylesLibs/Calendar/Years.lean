import WylesLibs.Calendar.Printed

/-! The year loop of `getFormattedDateTime`. Its year is a `uint16_t` and its count a `uint64_t`,
and both wrap if the seconds are those of a time before 1970. -/
namespace WylesLibs.Calendar
open Library Library.Gregorian WylesLibs.Stream WylesLibs.Format
variable {epochSeconds steps n k : Nat}

/-- The year that the loop has come to after `n` turns. -/
def yearAfter (n : Nat) : Nat := (1970 + n) % 2 ^ 16

/-- The seconds that the loop has counted after `n` turns, if nothing wraps. -/
def countAfter : Nat → Nat
  | 0 => 0
  | n + 1 => countAfter n + 86400 * daysInYear (yearAfter n)

/-- The days of all the years that a `uint16_t` can name. -/
def cycleDays : Nat := 23936532

theorem countAfter_eq (n : Nat) :
    (countAfter n : Int) =
      86400 * (cycleDays * ((1970 + n) / 2 ^ 16 : Nat) + daysBeforeYear (yearAfter n)) := by
  induction n with
  | zero => rfl
  | succ n ih =>
    have hsucc := daysBeforeYear_succ (yearAfter n)
    rw [countAfter, Nat.cast_add, ih]
    by_cases hlast : (1970 + n) % 2 ^ 16 = 65535
    · have hquot : (1970 + (n + 1)) / 2 ^ 16 = (1970 + n) / 2 ^ 16 + 1 := by omega
      have hnext : yearAfter (n + 1) = 0 := by
        unfold yearAfter
        omega
      have hyear : yearAfter n = 65535 := hlast
      have hzero : daysBeforeYear 0 + cycleDays = daysBeforeYear 65536 := by decide
      rw [hquot, hnext]
      rw [hyear] at hsucc ⊢
      push_cast
      push_cast at hsucc
      linarith
    · have hquot : (1970 + (n + 1)) / 2 ^ 16 = (1970 + n) / 2 ^ 16 := by omega
      have hnext : yearAfter (n + 1) = yearAfter n + 1 := by
        unfold yearAfter
        omega
      rw [hquot, hnext, hsucc]
      push_cast
      linarith

theorem daysInYear_le (y : Nat) : 365 ≤ daysInYear y ∧ daysInYear y ≤ 366 := by
  unfold daysInYear
  split <;> omega

theorem countAfter_lt_succ (n : Nat) : countAfter n < countAfter (n + 1) := by
  have := daysInYear_le (yearAfter n)
  simp only [countAfter]
  omega

/-- In the first cycle the count is that of the calendar. -/
theorem countAfter_of_lt (hn : 1970 + n < 2 ^ 16) :
    (countAfter n : Int) = 86400 * daysBeforeYear (1970 + n) := by
  have hyear : yearAfter n = 1970 + n := Nat.mod_eq_of_lt hn
  rw [countAfter_eq, hyear, Nat.div_eq_of_lt hn]
  simp

theorem yearLoop_turn (epochSeconds steps n : Nat) :
    yearLoop epochSeconds (steps + 1) (countAfter n % uint64Mod) (yearAfter n) =
      if epochSeconds ≥ countAfter (n + 1) % uint64Mod then
        yearLoop epochSeconds steps (countAfter (n + 1) % uint64Mod) (yearAfter (n + 1))
      else .ok (countAfter (n + 1) % uint64Mod, yearAfter (n + 1)) := by
  have hcount : (if isLeapYear (yearAfter n) then
      ((countAfter n % uint64Mod + secondsPerNonLeapYear) % uint64Mod + secondsPerDay) % uint64Mod
        else (countAfter n % uint64Mod + secondsPerNonLeapYear) % uint64Mod) =
      countAfter (n + 1) % uint64Mod := by
    simp only [isLeapYear_iff, countAfter, daysInYear, uint64Mod, secondsPerNonLeapYear,
      secondsPerDay]
    by_cases hleap : IsLeap (yearAfter n)
    · simp only [if_pos hleap]
      omega
    · simp only [if_neg hleap]
      omega
  have hyear : (yearAfter n + 1) % 2 ^ 16 = yearAfter (n + 1) := by
    unfold yearAfter
    omega
  rw [yearLoop, hcount, hyear]

/-- The loop ends at the first turn whose count is past the seconds. -/
theorem yearLoop_ends (hk : n < k) (hsteps : k ≤ n + steps)
    (hgo : ∀ j, n < j → j < k → countAfter j % uint64Mod ≤ epochSeconds)
    (hstop : epochSeconds < countAfter k % uint64Mod) :
    yearLoop epochSeconds steps (countAfter n % uint64Mod) (yearAfter n) =
      .ok (countAfter k % uint64Mod, yearAfter k) := by
  induction steps generalizing n with
  | zero => omega
  | succ steps ih =>
    rw [yearLoop_turn]
    by_cases hlast : n + 1 = k
    · rw [hlast, if_neg (by omega)]
    · rw [if_pos (hgo (n + 1) (by omega) (by omega))]
      exact ih (by omega) (by omega) fun j hj hjk => hgo j (by omega) hjk

theorem yearLoop_inv {r : Nat × Nat}
    (h : yearLoop epochSeconds steps (countAfter n % uint64Mod) (yearAfter n) = .ok r) :
    ∃ k, n < k ∧ (∀ j, n < j → j < k → countAfter j % uint64Mod ≤ epochSeconds) ∧
      epochSeconds < countAfter k % uint64Mod ∧ r = (countAfter k % uint64Mod, yearAfter k) := by
  induction steps generalizing n with
  | zero => cases h
  | succ steps ih =>
    rw [yearLoop_turn] at h
    by_cases hgo : epochSeconds ≥ countAfter (n + 1) % uint64Mod
    · rw [if_pos hgo] at h
      obtain ⟨k, hk, hall, hstop, hr⟩ := ih h
      refine ⟨k, by omega, fun j hj hjk => ?_, hstop, hr⟩
      by_cases hnext : j = n + 1
      · rwa [hnext]
      · exact hall j (by omega) hjk
    · rw [if_neg hgo] at h
      exact ⟨n + 1, by omega, fun j hj hjk => by omega, by omega, (Outcome.ok.inj h).symm⟩

theorem yearLoop_start (epochSeconds steps : Nat) :
    yearLoop epochSeconds steps 0 1970 =
      yearLoop epochSeconds steps (countAfter 0 % uint64Mod) (yearAfter 0) := rfl

/-- The last subtractions of `yearOf`, when the count is past the seconds and was not before. -/
theorem yearOf_rest {count year : Nat} (hlt : epochSeconds < count)
    (hle : count ≤ epochSeconds + 86400 * daysInYear year) (hcount : count < uint64Mod) :
    (if isLeapYear year then
        uint64 (uint64 ((epochSeconds : Int) - uint64 ((count : Int) - secondsPerNonLeapYear)) +
          secondsPerDay)
      else uint64 ((epochSeconds : Int) - uint64 ((count : Int) - secondsPerNonLeapYear))) =
      epochSeconds + 86400 * daysInYear year - count := by
  simp only [isLeapYear_iff, daysInYear, uint64, uint64Mod, secondsPerNonLeapYear, secondsPerDay]
    at hle hcount ⊢
  by_cases hleap : IsLeap year
  · simp only [if_pos hleap] at hle ⊢
    omega
  · simp only [if_neg hleap] at hle ⊢
    omega

/-- Between a count that is not past the seconds and one that is, the counter does not wrap. -/
theorem countAfter_unwrapped (hle : countAfter n % uint64Mod ≤ epochSeconds)
    (hlt : epochSeconds < countAfter (n + 1) % uint64Mod) :
    countAfter (n + 1) % uint64Mod = countAfter n % uint64Mod + 86400 * daysInYear (yearAfter n) := by
  have hdays := daysInYear_le (yearAfter n)
  simp only [countAfter, uint64Mod] at hle hlt ⊢
  omega

theorem yearOf_of_first (hyear : secondsPerNonLeapYear ≤ epochSeconds) (hn : n < 2 ^ 80)
    (hgo : ∀ j ≤ n, countAfter j % uint64Mod ≤ epochSeconds)
    (hstop : epochSeconds < countAfter (n + 1) % uint64Mod) :
    yearOf epochSeconds = .ok (yearAfter n, epochSeconds - countAfter n % uint64Mod) := by
  have hunwrapped := countAfter_unwrapped (hgo n (le_refl n)) hstop
  have hloop := yearLoop_ends (n := 0) (k := n + 1) (by omega) (by omega : n + 1 ≤ 0 + 2 ^ 80)
    (fun j _ hj => hgo j (by omega)) hstop
  rw [← yearLoop_start] at hloop
  have hlast : (yearAfter (n + 1) + 2 ^ 16 - 1) % 2 ^ 16 = yearAfter n := by
    unfold yearAfter
    omega
  have hle : countAfter (n + 1) % uint64Mod ≤
      epochSeconds + 86400 * daysInYear (yearAfter n) := by
    have := hgo n (le_refl n)
    omega
  rw [yearOf, if_pos hyear, hloop]
  simp only [Outcome.bind_ok, hlast]
  rw [yearOf_rest hstop hle (Nat.mod_lt _ (by decide)), hunwrapped,
    Nat.add_sub_add_right]

theorem yearOf_inv {y s : Nat} (hyear : secondsPerNonLeapYear ≤ epochSeconds)
    (h : yearOf epochSeconds = .ok (y, s)) :
    ∃ n, (∀ j ≤ n, countAfter j % uint64Mod ≤ epochSeconds) ∧
      epochSeconds < countAfter (n + 1) % uint64Mod ∧ y = yearAfter n ∧
      epochSeconds = countAfter n % uint64Mod + s ∧ s < 86400 * daysInYear y := by
  have hloop : ∃ r, yearLoop epochSeconds (2 ^ 80) 0 1970 = .ok r := by
    rw [yearOf, if_pos hyear, Outcome.bind_eq_ok] at h
    obtain ⟨r, hr, -⟩ := h
    exact ⟨r, hr⟩
  obtain ⟨r, hr⟩ := hloop
  have hr' := hr
  rw [yearLoop_start] at hr'
  obtain ⟨k, hk, hgo, hstop, rfl⟩ := yearLoop_inv hr'
  obtain ⟨n, rfl⟩ : ∃ n, k = n + 1 := ⟨k - 1, by omega⟩
  have hgo' : ∀ j ≤ n, countAfter j % uint64Mod ≤ epochSeconds := fun j hj => by
    by_cases hzero : j = 0
    · rw [hzero]
      exact Nat.zero_le _
    · exact hgo j (by omega) (by omega)
  have hunwrapped := countAfter_unwrapped (hgo' n (le_refl n)) hstop
  have hlast : (yearAfter (n + 1) + 2 ^ 16 - 1) % 2 ^ 16 = yearAfter n := by
    unfold yearAfter
    omega
  have hle := hgo' n (le_refl n)
  rw [yearOf, if_pos hyear, hr] at h
  simp only [Outcome.bind_ok, hlast] at h
  rw [yearOf_rest hstop (by omega) (Nat.mod_lt _ (by decide))] at h
  simp only [Outcome.ok.injEq, Prod.mk.injEq] at h
  obtain ⟨rfl, rfl⟩ := h
  exact ⟨n, hgo', hstop, rfl, by omega, by omega⟩

/-- A time that the first cycle of years reaches: the year and the seconds since its start. -/
theorem yearOf_spec (h : (epochSeconds : Int) < 86400 * daysBeforeYear 65535) :
    ∃ y s, yearOf epochSeconds = .ok (y, s) ∧ y < 2 ^ 16 ∧ s < 86400 * daysInYear y ∧
      (epochSeconds : Int) = 86400 * daysBeforeYear y + s := by
  by_cases hyear : secondsPerNonLeapYear ≤ epochSeconds
  · have hend : ∃ k, epochSeconds < countAfter (k + 1) := by
      refine ⟨63564, ?_⟩
      have heq := countAfter_of_lt (n := 63565) (by decide)
      simp only [Nat.reduceAdd] at heq ⊢
      omega
    let n := Nat.find hend
    have hlt : epochSeconds < countAfter (n + 1) := Nat.find_spec hend
    have hn : n ≤ 63564 := Nat.find_min' hend (by
      have heq := countAfter_of_lt (n := 63565) (by decide)
      simp only [Nat.reduceAdd] at heq ⊢
      omega)
    have hcount : ∀ j ≤ n + 1, countAfter j < uint64Mod := fun j hj => by
      have hj' : 1970 + j < 2 ^ 16 := by omega
      have heq := countAfter_of_lt hj'
      have hmono := daysBeforeYear_mono (show 1970 + j ≤ 65535 by omega)
      have hmax : daysBeforeYear 65535 = 23216639 := by decide
      simp only [uint64Mod]
      omega
    have hgo : ∀ j ≤ n, countAfter j % uint64Mod ≤ epochSeconds := fun j hj => by
      rw [Nat.mod_eq_of_lt (hcount j (by omega))]
      cases j with
      | zero => exact Nat.zero_le _
      | succ j => exact Nat.le_of_not_lt (Nat.find_min hend (by omega))
    have hstop : epochSeconds < countAfter (n + 1) % uint64Mod := by
      rwa [Nat.mod_eq_of_lt (hcount _ (le_refl _))]
    have hle := hgo n (le_refl n)
    rw [Nat.mod_eq_of_lt (hcount n (by omega))] at hle
    have hlast := countAfter_of_lt (n := n) (by omega)
    have hyearAfter : yearAfter n = 1970 + n := Nat.mod_eq_of_lt (by omega)
    refine ⟨1970 + n, epochSeconds - countAfter n, ?_, by omega, ?_, by omega⟩
    · rw [yearOf_of_first hyear (by omega) hgo hstop, hyearAfter,
        Nat.mod_eq_of_lt (hcount n (by omega))]
    · rw [countAfter, hyearAfter] at hlt
      omega
  · have hdays : daysInYear 1970 = 365 := by decide
    have hbefore : daysBeforeYear 1970 = 0 := by decide
    simp only [secondsPerNonLeapYear, not_le] at hyear
    refine ⟨1970, epochSeconds, ?_, by decide, by omega, by omega⟩
    rw [yearOf, if_neg (by simp only [secondsPerNonLeapYear]; omega)]

theorem getZonedEpochTime_utc {t : Nat} (applicationTimeOffset : Int) (ht : t < 2 ^ 63) :
    getZonedEpochTime t applicationTimeOffset 0 = .ok (t, 0) := by
  have hmem : (0 : Int) ∈ offsets := by decide
  simp only [getZonedEpochTime, if_pos hmem, zero_mul, add_zero]
  rw [timeOf, if_neg (by omega), Outcome.bind_ok,
    uint64_of_eq rfl (ht.trans (by decide))]

/-- The fields that `getFormattedDateTime` computes are those of the one date-time that the second
is, and the table has an entry for its month and one more. -/
theorem fields_of_second (t : Nat) (ht : (t : Int) < 86400 * daysBeforeYear 10000)
    (applicationTimeOffset : Int) :
    ∃ dt : DateTime, ∃ y s, dt.seconds = t ∧ (∀ dt' : DateTime, dt'.seconds = t → dt' = dt) ∧
      getZonedEpochTime t applicationTimeOffset 0 = .ok (t, 0) ∧ yearOf t = .ok (y, s) ∧
      fieldsOf y s = .ok ⟨dt.year, dt.month, dt.day - 1, dt.hour, dt.minute, dt.second⟩ ∧
      ((runningSecondsUpUntilMonth y).takeWhile (· ≤ s)).length <
        (runningSecondsUpUntilMonth y).length := by
  have hend : daysBeforeYear 10000 < 2 ^ 32 := by simp [daysBeforeYear]
  have hmono : daysBeforeYear 10000 ≤ daysBeforeYear 65535 := daysBeforeYear_mono (by decide)
  obtain ⟨y, s, hyear, hy, hs, hseconds⟩ := @yearOf_spec t (by omega)
  obtain ⟨dt, hdtYear, hdtSecond, hfields⟩ := fieldsOf_spec hs
  obtain ⟨m, -, hm, -, -, hlen⟩ := exists_month hs
  have hdt : dt.seconds = t := by
    rw [DateTime.seconds, hdtYear, hdtSecond, hseconds]
  refine ⟨dt, y, s, hdt, ?_, getZonedEpochTime_utc applicationTimeOffset (by omega), hyear, hfields,
    ?_⟩
  · intro dt' hdt'
    exact DateTime.seconds_inj (hdt'.trans hdt.symm)
  · rw [hlen, runningSecondsUpUntilMonth_eq, List.length_map, List.length_range]
    omega

/-- The last second of the leap day of 2000. -/
theorem fields_of_leap_day : ∃ dt : DateTime, dt.seconds = (951868799 : Nat) ∧
    ∃ y s, yearOf 951868799 = .ok (y, s) ∧
      fieldsOf y s = .ok ⟨dt.year, dt.month, dt.day - 1, dt.hour, dt.minute, dt.second⟩ := by
  obtain ⟨dt, y, s, hdt, -, -, hyear, hfields, -⟩ :=
    fields_of_second 951868799 (by simp [daysBeforeYear]) 0
  exact ⟨dt, hdt, y, s, hyear, hfields⟩

end WylesLibs.Calendar
