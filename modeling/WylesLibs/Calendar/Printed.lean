import WylesLibs.Format.FirstPass
import WylesLibs.Format.OnStream
import WylesLibs.Calendar.DateText
import WylesLibs.Calendar.Tables

/-! What `getFormattedDateTime` prints: the fields of the seconds since the start of a year, and
their text. -/
namespace WylesLibs.Calendar
open Library Library.Gregorian WylesLibs.Stream WylesLibs.Format

/-! The texts. -/

section
variable {fuel n : Nat} {args : List (VaArg Empty)} {st : FormatState Empty}

theorem advances_u (hn : n < uint64Mod) (hargs : st.args = .uint64 n :: args) :
    Advances (fuel + 1) specU st (st.take ⟨some (.uint64 n), decimal n, Spec.u⟩ args) :=
  .u (by omega) hargs (numToString_decimal rfl rfl hn)

theorem advances_02u (hn : n < 100) (hargs : st.args = .uint64 n :: args) :
    Advances (fuel + 2) spec02u st (st.take ⟨some (.uint64 n), digits2 n, Spec.u⟩ args) :=
  .width_u [0x30, 0x32] (by omega) (by simp [isDigit]) (by simp) (by decide) hargs
    (numToString_padded (k := 2) rfl rfl (by decide) (by decide) hn)

/-- A fifth digit is left out. -/
theorem advances_04u (hn : n < 2 ^ 16) (hargs : st.args = .uint64 n :: args) :
    Advances (fuel + 2) spec04u st (st.take ⟨some (.uint64 n), digits4 (n % 10000), Spec.u⟩ args) := by
  refine .width_u [0x30, 0x34] (by omega) (by simp [isDigit]) (by simp) (by decide)
    hargs ?_
  obtain hlt | hge := Nat.lt_or_ge n 10000
  · rw [Nat.mod_eq_of_lt hlt]
    exact numToString_padded (k := 4) rfl rfl (by decide) (by decide) hlt
  · have hcut := numToString_cut (k := 4) { width := 4, upper := false } rfl rfl
      (by decide) (by decide) hge (by omega)
    rw [digitsText_eq rfl (Nat.mod_lt _ (by decide))] at hcut
    exact hcut

theorem advances_chars {cs : List UInt8} (st : FormatState Empty)
    (hcs : cs.all (fun c => c != Byte.backslash && c != Byte.openBrace) = true := by rfl) :
    Advances fuel cs st (st.put cs) := by
  simp only [List.all_eq_true, Bool.and_eq_true, bne_iff_ne] at hcs
  exact .chars hcs st

end

theorem format_of_advances {assign : ByteEStream → ByteEStream} {text : List UInt8}
    {args : List (VaArg Empty)} {st : FormatState Empty}
    (h : Advances (text.length + 1) text (.start args) st) (hescaped : st.escaped = false)
    (href : st.hasReferenceSelection = false) (hdelete : deleteArgs st.parsedArgs = .ok ()) :
    format assign text args = .ok st.formatOut := by
  rw [format_of_firstPass (h.run none) hescaped href, hdelete, Outcome.bind_ok]

namespace DatetimeFormat

/-- The ISO formats leave out a fifth digit of the year. -/
def printedYear : DatetimeFormat → Nat → Nat
  | .readable, year => year
  | _, year => year % 10000

theorem hasYear_printedYear (format : DatetimeFormat) (year : Nat) :
    format.HasYear (format.printedYear year) := by
  cases format with
  | readable => trivial
  | iso8601 => exact Nat.le_of_lt_succ (Nat.mod_lt _ (by decide))
  | iso8601Readable => exact Nat.le_of_lt_succ (Nat.mod_lt _ (by decide))

theorem printedYear_add (format : DatetimeFormat) (year : Nat) :
    ∃ k, year = format.printedYear year + 400 * (25 * k) := by
  cases format with
  | readable => exact ⟨0, by simp [printedYear]⟩
  | iso8601 => exact ⟨year / 10000, by simp only [printedYear]; omega⟩
  | iso8601Readable => exact ⟨year / 10000, by simp only [printedYear]; omega⟩

theorem daysInMonth_printedYear (format : DatetimeFormat) (year month : Nat) :
    daysInMonth (format.printedYear year) month = daysInMonth year month := by
  obtain ⟨k, hk⟩ := format.printedYear_add year
  have hleap := isLeap_add (format.printedYear year) (25 * k)
  rw [← hk] at hleap
  simp only [daysInMonth, monthLengths, hleap]

theorem daysBeforeMonth_printedYear (format : DatetimeFormat) (year month : Nat) :
    daysBeforeMonth (format.printedYear year) month = daysBeforeMonth year month := by
  obtain ⟨k, hk⟩ := format.printedYear_add year
  have hleap := isLeap_add (format.printedYear year) (25 * k)
  rw [← hk] at hleap
  simp only [daysBeforeMonth, monthLengths, hleap]

/-- The date-time that is printed for another. -/
def printed (format : DatetimeFormat) (dt : DateTime) : DateTime :=
  { dt with
    year := format.printedYear dt.year
    day_le := by
      rw [daysInMonth_printedYear]
      exact dt.day_le }

theorem secondOfYear_printed (format : DatetimeFormat) (dt : DateTime) :
    (format.printed dt).secondOfYear = dt.secondOfYear := by
  simp only [DateTime.secondOfYear, printed, daysBeforeMonth_printedYear]

end DatetimeFormat

theorem monthName_ne_nul {m : Nat} (hm : m ≤ 12) : ∀ c ∈ monthName.getD m [], c ≠ 0 :=
  fun c hc => (monthName_letters hm c hc).2

/-- The numbers that are printed of a date-time. -/
def Fields.of (dt : DateTime) : Fields :=
  ⟨dt.year, dt.month, dt.day - 1, dt.hour, dt.minute, dt.second⟩

theorem formattedFields_text (format : DatetimeFormat) (dt : DateTime) (hyear : dt.year < 2 ^ 16) :
    ∃ text, formattedFields format (.of dt) = .ok text ∧
      ∀ rest, text ++ rest = format.dateText (format.printed dt) rest := by
  have hmonth := dt.month_le
  have hmonth₁ := dt.month_pos
  have hday := dt.day_le.trans (daysInMonth_le _ _)
  have hday₁ := dt.day_pos
  have hhour := dt.hour_lt
  have hminute := dt.minute_lt
  have hsecond := dt.second_lt
  have hday' : dt.day - 1 + 1 = dt.day := by omega
  cases format with
  | readable =>
    have hname : monthName[dt.month]? = some (monthName.getD dt.month []) := by
      interval_cases dt.month <;> rfl
    refine ⟨monthName.getD dt.month [] ++ Byte.space :: (decimal dt.day ++ Byte.space ::
      (decimal dt.year ++ Byte.comma :: Byte.space :: (digits2 dt.hour ++ Byte.colon ::
        (digits2 dt.minute ++ Byte.colon :: (digits2 dt.second ++ [Byte.space]))))), ?_, ?_⟩
    · have hnul := monthName_ne_nul hmonth
      have hday64 : dt.day < uint64Mod := by
        unfold uint64Mod
        omega
      have hyear64 : dt.year < uint64Mod := hyear.trans (by decide)
      simp only [formattedFields, Fields.of, hname, hday']
      rw [format_of_advances ((((((((((((Advances.format fun rest =>
        ⟨_, parseFormat_s hnul rfl⟩).append (advances_chars _)).append
        (advances_u hday64 rfl)).append (advances_chars _)).append
        (advances_u hyear64 rfl)).append (advances_chars _)).append
        (advances_02u ?_ rfl)).append (advances_chars _)).append
        (advances_02u ?_ rfl)).append (advances_chars _)).append
        (advances_02u ?_ rfl)).append (advances_chars _)) rfl rfl ?_]
      · simp [FormatState.take, FormatState.put, FormatState.start]
      · omega
      · omega
      · omega
      · simp +decide [deleteArgs, FormatState.take, FormatState.put, FormatState.start]
    · intro rest
      simp [DatetimeFormat.dateText, DatetimeFormat.printed, DatetimeFormat.printedYear]
  | iso8601Readable =>
    refine ⟨digits4 (dt.year % 10000) ++ Byte.minus :: (digits2 dt.month ++ Byte.minus ::
      (digits2 dt.day ++ Byte.upperT :: (digits2 dt.hour ++ Byte.colon :: (digits2 dt.minute ++
        Byte.colon :: digits2 dt.second)))), ?_, ?_⟩
    · simp only [formattedFields, Fields.of, hday']
      rw [format_of_advances (((((((((((advances_04u hyear rfl).append (advances_chars _)).append
        (advances_02u ?_ rfl)).append (advances_chars _)).append
        (advances_02u ?_ rfl)).append (advances_chars _)).append
        (advances_02u ?_ rfl)).append (advances_chars _)).append
        (advances_02u ?_ rfl)).append (advances_chars _)).append
        (advances_02u ?_ rfl)) rfl rfl ?_]
      · simp [FormatState.take, FormatState.put, FormatState.start]
      · omega
      · omega
      · omega
      · omega
      · omega
      · simp +decide [deleteArgs, FormatState.take, FormatState.put, FormatState.start]
    · intro rest
      simp [DatetimeFormat.dateText, DatetimeFormat.printed, DatetimeFormat.printedYear]
  | iso8601 =>
    refine ⟨digits4 (dt.year % 10000) ++ (digits2 dt.month ++ (digits2 dt.day ++ Byte.upperT ::
      (digits2 dt.hour ++ (digits2 dt.minute ++ digits2 dt.second)))), ?_, ?_⟩
    · simp only [formattedFields, Fields.of, hday']
      rw [format_of_advances ((((((advances_04u hyear rfl).append
        (advances_02u ?_ rfl)).append (advances_02u ?_ rfl)).append (advances_chars _)).append
        (advances_02u ?_ rfl)).append (advances_02u ?_ rfl) |>.append
        (advances_02u ?_ rfl)) rfl rfl ?_]
      · simp [FormatState.take, FormatState.put, FormatState.start]
      · omega
      · omega
      · omega
      · omega
      · omega
      · simp +decide [deleteArgs, FormatState.take, FormatState.put, FormatState.start]
    · intro rest
      simp [DatetimeFormat.dateText, DatetimeFormat.printed, DatetimeFormat.printedYear]

/-! The fields. -/

/-- How many elements of a list that a function runs through come before the first that fails. -/
theorem takeWhile_range_length {p : Nat → Bool} {m n : Nat} (hpass : ∀ i < m, p i = true)
    (hm : m < n) (hfail : p m = false) : ((List.range n).takeWhile p).length = m := by
  obtain ⟨k, rfl⟩ : ∃ k, n = m + (k + 1) := ⟨n - m - 1, by omega⟩
  have hall : ∀ i ∈ List.range m, p i = true := fun i hi => hpass i (List.mem_range.mp hi)
  rw [List.range_add, List.takeWhile_append_of_pos hall, List.range_succ_eq_map, List.map_cons,
    List.takeWhile_cons_of_neg (by simpa using hfail)]
  simp

/-- The month of a second of the year. -/
theorem exists_month {y s : Nat} (hs : s < 86400 * daysInYear y) :
    ∃ m, 1 ≤ m ∧ m ≤ 12 ∧ 86400 * daysBeforeMonth y m ≤ s ∧
      s < 86400 * daysBeforeMonth y (m + 1) ∧
      ((runningSecondsUpUntilMonth y).takeWhile (· ≤ s)).length = m := by
  have hexists : ∃ m, s < 86400 * daysBeforeMonth y (m + 1) :=
    ⟨12, by rwa [daysBeforeMonth_end]⟩
  let m := Nat.find hexists
  have hlt : s < 86400 * daysBeforeMonth y (m + 1) := Nat.find_spec hexists
  have hle : ∀ i < m, 86400 * daysBeforeMonth y (i + 1) ≤ s := fun i hi =>
    Nat.le_of_not_lt (Nat.find_min hexists hi)
  have hm : m ≤ 12 := Nat.find_min' hexists (by rwa [daysBeforeMonth_end])
  have hpos : 1 ≤ m := by
    by_contra hzero
    rw [Nat.lt_one_iff.mp (Nat.lt_of_not_le hzero)] at hlt
    simp [daysBeforeMonth_one] at hlt
  refine ⟨m, hpos, hm, ?_, hlt, ?_⟩
  · have := hle (m - 1) (by omega)
    rwa [Nat.sub_add_cancel hpos] at this
  · rw [runningSecondsUpUntilMonth_eq, List.takeWhile_map, List.length_map]
    exact takeWhile_range_length (fun i hi => by simpa using hle i hi) (by omega)
      (by simpa using hlt)

theorem uint32_of_eq {v : Int} {n : Nat} (h : v = n) (hn : n < 2 ^ 32) : uint32 v = n := by
  rw [uint32, h, ← Int.natCast_mod, Int.toNat_natCast, Nat.mod_eq_of_lt hn]

/-- The fields are those of the date-time that the seconds are. -/
theorem fieldsOf_spec {y s : Nat} (hs : s < 86400 * daysInYear y) :
    ∃ dt : DateTime, dt.year = y ∧ dt.secondOfYear = s ∧ fieldsOf y s = .ok (.of dt) := by
  obtain ⟨m, hm₁, hm₁₂, hle, hlt, hlen⟩ := exists_month hs
  rw [daysBeforeMonth_succ hm₁ hm₁₂] at hlt
  have hdays := daysInMonth_le y m
  have hyear : daysInYear y ≤ 366 := by
    unfold daysInYear
    split <;> omega
  let r := s - 86400 * daysBeforeMonth y m
  have hr : r < 86400 * daysInMonth y m := by omega
  let dt : DateTime :=
    { year := y, month := m, day := r / 86400 + 1, hour := r % 86400 / 3600,
      minute := r % 3600 / 60, second := r % 60, month_pos := hm₁, month_le := hm₁₂,
      day_pos := by omega, day_le := by omega, hour_lt := by omega, minute_lt := by omega,
      second_lt := by omega }
  refine ⟨dt, rfl, ?_, ?_⟩
  · simp only [DateTime.secondOfYear, dt]
    omega
  · have hget := runningSecondsUpUntilMonth_getElem? (y := y) hm₁ (by omega : m ≤ 13)
    have hmonth : uint32 ((s : Int) - (86400 * daysBeforeMonth y m : Nat)) = r :=
      uint32_of_eq (by omega) (by omega)
    have hday : r / 86400 % 256 = r / 86400 := by omega
    have hrest : uint32 ((r : Int) - (r / 86400 : Nat) * (86400 : Nat)) = r % 86400 :=
      uint32_of_eq (by omega) (by omega)
    have hhour : r % 86400 / 3600 % 256 = r % 86400 / 3600 := by omega
    have hmin : uint32 ((r % 86400 : Nat) - (r % 86400 / 3600 : Nat) * (3600 : Nat) : Int) =
        r % 3600 := uint32_of_eq (by omega) (by omega)
    have hmin' : r % 3600 / 60 % 256 = r % 3600 / 60 := by omega
    have hsec : uint32 ((r % 86400 : Nat) - (r % 86400 / 3600 : Nat) * (3600 : Nat) -
        (r % 3600 / 60 : Nat) * (60 : Nat) : Int) = r % 60 := uint32_of_eq (by omega) (by omega)
    have hsec' : r % 60 % 256 = r % 60 := by omega
    simp only [fieldsOf, hlen, if_neg (by omega : ¬ m = 0), hget, secondsPerDay, secondsPerHour,
      secondsPerMinute, hmonth, hday, hrest, hhour, hmin, hmin', hsec, hsec', Fields.of, dt,
      Nat.add_sub_cancel]

end WylesLibs.Calendar
