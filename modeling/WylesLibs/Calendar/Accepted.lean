import WylesLibs.EStream.ReadsEnd
import WylesLibs.Calendar.Printed
import WylesLibs.Calendar.Parsed

/-! Which texts the parsers of date-times accept: how they cut a text, what they check of the
pieces, and what they do not. -/
namespace WylesLibs.Calendar
open Library Library.Gregorian WylesLibs.Stream WylesLibs.Format

/-! The pieces of a text. -/

inductive OffsetCut where
  | utc
  | other (sign : UInt8) (hour minute : List UInt8)

structure DateCut where
  year : List UInt8
  month : List UInt8
  day : List UInt8
  /-- The byte behind the day. -/
  afterDay : UInt8
  hour : List UInt8
  minute : List UInt8
  second : List UInt8
  offset : OffsetCut

def OffsetCut.text (format : DatetimeFormat) (o : OffsetCut) (rest : List UInt8) : List UInt8 :=
  match o with
  | .utc => Byte.upperZ :: rest
  | .other sign hour minute =>
    sign ::
      match format with
      | .iso8601 => hour ++ (minute ++ rest)
      | _ => hour ++ Byte.colon :: (minute ++ rest)

/-- The pieces where the format has them, in front of `rest`. -/
def DateCut.text (format : DatetimeFormat) (c : DateCut) (rest : List UInt8) : List UInt8 :=
  match format with
  | .readable =>
    c.month ++ Byte.space :: (c.day ++ c.afterDay :: (c.year ++ Byte.comma :: Byte.space ::
      (c.hour ++ Byte.colon :: (c.minute ++ Byte.colon :: (c.second ++ Byte.space ::
        c.offset.text format rest)))))
  | .iso8601Readable =>
    c.year ++ Byte.minus :: (c.month ++ Byte.minus :: (c.day ++ c.afterDay ::
      (c.hour ++ Byte.colon :: (c.minute ++ Byte.colon :: (c.second ++
        c.offset.text format rest)))))
  | .iso8601 =>
    c.year ++ (c.month ++ (c.day ++ c.afterDay :: (c.hour ++ (c.minute ++ (c.second ++
      c.offset.text format rest)))))

/-! The date-times that a text may begin with. -/

/-- Digits, and at least one, of a number. -/
def Numeral (ds : List UInt8) (n : Nat) : Prop :=
  ds ≠ [] ∧ (∀ d ∈ ds, isDigit d = true) ∧ digitsValue ds 0 = n

def DatetimeFormat.afterDay : DatetimeFormat → UInt8
  | .readable => Byte.space
  | _ => Byte.upperT

def OffsetCut.Renders (format : DatetimeFormat) (c : OffsetCut) (o : Option UtcOffset) : Prop :=
  match c, o with
  | .utc, none => True
  | .other sign hour minute, some o =>
    sign = o.signChar ∧ Numeral hour o.hour ∧ Numeral minute o.minute ∧ minute.length = 2 ∧
      (format = .iso8601 → hour.length = 1)
  | _, _ => False

/-- The pieces are the numbers of the date-time, in digits but for the name of the month. -/
structure DateCut.Renders (format : DatetimeFormat) (c : DateCut) (dt : DateTime)
    (o : Option UtcOffset) : Prop where
  year : Numeral c.year dt.year
  month : match format with
    | .readable => c.month = monthName.getD dt.month []
    | _ => Numeral c.month dt.month
  day : Numeral c.day dt.day
  afterDay : c.afterDay = format.afterDay
  hour : Numeral c.hour dt.hour
  minute : Numeral c.minute dt.minute
  second : Numeral c.second dt.second
  widths : format = .iso8601 → c.year.length = 4 ∧ c.month.length = 2 ∧ c.day.length = 2 ∧
    c.hour.length = 2 ∧ c.minute.length = 2 ∧ c.second.length = 2
  offset : c.offset.Renders format o

def WellFormed (format : DatetimeFormat) (text : List UInt8) : Prop :=
  ∃ (c : DateCut) (rest : List UInt8) (dt : DateTime) (o : Option UtcOffset),
    text = c.text format rest ∧ c.Renders format dt o ∧ 1970 ≤ dt.year ∧ dt.year ≤ 9999

/-! What the parsers look at. -/

namespace DateCut
variable (format : DatetimeFormat) (c : DateCut)

def yearRead : Nat := wrappedValue c.year 0 % 2 ^ 16
def monthRead : Nat :=
  match format with
  | .readable => monthNum (c.month ++ [Byte.space])
  | _ => wrappedValue c.month 0 % 256
def dayRead : Nat := wrappedValue c.day 0 % 256
def hourRead : Nat := wrappedValue c.hour 0 % 256
def minuteRead : Nat := wrappedValue c.minute 0 % 256
def secondRead : Nat := wrappedValue c.second 0 % 256

end DateCut

/-- The offset is cut where the parser of the format does it. -/
def OffsetCut.Delimited (format : DatetimeFormat) (o : OffsetCut) : Prop :=
  match o with
  | .utc => True
  | .other sign hour minute =>
    (sign = Byte.plus ∨ sign = Byte.minus) ∧ minute.length = 2 ∧
      match format with
      | .iso8601 => hour.length = 1
      | _ => ∀ d ∈ hour, isDigit d = true

/-- The pieces are cut where the parser of the format does it. -/
def DateCut.Delimited (format : DatetimeFormat) (c : DateCut) : Prop :=
  (match format with
    | .readable => (∀ a ∈ c.month, a ≠ Byte.space) ∧ c.afterDay = Byte.space ∧
      (∀ d ∈ c.day, isDigit d = true) ∧ (∀ d ∈ c.year, isDigit d = true) ∧
      (∀ d ∈ c.hour, isDigit d = true) ∧ (∀ d ∈ c.minute, isDigit d = true) ∧
      ∀ d ∈ c.second, isDigit d = true
    | .iso8601Readable => (∀ a ∈ c.year, a ≠ Byte.minus) ∧ (∀ a ∈ c.month, a ≠ Byte.minus) ∧
      c.afterDay = Byte.upperT ∧ (∀ a ∈ c.day, a ≠ Byte.upperT) ∧
      (∀ a ∈ c.hour, a ≠ Byte.colon) ∧ (∀ a ∈ c.minute, a ≠ Byte.colon) ∧
      ∀ a ∈ c.second, a ∉ [Byte.upperZ, Byte.plus, Byte.minus]
    | .iso8601 => c.year.length = 4 ∧ c.month.length = 2 ∧ c.day.length = 2 ∧
      c.hour.length = 2 ∧ c.minute.length = 2 ∧ c.second.length = 2) ∧
  c.offset.Delimited format

def OffsetCut.Passes (o : OffsetCut) : Prop :=
  match o with
  | .utc => True
  | .other _ hour _ => hour.length ≤ 1

/-- All that the parser of the format checks of the pieces. -/
structure DateCut.Passes (format : DatetimeFormat) (c : DateCut) : Prop where
  delimited : c.Delimited format
  year : 1970 ≤ c.yearRead ∧ c.yearRead ≤ 9999 ∧ c.year.length ≤ 4
  month : 1 ≤ c.monthRead format ∧ c.monthRead format ≤ 12
  monthLength : format ≠ .readable → c.month.length ≤ 2
  day : 1 ≤ c.dayRead ∧ c.dayRead ≤ 31 ∧ c.day.length ≤ 2
  hour : c.hourRead ≤ 23 ∧ c.hour.length ≤ 2
  minute : c.minuteRead ≤ 59 ∧ c.minute.length ≤ 2
  second : c.secondRead ≤ 59 ∧ c.second.length ≤ 2
  offset : c.offset.Passes

/-- A year past the last one whose seconds fit is read, and so are the pieces before it. -/
def Late (format : DatetimeFormat) (text : List UInt8) : Prop :=
  ∃ (c : DateCut) (rest : List UInt8), 2039 ≤ c.yearRead ∧ c.yearRead ≤ 9999 ∧ c.year.length ≤ 4 ∧
    match format with
    | .readable =>
      text = c.month ++ Byte.space :: (c.day ++ Byte.space :: (c.year ++ Byte.comma ::
        Byte.space :: rest)) ∧
      (∀ a ∈ c.month, a ≠ Byte.space) ∧ (∀ d ∈ c.day, isDigit d = true) ∧
      (∀ d ∈ c.year, isDigit d = true) ∧ 1 ≤ c.monthRead .readable ∧
      c.monthRead .readable ≤ 12 ∧ 1 ≤ c.dayRead ∧ c.dayRead ≤ 31 ∧ c.day.length ≤ 2
    | .iso8601Readable => text = c.year ++ Byte.minus :: rest ∧ ∀ a ∈ c.year, a ≠ Byte.minus
    | .iso8601 => text = c.year ++ rest ∧ c.year.length = 4

def OffsetCut.Proper (o : OffsetCut) : Prop :=
  match o with
  | .utc => True
  | .other _ hour minute => ∃ h m, Numeral hour h ∧ Numeral minute m ∧ m ≤ 59

/-- What the parsers do not check: that the numbers are written in digits, that the `T` is one,
that the month has the day, and that the minutes of the offset are less than an hour. -/
def DateCut.Proper (format : DatetimeFormat) (c : DateCut) : Prop :=
  Numeral c.year c.yearRead ∧ (format ≠ .readable → Numeral c.month (c.monthRead format)) ∧
  Numeral c.day c.dayRead ∧ Numeral c.hour c.hourRead ∧ Numeral c.minute c.minuteRead ∧
  Numeral c.second c.secondRead ∧ c.afterDay = format.afterDay ∧
  c.dayRead ≤ daysInMonth c.yearRead (c.monthRead format) ∧ c.offset.Proper

/-! One step of a parser. -/

section
variable {σ : Type} {s : σ} {n k : Nat}

theorem invalid_thrown (field : String) (hn : n < uint64Mod)
    (hfield : (bytes ("Error parsing Readable Date Time, invalid " ++ field ++ ". ").toList).all
      (fun c => c != Byte.backslash && c != Byte.openBrace) = true := by rfl) :
    ∃ w, (invalid field n : Prog σ Unit) s = .thrown w := by
  have hmessage : Format.format (D := Empty) ByteEStream.moveAssign
      (bytes ("Error parsing Readable Date Time, invalid " ++ field ++ ". ").toList ++ specU)
      [.uint64 n] = .ok _ :=
    format_of_advances ((advances_chars _ hfield).append (advances_u hn rfl)) rfl rfl rfl
  rw [invalid, hmessage]
  exact ⟨_, rfl⟩

variable {R : Unit × σ → Prop}

theorem isValidYear_ends :
    (isValidYear (n % 2 ^ 16) k s).Ends R True ↔
      (1970 ≤ n % 2 ^ 16 → n % 2 ^ 16 ≤ 9999 → k ≤ 4 → R ((), s)) := by
  have hn : n % 2 ^ 16 < uint64Mod := (Nat.mod_lt n (by decide)).trans (by decide)
  rw [isValidYear, Prog.ends_check (invalid_thrown "year" hn)]
  constructor
  · intro h h₁ h₂ h₃
    exact h (by omega)
  · intro h hc
    exact h (by omega) (by omega) (by omega)

theorem isValidMonth_ends (hn : n < 256) :
    (isValidMonth n k s).Ends R True ↔
      (1 ≤ n → n ≤ 12 → (k ≠ uint8Max → k ≤ 2) → R ((), s)) := by
  rw [isValidMonth, Prog.ends_check (invalid_thrown "month" (hn.trans (by decide)))]
  constructor
  · intro h h₁ h₂ h₃
    exact h (by omega)
  · intro h hc
    exact h (by omega) (by omega) (by omega)

theorem isValidDay_ends :
    (isValidDay (n % 256) k s).Ends R True ↔
      (1 ≤ n % 256 → n % 256 ≤ 31 → k ≤ 2 → R ((), s)) := by
  have hn : n % 256 < uint64Mod := (Nat.mod_lt n (by decide)).trans (by decide)
  rw [isValidDay, Prog.ends_check (invalid_thrown "day" hn)]
  constructor
  · intro h h₁ h₂ h₃
    exact h (by omega)
  · intro h hc
    exact h (by omega) (by omega) (by omega)

theorem isValidHr_ends :
    (isValidHr (n % 256) k s).Ends R True ↔ (n % 256 ≤ 23 → k ≤ 2 → R ((), s)) := by
  have hn : n % 256 < uint64Mod := (Nat.mod_lt n (by decide)).trans (by decide)
  rw [isValidHr, Prog.ends_check (invalid_thrown "hour" hn)]
  constructor
  · intro h h₁ h₂
    exact h (by omega)
  · intro h hc
    exact h (by omega) (by omega)

theorem isValidMin_ends :
    (isValidMin (n % 256) k s).Ends R True ↔ (n % 256 ≤ 59 → k ≤ 2 → R ((), s)) := by
  have hn : n % 256 < uint64Mod := (Nat.mod_lt n (by decide)).trans (by decide)
  rw [isValidMin, Prog.ends_check (invalid_thrown "hour" hn)]
  constructor
  · intro h h₁ h₂
    exact h (by omega)
  · intro h hc
    exact h (by omega) (by omega)

theorem isValidSec_ends :
    (isValidSec (n % 256) k s).Ends R True ↔ (n % 256 ≤ 59 → k ≤ 2 → R ((), s)) := by
  have hn : n % 256 < uint64Mod := (Nat.mod_lt n (by decide)).trans (by decide)
  rw [isValidSec, Prog.ends_check (invalid_thrown "sec" hn)]
  constructor
  · intro h h₁ h₂
    exact h (by omega)
  · intro h hc
    exact h (by omega) (by omega)

theorem expect_ends {c : UInt8} {msg : String} {l : List UInt8} {R : Unit × List UInt8 → Prop} :
    (expect c msg l).Ends R True ↔ ∀ rest, l = c :: rest → R ((), rest) := by
  simp only [expect, Prog.ends_bind, get_ends, Prog.ends_ite, Prog.ends_raise, Prog.ends_pure,
    ne_eq, implies_true, true_and, not_not]
  constructor
  · intro h rest hl
    exact h c rest hl rfl
  · rintro h _ rest hl rfl
    exact h rest hl

theorem addYears_ends {R : Nat → Prop} (hn : 1970 ≤ n) :
    (addYears 0 n).Ends R True ↔ n ≤ 2038 ∧ R (uint64 (86400 * daysBeforeYear n)) := by
  obtain hle | hgt := Nat.lt_or_ge n 2039
  · rw [addYears_eq hn (by omega), Outcome.ends_ok]
    exact ⟨fun h => ⟨by omega, h⟩, And.right⟩
  · rw [addYears_undef hgt]
    exact ⟨False.elim, fun h => absurd h.1 (by omega)⟩

end

/-- Only the names of the months have numbers. -/
theorem monthNum_inv (name : List UInt8) :
    monthNum name = 0 ∨ ∃ m, 1 ≤ m ∧ m ≤ 12 ∧ monthNum name = m ∧
      name = monthName.getD m [] ++ [Byte.space] := by
  rw [monthNum]
  cases hname : List.lookup name _ with
  | none => exact Or.inl rfl
  | some m =>
    right
    obtain ⟨l₁, l₂, hl, -⟩ := List.lookup_eq_some_iff.mp hname
    have hmem : (name, m) ∈ l₁ ++ (name, m) :: l₂ := by simp
    rw [← hl] at hmem
    simp only [List.mem_cons, Prod.mk.injEq, List.not_mem_nil, or_false] at hmem
    obtain ⟨rfl, rfl⟩ | ⟨rfl, rfl⟩ | ⟨rfl, rfl⟩ | ⟨rfl, rfl⟩ | ⟨rfl, rfl⟩ | ⟨rfl, rfl⟩ | ⟨rfl, rfl⟩ |
      ⟨rfl, rfl⟩ | ⟨rfl, rfl⟩ | ⟨rfl, rfl⟩ | ⟨rfl, rfl⟩ | ⟨rfl, rfl⟩ := hmem
    all_goals exact ⟨_, by decide, by decide, rfl, rfl⟩

theorem monthNum_lt (name : List UInt8) : monthNum name < 256 := by
  obtain h | ⟨m, -, hm, h, -⟩ := monthNum_inv name <;> omega

/-! The parsers. -/

section
variable {l : List UInt8} {Q : Prop}

theorem parseSign_ends {σ : Type} {c : UInt8} {s : σ} {R : Int × σ → Prop} :
    (parseSign c s).Ends R True ↔
      ∀ v, (c = Byte.plus ∧ v = 1) ∨ (c = Byte.minus ∧ v = -1) → R (v, s) := by
  simp only [parseSign, Prog.ends_ite, Prog.ends_pure, Prog.ends_raise, implies_true, and_true]
  constructor
  · rintro ⟨h₁, h₂⟩ v (⟨hc, rfl⟩ | ⟨rfl, rfl⟩)
    · exact h₁ hc
    · exact h₂ (by decide) rfl
  · intro h
    exact ⟨fun hc => h 1 (Or.inl ⟨hc, rfl⟩), fun _ hc => h (-1) (Or.inr ⟨hc, rfl⟩)⟩

theorem sign_ne {sign : UInt8} (h : sign = Byte.plus ∨ sign = Byte.minus) : sign ≠ Byte.upperZ := by
  obtain rfl | rfl := h <;> decide

theorem parseReadableOffset_ends (format : DatetimeFormat) (hformat : format ≠ .iso8601) :
    (parseReadableOffset l).Ends (fun _ => Q) True ↔
      ∀ (o : OffsetCut) (rest : List UInt8), l = o.text format rest → o.Delimited format →
        o.Passes → Q := by
  simp only [parseReadableOffset, Prog.ends_bind, get_ends, Prog.ends_ite, Prog.ends_pure,
    parseSign_ends, readNatural_ends, Prog.ends_raise, expect_ends,
    readNaturalN_ends (n := 2) (by decide) (by decide)]
  constructor
  · intro h o rest hl hd hp
    cases o with
    | utc => exact (h Byte.upperZ rest hl).2 (by simp)
    | other sign hour minute =>
      obtain ⟨hsigns, hminute, hhour⟩ := hd
      have hlen : hour.length ≤ 1 := hp
      have hsign := sign_ne hsigns
      have htext : l = sign :: (hour ++ Byte.colon :: (minute ++ rest)) := by
        cases format with
        | iso8601 => exact absurd rfl hformat
        | readable => exact hl
        | iso8601Readable => exact hl
      have hdigits : ∀ d ∈ hour, isDigit d = true := by
        cases format with
        | iso8601 => exact absurd rfl hformat
        | readable => exact hhour
        | iso8601Readable => exact hhour
      have hv : ∃ v : Int, (sign = Byte.plus ∧ v = 1) ∨ (sign = Byte.minus ∧ v = -1) := by
        obtain hplus | hminus := hsigns
        · exact ⟨1, Or.inl ⟨hplus, rfl⟩⟩
        · exact ⟨-1, Or.inr ⟨hminus, rfl⟩⟩
      obtain ⟨v, hv⟩ := hv
      have hread := ((h sign _ htext).1 hsign v hv hour Byte.colon _ rfl hdigits (by decide)
        (hlen.trans (by decide))).2 (by omega)
      exact (hread _ rfl minute rest rfl hminute).2 (by decide)
  · intro h c rest hl
    constructor
    · intro hc v hv hour c' rest' hrest hhour _ _
      refine ⟨fun _ => trivial, fun hlen rest'' hcolon minute rest''' hminute hlen2 => ?_⟩
      refine ⟨fun _ => trivial, fun _ => ?_⟩
      subst hminute
      obtain ⟨rfl, rfl⟩ := List.cons.inj hcolon
      refine h (.other c hour minute) rest''' ?_ ⟨hv.imp And.left And.left, hlen2, ?_⟩
        (Nat.le_of_not_lt hlen)
      · rw [hl, hrest]
        cases format with
        | iso8601 => exact absurd rfl hformat
        | readable => rfl
        | iso8601Readable => rfl
      · cases format with
        | iso8601 => exact absurd rfl hformat
        | readable => exact hhour
        | iso8601Readable => exact hhour
    · intro hc
      obtain rfl : c = Byte.upperZ := not_not.mp hc
      exact h .utc rest hl trivial trivial

/-- The offset begins with what the seconds end at. -/
theorem OffsetCut.Delimited.text_readable {o : OffsetCut} (h : o.Delimited .iso8601Readable)
    (rest : List UInt8) :
    ∃ u rest', o.text .iso8601Readable rest = u :: rest' ∧
      u ∈ [Byte.upperZ, Byte.plus, Byte.minus] := by
  cases o with
  | utc => exact ⟨_, _, rfl, by simp⟩
  | other sign hour minute =>
    refine ⟨_, _, rfl, ?_⟩
    obtain ⟨rfl | rfl, -⟩ := h <;> simp

theorem parseIso8601ReadableDateTime_ends :
    (parseIso8601ReadableDateTime l).Ends (fun _ => Q) True ↔
      ¬ Late .iso8601Readable l ∧ ∀ (c : DateCut) (rest : List UInt8),
        l = c.text .iso8601Readable rest → c.Passes .iso8601Readable → Q := by
  simp +contextual only [parseIso8601ReadableDateTime, Prog.ends_bind, Prog.ends_lift,
    Prog.ends_pure, readNaturalUntil_one_ends, isValidYear_ends,
    readNaturalUntil_ends [Byte.upperZ, Byte.plus, Byte.minus] false,
    isValidMonth_ends (Nat.mod_lt _ (by decide : 0 < 256)), isValidDay_ends, isValidHr_ends,
    isValidMin_ends, isValidSec_ends, addYears_ends, secondsUpUntilMonth_eq, Outcome.ends_ok,
    parseReadableOffset_ends .iso8601Readable (by simp), Bool.false_eq_true, if_false]
  constructor
  · intro h
    constructor
    · intro hcase
      obtain ⟨c, rest, hlate, hyear, hlen, hl, hcut⟩ := hcase
      have hle := (h c.year rest hl hcut (hlen.trans (by decide)) ((by decide : 1970 ≤ 2039).trans hlate) hyear
        hlen).1
      exact absurd hle (by simp only [DateCut.yearRead] at hlate; omega)
    · intro c rest hl hp
      obtain ⟨⟨hyear, hmonth, hafter, hday, hhour, hminute, hsecond⟩, hoffset⟩ := hp.delimited
      have hlen := hp.monthLength (by simp)
      obtain ⟨u, rest', hrest, hu⟩ := hoffset.text_readable rest
      rw [DateCut.text, hafter] at hl
      have hread := (h c.year _ hl hyear (hp.year.2.2.trans (by decide)) hp.year.1 hp.year.2.1
        hp.year.2.2).2 c.month _ rfl hmonth (hlen.trans (by decide)) hp.month.1 hp.month.2
        (fun _ => hlen) c.day _ rfl hday (hp.day.2.2.trans (by decide)) hp.day.1 hp.day.2.1
        hp.day.2.2 c.hour _ rfl hhour (hp.hour.2.trans (by decide)) hp.hour.1 hp.hour.2 c.minute _
        rfl hminute (hp.minute.2.trans (by decide)) hp.minute.1 hp.minute.2
      rw [hrest] at hread
      exact hread c.second u rest' rfl hsecond hu (hp.second.2.trans (by decide)) hp.second.1
        hp.second.2 c.offset rest hrest.symm hoffset hp.offset
  · intro hcase year rest hl hyear _ hyear₁ hyear₂ hyearLen
    obtain ⟨hlate, h⟩ := hcase
    constructor
    · by_contra hgt
      exact hlate ⟨⟨year, [], [], 0, [], [], [], .utc⟩, rest, by simp only [DateCut.yearRead]; omega,
        hyear₂, hyearLen, hl, hyear⟩
    · intro month rest₁ hl₁ hmonth hmonthLen hmonth₁ hmonth₂ hmonthLen' day rest₂ hl₂ hday _ hday₁
        hday₂ hdayLen hour rest₃ hl₃ hhour _ hhour₁ hhourLen minute rest₄ hl₄ hminute _ hminute₁
        hminuteLen second u rest₅ hl₅ hsecond _ _ hsecond₁ hsecondLen o rest₆ hl₆ hd hp
      subst hl hl₁ hl₂ hl₃ hl₄ hl₅
      have htwo : month.length ≤ 2 := hmonthLen' (by simp only [numberMaxDigits, uint8Max] at *; omega)
      refine h ⟨year, month, day, Byte.upperT, hour, minute, second, o⟩ rest₆ ?_ ?_
      · rw [hl₆]
        rfl
      · exact ⟨⟨⟨hyear, hmonth, rfl, hday, hhour, hminute, hsecond⟩, hd⟩,
          ⟨hyear₁, hyear₂, hyearLen⟩, ⟨hmonth₁, hmonth₂⟩, fun _ => htwo, ⟨hday₁, hday₂, hdayLen⟩,
          ⟨hhour₁, hhourLen⟩, ⟨hminute₁, hminuteLen⟩, ⟨hsecond₁, hsecondLen⟩, hp⟩

theorem parseIso8601DateTime_ends :
    (parseIso8601DateTime l).Ends (fun _ => Q) True ↔
      ¬ Late .iso8601 l ∧ ∀ (c : DateCut) (rest : List UInt8),
        l = c.text .iso8601 rest → c.Passes .iso8601 → Q := by
  simp +contextual only [parseIso8601DateTime, Prog.ends_bind, Prog.ends_lift, Prog.ends_pure,
    readNaturalN_ends (n := 4) (by decide) (by decide),
    readNaturalN_ends (n := 2) (by decide) (by decide),
    readNaturalN_ends (n := 1) (by decide) (by decide), get_ends, isValidYear_ends,
    isValidMonth_ends (Nat.mod_lt _ (by decide : 0 < 256)), isValidDay_ends, isValidHr_ends,
    isValidMin_ends, isValidSec_ends, addYears_ends, secondsUpUntilMonth_eq, Outcome.ends_ok,
    Prog.ends_ite, Prog.ends_raise, parseSign_ends, le_refl, true_implies, gt_iff_lt, lt_irrefl,
    not_false_eq_true, false_implies, true_and]
  constructor
  · intro h
    constructor
    · intro hcase
      obtain ⟨c, rest, hlate, hyear, _, hl, hlen⟩ := hcase
      have hle := (h c.year rest hl hlen ((by decide : 1970 ≤ 2039).trans hlate) hyear).1
      exact absurd hle (by simp only [DateCut.yearRead] at hlate; omega)
    · intro c rest hl hp
      obtain ⟨⟨hyear, hmonth, hday, hhour, hminute, hsecond⟩, hoffset⟩ := hp.delimited
      have hread := (h c.year _ hl hyear hp.year.1 hp.year.2.1).2 c.month _ rfl hmonth hp.month.1
        hp.month.2 (fun _ => trivial) c.day _ rfl hday hp.day.1 hp.day.2.1 c.afterDay _ rfl c.hour _
        rfl hhour hp.hour.1 c.minute _ rfl hminute hp.minute.1 c.second _ rfl hsecond hp.second.1
      cases hutc : c.offset with
      | utc =>
        rw [hutc] at hread
        exact (hread Byte.upperZ rest rfl).2 (by simp)
      | other sign hour minute =>
        rw [hutc] at hread hoffset
        obtain ⟨hsigns, hminute, hhour⟩ := hoffset
        have hv : ∃ v : Int, (sign = Byte.plus ∧ v = 1) ∨ (sign = Byte.minus ∧ v = -1) := by
          obtain hplus | hminus := hsigns
          · exact ⟨1, Or.inl ⟨hplus, rfl⟩⟩
          · exact ⟨-1, Or.inr ⟨hminus, rfl⟩⟩
        obtain ⟨v, hv⟩ := hv
        exact (hread sign _ rfl).1 (sign_ne hsigns) v hv hour _ rfl hhour minute rest rfl hminute
  · intro hcase year rest hl hyear hyear₁ hyear₂
    obtain ⟨hlate, h⟩ := hcase
    constructor
    · by_contra hgt
      exact hlate ⟨⟨year, [], [], 0, [], [], [], .utc⟩, rest, by simp only [DateCut.yearRead]; omega,
        hyear₂, hyear.le, hl, hyear⟩
    · intro month rest₁ hl₁ hmonth hmonth₁ hmonth₂ _ day rest₂ hl₂ hday hday₁ hday₂ afterDay rest₃
        hl₃ hour rest₄ hl₄ hhour hhour₁ minute rest₅ hl₅ hminute hminute₁ second rest₆ hl₆ hsecond
        hsecond₁
      -- whatever the offset is
      have hcut : ∀ (o : OffsetCut) rest, rest₆ = o.text .iso8601 rest → o.Delimited .iso8601 →
          o.Passes → Q := by
        intro o rest₇ hl₇ hd hp
        subst hl hl₁ hl₂ hl₃ hl₄ hl₅ hl₆ hl₇
        exact h ⟨year, month, day, afterDay, hour, minute, second, o⟩ rest₇ rfl
          ⟨⟨⟨hyear, hmonth, hday, hhour, hminute, hsecond⟩, hd⟩, ⟨hyear₁, hyear₂, hyear.le⟩,
            ⟨hmonth₁, hmonth₂⟩, fun _ => hmonth.le, ⟨hday₁, hday₂, hday.le⟩, ⟨hhour₁, hhour.le⟩,
            ⟨hminute₁, hminute.le⟩, ⟨hsecond₁, hsecond.le⟩, hp⟩
      intro c rest₇ hl₇
      constructor
      · intro hc v hv hour' rest₈ hl₈ hhour' minute' rest₉ hl₉ hminute'
        subst hl₇ hl₈ hl₉
        exact hcut (.other c hour' minute') rest₉ rfl ⟨hv.imp And.left And.left, hminute', hhour'⟩
          hhour'.le
      · intro hc
        obtain rfl : c = Byte.upperZ := not_not.mp hc
        exact hcut .utc rest₇ hl₇ trivial trivial

/-- The name of a month is short. -/
theorem monthRead_readable {c : DateCut} (h : 1 ≤ c.monthRead .readable) :
    c.month = monthName.getD (c.monthRead .readable) [] ∧ c.month.length ≤ 4 := by
  obtain hzero | ⟨m, hm₁, hm, hnum, hname⟩ := monthNum_inv (c.month ++ [Byte.space])
  · exact absurd h (by simp [DateCut.monthRead, hzero])
  · have hmonth : c.month = monthName.getD m [] := List.append_cancel_right hname
    refine ⟨by rw [DateCut.monthRead, hnum, hmonth], ?_⟩
    rw [hmonth]
    interval_cases m <;> decide

theorem parseReadableDateTime_ends :
    (parseReadableDateTime l).Ends (fun _ => Q) True ↔
      ¬ Late .readable l ∧ ∀ (c : DateCut) (rest : List UInt8),
        l = c.text .readable rest → c.Passes .readable → Q := by
  have hcolon : isDigit Byte.colon = false := by decide
  have hspace : isDigit Byte.space = false := by decide
  have hcomma : isDigit Byte.comma = false := by decide
  have hseen : ∀ (c : DateCut) rest, 1 ≤ c.monthRead .readable →
      seen true c.month rest ≤ arbitrarySpatialUntilLimit := by
    intro c rest hc
    have hle := seen_le true c.month rest
    have hlen := (monthRead_readable hc).2
    exact hle.trans (by simp only [arbitrarySpatialUntilLimit]; omega)
  simp +contextual only [parseReadableDateTime, Prog.ends_bind, Prog.ends_lift, Prog.ends_pure,
    readStringUntil_ends, readNatural_ends, isValidYear_ends, isValidMonth_ends (monthNum_lt _),
    isValidDay_ends, isValidHr_ends, isValidMin_ends, isValidSec_ends, addYears_ends,
    secondsUpUntilMonth_eq, Outcome.ends_ok, expect_ends,
    parseReadableOffset_ends .readable (by simp), List.mem_singleton, ne_eq, not_true, false_implies,
    true_implies]
  constructor
  · intro h
    constructor
    · intro hcase
      obtain ⟨c, rest, hlate, hyear, hlen, hl, hmonth, hday, hdigits, hm₁, hm₂, hd₁, hd₂, hdlen⟩ := hcase
      have hle := (h c.month Byte.space _ hl hmonth rfl (hseen c _ hm₁) hm₁ hm₂ c.day Byte.space _ rfl
        hday hspace (hdlen.trans (by decide)) hd₁ hd₂ hdlen _ rfl c.year Byte.comma _ rfl hdigits
        hcomma (hlen.trans (by decide)) ((by decide : 1970 ≤ 2039).trans hlate) hyear hlen _ rfl rest
        rfl).1
      exact absurd hle (by simp only [DateCut.yearRead] at hlate; omega)
    · intro c rest hl hp
      obtain ⟨⟨hmonth, hafter, hday, hyear, hhour, hminute, hsecond⟩, hoffset⟩ := hp.delimited
      rw [DateCut.text, hafter] at hl
      exact (h c.month Byte.space _ hl hmonth rfl (hseen c _ hp.month.1) hp.month.1 hp.month.2 c.day
        Byte.space _ rfl hday hspace (hp.day.2.2.trans (by decide)) hp.day.1 hp.day.2.1 hp.day.2.2 _
        rfl c.year Byte.comma _ rfl hyear hcomma (hp.year.2.2.trans (by decide)) hp.year.1
        hp.year.2.1 hp.year.2.2 _ rfl _ rfl).2 c.hour Byte.colon _ rfl hhour hcolon
        (hp.hour.2.trans (by decide)) hp.hour.1 hp.hour.2 _ rfl c.minute Byte.colon _ rfl hminute
        hcolon (hp.minute.2.trans (by decide)) hp.minute.1 hp.minute.2 _ rfl c.second Byte.space _ rfl
        hsecond hspace (hp.second.2.trans (by decide)) hp.second.1 hp.second.2 _ rfl c.offset rest rfl
        hoffset hp.offset
  · intro hcase month u rest hl hmonth hu _ hmonth₁ hmonth₂ day c₁ rest₁ hl₁ hday _ _ hday₁ hday₂
      hdayLen rest₁' hc₁ year c₂ rest₂ hl₂ hyear _ _ hyear₁ hyear₂ hyearLen rest₂' hc₂ rest₃ hc₃
    obtain ⟨hlate, h⟩ := hcase
    obtain ⟨rfl, rfl⟩ := List.cons.inj hc₁
    obtain ⟨rfl, rfl⟩ := List.cons.inj hc₂
    subst hl hu hl₁ hl₂ hc₃
    constructor
    · by_contra hgt
      exact hlate ⟨⟨year, month, day, 0, [], [], [], .utc⟩, rest₃, by
        simp only [DateCut.yearRead]; omega, hyear₂, hyearLen, rfl, hmonth, hday, hyear, hmonth₁,
        hmonth₂, hday₁, hday₂, hdayLen⟩
    · intro hour c₄ rest₄ hl₄ hhour _ _ hhour₁ hhourLen rest₄' hc₄ minute c₅ rest₅ hl₅ hminute _ _
        hminute₁ hminuteLen rest₅' hc₅ second c₆ rest₆ hl₆ hsecond _ _ hsecond₁ hsecondLen rest₆' hc₆
        o rest₇ hl₇ hd hp
      obtain ⟨rfl, rfl⟩ := List.cons.inj hc₄
      obtain ⟨rfl, rfl⟩ := List.cons.inj hc₅
      obtain ⟨rfl, rfl⟩ := List.cons.inj hc₆
      subst hl₄ hl₅ hl₆ hl₇
      exact h ⟨year, month, day, Byte.space, hour, minute, second, o⟩ rest₇ rfl
        ⟨⟨⟨hmonth, rfl, hday, hyear, hhour, hminute, hsecond⟩, hd⟩, ⟨hyear₁, hyear₂, hyearLen⟩,
          ⟨hmonth₁, hmonth₂⟩, fun hne => absurd rfl hne, ⟨hday₁, hday₂, hdayLen⟩,
          ⟨hhour₁, hhourLen⟩, ⟨hminute₁, hminuteLen⟩, ⟨hsecond₁, hsecondLen⟩, hp⟩

theorem parseDateTime_ends (format : DatetimeFormat) :
    (parseDateTime format l).Ends (fun _ => Q) True ↔
      ¬ Late format l ∧ ∀ (c : DateCut) (rest : List UInt8), l = c.text format rest →
        c.Passes format → Q := by
  cases format with
  | readable => exact parseReadableDateTime_ends
  | iso8601 => exact parseIso8601DateTime_ends
  | iso8601Readable => exact parseIso8601ReadableDateTime_ends

end

/-! A text is cut in one way only. -/

theorem OffsetCut.text_inj {format : DatetimeFormat} {o o' : OffsetCut} {rest rest' : List UInt8}
    (h : o.Delimited format) (h' : o'.Delimited format)
    (htext : o.text format rest = o'.text format rest') : o = o' := by
  cases o with
  | utc =>
    cases o' with
    | utc => rfl
    | other sign' hour' minute' => exact absurd (List.cons.inj htext).1.symm (sign_ne h'.1)
  | other sign hour minute =>
    cases o' with
    | utc => exact absurd (List.cons.inj htext).1 (sign_ne h.1)
    | other sign' hour' minute' =>
      obtain ⟨-, hminute, hhour⟩ := h
      obtain ⟨-, hminute', hhour'⟩ := h'
      obtain ⟨rfl, htail⟩ := List.cons.inj htext
      have hboth : hour = hour' ∧ minute ++ rest = minute' ++ rest' := by
        cases format with
        | iso8601 =>
          have hlen : hour.length = hour'.length := (show hour.length = 1 from hhour).trans hhour'.symm
          exact List.append_inj htail hlen
        | readable => exact delimited_inj hhour hhour' (by decide) (by decide) htail
        | iso8601Readable => exact delimited_inj hhour hhour' (by decide) (by decide) htail
      obtain ⟨rfl, hrest⟩ := hboth
      obtain ⟨rfl, -⟩ := List.append_inj hrest (hminute.trans hminute'.symm)
      rfl

theorem DateCut.text_inj {format : DatetimeFormat} {c c' : DateCut} {rest rest' : List UInt8}
    (h : c.Delimited format) (h' : c'.Delimited format)
    (htext : c.text format rest = c'.text format rest') : c = c' := by
  obtain ⟨year, month, day, afterDay, hour, minute, second, offset⟩ := c
  obtain ⟨year', month', day', afterDay', hour', minute', second', offset'⟩ := c'
  obtain ⟨hpieces, hoffset⟩ := h
  obtain ⟨hpieces', hoffset'⟩ := h'
  cases format with
  | readable =>
    obtain ⟨hmonth, hafter, hday, hyear, hhour, hminute, hsecond⟩ := hpieces
    obtain ⟨hmonth', hafter', hday', hyear', hhour', hminute', hsecond'⟩ := hpieces'
    obtain rfl : afterDay = Byte.space := hafter
    obtain rfl : afterDay' = Byte.space := hafter'
    obtain ⟨rfl, htail⟩ := delimited_inj hmonth hmonth' (by simp) (by simp) htext
    obtain ⟨rfl, htail⟩ := delimited_inj hday hday'
      (show ¬ isDigit Byte.space = true by decide) (show ¬ isDigit Byte.space = true by decide) htail
    obtain ⟨rfl, htail⟩ := delimited_inj hyear hyear' (by decide) (by decide) htail
    obtain ⟨rfl, htail⟩ := delimited_inj hhour hhour' (by decide) (by decide)
      (List.cons.inj htail).2
    obtain ⟨rfl, htail⟩ := delimited_inj hminute hminute' (by decide) (by decide) htail
    obtain ⟨rfl, htail⟩ := delimited_inj hsecond hsecond' (by decide) (by decide) htail
    obtain rfl := OffsetCut.text_inj hoffset hoffset' htail
    rfl
  | iso8601Readable =>
    obtain ⟨hyear, hmonth, hafter, hday, hhour, hminute, hsecond⟩ := hpieces
    obtain ⟨hyear', hmonth', hafter', hday', hhour', hminute', hsecond'⟩ := hpieces'
    obtain rfl : afterDay = Byte.upperT := hafter
    obtain rfl : afterDay' = Byte.upperT := hafter'
    obtain ⟨rfl, htail⟩ := delimited_inj hyear hyear' (by simp) (by simp) htext
    obtain ⟨rfl, htail⟩ := delimited_inj hmonth hmonth' (by simp) (by simp) htail
    obtain ⟨rfl, htail⟩ := delimited_inj hday hday' (by simp) (by simp) htail
    obtain ⟨rfl, htail⟩ := delimited_inj hhour hhour' (by simp) (by simp) htail
    obtain ⟨rfl, htail⟩ := delimited_inj hminute hminute' (by simp) (by simp) htail
    obtain ⟨u, r, hr, hu⟩ := hoffset.text_readable rest
    obtain ⟨u', r', hr', hu'⟩ := hoffset'.text_readable rest'
    have hseconds : second ++ u :: r = second' ++ u' :: r' := by
      rw [← hr, ← hr']
      exact htail
    obtain ⟨rfl, -⟩ := delimited_inj hsecond hsecond' (fun hnot => hnot hu)
      (fun hnot => hnot hu') hseconds
    obtain rfl := OffsetCut.text_inj hoffset hoffset' (List.append_cancel_left htail)
    rfl
  | iso8601 =>
    obtain ⟨hyear, hmonth, hday, hhour, hminute, hsecond⟩ := hpieces
    obtain ⟨hyear', hmonth', hday', hhour', hminute', hsecond'⟩ := hpieces'
    obtain ⟨rfl, htail⟩ := List.append_inj htext (hyear.trans hyear'.symm)
    obtain ⟨rfl, htail⟩ := List.append_inj htail (hmonth.trans hmonth'.symm)
    obtain ⟨rfl, htail⟩ := List.append_inj htail (hday.trans hday'.symm)
    obtain ⟨rfl, htail⟩ := List.cons.inj htail
    obtain ⟨rfl, htail⟩ := List.append_inj htail (hhour.trans hhour'.symm)
    obtain ⟨rfl, htail⟩ := List.append_inj htail (hminute.trans hminute'.symm)
    obtain ⟨rfl, htail⟩ := List.append_inj htail (hsecond.trans hsecond'.symm)
    obtain rfl := OffsetCut.text_inj hoffset hoffset' htail
    rfl

/-! The cuts of well-formed texts. -/

theorem Numeral.ne {ds : List UInt8} {n : Nat} {c : UInt8} (h : Numeral ds n)
    (hc : isDigit c = false) : ∀ d ∈ ds, d ≠ c := by
  rintro d hd rfl
  have hdigit := h.2.1 d hd
  rw [hc] at hdigit
  cases hdigit

theorem Numeral.wrappedValue {ds : List UInt8} {n : Nat} (h : Numeral ds n)
    (hlen : ds.length ≤ numberMaxDigits) : wrappedValue ds 0 = n :=
  (wrappedValue_digits h.2.1 hlen).trans h.2.2

theorem OffsetCut.Renders.delimited {format : DatetimeFormat} {c : OffsetCut} {o : Option UtcOffset}
    (h : c.Renders format o) : c.Delimited format := by
  cases c with
  | utc => trivial
  | other sign hour minute =>
    cases o with
    | none => exact h.elim
    | some o =>
      obtain ⟨rfl, hhour, hminute, hlen, hone⟩ := h
      refine ⟨?_, hlen, ?_⟩
      · unfold UtcOffset.signChar
        split <;> simp
      · cases format with
        | iso8601 => exact hone rfl
        | readable => exact hhour.2.1
        | iso8601Readable => exact hhour.2.1

theorem DateCut.Renders.delimited {format : DatetimeFormat} {c : DateCut} {dt : DateTime}
    {o : Option UtcOffset} (h : c.Renders format dt o) : c.Delimited format := by
  refine ⟨?_, h.offset.delimited⟩
  cases format with
  | readable =>
    refine ⟨?_, h.afterDay, h.day.2.1, h.year.2.1, h.hour.2.1, h.minute.2.1, h.second.2.1⟩
    have hmonth : c.month = monthName.getD dt.month [] := h.month
    rw [hmonth]
    exact monthName_ne_space dt.month_le
  | iso8601Readable =>
    have hmonth : Numeral c.month dt.month := h.month
    refine ⟨h.year.ne (by decide), hmonth.ne (by decide), h.afterDay, h.day.ne (by decide),
      h.hour.ne (by decide), h.minute.ne (by decide), ?_⟩
    intro a ha
    have hne := fun c hc => h.second.ne (c := c) hc a ha
    simp [hne Byte.upperZ (by decide), hne Byte.plus (by decide), hne Byte.minus (by decide)]
  | iso8601 => exact h.widths rfl

theorem OffsetCut.Renders.proper {format : DatetimeFormat} {c : OffsetCut} {o : Option UtcOffset}
    (h : c.Renders format o) : c.Proper := by
  cases c with
  | utc => trivial
  | other sign hour minute =>
    cases o with
    | none => exact h.elim
    | some o =>
      have hlt := o.minute_lt
      exact ⟨o.hour, o.minute, h.2.1, h.2.2.1, by omega⟩

/-- Of a well-formed text that passes, the pieces are as they should be. -/
theorem DateCut.Renders.proper {format : DatetimeFormat} {c : DateCut} {dt : DateTime}
    {o : Option UtcOffset} (h : c.Renders format dt o) (hyear : dt.year ≤ 9999)
    (hp : c.Passes format) : c.Proper format := by
  have hday := dt.day_le.trans (daysInMonth_le _ _)
  have hmonthLe := dt.month_le
  have hhour := dt.hour_lt
  have hminute := dt.minute_lt
  have hsecond := dt.second_lt
  have hread : ∀ ds n, Numeral ds n → ds.length ≤ 2 → n < 256 → wrappedValue ds 0 % 256 = n := by
    intro ds n hn hlen hlt
    rw [hn.wrappedValue (hlen.trans (by decide)), Nat.mod_eq_of_lt hlt]
  have hyearRead : c.yearRead = dt.year := by
    rw [DateCut.yearRead, h.year.wrappedValue (hp.year.2.2.trans (by decide)),
      Nat.mod_eq_of_lt (by omega)]
  have hmonthRead : c.monthRead format = dt.month := by
    cases format with
    | readable =>
      have hmonth : c.month = monthName.getD dt.month [] := h.month
      rw [DateCut.monthRead, hmonth, monthNum_monthName dt.month_pos dt.month_le]
    | iso8601 => exact hread _ _ h.month (hp.monthLength (by simp)) (by omega)
    | iso8601Readable => exact hread _ _ h.month (hp.monthLength (by simp)) (by omega)
  have hdayRead : c.dayRead = dt.day := hread _ _ h.day hp.day.2.2 (by omega)
  have hhourRead : c.hourRead = dt.hour := hread _ _ h.hour hp.hour.2 (by omega)
  have hminuteRead : c.minuteRead = dt.minute := hread _ _ h.minute hp.minute.2 (by omega)
  have hsecondRead : c.secondRead = dt.second := hread _ _ h.second hp.second.2 (by omega)
  refine ⟨hyearRead ▸ h.year, ?_, hdayRead ▸ h.day, hhourRead ▸ h.hour, hminuteRead ▸ h.minute,
    hsecondRead ▸ h.second, h.afterDay, ?_, h.offset.proper⟩
  · intro hformat
    rw [hmonthRead]
    cases format with
    | readable => exact absurd rfl hformat
    | iso8601 => exact h.month
    | iso8601Readable => exact h.month
  · rw [hyearRead, hmonthRead, hdayRead]
    exact dt.day_le

theorem OffsetCut.Proper.renders {format : DatetimeFormat} {c : OffsetCut} (h : c.Proper)
    (hd : c.Delimited format) : ∃ o, c.Renders format o := by
  cases c with
  | utc => exact ⟨none, trivial⟩
  | other sign hour minute =>
    obtain ⟨hour', minute', hhour, hminute, hle⟩ := h
    obtain ⟨hsigns, hlen, hhour'⟩ := hd
    refine ⟨some ⟨sign == Byte.minus, hour', minute', by omega⟩, ?_, hhour, hminute, hlen, ?_⟩
    · obtain rfl | rfl := hsigns <;> rfl
    · rintro rfl
      exact hhour'

theorem DateCut.Proper.renders {format : DatetimeFormat} {c : DateCut} (h : c.Proper format)
    (hp : c.Passes format) :
    ∃ dt o, c.Renders format dt o ∧ 1970 ≤ dt.year ∧ dt.year ≤ 9999 := by
  obtain ⟨hyear, hmonth, hday, hhour, hminute, hsecond, hafter, hlast, hoffset⟩ := h
  obtain ⟨o, ho⟩ := hoffset.renders hp.delimited.2
  refine ⟨⟨c.yearRead, c.monthRead format, c.dayRead, c.hourRead, c.minuteRead, c.secondRead,
    hp.month.1, hp.month.2, hp.day.1, hlast, by have := hp.hour.1; omega,
    by have := hp.minute.1; omega, by have := hp.second.1; omega⟩, o, ?_, hp.year.1, hp.year.2.1⟩
  refine ⟨hyear, ?_, hday, hafter, hhour, hminute, hsecond, ?_, ho⟩
  · cases format with
    | readable => exact (monthRead_readable hp.month.1).1
    | iso8601 => exact hmonth (by simp)
    | iso8601Readable => exact hmonth (by simp)
  · rintro rfl
    exact hp.delimited.1

/-! What is accepted. -/

theorem getEpochFromFormattedDateTime_ends (format : DatetimeFormat) (text : List UInt8) (Q : Prop) :
    (getEpochFromFormattedDateTime text format).Ends (fun _ => Q) True ↔
      ¬ Late format text ∧ ∀ (c : DateCut) (rest : List UInt8), text = c.text format rest →
        c.Passes format → Q := by
  rw [getEpochFromFormattedDateTime_eq, Outcome.ends_bind]
  exact parseDateTime_ends format

/-- A cut that passes is well-formed if it is proper, and is the only one of its text. -/
theorem wellFormed_iff {format : DatetimeFormat} {c : DateCut} (hp : c.Passes format)
    (rest : List UInt8) : WellFormed format (c.text format rest) ↔ c.Proper format := by
  constructor
  · intro hcase
    obtain ⟨c', rest', dt, o, htext, hrenders, _, hyear⟩ := hcase
    obtain rfl := DateCut.text_inj hp.delimited hrenders.delimited htext
    exact hrenders.proper hyear hp
  · intro h
    obtain ⟨dt, o, hrenders, hyear⟩ := h.renders hp
    exact ⟨c, rest, dt, o, rfl, hrenders, hyear⟩

theorem DateCut.Passes.proper_of_ends {format : DatetimeFormat} {c : DateCut} (hp : c.Passes format)
    (rest : List UInt8) (h : (getEpochFromFormattedDateTime (c.text format rest) format).Ends
      (fun _ => WellFormed format (c.text format rest)) True) : c.Proper format :=
  (wellFormed_iff hp rest).mp (((getEpochFromFormattedDateTime_ends _ _ _).mp h).2 c rest rfl hp)

/-- Only dates are accepted where the pieces that pass are proper, and no year is late. -/
theorem accepts_dates_iff (format : DatetimeFormat) (text : List UInt8) :
    (getEpochFromFormattedDateTime text format).Ends (fun _ => WellFormed format text) True ↔
      ¬ Late format text ∧ ∀ (c : DateCut) (rest : List UInt8), text = c.text format rest →
        c.Passes format → c.Proper format := by
  rw [getEpochFromFormattedDateTime_ends]
  apply and_congr_right
  intro _
  constructor
  · intro h c rest htext hp
    have hwell := h c rest htext hp
    rw [htext] at hwell
    exact (wellFormed_iff hp rest).mp hwell
  · intro h c rest htext hp
    rw [htext]
    exact (wellFormed_iff hp rest).mpr (h c rest htext hp)

/-- The pieces of `"2023-02-31T00:00:00Z"`. -/
def lastOfFebruary : DateCut :=
  ⟨[0x32, 0x30, 0x32, 0x33], [0x30, 0x32], [0x33, 0x31], Byte.upperT, [0x30, 0x30], [0x30, 0x30],
    [0x30, 0x30], .utc⟩

theorem lastOfFebruary_passes :
    lastOfFebruary.Passes .iso8601Readable ∧ ¬ lastOfFebruary.Proper .iso8601Readable := by
  have hyear : lastOfFebruary.yearRead = 2023 := by rfl
  have hmonth : lastOfFebruary.monthRead .iso8601Readable = 2 := by rfl
  have hday : lastOfFebruary.dayRead = 31 := by rfl
  have hhour : lastOfFebruary.hourRead = 0 := by rfl
  have hminute : lastOfFebruary.minuteRead = 0 := by rfl
  have hsecond : lastOfFebruary.secondRead = 0 := by rfl
  have hdelimited : lastOfFebruary.Delimited .iso8601Readable := by
    refine ⟨⟨?_, ?_, rfl, ?_, ?_, ?_, ?_⟩, trivial⟩ <;>
      simp [lastOfFebruary, Byte.minus, Byte.upperT, Byte.colon, Byte.upperZ, Byte.plus]
  have hp : lastOfFebruary.Passes .iso8601Readable :=
    ⟨hdelimited, by rw [hyear]; decide, by rw [hmonth]; decide, fun _ => by decide,
      by rw [hday]; decide, by rw [hhour]; decide, by rw [hminute]; decide,
      by rw [hsecond]; decide, trivial⟩
  refine ⟨hp, fun hproper => ?_⟩
  have hlast := hproper.2.2.2.2.2.2.2.1
  rw [hyear, hmonth, hday] at hlast
  exact absurd hlast (by decide)

theorem accepts_last_of_february :
    ¬ ∀ (format : DatetimeFormat) (text : List UInt8),
      (getEpochFromFormattedDateTime text format).Ends (fun _ => WellFormed format text) True := by
  intro hevery
  have hcut := lastOfFebruary_passes
  generalize lastOfFebruary = c at hcut
  exact hcut.2 (hcut.1.proper_of_ends [] (hevery _ _))

end WylesLibs.Calendar
