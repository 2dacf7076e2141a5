import WylesLibs.Format.Decimal

/-! What `numToString` writes for each width: zeros in front for one above the digits, and what is
left of the digits for one below. -/
namespace WylesLibs.Format
open Library
variable {opts : StringFormatOpts} {b k n i start : Nat}

/-! What stands in front of the digits. -/

/-- The sign that a mask asks for. -/
def signText (mask : UInt8) (negative : Bool) : List UInt8 :=
  if negative then if mask.toNat.testBit 0 then [Byte.minus] else []
  else if mask.toNat.testBit 1 then [Byte.plus] else []

def baseText (base : Nat) : List UInt8 := if base = 16 then [0x30, 0x78] else []

theorem mask_pos_iff (mask : UInt8) (bit : Nat) (hbit : bit < 8) :
    mask &&& UInt8.ofNat (2 ^ bit) > 0 ↔ mask.toNat.testBit bit = true := by
  have hpow : 2 ^ bit < 256 := Nat.pow_lt_pow_right (by decide) hbit
  rw [gt_iff_lt, UInt8.lt_iff_toNat_lt, UInt8.toNat_and, UInt8.toNat_ofNat',
    Nat.mod_eq_of_lt hpow, Nat.and_two_pow]
  cases mask.toNat.testBit bit <;> simp

theorem numPrefix_eq (opts : StringFormatOpts) :
    numPrefix opts = signText opts.signMask opts.isNegative ++ baseText opts.base := by
  have hminus := mask_pos_iff opts.signMask 0 (by decide)
  have hplus := mask_pos_iff opts.signMask 1 (by decide)
  simp only [numPrefix, signText, baseText, ← hminus, ← hplus]
  rfl

/-! The first loop. -/

/-- No turn of the first loop multiplies past 64 bits. -/
def DivisorFits (num base : Nat) : Nat → Nat → Prop
  | 0, _ => True
  | steps + 1, divisor =>
    num / divisor ≥ base →
      divisor * base < uint64Mod ∧ DivisorFits num base steps (divisor * base % uint64Mod)

theorem divisorFits (hb : 2 ≤ b) (hn : n < uint64Mod) (steps j : Nat) :
    DivisorFits n b steps (b ^ j) := by
  induction steps generalizing j with
  | zero => trivial
  | succ steps ih =>
    intro hge
    have hle : b ^ j * b ≤ n := by
      rw [ge_iff_le, Nat.le_div_iff_mul_le (Nat.pow_pos (by omega))] at hge
      rwa [Nat.mul_comm]
    have hlt : b ^ j * b < uint64Mod := Nat.lt_of_le_of_lt hle hn
    rw [Nat.mod_eq_of_lt hlt, ← Nat.pow_succ]
    exact ⟨hlt, ih (j + 1)⟩

/-! The digits. -/

/-- The digit is one of neither base, which is only logged. -/
def InvalidDigit (opts : StringFormatOpts) (digit : Int) : Prop :=
  ¬ digit ≤ 9 ∧ ¬ (opts.base = 16 ∧ digit ≤ 0xF)

/-- No turn of the second loop meets an invalid digit. -/
def DigitsValid (opts : StringFormatOpts) : Nat → Nat → Nat → Prop
  | 0, _, _ => True
  | steps + 1, divisor, num =>
    divisor > 0 →
      let digit := signedChar (num / divisor)
      let diff := ((num - digit * divisor) % uint64Mod).toNat
      ¬ InvalidDigit opts digit ∧
        if diff < divisor / opts.base then
          ∀ r, zeroRun diff opts.base 65 divisor [] = .ok r →
            DigitsValid opts steps (r.1 / opts.base) diff
        else DigitsValid opts steps (divisor / opts.base) diff

theorem digitsValid (hbase : opts.base = 10 ∨ opts.base = 16) (steps : Nat) (hk : k ≤ 64)
    (hn : n < opts.base ^ k) (hn64 : n < uint64Mod) :
    DigitsValid opts steps (opts.base ^ k / opts.base) n := by
  induction steps generalizing k n with
  | zero => trivial
  | succ steps ih =>
    intro hpos
    have hb : 2 ≤ opts.base := by omega
    cases k with
    | zero =>
      rw [Nat.pow_zero, Nat.div_eq_of_lt (by omega)] at hpos
      omega
    | succ k =>
      rw [pow_succ_div hb] at hpos ⊢
      have hdigit : n / opts.base ^ k < opts.base := by
        rw [Nat.div_lt_iff_lt_mul hpos, Nat.mul_comm, ← Nat.pow_succ]
        exact hn
      have hmod : n % opts.base ^ k < opts.base ^ k := Nat.mod_lt n hpos
      have hmod64 : n % opts.base ^ k < uint64Mod := Nat.lt_of_le_of_lt (Nat.mod_le _ _) hn64
      have hle := restDigits_le hmod
      simp only [signedChar_of_lt (show n / opts.base ^ k < 128 by omega),
        sub_digit opts.base k hn64]
      constructor
      · rintro ⟨h9, h15⟩
        exact h15 ⟨by omega, by omega⟩
      · split
        · intro r hr
          rw [zeroRun_spec hb (lt_pow_restDigits hb _) (pow_restDigits_div_le hb _) hle
            (by omega)] at hr
          cases hr
          exact ih (by omega) (lt_pow_restDigits hb _) hmod64
        · exact ih (by omega) hmod hmod64

/-- How a number is written when no digit is left out. -/
structure Written (opts : StringFormatOpts) (negative : Bool) (n : Nat)
    (out : Outcome (List UInt8)) : Prop where
  text : out = .ok (signText opts.signMask negative ++ baseText opts.base ++
    (if opts.width = uint8Max then []
      else List.replicate (opts.width - (canonicalDigits opts.base n).length) 0x30) ++
    (canonicalDigits opts.base n).map (digitChar opts))
  divisor_fits : DivisorFits n opts.base 65 1
  digits_valid : ∀ divisor digitCount, findDivisor n opts.base 65 1 1 = .ok (divisor, digitCount) →
    DigitsValid opts 65 divisor n

theorem findDivisor_eq (hbase : opts.base = 10 ∨ opts.base = 16) (hn : n < uint64Mod) :
    findDivisor n opts.base 65 1 1 =
      .ok (opts.base ^ numDigits opts.base n / opts.base, numDigits opts.base n) := by
  have hb : 2 ≤ opts.base := by omega
  have hcount := numDigits_le_of_uint64 hb hn
  rw [numDigits, pow_succ_div hb]
  exact findDivisor_spec (j := 0) 65 hb hn (Nat.zero_le _) (by simp only [numDigits] at hcount; omega)

theorem written_of_text {negative : Bool} {out : Outcome (List UInt8)}
    (hbase : opts.base = 10 ∨ opts.base = 16) (hn : n < uint64Mod)
    (text : out = .ok (signText opts.signMask negative ++ baseText opts.base ++
      (if opts.width = uint8Max then []
        else List.replicate (opts.width - (canonicalDigits opts.base n).length) 0x30) ++
      (canonicalDigits opts.base n).map (digitChar opts))) : Written opts negative n out := by
  have hb : 2 ≤ opts.base := by omega
  constructor
  · exact text
  · exact divisorFits hb hn 65 0
  · intro divisor digitCount hfind
    rw [findDivisor_eq hbase hn] at hfind
    cases hfind
    exact digitsValid hbase 65 (numDigits_le_of_uint64 hb hn) (lt_pow_numDigits hb n) hn

theorem numToString_eq (opts : StringFormatOpts) (hbase : opts.base = 10 ∨ opts.base = 16)
    (hn : n < uint64Mod)
    (hwidth : opts.width = uint8Max ∨ (canonicalDigits opts.base n).length ≤ opts.width) :
    numToString n opts = .ok (signText opts.signMask opts.isNegative ++ baseText opts.base ++
      (if opts.width = uint8Max then []
        else List.replicate (opts.width - (canonicalDigits opts.base n).length) 0x30) ++
      (canonicalDigits opts.base n).map (digitChar opts)) := by
  have hb : 2 ≤ opts.base := by omega
  have hcount := numDigits_le_of_uint64 hb hn
  have hlt := lt_pow_numDigits hb n
  rw [length_canonicalDigits hb] at hwidth
  have hle : numDigits opts.base n ≤ opts.width := by
    unfold uint8Max at hwidth
    omega
  rw [numToString_spec opts hbase hn hle, numPrefix_eq, printedDigits, length_canonicalDigits hb,
    ← digits_numDigits hb]
  split
  · simp [digitsText]
  · rw [max_eq_left hle, digitsText, digits_of_le (by omega) hlt hle]
    simp [digitChar]

/-- Unless digits have to be left out: the sign that the mask asks for, the base, zeros up to the
width and the digits; of a signed number, those of its absolute value. -/
theorem numToString_untruncated (opts : StringFormatOpts) (hbase : opts.base = 10 ∨ opts.base = 16) :
    (∀ n < uint64Mod,
      opts.width = uint8Max ∨ (canonicalDigits opts.base n).length ≤ opts.width →
        Written opts opts.isNegative n (numToString n opts)) ∧
    ∀ x : Int, -2 ^ 63 ≤ x → x < 2 ^ 63 →
      opts.width = uint8Max ∨ (canonicalDigits opts.base x.natAbs).length ≤ opts.width →
        Written opts (opts.isNegative || decide (x < 0)) x.natAbs (numToStringSigned x opts) := by
  constructor
  · intro n hn hwidth
    exact written_of_text hbase hn (numToString_eq opts hbase hn hwidth)
  · intro x hmin hmax hwidth
    have hx : x.natAbs < uint64Mod := by
      unfold uint64Mod
      omega
    apply written_of_text hbase hx
    unfold numToStringSigned
    split
    · rename_i hneg
      rw [decide_eq_true hneg, Bool.or_true]
      exact numToString_eq { opts with isNegative := true } hbase hx hwidth
    · rename_i hpos
      have habs : x.natAbs = x.toNat := by omega
      rw [decide_eq_false hpos, Bool.or_false]
      rw [habs] at hx hwidth ⊢
      exact numToString_eq opts hbase hx hwidth

theorem numToString_untruncated_least :
    Written {} true (2 ^ 63) (numToStringSigned (-2 ^ 63) {}) :=
  (numToString_untruncated {} (Or.inl rfl)).2 (-2 ^ 63) (le_refl _) (by decide) (Or.inl rfl)

/-! Widths below the number of digits. -/

/-- What the second loop writes of the digits: it leaves out the first ones other than zero. -/
def kept (start : Nat) : Nat → List Nat → List Nat
  | _, [] => []
  | i, d :: ds =>
    if d = 0 then 0 :: kept start i ds
    else if i ≥ start then d :: kept start (i + 1) ds
    else kept start (i + 1) ds

theorem kept_replicate (start i j : Nat) (ds : List Nat) :
    kept start i (List.replicate j 0 ++ ds) = List.replicate j 0 ++ kept start i ds := by
  induction j with
  | zero => rfl
  | succ j ih => simp [List.replicate_succ, kept, ih]

theorem count_kept (start i : Nat) (ds : List Nat) : (kept start i ds).count 0 = ds.count 0 := by
  induction ds generalizing i with
  | nil => rfl
  | cons d ds ih =>
    rw [kept]
    split
    · rename_i hd
      simp [hd, ih]
    · rename_i hd
      split
      · simp [hd, ih]
      · simp [hd, ih]

theorem kept_of_ne_zero {ds : List Nat} (h : ∀ d ∈ ds.take (start - i), d ≠ 0) :
    kept start i ds = ds.drop (start - i) := by
  induction ds generalizing i with
  | nil => simp [kept]
  | cons d ds ih =>
    obtain hlt | hge := Nat.lt_or_ge i start
    · obtain ⟨j, hj⟩ : ∃ j, start - i = j + 1 := ⟨start - i - 1, by omega⟩
      have hj' : start - (i + 1) = j := by omega
      rw [hj, List.take_succ_cons] at h
      obtain ⟨hd, hds⟩ := List.forall_mem_cons.mp h
      rw [kept, if_neg hd, if_neg (by omega), ih (by rwa [hj']), hj', hj, List.drop_succ_cons]
    · have hz : start - i = 0 := by omega
      have hrest : ∀ i', i ≤ i' → kept start i' ds = ds := fun i' hi' => by
        have hz' : start - i' = 0 := by omega
        simpa [hz'] using @ih i' (by simp [hz'])
      rw [kept, if_pos hge, hrest i (le_refl i), hrest (i + 1) (by omega), hz]
      split <;> simp_all

/-- The zeros are all kept, so the last digits are what is kept just where no zero comes before
them. -/
theorem kept_eq_drop_iff (start : Nat) (ds : List Nat) :
    kept start 0 ds = ds.drop start ↔ ∀ d ∈ ds.take start, d ≠ 0 := by
  constructor
  · intro h d hd hz
    have hcount := count_kept start 0 ds
    rw [h] at hcount
    have hsplit := @List.count_append _ _ 0 (ds.take start) (ds.drop start)
    rw [List.take_append_drop, hcount] at hsplit
    have hpos : 0 < (ds.take start).count 0 := List.count_pos_iff.mpr (hz ▸ hd)
    omega
  · intro h
    exact kept_of_ne_zero h

theorem digitsLoop_kept (steps : Nat) (hbase : opts.base = 10 ∨ opts.base = 16) (hk : k ≤ 64)
    (hn : n < opts.base ^ k) (hn64 : n < uint64Mod) (hlead : opts.base ^ k / opts.base ≤ n)
    (hsteps : k < steps) (s : List UInt8) :
    digitsLoop opts start steps (opts.base ^ k / opts.base) n i s =
      .ok (s ++ (kept start i (digits opts.base k n)).map (digitChar opts)) := by
  have hb : 2 ≤ opts.base := by omega
  induction k using Nat.strong_induction_on generalizing steps n i s with
  | h k ih =>
    obtain ⟨steps, rfl⟩ : ∃ st, steps = st + 1 := ⟨steps - 1, by omega⟩
    cases k with
    | zero =>
      rw [digitsLoop, Nat.pow_zero, Nat.div_eq_of_lt (by omega)]
      simp [digits, kept]
    | succ k =>
      have hpos : 0 < opts.base ^ k := Nat.pow_pos (by omega)
      have hmod : n % opts.base ^ k < opts.base ^ k := Nat.mod_lt n hpos
      have hle := restDigits_le hmod
      have hmod64 : n % opts.base ^ k < uint64Mod := Nat.lt_of_le_of_lt (Nat.mod_le _ _) hn64
      rw [pow_succ_div hb] at hlead
      have hd : n / opts.base ^ k ≠ 0 := (Nat.div_pos hlead hpos).ne'
      have hrest := digits_of_le (by omega) (lt_pow_restDigits hb (n % opts.base ^ k)) hle
      rw [digitsLoop_turn opts start steps i hbase (by omega) hn hn64,
        ih _ (by omega) _ (by omega) (lt_pow_restDigits hb _) hmod64 (pow_restDigits_div_le hb _)
          (by omega), digits, hrest, kept, if_neg hd, kept_replicate]
      split
      · simp [digitChar]
      · simp [digitChar]

theorem toNat_digitChar (opts : StringFormatOpts) {d : Nat} (hd : d < 16) :
    (digitChar opts d).toNat =
      if d ≤ 9 then 0x30 + d else if opts.upper then 0x37 + d else 0x57 + d := by
  unfold digitChar
  split
  · exact Nat.mod_eq_of_lt (by omega)
  · split
    · exact Nat.mod_eq_of_lt (by omega)
    · exact Nat.mod_eq_of_lt (by omega)

theorem digitChar_inj {d e : Nat} (hd : d < 16) (he : e < 16)
    (h : digitChar opts d = digitChar opts e) : d = e := by
  have hnat := congrArg UInt8.toNat h
  rw [toNat_digitChar opts hd, toNat_digitChar opts he] at hnat
  split_ifs at hnat <;> omega

theorem map_digitChar_inj {ds es : List Nat} (hds : ∀ d ∈ ds, d < 16) (hes : ∀ e ∈ es, e < 16) :
    ds.map (digitChar opts) = es.map (digitChar opts) ↔ ds = es := by
  constructor
  · intro h
    induction ds generalizing es with
    | nil => simpa using h.symm
    | cons d ds ih =>
      cases es with
      | nil => simp at h
      | cons e es =>
        rw [List.forall_mem_cons] at hds hes
        simp only [List.map_cons, List.cons.injEq] at h
        rw [digitChar_inj hds.1 hes.1 h.1, ih hds.2 hes.2 h.2]
  · rintro rfl
    rfl

theorem kept_subset (start i : Nat) (ds : List Nat) : ∀ d ∈ kept start i ds, d ∈ ds := by
  induction ds generalizing i with
  | nil => simp [kept]
  | cons e ds ih =>
    intro d hd
    rw [kept] at hd
    split at hd
    · rename_i he
      obtain rfl | hd := List.mem_cons.mp hd
      · simp [he]
      · exact List.mem_cons_of_mem e (ih i d hd)
    · split at hd
      · obtain rfl | hd := List.mem_cons.mp hd
        · exact List.mem_cons_self
        · exact List.mem_cons_of_mem e (ih (i + 1) d hd)
      · exact List.mem_cons_of_mem e (ih (i + 1) d hd)

/-- Below the number of digits, the width is the number of last digits that are written just where
no digit before them is zero. -/
theorem numToString_truncated_iff (opts : StringFormatOpts)
    (hbase : opts.base = 10 ∨ opts.base = 16) (hn : n < uint64Mod) (hw : 1 ≤ opts.width)
    (hlt : opts.width < (canonicalDigits opts.base n).length) :
    numToString n opts = .ok (signText opts.signMask opts.isNegative ++ baseText opts.base ++
        ((canonicalDigits opts.base n).drop
          ((canonicalDigits opts.base n).length - opts.width)).map (digitChar opts)) ↔
      ∀ d ∈ (canonicalDigits opts.base n).take ((canonicalDigits opts.base n).length - opts.width),
        d ≠ 0 := by
  have hb : 2 ≤ opts.base := by omega
  have hcount := numDigits_le_of_uint64 hb hn
  have hds : ∀ d ∈ canonicalDigits opts.base n, d < 16 := fun d hd =>
    Nat.lt_of_lt_of_le (canonicalDigits_lt hb n d hd) (by omega)
  have hlength := length_canonicalDigits hb n
  rw [hlength] at hlt ⊢
  have hne : n ≠ 0 := by
    rintro rfl
    simp only [numDigits, Nat.log_zero_right] at hlt
    omega
  have hlead : opts.base ^ numDigits opts.base n / opts.base ≤ n := by
    rw [numDigits, pow_succ_div hb]
    exact Nat.pow_log_le_self _ hne
  have hloop := @digitsLoop_kept opts _ _ 0 (numDigits opts.base n - opts.width) 65 hbase hcount
    (lt_pow_numDigits hb n) hn hlead (by omega) (numPrefix opts)
  rw [numToString, if_neg (by omega), findDivisor_eq hbase hn]
  simp only [Outcome.bind_ok]
  rw [if_neg (by omega), hloop, numPrefix_eq, digits_numDigits hb, Outcome.ok.injEq,
    List.append_cancel_left_eq, map_digitChar_inj ?_ ?_, kept_eq_drop_iff]
  · exact fun d hd => hds d (kept_subset _ _ _ d hd)
  · exact fun d hd => hds d (List.mem_of_mem_drop hd)

theorem canonicalDigits_1234567 : canonicalDigits 10 1234567 = [1, 2, 3, 4, 5, 6, 7] := by
  simp [canonicalDigits]

theorem numToString_truncated_1234567 :
    numToString 1234567 { width := 4 } = .ok (bytes ['4', '5', '6', '7']) := by
  have hiff := numToString_truncated_iff (n := 1234567) { width := 4 } (Or.inl rfl) (by decide)
    (by decide) (by simp [canonicalDigits_1234567])
  simp only [canonicalDigits_1234567] at hiff
  exact hiff.mpr (by simp)

/-- The zero is written before the width asks for a digit, and the four is not. -/
theorem numToString_not_truncated :
    ¬ ∀ (opts : StringFormatOpts) (n : Nat), opts.base = 10 ∨ opts.base = 16 → n < uint64Mod →
      1 ≤ opts.width → opts.width < (canonicalDigits opts.base n).length →
        numToString n opts = .ok (signText opts.signMask opts.isNegative ++ baseText opts.base ++
          ((canonicalDigits opts.base n).drop
            ((canonicalDigits opts.base n).length - opts.width)).map (digitChar opts)) := by
  intro h
  have hcanonical : canonicalDigits 10 1034567 = [1, 0, 3, 4, 5, 6, 7] := by
    simp [canonicalDigits]
  have hlast := h { width := 4 } 1034567 (Or.inl rfl) (by decide) (by decide)
    (by simp [hcanonical])
  have hwritten : numToString 1034567 { width := 4 } = .ok (bytes ['0', '5', '6', '7']) := by rfl
  simp only [hcanonical, hwritten] at hlast
  cases hlast

end WylesLibs.Format
