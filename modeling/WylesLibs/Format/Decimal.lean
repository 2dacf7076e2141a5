import WylesLibs.Format.NumToString
import WylesLibs.Library.Digits
import WylesLibs.EStream.ByteReads

/-! What `numToString` writes when no digit has to be left out. -/
namespace WylesLibs.Format
open Library WylesLibs.Stream
variable {opts : StringFormatOpts} {b k m n j i steps : Nat}

/-- The character of a digit. -/
def digitChar (opts : StringFormatOpts) (d : Nat) : UInt8 :=
  if d ≤ 9 then UInt8.ofNat (0x30 + d)
  else if opts.upper then UInt8.ofNat (0x37 + d)
  else UInt8.ofNat (0x57 + d)

def digitsText (opts : StringFormatOpts) (k n : Nat) : List UInt8 :=
  (digits opts.base k n).map (digitChar opts)

theorem signedChar_of_lt (hn : n < 128) : signedChar n = n := by
  rw [signedChar, Nat.mod_eq_of_lt (by omega), if_pos hn]

theorem placeDigit_eq (hbase : opts.base = 10 ∨ opts.base = 16) {d : Nat} (hd : d < opts.base)
    (s : List UInt8) : placeDigit opts d s = s ++ [digitChar opts d] := by
  simp only [placeDigit, digitChar, pushedChar]
  by_cases hle : d ≤ 9
  · rw [if_pos (by exact_mod_cast hle), if_pos hle]
    congr 3
    omega
  · have hbase16 : opts.base = 16 := by omega
    rw [if_neg (by exact_mod_cast hle), if_neg hle, if_pos ⟨hbase16, by omega⟩]
    split
    · congr 3
      omega
    · congr 3
      omega

theorem findDivisor_spec (steps : Nat) (hb : 2 ≤ b) (hn : n < uint64Mod) (hj : j ≤ Nat.log b n)
    (hsteps : Nat.log b n - j < steps) :
    findDivisor n b steps (b ^ j) (j + 1) = .ok (b ^ Nat.log b n, numDigits b n) := by
  induction steps generalizing j with
  | zero => omega
  | succ steps ih =>
    have hpos : 0 < b ^ j := Nat.pow_pos (by omega)
    rw [findDivisor, if_neg (by omega)]
    by_cases hlt : j < Nat.log b n
    · have hne : n ≠ 0 := by
        rintro rfl
        simp at hlt
      have hle : b ^ (j + 1) ≤ n := (Nat.pow_le_pow_right (by omega) hlt).trans (Nat.pow_log_le_self b hne)
      have hge : n / b ^ j ≥ b := by
        rw [ge_iff_le, Nat.le_div_iff_mul_le hpos, Nat.mul_comm, ← Nat.pow_succ]
        exact hle
      have hbits : j + 1 < 64 := by
        have hpow : 2 ^ (j + 1) < 2 ^ 64 :=
          Nat.lt_of_le_of_lt ((Nat.pow_le_pow_left hb _).trans hle) hn
        exact (Nat.pow_lt_pow_iff_right (by omega)).mp hpow
      have hwrap : b ^ (j + 1) % uint64Mod = b ^ (j + 1) :=
        Nat.mod_eq_of_lt (Nat.lt_of_le_of_lt hle hn)
      rw [if_pos hge, ← Nat.pow_succ, hwrap, Nat.mod_eq_of_lt (by omega)]
      exact ih (by omega) (by omega)
    · obtain rfl : j = Nat.log b n := by omega
      have hlt : n / b ^ Nat.log b n < b := by
        rw [Nat.div_lt_iff_lt_mul hpos, Nat.mul_comm, ← Nat.pow_succ]
        exact Nat.lt_pow_succ_log_self (by omega) n
      rw [if_neg (by omega)]
      rfl

/-- `b ^ k / b` is the divisor of the first of `k` digits, and zero if there is none. -/
theorem pow_succ_div (hb : 2 ≤ b) (k : Nat) : b ^ (k + 1) / b = b ^ k := by
  rw [Nat.pow_succ, Nat.mul_div_cancel _ (by omega)]

theorem zeroRun_spec (hb : 2 ≤ b) (hn : n < b ^ m) (hlast : b ^ m / b ≤ n) (hm : m ≤ k)
    (hsteps : k - m < steps) (s : List UInt8) :
    zeroRun n b steps (b ^ k) s = .ok (b ^ m, s ++ List.replicate (k - m) 0x30) := by
  induction steps generalizing k s with
  | zero => omega
  | succ steps ih =>
    rw [zeroRun]
    by_cases hlt : m < k
    · obtain ⟨k, rfl⟩ : ∃ k', k = k' + 1 := ⟨k - 1, by omega⟩
      have hgt : b ^ k > n := Nat.lt_of_lt_of_le hn (Nat.pow_le_pow_right (by omega) (by omega))
      rw [pow_succ_div hb, if_pos hgt, ih (by omega) (by omega),
        show k + 1 - m = k - m + 1 by omega, List.replicate_succ, List.append_assoc]
      rfl
    · obtain rfl : m = k := by omega
      rw [if_neg (by omega)]
      simp

/-- How many digits are left of a remainder, none of a zero. -/
def restDigits (b n : Nat) : Nat := if n = 0 then 0 else numDigits b n

theorem lt_pow_restDigits (hb : 2 ≤ b) (n : Nat) : n < b ^ restDigits b n := by
  unfold restDigits
  split
  · simp_all
  · exact lt_pow_numDigits (by omega) n

theorem pow_restDigits_div_le (hb : 2 ≤ b) (n : Nat) : b ^ restDigits b n / b ≤ n := by
  unfold restDigits
  split
  · rw [Nat.pow_zero, Nat.div_eq_of_lt (by omega)]
    exact Nat.zero_le n
  · rename_i hne
    rw [numDigits, pow_succ_div hb]
    exact Nat.pow_log_le_self b hne

theorem restDigits_le (hn : n < b ^ k) : restDigits b n ≤ k := by
  unfold restDigits
  split
  · exact Nat.zero_le k
  · rename_i hne
    exact Nat.log_lt_of_lt_pow hne hn

/-- A remainder that reaches the next divisor has a digit for it. -/
theorem restDigits_of_le (hb : 2 ≤ b) (hn : n < b ^ k) (hle : b ^ k / b ≤ n) : restDigits b n = k := by
  apply Nat.le_antisymm (restDigits_le hn)
  by_contra hlt
  have hlast := lt_pow_restDigits hb n
  have hpow : b ^ restDigits b n ≤ b ^ (k - 1) := Nat.pow_le_pow_right (by omega) (by omega)
  have hdiv := pow_succ_div hb (k - 1)
  rw [Nat.sub_add_cancel (by omega)] at hdiv
  omega

/-- What is left of a number without its first digit. -/
theorem sub_digit (b k : Nat) (hn64 : n < uint64Mod) :
    ((n - (n / b ^ k : Nat) * (b ^ k : Nat) : Int) % (uint64Mod : Nat)).toNat = n % b ^ k := by
  have hdm := Nat.div_add_mod n (b ^ k)
  rw [Nat.mul_comm] at hdm
  have hsub : (n - (n / b ^ k : Nat) * (b ^ k : Nat) : Int) = (n % b ^ k : Nat) := by
    rw [← Nat.cast_mul, sub_eq_iff_eq_add, ← Nat.cast_add, Nat.add_comm, hdm]
  have hmod64 : n % b ^ k < uint64Mod := Nat.lt_of_le_of_lt (Nat.mod_le _ _) hn64
  rw [hsub, ← Int.natCast_mod, Int.toNat_natCast, Nat.mod_eq_of_lt hmod64]

/-- One turn of the loop: it places its own digit, unless it comes before the start index, and the
zeros up to the first digit of the remainder. -/
theorem digitsLoop_turn (opts : StringFormatOpts) (start steps i : Nat)
    (hbase : opts.base = 10 ∨ opts.base = 16) (hk : k < 64)
    (hn : n < opts.base ^ (k + 1)) (hn64 : n < uint64Mod) (s : List UInt8) :
    digitsLoop opts start (steps + 1) (opts.base ^ (k + 1) / opts.base) n i s =
      digitsLoop opts start steps
        (opts.base ^ restDigits opts.base (n % opts.base ^ k) / opts.base) (n % opts.base ^ k) (i + 1)
        ((if i ≥ start then s ++ [digitChar opts (n / opts.base ^ k)] else s) ++
          List.replicate (k - restDigits opts.base (n % opts.base ^ k)) 0x30) := by
  have hb : 2 ≤ opts.base := by omega
  have hpos : 0 < opts.base ^ k := Nat.pow_pos (by omega)
  have hdigit : n / opts.base ^ k < opts.base := by
    rw [Nat.div_lt_iff_lt_mul hpos, Nat.mul_comm, ← Nat.pow_succ]
    exact hn
  have hmod : n % opts.base ^ k < opts.base ^ k := Nat.mod_lt n hpos
  have hchar : signedChar (n / opts.base ^ k) = (n / opts.base ^ k : Nat) :=
    signedChar_of_lt (by omega)
  have hle := restDigits_le hmod
  rw [pow_succ_div hb, digitsLoop, if_pos hpos]
  simp only [hchar, placeDigit_eq hbase hdigit, sub_digit opts.base k hn64]
  generalize (if i ≥ start then s ++ [digitChar opts (n / opts.base ^ k)] else s) = s
  split
  · -- zeros up to the first digit of the remainder
    rw [zeroRun_spec hb (lt_pow_restDigits hb _) (pow_restDigits_div_le hb _) hle (by omega)]
    rfl
  · rename_i hge
    rw [restDigits_of_le hb hmod (by omega), Nat.sub_self, List.replicate_zero, List.append_nil]

theorem digitsText_succ (opts : StringFormatOpts) (k n : Nat) : digitsText opts (k + 1) n =
    digitChar opts (n / opts.base ^ k) :: digitsText opts k (n % opts.base ^ k) := rfl

theorem digitsText_restDigits (hb : 2 ≤ opts.base) (hn : n < opts.base ^ k) :
    digitsText opts k n = List.replicate (k - restDigits opts.base n) 0x30 ++
      digitsText opts (restDigits opts.base n) n := by
  have hzeros := digits_of_le (by omega) (lt_pow_restDigits hb n) (restDigits_le hn)
  simp [digitsText, hzeros, digitChar]

theorem digitsLoop_spec (steps : Nat) {start : Nat} (hbase : opts.base = 10 ∨ opts.base = 16) (hk : k ≤ 64)
    (hn : n < opts.base ^ k) (hn64 : n < uint64Mod) (hsteps : k < steps) (hstart : start ≤ i)
    (s : List UInt8) :
    digitsLoop opts start steps (opts.base ^ k / opts.base) n i s =
      .ok (s ++ digitsText opts k n) := by
  induction k using Nat.strong_induction_on generalizing steps n i s with
  | h k ih =>
    obtain ⟨steps, rfl⟩ : ∃ st, steps = st + 1 := ⟨steps - 1, by omega⟩
    cases k with
    | zero =>
      rw [digitsLoop, Nat.pow_zero, Nat.div_eq_of_lt (by omega)]
      simp [digitsText, digits]
    | succ k =>
      have hb : 2 ≤ opts.base := by omega
      have hmod : n % opts.base ^ k < opts.base ^ k := Nat.mod_lt n (Nat.pow_pos (by omega))
      have hle := restDigits_le hmod
      have hmod64 : n % opts.base ^ k < uint64Mod := Nat.lt_of_le_of_lt (Nat.mod_le _ _) hn64
      rw [digitsLoop_turn opts start steps i hbase (by omega) hn hn64, if_pos hstart,
        ih _ (by omega) _ (by omega) (lt_pow_restDigits hb _) hmod64 (by omega) (by omega)]
      simp [digitsText_succ, digitsText_restDigits hb hmod]

/-- How many digits stand in the text: those of the number, or as many as the width asks for. -/
def printedDigits (opts : StringFormatOpts) (n : Nat) : Nat :=
  if opts.width = uint8Max then numDigits opts.base n else max opts.width (numDigits opts.base n)

theorem numDigits_le_of_uint64 (hb : 2 ≤ b) (hn : n < uint64Mod) : numDigits b n ≤ 64 := by
  refine numDigits_le (by decide) (Nat.lt_of_lt_of_le hn ?_)
  exact Nat.pow_le_pow_left hb 64

/-- Unless digits have to be left out, the number is written as it is read: sign, base, zeros up
to the width and the digits. -/
theorem numToString_spec (opts : StringFormatOpts) (hbase : opts.base = 10 ∨ opts.base = 16) (hn : n < uint64Mod)
    (hwidth : numDigits opts.base n ≤ opts.width) :
    numToString n opts = .ok (numPrefix opts ++ digitsText opts (printedDigits opts n) n) := by
  have hb : 2 ≤ opts.base := by omega
  have hcount := numDigits_le_of_uint64 hb hn
  have hlt := lt_pow_numDigits (by omega) n (b := opts.base)
  have hdivisor : opts.base ^ Nat.log opts.base n = opts.base ^ numDigits opts.base n / opts.base :=
    (pow_succ_div hb _).symm
  have hloop := fun s =>
    digitsLoop_spec 65 hbase hcount hlt hn (by omega) (Nat.zero_le 0) s
  have hfind : findDivisor n opts.base 65 1 1 = _ :=
    findDivisor_spec (j := 0) 65 hb hn (Nat.zero_le _) (by simp only [numDigits] at hcount; omega)
  rw [numToString, if_neg (by omega), hfind]
  simp only [Outcome.bind_ok, hdivisor]
  by_cases hw : opts.width = uint8Max
  · rw [if_neg (by simp [hw]), Nat.sub_eq_zero_of_le hwidth, hloop, printedDigits, if_pos hw]
  · by_cases hpad : numDigits opts.base n < opts.width
    · rw [if_pos ⟨hw, hpad⟩, hloop, printedDigits, if_neg hw, max_eq_left hpad.le]
      have hzeros := digits_of_le (by omega) hlt hpad.le
      simp [digitsText, hzeros, digitChar]
    · rw [if_neg (by omega), Nat.sub_eq_zero_of_le hwidth, hloop, printedDigits, if_neg hw,
        max_eq_right (by omega)]

/-- With a width one short of its digits, a number loses the first of them. -/
theorem numToString_cut (opts : StringFormatOpts) (hbase : opts.base = 10)
    (hwidth : opts.width = k) (hk : 1 ≤ k) (hk15 : k ≤ 15) (hge : 10 ^ k ≤ n) (hn : n < 10 ^ (k + 1)) :
    numToString n opts = .ok (numPrefix opts ++ digitsText opts k (n % 10 ^ k)) := by
  have hpow : 10 ^ (k + 1) ≤ 10 ^ 16 := Nat.pow_le_pow_right (by decide) (by omega)
  have hn64 : n < uint64Mod := Nat.lt_of_lt_of_le hn (hpow.trans (by decide))
  have hlog : Nat.log 10 n = k := by
    rw [Nat.log_eq_iff (Or.inl (by omega))]
    exact ⟨hge, hn⟩
  have hdigits : numDigits 10 n = k + 1 := by rw [numDigits, hlog]
  have hfind : findDivisor n 10 65 1 1 = .ok (10 ^ k, k + 1) := by
    have := findDivisor_spec (b := 10) (j := 0) 65 (by decide) hn64 (Nat.zero_le _)
      (by omega)
    rwa [hlog, hdigits] at this
  have hb : 2 ≤ opts.base := by omega
  have hmod : n % opts.base ^ k < opts.base ^ k := Nat.mod_lt n (Nat.pow_pos (by omega))
  have hle := restDigits_le hmod
  have hloop := digitsLoop_turn (k := k) opts 1 64 0 (Or.inl hbase) (by omega) (by rwa [hbase]) hn64
    (numPrefix opts)
  rw [digitsLoop_spec 64 (Or.inl hbase) (by omega) (lt_pow_restDigits hb _)
    (Nat.lt_of_le_of_lt (Nat.mod_le _ _) hn64) (by omega) (le_refl 1), if_neg (by omega),
    List.append_assoc, ← digitsText_restDigits hb hmod, hbase, pow_succ_div (by decide)] at hloop
  rw [numToString, if_neg (by omega), hbase, hfind]
  simp only [Outcome.bind_ok]
  rw [if_neg (by omega), hwidth, show k + 1 - k = 1 by omega, hloop]

/-! Reading the digits back. -/

theorem isDigit_digitChar {d : Nat} (hd : d < 10) :
    isDigit (digitChar opts d) = true ∧ (digitChar opts d).toNat - 0x30 = d := by
  have hle : d ≤ 9 := by omega
  rw [digitChar, if_pos hle]
  interval_cases d <;> decide

theorem digitsText_isDigit (hbase : opts.base = 10) {k n : Nat}
    (hn : n < 10 ^ k) : ∀ c ∈ digitsText opts k n, isDigit c = true := by
  intro c hc
  obtain ⟨d, hd, rfl⟩ := List.mem_map.mp hc
  rw [hbase] at hd
  exact (isDigit_digitChar (digits_lt (by decide) hn d hd)).1

theorem digitsValue_digitsText (hbase : opts.base = 10) {k n : Nat}
    (hn : n < 10 ^ k) : digitsValue (digitsText opts k n) 0 = n := by
  have hfold : ∀ (ds : List Nat) (v : Nat), (∀ d ∈ ds, d < 10) →
      digitsValue (ds.map (digitChar opts)) v = ds.foldl (fun v d => v * 10 + d) v := by
    intro ds
    induction ds with
    | nil => exact fun _ _ => rfl
    | cons d ds ih =>
      intro v hds
      obtain ⟨hd, hds⟩ := List.forall_mem_cons.mp hds
      have hstep := ih (v * 10 + d) hds
      simpa [digitsValue, (isDigit_digitChar hd).2] using hstep
  rw [digitsText, hbase, hfold _ _ (digits_lt (by decide) hn), foldl_digits hn]
  omega

theorem length_digitsText (opts : StringFormatOpts) (k n : Nat) :
    (digitsText opts k n).length = k := by
  simp [digitsText]

/-- A number as it is written. -/
def decimal (n : Nat) : List UInt8 := digitsText {} (numDigits 10 n) n

theorem decimal_isDigit (n : Nat) : ∀ c ∈ decimal n, isDigit c = true :=
  digitsText_isDigit rfl (lt_pow_numDigits (by decide) n)

theorem digitsValue_decimal (n : Nat) : digitsValue (decimal n) 0 = n :=
  digitsValue_digitsText rfl (lt_pow_numDigits (by decide) n)

theorem decimal_ne_nil (n : Nat) : decimal n ≠ [] := by
  intro h
  have hlen := congrArg List.length h
  simp [decimal, length_digitsText, numDigits] at hlen

/-! Decimal numbers, without a width and with one. -/

theorem digitsText_eq (hbase : opts.base = 10) (hn : n < 10 ^ k) :
    digitsText opts k n = digitsText {} k n := by
  rw [digitsText, digitsText, hbase]
  refine List.map_congr_left fun d hd => ?_
  have hle : d ≤ 9 := Nat.le_of_lt_succ (digits_lt (by decide) hn d hd)
  rw [digitChar, digitChar, if_pos hle, if_pos hle]

theorem numToString_decimal (hbase : opts.base = 10) (hwidth : opts.width = uint8Max)
    (hn : n < uint64Mod) : numToString n opts = .ok (numPrefix opts ++ decimal n) := by
  have hdigits := numDigits_le_of_uint64 (b := 10) (by decide) hn
  have htext := numToString_spec opts (by omega) hn
    (by rw [hbase, hwidth]; exact hdigits.trans (by decide))
  rw [htext, printedDigits, if_pos hwidth, hbase,
    digitsText_eq hbase (lt_pow_numDigits (by decide) n)]
  rfl

theorem numToString_padded (hbase : opts.base = 10) (hwidth : opts.width = k) (hk : 0 < k)
    (hk16 : k ≤ 16) (hn : n < 10 ^ k) :
    numToString n opts = .ok (numPrefix opts ++ digitsText {} k n) := by
  have hpow : 10 ^ k ≤ 10 ^ 16 := Nat.pow_le_pow_right (by decide) hk16
  have hn64 : n < uint64Mod := Nat.lt_of_lt_of_le hn (hpow.trans (by decide))
  have hdigits := numDigits_le hk hn
  have htext := numToString_spec opts (by omega) hn64 (by rwa [hbase, hwidth])
  rw [htext, printedDigits, if_neg (by rw [hwidth, uint8Max]; omega), hbase, hwidth,
    max_eq_left hdigits, digitsText_eq hbase hn]

end WylesLibs.Format
