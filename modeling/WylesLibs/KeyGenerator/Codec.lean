import WylesLibs.EStream.Memory
import WylesLibs.StringUtils

/-! The text of a key: sixteen hexadecimal digits, and the value that the store reads back. -/
namespace WylesLibs.KeyGenerator
open Library WylesLibs.Stream

/-- `low` and `high` of `valToHexCharArray` become digits in the same way. -/
def hexDigit (nibble : UInt8) : UInt8 :=
  if nibble < 0xA then nibble + 0x30 else nibble + (0x41 - 0xA)

/-- The loop of `valToHexCharArray`; every digit goes to the front of the data. -/
def insertHexDigits (data : List UInt8) (value : UInt64) : Nat → List UInt8
  | 0 => data
  | n + 1 =>
    let low := hexDigit (value &&& 0x0F).toUInt8
    let high := hexDigit ((value &&& 0xF0) >>> 4).toUInt8
    insertHexDigits (high :: low :: data) (value >>> 8) n

def valToHexCharArray (data : List UInt8) (value : UInt64) (bytes : UInt8) :
    Outcome (List UInt8) :=
  if bytes > 8 then .thrown "byte count cannnot exceed 64 bits."
  else .ok (insertHexDigits data value bytes.toNat)

/-- One turn of the loop of `refresh`. -/
def shiftIn (current : UInt64) (byte : UInt8) : Outcome UInt64 :=
  if isDigit byte then .ok (current <<< 4 ||| (byte - 0x30).toUInt64)
  else if isUpperHex byte then .ok (current <<< 4 ||| ((byte - 0x41) + 0xA).toUInt64)
  else .thrown "Non-hex character detected."

section
variable {σ : Type} [EStreamI σ UInt8]

def refreshLoop : Nat → UInt64 → Prog σ UInt64
  | 0, current => pure current
  | n + 1, current => do
    let byte ← get
    let current ← Prog.lift (shiftIn current byte)
    refreshLoop n current

/-- `refresh` on a store whose file could be opened. -/
def refresh (current : UInt64) : Prog σ UInt64 := refreshLoop 16 current

end

/-! The digits of a value, read back. -/

theorem hexDigit_class (nibble : Fin 16) :
    (isDigit (hexDigit (.ofNat nibble)) = true ∧
        hexDigit (.ofNat nibble) - 0x30 = .ofNat nibble) ∨
      (isDigit (hexDigit (.ofNat nibble)) = false ∧ isUpperHex (hexDigit (.ofNat nibble)) = true ∧
        hexDigit (.ofNat nibble) - 0x41 + 0xA = .ofNat nibble) := by
  revert nibble
  decide

theorem shiftIn_hexDigit (current : UInt64) {nibble : UInt8} (h : nibble.toNat < 16) :
    shiftIn current (hexDigit nibble) = .ok (current <<< 4 ||| nibble.toUInt64) := by
  have hclass := hexDigit_class ⟨nibble.toNat, h⟩
  simp only [UInt8.ofNat_toNat] at hclass
  obtain ⟨hdigit, hval⟩ | ⟨hdigit, hupper, hval⟩ := hclass
  · simp [shiftIn, hdigit, hval]
  · simp [shiftIn, hdigit, hupper, hval]

theorem shiftIn_eq_ofNat (current : UInt64) {nibble : UInt8} (h : nibble.toNat < 16) :
    current <<< 4 ||| nibble.toUInt64 = .ofNat (current.toNat * 16 + nibble.toNat) := by
  apply UInt64.toNat.inj
  have hshift : (current <<< 4).toNat = (current.toNat % 2 ^ 60) <<< 4 := by
    have hfour : (4 : UInt64).toNat % 64 = 4 := rfl
    rw [UInt64.toNat_shiftLeft, hfour, Nat.shiftLeft_eq, Nat.shiftLeft_eq]
    omega
  rw [UInt64.toNat_or, hshift, UInt8.toNat_toUInt64, ← Nat.shiftLeft_add_eq_or_of_lt h,
    Nat.shiftLeft_eq, UInt64.toNat_ofNat']
  omega

theorem insertHexDigits_append (n : Nat) (value : UInt64) (data : List UInt8) :
    insertHexDigits data value n = insertHexDigits [] value n ++ data := by
  induction n generalizing value data with
  | zero => rfl
  | succ n ih =>
    simp only [insertHexDigits]
    rw [ih, ih _ [_, _]]
    simp

theorem length_insertHexDigits (n : Nat) (value : UInt64) :
    (insertHexDigits [] value n).length = 2 * n := by
  induction n generalizing value with
  | zero => rfl
  | succ n ih =>
    simp only [insertHexDigits]
    rw [insertHexDigits_append, List.length_append, ih]
    simp
    omega

theorem refreshLoop_add {σ : Type} [EStreamI σ UInt8] (m n : Nat) (current : UInt64) (s : σ) :
    refreshLoop (m + n) current s = (refreshLoop m current >>= refreshLoop n) s := by
  induction m generalizing current s with
  | zero => simp [refreshLoop]
  | succ m ih =>
    rw [Nat.succ_add]
    simp only [refreshLoop, Prog.bind_apply, ih, Outcome.bind_assoc]

/-- The two digits of one byte. -/
theorem refreshLoop_two (current value : UInt64) (rest : List UInt8) :
    refreshLoop 2 current (hexDigit ((value &&& 0xF0) >>> 4).toUInt8 ::
        hexDigit (value &&& 0x0F).toUInt8 :: rest) =
      .ok (.ofNat (current.toNat * 256 + value.toNat % 256), rest) := by
  have hlow : (value &&& 0x0F).toUInt8.toNat = value.toNat % 16 := by
    have hand : value.toNat % 256 &&& 15 = value.toNat % 256 % 16 :=
      Nat.and_two_pow_sub_one_eq_mod _ 4
    simp [hand]
  have hhigh : ((value &&& 0xF0) >>> 4).toUInt8.toNat = value.toNat / 16 % 16 := by
    have hand : (value.toNat &&& 240) >>> 4 = value.toNat / 16 % 16 := by
      rw [Nat.shiftRight_and_distrib, Nat.shiftRight_eq_div_pow]
      exact Nat.and_two_pow_sub_one_eq_mod _ 4
    simp [hand]
    omega
  have hlow16 : (value &&& 0x0F).toUInt8.toNat < 16 := by omega
  have hhigh16 : ((value &&& 0xF0) >>> 4).toUInt8.toNat < 16 := by omega
  simp only [refreshLoop, Prog.bind_apply, get_list_cons, Outcome.bind_ok, Prog.lift_apply,
    shiftIn_hexDigit _ hlow16, shiftIn_hexDigit _ hhigh16, shiftIn_eq_ofNat _ hlow16,
    shiftIn_eq_ofNat _ hhigh16, Prog.pure_apply]
  congr 2
  apply UInt64.toNat.inj
  simp only [UInt64.toNat_ofNat', hlow, hhigh]
  omega

theorem refreshLoop_insertHexDigits (n : Nat) (current value : UInt64) (rest : List UInt8) :
    refreshLoop (2 * n) current (insertHexDigits [] value n ++ rest) =
      .ok (.ofNat (current.toNat * 256 ^ n + value.toNat % 256 ^ n), rest) := by
  induction n generalizing current value rest with
  | zero => simp [refreshLoop, insertHexDigits, Nat.mod_one]
  | succ n ih =>
    have hshift : (value >>> 8).toNat = value.toNat / 256 := by
      simp [UInt64.toNat_shiftRight, Nat.shiftRight_eq_div_pow]
    rw [insertHexDigits, insertHexDigits_append, List.append_assoc, Nat.mul_succ, refreshLoop_add,
      Prog.bind_apply, ih, Outcome.bind_ok, List.cons_append, List.cons_append, List.nil_append,
      refreshLoop_two, hshift]
    congr 2
    apply UInt64.toNat.inj
    have hmod : value.toNat % 256 ^ (n + 1) =
        value.toNat % 256 + 256 * (value.toNat / 256 % 256 ^ n) := by
      rw [Nat.pow_succ, Nat.mul_comm, Nat.mod_mul]
    have hsum : current.toNat * 256 ^ (n + 1) + value.toNat % 256 ^ (n + 1) =
        (current.toNat * 256 ^ n + value.toNat / 256 % 256 ^ n) * 256 + value.toNat % 256 := by
      rw [hmod]
      ring
    rw [hsum, UInt64.toNat_ofNat', UInt64.toNat_ofNat', UInt64.toNat_ofNat']
    omega

theorem refreshLoop_zero {n : Nat} {value : UInt64} (h : value.toNat < 256 ^ n)
    (rest : List UInt8) :
    refreshLoop (2 * n) 0 (insertHexDigits [] value n ++ rest) = .ok (value, rest) := by
  rw [refreshLoop_insertHexDigits, Nat.mod_eq_of_lt h, UInt64.toNat_zero, Nat.zero_mul,
    Nat.zero_add, UInt64.ofNat_toNat]

/-- The store reads back the value that was written. -/
theorem refresh_insertHexDigits (value : UInt64) (rest : List UInt8) :
    refresh 0 (insertHexDigits [] value 8 ++ rest) = .ok (value, rest) := by
  have hlt : value.toNat < 256 ^ 8 := by
    have := UInt64.toNat_lt value
    omega
  unfold refresh
  exact refreshLoop_zero (n := 8) hlt rest

theorem insertHexDigits_injective {value value' : UInt64}
    (h : insertHexDigits [] value 8 = insertHexDigits [] value' 8) : value = value' := by
  have hread := refresh_insertHexDigits value []
  rw [h, refresh_insertHexDigits value' []] at hread
  simpa using hread.symm

end WylesLibs.KeyGenerator
