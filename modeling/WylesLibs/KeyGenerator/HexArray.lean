import WylesLibs.Datastructures.ArrayCalls
import WylesLibs.KeyGenerator.Store

/-! `valToHexCharArray` on the array that it is given, whose digits are put in at the front one by
one while the array grows, and the store that reads them. -/
namespace WylesLibs.KeyGenerator.HexArray
open Library

/-- The loop over the bytes of the value. -/
def insertDigits (value : UInt64) : Nat → Call (Datastructures.Array UInt8) Unit
  | 0 => pure ()
  | n + 1 => do
    let low := hexDigit (value &&& 0x0F).toUInt8
    Datastructures.Array.insert 0 [low]
    let high := hexDigit ((value &&& 0xF0) >>> 4).toUInt8
    Datastructures.Array.insert 0 [high]
    insertDigits (value >>> 8) n

def valToHexCharArray (value : UInt64) (bytes : UInt8) : Call (Datastructures.Array UInt8) Unit :=
  if bytes > 8 then Call.raise "byte count cannnot exceed 64 bits."
  else insertDigits value bytes.toNat

/-- The upper-case hexadecimal digit of a number below sixteen. -/
def upperHex (digit : Nat) : UInt8 := if digit < 10 then .ofNat (48 + digit) else .ofNat (55 + digit)

/-- The `n` last hexadecimal digits of a number, the most significant first. -/
def hexText (n value : Nat) : List UInt8 :=
  (List.range n).map fun i => upperHex (value / 16 ^ (n - 1 - i) % 16)

/-! The array gets the digits that the list does. -/

theorem insertDigits_ok {a : Datastructures.Array UInt8} {data : List UInt8} (n : Nat) (value : UInt64)
    (h : a.Represents data) (hsize : data.length + 2 * n < 2 ^ 50) :
    ∃ a', insertDigits value n a = (.ok (), a') ∧ a'.Represents (insertHexDigits data value n) := by
  induction n generalizing a data value with
  | zero => exact ⟨a, rfl, h⟩
  | succ n ih =>
    have hlow := @Datastructures.Array.insert_ok _ a data [hexDigit (value &&& 0x0F).toUInt8] 0 h (Nat.zero_le _)
      (List.cons_ne_nil _ _) (by simp; omega)
    have hhigh := @Datastructures.Array.insert_ok _ _ _ [hexDigit ((value &&& 0xF0) >>> 4).toUInt8] 0
      hlow.represents (Nat.zero_le _) (List.cons_ne_nil _ _) (by simp; omega)
    obtain ⟨a', ha', hrep⟩ := ih (value >>> 8) hhigh.represents (by simp; omega)
    refine ⟨a', ?_, by simpa [insertHexDigits] using hrep⟩
    rw [insertDigits, Call.bind_of_ok (Prod.ext hlow.answers rfl),
      Call.bind_of_ok (Prod.ext hhigh.answers rfl)]
    exact ha'

/-! The digits are those of the value. -/

theorem hexDigit_eq_upperHex (nibble : Fin 16) :
    hexDigit (.ofNat nibble) = upperHex nibble := by
  revert nibble
  decide

theorem hexDigit_low (value : UInt64) :
    hexDigit (value &&& 0x0F).toUInt8 = upperHex (value.toNat % 16) := by
  have hlow : (value &&& 0x0F).toUInt8 = .ofNat (value.toNat % 16) := by
    apply UInt8.toNat.inj
    have hand : value.toNat % 256 &&& 15 = value.toNat % 256 % 16 :=
      Nat.and_two_pow_sub_one_eq_mod _ 4
    simp [hand]
    omega
  rw [hlow]
  exact hexDigit_eq_upperHex ⟨value.toNat % 16, Nat.mod_lt _ (by decide)⟩

theorem hexDigit_high (value : UInt64) :
    hexDigit ((value &&& 0xF0) >>> 4).toUInt8 = upperHex (value.toNat / 16 % 16) := by
  have hhigh : ((value &&& 0xF0) >>> 4).toUInt8 = .ofNat (value.toNat / 16 % 16) := by
    apply UInt8.toNat.inj
    have hand : (value.toNat &&& 240) >>> 4 = value.toNat / 16 % 16 := by
      rw [Nat.shiftRight_and_distrib, Nat.shiftRight_eq_div_pow]
      exact Nat.and_two_pow_sub_one_eq_mod _ 4
    simp [hand]
  rw [hhigh]
  exact hexDigit_eq_upperHex ⟨value.toNat / 16 % 16, Nat.mod_lt _ (by decide)⟩

theorem hexText_succ (n value : Nat) :
    hexText (n + 1) value = hexText n (value / 16) ++ [upperHex (value % 16)] := by
  have hdigit : ∀ i ∈ List.range n, upperHex (value / 16 ^ (n + 1 - 1 - i) % 16) =
      upperHex (value / 16 / 16 ^ (n - 1 - i) % 16) := by
    intro i hi
    have hlt := List.mem_range.mp hi
    have hexp : n + 1 - 1 - i = n - 1 - i + 1 := by omega
    rw [hexp, Nat.pow_succ', Nat.div_div_eq_div_mul]
  rw [hexText, List.range_succ, List.map_append, List.map_congr_left hdigit]
  simp [hexText]

theorem insertHexDigits_eq_hexText (n : Nat) (value : UInt64) :
    insertHexDigits [] value n = hexText (2 * n) value.toNat := by
  induction n generalizing value with
  | zero => rfl
  | succ n ih =>
    have hshift : (value >>> 8).toNat = value.toNat / 16 / 16 := by
      have h256 : value.toNat / 16 / 16 = value.toNat / 256 := Nat.div_div_eq_div_mul _ 16 16
      rw [h256]
      simp [UInt64.toNat_shiftRight, Nat.shiftRight_eq_div_pow]
    have htwo : 2 * (n + 1) = 2 * n + 1 + 1 := rfl
    calc insertHexDigits [] value (n + 1)
        = insertHexDigits [] (value >>> 8) n ++
            [hexDigit ((value &&& 0xF0) >>> 4).toUInt8, hexDigit (value &&& 0x0F).toUInt8] := by
          rw [insertHexDigits, insertHexDigits_append]
      _ = hexText (2 * n) (value.toNat / 16 / 16) ++ [upperHex (value.toNat / 16 % 16)] ++
            [upperHex (value.toNat % 16)] := by
          rw [ih, hshift, hexDigit_high, hexDigit_low, List.append_assoc]
          rfl
      _ = hexText (2 * (n + 1)) value.toNat := by
          rw [htwo, hexText_succ (2 * n + 1), hexText_succ (2 * n)]

theorem hexText_getElem? {n i : Nat} (hi : i < n) (value : Nat) :
    (hexText n value)[i]? = some (upperHex (value / 16 ^ (n - 1 - i) % 16)) := by
  simp [hexText, hi]

/-- Sixteen digits of any value, and the value again from the sixteen digits. -/
theorem valToHexCharArray_refresh (value : UInt64) (a : Datastructures.Array UInt8) (h : a.Represents []) :
    ∃ a' data, valToHexCharArray value 8 a = (.ok (), a') ∧ a'.Represents data ∧
      data.length = 16 ∧
      (∀ i < 16, data[i]? = some (upperHex (value.toNat / 16 ^ (15 - i) % 16))) ∧
      Store.refresh (some data) = .ok value := by
  have hbytes : ¬ (8 : UInt8) > 8 := by decide
  have height : (8 : UInt8).toNat = 8 := rfl
  obtain ⟨a', ha', hrep⟩ := insertDigits_ok 8 value h (by decide)
  refine ⟨a', insertHexDigits [] value 8, ?_, hrep, length_insertHexDigits 8 value, ?_,
    Store.refresh_flushed value⟩
  · rw [valToHexCharArray, if_neg hbytes, height, ha']
  · intro i hi
    rw [insertHexDigits_eq_hexText]
    exact hexText_getElem? hi value.toNat

theorem valToHexCharArray_refresh_max :
    (.withCap 8 : Datastructures.Array UInt8).Represents [] ∧
      ∃ a' data, valToHexCharArray 0xFFFFFFFFFFFFFFFF 8 (.withCap 8) = (.ok (), a') ∧
        a'.Represents data ∧ data.length = 16 ∧
        (∀ i < 16, data[i]? =
          some (upperHex ((0xFFFFFFFFFFFFFFFF : UInt64).toNat / 16 ^ (15 - i) % 16))) ∧
        Store.refresh (some data) = .ok 0xFFFFFFFFFFFFFFFF :=
  ⟨Datastructures.Array.represents_withCap 8, valToHexCharArray_refresh _ _ (Datastructures.Array.represents_withCap 8)⟩

example : hexText 4 0x1AF9 = [0x31, 0x41, 0x46, 0x39] := by decide

end WylesLibs.KeyGenerator.HexArray
