import WylesLibs.EStream.ReaderTask

/-! `ByteEStream`: reads of strings and numbers from a stream of bytes. -/
namespace WylesLibs.Stream
open Library
variable {σ τ θ D : Type}

def numberMaxDigits : Nat := 10

/-- The arithmetic of `double` that the number readers use; the law is exact in it. -/
class DoubleArith (D : Type) where
  ofNat : Nat → D
  ofInt : Int → D
  add : D → D → D
  mul : D → D → D
  div : D → D → D
  mul_one : ∀ x : D, mul x (ofInt 1) = x

structure ByteIsCharClassCriteria where
  state : LoopCriteriaState
  untilSize : Nat
  charClass : UInt8

namespace ByteIsCharClassCriteria

def upperHexClass : UInt8 := 0x1
def lowerHexClass : UInt8 := 0x2
def hexClass : UInt8 := 0x3
def alphanumericClass : UInt8 := 0x4
def digitClass : UInt8 := 0x8

/-- The criteria is one of a match from the start, so its other mode is never reached. -/
def mk' (charClass : UInt8) : ByteIsCharClassCriteria := ⟨.good, 0, charClass⟩

def untilMatchNext (t : ByteIsCharClassCriteria) (c : UInt8) : ByteIsCharClassCriteria :=
  let stateIf (b : Bool) : LoopCriteriaState := if b then .good else .notGood
  if t.charClass &&& digitClass ≠ 0 then { t with state := stateIf (isDigit c) }
  else if t.charClass &&& upperHexClass ≠ 0 then { t with state := stateIf (isUpperHex c) }
  else if t.charClass &&& lowerHexClass ≠ 0 then { t with state := stateIf (isLowerHex c) }
  else if t.charClass &&& hexClass ≠ 0 then { t with state := stateIf (isHexDigit c) }
  else if t.charClass &&& alphanumericClass ≠ 0 then { t with state := stateIf (isAlpha c) }
  else t

def nextState (t : ByteIsCharClassCriteria) (c : UInt8) :
    Outcome (LoopCriteriaState × ByteIsCharClassCriteria) :=
  if t.untilSize + 1 > arbitrarySpatialUntilLimit then
    .thrown "Spatial until limit of 65536 reached."
  else
    let t := ({ t with untilSize := t.untilSize + 1 }).untilMatchNext c
    .ok (t.state, t)

@[simp] theorem untilMatchNext_untilSize (t : ByteIsCharClassCriteria) (c : UInt8) :
    (t.untilMatchNext c).untilSize = t.untilSize := by
  unfold untilMatchNext
  grind

instance : LoopCriteriaI ByteIsCharClassCriteria UInt8 where
  nextState := nextState
  state t := t.state
  preemptiveBail t := { t with state := .notGood }
  steps t := arbitrarySpatialUntilLimit - t.untilSize
  steps_nextState := by
    intro t t' c st h _
    unfold nextState at h
    split at h
    · cases h
    · cases h
      simp only [untilMatchNext_untilSize]
      omega
  steps_preemptiveBail _ := rfl

instance : SettledCriteria ByteIsCharClassCriteria where
  nextState _ _ := .ite (Outcome.settled_thrown _) (Outcome.settled_ok _)

end ByteIsCharClassCriteria

structure ByteStringCollector where
  data : List UInt8

instance : Collector ByteStringCollector UInt8 (List UInt8) where
  init _ := ⟨[]⟩
  accumulate k c := .ok ⟨k.data ++ [c]⟩
  accumulateEls k cs := .ok ⟨k.data ++ cs⟩
  collect k := k.data

instance : SettledCollector ByteStringCollector where
  accumulate _ _ := Outcome.settled_ok _
  accumulateEls _ _ := Outcome.settled_ok _

structure NaturalCollector where
  digitCount : Nat
  value : Nat

/-- The value is a `uint64_t`: for a byte below `'0'` the difference wraps. -/
instance : Collector NaturalCollector UInt8 (Nat × Nat) where
  init _ := ⟨0, 0⟩
  accumulate k c :=
    if k.digitCount + 1 > numberMaxDigits then
      .thrown "parseNatural: Exceeded natural digit limit."
    else .ok ⟨k.digitCount + 1, (k.value * 10 + (2 ^ 64 + c.toNat - 0x30)) % 2 ^ 64⟩
  collect k := (k.value, k.digitCount)

instance : SettledCollector NaturalCollector where
  accumulate _ _ := .ite (Outcome.settled_thrown _) (Outcome.settled_ok _)
  accumulateEls _ _ := Outcome.settled_thrown _

structure DecimalCollector (D : Type) where
  decimalDivisor : D
  digitCount : Nat
  value : D

instance [DoubleArith D] : Collector (DecimalCollector D) UInt8 (D × Nat) where
  init _ := ⟨DoubleArith.ofNat 10, 0, DoubleArith.ofNat 0⟩
  accumulate k c :=
    let value := DoubleArith.add k.value
      (DoubleArith.div (DoubleArith.ofInt ((c.toNat : Int) - 0x30)) k.decimalDivisor)
    if k.digitCount + 1 > numberMaxDigits then
      .thrown "parseDecimal: Exceeded decimal digit limit."
    else
      .ok ⟨DoubleArith.mul k.decimalDivisor (DoubleArith.ofNat 10), k.digitCount + 1, value⟩
  collect k := (k.value, k.digitCount)

instance [DoubleArith D] : SettledCollector (DecimalCollector D) where
  accumulate _ _ := .ite (Outcome.settled_thrown _) (Outcome.settled_ok _)
  accumulateEls _ _ := Outcome.settled_thrown _

section
variable [EStreamI σ UInt8] [StreamTask θ UInt8] [DoubleArith D]

def readString (n : Nat) (operation : Option θ) : Prog σ (List UInt8) := do
  let (s, _) ← streamCollect
    (LoopCriteria.mk' .untilNumElements true n [] : LoopCriteria UInt8) operation
    (⟨[]⟩ : ByteStringCollector)
  pure s

/-- `readNatural` up to the first byte that is no digit, which stays in the stream. -/
def readNatural : Prog σ (Nat × Nat) := do
  let (t, _) ← streamCollect (ByteIsCharClassCriteria.mk' ByteIsCharClassCriteria.digitClass)
    (none : Option (NullTask UInt8)) (⟨0, 0⟩ : NaturalCollector)
  pure t

def readStringUntil (untilEls : List UInt8) (operation : Option θ) (inclusive : Bool) :
    Prog σ (List UInt8) := do
  let (s, _) ← streamCollect (LoopCriteria.mk' .untilMatch inclusive 0 untilEls) operation
    (⟨[]⟩ : ByteStringCollector)
  pure s

/-- `readNatural` up to one of the given bytes, whatever stands before it. -/
def readNaturalUntil (untilEls : List UInt8) (consume : Bool) : Prog σ (Nat × Nat) := do
  let (t, _) ← streamCollect (LoopCriteria.mk' .untilMatch false 0 untilEls)
    (none : Option (NullTask UInt8)) (⟨0, 0⟩ : NaturalCollector)
  if consume then
    let _ ← get
    pure t
  else
    pure t

/-- `readNatural` of a number of bytes, whatever they are. -/
def readNaturalN (n : Nat) : Prog σ (Nat × Nat) :=
  if n > arbitraryLimitBecauseDumb then
    Prog.raise ("You're reading more than the limit specified... " ++
      "Read less, or you know what, don't read at all.")
  else if n = 0 then readNatural
  else do
    let (t, _) ← streamCollect
      (LoopCriteria.mk' .untilNumElements true n [] : LoopCriteria UInt8)
      (none : Option (NullTask UInt8)) (⟨0, 0⟩ : NaturalCollector)
    pure t

/-- `readDecimal` without an until string. -/
def readDecimal : Prog σ (D × Nat × Nat) := do
  let natural ← readNatural
  let c ← peek
  if c ≠ Byte.dot then
    pure (DoubleArith.ofNat natural.1, natural.2, 0)
  else
    let _ ← get
    let (decimal, _) ← streamCollect
      (ByteIsCharClassCriteria.mk' ByteIsCharClassCriteria.digitClass)
      (none : Option (NullTask UInt8))
      (⟨DoubleArith.ofNat 10, 0, DoubleArith.ofNat 0⟩ : DecimalCollector D)
    pure (DoubleArith.add (DoubleArith.ofNat natural.1) decimal.1, natural.2, decimal.2)

end

namespace EStreamSim
variable [EStreamI σ UInt8] [EStreamI τ UInt8] {R : σ → τ → Prop}
variable [StreamTask θ UInt8] [SettledTask θ] [DoubleArith D]

theorem readString (h : EStreamSim R) (n : Nat) (operation : Option θ) :
    Prog.Sim R (readString n operation) (Stream.readString n operation) :=
  .bind (h.streamCollect _ _ _) fun _ => .pure _

theorem readStringUntil (h : EStreamSim R) (untilEls : List UInt8) (operation : Option θ)
    (inclusive : Bool) :
    Prog.Sim R (readStringUntil untilEls operation inclusive)
      (Stream.readStringUntil untilEls operation inclusive) :=
  .bind (h.streamCollect _ _ _) fun _ => .pure _

theorem readNatural (h : EStreamSim R) : Prog.Sim R (readNatural : Prog σ _) Stream.readNatural :=
  .bind (h.streamCollect _ _ _) fun _ => .pure _

theorem readNaturalUntil (h : EStreamSim R) (untilEls : List UInt8) (consume : Bool) :
    Prog.Sim R (readNaturalUntil untilEls consume : Prog σ _)
      (Stream.readNaturalUntil untilEls consume) :=
  .bind (h.streamCollect _ _ _) fun _ => .ite (.bind h.get fun _ => .pure _) (.pure _)

theorem readNaturalN (h : EStreamSim R) (n : Nat) :
    Prog.Sim R (readNaturalN n : Prog σ _) (Stream.readNaturalN n) :=
  .ite (.raise _) (.ite h.readNatural (.bind (h.streamCollect _ _ _) fun _ => .pure _))

theorem readDecimal (h : EStreamSim R) :
    Prog.Sim R (readDecimal : Prog σ (D × Nat × Nat)) Stream.readDecimal := by
  refine .bind h.readNatural fun natural => .bind h.peek fun c => .ite (.pure _) ?_
  exact .bind h.get fun _ => .bind (h.streamCollect _ _ _) fun _ => .pure _

end EStreamSim

section
variable [StreamTask θ UInt8] [SettledTask θ]

theorem settles_readString (n : Nat) (operation : Option θ) :
    (readString n operation : Prog (List UInt8) _).Settles :=
  .bind (settles_streamCollect _ _ _) fun _ => .pure _

theorem settles_readNatural : (readNatural : Prog (List UInt8) _).Settles :=
  .bind (settles_streamCollect _ _ _) fun _ => .pure _

theorem settles_readDecimal [DoubleArith D] :
    (readDecimal : Prog (List UInt8) (D × Nat × Nat)).Settles := by
  refine .bind settles_readNatural fun natural => .bind settles_peek fun c => .ite (.pure _) ?_
  exact .bind settles_get fun _ => .bind (settles_streamCollect _ _ _) fun _ => .pure _

end
end WylesLibs.Stream
