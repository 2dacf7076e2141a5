import WylesLibs.Library.Outcome

/-! The values a parsed JSON text is held in, and the arrays and objects under construction. -/
namespace WylesLibs.Parser.Json
open Library
variable {D : Type}

def maxJsonDepth : Nat := 7
def maxLengthOfJsonStringKeys : Nat := 2 <<< 7
def maxLengthOfJsonStringValues : Nat := 2 <<< 19
def fltMaxExpAbs : Nat := 127

/-- Strings and keys are held in bytes. The values of an object are an array of their own, of the
depth of the object. -/
inductive JsonValue (D : Type) where
  | null
  | boolean (boolean : Bool)
  | number (number : D) (naturalDigitCount decimalDigitCount : Nat)
  | string (s : List UInt8)
  | array (depth : Nat) (values : List (JsonValue D))
  | object (depth : Nat) (keys : List (List UInt8)) (values : List (JsonValue D))

structure JsonArray (D : Type) where
  depth : Nat
  values : List (JsonValue D)

structure JsonObject (D : Type) where
  depth : Nat
  keys : List (List UInt8)
  values : JsonArray D

namespace JsonArray

/-- `JsonArray(size_t depth)`. -/
def make (depth : Nat) : Outcome (JsonArray D) :=
  if depth > maxJsonDepth then .thrown "JsonArray: creation error... TOO MUCH DEPTH!"
  else .ok ⟨depth, []⟩

def addValue (arr : JsonArray D) (value : JsonValue D) : JsonArray D :=
  { arr with values := arr.values ++ [value] }

def toValue (arr : JsonArray D) : JsonValue D := .array arr.depth arr.values

theorem make_ok {depth : Nat} (h : depth ≤ maxJsonDepth) :
    (make depth : Outcome (JsonArray D)) = .ok ⟨depth, []⟩ := by
  simp [make, Nat.not_lt.mpr h]

@[simp] theorem addValue_depth (arr : JsonArray D) (v : JsonValue D) :
    (arr.addValue v).depth = arr.depth := rfl

end JsonArray

namespace JsonObject

/-- `JsonObject(size_t depth)`. -/
def make (depth : Nat) : Outcome (JsonObject D) :=
  if depth > maxJsonDepth then .thrown "JsonObject creation error... TOO MUCH DEPTH!"
  else .ok ⟨depth, [], ⟨depth, []⟩⟩

theorem make_ok {depth : Nat} (h : depth ≤ maxJsonDepth) :
    (make depth : Outcome (JsonObject D)) = .ok ⟨depth, [], ⟨depth, []⟩⟩ := by
  simp [make, Nat.not_lt.mpr h]

def addKey (obj : JsonObject D) (key : List UInt8) : JsonObject D :=
  { obj with keys := obj.keys ++ [key] }

def toValue (obj : JsonObject D) : JsonValue D := .object obj.depth obj.keys obj.values.values

end JsonObject
end WylesLibs.Parser.Json
