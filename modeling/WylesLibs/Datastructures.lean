import WylesLibs.Library.Outcome

/-! Calls of `Array` that throw when there is no element. -/
namespace WylesLibs.Datastructures
open Library
variable {α : Type}

def back (a : List α) : Outcome α :=
  match a.getLast? with
  | none => .thrown "No element to return."
  | some el => .ok el

def removeBack (a : List α) : Outcome (List α) :=
  if a.length = 0 then .thrown "No element to remove." else .ok a.dropLast

/-! `operator[]`, which appends an element when there is none at the position, whichever the
position is. -/

/-- The element that it refers to. -/
def element (a : List α) (pos : Nat) (fresh : α) : α := a.getD pos fresh

def setElement (a : List α) (pos : Nat) (el : α) : List α :=
  if pos < a.length then a.set pos el else a ++ [el]

@[simp] theorem back_append (a : List α) (el : α) : back (a ++ [el]) = .ok el := by
  simp [back]

@[simp] theorem removeBack_append (a : List α) (el : α) : removeBack (a ++ [el]) = .ok a := by
  simp [removeBack]

theorem settled_back (a : List α) : (back a).Settled := by
  unfold back
  cases a.getLast? with
  | none => exact Outcome.settled_thrown _
  | some el => exact Outcome.settled_ok _

theorem settled_removeBack (a : List α) : (removeBack a).Settled :=
  .ite (Outcome.settled_thrown _) (Outcome.settled_ok _)

end WylesLibs.Datastructures
