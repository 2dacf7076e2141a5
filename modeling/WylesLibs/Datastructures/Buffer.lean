import WylesLibs.Library.Outcome

/-! C arrays of one element type. A cell is empty until it is written; accesses past the end and
reads of an empty cell have no defined result. -/
namespace WylesLibs.Datastructures
open Library
variable {T : Type}

def newCArray (T : Type) (size : Nat) : List (Option T) := List.replicate size none

def load (buffer : List (Option T)) (pos : Nat) : Outcome T :=
  match buffer[pos]? with
  | some (some el) => .ok el
  | _ => .undef

def addElement (buffer : List (Option T)) (pos : Nat) (el : T) : Outcome (List (Option T)) :=
  if pos < buffer.length then .ok (buffer.set pos (some el)) else .undef

def cells (els : List T) : List (Option T) := els.map some

@[simp] theorem length_newCArray (size : Nat) : (newCArray T size).length = size := by
  simp [newCArray]

@[simp] theorem cells_nil : cells ([] : List T) = [] := rfl

@[simp] theorem cells_cons (el : T) (els : List T) : cells (el :: els) = some el :: cells els := rfl

@[simp] theorem cells_append (as bs : List T) : cells (as ++ bs) = cells as ++ cells bs := by
  simp [cells]

@[simp] theorem length_cells (els : List T) : (cells els).length = els.length := by
  simp [cells]

theorem load_of_getElem? {buffer : List (Option T)} {pos : Nat} {el : T}
    (h : buffer[pos]? = some (some el)) : load buffer pos = .ok el := by
  simp [load, h]

/-- The buffer is cut in front of the cell that is read. -/
theorem load_of_eq {buffer : List (Option T)} (before after : List (Option T)) {pos : Nat} {el : T}
    (h : buffer = before ++ some el :: after) (hpos : pos = before.length) :
    load buffer pos = .ok el := by
  subst h hpos
  exact load_of_getElem? (by simp)

theorem addElement_of_eq {buffer : List (Option T)} (before after : List (Option T)) {pos : Nat}
    {el : T} {c : Option T} (h : buffer = before ++ c :: after) (hpos : pos = before.length) :
    addElement buffer pos el = .ok (before ++ some el :: after) := by
  subst h hpos
  simp [addElement]

theorem addElement_of_le {buffer : List (Option T)} {pos : Nat} {el : T}
    (h : buffer.length ≤ pos) : addElement buffer pos el = .undef := by
  simp [addElement, h]

end WylesLibs.Datastructures
