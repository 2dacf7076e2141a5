import WylesLibs.Datastructures.Buffer
import WylesLibs.Library.StableSort

/-! `Array::sort`: bottom-up merging in place, with a queue of left elements that are displaced.
Lengths are far below the range of `size_t` and of the integers that a `double` tells apart. -/
namespace WylesLibs.Datastructures
open Library

inductive ArraySort where
  | unsorted
  | ascending
  | descending
deriving DecidableEq, Repr

section
variable {T : Type} [BEq T] [LT T] [DecidableLT T]

def nlognsortCompare (sortOrder : ArraySort) (a b : T) : Int :=
  if a == b then
    0
  else if a > b then
    if sortOrder = .descending then -1 else 1
  else
    if sortOrder = .descending then 1 else -1

/-- The locals of `nlognsortMerge`, with the two buffers. -/
structure Merging (T : Type) where
  eBuf : List (Option T)
  swapSpace : List (Option T)
  swapSpacePush : Nat
  swapSpacePop : Nat
  i : Nat
  j : Nat

/-- The difference of the two unsigned cursors is positive. -/
def Merging.holds (m : Merging T) : Bool := m.swapSpacePush != m.swapSpacePop

variable (sortOrder : ArraySort)

/-- `j < size_b && nlognsortCompare(leftCompare, B[j]) > 0` -/
def rightWins (right sizeB : Nat) (leftCompare : T) (m : Merging T) : Outcome Bool :=
  if m.j < sizeB then
    (load m.eBuf (right + m.j)).bind fun b => .ok (0 < nlognsortCompare sortOrder leftCompare b)
  else
    .ok false

/-- The body of the first loop; `left` and `right` are the positions of `A` and `B`. -/
def leftTurn (left right sizeB : Nat) (m : Merging T) : Outcome (Merging T) :=
  (load m.eBuf (left + m.i)).bind fun first =>
  (if m.holds then load m.swapSpace m.swapSpacePop else .ok first).bind fun leftCompare =>
  (rightWins sortOrder right sizeB leftCompare m).bind fun wins =>
  if wins then
    (load m.eBuf (left + m.i)).bind fun swap =>
    (load m.eBuf (right + m.j)).bind fun b =>
    (addElement m.eBuf (left + m.i) b).bind fun eBuf =>
    (addElement m.swapSpace m.swapSpacePush swap).bind fun swapSpace =>
    .ok { m with
      eBuf, swapSpace, swapSpacePush := m.swapSpacePush + 1, j := m.j + 1, i := m.i + 1 }
  else if m.holds then
    (load m.eBuf (left + m.i)).bind fun swap =>
    (load m.swapSpace m.swapSpacePop).bind fun el =>
    (addElement m.eBuf (left + m.i) el).bind fun eBuf =>
    (addElement m.swapSpace m.swapSpacePush swap).bind fun swapSpace =>
    .ok { m with
      eBuf, swapSpace, swapSpacePop := m.swapSpacePop + 1, swapSpacePush := m.swapSpacePush + 1,
      i := m.i + 1 }
  else
    .ok { m with i := m.i + 1 }

/-- The first loop, over what is left of `A`. -/
def leftLoop (left right sizeB : Nat) : Nat → Merging T → Outcome (Merging T)
  | 0, m => .ok m
  | n + 1, m => (leftTurn sortOrder left right sizeB m).bind (leftLoop left right sizeB n)

/-- The body of the second loop. -/
def rightTurn (left right sizeB : Nat) (m : Merging T) : Outcome (Merging T) :=
  (load m.swapSpace m.swapSpacePop).bind fun leftCompare =>
  (rightWins sortOrder right sizeB leftCompare m).bind fun wins =>
  if wins then
    (load m.eBuf (right + m.j)).bind fun b =>
    (addElement m.eBuf (left + m.i) b).bind fun eBuf =>
    .ok { m with eBuf, j := m.j + 1, i := m.i + 1 }
  else
    (load m.swapSpace m.swapSpacePop).bind fun el =>
    (addElement m.eBuf (left + m.i) el).bind fun eBuf =>
    .ok { m with eBuf, swapSpacePop := m.swapSpacePop + 1, i := m.i + 1 }

def rightLoop (left right sizeB : Nat) : Nat → Merging T → Outcome (Merging T)
  | 0, m => if m.holds then .timeout else .ok m
  | n + 1, m =>
    if m.holds then
      (rightTurn sortOrder left right sizeB m).bind (rightLoop left right sizeB n)
    else
      .ok m

def nlognsortMerge (eBuf : List (Option T)) (left sizeA right sizeB : Nat)
    (swapSpace : List (Option T)) : Outcome (List (Option T) × List (Option T)) :=
  (leftLoop sortOrder left right sizeB sizeA
    { eBuf, swapSpace, swapSpacePush := 0, swapSpacePop := 0, i := 0, j := 0 }).bind fun m =>
  (rightLoop sortOrder left right sizeB (sizeA + sizeB) m).bind fun m =>
  .ok (m.eBuf, m.swapSpace)

/-- `while (i < size)` over the two buffers. -/
def pairsLoop (size span : Nat) :
    Nat → Nat → List (Option T) × List (Option T) → Outcome (List (Option T) × List (Option T))
  | 0, i, buffers => if i < size then .timeout else .ok buffers
  | n + 1, i, (eBuf, swapSpace) =>
    if i < size then
      (if i + span < size then
        let rightSize := if i + span + span > size then size - (i + span) else span
        nlognsortMerge sortOrder eBuf i span (i + span) rightSize swapSpace
      else
        .ok (eBuf, swapSpace)).bind (pairsLoop size span n (i + 2 * span))
    else
      .ok (eBuf, swapSpace)

/-- `while (span < size)` -/
def spanLoop (size : Nat) :
    Nat → Nat → List (Option T) × List (Option T) → Outcome (List (Option T) × List (Option T))
  | 0, span, buffers => if span < size then .timeout else .ok buffers
  | n + 1, span, buffers =>
    if span < size then
      (pairsLoop sortOrder size span size 0 buffers).bind (spanLoop size n (span * 2))
    else
      .ok buffers

/-- With a swap space of `sizeLeft` cells. -/
def nlognSortWith (sizeLeft : Nat) (eBuf : List (Option T)) (size : Nat) :
    Outcome (List (Option T)) :=
  if size ≤ 1 then
    .ok eBuf
  else
    (spanLoop sortOrder size size 1 (eBuf, newCArray T sizeLeft)).bind fun buffers => .ok buffers.1

def nlognSort (eBuf : List (Option T)) (size : Nat) : Outcome (List (Option T)) :=
  nlognSortWith sortOrder (size / 2) eBuf size

end
end WylesLibs.Datastructures
