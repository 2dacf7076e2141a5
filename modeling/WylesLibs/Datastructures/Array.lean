import WylesLibs.Datastructures.Sort
import WylesLibs.Library.Loops
import WylesLibs.Library.Calls

/-! `Array`, for element types that are plain values. The elements that are put in are not those of
the array's own buffer, and memory is always found. Sizes are below `2 ^ 50`, where the products
with the growth factor are exact. -/
namespace WylesLibs.Datastructures
open Library

structure Array (T : Type) where
  eBuf : List (Option T)
  eCap : Nat
  eSize : Nat
  eSorted : ArraySort

namespace Array
variable {T : Type}

def sizeRange : Nat := 2 ^ 64

/-- A difference of two values of `size_t`. -/
def minus (a b : Nat) : Nat := (a + sizeRange - b) % sizeRange

/-- `(size_t)(size * UPSIZE_FACTOR)` -/
def upsized (size : Nat) : Outcome Nat :=
  if size * 7 / 4 < sizeRange then .ok (size * 7 / 4) else .undef

def withCap (initialCap : Nat) : Array T where
  eBuf := newCArray T initialCap
  eCap := initialCap
  eSize := 0
  eSorted := .unsorted

/-- The elements below `pos` are copied. -/
def copyUpTo (pos : Nat) (source target : List (Option T)) : Outcome (List (Option T)) :=
  forCount (fun i target => (load source i).bind fun el => addElement target i el) 0 pos target

/-- The locals of `insert`. -/
structure Inserting (T : Type) where
  newBuf : List (Option T)
  bucket : List (Option T)
  bucketPush : Nat
  bucketPop : Nat

/-- `if (++cursor == num_els) cursor = 0` -/
def nextSlot (numEls cursor : Nat) : Nat := if cursor + 1 = numEls then 0 else cursor + 1

/-- A turn of the loop of `insert`. The elements are moved within one buffer unless the old one is
kept apart in `old`. -/
def insertTurn (old : Option (List (Option T))) (size pos : Nat) (els : List T) (i : Nat)
    (m : Inserting T) : Outcome (Inserting T) :=
  (if i < pos + els.length then
    (load (cells els) (i - pos)).bind fun value => .ok (value, m.bucketPop)
  else
    (load m.bucket m.bucketPop).bind fun value =>
      .ok (value, nextSlot els.length m.bucketPop)).bind fun (value, bucketPop) =>
  (if i < size then
    (load (old.getD m.newBuf) i).bind fun el =>
    (addElement m.bucket m.bucketPush el).bind fun bucket =>
      .ok (bucket, nextSlot els.length m.bucketPush)
  else
    .ok (m.bucket, m.bucketPush)).bind fun (bucket, bucketPush) =>
  (addElement m.newBuf i value).bind fun newBuf =>
  .ok { newBuf, bucket, bucketPush, bucketPop }

def inserted (pos : Nat) (els : List T) (a : Array T) : Outcome (Array T) :=
  (if els.length + a.eSize > a.eCap then
    (upsized (els.length + a.eSize)).bind fun newCap =>
    (copyUpTo pos a.eBuf (newCArray T newCap)).bind fun newBuf =>
      .ok (newCap, some a.eBuf, newBuf)
  else
    .ok (a.eCap, none, a.eBuf)).bind fun (eCap, old, newBuf) =>
  (forCount (insertTurn old a.eSize pos els) pos (a.eSize + els.length - pos)
    { newBuf, bucket := newCArray T els.length, bucketPush := 0, bucketPop := 0 }).bind fun m =>
  .ok { eBuf := m.newBuf, eCap, eSize := a.eSize + els.length, eSorted := .unsorted }

def insert (pos : Nat) (els : List T) : Call (Array T) Unit := do
  if pos > (← Call.view eSize) then
    Call.raise "Position out of range."
  else
    Call.become (inserted pos els)

def append (els : List T) : Call (Array T) Unit := do
  insert (← Call.view eSize) els

/-- A turn of the loop of `remove`; `old` as for `insertTurn`. -/
def removeTurn (old : Option (List (Option T))) (size numEls i : Nat)
    (selectedBuf : List (Option T)) : Outcome (List (Option T)) :=
  if (i + numEls) % sizeRange < size then
    (load (old.getD selectedBuf) ((i + numEls) % sizeRange)).bind fun el =>
      addElement selectedBuf i el
  else
    .ok selectedBuf

def removed (pos numEls : Nat) (a : Array T) : Outcome (Array T) :=
  (upsized (minus a.eSize numEls)).bind fun potentialNewCap =>
  (if potentialNewCap < a.eCap / 2 then
    (copyUpTo pos a.eBuf (newCArray T potentialNewCap)).bind fun newBuf =>
      .ok (potentialNewCap, some a.eBuf, newBuf)
  else
    .ok (a.eCap, none, a.eBuf)).bind fun (eCap, old, selectedBuf) =>
  (forCount (removeTurn old a.eSize numEls) pos (a.eSize - pos) selectedBuf).bind fun eBuf =>
  .ok { eBuf, eCap, eSize := minus a.eSize numEls, eSorted := a.eSorted }

def remove (pos numEls : Nat) : Call (Array T) Unit := do
  if (pos + numEls) % sizeRange > (← Call.view eSize) then
    Call.raise "Position out of range."
  else
    Call.become (removed pos numEls)

def removeFront : Call (Array T) Unit := do
  if (← Call.view eSize) = 0 then
    Call.raise "No element to remove."
  else
    remove 0 1

def removeBack : Call (Array T) Unit := do
  let size ← Call.view eSize
  if size = 0 then
    Call.raise "No element to remove."
  else
    remove (size - 1) 1

/-- The loop of `arrayFind`, with `n` elements to go. -/
def findFrom [BEq T] (eBuf : List (Option T)) (el : T) (i : Nat) : Nat → Outcome Int
  | 0 => .ok (-1)
  | n + 1 => (load eBuf i).bind fun e => if e == el then .ok i else findFrom eBuf el (i + 1) n

def arrayFind [BEq T] (eBuf : List (Option T)) (size : Nat) (el : T) : Outcome Int :=
  findFrom eBuf el 0 size

def find [BEq T] (el : T) : Call (Array T) Int := fun a => (arrayFind a.eBuf a.eSize el, a)

def removeEl [BEq T] (el : T) : Call (Array T) Unit := do
  let i ← find el
  if i ≠ -1 then remove i.toNat 1 else pure ()

def uniqueAppend [BEq T] (el : T) : Call (Array T) Unit := do
  let i ← find el
  if i ≠ -1 then pure () else append [el]

end Array
end WylesLibs.Datastructures
