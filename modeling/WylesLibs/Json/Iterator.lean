import WylesLibs.Json.Object

/-! The iterator of `JsonObject`, and the loops over an object. -/
namespace WylesLibs.Parser.Json
open Library
variable {D σ : Type}

/-- An iterator of an object, whose keys and values it refers to. -/
structure Iterator where
  i : Nat
  reverse : Bool

namespace JsonObject

def sizeRange : Nat := 2 ^ 64

/-- The constructor of the iterator. -/
def iterator (obj : JsonObject D) (i : Nat) (reverse : Bool) : Outcome Iterator :=
  if i > obj.values.values.length then .thrown "Fail fast." else .ok ⟨i, reverse⟩

def beginAt (obj : JsonObject D) (s : Nat) : Outcome Iterator := obj.iterator s false
def endAt (obj : JsonObject D) (e : Nat) : Outcome Iterator := obj.iterator e false

/-- `values.size() - 1`, as a `size_t`. -/
def lastIndex (obj : JsonObject D) : Nat :=
  if obj.values.values.length = 0 then Stream.sizeMax else obj.values.values.length - 1

def rbegin (obj : JsonObject D) : Outcome Iterator := obj.iterator obj.lastIndex true
def rend (obj : JsonObject D) (e : Nat) : Outcome Iterator := obj.iterator e true

def increased (it : Iterator) : Iterator := { it with i := (it.i + 1) % sizeRange }
def decreased (it : Iterator) : Iterator := { it with i := (it.i + sizeRange - 1) % sizeRange }

/-- `operator++()` -/
def preIncrement (obj : JsonObject D) (it : Iterator) : Iterator :=
  if it.i ≤ obj.lastIndex then if it.reverse then decreased it else increased it else it

/-- `operator--()` -/
def preDecrement (obj : JsonObject D) (it : Iterator) : Iterator :=
  if it.i ≤ obj.lastIndex then if it.reverse then increased it else decreased it else it

/-- `operator++(int)`: the iterator it returns, and the one it leaves. -/
def postIncrement (obj : JsonObject D) (it : Iterator) : Iterator × Iterator :=
  (it, if it.reverse then obj.preDecrement it else obj.preIncrement it)

/-- `operator*` -/
def node (obj : JsonObject D) (it : Iterator) : Outcome (List UInt8 × JsonValue D) :=
  match obj.keys[it.i]? with
  | none => .thrown "vector::_M_range_check"
  | some key => (obj.values.valueAt it.i).bind fun value => .ok (key, value)

/-- `for (auto it = b; it != e; ++it)`. -/
def forNodes (obj : JsonObject D) (body : List UInt8 × JsonValue D → Call σ Unit) (e : Iterator) :
    Nat → Iterator → Call σ Unit
  | 0, _ => Call.spent
  | steps + 1, it =>
    if it.i = e.i then pure ()
    else do
      let node ← Call.lift (obj.node it)
      body node
      forNodes obj body e steps (obj.preIncrement it)

/-- `for (auto node: obj)`. -/
def forEach (obj : JsonObject D) (body : List UInt8 × JsonValue D → Call σ Unit) : Call σ Unit := do
  let b ← Call.lift (obj.beginAt 0)
  let e ← Call.lift (obj.endAt obj.values.values.length)
  obj.forNodes body e (obj.values.values.length + 1) b

/-- The same from `rbegin` to `rend`. -/
def forEachReverse (obj : JsonObject D) (body : List UInt8 × JsonValue D → Call σ Unit) :
    Call σ Unit := do
  let b ← Call.lift obj.rbegin
  let e ← Call.lift (obj.rend Stream.sizeMax)
  obj.forNodes body e (obj.values.values.length + 1) b

section
variable {obj : JsonObject D} {pairs : List (List UInt8 × JsonValue D)}

theorem Represents.length (h : Represents obj pairs) : obj.values.values.length = pairs.length := by
  rw [h.values, List.length_map]

theorem Represents.node (h : Represents obj pairs) {i : Nat} (hi : i < pairs.length)
    (reverse : Bool) : obj.node ⟨i, reverse⟩ = .ok pairs[i] := by
  have hkey : obj.keys[i]? = some pairs[i].1 := by simp [h.keys, hi]
  have hvalue : obj.values.values[i]? = some pairs[i].2 := by simp [h.values, hi]
  simp [JsonObject.node, JsonArray.valueAt, hkey, hvalue]

/-- Forwards a loop takes the nodes in their order, and ends. -/
theorem forNodes_eq (h : Represents obj pairs) (hsize : pairs.length ≤ Stream.sizeMax)
    (body : List UInt8 × JsonValue D → Call σ Unit) {steps i : Nat} (hi : i ≤ pairs.length)
    (hsteps : pairs.length < i + steps) :
    obj.forNodes body ⟨pairs.length, false⟩ steps ⟨i, false⟩ = Call.each body (pairs.drop i) := by
  induction steps generalizing i with
  | zero => omega
  | succ steps ih =>
    rw [forNodes]
    by_cases hend : i = pairs.length
    · rw [if_pos hend, hend, List.drop_length]
      rfl
    · have hlt : i < pairs.length := by omega
      have hlast : i ≤ obj.lastIndex := by
        rw [lastIndex, h.length, if_neg (by omega)]
        omega
      have hnext : obj.preIncrement ⟨i, false⟩ = ⟨i + 1, false⟩ := by
        have hmod : (i + 1) % sizeRange = i + 1 := Nat.mod_eq_of_lt (by
          simp only [Stream.sizeMax, sizeRange] at hsize ⊢
          omega)
        simp only [preIncrement, if_pos hlast, increased, hmod]
        rfl
      rw [if_neg hend, h.node hlt, Call.bind_lift_ok, hnext, ih (by omega) (by omega),
        List.drop_eq_getElem_cons hlt]
      rfl

theorem forEach_eq (h : Represents obj pairs) (hsize : pairs.length ≤ Stream.sizeMax)
    (body : List UInt8 × JsonValue D → Call σ Unit) : obj.forEach body = Call.each body pairs := by
  have hbegin : obj.beginAt 0 = .ok ⟨0, false⟩ := by
    rw [beginAt, iterator, if_neg (Nat.not_lt_zero _)]
  have hend : obj.endAt obj.values.values.length = .ok ⟨pairs.length, false⟩ := by
    rw [endAt, iterator, if_neg (Nat.lt_irrefl _), h.length]
  rw [forEach, hbegin, Call.bind_lift_ok, hend, Call.bind_lift_ok, h.length,
    forNodes_eq h hsize body (Nat.zero_le _) (by omega), List.drop_zero]

/-! What the loops are for. -/

/-- A body that writes down the nodes it is given. -/
def visit (node : List UInt8 × JsonValue D) : Call (List (List UInt8 × JsonValue D)) Unit :=
  Call.modify fun seen => seen ++ [node]

/-- Both loops take the nodes in their order, and the increments agree. -/
structure Iterates (obj : JsonObject D) (pairs : List (List UInt8 × JsonValue D)) : Prop where
  forward : obj.forEach visit [] = (.ok (), pairs)
  backward : obj.forEachReverse visit [] = (.ok (), pairs.reverse)
  increments : ∀ it, (obj.postIncrement it).2 = obj.preIncrement it

theorem each_visit (pairs seen : List (List UInt8 × JsonValue D)) :
    Call.each visit pairs seen = (.ok (), seen ++ pairs) := by
  induction pairs generalizing seen with
  | nil => simp [Call.each]
  | cons node pairs ih =>
    have hvisit : visit node seen = (.ok (), seen ++ [node]) := rfl
    rw [Call.each, Call.bind_of_ok hvisit, ih, List.append_assoc]
    rfl

theorem forward_visits (h : Represents obj pairs) (hsize : pairs.length ≤ Stream.sizeMax) :
    obj.forEach visit [] = (.ok (), pairs) := by
  rw [forEach_eq h hsize, each_visit, List.nil_append]

/-- The post-increment of a reverse iterator moves against the pre-increment. -/
theorem postIncrement_reverse {it : Iterator} (hi : it.i ≤ obj.lastIndex) (hr : it.reverse = true) :
    obj.preIncrement it = decreased it ∧ (obj.postIncrement it).2 = increased it := by
  simp [postIncrement, preIncrement, preDecrement, hi, hr]

/-- There is no end to iterate backwards to: its index is out of the range of the constructor. -/
theorem rend_throws (hsize : obj.values.values.length < Stream.sizeMax) :
    obj.rend Stream.sizeMax = .thrown "Fail fast." := if_pos hsize

theorem not_iterates (h : Represents obj pairs) (hsize : pairs.length < Stream.sizeMax) :
    ¬ Iterates obj pairs := by
  intro hit
  have hbackward := hit.backward
  have hrend := @rend_throws _ obj (by rwa [h.length])
  rw [forEachReverse, hrend] at hbackward
  cases hb : obj.rbegin <;> simp [bind, hb] at hbackward

theorem not_iterates_one : ¬ Iterates (⟨0, [[97]], ⟨0, [.null]⟩⟩ : JsonObject Unit) [([97], .null)] :=
  not_iterates ⟨rfl, rfl⟩ (by simp [Stream.sizeMax])

/-- An object without nodes cannot be iterated over backwards either. -/
theorem iterates_empty : ¬ ∀ (obj : JsonObject Unit) (pairs : List (List UInt8 × JsonValue Unit)),
    Represents obj pairs → pairs.length < Stream.sizeMax → Iterates obj pairs := by
  intro hevery
  have hit := hevery ⟨0, [], ⟨0, []⟩⟩ [] ⟨rfl, rfl⟩ (by simp [Stream.sizeMax])
  have hbackward := hit.backward
  have hrend : rend (⟨0, [], ⟨0, []⟩⟩ : JsonObject Unit) Stream.sizeMax = .thrown "Fail fast." :=
    rend_throws (by simp [Stream.sizeMax])
  rw [forEachReverse, hrend] at hbackward
  cases hb : rbegin (⟨0, [], ⟨0, []⟩⟩ : JsonObject Unit) <;> simp [bind, hb] at hbackward

end

end JsonObject
end WylesLibs.Parser.Json
