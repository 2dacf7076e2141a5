import WylesLibs.Json.Value
import WylesLibs.Library.Calls
import WylesLibs.EStream.Types

/-! `JsonObject` as its clients use it: nodes that are added, looked up and removed by their keys,
and its iterator. -/
namespace WylesLibs.Parser.Json
open Library
variable {D σ : Type}

/-- The loop that erases the element `i` of a vector counts from `idx` on, and has counted the
element that it erases. -/
def eraseLoop {α : Type} (i : Nat) : Nat → List α → List α × Nat
  | idx, [] => ([], idx)
  | idx, a :: as =>
    if idx = i then (as, idx + 1)
    else
      let r := eraseLoop i (idx + 1) as
      (a :: r.1, r.2)

namespace JsonArray

def remove (arr : JsonArray D) (i : Nat) : JsonArray D :=
  { arr with values := (eraseLoop i 0 arr.values).1 }

/-- `at` of the vector, which checks its argument. -/
def valueAt (arr : JsonArray D) (i : Nat) : Outcome (JsonValue D) :=
  match arr.values[i]? with
  | some value => .ok value
  | none => .thrown "vector::_M_range_check"

end JsonArray

namespace JsonObject

/-- The loop of `find` over the indices: each key it compares with is the one at `e`, whose first
value is no index. -/
def findLoop (keys : List (List UInt8)) (key : List UInt8) : List Nat → Nat → Outcome Nat
  | [], e => .ok e
  | i :: is, e =>
    match keys[e]? with
    | none => .undef
    | some k => findLoop keys key is (if key = k then i else e)

def find (obj : JsonObject D) (key : List UInt8) : Outcome Nat :=
  findLoop obj.keys key (List.range obj.keys.length) Stream.sizeMax

/-- The overloads of `addNode` differ in how they make the value. -/
def addNode (key : List UInt8) (value : JsonValue D) : Call (JsonObject D) Unit :=
  Call.modify fun obj =>
    let obj := obj.addKey key
    { obj with values := obj.values.addValue value }

def removeNode (key : List UInt8) : Call (JsonObject D) Unit :=
  Call.become fun obj =>
    (obj.find key).bind fun i =>
      let r := eraseLoop i 0 obj.keys
      let obj := { obj with keys := r.1 }
      if r.2 < obj.values.values.length then .ok { obj with values := obj.values.remove r.2 }
      else .ok obj

/-- `at` of the object. -/
def valueAt (obj : JsonObject D) (key : List UInt8) : Outcome (JsonValue D) :=
  (obj.find key).bind fun i =>
    if i = Stream.sizeMax then .thrown "Key not found." else obj.values.valueAt i

/-! Histories of an object. -/

inductive NodeCall (D : Type) where
  | addNode (key : List UInt8) (value : JsonValue D)
  | removeNode (key : List UInt8)
  | valueAt (key : List UInt8)

/-- What a call does, and the value it answers with if it is a lookup. -/
def call : NodeCall D → Call (JsonObject D) (Option (JsonValue D))
  | .addNode key value => do
    addNode key value
    pure none
  | .removeNode key => do
    removeNode key
    pure none
  | .valueAt key => fun obj => ((obj.valueAt key).bind fun value => .ok (some value), obj)

/-- The same calls on the pairs of an object, in the order in which they were added. -/
def pairsCall : NodeCall D → Call (List (List UInt8 × JsonValue D)) (Option (JsonValue D))
  | .addNode key value => do
    Call.modify fun pairs => pairs ++ [(key, value)]
    pure none
  | .removeNode key => do
    Call.modify fun pairs => pairs.filter fun p => p.1 ≠ key
    pure none
  | .valueAt key => fun pairs =>
    match pairs.lookup key with
    | some value => (.ok (some value), pairs)
    | none => (.thrown "Key not found.", pairs)

/-- Keys are added once only, and indices are values of a `size_t`. -/
def Distinct (pairs : List (List UInt8 × JsonValue D)) (c : NodeCall D) : Prop :=
  pairs.length ≤ Stream.sizeMax ∧
    match c with
    | .addNode key _ => key ∉ pairs.map Prod.fst
    | _ => True

/-- A key is looked for in an object without nodes only. -/
def LooksUpInNone (pairs : List (List UInt8 × JsonValue D)) : NodeCall D → Prop
  | .addNode _ _ => True
  | .removeNode _ | .valueAt _ => pairs = []

structure Represents (obj : JsonObject D) (pairs : List (List UInt8 × JsonValue D)) : Prop where
  keys : obj.keys = pairs.map Prod.fst
  values : obj.values.values = pairs.map Prod.snd

/-- The same answer, and the object still stands for the pairs. -/
structure Agrees (r : Outcome (Option (JsonValue D)) × JsonObject D)
    (q : Outcome (Option (JsonValue D)) × List (List UInt8 × JsonValue D)) : Prop where
  answer : r.1 = q.1
  represents : Represents r.2 q.2

section
variable {obj : JsonObject D} {pairs : List (List UInt8 × JsonValue D)} {key : List UInt8}

theorem find_nil (h : obj.keys = []) (key : List UInt8) : obj.find key = .ok Stream.sizeMax := by
  rw [find, h]
  rfl

/-- The first comparison is with a key past the end. -/
theorem find_of_ne_nil (h : obj.keys ≠ []) (hsize : obj.keys.length ≤ Stream.sizeMax)
    (key : List UInt8) : obj.find key = .undef := by
  obtain ⟨n, hn⟩ : ∃ n, obj.keys.length = n + 1 :=
    Nat.exists_eq_succ_of_ne_zero (List.length_eq_zero_iff.not.mpr h)
  have hnone : obj.keys[Stream.sizeMax]? = none := List.getElem?_eq_none hsize
  rw [find, hn, List.range_succ_eq_map, findLoop, hnone]

/-- A call is answered as it should be just if it looks for no key, or has none to compare with. -/
theorem call_agrees_iff (c : NodeCall D) (hR : Represents obj pairs) (hd : Distinct pairs c) :
    Agrees (call c obj) (pairsCall c pairs) ↔ LooksUpInNone pairs c := by
  have hnil : obj.keys = [] ↔ pairs = [] := by rw [hR.keys, List.map_eq_nil_iff]
  have hsize : obj.keys.length ≤ Stream.sizeMax := by
    rw [hR.keys, List.length_map]
    exact hd.1
  cases c with
  | addNode key value =>
    refine iff_of_true ⟨rfl, ?_, ?_⟩ trivial
    · have hkeys : (call (.addNode key value) obj).2.keys = obj.keys ++ [key] := rfl
      have hpairs : (pairsCall (.addNode key value) pairs).2 = pairs ++ [(key, value)] := rfl
      rw [hkeys, hpairs, hR.keys, List.map_append]
      rfl
    · have hvalues : (call (.addNode key value) obj).2.values.values =
          obj.values.values ++ [value] := rfl
      have hpairs : (pairsCall (.addNode key value) pairs).2 = pairs ++ [(key, value)] := rfl
      rw [hvalues, hpairs, hR.values, List.map_append]
      rfl
  | removeNode key =>
    by_cases hp : pairs = []
    · have hkeys := hnil.mpr hp
      have hvalues : obj.values.values = [] := by rw [hR.values, hp]; rfl
      have hremove : call (.removeNode key) obj = (.ok none, { obj with keys := [] }) := by
        have hcall : removeNode key obj = (.ok (), { obj with keys := [] }) := by
          apply Call.become_of_ok
          simp [find_nil hkeys, hkeys, eraseLoop, hvalues]
        exact Call.bind_of_ok hcall
      refine iff_of_true ?_ hp
      rw [hremove, hp]
      exact ⟨rfl, rfl, hvalues⟩
    · have hfind := find_of_ne_nil (hnil.not.mpr hp) hsize key
      have hremove : (call (.removeNode key) obj).1 = .undef := by
        simp [call, removeNode, Call.become, hfind, bind]
      refine iff_of_false (fun h => ?_) hp
      have hanswer := h.answer
      rw [hremove] at hanswer
      cases hanswer
  | valueAt key =>
    by_cases hp : pairs = []
    · have hat : obj.valueAt key = .thrown "Key not found." := by
        simp [valueAt, find_nil (hnil.mpr hp)]
      refine iff_of_true ?_ hp
      subst hp
      refine ⟨?_, hR⟩
      simp [call, pairsCall, hat]
    · have hat : obj.valueAt key = .undef := by
        simp [valueAt, find_of_ne_nil (hnil.not.mpr hp) hsize]
      refine iff_of_false (fun h => ?_) hp
      have hanswer := h.answer
      simp only [call, pairsCall, hat, Outcome.bind_undef] at hanswer
      split at hanswer
      · cases hanswer
      · cases hanswer

end

/-- An object answers a whole history as the pairs do just if keys are looked for only while it has
no nodes. -/
theorem history_iff (depth : Nat) (history : List (NodeCall D))
    (h : Call.Allowed pairsCall Distinct history []) :
    List.Forall₂ Agrees (Call.trace call history ⟨depth, [], ⟨depth, []⟩⟩)
        (Call.trace pairsCall history []) ↔
      Call.Allowed pairsCall LooksUpInNone history [] :=
  Call.trace_related_iff (R := Represents) (fun c _ _ hR hd => call_agrees_iff c hR hd)
    (fun _ _ hQ => hQ.represents) ⟨rfl, rfl⟩ h

theorem history_two_nodes :
    List.Forall₂ Agrees
        (Call.trace call [.valueAt [97], .addNode [97] (.boolean true), .addNode [98] .null]
          (⟨0, [], ⟨0, []⟩⟩ : JsonObject Unit))
        (Call.trace pairsCall
          [.valueAt [97], .addNode [97] (.boolean true), .addNode [98] .null] []) := by
  refine (history_iff 0 _ ?_).mpr ?_
  · have hone : Distinct [([97], .boolean true)] (.addNode [98] (.null : JsonValue Unit)) :=
      ⟨by simp [Stream.sizeMax], by simp⟩
    exact ⟨⟨Nat.zero_le _, trivial⟩, ⟨Nat.zero_le _, List.not_mem_nil⟩, hone, trivial⟩
  · exact ⟨rfl, trivial, trivial, trivial⟩

/-- The value of the only key of an object is not found. -/
theorem history_lookup : ¬ ∀ (depth : Nat) (history : List (NodeCall Unit)),
    Call.Allowed pairsCall Distinct history [] →
    List.Forall₂ Agrees (Call.trace call history ⟨depth, [], ⟨depth, []⟩⟩)
      (Call.trace pairsCall history []) := by
  intro hevery
  have hone : Distinct [([97], .boolean true)] (.valueAt [97] : NodeCall Unit) :=
    ⟨by simp [Stream.sizeMax], trivial⟩
  have hall := hevery 0 [.addNode [97] (.boolean true), .valueAt [97]]
    ⟨⟨Nat.zero_le _, List.not_mem_nil⟩, hone, trivial⟩
  simp only [Call.trace, List.forall₂_cons] at hall
  have hundef : (call (.valueAt [97])
      (⟨0, [[97]], ⟨0, [.boolean true]⟩⟩ : JsonObject Unit)).1 = .undef := by
    simp only [call, valueAt, @find_of_ne_nil _ ⟨0, [[97]], ⟨0, [.boolean true]⟩⟩
      (List.cons_ne_nil _ _) (by simp [Stream.sizeMax]), Outcome.bind_undef]
  have hvalue : (pairsCall (.valueAt [97]) [([97], (.boolean true : JsonValue Unit))]).1 =
      .ok (some (.boolean true)) := rfl
  cases hundef.symm.trans (hall.2.1.answer.trans hvalue)

end JsonObject
end WylesLibs.Parser.Json
