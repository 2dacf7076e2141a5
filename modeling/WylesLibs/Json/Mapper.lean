import WylesLibs.Json.Iterator
import WylesLibs.Library.Links

/-! Maps that are filled from the nodes of a JSON object. -/
namespace WylesLibs.Parser.Json
open Library
variable {D T : Type}

inductive JsonType where
  | nullType | boolean | number | string | array | object
  deriving DecidableEq

def JsonValue.type : JsonValue D → JsonType
  | .null => .nullType
  | .boolean _ => .boolean
  | .number _ _ _ => .number
  | .string _ => .string
  | .array _ _ => .array
  | .object _ _ _ => .object

def errMsgSetVariableFromJsonValue : String :=
  "Failed to set variable from json value. Invalid type."

def setVariableFromJsonValueBool : JsonValue D → Outcome Bool
  | .boolean b => .ok b
  | _ => .thrown errMsgSetVariableFromJsonValue

def setVariableFromJsonValueDouble : JsonValue D → Outcome D
  | .number d _ _ => .ok d
  | _ => .thrown errMsgSetVariableFromJsonValue

def setVariableFromJsonValueJstring : JsonValue D → Outcome (List UInt8)
  | .string s => .ok s
  | _ => .thrown errMsgSetVariableFromJsonValue

/-- `std::map<std::string, T>` -/
abbrev VariableMap (T : Type) := Finmap fun _ : List UInt8 => T

/-- The body of the loop over the nodes: the key of the node is not looked at. -/
def setMapElement (type : JsonType) (setVariable : JsonValue D → Outcome T) (key : List UInt8)
    (node : List UInt8 × JsonValue D) : Call (VariableMap T) Unit :=
  if node.2.type = type then do
    let el ← Call.lift (setVariable node.2)
    Call.modify fun map => map.insert key el
  else Call.raise errMsgSetVariableFromJsonValue

/-- `setMapVariableFromJsonValue<T>`, whose versions differ in the type they ask for and in how they
make a value of it. -/
def setMapVariable (type : JsonType) (setVariable : JsonValue D → Outcome T) (value : JsonValue D)
    (key : List UInt8) : Call (VariableMap T) Unit :=
  match value with
  | .object depth keys values =>
    JsonObject.forEach ⟨depth, keys, ⟨depth, values⟩⟩ (setMapElement type setVariable key)
  | _ => Call.raise errMsgSetVariableFromJsonValue

/-- For a type that is made of an object; how is up to its own `setVariableFromJsonValue`. -/
def setMapVariableFromJsonValue (setVariable : JsonValue D → Outcome T) :
    JsonValue D → List UInt8 → Call (VariableMap T) Unit :=
  setMapVariable .object setVariable

def setMapVariableFromJsonValueBool : JsonValue D → List UInt8 → Call (VariableMap Bool) Unit :=
  setMapVariable .boolean setVariableFromJsonValueBool

def setMapVariableFromJsonValueDouble : JsonValue D → List UInt8 → Call (VariableMap D) Unit :=
  setMapVariable .number setVariableFromJsonValueDouble

def setMapVariableFromJsonValueJstring :
    JsonValue D → List UInt8 → Call (VariableMap (List UInt8)) Unit :=
  setMapVariable .string setVariableFromJsonValueJstring

/-- Values of the type can be set, and no others are of it. -/
def Sets (type : JsonType) (setVariable : JsonValue D → Outcome T) : Prop :=
  ∀ value : JsonValue D, value.type = type → ∃ el, setVariable value = .ok el

theorem sets_bool : Sets .boolean (setVariableFromJsonValueBool (D := D)) := by
  intro value h
  cases value with
  | boolean b => exact ⟨b, rfl⟩
  | _ => cases h

theorem sets_double : Sets .number (setVariableFromJsonValueDouble (D := D)) := by
  intro value h
  cases value with
  | number d _ _ => exact ⟨d, rfl⟩
  | _ => cases h

theorem sets_jstring : Sets .string (setVariableFromJsonValueJstring (D := D)) := by
  intro value h
  cases value with
  | string s => exact ⟨s, rfl⟩
  | _ => cases h

section
variable {type : JsonType} {setVariable : JsonValue D → Outcome T} {key : List UInt8}
  {pairs : List (List UInt8 × JsonValue D)} {map : VariableMap T}

/-- What the loop leaves of some elements: the last one, under the key it was given. -/
def stored (key : List UInt8) (els : List T) (map : VariableMap T) : VariableMap T :=
  match els.getLast? with
  | none => map
  | some el => map.insert key el

theorem stored_insert (els : List T) (el : T) (map : VariableMap T) :
    stored key els (map.insert key el) = stored key (el :: els) map := by
  cases hlast : els.getLast? with
  | none =>
    obtain rfl : els = [] := List.getLast?_eq_none_iff.mp hlast
    rfl
  | some last =>
    have hcons : (el :: els).getLast? = some last := by
      rw [List.getLast?_cons, hlast]
      rfl
    simp only [stored, hlast, hcons, Finmap.insert_insert]

/-- The loop over nodes whose values are all of the type. -/
theorem each_typed (hset : Sets type setVariable) (htyped : ∀ node ∈ pairs, node.2.type = type)
    (map : VariableMap T) :
    ∃ els, pairs.map (fun node => setVariable node.2) = els.map .ok ∧
      Call.each (setMapElement type setVariable key) pairs map = (.ok (), stored key els map) := by
  induction pairs generalizing map with
  | nil => exact ⟨[], rfl, rfl⟩
  | cons node pairs ih =>
    obtain ⟨hnode, hpairs⟩ := List.forall_mem_cons.mp htyped
    obtain ⟨el, hel⟩ := hset node.2 hnode
    obtain ⟨els, hels, heach⟩ := ih hpairs (map.insert key el)
    have hstep : setMapElement type setVariable key node map = (.ok (), map.insert key el) := by
      rw [setMapElement, if_pos hnode, hel]
      rfl
    refine ⟨el :: els, ?_, ?_⟩
    · rw [List.map_cons, hel, hels]
      rfl
    · rw [Call.each, Call.bind_of_ok hstep, heach, stored_insert]

/-- The loop up to a node of another type. -/
theorem each_other (hset : Sets type setVariable) {pre post : List (List UInt8 × JsonValue D)}
    {bad : List UInt8 × JsonValue D} (hpre : ∀ node ∈ pre, node.2.type = type)
    (hbad : bad.2.type ≠ type) (map : VariableMap T) :
    ∃ els, pre.map (fun node => setVariable node.2) = els.map .ok ∧
      Call.each (setMapElement type setVariable key) (pre ++ bad :: post) map =
        (.thrown errMsgSetVariableFromJsonValue, stored key els map) := by
  induction pre generalizing map with
  | nil =>
    have hstep : setMapElement type setVariable key bad map =
        (.thrown errMsgSetVariableFromJsonValue, map) := by
      rw [setMapElement, if_neg hbad]
      rfl
    exact ⟨[], rfl, Call.bind_of_thrown hstep⟩
  | cons node pre ih =>
    obtain ⟨hnode, hpre⟩ := List.forall_mem_cons.mp hpre
    obtain ⟨el, hel⟩ := hset node.2 hnode
    obtain ⟨els, hels, heach⟩ := ih hpre (map.insert key el)
    have hstep : setMapElement type setVariable key node map = (.ok (), map.insert key el) := by
      rw [setMapElement, if_pos hnode, hel]
      rfl
    refine ⟨el :: els, ?_, ?_⟩
    · rw [List.map_cons, hel, hels]
      rfl
    · rw [List.cons_append, Call.each, Call.bind_of_ok hstep, heach, stored_insert]

/-- All values of the type: every key stands for the value of its node. Another value: nothing has
changed when it throws. -/
structure SetsNodes (type : JsonType) (setVariable : JsonValue D → Outcome T) (key : List UInt8)
    (obj : JsonObject D) (pairs : List (List UInt8 × JsonValue D)) (map : VariableMap T) :
    Prop where
  typed : (∀ node ∈ pairs, node.2.type = type) →
    ∃ map', setMapVariable type setVariable obj.toValue key map = (.ok (), map') ∧
      ∀ node ∈ pairs, ∃ el, setVariable node.2 = .ok el ∧ map'.lookup node.1 = some el
  other : (∃ node ∈ pairs, node.2.type ≠ type) →
    ∃ w, setMapVariable type setVariable obj.toValue key map = (.thrown w, map)

/-- Where all values are of the type, each node that has the key which is passed has the value of
the last one, and the map already has those of the other nodes. Where one is not, the map already
has under this key the value of the node in front of the first such, if there is one. -/
structure Harmless (type : JsonType) (setVariable : JsonValue D → Outcome T) (key : List UInt8)
    (pairs : List (List UInt8 × JsonValue D)) (map : VariableMap T) : Prop where
  typed : (∀ node ∈ pairs, node.2.type = type) → ∀ node ∈ pairs,
    if node.1 = key then ∀ last ∈ pairs.getLast?, setVariable last.2 = setVariable node.2
    else ∃ el, setVariable node.2 = .ok el ∧ map.lookup node.1 = some el
  other : ∀ pre bad post, pairs = pre ++ bad :: post → (∀ node ∈ pre, node.2.type = type) →
    bad.2.type ≠ type → ∀ last ∈ pre.getLast?, ∃ el, setVariable last.2 = .ok el ∧
      map.lookup key = some el

theorem insert_eq_self_iff {key : List UInt8} {el : T} {map : VariableMap T} :
    map.insert key el = map ↔ map.lookup key = some el := by
  constructor
  · intro h
    rw [← h, Finmap.lookup_insert]
  · intro h
    refine Finmap.ext_lookup fun k => ?_
    by_cases hk : k = key
    · rw [hk, Finmap.lookup_insert, h]
    · rw [Finmap.lookup_insert_of_ne _ hk]

/-- What is left under the key is the value of the last of the nodes. -/
theorem stored_last {els : List T} (hels : pairs.map (fun node => setVariable node.2) = els.map .ok)
    {last : List UInt8 × JsonValue D} (hlast : last ∈ pairs.getLast?) (map : VariableMap T) :
    ∃ el, setVariable last.2 = .ok el ∧ stored key els map = map.insert key el := by
  have hmap := congrArg List.getLast? hels
  rw [List.getLast?_map, List.getLast?_map, hlast] at hmap
  cases hel : els.getLast? with
  | none =>
    rw [hel] at hmap
    cases hmap
  | some el =>
    rw [hel] at hmap
    exact ⟨el, Option.some.inj hmap, by simp only [stored, hel]⟩

theorem setMapVariable_iff (hset : Sets type setVariable) {obj : JsonObject D}
    (h : JsonObject.Represents obj pairs) (hsize : pairs.length ≤ Stream.sizeMax)
    (map : VariableMap T) :
    SetsNodes type setVariable key obj pairs map ↔ Harmless type setVariable key pairs map := by
  have hloop : setMapVariable type setVariable obj.toValue key =
      Call.each (setMapElement type setVariable key) pairs :=
    @JsonObject.forEach_eq _ _ ⟨obj.depth, obj.keys, ⟨obj.depth, obj.values.values⟩⟩ _
      ⟨h.keys, h.values⟩ hsize _
  have hgetLast : ∀ node ∈ pairs, ∃ last, last ∈ pairs.getLast? := by
    intro node hnode
    exact ⟨_, List.getLast?_eq_some_getLast (List.ne_nil_of_mem hnode)⟩
  constructor
  · intro hnodes
    constructor
    · intro htyped node hnode
      obtain ⟨map', hrun, hlookup⟩ := hnodes.typed htyped
      obtain ⟨els, hels, heach⟩ := @each_typed _ _ _ _ key _ hset htyped map
      rw [hloop, heach] at hrun
      obtain rfl : stored key els map = map' := (Prod.mk.inj hrun).2
      obtain ⟨el, hel, hfound⟩ := hlookup node hnode
      by_cases hkey : node.1 = key
      · rw [if_pos hkey]
        intro last hlast
        obtain ⟨el', hel', hstored⟩ := stored_last hels hlast map
        rw [hstored, hkey, Finmap.lookup_insert] at hfound
        rw [hel', hel, Option.some.inj hfound]
      · rw [if_neg hkey]
        obtain ⟨last, hlast⟩ := hgetLast node hnode
        obtain ⟨el', -, hstored⟩ := stored_last hels hlast map
        rw [hstored, Finmap.lookup_insert_of_ne _ hkey] at hfound
        exact ⟨el, hel, hfound⟩
    · intro pre bad post hpairs hpre hbad last hlast
      obtain ⟨w, hrun⟩ := hnodes.other ⟨bad, by simp [hpairs], hbad⟩
      obtain ⟨els, hels, heach⟩ := @each_other _ _ _ _ key hset _ post _ hpre hbad map
      rw [hloop, hpairs, heach] at hrun
      have hsame : stored key els map = map := (Prod.mk.inj hrun).2
      obtain ⟨el, hel, hstored⟩ := stored_last hels hlast map
      exact ⟨el, hel, insert_eq_self_iff.mp (hstored.symm.trans hsame)⟩
  · intro hharmless
    constructor
    · intro htyped
      obtain ⟨els, hels, heach⟩ := @each_typed _ _ _ _ key _ hset htyped map
      refine ⟨stored key els map, by rw [hloop, heach], ?_⟩
      intro node hnode
      have hmeets := hharmless.typed htyped node hnode
      obtain ⟨last, hlast⟩ := hgetLast node hnode
      obtain ⟨el', hel', hstored⟩ := stored_last hels hlast map
      by_cases hkey : node.1 = key
      · rw [if_pos hkey] at hmeets
        refine ⟨el', (hmeets last hlast).symm.trans hel', ?_⟩
        rw [hstored, hkey, Finmap.lookup_insert]
      · rw [if_neg hkey] at hmeets
        obtain ⟨el, hel, hfound⟩ := hmeets
        refine ⟨el, hel, ?_⟩
        rw [hstored, Finmap.lookup_insert_of_ne _ hkey, hfound]
    · rintro ⟨node, hnode, hother⟩
      obtain ⟨pre, bad, post, hpairs, hpre, hbad⟩ : ∃ pre bad post, pairs = pre ++ bad :: post ∧
          (∀ node ∈ pre, node.2.type = type) ∧ bad.2.type ≠ type := by
        obtain ⟨pre, bad, post, hl, hpre, hbad, -⟩ | ⟨hnone, -⟩ :=
          first_match pairs fun node => decide (node.2.type ≠ type)
        · exact ⟨pre, bad, post, hl, fun n hn => by simpa using hpre n hn, by simpa using hbad⟩
        · exact absurd (hnone node hnode) (by simpa using hother)
      obtain ⟨els, hels, heach⟩ := @each_other _ _ _ _ key hset _ post _ hpre hbad map
      refine ⟨errMsgSetVariableFromJsonValue, ?_⟩
      rw [hloop, hpairs, heach]
      cases hlast : pre.getLast? with
      | none =>
        obtain rfl : pre = [] := List.getLast?_eq_none_iff.mp hlast
        obtain rfl : els = [] := by simpa using hels.symm
        rfl
      | some last =>
        obtain ⟨el, hel, hfound⟩ := hharmless.other pre bad post hpairs hpre hbad last hlast
        obtain ⟨el', hel', hstored⟩ := stored_last hels hlast map
        obtain rfl : el' = el := Outcome.ok.inj (hel'.symm.trans hel)
        rw [hstored, insert_eq_self_iff.mpr hfound]

end

/-- `{"a": true}`, with the key `"a"` passed. -/
theorem setMapVariable_own_key : SetsNodes .boolean setVariableFromJsonValueBool [97]
    (⟨0, [[97]], ⟨0, [.boolean true]⟩⟩ : JsonObject Unit) [([97], .boolean true)] ∅ := by
  refine (setMapVariable_iff sets_bool ⟨rfl, rfl⟩ (by simp [Stream.sizeMax]) ∅).mpr ⟨?_, ?_⟩
  · intro _ node hnode
    obtain rfl := List.mem_singleton.mp hnode
    rw [if_pos rfl]
    rintro last ⟨⟩
    rfl
  · intro pre bad post hpairs _ hbad
    cases pre with
    | nil => simp
    | cons node pre =>
      obtain ⟨-, hrest⟩ := List.cons.inj hpairs
      simp at hrest

/-- Of `{"a": true}` the map gets no `"a"` where the key `"b"` is passed. -/
theorem setMapVariable_other_key : ¬ ∀ (type : JsonType) (setVariable : JsonValue Unit → Outcome Bool)
    (key : List UInt8) (obj : JsonObject Unit) (pairs : List (List UInt8 × JsonValue Unit))
    (map : VariableMap Bool), Sets type setVariable → JsonObject.Represents obj pairs →
    pairs.length ≤ Stream.sizeMax → SetsNodes type setVariable key obj pairs map := by
  intro hevery
  have hnodes := hevery .boolean setVariableFromJsonValueBool [98]
    ⟨0, [[97]], ⟨0, [.boolean true]⟩⟩ [([97], .boolean true)] ∅ sets_bool ⟨rfl, rfl⟩
    (by simp [Stream.sizeMax])
  have htyped : ∀ node ∈ [(([97] : List UInt8), (.boolean true : JsonValue Unit))],
      node.2.type = .boolean := by
    intro node hnode
    obtain rfl := List.mem_singleton.mp hnode
    rfl
  obtain ⟨map', hrun, hlookup⟩ := hnodes.typed htyped
  obtain ⟨el, -, hfound⟩ := hlookup _ (List.mem_singleton_self _)
  have hmap : map' = Finmap.insert [98] true ∅ := (Prod.mk.inj hrun).2.symm
  rw [hmap, Finmap.lookup_insert_of_ne _ (by decide)] at hfound
  cases hfound

end WylesLibs.Parser.Json
