import WylesLibs.Json.Members
import WylesLibs.Json.RoundTrip
import WylesLibs.Json.Termination

/-! How deep the trees are that `toJsonString` can write, and what `parse` does with a text that goes
deeper than it allows. -/
namespace WylesLibs.Parser.Json
open Library WylesLibs.Stream
variable {D : Type}

/-! The texts in which no element and no member stands at a depth for which there are no tabs. -/

mutual

def ValueText.Within (depth : Nat) : ValueText → Prop
  | .leaf _ => True
  | .array els => els.Within depth
  | .object ms => ms.Within depth

def SlotText.Within (depth : Nat) : SlotText → Prop
  | .empty _ => True
  | .filled _ v _ => depth < maxJsonDepth ∧ v.Within (depth + 1)

def ElementsText.Within (depth : Nat) : ElementsText → Prop
  | .close => True
  | .slot _ s more => s.Within depth ∧ more.Within depth
  | .skipped _ more => more.Within depth

def MembersText.Within (depth : Nat) : MembersText → Prop
  | .close => True
  | .last _ _ => True
  | .member _ _ s more => s.Within depth ∧ more.Within depth

end

def DocumentText.Within (doc : DocumentText) : Prop := doc.root.Within 0

/-! What `toJsonString` writes. -/

/-- `toJsonString` returns: all of its looks into `spacing` are within its bounds. -/
def JsonValue.Serialises (v : JsonValue D) : Prop := ∃ s, v.toJsonString = .ok s

theorem spacingAt_ok_iff {depth : Nat} :
    (∃ tabs, spacingAt depth = .ok tabs) ↔ depth < maxJsonDepth := by
  unfold spacingAt
  cases htabs : spacing[depth]? with
  | none =>
    have hle : maxJsonDepth ≤ depth := by simpa [spacing] using List.getElem?_eq_none_iff.mp htabs
    simpa using hle
  | some tabs =>
    have hlt : depth < maxJsonDepth := by
      have := (List.getElem?_eq_some_iff.mp htabs).1
      simpa [spacing] using this
    simpa using hlt

theorem exists_bind_ok {α β : Type} {m : Outcome α} {f : α → Outcome β} {P : Prop}
    (hf : ∀ a, (∃ b, f a = .ok b) ↔ P) :
    (∃ b, m.bind f = .ok b) ↔ (∃ a, m = .ok a) ∧ P := by
  constructor
  · intro hcase
    obtain ⟨b, hb⟩ := hcase
    obtain ⟨a, ha, hfa⟩ := Outcome.bind_eq_ok.mp hb
    exact ⟨⟨a, ha⟩, (hf a).mp ⟨b, hfa⟩⟩
  · intro hcase
    obtain ⟨⟨a, ha⟩, hP⟩ := hcase
    obtain ⟨b, hb⟩ := (hf a).mpr hP
    exact ⟨b, Outcome.bind_eq_ok.mpr ⟨a, ha, hb⟩⟩

/-- What a container writes of one of its values. -/
theorem written_ok_iff (v : JsonValue D) :
    (∃ s, (if v.isNull then .ok [] else v.toJsonString) = .ok s) ↔ v.Serialises := by
  cases v with
  | null => exact iff_of_true ⟨_, rfl⟩ ⟨_, rfl⟩
  | boolean b => exact Iff.rfl
  | number x natural decimal => exact Iff.rfl
  | string s => exact Iff.rfl
  | array depth vs => exact Iff.rfl
  | object depth ks vs => exact Iff.rfl

theorem elementsToString_cons_ok_iff {depth : Nat} {v : JsonValue D} {vs : List (JsonValue D)} :
    (∃ s, elementsToString depth (v :: vs) = .ok s) ↔
      depth < maxJsonDepth ∧ v.Serialises ∧ ∃ s, elementsToString depth vs = .ok s := by
  rw [elementsToString, ← spacingAt_ok_iff, ← written_ok_iff]
  refine exists_bind_ok fun tabs => exists_bind_ok fun s => ?_
  rw [exists_bind_ok (P := True) (by simp), and_true]

theorem membersToString_cons_ok_iff {depth : Nat} {k : List UInt8} {ks : List (List UInt8)}
    {v : JsonValue D} {vs : List (JsonValue D)} :
    (∃ s, membersToString depth (k :: ks) (v :: vs) = .ok s) ↔
      depth < maxJsonDepth ∧ v.Serialises ∧ ∃ s, membersToString depth ks vs = .ok s := by
  rw [membersToString, ← spacingAt_ok_iff, ← written_ok_iff]
  refine exists_bind_ok fun tabs => exists_bind_ok fun s => ?_
  rw [exists_bind_ok (P := True) (by simp), and_true]

/-- A key behind the last of the values is one that `at` has no value for. -/
theorem length_le_of_membersToString {depth : Nat} {ks : List (List UInt8)}
    {vs : List (JsonValue D)} (h : ∃ s, membersToString depth ks vs = .ok s) :
    ks.length ≤ vs.length := by
  induction vs generalizing ks with
  | nil =>
    cases ks with
    | nil => exact le_rfl
    | cons k ks =>
      obtain ⟨s, hs⟩ := h
      rw [membersToString] at hs
      obtain ⟨tabs, -, hthrow⟩ := Outcome.bind_eq_ok.mp hs
      cases hthrow
  | cons v vs ih =>
    cases ks with
    | nil => exact Nat.zero_le _
    | cons k ks => exact Nat.succ_le_succ (ih (membersToString_cons_ok_iff.mp h).2.2)

theorem array_serialises_iff {depth : Nat} {vs : List (JsonValue D)} :
    (JsonValue.array depth vs).Serialises ↔ ∃ s, elementsToString depth vs = .ok s := by
  rw [JsonValue.Serialises, JsonValue.toJsonString, exists_bind_ok (P := True) (by simp), and_true]

theorem object_serialises_iff {depth : Nat} {ks : List (List UInt8)} {vs : List (JsonValue D)} :
    (JsonValue.object depth ks vs).Serialises ↔ ∃ s, membersToString depth ks vs = .ok s := by
  rw [JsonValue.Serialises, JsonValue.toJsonString, exists_bind_ok (P := True) (by simp), and_true]

section
variable [DoubleArith D]

theorem LeafText.serialises (t : LeafText) : (t.value : JsonValue D).Serialises := by
  cases t with
  | null => exact ⟨_, rfl⟩
  | boolean b => cases b <;> exact ⟨_, rfl⟩
  | number t => exact ⟨_, rfl⟩
  | string body s => exact ⟨_, rfl⟩

mutual

theorem ValueText.serialises_iff (t : ValueText) (depth : Nat) :
    (t.value depth : JsonValue D).Serialises ↔ t.Within depth ∧ t.Complete := by
  cases t with
  | leaf t => exact iff_of_true t.serialises ⟨trivial, trivial⟩
  | array els => exact array_serialises_iff.trans (els.written_iff depth)
  | object ms =>
    refine object_serialises_iff.trans ?_
    by_cases hfilled : ms.AllFilled
    · rw [ms.written_iff hfilled depth, ValueText.Within, ValueText.Complete]
      exact ⟨fun h => ⟨h.1, hfilled, h.2⟩, fun h => ⟨h.1, h.2.2⟩⟩
    · refine iff_of_false ?_ fun h => hfilled h.2.1
      intro h
      have hle := length_le_of_membersToString h
      exact hfilled (ms.allFilled_of_length (D := D) depth
        (le_antisymm hle (ms.values_length_le depth)))

theorem SlotText.written_iff (s : SlotText) (depth : Nat) (vs : List (JsonValue D)) :
    (∃ out, elementsToString depth (s.values depth ++ vs) = .ok out) ↔
      (s.Within depth ∧ s.Complete) ∧ ∃ out, elementsToString depth vs = .ok out := by
  cases s with
  | empty space => exact (and_iff_right ⟨trivial, trivial⟩).symm
  | filled before v after =>
    have hv := v.serialises_iff (depth + 1)
    rw [SlotText.values, List.singleton_append, elementsToString_cons_ok_iff, hv, SlotText.Within,
      SlotText.Complete]
    tauto

theorem ElementsText.written_iff (els : ElementsText) (depth : Nat) :
    (∃ out, elementsToString depth (els.values depth : List (JsonValue D)) = .ok out) ↔
      els.Within depth ∧ els.Complete := by
  cases els with
  | close => exact iff_of_true ⟨_, rfl⟩ ⟨trivial, trivial⟩
  | slot c s more =>
    have hs := s.written_iff depth (more.values depth : List (JsonValue D))
    have hmore := more.written_iff depth
    rw [ElementsText.values, hs, hmore, ElementsText.Within, ElementsText.Complete]
    tauto
  | skipped c more => exact more.written_iff depth

theorem MembersText.written_iff (ms : MembersText) (hfilled : ms.AllFilled) (depth : Nat) :
    (∃ out, membersToString depth ms.keys (ms.values depth : List (JsonValue D)) = .ok out) ↔
      ms.Within depth ∧ ms.Complete := by
  cases ms with
  | close => exact iff_of_true ⟨_, rfl⟩ ⟨trivial, trivial⟩
  | last c k => exact iff_of_true ⟨_, rfl⟩ ⟨trivial, trivial⟩
  | member c k s more =>
    cases s with
    | empty space => exact absurd hfilled.1 id
    | filled before v after =>
      have hv := v.serialises_iff (depth + 1)
      have hmore := more.written_iff hfilled.2 depth
      rw [MembersText.keys, MembersText.values, SlotText.values, List.singleton_append,
        membersToString_cons_ok_iff, hv, hmore, MembersText.Within, MembersText.Complete,
        SlotText.Within, SlotText.Complete]
      tauto

end

end

/-! The texts that go too deep. Everything in front of the bracket that does is read as usual. -/

/-- The texts that go too deep for a loop at a depth, from the byte it looks at. -/
inductive DeepAt : Loop → Nat → List UInt8 → Prop where
  | bracket {depth : Nat} {c : UInt8} {space l : List UInt8} (hs : Space space)
      (hc : c = Byte.openBracket ∨ c = Byte.openBrace) (hdepth : maxJsonDepth < depth + 1) :
      DeepAt .value depth (space ++ c :: l)
  | nestedArray {depth : Nat} {space l : List UInt8} (hs : Space space)
      (hdepth : depth + 1 ≤ maxJsonDepth)
      (h : DeepAt .array (depth + 1) (Byte.openBracket :: l)) :
      DeepAt .value depth (space ++ Byte.openBracket :: l)
  | nestedObject {depth : Nat} {space l : List UInt8} (hs : Space space)
      (hdepth : depth + 1 ≤ maxJsonDepth)
      (h : DeepAt .object (depth + 1) (Byte.openBrace :: l)) :
      DeepAt .value depth (space ++ Byte.openBrace :: l)
  | element {depth : Nat} {c : UInt8} {l : List UInt8}
      (hc : c = Byte.openBracket ∨ c = Byte.comma) (h : DeepAt .value depth l) :
      DeepAt .array depth (c :: l)
  | afterElement {depth : Nat} {c : UInt8} {s : SlotText} {l : List UInt8}
      (hc : c = Byte.openBracket ∨ c = Byte.comma) (hs : s.Valid depth l)
      (h : DeepAt .array depth l) : DeepAt .array depth (c :: (s.text ++ l))
  | afterSkipped {depth : Nat} {c : UInt8} {l : List UInt8} (hne : c ≠ Byte.closeBracket)
      (hc : ¬ (c = Byte.openBracket ∨ c = Byte.comma)) (h : DeepAt .array depth l) :
      DeepAt .array depth (c :: l)
  | member {depth : Nat} {c : UInt8} {k : KeyText} {l : List UInt8} (hk : MemberOpens c k l)
      (h : DeepAt .value depth l) : DeepAt .object depth (c :: (k.text ++ l))
  | afterMember {depth : Nat} {c : UInt8} {k : KeyText} {s : SlotText} {l : List UInt8}
      (hk : MemberOpens c k (s.text ++ l)) (hs : s.Valid depth l)
      (h : DeepAt .object depth l) : DeepAt .object depth (c :: (k.text ++ (s.text ++ l)))

/-- Some array or object of the text is nested deeper than `maxJsonDepth`. -/
inductive Deep : List UInt8 → Prop where
  | array {space l : List UInt8} (hs : Space space)
      (h : DeepAt .array 0 (Byte.openBracket :: l)) : Deep (space ++ Byte.openBracket :: l)
  | object {space l : List UInt8} (hs : Space space)
      (h : DeepAt .object 0 (Byte.openBrace :: l)) : Deep (space ++ Byte.openBrace :: l)

theorem DeepAt.ne_nil {loop : Loop} {depth : Nat} {text : List UInt8}
    (h : DeepAt loop depth text) : ∃ c l, text = c :: l := by
  cases h <;> exact List.exists_cons_of_ne_nil (by simp)

def Throws {α : Type} (m : Outcome α) : Prop := ∃ w, m = .thrown w

theorem Throws.bind {α β : Type} {m : Outcome α} (h : Throws m) (f : α → Outcome β) :
    Throws (m.bind f) := by
  obtain ⟨w, rfl⟩ := h
  exact ⟨w, rfl⟩

theorem Throws.more {α : Type} {m m' : Outcome α} (h : Throws m) (hle : Outcome.Le m m') :
    Throws m' := by
  obtain ⟨w, rfl⟩ := h
  cases hle with
  | inl hspent => cases hspent
  | inr heq => exact ⟨w, heq.symm⟩

theorem make_array_throws {depth : Nat} (h : maxJsonDepth < depth) :
    Throws (JsonArray.make depth : Outcome (JsonArray D)) := by
  rw [JsonArray.make, if_pos h]
  exact ⟨_, rfl⟩

theorem make_object_throws {depth : Nat} (h : maxJsonDepth < depth) :
    Throws (JsonObject.make depth : Outcome (JsonObject D)) := by
  rw [JsonObject.make, if_pos h]
  exact ⟨_, rfl⟩

section
variable [DoubleArith D]

theorem parseArrayLoop_more {n k : Nat} (hn : n ≤ k) {arr : JsonArray D} {c : UInt8}
    {l : List UInt8} (h : Throws (parseArrayLoop n arr c l)) : Throws (parseArrayLoop k arr c l) :=
  h.more (Prog.Le.of_step (m := fun n => parseArrayLoop n arr c)
    (fun n => (loops_le n).2.1 arr c) hn l)

theorem parseObjectLoop_more {n k : Nat} (hn : n ≤ k) {obj : JsonObject D} {c : UInt8}
    {l : List UInt8} (h : Throws (parseObjectLoop n obj c l)) :
    Throws (parseObjectLoop k obj c l) :=
  h.more (Prog.Le.of_step (m := fun n => parseObjectLoop n obj c)
    (fun n => (loops_le n).2.2 obj c) hn l)

/-- A value that makes the call throw does so behind any space. -/
theorem parseValueLoop_throws {space t l : List UInt8} {c d : UInt8} (hs : Space space)
    (hc : space ++ d :: t = c :: l) (hd : d ∉ valueEnd) {n : Nat} {obj : JsonArray D}
    (h : Throws (parseToken (parseArray n) (parseObject n) obj d (d :: t))) :
    Throws (parseValueLoop (space.length + (n + 1)) obj false c (c :: l)) := by
  rw [parseValueLoop_before hs hc rfl, parseValueLoop_token hd]
  exact h.bind _

variable (D) in
/-- The loop throws within `n` turns. -/
def ThrowsWithin (n : Nat) (loop : Loop) (depth : Nat) (text : List UInt8) : Prop :=
  ∀ c l, text = c :: l →
    match loop with
    | .value => ∀ obj : JsonArray D, obj.depth = depth →
        Throws (parseValueLoop n obj false c (c :: l))
    | .array => ∀ arr : JsonArray D, arr.depth = depth → Throws (parseArrayLoop n arr c l)
    | .object => ∀ obj : JsonObject D, obj.values.depth = depth →
        Throws (parseObjectLoop n obj c l)

theorem DeepAt.throws {loop : Loop} {depth : Nat} {text : List UInt8}
    (h : DeepAt loop depth text) : ∃ n, ThrowsWithin D n loop depth text := by
  induction h with
  | @bracket depth d space _ hs hc hdepth =>
    refine ⟨space.length + (0 + 1), fun c l heq obj hobj => ?_⟩
    cases hc with
    | inl harray =>
      subst harray
      refine parseValueLoop_throws hs heq (by decide) ?_
      rw [parseToken_openBracket, hobj]
      exact ((make_array_throws hdepth).bind _).bind _
    | inr hobject =>
      subst hobject
      refine parseValueLoop_throws hs heq (by decide) ?_
      rw [parseToken_openBrace, hobj]
      exact ((make_object_throws hdepth).bind _).bind _
  | @nestedArray depth space _ hs hmax h ih =>
    obtain ⟨n, hn⟩ := ih
    refine ⟨space.length + (n + 1), fun c l heq obj hobj => ?_⟩
    refine parseValueLoop_throws hs heq (by decide) ?_
    have hloop := hn _ _ rfl ⟨depth + 1, []⟩ rfl
    rw [parseToken_openBracket, hobj]
    simp only [Prog.bind_apply, Prog.lift_apply, JsonArray.make_ok hmax, Outcome.bind_ok, parseArray,
      get_list_cons, Outcome.bind_assoc]
    exact hloop.bind _
  | @nestedObject depth space _ hs hmax h ih =>
    obtain ⟨n, hn⟩ := ih
    refine ⟨space.length + (n + 1), fun c l heq obj hobj => ?_⟩
    refine parseValueLoop_throws hs heq (by decide) ?_
    have hloop := hn _ _ rfl ⟨depth + 1, [], ⟨depth + 1, []⟩⟩ rfl
    rw [parseToken_openBrace, hobj]
    simp only [Prog.bind_apply, Prog.lift_apply, JsonObject.make_ok hmax, Outcome.bind_ok,
      parseObject, get_list_cons, Outcome.bind_assoc]
    exact hloop.bind _
  | element hfront h ih =>
    obtain ⟨n, hn⟩ := ih
    obtain ⟨d, m, rfl⟩ := h.ne_nil
    refine ⟨n + 1, fun c l heq arr harr => ?_⟩
    obtain ⟨rfl, rfl⟩ := List.cons.inj heq
    have hvalue : Throws (parseValue n arr (d :: m)) := hn d m rfl arr harr
    rw [parseArrayLoop_slot hfront]
    exact hvalue.bind _
  | @afterElement _ _ s _ hfront hs h ih =>
    obtain ⟨n, hn⟩ := ih
    obtain ⟨d, m, rfl⟩ := h.ne_nil
    refine ⟨s.text.length + n + 1 + 1, fun c l heq arr harr => ?_⟩
    subst harr
    obtain ⟨rfl, rfl⟩ := List.cons.inj heq
    rw [parseArrayLoop_slot hfront, s.accepts arr hs (by omega), Outcome.bind_ok]
    exact parseArrayLoop_more (by omega) (hn d m rfl _ rfl)
  | afterSkipped hne hskip h ih =>
    obtain ⟨n, hn⟩ := ih
    obtain ⟨d, m, rfl⟩ := h.ne_nil
    refine ⟨n + 1, fun c l heq arr harr => ?_⟩
    obtain ⟨rfl, rfl⟩ := List.cons.inj heq
    rw [parseArrayLoop_skipped hne hskip]
    exact hn d m rfl arr harr
  | @member _ _ k _ hk h ih =>
    obtain ⟨n, hn⟩ := ih
    obtain ⟨d, m, rfl⟩ := h.ne_nil
    refine ⟨n + 1, fun c l heq obj hobj => ?_⟩
    obtain ⟨rfl, rfl⟩ := List.cons.inj heq
    have hvalue : Throws (parseValue n (obj.addKey k.key).values (d :: m)) := hn d m rfl _ hobj
    rw [parseObjectLoop_member hk.front, hk.parseKey obj, Outcome.bind_ok, if_pos rfl]
    exact hvalue.bind _
  | @afterMember _ _ k s _ hk hs h ih =>
    obtain ⟨n, hn⟩ := ih
    obtain ⟨d, m, rfl⟩ := h.ne_nil
    refine ⟨s.text.length + n + 1 + 1, fun c l heq obj hobj => ?_⟩
    subst hobj
    obtain ⟨rfl, rfl⟩ := List.cons.inj heq
    rw [parseObjectLoop_member hk.front, hk.parseKey obj, Outcome.bind_ok, if_pos rfl,
      s.accepts (obj.addKey k.key).values hs (by omega), Outcome.bind_ok]
    exact parseObjectLoop_more (by omega) (hn d m rfl _ rfl)

theorem Deep.throws {text : List UInt8} (h : Deep text) :
    ∃ n, Throws ((parse n : Prog (List UInt8) (JsonValue D)) text) := by
  cases h with
  | @array space l hs h =>
    obtain ⟨n, hn⟩ := h.throws (D := D)
    refine ⟨n + space.length + 1, ?_⟩
    rw [parse_bracket (readWhiteSpaceUntil_ok hs (by decide) (by omega))]
    exact (parseArrayLoop_more (by omega) (hn _ _ rfl ⟨0, []⟩ rfl)).bind _
  | @object space l hs h =>
    obtain ⟨n, hn⟩ := h.throws (D := D)
    refine ⟨n + space.length + 1, ?_⟩
    rw [parse_brace (readWhiteSpaceUntil_ok hs (by decide) (by omega))]
    exact (parseObjectLoop_more (by omega) (hn _ _ rfl ⟨0, [], ⟨0, []⟩⟩ rfl)).bind _

/-! Both together. -/

variable (D) in
/-- Whatever is returned can be written, and a text that goes too deep makes the call throw. -/
structure DepthSafe (text : List UInt8) : Prop where
  serialises : ∀ n v s, parse n (EStream.ofBuffer text) = .ok ((v : JsonValue D), s) → v.Serialises
  throws : Deep text → ∃ n, Throws (parse n (EStream.ofBuffer text) :
    Outcome (JsonValue D × EStream UInt8))

theorem depth_safe_iff (text : List UInt8) :
    DepthSafe D text ↔
      ∀ doc rest, DocumentText.ReadFrom doc text rest → doc.Within ∧ doc.Complete := by
  constructor
  · intro h doc rest hdoc
    obtain ⟨s, hs, -⟩ := parse_ok (D := D) hdoc.valid (Nat.lt_succ_self _)
    rw [← hdoc.text_eq] at hs
    exact (doc.root.serialises_iff 0).mp (h.serialises _ _ _ hs)
  · intro h
    constructor
    · intro n v s hparse
      obtain ⟨doc, htext, hvalid, rfl⟩ := parse_inv hparse
      exact (doc.root.serialises_iff 0).mpr (h doc _ ⟨htext, hvalid⟩)
    · intro hdeep
      obtain ⟨n, w, hw⟩ := hdeep.throws (D := D)
      have hrel := parse_ofBuffer (D := D) n text
      rw [hw] at hrel
      exact ⟨n, w, hrel.of_thrown⟩

end

/-- `true` in `n` arrays. -/
def arrays : Nat → ValueText
  | 0 => .leaf (.boolean true)
  | n + 1 => .array (.slot Byte.openBracket (.filled [] (arrays n) []) .close)

theorem arrays_valid {n depth : Nat} (h : depth + n ≤ maxJsonDepth + 1) (rest : List UInt8) :
    (arrays n).Valid depth rest := by
  induction n generalizing depth rest with
  | zero => trivial
  | succ n ih =>
    refine ⟨by omega, rfl, Or.inl rfl, ⟨by decide, ih (by omega) _, by decide, ?_⟩, trivial⟩
    exact stops_bracket rest

/-- Eight arrays are nested as deep as is allowed, and the innermost is not empty. -/
theorem depth_unsafe_eight : ¬ DepthSafe Rat (bytes "[[[[[[[[true]]]]]]]]".toList) := by
  intro h
  have hvalid : DocumentText.Valid ⟨[], arrays 8⟩ [] :=
    ⟨by decide, trivial, arrays_valid (by decide) []⟩
  obtain ⟨s, hs, -⟩ := parse_ok (D := Rat) hvalid (Nat.lt_succ_self _)
  have hwithin := (((arrays 8).serialises_iff 0).mp (h.serialises _ _ _ hs)).1
  simp [arrays, ValueText.Within, ElementsText.Within, SlotText.Within, maxJsonDepth] at hwithin

end WylesLibs.Parser.Json
