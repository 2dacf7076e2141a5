import WylesLibs.Json.Layout

/-! Keys and values of the objects of a tree. They are held in two arrays that are filled apart
from each other, so a member without a value leaves all later ones out of step. -/
namespace WylesLibs.Parser.Json
open Library WylesLibs.Stream
variable {D : Type}

/-- The keys and values of an object in the tree. -/
abbrev ObjectNode (D : Type) := List (List UInt8) × List (JsonValue D)

/-- The members of an object in the text: each key with the value that stands behind it, if there
is one. -/
abbrev WrittenMembers (D : Type) := List (List UInt8 × Option (JsonValue D))

/-- As many values as keys, and each of them the one that is written behind its key. -/
def Paired (obj : ObjectNode D) (written : WrittenMembers D) : Prop :=
  obj.1.length = obj.2.length ∧
    ∀ (i : Nat) (k : List UInt8) (v : JsonValue D), obj.1[i]? = some k → obj.2[i]? = some v →
      written[i]? = some (k, some v)

/-! The objects of a tree, each one in front of those it holds. -/

mutual

def JsonValue.objects : JsonValue D → List (ObjectNode D)
  | .array _ vs => objectsOf vs
  | .object _ ks vs => (ks, vs) :: objectsOf vs
  | .null => []
  | .boolean _ => []
  | .number _ _ _ => []
  | .string _ => []

def objectsOf : List (JsonValue D) → List (ObjectNode D)
  | [] => []
  | v :: vs => v.objects ++ objectsOf vs

end

theorem objectsOf_append (vs ws : List (JsonValue D)) :
    objectsOf (vs ++ ws) = objectsOf vs ++ objectsOf ws := by
  induction vs with
  | nil => rfl
  | cons v vs ih => simp [objectsOf, ih]

/-! The members of the objects of a text, in the same order. -/

section
variable [DoubleArith D]

def SlotText.value? (depth : Nat) : SlotText → Option (JsonValue D)
  | .empty _ => none
  | .filled _ v _ => some (v.value (depth + 1))

def MembersText.written (depth : Nat) : MembersText → WrittenMembers D
  | .close => []
  | .last _ _ => []
  | .member _ k s more => (k.key, s.value? depth) :: more.written depth

mutual

def ValueText.objects (depth : Nat) : ValueText → List (WrittenMembers D)
  | .leaf _ => []
  | .array els => els.objects depth
  | .object ms => ms.written depth :: ms.objects depth

def SlotText.objects (depth : Nat) : SlotText → List (WrittenMembers D)
  | .empty _ => []
  | .filled _ v _ => v.objects (depth + 1)

def ElementsText.objects (depth : Nat) : ElementsText → List (WrittenMembers D)
  | .close => []
  | .slot _ s more => s.objects depth ++ more.objects depth
  | .skipped _ more => more.objects depth

def MembersText.objects (depth : Nat) : MembersText → List (WrittenMembers D)
  | .close => []
  | .last _ _ => []
  | .member _ _ s more => s.objects depth ++ more.objects depth

end

def DocumentText.objects (doc : DocumentText) : List (WrittenMembers D) := doc.root.objects 0

end

/-! The texts in which every member has a value. -/

def SlotText.IsFilled : SlotText → Prop
  | .empty _ => False
  | .filled _ _ _ => True

/-- Of the members of one object. -/
def MembersText.AllFilled : MembersText → Prop
  | .close => True
  | .last _ _ => True
  | .member _ _ s more => s.IsFilled ∧ more.AllFilled

mutual

def ValueText.Complete : ValueText → Prop
  | .leaf _ => True
  | .array els => els.Complete
  | .object ms => ms.AllFilled ∧ ms.Complete

def SlotText.Complete : SlotText → Prop
  | .empty _ => True
  | .filled _ v _ => v.Complete

def ElementsText.Complete : ElementsText → Prop
  | .close => True
  | .slot _ s more => s.Complete ∧ more.Complete
  | .skipped _ more => more.Complete

/-- Of the objects within the members. -/
def MembersText.Complete : MembersText → Prop
  | .close => True
  | .last _ _ => True
  | .member _ _ s more => s.Complete ∧ more.Complete

end

def DocumentText.Complete (doc : DocumentText) : Prop := doc.root.Complete

/-! One object. -/

section
variable [DoubleArith D]

theorem MembersText.values_length_le (ms : MembersText) (depth : Nat) :
    (ms.values depth : List (JsonValue D)).length ≤ ms.keys.length := by
  match ms with
  | .close => simp [MembersText.values]
  | .last _ _ => simp [MembersText.values]
  | .member _ k s more =>
    have hmore := more.values_length_le depth
    simp only [MembersText.values, MembersText.keys, List.length_append, List.length_cons]
    cases s <;> simp only [SlotText.values, List.length_nil, List.length_singleton] <;> omega

/-- Only members with a value keep the two arrays at one length. -/
theorem MembersText.allFilled_of_length {ms : MembersText} (depth : Nat)
    (h : ms.keys.length = (ms.values depth : List (JsonValue D)).length) : ms.AllFilled := by
  match ms, h with
  | .close, _ => trivial
  | .last _ _, _ => trivial
  | .member _ k s more, h =>
    have hmore := more.values_length_le (D := D) depth
    simp only [MembersText.values, MembersText.keys, List.length_append, List.length_cons] at h
    cases s with
    | empty space =>
      simp only [SlotText.values, List.length_nil] at h
      omega
    | filled before v after =>
      simp only [SlotText.values, List.length_singleton] at h
      exact ⟨trivial, allFilled_of_length depth (by omega)⟩

theorem MembersText.paired_of_allFilled {ms : MembersText} (h : ms.AllFilled) (depth : Nat) :
    Paired (ms.keys, (ms.values depth : List (JsonValue D))) (ms.written depth) := by
  match ms, h with
  | .close, _ => exact ⟨rfl, by simp [MembersText.keys]⟩
  | .last _ _, _ => exact ⟨rfl, by simp [MembersText.keys]⟩
  | .member _ k (.filled _ v _) more, h =>
    obtain ⟨hlen, hmore⟩ := paired_of_allFilled h.2 depth
    refine ⟨by simpa [MembersText.keys, MembersText.values, SlotText.values] using hlen, ?_⟩
    intro i key value hk hv
    cases i with
    | zero =>
      simp only [MembersText.keys, List.getElem?_cons_zero, Option.some.injEq] at hk
      simp only [MembersText.values, SlotText.values, List.singleton_append,
        List.getElem?_cons_zero, Option.some.injEq] at hv
      simp [MembersText.written, SlotText.value?, hk, hv]
    | succ i => exact hmore i key value hk hv

theorem MembersText.paired_iff (ms : MembersText) (depth : Nat) :
    Paired (ms.keys, (ms.values depth : List (JsonValue D))) (ms.written depth) ↔
      ms.AllFilled :=
  ⟨fun h => allFilled_of_length depth h.1, fun h => paired_of_allFilled h depth⟩

end

/-! All objects. -/

theorem forall₂_append_iff {α β : Type} {R : α → β → Prop} {l₁ l₂ : List α} {m₁ m₂ : List β}
    (hlen : l₁.length = m₁.length) :
    List.Forall₂ R (l₁ ++ l₂) (m₁ ++ m₂) ↔ List.Forall₂ R l₁ m₁ ∧ List.Forall₂ R l₂ m₂ := by
  induction l₁ generalizing m₁ with
  | nil =>
    obtain rfl := List.eq_nil_of_length_eq_zero hlen.symm
    simp
  | cons a l₁ ih =>
    cases m₁ with
    | nil => cases hlen
    | cons b m₁ => simp [ih (Nat.succ.inj hlen), and_assoc]

section
variable [DoubleArith D]

mutual

theorem ValueText.length_objects (t : ValueText) (depth : Nat) :
    (t.value depth : JsonValue D).objects.length =
      (t.objects depth : List (WrittenMembers D)).length := by
  cases t with
  | leaf t => cases t <;> rfl
  | array els => exact els.length_objects depth
  | object ms => exact congrArg Nat.succ (ms.length_objects depth)

theorem SlotText.length_objects (s : SlotText) (depth : Nat) :
    (objectsOf (s.values depth) : List (ObjectNode D)).length =
      (s.objects depth : List (WrittenMembers D)).length := by
  cases s with
  | empty space => rfl
  | filled before v after =>
    have hv := v.length_objects (depth + 1)
    simpa [SlotText.values, SlotText.objects, objectsOf] using hv

theorem ElementsText.length_objects (els : ElementsText) (depth : Nat) :
    (objectsOf (els.values depth) : List (ObjectNode D)).length =
      (els.objects depth : List (WrittenMembers D)).length := by
  cases els with
  | close => rfl
  | slot c s more =>
    have hs := s.length_objects depth
    have hmore := more.length_objects depth
    simp [ElementsText.values, ElementsText.objects, objectsOf_append, hs, hmore]
  | skipped c more => exact more.length_objects depth

theorem MembersText.length_objects (ms : MembersText) (depth : Nat) :
    (objectsOf (ms.values depth) : List (ObjectNode D)).length =
      (ms.objects depth : List (WrittenMembers D)).length := by
  cases ms with
  | close => rfl
  | last c k => rfl
  | member c k s more =>
    have hs := s.length_objects depth
    have hmore := more.length_objects depth
    simp [MembersText.values, MembersText.objects, objectsOf_append, hs, hmore]

end

mutual

/-- The objects of a tree are paired with those of its text if and only if every member has a
value. -/
theorem ValueText.forall₂_paired_iff (t : ValueText) (depth : Nat) :
    List.Forall₂ Paired (t.value depth : JsonValue D).objects (t.objects depth) ↔
      t.Complete := by
  cases t with
  | leaf t => cases t <;> exact iff_of_true .nil trivial
  | array els => exact els.forall₂_paired_iff depth
  | object ms =>
    have hpaired := ms.paired_iff (D := D) depth
    have hnested := ms.forall₂_paired_iff depth
    simp only [ValueText.value, JsonValue.objects, ValueText.objects, List.forall₂_cons,
      ValueText.Complete, hpaired, hnested]

theorem SlotText.forall₂_paired_iff (s : SlotText) (depth : Nat) :
    List.Forall₂ Paired (objectsOf (s.values depth) : List (ObjectNode D)) (s.objects depth) ↔
      s.Complete := by
  cases s with
  | empty space => exact iff_of_true .nil trivial
  | filled before v after =>
    have hv := v.forall₂_paired_iff (depth + 1)
    simpa [SlotText.values, SlotText.objects, SlotText.Complete, objectsOf] using hv

theorem ElementsText.forall₂_paired_iff (els : ElementsText) (depth : Nat) :
    List.Forall₂ Paired (objectsOf (els.values depth) : List (ObjectNode D))
      (els.objects depth) ↔ els.Complete := by
  cases els with
  | close => exact iff_of_true .nil trivial
  | slot c s more =>
    have hs := s.forall₂_paired_iff depth
    have hmore := more.forall₂_paired_iff depth
    simp only [ElementsText.values, ElementsText.objects, objectsOf_append,
      forall₂_append_iff (s.length_objects depth), ElementsText.Complete, hs, hmore]
  | skipped c more => exact more.forall₂_paired_iff depth

theorem MembersText.forall₂_paired_iff (ms : MembersText) (depth : Nat) :
    List.Forall₂ Paired (objectsOf (ms.values depth) : List (ObjectNode D)) (ms.objects depth) ↔
      ms.Complete := by
  cases ms with
  | close => exact iff_of_true .nil trivial
  | last c k => exact iff_of_true .nil trivial
  | member c k s more =>
    have hs := s.forall₂_paired_iff depth
    have hmore := more.forall₂_paired_iff depth
    simp only [MembersText.values, MembersText.objects, objectsOf_append,
      forall₂_append_iff (s.length_objects depth), MembersText.Complete, hs, hmore]

end

/-- What `doc` says of the bytes that were taken from the stream of `text`. -/
structure DocumentText.ReadFrom (doc : DocumentText) (text rest : List UInt8) : Prop where
  text_eq : text = doc.text ++ rest
  valid : doc.Valid rest

/-- The value that is returned is that of any reading of the text. -/
theorem DocumentText.ReadFrom.value_eq {doc : DocumentText} {text : List UInt8}
    {v : JsonValue D} {n : Nat} {s : EStream UInt8} (hdoc : doc.ReadFrom text s.remaining)
    (h : parse n (EStream.ofBuffer text) = .ok (v, s)) : v = doc.value := by
  obtain ⟨s', hs', -⟩ := parse_ok (D := D) hdoc.valid (n := doc.text.length + n + 1) (by omega)
  rw [← hdoc.text_eq] at hs'
  have hmore := (parse_le (by omega : n ≤ doc.text.length + n + 1) _).ok h
  rw [hmore] at hs'
  cases hs'
  rfl

/-- When `parse` succeeds, each object of the tree has as many values as keys and each value is
the one behind its key, if and only if every member of the text has a value. -/
theorem parse_paired_iff {n : Nat} {text : List UInt8} {v : JsonValue D} {s : EStream UInt8}
    (h : parse n (EStream.ofBuffer text) = .ok (v, s)) :
    (∃ doc : DocumentText, doc.ReadFrom text s.remaining) ∧
      ∀ doc : DocumentText, doc.ReadFrom text s.remaining →
        (List.Forall₂ Paired v.objects doc.objects ↔ doc.Complete) := by
  obtain ⟨doc, htext, hvalid, -⟩ := parse_inv h
  refine ⟨⟨doc, htext, hvalid⟩, fun doc hdoc => ?_⟩
  rw [hdoc.value_eq h]
  exact doc.root.forall₂_paired_iff 0

end

/-- Two members, each with its value. -/
theorem parse_paired_boolean : ∃ v s,
    parse 20 (EStream.ofBuffer (bytes
      ['{', '"', 'a', '"', ':', 't', 'r', 'u', 'e', ',', '"', 'b', '"', ':', 'n', 'u', 'l', 'l', '}'])) =
      .ok ((v : JsonValue Rat), s) ∧
    (∃ doc : DocumentText, doc.ReadFrom (bytes
      ['{', '"', 'a', '"', ':', 't', 'r', 'u', 'e', ',', '"', 'b', '"', ':', 'n', 'u', 'l', 'l', '}'])
      s.remaining) ∧
    ∀ doc : DocumentText, doc.ReadFrom (bytes
      ['{', '"', 'a', '"', ':', 't', 'r', 'u', 'e', ',', '"', 'b', '"', ':', 'n', 'u', 'l', 'l', '}'])
      s.remaining →
        (List.Forall₂ Paired v.objects doc.objects ↔ doc.Complete) := by
  have hvalid : DocumentText.Valid ⟨[], .object (.member Byte.openBrace (keyText [] [0x61] [])
      (.filled [] (.leaf (.boolean true)) []) (.member Byte.comma (keyText [] [0x62] [])
        (.filled [] (.leaf .null) []) .close))⟩ [] :=
    ⟨by decide, trivial, by decide, rfl, Or.inl rfl,
      keyText_valid (by decide) (by decide) (by decide) _, rfl, by decide,
      ⟨by decide, trivial, by decide, stops_comma _⟩, Or.inr rfl,
      keyText_valid (by decide) (by decide) (by decide) _, rfl, by decide,
      ⟨by decide, trivial, by decide, stops_brace []⟩, trivial⟩
  obtain ⟨s, hs, -⟩ := parse_ok (D := Rat) hvalid (n := 20) (by decide)
  exact ⟨_, s, hs, parse_paired_iff hs⟩

/-- Nothing stands behind the first key: the value of the second is where its own should be. -/
theorem parse_unpaired : ∃ s,
    parse 20 (EStream.ofBuffer (bytes
      ['{', '"', 'a', '"', ':', ',', '"', 'b', '"', ':', 't', 'r', 'u', 'e', '}'])) =
      .ok ((.object 0 [[0x61], [0x62]] [.boolean true] : JsonValue Rat), s) ∧
    ∃ obj ∈ (.object 0 [[0x61], [0x62]] [.boolean true] : JsonValue Rat).objects,
      obj.1.length ≠ obj.2.length := by
  have hvalid : DocumentText.Valid ⟨[], .object (.member Byte.openBrace (keyText [] [0x61] [])
      (.empty []) (.member Byte.comma (keyText [] [0x62] [])
        (.filled [] (.leaf (.boolean true)) []) .close))⟩ [] :=
    ⟨by decide, trivial, by decide, rfl, Or.inl rfl,
      keyText_valid (by decide) (by decide) (by decide) _, rfl, by decide,
      ⟨by decide, stops_comma _⟩, Or.inr rfl,
      keyText_valid (by decide) (by decide) (by decide) _, rfl, by decide,
      ⟨by decide, trivial, by decide, stops_brace []⟩, trivial⟩
  obtain ⟨s, hs, -⟩ := parse_ok (D := Rat) hvalid (n := 20) (by decide)
  exact ⟨s, hs, _, List.mem_cons_self, by decide⟩

end WylesLibs.Parser.Json
