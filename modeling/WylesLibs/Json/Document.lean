import WylesLibs.Json.Reads

/-! What `parse` takes of a list of bytes, and what it makes of it. -/
namespace WylesLibs.Parser.Json
open Library WylesLibs.Stream
variable {D : Type} [DoubleArith D]

/-- Space, and an array or object. -/
structure DocumentText where
  space : List UInt8
  root : ValueText

def ValueText.Nested : ValueText → Prop
  | .leaf _ => False
  | .array _ => True
  | .object _ => True

namespace DocumentText

def text (doc : DocumentText) : List UInt8 := doc.space ++ doc.root.text

def value (doc : DocumentText) : JsonValue D := doc.root.value 0

structure Valid (doc : DocumentText) (rest : List UInt8) : Prop where
  space : Space doc.space
  nested : doc.root.Nested
  root : doc.root.Valid 0 rest

end DocumentText

omit [DoubleArith D] in
theorem skipWhitespace_ok {space more l : List UInt8} {c d : UInt8} (hs : Space space)
    (hd : isWhitespace d = false) (hl : space ++ d :: more = c :: l) {n : Nat}
    (hn : space.length < n) :
    (skipWhitespace n c : Prog (List UInt8) UInt8) (c :: l) = .ok (d, d :: more) := by
  induction space generalizing c l n with
  | nil =>
    obtain ⟨n, rfl⟩ : ∃ m, n = m + 1 := ⟨n - 1, by simp only [List.length_nil] at hn; omega⟩
    obtain ⟨rfl, rfl⟩ := List.cons.inj hl
    simp [skipWhitespace, hd]
  | cons a space ih =>
    simp only [List.length_cons] at hn
    obtain ⟨n, rfl⟩ : ∃ m, n = m + 1 := ⟨n - 1, by omega⟩
    obtain ⟨rfl, rfl⟩ := List.cons.inj hl
    obtain ⟨hspace, hs⟩ := List.forall_mem_cons.mp hs
    obtain ⟨b, t, hb⟩ : ∃ b t, space ++ d :: more = b :: t :=
      List.exists_cons_of_ne_nil (by simp)
    simp only [skipWhitespace, hspace, if_true, Prog.bind_apply, get_list_cons, Outcome.bind_ok,
      List.append_eq, hb, peek_list_cons]
    exact ih hs hb (by omega)

omit [DoubleArith D] in
theorem skipWhitespace_inv {n : Nat} {c d : UInt8} {l rest : List UInt8}
    (h : (skipWhitespace n c : Prog (List UInt8) UInt8) (c :: l) = .ok (d, rest)) :
    ∃ space more, c :: l = space ++ d :: more ∧ rest = d :: more ∧ Space space := by
  induction n generalizing c l with
  | zero => cases h
  | succ n ih =>
    cases hc : isWhitespace c with
    | false =>
      simp [skipWhitespace, hc] at h
      obtain ⟨rfl, rfl⟩ := h
      exact ⟨[], l, rfl, rfl, by simp [Space]⟩
    | true =>
      simp only [skipWhitespace, hc, if_true, Prog.bind_apply, get_list_cons,
        Outcome.bind_ok] at h
      cases l with
      | nil => cases h
      | cons b t =>
        obtain ⟨space, more, ht, rfl, hs⟩ := ih h
        exact ⟨c :: space, more, by rw [ht]; rfl, rfl, List.forall_mem_cons.mpr ⟨hc, hs⟩⟩

/-- The bytes that `parse` expects behind the space. -/
def opening : List UInt8 := [Byte.openBrace, Byte.openBracket]

theorem not_whitespace_of_opening {d : UInt8} (hd : d ∈ opening) : isWhitespace d = false := by
  simp only [opening, List.mem_cons, List.not_mem_nil, or_false] at hd
  obtain rfl | rfl := hd <;> decide

theorem not_opening_of_whitespace {c : UInt8} (hc : isWhitespace c = true) : c ∉ opening := by
  intro h
  rw [not_whitespace_of_opening h] at hc
  cases hc

theorem readWhiteSpaceUntil_ok {space more : List UInt8} {d : UInt8} (hs : Space space)
    (hd : d ∈ opening) {n : Nat} (hn : space.length < n) :
    (readWhiteSpaceUntil n opening : Prog (List UInt8) Unit) (space ++ d :: more) =
      .ok ((), d :: more) := by
  obtain ⟨c, l, hl⟩ : ∃ c l, space ++ d :: more = c :: l := List.exists_cons_of_ne_nil (by simp)
  have hskip := skipWhitespace_ok hs (not_whitespace_of_opening hd) hl hn
  cases space with
  | nil => simp [readWhiteSpaceUntil, hd]
  | cons a space =>
    obtain ⟨rfl, -⟩ := List.cons.inj hl
    have ha := not_opening_of_whitespace (List.forall_mem_cons.mp hs).1
    simp [readWhiteSpaceUntil, hl, ha, hd, hskip]

theorem readWhiteSpaceUntil_inv {n : Nat} {l rest : List UInt8}
    (h : (readWhiteSpaceUntil n opening : Prog (List UInt8) Unit) l = .ok ((), rest)) :
    ∃ space d more, l = space ++ rest ∧ rest = d :: more ∧ d ∈ opening ∧ Space space := by
  cases l with
  | nil => cases h
  | cons c l =>
    by_cases hc : c ∈ opening
    · simp [readWhiteSpaceUntil, hc] at h
      obtain rfl := h
      exact ⟨[], c, l, rfl, rfl, hc, by simp [Space]⟩
    · simp only [readWhiteSpaceUntil, Prog.bind_apply, peek_list_cons, Outcome.bind_ok, hc,
        if_false] at h
      obtain ⟨⟨d, l₁⟩, hskip, h⟩ := Outcome.bind_eq_ok.mp h
      obtain ⟨space, more, hl, rfl, hs⟩ := skipWhitespace_inv hskip
      by_cases hd : d ∈ opening
      · simp [hd] at h
        obtain rfl := h
        exact ⟨space, d, more, hl, rfl, hd, hs⟩
      · simp [hd] at h

section
variable {n : Nat} {l m : List UInt8}

theorem parse_bracket
    (h : (readWhiteSpaceUntil n opening : Prog (List UInt8) Unit) l =
      .ok ((), Byte.openBracket :: m)) :
    (parse n : Prog (List UInt8) (JsonValue D)) l =
      (parseArrayLoop n ⟨0, []⟩ Byte.openBracket m).bind fun p => .ok (p.1.toValue, p.2) := by
  rw [parse, Prog.bind_apply, ← opening, h]
  rfl

theorem parse_brace
    (h : (readWhiteSpaceUntil n opening : Prog (List UInt8) Unit) l =
      .ok ((), Byte.openBrace :: m)) :
    (parse n : Prog (List UInt8) (JsonValue D)) l =
      (parseObjectLoop n ⟨0, [], ⟨0, []⟩⟩ Byte.openBrace m).bind fun p =>
        .ok (p.1.toValue, p.2) := by
  rw [parse, Prog.bind_apply, ← opening, h]
  rfl

end

/-- Every text that falls apart into readings is parsed to the value of its reading. -/
theorem parse_list_ok {doc : DocumentText} {rest : List UInt8} (h : doc.Valid rest) {n : Nat}
    (hn : doc.text.length < n) :
    (parse n : Prog (List UInt8) (JsonValue D)) (doc.text ++ rest) = .ok (doc.value, rest) := by
  obtain ⟨space, root⟩ := doc
  obtain ⟨hs, hnested, hroot⟩ := h
  replace hs : Space space := hs
  simp only [DocumentText.text, List.length_append] at hn
  cases root with
  | leaf t => exact absurd hnested id
  | array els =>
    obtain ⟨-, hhead, hels⟩ := hroot
    obtain ⟨t, ht⟩ := els.text_eq
    have htext : els.text ++ rest = Byte.openBracket :: (t ++ rest) := by
      rw [ht, hhead, List.cons_append]
    have hspace : readWhiteSpaceUntil n opening (space ++ Byte.openBracket :: (t ++ rest)) = _ :=
      readWhiteSpaceUntil_ok hs (by decide) (by omega)
    have hloop := els.accepts (D := D) ⟨0, []⟩ hels (m := t ++ rest) (n := n)
      (by rw [hhead]; exact htext) (by simp only [ValueText.text] at hn; omega)
    rw [hhead] at hloop
    simp only [DocumentText.text, ValueText.text, List.append_assoc, htext, parse_bracket hspace,
      hloop, Outcome.bind_ok]
    rfl
  | object ms =>
    obtain ⟨-, hhead, hms⟩ := hroot
    obtain ⟨t, ht⟩ := ms.text_eq
    have htext : ms.text ++ rest = Byte.openBrace :: (t ++ rest) := by
      rw [ht, hhead, List.cons_append]
    have hspace : readWhiteSpaceUntil n opening (space ++ Byte.openBrace :: (t ++ rest)) = _ :=
      readWhiteSpaceUntil_ok hs (by decide) (by omega)
    have hloop := ms.accepts (D := D) ⟨0, [], ⟨0, []⟩⟩ hms (m := t ++ rest) (n := n)
      (by rw [hhead]; exact htext) (by simp only [ValueText.text] at hn; omega)
    rw [hhead] at hloop
    simp only [DocumentText.text, ValueText.text, List.append_assoc, htext, parse_brace hspace,
      hloop, Outcome.bind_ok]
    rfl

/-- Whatever is parsed falls apart into readings. -/
theorem parse_list_inv {n : Nat} {l rest : List UInt8} {v : JsonValue D}
    (h : (parse n : Prog (List UInt8) (JsonValue D)) l = .ok (v, rest)) :
    ∃ doc : DocumentText, l = doc.text ++ rest ∧ doc.Valid rest ∧ v = doc.value := by
  obtain ⟨⟨⟨⟩, l₁⟩, hspace, -⟩ := Outcome.bind_eq_ok.mp h
  obtain ⟨space, d, more, hl, rfl, hd, hs⟩ := readWhiteSpaceUntil_inv hspace
  obtain rfl | rfl : d = Byte.openBrace ∨ d = Byte.openBracket := by simpa [opening] using hd
  · rw [parse_brace hspace] at h
    obtain ⟨⟨obj, l₂⟩, hobj, h⟩ := Outcome.bind_eq_ok.mp h
    cases h
    obtain ⟨ms, hm, hms, rfl⟩ := (reads n).2.2 _ _ _ _ _ hobj
    have hhead : ms.head = Byte.openBrace := by
      obtain ⟨t, ht⟩ := ms.text_eq
      rw [ht] at hm
      exact (List.cons.inj hm).1.symm
    exact ⟨⟨space, .object ms⟩, by simp [DocumentText.text, ValueText.text, hl, hm],
      ⟨hs, trivial, Nat.zero_le _, hhead, hms⟩, rfl⟩
  · rw [parse_bracket hspace] at h
    obtain ⟨⟨arr, l₂⟩, harr, h⟩ := Outcome.bind_eq_ok.mp h
    cases h
    obtain ⟨els, hm, hels, rfl⟩ := (reads n).2.1 _ _ _ _ _ harr
    have hhead : els.head = Byte.openBracket := by
      obtain ⟨t, ht⟩ := els.text_eq
      rw [ht] at hm
      exact (List.cons.inj hm).1.symm
    exact ⟨⟨space, .array els⟩, by simp [DocumentText.text, ValueText.text, hl, hm],
      ⟨hs, trivial, Nat.zero_le _, hhead, hels⟩, rfl⟩

end WylesLibs.Parser.Json
