import WylesLibs.Json.Reading

/-! One turn of each loop of the parser on a list: what it does at the byte it looks at. -/
namespace WylesLibs.Parser.Json
open Library WylesLibs.Stream
variable {D : Type} [DoubleArith D]

section
variable {σ : Type} [EStreamI σ UInt8] {nestedArray : JsonArray D → Prog σ (JsonArray D)}
variable {nestedObject : JsonObject D → Prog σ (JsonObject D)} {obj : JsonArray D} {c : UInt8}

/-! `parseToken` at each byte it tells apart. -/

theorem parseToken_quote : parseToken nestedArray nestedObject obj Byte.quote =
    parseString obj >>= fun obj => pure (obj, true) := rfl

theorem parseToken_digit (hc : isDigit c = true) : parseToken nestedArray nestedObject obj c =
    parseNumber obj >>= fun obj => pure (obj, true) := by
  have hq : c ≠ Byte.quote := by
    rintro rfl
    exact absurd hc (by decide)
  rw [parseToken, if_neg hq, if_pos (Or.inl hc)]

theorem parseToken_openBracket : parseToken nestedArray nestedObject obj Byte.openBracket =
    Prog.lift (JsonArray.make (obj.depth + 1)) >>= fun arr =>
      nestedArray arr >>= fun arr => pure (obj.addValue arr.toValue, true) := rfl

theorem parseToken_true : parseToken nestedArray nestedObject obj 0x74 =
    parseImmediate obj (bytes ['t', 'r', 'u', 'e']) (.boolean true) >>= fun obj => pure (obj, true) := rfl

theorem parseToken_false : parseToken nestedArray nestedObject obj 0x66 =
    parseImmediate obj (bytes ['f', 'a', 'l', 's', 'e']) (.boolean false) >>= fun obj => pure (obj, true) := rfl

theorem parseToken_null : parseToken nestedArray nestedObject obj 0x6E =
    parseImmediate obj (bytes ['n', 'u', 'l', 'l']) .null >>= fun obj => pure (obj, true) := rfl

theorem parseToken_openBrace : parseToken nestedArray nestedObject obj Byte.openBrace =
    Prog.lift (JsonObject.make (obj.depth + 1)) >>= fun new =>
      nestedObject new >>= fun new => pure (obj.addValue new.toValue, true) := rfl

theorem whitespace_cases {c : UInt8} (hc : isWhitespace c = true) :
    c = 0x0D ∨ c = 0x0A ∨ c = 0x09 ∨ c = 0x20 := by
  simpa [isWhitespace, stringUtilsWhitespace] using hc

theorem parseToken_whitespace (hc : isWhitespace c = true) :
    parseToken nestedArray nestedObject obj c =
      (get : Prog σ UInt8) >>= fun _ => pure (obj, false) := by
  obtain rfl | rfl | rfl | rfl := whitespace_cases hc <;> rfl

theorem not_valueEnd_of_whitespace (hc : isWhitespace c = true) : c ∉ valueEnd := by
  obtain rfl | rfl | rfl | rfl := whitespace_cases hc <;> decide

end

theorem digit_byte {c : UInt8} (hc : isDigit c = true) : c ∉ valueEnd ∧
    c ≠ Byte.openBracket ∧ c ≠ Byte.openBrace ∧ isWhitespace c = false := by
  have hne : ∀ d : UInt8, isDigit d = false → c ≠ d := by
    rintro d hd rfl
    rw [hc] at hd
    cases hd
  refine ⟨?_, hne _ (by decide), hne _ (by decide), ?_⟩
  · simp only [valueEnd, List.mem_cons, List.not_mem_nil, or_false, not_or]
    exact ⟨hne _ (by decide), hne _ (by decide), hne _ (by decide)⟩
  · cases hw : isWhitespace c with
    | false => rfl
    | true =>
      obtain rfl | rfl | rfl | rfl := whitespace_cases hw <;> exact absurd hc (by decide)

theorem leaf_text_eq {t : LeafText} {rest : List UInt8} (hv : t.Valid rest) :
    ∃ c more, t.text ++ rest = c :: more ∧ c ∉ valueEnd ∧ c ≠ Byte.openBracket ∧
      c ≠ Byte.openBrace ∧ isWhitespace c = false := by
  cases t with
  | null => exact ⟨_, _, rfl, by decide⟩
  | boolean b => cases b <;> exact ⟨_, _, rfl, by decide⟩
  | number t =>
    obtain ⟨d, more, hd, hdigit⟩ := numberText_head hv.2.1 hv.1 rest
    exact ⟨d, more, hd, digit_byte hdigit⟩
  | string body s => exact ⟨_, _, rfl, by decide⟩

/-- A leaf is read in one go, whatever the nested loops would do. -/
theorem parseToken_leaf {nestedArray : JsonArray D → Prog (List UInt8) (JsonArray D)}
    {nestedObject : JsonObject D → Prog (List UInt8) (JsonObject D)} {t : LeafText}
    {rest more : List UInt8} {c : UInt8} (hv : t.Valid rest) (hc : t.text ++ rest = c :: more)
    (obj : JsonArray D) :
    parseToken nestedArray nestedObject obj c (c :: more) =
      .ok ((obj.addValue t.value, true), rest) := by
  cases t with
  | null =>
    obtain rfl : 0x6E = c := (List.cons.inj hc).1
    have hp : parseImmediate obj (bytes ['n', 'u', 'l', 'l']) .null (0x6E :: more) =
        .ok (obj.addValue .null, rest) := parseImmediate_iff.mpr ⟨hc.symm, rfl⟩
    rw [parseToken_null, Prog.bind_apply, hp]
    rfl
  | boolean b =>
    cases b with
    | true =>
      obtain rfl : 0x74 = c := (List.cons.inj hc).1
      have hp : parseImmediate obj (bytes ['t', 'r', 'u', 'e']) (.boolean true) (0x74 :: more) =
          .ok (obj.addValue (.boolean true), rest) := parseImmediate_iff.mpr ⟨hc.symm, rfl⟩
      rw [parseToken_true, Prog.bind_apply, hp]
      rfl
    | false =>
      obtain rfl : 0x66 = c := (List.cons.inj hc).1
      have hp : parseImmediate obj (bytes ['f', 'a', 'l', 's', 'e']) (.boolean false)
          (0x66 :: more) = .ok (obj.addValue (.boolean false), rest) :=
        parseImmediate_iff.mpr ⟨hc.symm, rfl⟩
      rw [parseToken_false, Prog.bind_apply, hp]
      rfl
  | number t =>
    obtain ⟨ht, hne, b, rest, rfl, hb⟩ := hv
    obtain ⟨d, l, hl, hd⟩ := numberText_head hne ht (b :: rest)
    obtain ⟨rfl, rfl⟩ := List.cons.inj (hl.symm.trans hc)
    have hp : parseNumber obj (t.text ++ b :: rest) = _ := parseNumber_ok ht hne hb obj
    rw [hl] at hp
    rw [parseToken_digit hd, Prog.bind_apply, hp]
    rfl
  | string body s =>
    obtain rfl : Byte.quote = c := (List.cons.inj hc).1
    have hp : parseString obj (Byte.quote :: more) = .ok (obj.addValue (.string s), rest) :=
      parseString_iff.mpr ⟨body, s, ((List.cons.inj hc).2).symm, hv, rfl⟩
    rw [parseToken_quote, Prog.bind_apply, hp]
    rfl

/-! One turn of each loop. -/

section
variable {n : Nat} {c : UInt8} {l : List UInt8}

theorem parseValueLoop_stop (hc : c ∈ valueEnd) (obj : JsonArray D) (parsed : Bool) :
    parseValueLoop (n + 1) obj parsed c l = .ok (obj, l) := by
  simp [parseValueLoop, hc]

theorem parseValueLoop_token (hc : c ∉ valueEnd) (obj : JsonArray D) :
    parseValueLoop (n + 1) obj false c l =
      (parseToken (parseArray n) (parseObject n) obj c l).bind fun p =>
        match p.2 with
        | [] => .thrown endOfData
        | d :: m => parseValueLoop n p.1.1 p.1.2 d (d :: m) := by
  simp only [parseValueLoop, hc, if_false, if_true, Prog.bind_apply]
  refine congrArg _ (funext fun p => ?_)
  obtain ⟨⟨obj', parsed⟩, m⟩ := p
  cases m <;> rfl

theorem parseValueLoop_behind (hc : c ∉ valueEnd) (obj : JsonArray D) :
    parseValueLoop (n + 1) obj true c l =
      (parseBehindToken c l).bind fun p =>
        match p.2 with
        | [] => .thrown endOfData
        | d :: m => parseValueLoop n obj true d (d :: m) := by
  simp only [parseValueLoop, hc, if_false, Prog.bind_apply, Bool.true_eq_false]
  refine congrArg _ (funext fun p => ?_)
  obtain ⟨-, m⟩ := p
  cases m <;> rfl

theorem parseArrayLoop_close (arr : JsonArray D) :
    parseArrayLoop (n + 1) arr Byte.closeBracket l = .ok (arr, l) := by
  simp [parseArrayLoop]

theorem parseArrayLoop_slot (hc : c = Byte.openBracket ∨ c = Byte.comma) (arr : JsonArray D) :
    parseArrayLoop (n + 1) arr c l =
      (parseValue n arr l).bind fun p =>
        match p.2 with
        | [] => .thrown endOfData
        | d :: m => parseArrayLoop n p.1 d m := by
  have hne : c ≠ Byte.closeBracket := by
    obtain rfl | rfl := hc <;> decide
  simp only [parseArrayLoop, hne, hc, if_false, if_true, Prog.bind_apply, parseValue,
    Outcome.bind_assoc]
  refine congrArg _ (funext fun p => congrArg _ (funext fun q => ?_))
  obtain ⟨arr', m⟩ := q
  cases m <;> rfl

theorem parseArrayLoop_skipped (hne : c ≠ Byte.closeBracket)
    (hc : ¬ (c = Byte.openBracket ∨ c = Byte.comma)) (arr : JsonArray D) :
    parseArrayLoop (n + 1) arr c l =
      match l with
      | [] => .thrown endOfData
      | d :: m => parseArrayLoop n arr d m := by
  simp only [parseArrayLoop, hne, hc, if_false, Prog.bind_apply, Prog.pure_apply,
    Outcome.bind_ok]
  cases l <;> rfl

theorem parseObjectLoop_close (obj : JsonObject D) :
    parseObjectLoop (n + 1) obj Byte.closeBrace l = .ok (obj, l) := by
  simp [parseObjectLoop]

theorem parseObjectLoop_member (hc : c = Byte.openBrace ∨ c = Byte.comma) (obj : JsonObject D) :
    parseObjectLoop (n + 1) obj c l =
      (parseKey obj l).bind fun p =>
        if p.1.1 then
          (parseValue n p.1.2.values p.2).bind fun q =>
            match q.2 with
            | [] => .thrown endOfData
            | d :: m => parseObjectLoop n { p.1.2 with values := q.1 } d m
        else .ok (p.1.2, p.2) := by
  have hne : c ≠ Byte.closeBrace := by
    obtain rfl | rfl := hc <;> decide
  simp only [parseObjectLoop, hne, hc, if_false, if_true, Prog.bind_apply]
  refine congrArg _ (funext fun p => ?_)
  obtain ⟨⟨more, obj'⟩, m⟩ := p
  cases more with
  | false => rfl
  | true =>
    simp only [if_true, parseValue, Prog.bind_apply, Outcome.bind_assoc]
    refine congrArg _ (funext fun p => congrArg _ (funext fun q => ?_))
    obtain ⟨values, m'⟩ := q
    cases m' <;> rfl

/-- At any other byte the loop turns in place. -/
theorem parseObjectLoop_spin (hne : c ≠ Byte.closeBrace)
    (hc : ¬ (c = Byte.openBrace ∨ c = Byte.comma)) (obj : JsonObject D) :
    parseObjectLoop (n + 1) obj c l = parseObjectLoop n obj c l := by
  simp only [parseObjectLoop, hne, hc, if_false]

theorem parseBehindToken_whitespace (hc : isWhitespace c = true) :
    parseBehindToken c (c :: l) = .ok ((), l) := by
  simp [parseBehindToken, hc]

end

end WylesLibs.Parser.Json
