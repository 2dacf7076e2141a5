import WylesLibs.Json.Key

/-! The tokens that `parseValue` reads in one go, and its step at a single byte. -/
namespace WylesLibs.Parser.Json
open Library WylesLibs.Stream
variable {D : Type}

/-! Strings. -/

/-- The bytes that the loop of `parseString` takes, from the one it looks at to the one it ends
with, and the string it makes of them. At the end of the length limit the last byte is taken
whatever it is. -/
inductive StringBody : Nat → UInt8 → List UInt8 → List UInt8 → Prop where
  | full (prev c : UInt8) : StringBody 0 prev [c] []
  | close (left : Nat) {prev : UInt8} (hp : prev ≠ Byte.backslash) :
      StringBody (left + 1) prev [Byte.quote] []
  | plain {left : Nat} {prev c : UInt8} {text s : List UInt8} (hp : prev ≠ Byte.backslash)
      (hc : c ≠ Byte.quote) (h : StringBody left c text s) :
      StringBody (left + 1) prev (c :: text) (c :: s)
  | escape {left : Nat} {c : UInt8} {text s : List UInt8} (hc : c ≠ 0x75)
      (h : StringBody left c text s) :
      StringBody (left + 1) Byte.backslash (c :: text) (unescape c :: s)
  | unicode {left : Nat} (a b : UInt8) {text s : List UInt8} (h : StringBody left 0x75 text s) :
      StringBody (left + 1) Byte.backslash (0x75 :: a :: b :: text) s

theorem StringBody.length_le {left : Nat} {prev : UInt8} {text s : List UInt8}
    (h : StringBody left prev text s) : s.length ≤ left := by
  induction h with
  | full => simp
  | close => simp
  | plain _ _ _ ih => simpa using ih
  | escape _ _ ih => simpa using ih
  | unicode _ _ _ ih => omega

theorem StringBody.text_ne_nil {left : Nat} {prev : UInt8} {text s : List UInt8}
    (h : StringBody left prev text s) : text ≠ [] := by
  cases h <;> simp

theorem parseStringLoop_ok {left : Nat} {prev c : UInt8} {text s l rest : List UInt8}
    (h : StringBody left prev text s) (hl : c :: l = text ++ rest) (acc : List UInt8) :
    parseStringLoop left prev c acc l = .ok (acc ++ s, rest) := by
  induction h generalizing c l acc with
  | full prev c' =>
    obtain ⟨rfl, rfl⟩ := List.cons.inj hl
    simp [parseStringLoop]
  | close left hp =>
    obtain ⟨rfl, rfl⟩ := List.cons.inj hl
    simp [parseStringLoop, hp]
  | plain hp hc h ih =>
    obtain ⟨rfl, rfl⟩ := List.cons.inj hl
    obtain ⟨b, t, rfl⟩ := List.exists_cons_of_ne_nil h.text_ne_nil
    have hrec := ih (c := b) (l := t ++ rest) rfl (acc ++ [c])
    simpa [parseStringLoop, hp, hc] using hrec
  | escape hc h ih =>
    obtain ⟨rfl, rfl⟩ := List.cons.inj hl
    obtain ⟨b, t, rfl⟩ := List.exists_cons_of_ne_nil h.text_ne_nil
    have hrec := ih (c := b) (l := t ++ rest) rfl (acc ++ [unescape c])
    simpa [parseStringLoop, hc] using hrec
  | unicode a b h ih =>
    obtain ⟨rfl, rfl⟩ := List.cons.inj hl
    obtain ⟨d, t, rfl⟩ := List.exists_cons_of_ne_nil h.text_ne_nil
    have hrec := ih (c := d) (l := t ++ rest) rfl acc
    simpa [parseStringLoop, readString_two] using hrec

theorem parseStringLoop_inv {left : Nat} {prev c : UInt8} {acc r l rest : List UInt8}
    (h : parseStringLoop left prev c acc l = .ok (r, rest)) :
    ∃ text s, c :: l = text ++ rest ∧ StringBody left prev text s ∧ r = acc ++ s := by
  induction left generalizing prev c acc l with
  | zero =>
    cases h
    exact ⟨[c], [], rfl, .full prev c, by simp⟩
  | succ left ih =>
    by_cases hp : prev = Byte.backslash
    · subst hp
      by_cases hu : c = 0x75
      · subst hu
        simp only [parseStringLoop, or_true, if_true, Prog.bind_apply] at h
        obtain ⟨⟨digits, l₁⟩, hd, hrest⟩ := Outcome.bind_eq_ok.mp h
        obtain ⟨a, b, rfl⟩ := readString_two_inv hd
        simp only [Prog.pure_apply, Outcome.bind_ok] at hrest
        cases l₁ with
        | nil => simp at hrest
        | cons d l₁ =>
          simp only [get_list_cons, Outcome.bind_ok] at hrest
          obtain ⟨text, s, hl, hs, rfl⟩ := ih hrest
          exact ⟨0x75 :: a :: b :: text, s, by rw [hl]; rfl, .unicode a b hs, rfl⟩
      · simp only [parseStringLoop, or_true, if_true, hu, if_false, Prog.bind_apply,
          Prog.pure_apply, Outcome.bind_ok] at h
        cases l with
        | nil => simp at h
        | cons d l =>
          simp only [get_list_cons, Outcome.bind_ok] at h
          obtain ⟨text, s, hl, hs, rfl⟩ := ih h
          exact ⟨c :: text, unescape c :: s, by rw [hl]; rfl, .escape hu hs, by simp⟩
    · by_cases hq : c = Byte.quote
      · subst hq
        simp [parseStringLoop, hp] at h
        obtain ⟨rfl, rfl⟩ := h
        exact ⟨[Byte.quote], [], rfl, .close left hp, by simp⟩
      · simp only [parseStringLoop, ne_eq, hq, not_false_iff, true_or, if_true, hp, if_false,
          Prog.bind_apply, Prog.pure_apply, Outcome.bind_ok] at h
        cases l with
        | nil => simp at h
        | cons d l =>
          simp only [get_list_cons, Outcome.bind_ok] at h
          obtain ⟨text, s, hl, hs, rfl⟩ := ih h
          exact ⟨c :: text, c :: s, by rw [hl]; rfl, .plain hp hq hs, by simp⟩

theorem parseString_iff {obj obj' : JsonArray D} {q : UInt8} {l rest : List UInt8} :
    parseString obj (q :: l) = .ok (obj', rest) ↔
      ∃ text s, l = text ++ rest ∧ StringBody maxLengthOfJsonStringValues 0 text s ∧
        obj' = obj.addValue (.string s) := by
  simp only [parseString, Prog.bind_apply, get_list_cons, Outcome.bind_ok]
  constructor
  · intro h
    cases l with
    | nil => cases h
    | cons c l =>
      simp only [get_list_cons, Outcome.bind_ok] at h
      obtain ⟨⟨r, l'⟩, hloop, h⟩ := Outcome.bind_eq_ok.mp h
      obtain ⟨text, s, hl, hs, rfl⟩ := parseStringLoop_inv hloop
      have hlen := Nat.not_lt.mpr hs.length_le
      simp [hlen] at h
      obtain ⟨rfl, rfl⟩ := h
      exact ⟨text, r, hl, hs, rfl⟩
  · rintro ⟨text, s, rfl, hs, rfl⟩
    obtain ⟨c, t, rfl⟩ := List.exists_cons_of_ne_nil hs.text_ne_nil
    have hloop := parseStringLoop_ok (c := c) (l := t ++ rest) hs rfl []
    have hlen := Nat.not_lt.mpr hs.length_le
    simp [hloop, hlen]

/-! Words and numbers. -/

theorem parseImmediate_iff {obj obj' : JsonArray D} {m : UInt8} {w l rest : List UInt8}
    {v : JsonValue D} :
    parseImmediate obj (m :: w) v l = .ok (obj', rest) ↔
      l = m :: w ++ rest ∧ obj' = obj.addValue v := by
  rw [parseImmediate, Prog.rescue_ok_iff, Prog.bind_ok_iff]
  constructor
  · rintro ⟨s, u, hread, hpure⟩
    cases hpure
    exact ⟨((readString_exact m w l _).mp hread).1, rfl⟩
  · rintro ⟨rfl, rfl⟩
    exact ⟨m :: w, rest, (readString_exact m w _ (m :: w, rest)).mpr ⟨rfl, rfl⟩, rfl⟩

section
variable [DoubleArith D]

/-- A byte at which `parseNumber` may stop: where it is the letter of an exponent, the loop of
`parseValue` is to find it behind the token. -/
def behindNumber (c : UInt8) : Prop := c ∈ numberEnd ∨ c = 0x65 ∨ c = 0x45

theorem behindNumber_spec {c : UInt8} (hc : behindNumber c) :
    isDigit c = false ∧ c ≠ Byte.dot ∧ c ≠ Byte.minus ∧ c ≠ Byte.plus := by
  simp only [behindNumber, numberEnd, List.mem_cons, List.not_mem_nil, or_false] at hc
  obtain (rfl | rfl | rfl | rfl | rfl | rfl) | rfl | rfl := hc <;> decide

theorem numberText_head {t : NumberText} (hne : t.natural ≠ []) (hv : t.Valid)
    (rest : List UInt8) : ∃ d more, t.text ++ rest = d :: more ∧ isDigit d = true := by
  obtain ⟨natural, decimal⟩ := t
  obtain ⟨d, ds, rfl⟩ := List.exists_cons_of_ne_nil hne
  have hd : isDigit d = true := hv.natural d List.mem_cons_self
  cases decimal with
  | none => exact ⟨d, ds ++ rest, rfl, hd⟩
  | some ds' => exact ⟨d, ds ++ Byte.dot :: ds' ++ rest, by simp [NumberText.text], hd⟩

theorem readNatural_behind {c : UInt8} {more : List UInt8} (hc : isDigit c = false) :
    readNatural (c :: more) = .ok ((0, 0), c :: more) :=
  readNatural_iff.mpr ⟨[], c, more, rfl, rfl, by simp, hc, Nat.zero_le _, rfl⟩

/-- The letter of an exponent is not consumed, so the exponent read is always zero and without a
sign. -/
theorem parseNumber_ok {t : NumberText} {c : UInt8} {more : List UInt8} (hv : t.Valid)
    (hne : t.natural ≠ []) (hc : behindNumber c) (obj : JsonArray D) :
    parseNumber obj (t.text ++ c :: more) =
      .ok (obj.addValue (.number t.value t.natural.length t.decimalDigits), c :: more) := by
  obtain ⟨hdigit, hdot, hminus, hplus⟩ := behindNumber_spec hc
  have hdec : readDecimal (t.text ++ c :: more) =
      .ok (((t.value : D), t.natural.length, t.decimalDigits), c :: more) :=
    readDecimal_iff.mpr ⟨t, c, more, rfl, rfl, hv, hdigit, fun _ => hdot, rfl⟩
  obtain ⟨d, l, hl, hd⟩ := numberText_head hne hv (c :: more)
  have hsign : d ≠ Byte.minus := by
    rintro rfl
    exact absurd hd (by decide)
  rw [hl] at hdec ⊢
  by_cases he : c = 0x65 ∨ c = 0x45
  · simp [parseNumber, hd, hdec, he, hminus, hplus, readNatural_behind hdigit, hsign,
      DoubleArith.mul_one]
  · have hmem : c ∈ numberEnd := by simpa [behindNumber, he] using hc
    simp [parseNumber, hd, hdec, he, hmem, hsign, DoubleArith.mul_one]

theorem parseNumber_inv {obj obj' : JsonArray D} {l rest : List UInt8}
    (h : parseNumber obj l = .ok (obj', rest)) :
    ∃ (t : NumberText) (c : UInt8) (more : List UInt8), l = t.text ++ c :: more ∧
      t.Valid ∧ t.natural ≠ [] ∧ behindNumber c := by
  cases l with
  | nil => cases h
  | cons d l =>
    simp only [parseNumber, Prog.bind_apply, peek_list_cons, Outcome.bind_ok] at h
    cases hd : isDigit d with
    | false => simp [hd] at h
    | true =>
      simp only [hd, if_true, Prog.bind_apply] at h
      obtain ⟨⟨⟨value, nd, dd⟩, l₁⟩, hdec, h⟩ := Outcome.bind_eq_ok.mp h
      obtain ⟨t, c, more, hl, rfl, hv, hc, hdot, -⟩ := readDecimal_iff.mp hdec
      refine ⟨t, c, more, hl, hv, ?_, ?_⟩
      · intro hnil
        obtain ⟨natural, decimal⟩ := t
        obtain rfl : natural = [] := hnil
        cases decimal with
        | none =>
          obtain ⟨rfl, -⟩ := List.cons.inj hl
          rw [hc] at hd
          cases hd
        | some ds =>
          obtain ⟨rfl, -⟩ := List.cons.inj hl
          exact absurd hd (by decide)
      · simp only [peek_list_cons, Outcome.bind_ok] at h
        by_cases he : c = 0x65 ∨ c = 0x45
        · exact Or.inr he
        · by_cases hmem : c ∈ numberEnd
          · exact Or.inl hmem
          · simp [he, hmem] at h

end
end WylesLibs.Parser.Json
