import WylesLibs.EStream.Bail
import WylesLibs.Json.Token

/-! The encodings of a string in JSON, and which of them the parser decodes. -/
namespace WylesLibs.Parser.Json
open Library WylesLibs.Stream
variable {D : Type}

/-! The encodings. -/

/-- A character and the letter behind the backslash that stands for it. -/
def escapes : List (UInt8 × UInt8) :=
  [(Byte.quote, Byte.quote), (Byte.backslash, Byte.backslash), (0x2F, 0x2F), (0x08, 0x62),
    (0x0C, 0x66), (0x0A, 0x6E), (0x0D, 0x72), (0x09, 0x74)]

/-- An ASCII string and a text between quotes that stands for it. -/
inductive JsonEncoding : List UInt8 → List UInt8 → Prop where
  | nil : JsonEncoding [] []
  | plain {c : UInt8} {s text : List UInt8} (hascii : c < 0x80) (hq : c ≠ Byte.quote)
      (hb : c ≠ Byte.backslash) (h : JsonEncoding s text) : JsonEncoding (c :: s) (c :: text)
  | escaped {c e : UInt8} {s text : List UInt8} (he : (c, e) ∈ escapes) (h : JsonEncoding s text) :
      JsonEncoding (c :: s) (Byte.backslash :: e :: text)

theorem escape_backslash {e : UInt8} (he : (Byte.backslash, e) ∈ escapes) : e = Byte.backslash := by
  simp only [escapes, List.mem_cons, Prod.mk.injEq, List.not_mem_nil, or_false] at he
  obtain ⟨h, -⟩ | ⟨-, h⟩ | ⟨h, -⟩ | ⟨h, -⟩ | ⟨h, -⟩ | ⟨h, -⟩ | ⟨h, -⟩ | ⟨h, -⟩ := he
  · exact absurd h (by decide)
  · exact h
  all_goals exact absurd h (by decide)

theorem JsonEncoding.length_le {s text : List UInt8} (h : JsonEncoding s text) :
    s.length ≤ text.length := by
  induction h with
  | nil => simp
  | plain _ _ _ _ ih => simpa using ih
  | escaped _ _ ih =>
    simp only [List.length_cons]
    omega

/-! The loop of `parseString` over an encoding and its closing quote. -/

theorem StringBody.of_plain {left : Nat} {prev c : UInt8} {text s : List UInt8}
    (h : StringBody left prev (c :: text) s) (hne : text ≠ []) (hprev : prev ≠ Byte.backslash) :
    ∃ left' s', s = c :: s' ∧ StringBody left' c text s' := by
  cases h with
  | full => exact absurd rfl hne
  | close => exact absurd rfl hne
  | plain _ _ h => exact ⟨_, _, rfl, h⟩
  | escape => exact absurd rfl hprev
  | unicode => exact absurd rfl hprev

theorem StringBody.of_backslash {left : Nat} {text s : List UInt8}
    (h : StringBody left Byte.backslash (Byte.backslash :: text) s) (hne : text ≠ []) :
    ∃ left' s', s = Byte.backslash :: s' ∧ StringBody left' Byte.backslash text s' := by
  cases h with
  | full => exact absurd rfl hne
  | plain hp => exact absurd rfl hp
  | escape _ h => exact ⟨_, _, rfl, h⟩

/-- Behind a backslash that was taken for itself, more of them come out than the string has. -/
theorem not_stringBody_backslash {left m : Nat} {s text s' : List UInt8} (h : JsonEncoding s text)
    (hm : 0 < m) (hs : s = List.replicate m Byte.backslash ++ s')
    (hbody : StringBody left Byte.backslash (text ++ [Byte.quote]) s') : False := by
  induction h generalizing left m s' with
  | nil =>
    have hlen := congrArg List.length hs
    simp only [List.length_nil, List.length_append, List.length_replicate] at hlen
    omega
  | plain _ _ hb _ _ =>
    obtain ⟨m, rfl⟩ := Nat.exists_eq_succ_of_ne_zero (Nat.ne_of_gt hm)
    exact hb (List.cons.inj hs).1
  | @escaped c e s text he h ih =>
    obtain ⟨m, rfl⟩ := Nat.exists_eq_succ_of_ne_zero (Nat.ne_of_gt hm)
    obtain ⟨rfl, htail⟩ := List.cons.inj hs
    obtain rfl := escape_backslash he
    obtain ⟨left₁, s₁, rfl, hbody₁⟩ := hbody.of_backslash (by simp)
    obtain ⟨left₂, s₂, rfl, hbody₂⟩ := hbody₁.of_backslash (by simp)
    refine ih (m := m + 2) (Nat.succ_pos _) ?_ hbody₂
    rw [htail, List.replicate_add, List.append_assoc]
    rfl

/-- The backslash of the first escape stays in the string. -/
theorem JsonEncoding.eq_of_stringBody {left : Nat} {prev : UInt8} {s text : List UInt8} (h : JsonEncoding s text)
    (hprev : prev ≠ Byte.backslash) (hbody : StringBody left prev (text ++ [Byte.quote]) s) :
    text = s := by
  induction h generalizing left prev with
  | nil => rfl
  | plain _ _ hb _ ih =>
    obtain ⟨left', s', hs, hbody'⟩ := hbody.of_plain (by simp) hprev
    obtain ⟨-, rfl⟩ := List.cons.inj hs
    rw [ih hb hbody']
  | escaped he h _ =>
    obtain ⟨left', s', hs, hbody'⟩ := hbody.of_plain (by simp) hprev
    obtain ⟨rfl, rfl⟩ := List.cons.inj hs
    obtain rfl := escape_backslash he
    obtain ⟨left₁, s₁, rfl, hbody₁⟩ := hbody'.of_backslash (by simp)
    exact (not_stringBody_backslash h Nat.one_pos rfl hbody₁).elim

/-! On any stream. -/

section
variable {st st' : EStream UInt8} {l : List UInt8}

theorem contains_readString_two {r : List UInt8} (h : Contains st l)
    (hread : readString 2 (none : Option (NullTask UInt8)) st = .ok (r, st')) :
    ∃ a b l', l = a :: b :: l' ∧ Contains st' l' := by
  obtain ⟨⟨data, st₁⟩, hs, hpure⟩ := Outcome.bind_eq_ok.mp hread
  cases hpure
  obtain ⟨q, l', s', hlist, -, hs', h'⟩ | ⟨⟨w, hw⟩, -⟩ := Contains.streamCollect_cases
    (LoopCriteria.mk' .untilNumElements true 2 ([] : List UInt8)) (none : Option (NullTask UInt8))
    (⟨[]⟩ : ByteStringCollector) h
  · rw [hs] at hs'
    cases hs'
    have hstring : readString 2 (none : Option (NullTask UInt8)) l = .ok (data.1, l') :=
      Outcome.bind_eq_ok.mpr ⟨_, hlist, rfl⟩
    obtain ⟨a, b, hl⟩ := readString_two_inv hstring
    exact ⟨a, b, l', hl, h'⟩
  · rw [hs] at hw
    cases hw

theorem contains_parseStringLoop_inv {left : Nat} {prev c : UInt8} {acc r : List UInt8}
    (hst : Contains st l) (h : parseStringLoop left prev c acc st = .ok (r, st')) :
    ∃ text s rest, c :: l = text ++ rest ∧ StringBody left prev text s ∧ r = acc ++ s ∧
      Contains st' rest := by
  induction left generalizing prev c acc l st with
  | zero =>
    cases h
    exact ⟨[c], [], l, rfl, .full prev c, by simp, hst⟩
  | succ left ih =>
    -- what the rest of the loop does from the next byte on
    have hnext : ∀ {st₁ : EStream UInt8} {l₁ acc₁ : List UInt8}, Contains st₁ l₁ →
        ((Stream.get : Prog (EStream UInt8) UInt8) >>= fun next =>
          parseStringLoop left c next acc₁) st₁ = .ok (r, st') →
        ∃ text s rest, l₁ = text ++ rest ∧ StringBody left c text s ∧ r = acc₁ ++ s ∧
          Contains st' rest := by
      intro st₁ l₁ acc₁ h₁ hrest
      cases l₁ with
      | nil =>
        obtain ⟨w, hw⟩ := h₁.get_nil
        rw [Prog.bind_apply, hw] at hrest
        cases hrest
      | cons d l₁ =>
        obtain ⟨st₂, hget, h₂⟩ := h₁.get
        rw [Prog.bind_apply, hget, Outcome.bind_ok] at hrest
        exact ih h₂ hrest
    by_cases hp : prev = Byte.backslash
    · subst hp
      by_cases hu : c = 0x75
      · subst hu
        simp only [parseStringLoop, or_true, if_true, Prog.bind_apply] at h
        obtain ⟨⟨digits, st₁⟩, hd, hrest⟩ := Outcome.bind_eq_ok.mp h
        obtain ⟨a, b, l₁, rfl, h₁⟩ := contains_readString_two hst hd
        obtain ⟨text, s, rest, rfl, hs, hr, h'⟩ := hnext h₁ hrest
        exact ⟨0x75 :: a :: b :: text, s, rest, rfl, .unicode a b hs, hr, h'⟩
      · simp only [parseStringLoop, or_true, if_true, hu, if_false] at h
        obtain ⟨text, s, rest, rfl, hs, rfl, h'⟩ := hnext hst h
        exact ⟨c :: text, unescape c :: s, rest, rfl, .escape hu hs, by simp, h'⟩
    · by_cases hq : c = Byte.quote
      · subst hq
        simp only [parseStringLoop, ne_eq, not_true, hp, or_self, if_false] at h
        cases h
        exact ⟨[Byte.quote], [], l, rfl, .close left hp, by simp, hst⟩
      · simp only [parseStringLoop, ne_eq, hq, not_false_iff, true_or, if_true, hp, if_false] at h
        obtain ⟨text, s, rest, rfl, hs, rfl, h'⟩ := hnext hst h
        exact ⟨c :: text, c :: s, rest, rfl, .plain hp hq hs, by simp, h'⟩

theorem contains_parseStringLoop_plain {left : Nat} {prev c : UInt8} {s rest : List UInt8}
    (h : JsonEncoding s s) (hprev : prev ≠ Byte.backslash) (hlen : s.length < left)
    (hl : c :: l = s ++ Byte.quote :: rest) (hst : Contains st l) (acc : List UInt8) :
    ∃ st', parseStringLoop left prev c acc st = .ok (acc ++ s, st') ∧ Contains st' rest := by
  induction s generalizing left prev c l st acc with
  | nil =>
    obtain ⟨left, rfl⟩ := Nat.exists_eq_succ_of_ne_zero (Nat.ne_zero_of_lt hlen)
    obtain ⟨rfl, rfl⟩ := List.cons.inj hl
    exact ⟨st, by simp [parseStringLoop, hprev], hst⟩
  | cons d s ih =>
    obtain ⟨left, rfl⟩ := Nat.exists_eq_succ_of_ne_zero (Nat.ne_zero_of_lt hlen)
    obtain ⟨rfl, rfl⟩ := List.cons.inj hl
    cases h with
    | plain _ hq hb h =>
      obtain ⟨b, t, hbt⟩ : ∃ b t, s ++ Byte.quote :: rest = b :: t :=
        List.exists_cons_of_ne_nil (by simp)
      have hst' : Contains st (b :: t) := hbt ▸ hst
      obtain ⟨st₁, hget, h₁⟩ := hst'.get
      obtain ⟨st₂, hloop, h₂⟩ := ih h hb (by simpa using hlen) hbt.symm h₁ (acc ++ [c])
      refine ⟨st₂, ?_, h₂⟩
      simp only [parseStringLoop, ne_eq, hq, not_false_iff, true_or, if_true, hprev, if_false,
        Prog.bind_apply, Prog.pure_apply, Outcome.bind_ok, hget, hloop]
      simp
    | escaped _ h =>
      have hle := h.length_le
      simp only [List.length_cons] at hle
      omega

theorem zero_ne_backslash : (0 : UInt8) ≠ Byte.backslash := by decide

theorem contains_parseString {b : UInt8} {t : List UInt8}
    (hst : Contains st (Byte.quote :: b :: t)) :
    ∃ st₁, Contains st₁ t ∧ ∀ obj : JsonArray D, parseString obj st =
      (parseStringLoop maxLengthOfJsonStringValues 0 b [] st₁).bind fun p =>
        if p.1.length > maxLengthOfJsonStringValues then
          .thrown "parseString: string value too looooooonnnng!"
        else .ok (obj.addValue (.string p.1), p.2) := by
  obtain ⟨st₁, hget₁, h₁⟩ := hst.get
  obtain ⟨st₂, hget₂, h₂⟩ := h₁.get
  refine ⟨st₂, h₂, fun obj => ?_⟩
  simp only [parseString, Prog.bind_apply, hget₁, Outcome.bind_ok, hget₂]
  refine congrArg _ (funext fun p => ?_)
  split <;> rfl

section
variable {s text rest : List UInt8} {obj : JsonArray D}

theorem plain_of_decoded (h : JsonEncoding s text)
    (hst : Contains st (Byte.quote :: text ++ Byte.quote :: rest))
    (hs : parseString obj st = .ok (obj.addValue (.string s), st')) (h' : Contains st' rest) :
    text = s := by
  obtain ⟨b, t, hbt⟩ : ∃ b t, text ++ Byte.quote :: rest = b :: t :=
    List.exists_cons_of_ne_nil (by simp)
  rw [List.cons_append, hbt] at hst
  obtain ⟨st₁, h₁, hparse⟩ := contains_parseString (D := D) hst
  rw [hparse] at hs
  obtain ⟨⟨r, st₂⟩, hloop, hs⟩ := Outcome.bind_eq_ok.mp hs
  obtain ⟨taken, s', rest', hl, hbody, rfl, h₂⟩ := contains_parseStringLoop_inv h₁ hloop
  rw [if_neg (Nat.not_lt.mpr hbody.length_le)] at hs
  obtain ⟨hobj, rfl⟩ := Prod.mk.inj (Outcome.ok.inj hs)
  have hstring : r = s := by
    have hlast := List.append_cancel_left (congrArg JsonArray.values hobj)
    simpa using hlast
  subst hstring
  -- what is taken ends at the closing quote
  obtain rfl := h₂.remaining.symm.trans h'.remaining
  have htaken : text ++ [Byte.quote] ++ rest' = taken ++ rest' := by
    rw [List.append_assoc]
    exact hbt.trans hl
  rw [← List.append_cancel_right htaken] at hbody
  exact h.eq_of_stringBody zero_ne_backslash hbody

/-- An encoding is decoded, up to its closing quote, if it escapes nothing. -/
theorem string_decoded_iff (h : JsonEncoding s text) (hlen : s.length < maxLengthOfJsonStringValues)
    (hst : Contains st (Byte.quote :: text ++ Byte.quote :: rest)) (obj : JsonArray D) :
    (∃ st', parseString obj st = .ok (obj.addValue (.string s), st') ∧ Contains st' rest) ↔
      text = s := by
  constructor
  · intro hcase
    obtain ⟨st', hs, h'⟩ := hcase
    exact plain_of_decoded h hst hs h'
  · rintro rfl
    obtain ⟨b, t, hbt⟩ : ∃ b t, text ++ Byte.quote :: rest = b :: t :=
      List.exists_cons_of_ne_nil (by simp)
    rw [List.cons_append, hbt] at hst
    obtain ⟨st₁, h₁, hparse⟩ := contains_parseString (D := D) hst
    obtain ⟨st₂, hloop, h₂⟩ :=
      contains_parseStringLoop_plain h zero_ne_backslash hlen hbt.symm h₁ []
    refine ⟨st₂, ?_, h₂⟩
    rw [hparse, hloop, Outcome.bind_ok, List.nil_append, if_neg (Nat.not_lt.mpr hlen.le)]

end

theorem string_decoded_a : ∃ st',
    parseString (⟨0, []⟩ : JsonArray ℚ) (EStream.ofBuffer [Byte.quote, 0x61, Byte.quote]) =
      .ok (⟨0, [.string [0x61]]⟩, st') ∧ Contains st' [] := by
  have hencoding : JsonEncoding [0x61] [0x61] := .plain (by decide) (by decide) (by decide) .nil
  have hst : Contains (EStream.ofBuffer [Byte.quote, 0x61, Byte.quote])
      (Byte.quote :: [0x61] ++ Byte.quote :: []) := Or.inl (holds_ofBuffer _)
  exact (string_decoded_iff hencoding (by decide) hst ⟨0, []⟩).mpr rfl

/-- The backslash of `"\n"` stays in the string. -/
theorem string_decoded_newline :
    ¬ ∀ (s text rest : List UInt8) (st : EStream UInt8) (obj : JsonArray ℚ), JsonEncoding s text →
      s.length < maxLengthOfJsonStringValues →
      Contains st (Byte.quote :: text ++ Byte.quote :: rest) →
        ∃ st', parseString obj st = .ok (obj.addValue (.string s), st') ∧ Contains st' rest := by
  intro hevery
  have hencoding : JsonEncoding [0x0A] [Byte.backslash, 0x6E] := .escaped (by decide) .nil
  have hholds := holds_ofBuffer [Byte.quote, Byte.backslash, 0x6E, Byte.quote]
  obtain ⟨st', hs, h'⟩ := hevery _ _ [] _ ⟨0, []⟩ hencoding (by decide) (Or.inl hholds)
  have heq := plain_of_decoded hencoding (Or.inl hholds) hs h'
  exact absurd (congrArg List.length heq) (by decide)

end

end WylesLibs.Parser.Json
