import WylesLibs.Json.Accepts

/-! Whatever the parser accepts is one of its readings. -/
namespace WylesLibs.Parser.Json
open Library WylesLibs.Stream
variable {D : Type} [DoubleArith D]

/-- What `parseToken` takes at the byte `c` when it returns. -/
inductive TokenTaken (nestedArray : JsonArray D → Prog (List UInt8) (JsonArray D))
    (nestedObject : JsonObject D → Prog (List UInt8) (JsonObject D)) (obj : JsonArray D)
    (c : UInt8) (l : List UInt8) : JsonArray D × Bool → List UInt8 → Prop where
  | space (hc : isWhitespace c = true) : TokenTaken nestedArray nestedObject obj c l (obj, false) l
  | leaf (t : LeafText) {rest : List UInt8} (ht : c :: l = t.text ++ rest) (hv : t.Valid rest) :
      TokenTaken nestedArray nestedObject obj c l (obj.addValue t.value, true) rest
  | array {arr : JsonArray D} {rest : List UInt8} (hc : c = Byte.openBracket)
      (hdepth : obj.depth + 1 ≤ maxJsonDepth)
      (h : nestedArray ⟨obj.depth + 1, []⟩ (c :: l) = .ok (arr, rest)) :
      TokenTaken nestedArray nestedObject obj c l (obj.addValue arr.toValue, true) rest
  | object {new : JsonObject D} {rest : List UInt8} (hc : c = Byte.openBrace)
      (hdepth : obj.depth + 1 ≤ maxJsonDepth)
      (h : nestedObject ⟨obj.depth + 1, [], ⟨obj.depth + 1, []⟩⟩ (c :: l) = .ok (new, rest)) :
      TokenTaken nestedArray nestedObject obj c l (obj.addValue new.toValue, true) rest

section
variable {nestedArray : JsonArray D → Prog (List UInt8) (JsonArray D)}
variable {nestedObject : JsonObject D → Prog (List UInt8) (JsonObject D)} {obj : JsonArray D}
variable {c : UInt8} {l rest : List UInt8} {r : JsonArray D × Bool}

omit [DoubleArith D] in
theorem make_inv {depth : Nat} {arr : JsonArray D} (h : JsonArray.make depth = .ok arr) :
    depth ≤ maxJsonDepth ∧ arr = ⟨depth, []⟩ := by
  unfold JsonArray.make at h
  split at h
  · cases h
  · cases h
    exact ⟨by omega, rfl⟩

omit [DoubleArith D] in
theorem make_object_inv {depth : Nat} {new : JsonObject D} (h : JsonObject.make depth = .ok new) :
    depth ≤ maxJsonDepth ∧ new = ⟨depth, [], ⟨depth, []⟩⟩ := by
  unfold JsonObject.make at h
  split at h
  · cases h
  · cases h
    exact ⟨by omega, rfl⟩

theorem parseToken_inv
    (h : parseToken nestedArray nestedObject obj c (c :: l) = .ok (r, rest)) :
    TokenTaken nestedArray nestedObject obj c l r rest := by
  by_cases hq : c = Byte.quote
  · subst hq
    rw [parseToken_quote] at h
    obtain ⟨obj', l', hs, hp⟩ := Prog.bind_ok_iff.mp h
    obtain ⟨body, s, rfl, hbody, rfl⟩ := parseString_iff.mp hs
    cases hp
    exact .leaf (.string body s) rfl hbody
  by_cases hn : isDigit c = true ∨ c = Byte.plus ∨ c = Byte.minus
  · rw [parseToken, if_neg hq, if_pos hn] at h
    obtain ⟨obj', l', hs, hp⟩ := Prog.bind_ok_iff.mp h
    obtain ⟨t, d, more, hl, hv, hne, hd⟩ := parseNumber_inv hs
    rw [hl, parseNumber_ok hv hne hd] at hs
    cases hs
    cases hp
    exact .leaf (.number t) hl ⟨hv, hne, d, more, rfl, hd⟩
  by_cases ha : c = Byte.openBracket
  · subst ha
    rw [parseToken_openBracket] at h
    obtain ⟨arr, l', hmake, h⟩ := Prog.bind_ok_iff.mp h
    obtain ⟨arr', hmake', heq⟩ := Outcome.bind_eq_ok.mp hmake
    cases heq
    obtain ⟨hdepth, rfl⟩ := make_inv hmake'
    obtain ⟨arr', l', hs, hp⟩ := Prog.bind_ok_iff.mp h
    cases hp
    exact .array rfl hdepth hs
  by_cases ht : c = 0x74
  · subst ht
    rw [parseToken_true] at h
    obtain ⟨obj', l', hs, hp⟩ := Prog.bind_ok_iff.mp h
    obtain ⟨hl, rfl⟩ := parseImmediate_iff.mp hs
    cases hp
    exact .leaf (.boolean true) hl trivial
  by_cases hf : c = 0x66
  · subst hf
    rw [parseToken_false] at h
    obtain ⟨obj', l', hs, hp⟩ := Prog.bind_ok_iff.mp h
    obtain ⟨hl, rfl⟩ := parseImmediate_iff.mp hs
    cases hp
    exact .leaf (.boolean false) hl trivial
  by_cases hnull : c = 0x6E
  · subst hnull
    rw [parseToken_null] at h
    obtain ⟨obj', l', hs, hp⟩ := Prog.bind_ok_iff.mp h
    obtain ⟨hl, rfl⟩ := parseImmediate_iff.mp hs
    cases hp
    exact .leaf .null hl trivial
  by_cases ho : c = Byte.openBrace
  · subst ho
    rw [parseToken_openBrace] at h
    obtain ⟨new, l', hmake, h⟩ := Prog.bind_ok_iff.mp h
    obtain ⟨new', hmake', heq⟩ := Outcome.bind_eq_ok.mp hmake
    cases heq
    obtain ⟨hdepth, rfl⟩ := make_object_inv hmake'
    obtain ⟨new', l', hs, hp⟩ := Prog.bind_ok_iff.mp h
    cases hp
    exact .object rfl hdepth hs
  cases hw : isWhitespace c with
  | false => simp [parseToken, hq, hn, ha, ht, hf, hnull, ho, hw] at h
  | true =>
    rw [parseToken_whitespace hw] at h
    cases h
    exact .space hw

end

/-- Behind the token only space is passed. -/
theorem parseValueLoop_after_inv {n : Nat} {obj obj' : JsonArray D} {c : UInt8}
    {l rest : List UInt8} (h : parseValueLoop n obj true c (c :: l) = .ok (obj', rest)) :
    ∃ after, c :: l = after ++ rest ∧ Space after ∧ Stops rest ∧ obj' = obj := by
  induction n generalizing c l with
  | zero => cases h
  | succ n ih =>
    by_cases hc : c ∈ valueEnd
    · rw [parseValueLoop_stop hc] at h
      cases h
      exact ⟨[], rfl, by simp [Space], ⟨c, l, rfl, hc⟩, rfl⟩
    · rw [parseValueLoop_behind hc] at h
      cases hw : isWhitespace c with
      | false => simp [parseBehindToken, hw] at h
      | true =>
        rw [parseBehindToken_whitespace hw, Outcome.bind_ok] at h
        cases l with
        | nil => cases h
        | cons d m =>
          obtain ⟨after, hl, ha, hr, rfl⟩ := ih h
          exact ⟨c :: after, by rw [hl]; rfl, List.forall_mem_cons.mpr ⟨hw, ha⟩, hr, rfl⟩

/-- One more byte of space in front. -/
def SlotText.pad (c : UInt8) : SlotText → SlotText
  | .empty space => .empty (c :: space)
  | .filled before v after => .filled (c :: before) v after

omit [DoubleArith D] in
theorem SlotText.text_pad (c : UInt8) (s : SlotText) : (s.pad c).text = c :: s.text := by
  cases s <;> rfl

theorem SlotText.values_pad (c : UInt8) (s : SlotText) (depth : Nat) :
    ((s.pad c).values depth : List (JsonValue D)) = s.values depth := by
  cases s <;> rfl

omit [DoubleArith D] in
theorem SlotText.valid_pad {c : UInt8} (hc : isWhitespace c = true) {s : SlotText} {depth : Nat}
    {rest : List UInt8} (hs : s.Valid depth rest) : (s.pad c).Valid depth rest := by
  cases s with
  | empty space => exact ⟨List.forall_mem_cons.mpr ⟨hc, hs.1⟩, hs.2⟩
  | filled before v after => exact ⟨List.forall_mem_cons.mpr ⟨hc, hs.1⟩, hs.2⟩

/-! What each loop, cut off after `n` turns, has read when it returns. -/

def SlotRead (n : Nat) (obj : JsonArray D) : Prop :=
  ∀ (c : UInt8) (l rest : List UInt8) (obj' : JsonArray D),
    parseValueLoop n obj false c (c :: l) = .ok (obj', rest) →
      ∃ s : SlotText, c :: l = s.text ++ rest ∧ s.Valid obj.depth rest ∧
        obj' = { obj with values := obj.values ++ s.values obj.depth }

def ElementsRead (n : Nat) (arr : JsonArray D) : Prop :=
  ∀ (c : UInt8) (l rest : List UInt8) (arr' : JsonArray D),
    parseArrayLoop n arr c l = .ok (arr', rest) →
      ∃ els : ElementsText, c :: l = els.text ++ rest ∧ els.Valid arr.depth rest ∧
        arr' = { arr with values := arr.values ++ els.values arr.depth }

def MembersRead (n : Nat) (obj : JsonObject D) : Prop :=
  ∀ (c : UInt8) (l rest : List UInt8) (obj' : JsonObject D),
    parseObjectLoop n obj c l = .ok (obj', rest) →
      ∃ ms : MembersText, c :: l = ms.text ++ rest ∧ ms.Valid obj.values.depth rest ∧
        obj' = { obj with
          keys := obj.keys ++ ms.keys
          values := { obj.values with
            values := obj.values.values ++ ms.values obj.values.depth } }

/-- A value, and the space behind it. -/
theorem filledSlot {n : Nat} {obj obj' : JsonArray D} {c : UInt8} {l l₁ rest : List UInt8}
    (v : ValueText) (hl : c :: l = v.text ++ l₁) (hv : v.Valid (obj.depth + 1) l₁)
    (h : (match l₁ with
      | [] => Outcome.thrown endOfData
      | d :: m => parseValueLoop n (obj.addValue (v.value (obj.depth + 1))) true d (d :: m)) =
        .ok (obj', rest)) :
    ∃ s : SlotText, c :: l = s.text ++ rest ∧ s.Valid obj.depth rest ∧
      obj' = { obj with values := obj.values ++ s.values obj.depth } := by
  cases l₁ with
  | nil => cases h
  | cons d m =>
    obtain ⟨after, hm, ha, hr, rfl⟩ := parseValueLoop_after_inv h
    rw [hm] at hl hv
    exact ⟨.filled [] v after, by rw [hl]; simp [SlotText.text],
      ⟨by simp [Space], hv, ha, hr⟩, rfl⟩

theorem slotRead_succ {n : Nat} (hslot : ∀ obj : JsonArray D, SlotRead n obj)
    (hels : ∀ arr : JsonArray D, ElementsRead n arr)
    (hms : ∀ obj : JsonObject D, MembersRead n obj) (obj : JsonArray D) :
    SlotRead (n + 1) obj := by
  intro c l rest obj' h
  by_cases hc : c ∈ valueEnd
  · rw [parseValueLoop_stop hc] at h
    cases h
    exact ⟨.empty [], rfl, ⟨by simp [Space], c, l, rfl, hc⟩, by simp [SlotText.values]⟩
  rw [parseValueLoop_token hc] at h
  obtain ⟨⟨r, l₁⟩, htoken, h⟩ := Outcome.bind_eq_ok.mp h
  cases parseToken_inv htoken with
  | space hw =>
    cases l with
    | nil => cases h
    | cons d m =>
      obtain ⟨s, hs, hv, rfl⟩ := hslot obj d m rest obj' h
      exact ⟨s.pad c, by rw [hs, s.text_pad]; rfl, SlotText.valid_pad hw hv,
        by rw [s.values_pad]⟩
  | leaf t ht hv => exact filledSlot (.leaf t) ht hv h
  | array hbracket hdepth hnested =>
    simp only [parseArray, Prog.bind_apply, get_list_cons, Outcome.bind_ok] at hnested
    obtain ⟨els, hl, hv, rfl⟩ := hels _ _ _ _ _ hnested
    have hhead : els.head = Byte.openBracket := by
      obtain ⟨t, ht⟩ := els.text_eq
      rw [ht] at hl
      rw [← hbracket]
      exact (List.cons.inj hl).1.symm
    exact filledSlot (.array els) hl ⟨hdepth, hhead, hv⟩ h
  | object hbrace hdepth hnested =>
    simp only [parseObject, Prog.bind_apply, get_list_cons, Outcome.bind_ok] at hnested
    obtain ⟨ms, hl, hv, rfl⟩ := hms _ _ _ _ _ hnested
    have hhead : ms.head = Byte.openBrace := by
      obtain ⟨t, ht⟩ := ms.text_eq
      rw [ht] at hl
      rw [← hbrace]
      exact (List.cons.inj hl).1.symm
    exact filledSlot (.object ms) hl ⟨hdepth, hhead, hv⟩ h

theorem elementsRead_succ {n : Nat} (hslot : ∀ obj : JsonArray D, SlotRead n obj)
    (hels : ∀ arr : JsonArray D, ElementsRead n arr) (arr : JsonArray D) :
    ElementsRead (n + 1) arr := by
  intro c l rest arr' h
  by_cases hclose : c = Byte.closeBracket
  · subst hclose
    rw [parseArrayLoop_close] at h
    cases h
    exact ⟨.close, rfl, trivial, by simp [ElementsText.values]⟩
  by_cases hc : c = Byte.openBracket ∨ c = Byte.comma
  · rw [parseArrayLoop_slot hc] at h
    obtain ⟨⟨arr₁, l₁⟩, hvalue, h⟩ := Outcome.bind_eq_ok.mp h
    cases l with
    | nil => cases hvalue
    | cons d m =>
      obtain ⟨s, hl, hs, rfl⟩ := hslot arr d m l₁ arr₁ hvalue
      cases l₁ with
      | nil => cases h
      | cons e k =>
        obtain ⟨more, hk, hmore, rfl⟩ := hels _ e k rest arr' h
        rw [hk] at hl hs
        exact ⟨.slot c s more, by rw [hl]; simp [ElementsText.text], ⟨hc, hs, hmore⟩,
          by simp [ElementsText.values]⟩
  · rw [parseArrayLoop_skipped hclose hc] at h
    cases l with
    | nil => cases h
    | cons d m =>
      obtain ⟨more, hm, hmore, rfl⟩ := hels arr d m rest arr' h
      exact ⟨.skipped c more, by rw [hm]; rfl, ⟨hclose, hc, hmore⟩,
        by simp [ElementsText.values]⟩

theorem membersRead_succ {n : Nat} (hslot : ∀ obj : JsonArray D, SlotRead n obj)
    (hms : ∀ obj : JsonObject D, MembersRead n obj) (obj : JsonObject D) :
    MembersRead (n + 1) obj := by
  intro c l rest obj' h
  by_cases hclose : c = Byte.closeBrace
  · subst hclose
    rw [parseObjectLoop_close] at h
    cases h
    exact ⟨.close, rfl, trivial, by simp [MembersText.values, MembersText.keys]⟩
  by_cases hc : c = Byte.openBrace ∨ c = Byte.comma
  · rw [parseObjectLoop_member hc] at h
    obtain ⟨⟨⟨found, obj₁⟩, l₁⟩, hkey, h⟩ := Outcome.bind_eq_ok.mp h
    obtain ⟨k, rfl, hk, haccept⟩ := parseKey_iff.mp hkey
    obtain ⟨hd, hfound⟩ | ⟨hd, hlen, hfound⟩ := acceptKey_inv hk haccept
    · cases hfound
      cases h
      exact ⟨.last c k, rfl, ⟨hc, hk, hd⟩, by simp [MembersText.values, MembersText.keys]⟩
    · cases hfound
      obtain ⟨⟨values, l₂⟩, hvalue, h⟩ := Outcome.bind_eq_ok.mp h
      cases l₁ with
      | nil => cases hvalue
      | cons d m =>
        obtain ⟨s, hl, hs, rfl⟩ := hslot (obj.addKey k.key).values d m l₂ values hvalue
        cases l₂ with
        | nil => cases h
        | cons e t =>
          obtain ⟨more, ht, hmore, rfl⟩ := hms _ e t rest obj' h
          rw [ht] at hl hs
          rw [hl] at hk
          exact ⟨.member c k s more, by rw [hl]; simp [MembersText.text],
            ⟨hc, hk, hd, hlen, hs, hmore⟩,
            by simp [MembersText.values, MembersText.keys, JsonObject.addKey]⟩
  · rw [parseObjectLoop_spin hclose hc] at h
    exact hms obj c l rest obj' h

theorem reads (n : Nat) : (∀ obj : JsonArray D, SlotRead n obj) ∧
    (∀ arr : JsonArray D, ElementsRead n arr) ∧ ∀ obj : JsonObject D, MembersRead n obj := by
  induction n with
  | zero =>
    refine ⟨fun obj c l rest obj' h => ?_, fun arr c l rest arr' h => ?_,
      fun obj c l rest obj' h => ?_⟩ <;> cases h
  | succ n ih =>
    obtain ⟨hslot, hels, hms⟩ := ih
    exact ⟨slotRead_succ hslot hels hms, elementsRead_succ hslot hels,
      membersRead_succ hslot hms⟩

end WylesLibs.Parser.Json
