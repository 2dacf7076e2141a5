import WylesLibs.Json.Layout

/-! When `parse` comes to an end. It does unless the loop of `parseObject` is left in front of a
closing bracket: at that byte it turns in place. -/
namespace WylesLibs.Parser.Json
open Library WylesLibs.Stream
variable {D : Type}

/-! Texts at which a loop never ends. Everything in front of the bracket is read as usual. -/

/-- A member of an object up to its colon, from the byte in front of it. -/
structure MemberOpens (c : UInt8) (k : KeyText) (rest : List UInt8) : Prop where
  front : c = Byte.openBrace ∨ c = Byte.comma
  key : k.Valid rest
  colon : k.delimiter = Byte.colon
  short : k.key.length < maxLengthOfJsonStringKeys

/-- The three loops that call each other. -/
inductive Loop where
  | value
  | array
  | object

/-- The texts that hold up a loop at a depth, from the byte it looks at. -/
inductive StuckAt : Loop → Nat → List UInt8 → Prop where
  | bracket (depth : Nat) (l : List UInt8) : StuckAt .object depth (Byte.closeBracket :: l)
  | nestedArray {depth : Nat} {space l : List UInt8} (hs : Space space)
      (hdepth : depth + 1 ≤ maxJsonDepth)
      (h : StuckAt .array (depth + 1) (Byte.openBracket :: l)) :
      StuckAt .value depth (space ++ Byte.openBracket :: l)
  | nestedObject {depth : Nat} {space l : List UInt8} (hs : Space space)
      (hdepth : depth + 1 ≤ maxJsonDepth)
      (h : StuckAt .object (depth + 1) (Byte.openBrace :: l)) :
      StuckAt .value depth (space ++ Byte.openBrace :: l)
  | element {depth : Nat} {c : UInt8} {l : List UInt8}
      (hc : c = Byte.openBracket ∨ c = Byte.comma) (h : StuckAt .value depth l) :
      StuckAt .array depth (c :: l)
  | afterElement {depth : Nat} {c : UInt8} {s : SlotText} {l : List UInt8}
      (hc : c = Byte.openBracket ∨ c = Byte.comma) (hs : s.Valid depth l)
      (h : StuckAt .array depth l) : StuckAt .array depth (c :: (s.text ++ l))
  | afterSkipped {depth : Nat} {c : UInt8} {l : List UInt8} (hne : c ≠ Byte.closeBracket)
      (hc : ¬ (c = Byte.openBracket ∨ c = Byte.comma)) (h : StuckAt .array depth l) :
      StuckAt .array depth (c :: l)
  | member {depth : Nat} {c : UInt8} {k : KeyText} {l : List UInt8} (hk : MemberOpens c k l)
      (h : StuckAt .value depth l) : StuckAt .object depth (c :: (k.text ++ l))
  | afterMember {depth : Nat} {c : UInt8} {k : KeyText} {s : SlotText} {l : List UInt8}
      (hk : MemberOpens c k (s.text ++ l)) (hs : s.Valid depth l)
      (h : StuckAt .object depth l) : StuckAt .object depth (c :: (k.text ++ (s.text ++ l)))

/-- In some object of the text, where a comma or the closing brace is due behind a member, there
is a closing bracket. -/
inductive Stuck : List UInt8 → Prop where
  | array {space l : List UInt8} (hs : Space space)
      (h : StuckAt .array 0 (Byte.openBracket :: l)) : Stuck (space ++ Byte.openBracket :: l)
  | object {space l : List UInt8} (hs : Space space)
      (h : StuckAt .object 0 (Byte.openBrace :: l)) : Stuck (space ++ Byte.openBrace :: l)

/-! In front of a stuck text no step bound is enough. -/

theorem StuckAt.ne_nil {loop : Loop} {depth : Nat} {text : List UInt8}
    (h : StuckAt loop depth text) : ∃ c l, text = c :: l := by
  cases h <;> exact List.exists_cons_of_ne_nil (by simp)

variable [DoubleArith D]

omit [DoubleArith D] in
theorem MemberOpens.parseKey {c : UInt8} {k : KeyText} {rest : List UInt8}
    (hk : MemberOpens c k rest) (obj : JsonObject D) :
    parseKey obj (k.text ++ rest) = .ok ((true, obj.addKey k.key), rest) :=
  parseKey_iff.mpr ⟨k, rfl, hk.key, acceptKey_colon hk.colon hk.short obj⟩

/-- At a closing bracket the loop of `parseObject` only ever turns. -/
theorem parseObjectLoop_bracket (n : Nat) (obj : JsonObject D) (l : List UInt8) :
    parseObjectLoop n obj Byte.closeBracket l = .timeout := by
  induction n with
  | zero => rfl
  | succ n ih =>
    rw [parseObjectLoop_spin (by decide) (by decide)]
    exact ih

theorem parseValueLoop_cut {n k : Nat} (hn : n ≤ k) {obj : JsonArray D} {parsed : Bool}
    {c : UInt8} {l : List UInt8} (h : parseValueLoop k obj parsed c l = .timeout) :
    parseValueLoop n obj parsed c l = .timeout :=
  (Prog.Le.of_step (m := fun n => parseValueLoop n obj parsed c)
    (fun n => (loops_le n).1 obj parsed c) hn l).timeout h

theorem parseArrayLoop_cut {n k : Nat} (hn : n ≤ k) {arr : JsonArray D} {c : UInt8}
    {l : List UInt8} (h : parseArrayLoop k arr c l = .timeout) :
    parseArrayLoop n arr c l = .timeout :=
  (Prog.Le.of_step (m := fun n => parseArrayLoop n arr c)
    (fun n => (loops_le n).2.1 arr c) hn l).timeout h

theorem parseObjectLoop_cut {n k : Nat} (hn : n ≤ k) {obj : JsonObject D} {c : UInt8}
    {l : List UInt8} (h : parseObjectLoop k obj c l = .timeout) :
    parseObjectLoop n obj c l = .timeout :=
  (Prog.Le.of_step (m := fun n => parseObjectLoop n obj c)
    (fun n => (loops_le n).2.2 obj c) hn l).timeout h

/-- A value that is never read whole holds up the loop behind any space. -/
theorem parseValueLoop_stuck {space t l : List UInt8} {c d : UInt8} (hs : Space space)
    (hc : space ++ d :: t = c :: l) (hd : d ∉ valueEnd) {n : Nat} {obj : JsonArray D}
    (h : ∀ n, parseToken (parseArray n) (parseObject n) obj d (d :: t) = .timeout) :
    parseValueLoop n obj false c (c :: l) = .timeout := by
  refine parseValueLoop_cut (k := space.length + (n + 1)) (by omega) ?_
  rw [parseValueLoop_before hs hc rfl, parseValueLoop_token hd, h]
  rfl

variable (D) in
/-- No step bound is enough for the loop. -/
def Hangs (loop : Loop) (depth : Nat) (text : List UInt8) : Prop :=
  ∀ c l, text = c :: l → ∀ n,
    match loop with
    | .value => ∀ obj : JsonArray D, obj.depth = depth →
        parseValueLoop n obj false c (c :: l) = .timeout
    | .array => ∀ arr : JsonArray D, arr.depth = depth → parseArrayLoop n arr c l = .timeout
    | .object => ∀ obj : JsonObject D, obj.values.depth = depth →
        parseObjectLoop n obj c l = .timeout

theorem StuckAt.hangs {loop : Loop} {depth : Nat} {text : List UInt8}
    (h : StuckAt loop depth text) : Hangs D loop depth text := by
  induction h with
  | bracket depth rest =>
    intro c l hc n obj hdepth
    obtain ⟨rfl, rfl⟩ := List.cons.inj hc
    exact parseObjectLoop_bracket n obj rest
  | @nestedArray depth _ _ hs hmax h ih =>
    intro c l hc n obj hdepth
    refine parseValueLoop_stuck hs hc (by decide) fun n => ?_
    have hloop := ih _ _ rfl n ⟨depth + 1, []⟩ rfl
    rw [parseToken_openBracket, hdepth]
    simp [JsonArray.make_ok hmax, parseArray, hloop]
  | @nestedObject depth _ _ hs hmax h ih =>
    intro c l hc n obj hdepth
    refine parseValueLoop_stuck hs hc (by decide) fun n => ?_
    have hloop := ih _ _ rfl n ⟨depth + 1, [], ⟨depth + 1, []⟩⟩ rfl
    rw [parseToken_openBrace, hdepth]
    simp [JsonObject.make_ok hmax, parseObject, hloop]
  | element hfront h ih =>
    intro c l hc n arr hdepth
    obtain ⟨rfl, rfl⟩ := List.cons.inj hc
    obtain ⟨d, m, rfl⟩ := h.ne_nil
    have hvalue := ih d m rfl n arr hdepth
    refine parseArrayLoop_cut (k := n + 1) (by omega) ?_
    rw [parseArrayLoop_slot hfront]
    simp [parseValue, hvalue]
  | @afterElement _ _ s _ hfront hs h ih =>
    intro c l hc n arr hdepth
    subst hdepth
    obtain ⟨rfl, rfl⟩ := List.cons.inj hc
    obtain ⟨d, m, rfl⟩ := h.ne_nil
    refine parseArrayLoop_cut (k := s.text.length + n + 1 + 1) (by omega) ?_
    rw [parseArrayLoop_slot hfront, s.accepts arr hs (by omega), Outcome.bind_ok]
    exact ih d m rfl _ _ rfl
  | afterSkipped hne hskip h ih =>
    intro c l hc n arr hdepth
    obtain ⟨rfl, rfl⟩ := List.cons.inj hc
    obtain ⟨d, m, rfl⟩ := h.ne_nil
    refine parseArrayLoop_cut (k := n + 1) (by omega) ?_
    rw [parseArrayLoop_skipped hne hskip]
    exact ih d m rfl n arr hdepth
  | @member _ _ k _ hk h ih =>
    intro c l hc n obj hdepth
    obtain ⟨rfl, rfl⟩ := List.cons.inj hc
    obtain ⟨d, m, rfl⟩ := h.ne_nil
    have hvalue := ih d m rfl n (obj.addKey k.key).values hdepth
    refine parseObjectLoop_cut (k := n + 1) (by omega) ?_
    rw [parseObjectLoop_member hk.front, hk.parseKey obj]
    simp [parseValue, hvalue]
  | @afterMember _ _ k s _ hk hs h ih =>
    intro c l hc n obj hdepth
    subst hdepth
    obtain ⟨rfl, rfl⟩ := List.cons.inj hc
    obtain ⟨d, m, rfl⟩ := h.ne_nil
    refine parseObjectLoop_cut (k := s.text.length + n + 1 + 1) (by omega) ?_
    rw [parseObjectLoop_member hk.front, hk.parseKey obj, Outcome.bind_ok]
    simp only [if_true]
    rw [s.accepts (obj.addKey k.key).values hs (by omega), Outcome.bind_ok]
    exact ih d m rfl _ _ rfl

/-! Where the step bound is large enough for the bytes that are left, it is a stuck text that
holds a loop up. -/

theorem settles_parseStringLoop (left : Nat) (prev c : UInt8) (s : List UInt8) :
    (parseStringLoop left prev c s : Prog (List UInt8) _).Settles := by
  induction left generalizing prev c s with
  | zero => exact .pure _
  | succ left ih =>
    have hnext (m : Prog (List UInt8) (List UInt8)) (hm : m.Settles) :
        (m >>= fun s => get >>= fun next => parseStringLoop left c next s).Settles :=
      .bind hm fun s => .bind settles_get fun next => ih c next s
    refine .ite (.ite (.ite ?_ (hnext _ (.pure _))) (hnext _ (.pure _))) (.pure _)
    exact .bind (settles_readString _ _) fun _ => hnext _ (.pure _)

omit [DoubleArith D] in
theorem settles_parseString (obj : JsonArray D) :
    (parseString obj : Prog (List UInt8) _).Settles :=
  .bind settles_get fun _ => .bind settles_get fun _ =>
    .bind (settles_parseStringLoop _ _ _ _) fun _ => .ite (.raise _) (.pure _)

omit [DoubleArith D] in
theorem settles_parseImmediate (obj : JsonArray D) (comp : List UInt8) (value : JsonValue D) :
    (parseImmediate obj comp value : Prog (List UInt8) _).Settles :=
  .rescue (.bind (settles_readString _ _) fun _ => .pure _) _

omit [DoubleArith D] in
theorem settles_parseKey (obj : JsonObject D) : (parseKey obj : Prog (List UInt8) _).Settles :=
  .bind (settles_read _ _ _) fun _ => .lift (EStreamSim.settled_acceptKey _ _)

theorem settles_parseNumber (obj : JsonArray D) :
    (parseNumber obj : Prog (List UInt8) _).Settles := by
  refine .bind settles_peek fun c => .bind settles_peek fun d => .ite ?_ (.raise _)
  refine .bind settles_readDecimal fun p => .bind settles_peek fun e => ?_
  refine .ite (.bind settles_peek fun sign => ?_)
    (.ite (.bind (.pure _) fun _ => .pure _) (.bind (.raise _) fun _ => .pure _))
  refine .ite (.bind settles_get fun _ => .bind settles_readNatural fun exp => ?_)
    (.bind settles_readNatural fun exp => ?_)
  all_goals
    refine .ite (.bind (.raise _) fun _ => .pure _) (.ite (.bind (.pure _) fun _ => .pure _) ?_)
    exact .ite (.bind (.pure _) fun _ => .pure _) (.bind (.pure _) fun _ => .pure _)

/-- A token that is never read is a nested array or object that is never read. -/
theorem parseToken_timeout {nestedArray : JsonArray D → Prog (List UInt8) (JsonArray D)}
    {nestedObject : JsonObject D → Prog (List UInt8) (JsonObject D)} {obj : JsonArray D}
    {c : UInt8} {l : List UInt8}
    (h : parseToken nestedArray nestedObject obj c l = .timeout) :
    (c = Byte.openBracket ∧ obj.depth + 1 ≤ maxJsonDepth ∧
      nestedArray ⟨obj.depth + 1, []⟩ l = .timeout) ∨
    (c = Byte.openBrace ∧ obj.depth + 1 ≤ maxJsonDepth ∧
      nestedObject ⟨obj.depth + 1, [], ⟨obj.depth + 1, []⟩⟩ l = .timeout) := by
  by_cases ha : c = Byte.openBracket
  · subst ha
    rw [parseToken_openBracket] at h
    by_cases hdepth : obj.depth + 1 ≤ maxJsonDepth
    · have hor : nestedArray ⟨obj.depth + 1, []⟩ l = .timeout := by
        simpa [JsonArray.make_ok hdepth, Outcome.bind_eq_timeout] using h
      exact Or.inl ⟨rfl, hdepth, hor⟩
    · simp [JsonArray.make, Nat.not_le.mp hdepth] at h
  by_cases ho : c = Byte.openBrace
  · subst ho
    rw [parseToken_openBrace] at h
    by_cases hdepth : obj.depth + 1 ≤ maxJsonDepth
    · have hor : nestedObject ⟨obj.depth + 1, [], ⟨obj.depth + 1, []⟩⟩ l = .timeout := by
        simpa [JsonObject.make_ok hdepth, Outcome.bind_eq_timeout] using h
      exact Or.inr ⟨rfl, hdepth, hor⟩
    · simp [JsonObject.make, Nat.not_le.mp hdepth] at h
  -- every other token is read in one go
  exfalso
  have hleaf : (parseToken nestedArray nestedObject obj c).Settles := by
    rw [parseToken, if_neg ha, if_neg ho]
    refine .ite (.bind (settles_parseString _) fun _ => .pure _) ?_
    refine .ite (.bind (settles_parseNumber _) fun _ => .pure _) ?_
    refine .ite (.bind (settles_parseImmediate _ _ _) fun _ => .pure _) ?_
    refine .ite (.bind (settles_parseImmediate _ _ _) fun _ => .pure _) ?_
    refine .ite (.bind (settles_parseImmediate _ _ _) fun _ => .pure _) ?_
    exact .ite (.raise _) (.bind settles_get fun _ => .pure _)
  exact (hleaf l).2 h

theorem parseValueLoop_after_ends {n : Nat} {obj : JsonArray D} {c : UInt8} {l : List UInt8}
    (hn : l.length < n) : parseValueLoop n obj true c (c :: l) ≠ .timeout := by
  induction n generalizing c l with
  | zero => omega
  | succ n ih =>
    by_cases hc : c ∈ valueEnd
    · simp [parseValueLoop_stop hc]
    rw [parseValueLoop_behind hc]
    cases hw : isWhitespace c with
    | false => simp [parseBehindToken, hw]
    | true =>
      rw [parseBehindToken_whitespace hw, Outcome.bind_ok]
      cases l with
      | nil => simp
      | cons d m => exact ih (by simp only [List.length_cons] at hn; omega)

omit [DoubleArith D] in
theorem StuckAt.pad {depth : Nat} {text : List UInt8} {c : UInt8} (hc : isWhitespace c = true)
    (h : StuckAt .value depth text) : StuckAt .value depth (c :: text) := by
  cases h with
  | @nestedArray _ space _ hs hdepth h =>
    exact .nestedArray (List.forall_mem_cons.mpr ⟨hc, hs⟩) hdepth h
  | @nestedObject _ space _ hs hdepth h =>
    exact .nestedObject (List.forall_mem_cons.mpr ⟨hc, hs⟩) hdepth h

/-! With `n` turns to go, a loop that is cut off is at a stuck text. -/

variable (D) in
def CutValue (n : Nat) : Prop :=
  ∀ (obj : JsonArray D) (c : UInt8) (l : List UInt8), 2 * l.length + 2 ≤ n →
    parseValueLoop n obj false c (c :: l) = .timeout → StuckAt .value obj.depth (c :: l)

variable (D) in
def CutArray (n : Nat) : Prop :=
  ∀ (arr : JsonArray D) (c : UInt8) (l : List UInt8), 2 * l.length + 1 ≤ n →
    parseArrayLoop n arr c l = .timeout → StuckAt .array arr.depth (c :: l)

variable (D) in
def CutObject (n : Nat) : Prop :=
  ∀ (obj : JsonObject D) (c : UInt8) (l : List UInt8), c = Byte.openBrace ∨ c ∈ valueEnd →
    2 * l.length + 1 ≤ n → parseObjectLoop n obj c l = .timeout →
      StuckAt .object obj.values.depth (c :: l)

/-- Behind a token the loop comes to its end. -/
theorem behindToken_ends {n : Nat} {obj : JsonArray D} {l : List UInt8} (hn : l.length ≤ n) :
    (match l with
      | [] => Outcome.thrown endOfData
      | d :: m => parseValueLoop n obj true d (d :: m)) ≠ .timeout := by
  cases l with
  | nil => simp
  | cons d m => exact parseValueLoop_after_ends (by simp only [List.length_cons] at hn; omega)

theorem cutValue_succ {n : Nat} (hvalue : CutValue D n) (harr : CutArray D n)
    (hobj : CutObject D n) : CutValue D (n + 1) := by
  intro obj c l hn h
  by_cases hc : c ∈ valueEnd
  · simp [parseValueLoop_stop hc] at h
  rw [parseValueLoop_token hc] at h
  obtain htoken | ⟨⟨r, l₁⟩, htoken, h⟩ := Outcome.bind_eq_timeout.mp h
  · obtain ⟨rfl, hdepth, hnested⟩ | ⟨rfl, hdepth, hnested⟩ := parseToken_timeout htoken
    · simp only [parseArray, Prog.bind_apply, get_list_cons, Outcome.bind_ok] at hnested
      exact .nestedArray (show Space [] by simp [Space]) hdepth
        (harr _ _ _ (by omega) hnested)
    · simp only [parseObject, Prog.bind_apply, get_list_cons, Outcome.bind_ok] at hnested
      exact .nestedObject (show Space [] by simp [Space]) hdepth
        (hobj _ _ _ (Or.inl rfl) (by omega) hnested)
  · cases parseToken_inv htoken with
    | space hw =>
      cases l with
      | nil => cases h
      | cons d m =>
        simp only [List.length_cons] at hn
        exact .pad hw (hvalue obj d m (by omega) h)
    | leaf t ht hv =>
      have hlen := congrArg List.length ht
      have hleaf : (ValueText.leaf t).Valid 0 l₁ := hv
      have hpos := ValueText.text_pos hleaf
      simp only [List.length_cons, List.length_append, ValueText.text] at hlen hpos
      exact absurd h (behindToken_ends (l := l₁) (by omega))
    | array hbracket hdepth hnested =>
      simp only [parseArray, Prog.bind_apply, get_list_cons, Outcome.bind_ok] at hnested
      obtain ⟨els, hl, -, -⟩ := (reads n).2.1 _ _ _ _ _ hnested
      obtain ⟨t, ht⟩ := els.text_eq
      have hlen := congrArg List.length hl
      simp only [List.length_cons, List.length_append, ht] at hlen
      exact absurd h (behindToken_ends (l := l₁) (by omega))
    | object hbrace hdepth hnested =>
      simp only [parseObject, Prog.bind_apply, get_list_cons, Outcome.bind_ok] at hnested
      obtain ⟨ms, hl, -, -⟩ := (reads n).2.2 _ _ _ _ _ hnested
      obtain ⟨t, ht⟩ := ms.text_eq
      have hlen := congrArg List.length hl
      simp only [List.length_cons, List.length_append, ht] at hlen
      exact absurd h (behindToken_ends (l := l₁) (by omega))

theorem cutArray_succ {n : Nat} (hvalue : CutValue D n) (harr : CutArray D n) :
    CutArray D (n + 1) := by
  intro arr c l hn h
  by_cases hclose : c = Byte.closeBracket
  · simp [hclose, parseArrayLoop_close] at h
  by_cases hc : c = Byte.openBracket ∨ c = Byte.comma
  · rw [parseArrayLoop_slot hc] at h
    cases l with
    | nil => simp [parseValue] at h
    | cons d m =>
      simp only [List.length_cons] at hn
      obtain hslot | ⟨⟨arr₁, l₁⟩, hslot, h⟩ := Outcome.bind_eq_timeout.mp h
      · exact .element hc (hvalue arr d m (by omega) hslot)
      · obtain ⟨s, hl, hs, rfl⟩ := (reads n).1 arr d m l₁ arr₁ hslot
        have hlen := congrArg List.length hl
        cases l₁ with
        | nil => cases h
        | cons e k =>
          simp only [List.length_cons, List.length_append] at hlen
          have hrest := harr _ e k (by omega) h
          rw [hl]
          exact .afterElement hc hs hrest
  · rw [parseArrayLoop_skipped hclose hc] at h
    cases l with
    | nil => cases h
    | cons d m =>
      simp only [List.length_cons] at hn
      exact .afterSkipped hclose hc (harr arr d m (by omega) h)

theorem cutObject_succ {n : Nat} (hvalue : CutValue D n) (hobj : CutObject D n) :
    CutObject D (n + 1) := by
  intro obj c l hfront hn h
  by_cases hclose : c = Byte.closeBrace
  · simp [hclose, parseObjectLoop_close] at h
  by_cases hc : c = Byte.openBrace ∨ c = Byte.comma
  · rw [parseObjectLoop_member hc] at h
    obtain hkey | ⟨⟨⟨found, obj₁⟩, l₁⟩, hkey, h⟩ := Outcome.bind_eq_timeout.mp h
    · exact absurd hkey (settles_parseKey obj l).2
    obtain ⟨k, rfl, hk, haccept⟩ := parseKey_iff.mp hkey
    obtain ⟨hd, hfound⟩ | ⟨hd, hlen, hfound⟩ := acceptKey_inv hk haccept
    · cases hfound
      cases h
    cases hfound
    simp only [List.length_append] at hn
    cases l₁ with
    | nil => simp [parseValue] at h
    | cons d m =>
      simp only [List.length_cons] at hn
      obtain hslot | ⟨⟨values, l₂⟩, hslot, h⟩ := Outcome.bind_eq_timeout.mp h
      · exact .member ⟨hc, hk, hd, hlen⟩ (hvalue (obj.addKey k.key).values d m (by omega) hslot)
      · obtain ⟨s, hl, hs, rfl⟩ := (reads n).1 (obj.addKey k.key).values d m l₂ values hslot
        have hlength := congrArg List.length hl
        obtain ⟨e, t, rfl, he⟩ := hs.stops
        simp only [List.length_cons, List.length_append] at hlength
        have hrest := hobj _ e t (Or.inr he) (by omega) h
        rw [hl] at hk ⊢
        exact .afterMember ⟨hc, hk, hd, hlen⟩ hs hrest
  · -- what is left of the bytes at which the loop may stand is the closing bracket
    obtain rfl : c = Byte.closeBracket := by
      simp only [valueEnd, List.mem_cons, List.not_mem_nil, or_false] at hfront
      grind
    exact .bracket _ l

theorem cut (n : Nat) : CutValue D n ∧ CutArray D n ∧ CutObject D n := by
  induction n with
  | zero =>
    exact ⟨fun _ _ _ hn _ => absurd hn (by omega), fun _ _ _ hn _ => absurd hn (by omega),
      fun _ _ _ _ hn _ => absurd hn (by omega)⟩
  | succ n ih =>
    obtain ⟨hvalue, harr, hobj⟩ := ih
    exact ⟨cutValue_succ hvalue harr hobj, cutArray_succ hvalue harr, cutObject_succ hvalue hobj⟩

omit [DoubleArith D] in
theorem skipWhitespace_ends {n : Nat} {c : UInt8} {l : List UInt8} (hn : l.length < n) :
    (skipWhitespace n c : Prog (List UInt8) UInt8) (c :: l) ≠ .timeout := by
  induction n generalizing c l with
  | zero => omega
  | succ n ih =>
    cases hc : isWhitespace c with
    | false => simp [skipWhitespace, hc]
    | true =>
      cases l with
      | nil => simp [skipWhitespace, hc]
      | cons d m =>
        have hrec := ih (c := d) (l := m) (by simp only [List.length_cons] at hn; omega)
        simpa [skipWhitespace, hc] using hrec

omit [DoubleArith D] in
theorem readWhiteSpaceUntil_ends {n : Nat} {untilChars l : List UInt8} (hn : l.length ≤ n) :
    (readWhiteSpaceUntil n untilChars : Prog (List UInt8) Unit) l ≠ .timeout := by
  cases l with
  | nil => simp [readWhiteSpaceUntil]
  | cons c l =>
    intro h
    by_cases hc : c ∈ untilChars
    · simp [readWhiteSpaceUntil, hc] at h
    simp only [readWhiteSpaceUntil, Prog.bind_apply, peek_list_cons, Outcome.bind_ok, hc,
      if_false] at h
    obtain hskip | ⟨⟨d, l₁⟩, -, h⟩ := Outcome.bind_eq_timeout.mp h
    · exact skipWhitespace_ends (by simp only [List.length_cons] at hn; omega) hskip
    · by_cases hd : d ∈ untilChars
      · simp [hd] at h
      · simp [hd] at h

/-- With two turns for each byte only stuck texts are cut off. -/
theorem stuck_of_timeout {n : Nat} {text : List UInt8} (hn : 2 * text.length ≤ n)
    (h : (parse n : Prog (List UInt8) (JsonValue D)) text = .timeout) : Stuck text := by
  obtain hspace | ⟨⟨⟨⟩, l₁⟩, hspace, -⟩ := Outcome.bind_eq_timeout.mp h
  · exact absurd hspace (readWhiteSpaceUntil_ends (by omega))
  obtain ⟨space, d, more, rfl, rfl, hd, hs⟩ := readWhiteSpaceUntil_inv hspace
  simp only [List.length_append, List.length_cons] at hn
  obtain ⟨-, harr, hobj⟩ := cut (D := D) n
  obtain rfl | rfl : d = Byte.openBrace ∨ d = Byte.openBracket := by simpa [opening] using hd
  · rw [parse_brace hspace] at h
    simp only [Outcome.bind_eq_timeout, reduceCtorEq, and_false, exists_false, or_false] at h
    exact .object hs (hobj _ _ _ (Or.inl rfl) (by omega) h)
  · rw [parse_bracket hspace] at h
    simp only [Outcome.bind_eq_timeout, reduceCtorEq, and_false, exists_false, or_false] at h
    exact .array hs (harr _ _ _ (by omega) h)

theorem Stuck.timeout {text : List UInt8} (h : Stuck text) (n : Nat) :
    (parse n : Prog (List UInt8) (JsonValue D)) text = .timeout := by
  have hcut {k : Nat} (hk : n ≤ k)
      (h : (parse k : Prog (List UInt8) (JsonValue D)) text = .timeout) :
      (parse n : Prog (List UInt8) (JsonValue D)) text = .timeout := (parse_le hk text).timeout h
  cases h with
  | @array space l hs h =>
    have hloop := h.hangs (D := D) _ _ rfl (n + space.length + 1) ⟨0, []⟩ rfl
    refine hcut (k := n + space.length + 1) (by omega) ?_
    rw [parse_bracket (readWhiteSpaceUntil_ok hs (by decide) (by omega)), hloop]
    rfl
  | @object space l hs h =>
    have hloop := h.hangs (D := D) _ _ rfl (n + space.length + 1) ⟨0, [], ⟨0, []⟩⟩ rfl
    refine hcut (k := n + space.length + 1) (by omega) ?_
    rw [parse_brace (readWhiteSpaceUntil_ok hs (by decide) (by omega)), hloop]
    rfl

theorem stuck_iff_timeout (text : List UInt8) :
    Stuck text ↔ ∀ n, parse n (EStream.ofBuffer text) =
      (.timeout : Outcome (JsonValue D × EStream UInt8)) := by
  constructor
  · intro h n
    exact (parse_ofBuffer n text).timeout_iff.mpr (h.timeout n)
  · intro h
    exact stuck_of_timeout (D := D) (Nat.le_refl _) ((parse_ofBuffer _ text).timeout_iff.mp (h _))

/-- On a memory-backed stream `parse` returns a tree or throws, unless the text is stuck. -/
theorem parse_terminates_iff (text : List UInt8) :
    (∃ n, (parse n (EStream.ofBuffer text) :
      Outcome (JsonValue D × EStream UInt8)).Settled) ↔ ¬ Stuck text := by
  rw [stuck_iff_timeout (D := D)]
  constructor
  · rintro ⟨n, hn⟩ h
    exact hn.2 (h n)
  · intro h
    obtain ⟨n, hn⟩ := not_forall.mp h
    exact ⟨n, (parse_ofBuffer n text).ne_undef, hn⟩

/-- A bracket where a value and the closing brace are missing. -/
theorem parse_bracket_in_object :
    ¬ ∃ n, (parse n (EStream.ofBuffer
      [Byte.openBrace, Byte.quote, 0x61, Byte.quote, Byte.colon, Byte.closeBracket]) :
        Outcome (JsonValue Rat × EStream UInt8)).Settled := by
  rintro ⟨n, hn⟩
  have hkey : MemberOpens Byte.openBrace ⟨[], some ([0x61], []), Byte.colon⟩
      ([] ++ [Byte.closeBracket]) :=
    ⟨Or.inl rfl, keyText_valid (by decide) (by decide) (by decide) _, rfl, by decide⟩
  have hstuck : Stuck
      [Byte.openBrace, Byte.quote, 0x61, Byte.quote, Byte.colon, Byte.closeBracket] :=
    .object (show Space [] by simp [Space])
      (.afterMember (s := .empty []) hkey ⟨by simp [Space], stops_bracket []⟩ (.bracket 0 []))
  exact hn.2 ((stuck_iff_timeout _).mp hstuck n)

end WylesLibs.Parser.Json
