import WylesLibs.Json.Turns

/-! The parser accepts every text that is one of its readings, with the value of the reading. -/
namespace WylesLibs.Parser.Json
open Library WylesLibs.Stream
variable {D : Type} [DoubleArith D]

/-- Space behind a token is passed up to the byte at which the loop stops. -/
theorem parseValueLoop_after {after rest : List UInt8} (ha : Space after) (hr : Stops rest)
    {n : Nat} (hn : after.length < n) {c : UInt8} {more : List UInt8}
    (hc : after ++ rest = c :: more) (obj : JsonArray D) :
    parseValueLoop n obj true c (c :: more) = .ok (obj, rest) := by
  induction after generalizing n c more with
  | nil =>
    obtain ⟨n, rfl⟩ : ∃ m, n = m + 1 := ⟨n - 1, by simp only [List.length_nil] at hn; omega⟩
    obtain ⟨d, m, rfl, hd⟩ := hr
    obtain ⟨rfl, rfl⟩ := List.cons.inj hc
    exact parseValueLoop_stop hd obj true
  | cons a after ih =>
    simp only [List.length_cons] at hn
    obtain ⟨n, rfl⟩ : ∃ m, n = m + 1 := ⟨n - 1, by omega⟩
    obtain ⟨rfl, rfl⟩ := List.cons.inj hc
    obtain ⟨hspace, ha⟩ := List.forall_mem_cons.mp ha
    obtain ⟨d, m, hd⟩ : ∃ d m, after ++ rest = d :: m := by
      obtain ⟨e, m, rfl, -⟩ := hr
      exact List.exists_cons_of_ne_nil (by simp)
    rw [parseValueLoop_behind (not_valueEnd_of_whitespace hspace), parseBehindToken_whitespace hspace,
      Outcome.bind_ok]
    simp only [List.append_eq, hd]
    exact ih ha (by omega) hd

/-- Space in front of a token is passed. -/
theorem parseValueLoop_before {before m : List UInt8} (hb : Space before) {n : Nat} {c d : UInt8}
    {l t : List UInt8} (hc : before ++ m = c :: l) (hd : m = d :: t) (obj : JsonArray D) :
    parseValueLoop (before.length + n) obj false c (c :: l) =
      parseValueLoop n obj false d (d :: t) := by
  induction before generalizing c l with
  | nil =>
    obtain rfl := hd
    obtain ⟨rfl, rfl⟩ := List.cons.inj hc
    simp
  | cons a before ih =>
    obtain ⟨rfl, rfl⟩ := List.cons.inj hc
    obtain ⟨hspace, hb⟩ := List.forall_mem_cons.mp hb
    obtain ⟨e, u, he⟩ : ∃ e u, before ++ m = e :: u := by
      rw [hd]
      exact List.exists_cons_of_ne_nil (by simp)
    have hlen : (a :: before).length + n = before.length + n + 1 := by
      simp only [List.length_cons]
      omega
    rw [hlen, parseValueLoop_token (not_valueEnd_of_whitespace hspace),
      parseToken_whitespace hspace]
    simp only [Prog.bind_apply, get_list_cons, Outcome.bind_ok, Prog.pure_apply, List.append_eq, he]
    exact ih hb he

/-- A token between spaces is what one call of `parseValue` takes. -/
theorem parseValue_filled {before token after rest : List UInt8} (hb : Space before)
    (ha : Space after) (hr : Stops rest) {n : Nat} {obj obj' : JsonArray D} {c : UInt8}
    {more : List UInt8} (hc : token ++ (after ++ rest) = c :: more) (hend : c ∉ valueEnd)
    (htoken : parseToken (parseArray n) (parseObject n) obj c (c :: more) =
      .ok ((obj', true), after ++ rest))
    (hn : after.length < n) :
    parseValue (before.length + (n + 1)) obj (before ++ token ++ after ++ rest) =
      .ok (obj', rest) := by
  obtain ⟨d, l, hd⟩ : ∃ d l, before ++ (token ++ (after ++ rest)) = d :: l := by
    rw [hc]
    exact List.exists_cons_of_ne_nil (by simp)
  obtain ⟨e, m, he⟩ : ∃ e m, after ++ rest = e :: m := by
    obtain ⟨e, m, rfl, -⟩ := hr
    exact List.exists_cons_of_ne_nil (by simp)
  have hstart := parseValueLoop_before hb (n := n + 1) hd hc obj
  rw [parseValueLoop_token hend, htoken, Outcome.bind_ok] at hstart
  simp only [he] at hstart
  have hafter := parseValueLoop_after ha hr hn he obj'
  rw [List.append_assoc, List.append_assoc, hd]
  simp only [parseValue, Prog.bind_apply, peek_list_cons, Outcome.bind_ok, hstart, hafter]

omit [DoubleArith D] in
theorem ValueText.text_pos {v : ValueText} {depth : Nat} {rest : List UInt8}
    (hv : v.Valid depth rest) : 0 < v.text.length := by
  cases v with
  | leaf t =>
    cases t with
    | null => decide
    | boolean b => cases b <;> decide
    | number t =>
      obtain ⟨d, ds, hd⟩ := List.exists_cons_of_ne_nil hv.2.1
      obtain ⟨natural, decimal⟩ := t
      obtain rfl : natural = d :: ds := hd
      cases decimal <;> exact Nat.succ_pos _
    | string body s => exact Nat.succ_pos _
  | array els =>
    obtain ⟨t, ht⟩ := els.text_eq
    simp [ValueText.text, ht]
  | object ms =>
    obtain ⟨t, ht⟩ := ms.text_eq
    simp [ValueText.text, ht]

mutual

theorem ValueText.accepts (v : ValueText) {rest more : List UInt8} {n : Nat} {c : UInt8}
    (obj : JsonArray D) (hv : v.Valid (obj.depth + 1) rest) (hc : v.text ++ rest = c :: more)
    (hn : v.text.length ≤ n) :
    c ∉ valueEnd ∧ parseToken (parseArray n) (parseObject n) obj c (c :: more) =
      .ok ((obj.addValue (v.value (obj.depth + 1)), true), rest) := by
  cases v with
  | leaf t =>
    obtain ⟨d, m, hd, hend, -⟩ := leaf_text_eq hv
    obtain ⟨rfl, rfl⟩ := List.cons.inj (hc.symm.trans hd)
    exact ⟨hend, parseToken_leaf hv hc obj⟩
  | array els =>
    obtain ⟨hdepth, hhead, hels⟩ := hv
    obtain ⟨t, ht⟩ := els.text_eq
    have hcons : els.head :: (t ++ rest) = c :: more := by
      rw [← List.cons_append, ← ht]
      exact hc
    obtain ⟨rfl, rfl⟩ := List.cons.inj hcons
    have hloop := els.accepts ⟨obj.depth + 1, []⟩ hels (m := t ++ rest)
      (by rw [ht]; rfl) hn
    rw [hhead] at hloop ⊢
    refine ⟨by decide, ?_⟩
    rw [parseToken_openBracket]
    simp [JsonArray.make_ok hdepth, parseArray, hloop, ValueText.value, JsonArray.toValue]
  | object ms =>
    obtain ⟨hdepth, hhead, hms⟩ := hv
    obtain ⟨t, ht⟩ := ms.text_eq
    have hcons : ms.head :: (t ++ rest) = c :: more := by
      rw [← List.cons_append, ← ht]
      exact hc
    obtain ⟨rfl, rfl⟩ := List.cons.inj hcons
    have hloop := ms.accepts ⟨obj.depth + 1, [], ⟨obj.depth + 1, []⟩⟩ hms (m := t ++ rest)
      (by rw [ht]; rfl) hn
    rw [hhead] at hloop ⊢
    refine ⟨by decide, ?_⟩
    rw [parseToken_openBrace]
    simp [JsonObject.make_ok hdepth, parseObject, hloop, ValueText.value, JsonObject.toValue]

theorem SlotText.accepts (s : SlotText) {rest : List UInt8} {n : Nat} (obj : JsonArray D)
    (hs : s.Valid obj.depth rest) (hn : s.text.length < n) :
    parseValue n obj (s.text ++ rest) =
      .ok ({ obj with values := obj.values ++ s.values obj.depth }, rest) := by
  cases s with
  | empty space =>
    obtain ⟨hspace, d, m, rfl, hd⟩ := hs
    obtain ⟨c, l, hc⟩ : ∃ c l, space ++ d :: m = c :: l := List.exists_cons_of_ne_nil (by simp)
    obtain ⟨k, rfl⟩ : ∃ k, n = space.length + (k + 1) :=
      ⟨n - space.length - 1, by simp only [SlotText.text] at hn; omega⟩
    have hloop := parseValueLoop_before hspace (n := k + 1) hc rfl obj
    rw [parseValueLoop_stop hd] at hloop
    simp [SlotText.text, SlotText.values, parseValue, hc, hloop]
  | filled before v after =>
    obtain ⟨hb, hv, ha, hr⟩ := hs
    have hpos := ValueText.text_pos hv
    obtain ⟨c, more, hc⟩ : ∃ c more, v.text ++ (after ++ rest) = c :: more := by
      obtain ⟨d, m, rfl, -⟩ := hr
      exact List.exists_cons_of_ne_nil (by simp)
    simp only [SlotText.text, List.length_append] at hn
    obtain ⟨k, rfl⟩ : ∃ k, n = before.length + (k + 1) := ⟨n - before.length - 1, by omega⟩
    obtain ⟨hend, htoken⟩ := v.accepts obj hv hc (n := k) (by omega)
    exact parseValue_filled hb ha hr hc hend htoken (by omega)

theorem ElementsText.accepts (els : ElementsText) {rest m : List UInt8} {n : Nat}
    (arr : JsonArray D) (h : els.Valid arr.depth rest) (hm : els.text ++ rest = els.head :: m)
    (hn : els.text.length ≤ n) :
    parseArrayLoop n arr els.head m =
      .ok ({ arr with values := arr.values ++ els.values arr.depth }, rest) := by
  cases els with
  | close =>
    obtain rfl : rest = m := by simpa [ElementsText.text, ElementsText.head] using hm
    obtain ⟨n, rfl⟩ : ∃ k, n = k + 1 :=
      ⟨n - 1, by simp only [ElementsText.text, List.length_singleton] at hn; omega⟩
    simp [ElementsText.head, ElementsText.values, parseArrayLoop_close]
  | slot c s more =>
    obtain ⟨hc, hs, hmore⟩ := h
    obtain ⟨t, ht⟩ := more.text_eq
    obtain rfl : s.text ++ (more.text ++ rest) = m := by
      simpa [ElementsText.text, ElementsText.head] using hm
    simp only [ElementsText.text, List.length_cons, List.length_append] at hn
    have hlen : 0 < more.text.length := by simp [ht]
    obtain ⟨n, rfl⟩ : ∃ k, n = k + 1 := ⟨n - 1, by omega⟩
    have hslot := s.accepts arr hs (n := n) (by omega)
    have hrest := more.accepts { arr with values := arr.values ++ s.values arr.depth } hmore
      (m := t ++ rest) (n := n) (by rw [ht]; rfl) (by omega)
    simp only [ElementsText.head, parseArrayLoop_slot hc, hslot, Outcome.bind_ok]
    simp only [ht, List.cons_append]
    rw [hrest]
    simp [ElementsText.values]
  | skipped c more =>
    obtain ⟨hne, hc, hmore⟩ := h
    obtain ⟨t, ht⟩ := more.text_eq
    obtain rfl : more.text ++ rest = m := by
      simpa [ElementsText.text, ElementsText.head] using hm
    simp only [ElementsText.text, List.length_cons] at hn
    obtain ⟨n, rfl⟩ : ∃ k, n = k + 1 := ⟨n - 1, by omega⟩
    have hrest := more.accepts arr hmore (m := t ++ rest) (n := n) (by rw [ht]; rfl) (by omega)
    simp only [ElementsText.head, parseArrayLoop_skipped hne hc]
    simp only [ht, List.cons_append]
    rw [hrest]
    simp [ElementsText.values]

theorem MembersText.accepts (ms : MembersText) {rest m : List UInt8} {n : Nat}
    (obj : JsonObject D) (h : ms.Valid obj.values.depth rest) (hm : ms.text ++ rest = ms.head :: m)
    (hn : ms.text.length ≤ n) :
    parseObjectLoop n obj ms.head m =
      .ok ({ obj with
        keys := obj.keys ++ ms.keys
        values := { obj.values with
          values := obj.values.values ++ ms.values obj.values.depth } }, rest) := by
  cases ms with
  | close =>
    obtain rfl : rest = m := by simpa [MembersText.text, MembersText.head] using hm
    obtain ⟨n, rfl⟩ : ∃ k, n = k + 1 :=
      ⟨n - 1, by simp only [MembersText.text, List.length_singleton] at hn; omega⟩
    simp [MembersText.head, MembersText.values, MembersText.keys, parseObjectLoop_close]
  | last c k =>
    obtain ⟨hc, hk, hd⟩ := h
    obtain rfl : k.text ++ rest = m := by simpa [MembersText.text, MembersText.head] using hm
    obtain ⟨n, rfl⟩ : ∃ k, n = k + 1 :=
      ⟨n - 1, by simp only [MembersText.text, List.length_cons] at hn; omega⟩
    have hkey := parseKey_iff.mpr ⟨k, rfl, hk, acceptKey_closeBrace hd obj⟩
    simp [MembersText.head, MembersText.values, MembersText.keys, parseObjectLoop_member hc, hkey]
  | member c k s more =>
    obtain ⟨hc, hk, hd, hlen, hs, hmore⟩ := h
    obtain ⟨t, ht⟩ := more.text_eq
    obtain rfl : k.text ++ (s.text ++ (more.text ++ rest)) = m := by
      simpa [MembersText.text, MembersText.head] using hm
    simp only [MembersText.text, List.length_cons, List.length_append] at hn
    have hpos : 0 < more.text.length := by simp [ht]
    obtain ⟨n, rfl⟩ : ∃ k, n = k + 1 := ⟨n - 1, by omega⟩
    have hkey := parseKey_iff.mpr ⟨k, rfl, hk, acceptKey_colon hd hlen obj⟩
    have hslot := s.accepts (obj.addKey k.key).values hs (n := n) (by omega)
    have hrest := more.accepts { obj with
        keys := obj.keys ++ [k.key]
        values := { obj.values with
          values := obj.values.values ++ s.values obj.values.depth } } hmore
      (m := t ++ rest) (n := n) (by rw [ht]; rfl) (by omega)
    simp only [MembersText.head, parseObjectLoop_member hc, hkey, Outcome.bind_ok, if_true, hslot]
    simp only [ht, List.cons_append, JsonObject.addKey]
    rw [hrest]
    simp [MembersText.keys, MembersText.values]

end

end WylesLibs.Parser.Json
