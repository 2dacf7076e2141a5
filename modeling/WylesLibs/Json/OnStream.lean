import WylesLibs.Json.Document

/-! `parse` on a memory-backed stream, and what the step bound has to do with it: nothing but
whether the model comes to an end. -/
namespace WylesLibs.Parser.Json
open Library WylesLibs.Stream
variable {σ τ D : Type}

/-! Every function of the parser answers alike on streams that answer alike. -/

namespace EStreamSim
variable [EStreamI σ UInt8] [EStreamI τ UInt8] {R : σ → τ → Prop}

theorem skipWhitespace (h : EStreamSim R) (n : Nat) (c : UInt8) :
    Prog.Sim R (skipWhitespace n c) (Json.skipWhitespace n c) := by
  induction n generalizing c with
  | zero => exact .spent
  | succ n ih => exact .ite (.bind h.get fun _ => .bind h.peek fun c => ih c) (.pure _)

theorem readWhiteSpaceUntil (h : EStreamSim R) (n : Nat) (untilChars : List UInt8) :
    Prog.Sim R (readWhiteSpaceUntil n untilChars) (Json.readWhiteSpaceUntil n untilChars) :=
  .bind h.peek fun _ => .ite (.pure _)
    (.bind (skipWhitespace h n _) fun _ => .ite (.pure _) (.raise _))

theorem parseStringLoop (h : EStreamSim R) (left : Nat) (prev c : UInt8) (s : List UInt8) :
    Prog.Sim R (parseStringLoop left prev c s) (Json.parseStringLoop left prev c s) := by
  induction left generalizing prev c s with
  | zero => exact .pure _
  | succ left ih =>
    have hnext (m : Prog σ (List UInt8)) (m' : Prog τ (List UInt8)) (hm : Prog.Sim R m m') :
        Prog.Sim R (m >>= fun s => Stream.get >>= fun next => Json.parseStringLoop left c next s)
          (m' >>= fun s => Stream.get >>= fun next => Json.parseStringLoop left c next s) :=
      .bind hm fun s => .bind h.get fun next => ih c next s
    refine .ite (.ite (.ite ?_ (hnext _ _ (.pure _))) (hnext _ _ (.pure _))) (.pure _)
    exact .bind (h.readString _ _) fun _ => hnext _ _ (.pure _)

variable [DoubleArith D]

omit [DoubleArith D] in
theorem parseString (h : EStreamSim R) (obj : JsonArray D) :
    Prog.Sim R (parseString obj) (Json.parseString obj) :=
  .bind h.get fun _ => .bind h.get fun _ => .bind (parseStringLoop h _ _ _ _) fun _ =>
    .ite (.raise _) (.pure _)

omit [DoubleArith D] in
theorem parseImmediate (h : EStreamSim R) (obj : JsonArray D) (comp : List UInt8)
    (value : JsonValue D) :
    Prog.Sim R (parseImmediate obj comp value) (Json.parseImmediate obj comp value) :=
  .rescue (.bind (h.readString _ _) fun _ => .pure _) _

theorem parseNumber (h : EStreamSim R) (obj : JsonArray D) :
    Prog.Sim R (parseNumber obj) (Json.parseNumber obj) := by
  refine .bind h.peek fun c => .bind h.peek fun d => .ite ?_ (.raise _)
  refine .bind h.readDecimal fun p => .bind h.peek fun e => ?_
  refine .ite (.bind h.peek fun sign => ?_)
    (.ite (.bind (.pure _) fun _ => .pure _) (.bind (.raise _) fun _ => .pure _))
  -- the sign of the exponent is taken or there is none; the exponent follows either way
  refine .ite (.bind h.get fun _ => .bind h.readNatural fun exp => ?_)
    (.bind h.readNatural fun exp => ?_)
  all_goals
    refine .ite (.bind (.raise _) fun _ => .pure _) (.ite (.bind (.pure _) fun _ => .pure _) ?_)
    exact .ite (.bind (.pure _) fun _ => .pure _) (.bind (.pure _) fun _ => .pure _)

omit [DoubleArith D] in
theorem settled_acceptKey (obj : JsonObject D) (key : List UInt8) :
    (acceptKey obj key).Settled :=
  .ite (Outcome.settled_thrown _)
    (.ite (Outcome.settled_ok _) (.ite (Outcome.settled_thrown _) (Outcome.settled_ok _)))

omit [DoubleArith D] in
theorem parseKey (h : EStreamSim R) (obj : JsonObject D) :
    Prog.Sim R (parseKey obj) (Json.parseKey obj) :=
  .bind (h.read _ _ _) fun _ => .lift (settled_acceptKey _ _)

omit [DoubleArith D] in
theorem settled_makeArray (depth : Nat) : (JsonArray.make depth : Outcome (JsonArray D)).Settled :=
  .ite (Outcome.settled_thrown _) (Outcome.settled_ok _)

omit [DoubleArith D] in
theorem settled_makeObject (depth : Nat) :
    (JsonObject.make depth : Outcome (JsonObject D)).Settled :=
  .ite (Outcome.settled_thrown _) (Outcome.settled_ok _)

theorem parseToken (h : EStreamSim R) {nestedArray : JsonArray D → Prog σ (JsonArray D)}
    {nestedArray' : JsonArray D → Prog τ (JsonArray D)}
    {nestedObject : JsonObject D → Prog σ (JsonObject D)}
    {nestedObject' : JsonObject D → Prog τ (JsonObject D)}
    (harr : ∀ arr, Prog.Sim R (nestedArray arr) (nestedArray' arr))
    (hobj : ∀ obj, Prog.Sim R (nestedObject obj) (nestedObject' obj)) (obj : JsonArray D)
    (c : UInt8) :
    Prog.Sim R (parseToken nestedArray nestedObject obj c)
      (Json.parseToken nestedArray' nestedObject' obj c) := by
  refine .ite (.bind (parseString h _) fun _ => .pure _) ?_
  refine .ite (.bind (parseNumber h _) fun _ => .pure _) ?_
  refine .ite (.bind (.lift (settled_makeArray _)) fun _ => .bind (harr _) fun _ => .pure _) ?_
  refine .ite (.bind (parseImmediate h _ _ _) fun _ => .pure _) ?_
  refine .ite (.bind (parseImmediate h _ _ _) fun _ => .pure _) ?_
  refine .ite (.bind (parseImmediate h _ _ _) fun _ => .pure _) ?_
  refine .ite (.bind (.lift (settled_makeObject _)) fun _ => .bind (hobj _) fun _ => .pure _) ?_
  exact .ite (.raise _) (.bind h.get fun _ => .pure _)

omit [DoubleArith D] in
theorem parseBehindToken (h : EStreamSim R) (c : UInt8) :
    Prog.Sim R (parseBehindToken c) (Json.parseBehindToken c) :=
  .ite (.raise _) (.bind h.get fun _ => .pure _)

/-- The three loops of the parser, cut off after the same number of turns. -/
theorem loops (h : EStreamSim R) (n : Nat) :
    (∀ (obj : JsonArray D) parsed c,
      Prog.Sim R (parseValueLoop n obj parsed c) (parseValueLoop n obj parsed c)) ∧
    (∀ (arr : JsonArray D) c, Prog.Sim R (parseArrayLoop n arr c) (parseArrayLoop n arr c)) ∧
    ∀ (obj : JsonObject D) c, Prog.Sim R (parseObjectLoop n obj c) (parseObjectLoop n obj c) := by
  induction n with
  | zero => exact ⟨fun _ _ _ => .spent, fun _ _ => .spent, fun _ _ => .spent⟩
  | succ n ih =>
    obtain ⟨hvalue, harr, hobj⟩ := ih
    refine ⟨fun obj parsed c => ?_, fun arr c => ?_, fun obj c => ?_⟩
    · refine .ite (.pure _) (.ite (.bind ?_ fun p => .bind h.peek fun c => hvalue _ _ c) ?_)
      · exact parseToken h (fun arr => .bind h.get fun c => harr arr c)
          (fun new => .bind h.get fun c => hobj new c) obj c
      · exact .bind (parseBehindToken h c) fun _ => .bind (.pure _) fun p =>
          .bind h.peek fun c => hvalue _ _ c
    · refine .ite (.pure _) (.ite (.bind h.peek fun c => ?_) ?_)
      · exact .bind (hvalue arr false c) fun arr => .bind h.get fun c => harr arr c
      · exact .bind (.pure _) fun arr => .bind h.get fun c => harr arr c
    · refine .ite (.pure _) (.ite (.bind (parseKey h obj) fun p => ?_) (hobj obj c))
      refine .ite (.bind h.peek fun c => .bind (hvalue _ _ _) fun values => ?_) (.pure _)
      exact .bind h.get fun c => hobj _ c

theorem parse (h : EStreamSim R) (n : Nat) :
    Prog.Sim R (parse n : Prog σ (JsonValue D)) (Json.parse n) := by
  obtain ⟨-, harr, hobj⟩ := loops (D := D) h n
  refine .bind (readWhiteSpaceUntil h n _) fun _ => .bind h.peek fun c => .ite ?_ (.ite ?_ ?_)
  · exact .bind (.lift (settled_makeObject _)) fun obj =>
      .bind (.bind h.get fun c => hobj obj c) fun _ => .pure _
  · exact .bind (.lift (settled_makeArray _)) fun arr =>
      .bind (.bind h.get fun c => harr arr c) fun _ => .pure _
  · exact .raise _

end EStreamSim

/-! A larger step bound changes nothing but a timeout. -/

section
variable [EStreamI σ UInt8]

theorem skipWhitespace_le (n : Nat) (c : UInt8) :
    Prog.Le (skipWhitespace n c : Prog σ UInt8) (skipWhitespace (n + 1) c) := by
  induction n generalizing c with
  | zero => exact .spent _
  | succ n ih => exact .ite (.bind (.refl _) fun _ => .bind (.refl _) fun c => ih c) (.refl _)

theorem readWhiteSpaceUntil_le (n : Nat) (untilChars : List UInt8) :
    Prog.Le (readWhiteSpaceUntil n untilChars : Prog σ Unit)
      (readWhiteSpaceUntil (n + 1) untilChars) :=
  .bind (.refl _) fun _ => .ite (.refl _) (.bind (skipWhitespace_le n _) fun _ => .refl _)

variable [DoubleArith D]

theorem parseToken_le {nestedArray nestedArray' : JsonArray D → Prog σ (JsonArray D)}
    {nestedObject nestedObject' : JsonObject D → Prog σ (JsonObject D)}
    (harr : ∀ arr, Prog.Le (nestedArray arr) (nestedArray' arr))
    (hobj : ∀ obj, Prog.Le (nestedObject obj) (nestedObject' obj)) (obj : JsonArray D)
    (c : UInt8) :
    Prog.Le (parseToken nestedArray nestedObject obj c)
      (parseToken nestedArray' nestedObject' obj c) := by
  refine .ite (.refl _) (.ite (.refl _) (.ite ?_ ?_))
  · exact .bind (.refl _) fun _ => .bind (harr _) fun _ => .refl _
  · refine .ite (.refl _) (.ite (.refl _) (.ite (.refl _) (.ite ?_ (.refl _))))
    exact .bind (.refl _) fun _ => .bind (hobj _) fun _ => .refl _

theorem loops_le (n : Nat) :
    (∀ (obj : JsonArray D) parsed c,
      Prog.Le (parseValueLoop n obj parsed c : Prog σ _) (parseValueLoop (n + 1) obj parsed c)) ∧
    (∀ (arr : JsonArray D) c,
      Prog.Le (parseArrayLoop n arr c : Prog σ _) (parseArrayLoop (n + 1) arr c)) ∧
    ∀ (obj : JsonObject D) c,
      Prog.Le (parseObjectLoop n obj c : Prog σ _) (parseObjectLoop (n + 1) obj c) := by
  induction n with
  | zero => exact ⟨fun _ _ _ => .spent _, fun _ _ => .spent _, fun _ _ => .spent _⟩
  | succ n ih =>
    obtain ⟨hvalue, harr, hobj⟩ := ih
    refine ⟨fun obj parsed c => ?_, fun arr c => ?_, fun obj c => ?_⟩
    · refine .ite (.refl _) (.ite (.bind ?_ fun p => .bind (.refl _) fun c => hvalue _ _ c) ?_)
      · exact parseToken_le (fun arr => .bind (.refl _) fun c => harr arr c)
          (fun new => .bind (.refl _) fun c => hobj new c) obj c
      · exact .bind (.refl _) fun _ => .bind (.refl _) fun p =>
          .bind (.refl _) fun c => hvalue _ _ c
    · refine .ite (.refl _) (.ite (.bind (.refl _) fun c => ?_) ?_)
      · exact .bind (hvalue arr false c) fun arr => .bind (.refl _) fun c => harr arr c
      · exact .bind (.refl _) fun arr => .bind (.refl _) fun c => harr arr c
    · refine .ite (.refl _) (.ite (.bind (.refl _) fun p => ?_) (hobj obj c))
      refine .ite (.bind (.refl _) fun c => .bind (hvalue _ _ _) fun values => ?_) (.refl _)
      exact .bind (.refl _) fun c => hobj _ c

theorem parse_le {n k : Nat} (hn : n ≤ k) :
    Prog.Le (parse n : Prog σ (JsonValue D)) (parse k) := by
  refine Prog.Le.of_step (m := fun n => parse n) (fun n => ?_) hn
  obtain ⟨-, harr, hobj⟩ := loops_le (σ := σ) (D := D) n
  refine .bind (readWhiteSpaceUntil_le n _) fun _ => .bind (.refl _) fun c => .ite ?_ (.ite ?_ ?_)
  · exact .bind (.refl _) fun obj => .bind (.bind (.refl _) fun c => hobj obj c) fun _ => .refl _
  · exact .bind (.refl _) fun arr => .bind (.bind (.refl _) fun c => harr arr c) fun _ => .refl _
  · exact .refl _

end

/-! What `parse` does on a memory-backed stream it does on the list of its bytes. -/

section
variable [DoubleArith D]

theorem parse_ofBuffer (n : Nat) (text : List UInt8) :
    (parse n (EStream.ofBuffer text)).Rel Holds ((parse n : Prog _ (JsonValue D)) text) :=
  EStreamSim.parse holds_sim n _ _ (holds_ofBuffer text)

/-- Each text with a reading is accepted, and with the value of the reading. -/
theorem parse_ok {doc : DocumentText} {rest : List UInt8} (h : doc.Valid rest) {n : Nat}
    (hn : doc.text.length < n) :
    ∃ s, parse n (EStream.ofBuffer (doc.text ++ rest)) = .ok ((doc.value : JsonValue D), s) ∧
      s.remaining = rest := by
  have hrel := parse_ofBuffer (D := D) n (doc.text ++ rest)
  rw [parse_list_ok h hn] at hrel
  obtain ⟨s, hs, -, hrest⟩ := hrel.of_ok
  exact ⟨s, hs, hrest⟩

/-- Each text that is accepted has a reading with the value returned. -/
theorem parse_inv {n : Nat} {text : List UInt8} {v : JsonValue D} {s : EStream UInt8}
    (h : parse n (EStream.ofBuffer text) = .ok (v, s)) :
    ∃ doc : DocumentText, text = doc.text ++ s.remaining ∧ doc.Valid s.remaining ∧
      v = doc.value := by
  have hrel := parse_ofBuffer (D := D) n text
  rw [h] at hrel
  obtain ⟨rest, hlist, -, rfl⟩ := hrel.to_ok
  exact parse_list_inv hlist

end
end WylesLibs.Parser.Json
