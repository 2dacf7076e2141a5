import WylesLibs.Json.Parser
import WylesLibs.EStream.Extract

/-! What `parseKey` takes for a key. -/
namespace WylesLibs.Parser.Json
open Library WylesLibs.Stream
variable {D : Type}

/-- Space, the key between its quotes with what stands behind the closing one, and the byte that
ended the read. There may be no quotes at all. -/
structure KeyText where
  space : List UInt8
  quoted : Option (List UInt8 × List UInt8)
  delimiter : UInt8

def keyEnd : List UInt8 := [Byte.colon, Byte.closeBrace]

namespace KeyText

def before (k : KeyText) : List UInt8 :=
  k.space ++ match k.quoted with
    | none => []
    | some (body, tail) => Byte.quote :: body ++ Byte.quote :: tail

def text (k : KeyText) : List UInt8 := k.before ++ [k.delimiter]

def key (k : KeyText) : List UInt8 :=
  match k.quoted with
  | none => []
  | some (body, _) => body

/-- `rest` is what follows in the stream. -/
structure Valid (k : KeyText) (rest : List UInt8) : Prop where
  space : ∀ c ∈ k.space, isWhitespace c = true
  quoted : ∀ body tail, k.quoted = some (body, tail) → Byte.quote ∉ body ∧
    (∀ c ∈ body, c ∉ keyEnd) ∧ (∀ c ∈ tail, c ∉ keyEnd) ∧ tail.foldl keyJunk 0 = 0
  delimiter : k.delimiter ∈ keyEnd
  limit : seen true k.before rest ≤ arbitrarySpatialUntilLimit

end KeyText

/-- The read that `parseKey` makes. -/
def readKey (l : List UInt8) : Outcome (List UInt8 × List UInt8) :=
  Stream.read keyEnd (some (ReaderTaskExtract.mk' Byte.quote Byte.quote)) true l

theorem not_quote_of_keyEnd {u : UInt8} (hu : u ∈ keyEnd) : isWhitespace u = false ∧ u ≠ 0 := by
  simp only [keyEnd, List.mem_cons, List.not_mem_nil, or_false] at hu
  obtain rfl | rfl := hu <;> decide

theorem readKey_iff {l l' key : List UInt8} :
    readKey l = .ok (key, l') ↔
      ∃ pre u, l = pre ++ u :: l' ∧ (∀ a ∈ pre, a ∉ keyEnd) ∧ u ∈ keyEnd ∧
        seen true pre l' ≤ arbitrarySpatialUntilLimit ∧ Extracts u pre key := by
  have hread : readKey l = .ok (key, l') ↔
      ∃ task, streamCollect (LoopCriteria.mk' .untilMatch true 0 keyEnd)
        (some (ReaderTaskExtract.mk' Byte.quote Byte.quote).quoted)
        (⟨[]⟩ : ArrayCollector UInt8) l = .ok ((key, task), l') := by
    constructor
    · intro h
      obtain ⟨⟨⟨data, task⟩, l₁⟩, hs, hpure⟩ := Outcome.bind_eq_ok.mp h
      cases hpure
      exact ⟨task, hs⟩
    · intro hcase
      obtain ⟨task, h⟩ := hcase
      exact Outcome.bind_eq_ok.mpr ⟨_, h, rfl⟩
  rw [hread]
  exact streamCollect_extract_iff _ (fun u hu => (not_quote_of_keyEnd hu).1) (by decide)

theorem readKey_ok {k : KeyText} {rest : List UInt8} (hk : k.Valid rest) :
    readKey (k.text ++ rest) = .ok (k.key ++ [k.delimiter], rest) := by
  have hspace : ∀ c ∈ k.space, c ∉ keyEnd := by
    intro c hc hmem
    have := (not_quote_of_keyEnd hmem).1
    rw [hk.space c hc] at this
    cases this
  obtain ⟨space, quoted, u⟩ := k
  refine readKey_iff.mpr ⟨_, u, by simp [KeyText.text], ?_, hk.delimiter, hk.limit, ?_⟩
  · cases quoted with
    | none => simpa [KeyText.before] using hspace
    | some p =>
      obtain ⟨body, tail⟩ := p
      obtain ⟨-, hbody, htail, -⟩ := hk.quoted body tail rfl
      have hquote : Byte.quote ∉ keyEnd := by decide
      simp only [KeyText.before, List.mem_append, List.mem_cons]
      rintro a (ha | (rfl | ha) | rfl | ha)
      · exact hspace a ha
      · exact hquote
      · exact hbody a ha
      · exact hquote
      · exact htail a ha
  · cases quoted with
    | none => simpa [KeyText.before, KeyText.key] using Extracts.bare (u := u) hk.space
    | some p =>
      obtain ⟨body, tail⟩ := p
      obtain ⟨hquote, -, -, hjunk⟩ := hk.quoted body tail rfl
      have h := Extracts.quoted (u := u) hk.space hquote hjunk
      rw [if_neg (not_quote_of_keyEnd hk.delimiter).2] at h
      simpa [KeyText.before, KeyText.key] using h

theorem readKey_inv {l l' key : List UInt8} (h : readKey l = .ok (key, l')) :
    ∃ k : KeyText, l = k.text ++ l' ∧ k.Valid l' ∧ key = k.key ++ [k.delimiter] := by
  obtain ⟨pre, u, rfl, hpre, hu, hlim, hextracts⟩ := readKey_iff.mp h
  cases hextracts with
  | bare hspace =>
    exact ⟨⟨pre, none, u⟩, by simp [KeyText.text, KeyText.before],
      ⟨hspace, by simp, hu, by simpa [KeyText.before] using hlim⟩, rfl⟩
  | @quoted space token tail hspace htoken htail =>
    refine ⟨⟨space, some (token, tail), u⟩, by simp [KeyText.text, KeyText.before], ?_, ?_⟩
    · refine ⟨hspace, ?_, hu, by simpa [KeyText.before] using hlim⟩
      rintro body' tail' heq
      cases heq
      exact ⟨htoken, fun c hc => hpre c (by simp [hc]), fun c hc => hpre c (by simp [hc]), htail⟩
    · rw [if_neg (not_quote_of_keyEnd hu).2]
      rfl

theorem acceptKey_eq (obj : JsonObject D) (key : List UInt8) (u : UInt8) :
    acceptKey obj (key ++ [u]) =
      if u = Byte.closeBrace then .ok (false, obj)
      else if maxLengthOfJsonStringKeys ≤ key.length then .thrown "Key string to loooooonnng!"
      else .ok (true, obj.addKey key) := by
  simp [acceptKey]

theorem acceptKey_closeBrace {k : KeyText} (hd : k.delimiter = Byte.closeBrace)
    (obj : JsonObject D) : acceptKey obj (k.key ++ [k.delimiter]) = .ok (false, obj) := by
  rw [acceptKey_eq, hd, if_pos rfl]

theorem acceptKey_colon {k : KeyText} (hd : k.delimiter = Byte.colon)
    (hlen : k.key.length < maxLengthOfJsonStringKeys) (obj : JsonObject D) :
    acceptKey obj (k.key ++ [k.delimiter]) = .ok (true, obj.addKey k.key) := by
  have hne : Byte.colon ≠ Byte.closeBrace := by decide
  rw [acceptKey_eq, hd, if_neg hne, if_neg (Nat.not_le.mpr hlen)]

/-- A key that is accepted ends either the object or at its colon. -/
theorem acceptKey_inv {k : KeyText} {rest : List UInt8} (hk : k.Valid rest) {obj : JsonObject D}
    {r : Bool × JsonObject D} (h : acceptKey obj (k.key ++ [k.delimiter]) = .ok r) :
    (k.delimiter = Byte.closeBrace ∧ r = (false, obj)) ∨
      (k.delimiter = Byte.colon ∧ k.key.length < maxLengthOfJsonStringKeys ∧
        r = (true, obj.addKey k.key)) := by
  rw [acceptKey_eq] at h
  split at h
  · cases h
    exact Or.inl ⟨‹_›, rfl⟩
  · split at h
    · cases h
    · cases h
      have hd : k.delimiter = Byte.colon ∨ k.delimiter = Byte.closeBrace := by
        simpa [keyEnd] using hk.delimiter
      exact Or.inr ⟨hd.resolve_right ‹_›, by omega, rfl⟩

theorem parseKey_iff {obj : JsonObject D} {l l' : List UInt8} {r : Bool × JsonObject D} :
    parseKey obj l = .ok (r, l') ↔
      ∃ k : KeyText, l = k.text ++ l' ∧ k.Valid l' ∧
        acceptKey obj (k.key ++ [k.delimiter]) = .ok r := by
  constructor
  · intro h
    obtain ⟨⟨key, l₁⟩, hread, h⟩ := Outcome.bind_eq_ok.mp h
    obtain ⟨r', hr, heq⟩ := Outcome.bind_eq_ok.mp h
    cases heq
    obtain ⟨k, hl, hk, rfl⟩ := readKey_inv hread
    exact ⟨k, hl, hk, hr⟩
  · rintro ⟨k, rfl, hk, hr⟩
    refine Outcome.bind_eq_ok.mpr ⟨_, readKey_ok hk, ?_⟩
    simp [hr]

end WylesLibs.Parser.Json
