import WylesLibs.Datastructures
import WylesLibs.EStream.Chains

/-! `parser/keyvalue`: pairs of keys and values as text, and back. -/
namespace WylesLibs.KeyValue
open Library WylesLibs.Stream Datastructures
variable {σ τ : Type}

/-- `std::unordered_map<std::string, std::string>`. -/
abbrev KeyValues := Finmap fun _ : List UInt8 => List UInt8

/-- The pairs of a map in the order in which a loop over it meets them. -/
abbrev Pairs := AList fun _ : List UInt8 => List UInt8

def maxLengthOfKeyValueString : Nat := 1024

def toString (map : Pairs) (keyDelim delim : UInt8) : List UInt8 :=
  map.entries.flatMap (fun el => el.1 ++ [keyDelim] ++ el.2 ++ [delim]) ++ [Byte.newline]

def delimString (delim : UInt8) : List UInt8 :=
  if delim ≠ Byte.newline then [Byte.newline, delim] else [Byte.newline]

/-- `ignore_whitespace`. -/
def ignoreWhitespace : ReaderTaskDisallow (NullTask UInt8) := ⟨none, [Byte.space, Byte.tab], false⟩

/-- A value that a new line ends instead of the delimiter. -/
def endsLine (delim : UInt8) (fieldValue : List UInt8) : Outcome Bool :=
  if delim ≠ Byte.newline then (back fieldValue).bind fun c => .ok (decide (c = Byte.newline))
  else .ok false

section
variable [EStreamI σ UInt8]

/-- The name ends at an equals sign, whatever the key delimiter is. -/
def parseLoop (delim : UInt8) : Nat → KeyValues → Prog σ KeyValues
  | 0, _ => Prog.spent
  | steps + 1, data => do
    if ← good then
      let fieldName ← read [Byte.equals, Byte.newline] (some ignoreWhitespace) true
      if (← Prog.lift (back fieldName)) = Byte.newline then
        -- empty line
        pure data
      else
        let fieldValue ← read (delimString delim) (none : Option (NullTask UInt8)) true
        if ← Prog.lift (endsLine delim fieldValue) then pure data
        else
          let value ← Prog.lift (removeBack fieldValue)
          let name ← Prog.lift (removeBack fieldName)
          parseLoop delim steps (data.insert name value)
    else
      pure data

/-- `parse` of what a stream holds; every turn of its loop reads something. -/
def parseReader (steps : Nat) (_keyDelim delim : UInt8) : Prog σ KeyValues :=
  parseLoop delim steps ∅

end

def parse (s : List UInt8) (keyDelim delim : UInt8) : Outcome KeyValues :=
  if s.length > maxLengthOfKeyValueString then .thrown "String to loooonnnng!"
  else
    (parseReader (s.length + 1) keyDelim delim (EStream.ofBuffer s)).bind fun r => .ok r.1

/-! The stream stands for the list that it holds. -/

theorem settled_endsLine (delim : UInt8) (fieldValue : List UInt8) :
    (endsLine delim fieldValue).Settled :=
  .ite (.bind (settled_back _) fun _ _ => Outcome.settled_ok _) (Outcome.settled_ok _)

section
variable [EStreamI σ UInt8] [EStreamI τ UInt8] {R : σ → τ → Prop}

theorem sim_parseLoop (h : EStreamSim R) (delim : UInt8) (steps : Nat) (data : KeyValues) :
    Prog.Sim R (parseLoop delim steps data : Prog σ _) (parseLoop delim steps data) := by
  induction steps generalizing data with
  | zero => exact .spent
  | succ steps ih =>
    refine .bind h.good fun more => .ite ?_ (.pure _)
    refine .bind (h.read _ _ _) fun fieldName => .bind (.lift (settled_back _)) fun last => ?_
    refine .ite (.pure _) (.bind (h.read _ _ _) fun fieldValue => ?_)
    refine .bind (.lift (settled_endsLine _ _)) fun ended => .ite (.pure _) ?_
    refine .bind (.lift (settled_removeBack _)) fun value => ?_
    exact .bind (.lift (settled_removeBack _)) fun name => ih _

end

theorem parse_eq {s : List UInt8} (hlen : s.length ≤ maxLengthOfKeyValueString)
    (keyDelim delim : UInt8) :
    parse s keyDelim delim = (parseLoop delim (s.length + 1) ∅ s).bind fun r => .ok r.1 := by
  rw [parse, if_neg (Nat.not_lt.mpr hlen), parseReader]
  exact (sim_parseLoop holds_sim delim _ _).value (holds_ofBuffer s)

/-! The turns of the loop. -/

/-- What the task leaves of a name. -/
def trimmed (raw : List UInt8) : List UInt8 := raw.filter (· ∉ [Byte.space, Byte.tab])

theorem actsAs_ignoreWhitespace :
    ActsAs (some ignoreWhitespace) fun c => if c ∈ [Byte.space, Byte.tab] then none else some c :=
  actsAs_none.disallow _

theorem filterMap_trimmed (raw : List UInt8) :
    raw.filterMap (fun c => if c ∈ [Byte.space, Byte.tab] then none else some c) = trimmed raw := by
  induction raw with
  | nil => rfl
  | cons c raw ih =>
    by_cases hc : c ∈ [Byte.space, Byte.tab]
    · have hskip : trimmed (c :: raw) = trimmed raw :=
        List.filter_cons_of_neg (by simpa only [decide_not, Bool.not_eq_true', decide_eq_false_iff_not,
          not_not] using hc)
      simp only [List.filterMap_cons, if_pos hc, ih, hskip]
    · have htake : trimmed (c :: raw) = c :: trimmed raw :=
        List.filter_cons_of_pos (decide_eq_true hc)
      simp only [List.filterMap_cons, if_neg hc, ih, htake]

theorem trimmed_concat (raw : List UInt8) {u : UInt8} (hu : u ∉ [Byte.space, Byte.tab]) :
    trimmed (raw ++ [u]) = trimmed raw ++ [u] := by
  have hkept : trimmed [u] = [u] := List.filter_eq_self.mpr (by simpa using hu)
  have happend : trimmed (raw ++ [u]) = trimmed raw ++ trimmed [u] := List.filter_append ..
  rw [happend, hkept]

theorem trimmed_eq_self {raw : List UInt8} (h : Byte.space ∉ raw) (h' : Byte.tab ∉ raw) :
    trimmed raw = raw := by
  refine List.filter_eq_self.mpr fun c hc => ?_
  simp only [List.mem_cons, List.not_mem_nil, or_false, decide_eq_true_eq, not_or]
  exact ⟨fun he => h (he ▸ hc), fun he => h' (he ▸ hc)⟩

theorem mem_delimString {delim c : UInt8} :
    c ∈ delimString delim ↔ c = Byte.newline ∨ c = delim := by
  unfold delimString
  split
  · simp
  · rename_i hdelim
    simp [not_not.mp hdelim]

/-- A name as it is written, and its value. -/
structure Chunk where
  raw : List UInt8
  value : List UInt8

namespace Chunk

def text (delim : UInt8) (c : Chunk) : List UInt8 := c.raw ++ Byte.equals :: (c.value ++ [delim])

def assign (data : KeyValues) (c : Chunk) : KeyValues := data.insert (trimmed c.raw) c.value

structure Valid (delim : UInt8) (c : Chunk) : Prop where
  raw_equals : Byte.equals ∉ c.raw
  raw_newline : Byte.newline ∉ c.raw
  value_newline : Byte.newline ∉ c.value
  value_delim : delim ∉ c.value

end Chunk

section
variable {delim : UInt8} {steps : Nat} {data : KeyValues} {rest : List UInt8}

theorem parseLoop_nil : parseLoop delim (steps + 1) data [] = .ok (data, []) := rfl

theorem parseLoop_newline :
    parseLoop delim (steps + 1) data (Byte.newline :: rest) = .ok (data, rest) := by
  have hread : read [Byte.equals, Byte.newline] (some ignoreWhitespace) true
      ([] ++ Byte.newline :: rest) = _ :=
    actsAs_ignoreWhitespace.read_list (by simp) (by simp) ((seen_le _ _ _).trans (by decide))
  have htrimmed : trimmed ([] ++ [Byte.newline]) = [] ++ [Byte.newline] := by decide
  have hgood : (Byte.newline :: rest).isEmpty = false := rfl
  rw [filterMap_trimmed, htrimmed, List.nil_append] at hread
  simp only [parseLoop, Prog.bind_apply, good_list, Outcome.bind_ok, hgood, Bool.not_false, if_true,
    hread, Prog.lift_apply, back_append, Prog.pure_apply]

/-- A turn that takes a name and a value. -/
theorem parseLoop_chunk {c : Chunk} (h : c.Valid delim)
    (hraw : c.raw.length + 2 ≤ arbitrarySpatialUntilLimit)
    (hvalue : c.value.length + 2 ≤ arbitrarySpatialUntilLimit) :
    parseLoop delim (steps + 1) data (c.text delim ++ rest) =
      parseLoop delim steps (c.assign data) rest := by
  have hname : read [Byte.equals, Byte.newline] (some ignoreWhitespace) true
      (c.raw ++ Byte.equals :: (c.value ++ delim :: rest)) = _ :=
    actsAs_ignoreWhitespace.read_list (fun a ha => by
      simp only [List.mem_cons, List.not_mem_nil, or_false, not_or]
      exact ⟨fun he => h.raw_equals (he ▸ ha), fun he => h.raw_newline (he ▸ ha)⟩)
      (by simp) ((seen_le _ _ _).trans hraw)
  rw [filterMap_trimmed, trimmed_concat _ (by decide)] at hname
  have hval : read (delimString delim) (none : Option (NullTask UInt8)) true
      (c.value ++ delim :: rest) = .ok (c.value ++ [delim], rest) :=
    read_list (fun a ha => by
      rw [mem_delimString, not_or]
      exact ⟨fun he => h.value_newline (he ▸ ha), fun he => h.value_delim (he ▸ ha)⟩)
      (mem_delimString.mpr (Or.inr rfl)) ((seen_le _ _ _).trans hvalue)
  have hends : endsLine delim (c.value ++ [delim]) = .ok false := by
    unfold endsLine
    split
    · rename_i hdelim
      simpa using hdelim
    · rfl
  have hgood : (c.text delim ++ rest).isEmpty = false := by simp [Chunk.text]
  have htext : c.text delim ++ rest = c.raw ++ Byte.equals :: (c.value ++ delim :: rest) := by
    simp [Chunk.text]
  have hne : ¬ Byte.equals = Byte.newline := by decide
  simp only [parseLoop, Prog.bind_apply, good_list, Outcome.bind_ok, hgood, Bool.not_false, if_true]
  simp only [htext, hname, Outcome.bind_ok, Prog.lift_apply, back_append, if_neg hne,
    Prog.bind_apply, hval, hends, Bool.false_eq_true, if_false, removeBack_append, Chunk.assign]

/-- What a parse that returns has read: names with values, and an end that it leaves out. -/
theorem parseLoop_inv {l l' : List UInt8} {data' : KeyValues}
    (h : parseLoop delim steps data l = .ok (data', l')) :
    ∃ (chunks : List Chunk) (tail : List UInt8), l = chunks.flatMap (Chunk.text delim) ++ tail ∧
      (∀ c ∈ chunks, c.Valid delim) ∧ data' = chunks.foldl Chunk.assign data := by
  induction steps generalizing data l with
  | zero => cases h
  | succ steps ih =>
    by_cases hl : l = []
    · subst hl
      cases h
      exact ⟨[], [], rfl, by simp, rfl⟩
    · have hgood : l.isEmpty = false := by simpa using hl
      simp only [parseLoop, Prog.bind_apply, good_list, Outcome.bind_ok, hgood, Bool.not_false,
        if_true] at h
      obtain ⟨⟨fieldName, l₁⟩, hname, h⟩ := Outcome.bind_eq_ok.mp h
      obtain ⟨raw, u, rfl, hraw, hu, rfl⟩ := actsAs_ignoreWhitespace.read_inv hname
      have htrimmed : trimmed (raw ++ [u]) = trimmed raw ++ [u] := by
        simp only [List.mem_cons, List.not_mem_nil, or_false] at hu
        obtain rfl | rfl := hu
        · exact trimmed_concat raw (by decide)
        · exact trimmed_concat raw (by decide)
      simp only [filterMap_trimmed, htrimmed, Prog.lift_apply, back_append, Outcome.bind_ok] at h
      split at h
      · cases h
        exact ⟨[], _, rfl, by simp, rfl⟩
      · rename_i hne
        obtain rfl : u = Byte.equals := by simpa [hne] using hu
        simp only [Prog.bind_apply] at h
        obtain ⟨⟨fieldValue, l₂⟩, hvalue, h⟩ := Outcome.bind_eq_ok.mp h
        obtain ⟨value, d, rfl, hval, hd, rfl⟩ := (actsAs_none (θ := NullTask UInt8)).read_inv hvalue
        simp only [List.filterMap_some, Prog.lift_apply] at h
        obtain ⟨⟨ended, l₃⟩, hended, h⟩ := Outcome.bind_eq_ok.mp h
        obtain ⟨b, hb, hpair⟩ := Outcome.bind_eq_ok.mp hended
        cases hpair
        cases ended with
        | true =>
          cases h
          exact ⟨[], _, rfl, by simp, rfl⟩
        | false =>
          obtain rfl : d = delim := by
            by_contra hdelim
            obtain rfl : d = Byte.newline := by
              simpa [mem_delimString, hdelim] using hd
            simp [endsLine, Ne.symm hdelim] at hb
          simp only [Bool.false_eq_true, if_false, Prog.bind_apply, Prog.lift_apply,
            removeBack_append, Outcome.bind_ok] at h
          obtain ⟨chunks, tail, hl, hvalid, hdata⟩ := ih h
          refine ⟨⟨raw, value⟩ :: chunks, tail, ?_, ?_, hdata⟩
          · simp [Chunk.text, hl]
          · refine List.forall_mem_cons.mpr ⟨⟨?_, ?_, ?_, ?_⟩, hvalid⟩
            · exact fun hmem => hraw _ hmem (by simp)
            · exact fun hmem => hraw _ hmem (by simp)
            · exact fun hmem => hval _ hmem (mem_delimString.mpr (Or.inl rfl))
            · exact fun hmem => hval _ hmem (mem_delimString.mpr (Or.inr rfl))

end

end WylesLibs.KeyValue
