import WylesLibs.EStream.Elements
import WylesLibs.Web.HttpText

/-! What the constructor of a request makes of a well-formed head. -/
namespace WylesLibs.Stream
open Library

theorem ActsAs.read_holds {θ : Type} [StreamTask θ UInt8] [SettledTask θ] {task : Option θ}
    {f : UInt8 → Option UInt8} (h : ActsAs task f) {pre rest untilEls : List UInt8} {u : UInt8}
    {s : EStream UInt8} (hs : Holds s (pre ++ u :: rest)) (hpre : ∀ c ∈ pre, c ∉ untilEls)
    (hu : u ∈ untilEls) (hlimit : pre.length + 2 ≤ arbitrarySpatialUntilLimit) :
    ∃ s', read untilEls task true s = .ok ((pre ++ [u]).filterMap f, s') ∧ Holds s' rest := by
  have hrel := holds_sim.read untilEls task true s (pre ++ u :: rest) hs
  rw [h.read_list hpre hu ((seen_le true pre rest).trans hlimit)] at hrel
  exact hrel.of_ok

end WylesLibs.Stream

namespace WylesLibs.Http
open Library WylesLibs.Stream Datastructures WylesLibs.Parser
variable {D ρ : Type}

namespace RequestHead

/-! The chains of tasks. -/

/-- What a chain lets through of a text. -/
def shown (lower : Bool) (text : List UInt8) : List UInt8 :=
  if lower then (withoutBlanks text).map lowerCase else withoutBlanks text

/-- Whether the values of a field are lowered; the name is looked for as a C string. -/
def lowers (k : List UInt8) : Bool := decide (cStr k ∈ fieldValuesToLowerCase)

def letThrough (lower : Bool) (c : UInt8) : Option UInt8 :=
  if c ∈ [Byte.tab, Byte.space] then none else some (if lower then lowerCase c else c)

theorem shown_cons (lower : Bool) (c : UInt8) (text : List UInt8) :
    shown lower (c :: text) = (letThrough lower c).toList ++ shown lower text := by
  by_cases hc : c ∈ [Byte.tab, Byte.space]
  · have hskip : withoutBlanks (c :: text) = withoutBlanks text :=
      List.filter_cons_of_neg (by simpa [or_iff_not_imp_left] using hc)
    simp [shown, hskip, letThrough, hc]
  · have htake : withoutBlanks (c :: text) = c :: withoutBlanks text :=
      List.filter_cons_of_pos (by simpa using hc)
    cases lower <;> simp [shown, htake, letThrough, hc]

theorem filterMap_letThrough (lower : Bool) (text : List UInt8) :
    text.filterMap (letThrough lower) = shown lower text := by
  induction text with
  | nil => cases lower <;> rfl
  | cons c text ih =>
    rw [shown_cons, ← ih]
    cases hc : letThrough lower c <;> simp [hc]

theorem actsAs_whitespaceChain : ActsAs (some whitespaceChain) (letThrough false) :=
  actsAs_none.disallow _

theorem actsAs_whitespaceLcChain : ActsAs (some whitespaceLcChain) (letThrough true) :=
  (actsAs_none.lc).disallow _

theorem actsAs_chainOf (k : List UInt8) : ActsAs (some (chainOf k)) (letThrough (lowers k)) := by
  unfold chainOf lowers
  by_cases hk : cStr k ∈ fieldValuesToLowerCase
  · simpa [hk] using actsAs_whitespaceLcChain
  · simpa [hk] using actsAs_whitespaceChain

theorem shown_append (lower : Bool) (text text' : List UInt8) :
    shown lower (text ++ text') = shown lower text ++ shown lower text' := by
  cases lower <;> simp [shown, withoutBlanks]

theorem shown_space (lower : Bool) (text : List UInt8) :
    shown lower (Byte.space :: text) = shown lower text := by
  cases lower <;> simp [shown, withoutBlanks]

theorem shown_comma (lower : Bool) : shown lower [Byte.comma] = [Byte.comma] := by
  cases lower <;> decide

theorem shown_crlf (lower : Bool) : shown lower crlf = crlf := by
  cases lower <;> decide

/-! The values of a field. -/

/-- What is kept of the values: each but the last loses its last byte to the comma, and is left out
where it has nothing but blanks. -/
def stored (lower : Bool) : List (List UInt8) → List (List UInt8)
  | [] => []
  | [v] => [shown lower v]
  | v :: vs => (if shown lower v = [] then [] else [(shown lower v).dropLast]) ++ stored lower vs

def valuesText (values : List (List UInt8)) : List UInt8 :=
  [Byte.comma, Byte.space].intercalate values ++ crlf

theorem valuesText_cons_cons (v w : List UInt8) (vs : List (List UInt8)) :
    valuesText (v :: w :: vs) = v ++ Byte.comma :: Byte.space :: valuesText (w :: vs) := by
  simp [valuesText, List.intercalate]

theorem valuesText_singleton (v : List UInt8) : valuesText [v] = v ++ crlf := by
  simp [valuesText, List.intercalate]

theorem substrBack_two_comma (text : List UInt8) (h : text ≠ []) :
    substrBack (text ++ [Byte.comma]) 2 = text.dropLast := by
  have hpos := List.length_pos_of_ne_nil h
  have hnot : ¬ text.length + 1 < 2 := by omega
  have hcount : text.length + 1 - 2 = text.length - 1 := by omega
  rw [substrBack, List.length_append, List.length_singleton, if_neg hnot, hcount,
    List.take_append_of_le_length (by omega), List.dropLast_eq_take]

theorem substrBack_two_crlf (text : List UInt8) : substrBack (text ++ crlf) 2 = text := by
  simp [substrBack, crlf]

theorem valuesLoop_stored {k : List UInt8} {onValue : List UInt8 → ρ → Outcome ρ}
    {values : List (List UInt8)} (hne : values ≠ []) (hvalues : ∀ v ∈ values, Free [Byte.comma] v)
    {steps : Nat} (hsteps : values.length ≤ steps) {rest : List UInt8}
    (hlimit : (valuesText values).length + 2 ≤ arbitrarySpatialUntilLimit) {s : EStream UInt8}
    (hs : Holds s (Byte.space :: (valuesText values ++ rest))) (r : ρ) :
    ∃ s', Holds s' rest ∧ valuesLoop (chainOf k) onValue steps r s =
      (feed onValue (stored (lowers k) values) r).bind fun r => .ok (r, s') := by
  induction values generalizing steps s r with
  | nil => exact absurd rfl hne
  | cons v vs ih =>
    obtain ⟨steps, rfl⟩ : ∃ m, steps = m + 1 :=
      ⟨steps - 1, by simp only [List.length_cons] at hsteps; omega⟩
    obtain ⟨hv, hvs⟩ := List.forall_mem_cons.mp hvalues
    have hinside : ∀ c ∈ Byte.space :: v, c ∉ [Byte.comma, Byte.newline] := by
      intro c hc hmem
      obtain rfl | hc := List.mem_cons.mp hc
      · exact absurd hmem (by decide)
      · obtain ⟨hcomma, -, hnewline⟩ := hv.2 c hc
        simp_all
    cases vs with
    | nil =>
      rw [valuesText_singleton] at hs hlimit
      have hs' : Holds s ((Byte.space :: v ++ [Byte.carriageReturn]) ++ Byte.newline :: rest) := by
        simpa [crlf] using hs
      have hpre : ∀ c ∈ Byte.space :: v ++ [Byte.carriageReturn], c ∉ [Byte.comma, Byte.newline] := by
        intro c hc
        obtain hc | hc := List.mem_append.mp hc
        · exact hinside c hc
        · obtain rfl := List.mem_singleton.mp hc
          decide
      obtain ⟨s', hread, hrest⟩ := (actsAs_chainOf k).read_holds hs' hpre (by simp)
        (by simp only [crlf, List.length_append, List.length_cons, List.length_nil] at hlimit ⊢; omega)
      have htext : (Byte.space :: v ++ [Byte.carriageReturn] ++ [Byte.newline]).filterMap
          (letThrough (lowers k)) = shown (lowers k) v ++ crlf := by
        have hsplit : Byte.space :: v ++ [Byte.carriageReturn] ++ [Byte.newline] =
            Byte.space :: (v ++ crlf) := by simp [crlf]
        rw [filterMap_letThrough, hsplit, shown_space, shown_append, shown_crlf]
      rw [htext] at hread
      refine ⟨s', hrest, ?_⟩
      have hlast : lastByte (shown (lowers k) v ++ crlf) = .ok Byte.newline := by
        simp [lastByte, crlf]
      have hlong : 2 ≤ (shown (lowers k) v ++ crlf).length := by simp [crlf]
      simp only [valuesLoop, Prog.bind_apply, hread, Outcome.bind_ok, Prog.lift_apply, hlast, if_pos hlong,
        substrBack_two_crlf, if_true, Prog.pure_apply, stored, feed_cons, feed_nil,
        Outcome.bind_assoc]
    | cons w vs =>
      rw [valuesText_cons_cons] at hs hlimit
      have hs' : Holds s ((Byte.space :: v) ++ Byte.comma ::
          (Byte.space :: (valuesText (w :: vs) ++ rest))) := by simpa using hs
      simp only [List.length_append, List.length_cons] at hlimit
      obtain ⟨s', hread, hrest⟩ := (actsAs_chainOf k).read_holds hs' hinside (by simp)
        (by simp only [List.length_cons]; omega)
      have htext : (Byte.space :: v ++ [Byte.comma]).filterMap (letThrough (lowers k)) =
          shown (lowers k) v ++ [Byte.comma] := by
        rw [filterMap_letThrough, List.cons_append, shown_space, shown_append, shown_comma]
      rw [htext] at hread
      have hrec := fun r => @ih (by simp) hvs steps (by simpa using hsteps) (by omega) s' hrest r
      have hlast : lastByte (shown (lowers k) v ++ [Byte.comma]) = .ok Byte.comma := by
        simp [lastByte]
      have hmore : Byte.comma ≠ Byte.newline := by decide
      by_cases hblank : shown (lowers k) v = []
      · obtain ⟨s'', hrest', hloop⟩ := hrec r
        refine ⟨s'', hrest', ?_⟩
        have hshort : ¬ 2 ≤ (shown (lowers k) v ++ [Byte.comma]).length := by simp [hblank]
        simp only [valuesLoop, Prog.bind_apply, hread, Outcome.bind_ok, Prog.lift_apply, hlast, if_neg hshort,
          Prog.pure_apply, if_neg hmore, hloop, stored, if_pos hblank, List.nil_append]
      · have hlong : 2 ≤ (shown (lowers k) v ++ [Byte.comma]).length := by
          have hpos := List.length_pos_of_ne_nil hblank
          simp only [List.length_append, List.length_singleton]
          omega
        have hstep : valuesLoop (chainOf k) onValue (steps + 1) r s =
            (onValue (shown (lowers k) v).dropLast r).bind fun r =>
              valuesLoop (chainOf k) onValue steps r s' := by
          simp only [valuesLoop, Prog.bind_apply, hread, Outcome.bind_ok, Prog.lift_apply, hlast, if_pos hlong,
            substrBack_two_comma _ hblank, if_neg hmore, Outcome.bind_assoc]
        simp only [hstep, stored, if_neg hblank, List.singleton_append, feed_cons,
          Outcome.bind_assoc]
        cases onValue (shown (lowers k) v).dropLast r with
        | ok r' => simpa using hrec r'
        | thrown w => exact ⟨_, (hrec r).choose_spec.1, rfl⟩
        | undef => exact ⟨_, (hrec r).choose_spec.1, rfl⟩
        | timeout => exact ⟨_, (hrec r).choose_spec.1, rfl⟩

/-! The fields. -/

/-- The values as they are stored, each with the name of its field. -/
def entries (fields : List (List UInt8 × List (List UInt8))) : List (List UInt8 × List UInt8) :=
  fields.flatMap fun f => (stored (lowers (key f.1)) f.2).map fun v => (key f.1, v)

theorem feed_entries (onValue : List UInt8 → List UInt8 → ρ → Outcome ρ)
    (f : List UInt8 × List (List UInt8)) (fields : List (List UInt8 × List (List UInt8))) (r : ρ) :
    feed (fun e => onValue e.1 e.2) (entries (f :: fields)) r =
      (feed (onValue (key f.1)) (stored (lowers (key f.1)) f.2) r).bind
        (feed (fun e => onValue e.1 e.2) (entries fields)) := by
  have hfield : ∀ (k : List UInt8) (vs : List (List UInt8)) (r : ρ),
      feed (fun e => onValue e.1 e.2) (vs.map fun v => (k, v)) r = feed (onValue k) vs r := by
    intro k vs
    induction vs with
    | nil => simp
    | cons v vs ih =>
      intro r
      simp only [List.map_cons, feed_cons]
      exact congrArg _ (funext ih)
  have hcons : entries (f :: fields) =
      ((stored (lowers (key f.1)) f.2).map fun v => (key f.1, v)) ++ entries fields := rfl
  rw [hcons, feed_append, hfield]

theorem fieldText_eq (f : List UInt8 × List (List UInt8)) :
    fieldText f = f.1 ++ Byte.colon :: Byte.space :: valuesText f.2 := by
  simp [fieldText, valuesText]

theorem read_name {name rest : List UInt8} (hname : Free [Byte.colon] name)
    (hlimit : name.length + 2 ≤ arbitrarySpatialUntilLimit) {s : EStream UInt8}
    (hs : Holds s (name ++ Byte.colon :: rest)) :
    ∃ s', read [Byte.colon, Byte.newline] (some whitespaceLcChain) true s =
      .ok (key name ++ [Byte.colon], s') ∧ Holds s' rest := by
  have hpre : ∀ c ∈ name, c ∉ [Byte.colon, Byte.newline] := by
    intro c hc hmem
    obtain ⟨hcolon, -, hnewline⟩ := hname.2 c hc
    simp_all
  obtain ⟨s', hread, hrest⟩ := actsAs_whitespaceLcChain.read_holds hs hpre (by simp) hlimit
  have hcolon : shown true [Byte.colon] = [Byte.colon] := by decide
  rw [filterMap_letThrough, shown_append, hcolon] at hread
  exact ⟨s', hread, hrest⟩

theorem read_empty_line {rest : List UInt8} {s : EStream UInt8} (hs : Holds s (crlf ++ rest)) :
    ∃ s', read [Byte.colon, Byte.newline] (some whitespaceLcChain) true s = .ok (crlf, s') ∧
      Holds s' rest := by
  have hs' : Holds s ([Byte.carriageReturn] ++ Byte.newline :: rest) := hs
  have hpre : ∀ c ∈ [Byte.carriageReturn], c ∉ [Byte.colon, Byte.newline] := by
    intro c hc
    obtain rfl := List.mem_singleton.mp hc
    decide
  have hlimit : [Byte.carriageReturn].length + 2 ≤ arbitrarySpatialUntilLimit := by
    simp [arbitrarySpatialUntilLimit]
  obtain ⟨s', hread, hrest⟩ := actsAs_whitespaceLcChain.read_holds hs' hpre (by simp) hlimit
  rw [filterMap_letThrough] at hread
  exact ⟨s', hread, hrest⟩

theorem fieldsLoop_stored (onValue : List UInt8 → List UInt8 → ρ → Outcome ρ)
    {fields : List (List UInt8 × List (List UInt8))}
    (hname : ∀ f ∈ fields, Free [Byte.colon] f.1)
    (hvalues : ∀ f ∈ fields, f.2 ≠ [] ∧ ∀ v ∈ f.2, Free [Byte.comma] v)
    {steps left : Nat} (hsteps : ∀ f ∈ fields, f.2.length ≤ steps) (hleft : fields.length < left)
    (hlimit : ∀ f ∈ fields, (fieldText f).length ≤ arbitrarySpatialUntilLimit)
    {rest : List UInt8} {s : EStream UInt8}
    (hs : Holds s (fields.flatMap fieldText ++ (crlf ++ rest))) (r : ρ) :
    ∃ s', Holds s' rest ∧ fieldsLoop steps onValue left r s =
      (feed (fun e => onValue e.1 e.2) (entries fields) r).bind fun r =>
        .ok ((left - fields.length, r), s') := by
  induction fields generalizing left s r with
  | nil =>
    obtain ⟨left, rfl⟩ : ∃ m, left = m + 1 := ⟨left - 1, by simp at hleft; omega⟩
    obtain ⟨s', hread, hrest⟩ := read_empty_line hs
    refine ⟨s', hrest, ?_⟩
    have hlast : lastByte crlf = .ok Byte.newline := rfl
    simp [fieldsLoop, hread, hlast, entries]
  | cons f fields ih =>
    obtain ⟨left, rfl⟩ : ∃ m, left = m + 1 := ⟨left - 1, by simp at hleft; omega⟩
    obtain ⟨hname, hnames⟩ := List.forall_mem_cons.mp hname
    obtain ⟨⟨hne, hfree⟩, hvalues⟩ := List.forall_mem_cons.mp hvalues
    obtain ⟨hstep, hsteps⟩ := List.forall_mem_cons.mp hsteps
    obtain ⟨hlong, hlimit⟩ := List.forall_mem_cons.mp hlimit
    have hpos := List.length_pos_of_ne_nil hname.1
    rw [fieldText_eq, List.length_append] at hlong
    simp only [List.length_cons] at hlong hleft
    have hs' : Holds s (f.1 ++ Byte.colon :: (Byte.space ::
        (valuesText f.2 ++ (fields.flatMap fieldText ++ (crlf ++ rest))))) := by
      simpa [fieldText_eq] using hs
    obtain ⟨s₁, hread, hs₁⟩ := read_name hname (by omega) hs'
    have hlast : lastByte (key f.1 ++ [Byte.colon]) = .ok Byte.colon := by simp [lastByte]
    have hmore : Byte.colon ≠ Byte.newline := by decide
    have hcut : substrBack (key f.1 ++ [Byte.colon]) 1 = key f.1 := by
      rw [substrBack_one, List.dropLast_concat]
    have hfield := fun r => @valuesLoop_stored ρ (key f.1) (onValue (key f.1)) f.2 hne hfree steps hstep
      _ (by omega) s₁ hs₁ r
    have hstart : fieldsLoop steps onValue (left + 1) r s =
        (valuesLoop (chainOf (key f.1)) (onValue (key f.1)) steps r s₁).bind fun p =>
          fieldsLoop steps onValue left p.1 p.2 := by
      simp only [fieldsLoop, Prog.bind_apply, hread, Outcome.bind_ok, Prog.lift_apply, hlast,
        if_neg hmore, hcut]
    obtain ⟨s₂, hs₂, hloop⟩ := hfield r
    have hrec := fun r => @ih hnames hvalues left hsteps (by omega) hlimit s₂ hs₂ r
    have hcount : left + 1 - (fields.length + 1) = left - fields.length := by omega
    simp only [hstart, hloop, feed_entries, Outcome.bind_assoc, Outcome.bind_ok, List.length_cons,
      hcount]
    cases feed (onValue (key f.1)) (stored (lowers (key f.1)) f.2) r with
    | ok r' => simpa using hrec r'
    | thrown w => exact ⟨_, (hrec r).choose_spec.1, rfl⟩
    | undef => exact ⟨_, (hrec r).choose_spec.1, rfl⟩
    | timeout => exact ⟨_, (hrec r).choose_spec.1, rfl⟩

/-! The request. -/

variable {head : RequestHead}

/-- What is stored under a name. -/
def storedOf (head : RequestHead) (k : List UInt8) : List (List UInt8) :=
  ((entries head.fields).filter fun e => e.1 = k).map Prod.snd

/-- The length that is read out of the values of Content-Length, the last of which counts. -/
def announced (values : List (List UInt8)) (n : Nat) : Outcome Nat :=
  feed (fun v _ => (Validation.atoi v).bind fun n => .ok (toSize n)) values n

def storedFields (es : List (List UInt8 × List UInt8)) (fields : Fields) : Fields :=
  es.foldl (fun fields e => appendAt fields e.1 e.2) fields

theorem feed_onValue (es : List (List UInt8 × List UInt8)) (fields : Fields) (n : Nat) :
    feed (fun e => HttpRequest.onValue e.1 e.2) es (fields, n) =
      (announced ((es.filter fun e => e.1 = contentLengthKey).map Prod.snd) n).bind fun n =>
        .ok (storedFields es fields, n) := by
  induction es generalizing fields n with
  | nil => rfl
  | cons e es ih =>
    have hcons : storedFields (e :: es) fields = storedFields es (appendAt fields e.1 e.2) := rfl
    rw [feed_cons, hcons]
    by_cases hk : e.1 = contentLengthKey
    · simp only [HttpRequest.onValue, if_pos hk, Outcome.bind_assoc, Outcome.bind_ok, ih]
      simp [hk, announced, feed_cons, Outcome.bind_assoc]
    · simp only [HttpRequest.onValue, if_neg hk, Outcome.bind_ok, ih]
      simp [hk]

/-- The request, before its content is read. -/
def request (head : RequestHead) (n : Nat) : HttpRequest D where
  method := head.method.dropLast
  url := ⟨head.path, ∅⟩
  backwardsPath := []
  version := head.version
  fields := storedFields (entries head.fields) ∅
  contentLength := some n
  jsonContent := none
  files := []
  formContent := ∅
  content := []

theorem readUntil_holds {pre rest untilEls : List UInt8} {u : UInt8} {s : EStream UInt8}
    (hs : Holds s (pre ++ u :: rest)) (hpre : ∀ c ∈ pre, c ∉ untilEls) (hu : u ∈ untilEls)
    (hlimit : pre.length + 2 ≤ arbitrarySpatialUntilLimit) :
    ∃ s', readUntil untilEls s = .ok (pre ++ [u], s') ∧ Holds s' rest := by
  have htask : ActsAs (none : Option (NullTask UInt8)) some := actsAs_none
  obtain ⟨s', hread, hrest⟩ := htask.read_holds hs hpre hu hlimit
  rw [List.filterMap_some] at hread
  exact ⟨s', hread, hrest⟩

theorem removeBack_concat (text : List UInt8) (c : UInt8) :
    removeBack (text ++ [c]) = .ok text := by
  simp [removeBack]

theorem parseUrl_holds {path rest : List UInt8} (hpath : Free [Byte.space, Byte.question] path)
    (hlimit : path.length + 2 ≤ arbitrarySpatialUntilLimit) {steps : Nat} {s : EStream UInt8}
    (hs : Holds s (path ++ Byte.space :: rest)) :
    ∃ s', parseUrl steps s = .ok (⟨path, ∅⟩, s') ∧ Holds s' rest := by
  have hpre : ∀ c ∈ path, c ∉ [Byte.question, Byte.space] := by
    intro c hc hmem
    have hout := (hpath.2 c hc).1
    simp_all
  obtain ⟨s', hread, hrest⟩ := readUntil_holds hs hpre (by simp) hlimit
  refine ⟨s', ?_, hrest⟩
  have hback : back (path ++ [Byte.space]) = .ok Byte.space := by simp [back]
  have hplain : Byte.space ≠ Byte.question := by decide
  have hcut : substrBack (path ++ [Byte.space]) 1 = path := by
    rw [substrBack_one, List.dropLast_concat]
  simp only [parseUrl, Prog.bind_apply, hread, Outcome.bind_ok, Prog.lift_apply, hback,
    if_neg hplain, Prog.pure_apply, hcut]

/-- The head of a request is short enough for the reads, and its fields for the loop. -/
structure Fits (head : RequestHead) (steps : Nat) : Prop where
  text : head.text.length ≤ arbitrarySpatialUntilLimit
  steps : ∀ f ∈ head.fields, f.2.length ≤ steps

theorem length_fieldText_le {f : List UInt8 × List (List UInt8)} (hf : f ∈ head.fields) :
    (fieldText f).length ≤ head.text.length := by
  have hinfix : fieldText f <:+: head.fields.flatMap fieldText := by
    have hflat : head.fields.flatMap fieldText = (head.fields.map fieldText).flatten := by
      rw [List.flatMap_def]
    rw [hflat]
    exact List.infix_of_mem_flatten (List.mem_map_of_mem hf)
  have hle := hinfix.length_le
  simp only [text, List.length_append, List.length_cons]
  omega

/-- A well-formed head is read as far as its empty line: the method without its last byte, the path
and the version as they are, and the values without what the reader cuts off. -/
theorem parse_head [DoubleArith D] (context : Multipart.Context) {steps : Nat} (h : head.WellFormed)
    (hfits : head.Fits steps) {body : List UInt8} {s : EStream UInt8}
    (hs : Holds s (head.text ++ body)) :
    ∃ s', Holds s' body ∧ HttpRequest.parse (D := D) context steps s =
      (announced (head.storedOf contentLengthKey) sizeMax).bind fun n =>
        (head.request n : HttpRequest D).readContent context steps n s' := by
  have hlong := hfits.text
  simp only [text, crlf, List.length_append, List.length_cons, List.length_nil] at hlong
  have hs₀ : Holds s (head.method ++ Byte.space :: (head.path ++ Byte.space ::
      ((head.version ++ [Byte.carriageReturn]) ++ Byte.newline ::
        (head.fields.flatMap fieldText ++ (crlf ++ body))))) := by
    simpa [text, crlf] using hs
  -- the first line
  have hmethod : ∀ c ∈ head.method, c ∉ [Byte.space] := fun c hc => (h.method.2 c hc).1
  obtain ⟨s₁, hread₁, hs₁⟩ := readUntil_holds hs₀ hmethod (by simp) (by omega)
  obtain ⟨s₂, hread₂, hs₂⟩ := @parseUrl_holds _ _ h.path (by omega) steps _ hs₁
  have hversion : ∀ c ∈ head.version ++ [Byte.carriageReturn], c ∉ [Byte.newline] := by
    intro c hc hmem
    obtain rfl := List.mem_singleton.mp hmem
    obtain hc | hc := List.mem_append.mp hc
    · exact (h.version.2 _ hc).2.2 rfl
    · exact absurd (List.mem_singleton.mp hc) (by decide)
  obtain ⟨s₃, hread₃, hs₃⟩ := readUntil_holds hs₂ hversion (by simp)
    (by simp only [List.length_append, List.length_singleton]; omega)
  -- the fields
  obtain ⟨s₄, hs₄, hloop⟩ := @fieldsLoop_stored (Fields × Nat) HttpRequest.onValue head.fields
    h.name h.values steps httpFieldMax hfits.steps (Nat.lt_of_le_of_lt h.fields (by decide))
    (fun f hf => (length_fieldText_le hf).trans hfits.text) body s₃ hs₃ (∅, sizeMax)
  have hleft : httpFieldMax - head.fields.length ≠ 0 := by
    have hcount := h.fields
    have hmax : httpFieldMax = 64 := rfl
    omega
  refine ⟨s₄, hs₄, ?_⟩
  simp only [HttpRequest.parse, Prog.bind_apply, hread₁, Outcome.bind_ok, Prog.lift_apply,
    removeBack_concat, hread₂, hread₃, hloop, feed_onValue, Outcome.bind_assoc, if_neg hleft,
    substrBack_one, List.dropLast_concat]
  rfl

theorem method_of_parse [DoubleArith D] {context : Multipart.Context} {steps : Nat}
    {s s' : EStream UInt8} {body : List UInt8} {r : HttpRequest D} (h : head.WellFormed) (hs : Holds s (head.text ++ body))
    (hparse : HttpRequest.parse context steps s = .ok (r, s')) : r.method = head.method.dropLast := by
  have hfree : Byte.space ∉ head.method := fun hspace => (h.method.2 _ hspace).1 (by simp)
  have hs' : Holds s (head.method ++ Byte.space :: (head.path ++ [Byte.space] ++ head.version ++
      crlf ++ head.fields.flatMap fieldText ++ crlf ++ body)) := by
    simpa [text] using hs
  exact parse_method hs' hfree hparse

/-! The content. -/

section
variable [DoubleArith D] {context : Multipart.Context} {steps n : Nat} {body : List UInt8}
  {s : EStream UInt8}

/-- A body of this many bytes can be read, and has arrived. -/
def Arrived (n : Nat) (body : List UInt8) : Prop :=
  1 ≤ n ∧ n ≤ arbitraryLimitBecauseDumb ∧ n ≤ body.length

theorem readContent_holds (hmethod : head.method.dropLast ≠ bytes "POST".toList)
    (hs : Holds s body) :
    (Arrived n body ∧ ∃ s', (head.request n : HttpRequest D).readContent context steps n s =
      .ok ({ head.request n with content := body.take n }, s')) ∨
    (¬ Arrived n body ∧ ∃ w, (head.request n : HttpRequest D).readContent context steps n s =
      .thrown w) := by
  have hpost : (head.request n : HttpRequest D).method ≠ bytes "POST".toList := hmethod
  have hall : (head.request n : HttpRequest D).readContent context steps n s =
      (EStream.readEls n s).bind fun p => .ok ({ head.request n with content := p.1 }, p.2) := by
    rw [HttpRequest.readContent, if_neg hpost]
    rfl
  rw [hall]
  obtain ⟨hmin, hlimit, hle, s', hread, -⟩ | ⟨hnot, w, hread⟩ := @readEls_holds _ n _ _ hs
  · left
    exact ⟨⟨hmin, hlimit, hle⟩, s', by rw [hread]; rfl⟩
  · right
    exact ⟨hnot, w, by rw [hread]; rfl⟩

theorem parse_arrived (h : head.WellFormed) (hfits : head.Fits steps)
    (hmethod : head.method.dropLast ≠ bytes "POST".toList) (hs : Holds s (head.text ++ body))
    (hlength : announced (head.storedOf contentLengthKey) sizeMax = .ok n)
    (harrived : Arrived n body) : ∃ s', HttpRequest.parse context steps s =
      .ok ({ (head.request n : HttpRequest D) with content := body.take n }, s') := by
  obtain ⟨s₁, hs₁, hparse⟩ := @parse_head D _ _ context steps h hfits body s hs
  obtain ⟨-, s', hread⟩ | ⟨hmissing, -⟩ :=
    @readContent_holds D head _ context steps n body s₁ hmethod hs₁
  · refine ⟨s', ?_⟩
    rw [hparse, hlength]
    exact hread
  · exact absurd harrived hmissing

theorem parse_missing (h : head.WellFormed) (hfits : head.Fits steps)
    (hmethod : head.method.dropLast ≠ bytes "POST".toList) (hs : Holds s (head.text ++ body))
    (hlength : announced (head.storedOf contentLengthKey) sizeMax = .ok n)
    (hmissing : ¬ Arrived n body) : ∃ w, HttpRequest.parse (D := D) context steps s = .thrown w := by
  obtain ⟨s₁, hs₁, hparse⟩ := @parse_head D _ _ context steps h hfits body s hs
  obtain ⟨harrived, -⟩ | ⟨-, w, hread⟩ :=
    @readContent_holds D head _ context steps n body s₁ hmethod hs₁
  · exact absurd harrived hmissing
  · refine ⟨w, ?_⟩
    rw [hparse, hlength]
    exact hread

theorem parse_arrived_inv {r : HttpRequest D} {s' : EStream UInt8} (h : head.WellFormed)
    (hfits : head.Fits steps) (hmethod : head.method.dropLast ≠ bytes "POST".toList)
    (hs : Holds s (head.text ++ body)) (hread : HttpRequest.parse context steps s = .ok (r, s')) :
    ∃ n, announced (head.storedOf contentLengthKey) sizeMax = .ok n ∧ Arrived n body ∧
      r = { head.request n with content := body.take n } := by
  obtain ⟨s₁, -, hparse⟩ := @parse_head D _ _ context steps h hfits body s hs
  cases hlength : announced (head.storedOf contentLengthKey) sizeMax with
  | thrown w => simp [hparse, hlength] at hread
  | undef => simp [hparse, hlength] at hread
  | timeout => simp [hparse, hlength] at hread
  | ok n =>
    by_cases harrived : Arrived n body
    · obtain ⟨t, hok⟩ := @parse_arrived D _ _ context _ _ _ _ h hfits hmethod hs hlength harrived
      rw [hread] at hok
      exact ⟨n, rfl, harrived, congrArg Prod.fst (Outcome.ok.inj hok)⟩
    · obtain ⟨w, hthrown⟩ := @parse_missing D _ _ context _ _ _ _ h hfits hmethod hs hlength harrived
      rw [hread] at hthrown
      cases hthrown

/-- A request that is no POST is read just if its last Content-Length announces a body, and the
body has arrived; it is the request of the head with that body. -/
theorem parse_iff (h : head.WellFormed) (hfits : head.Fits steps)
    (hmethod : head.method.dropLast ≠ bytes "POST".toList) (hs : Holds s (head.text ++ body))
    (r : HttpRequest D) :
    (∃ s', HttpRequest.parse context steps s = .ok (r, s')) ↔
      ∃ n, announced (head.storedOf contentLengthKey) sizeMax = .ok n ∧ Arrived n body ∧
        r = { head.request n with content := body.take n } := by
  constructor
  · rintro ⟨s', hread⟩
    exact parse_arrived_inv h hfits hmethod hs hread
  · rintro ⟨n, hlength, harrived, rfl⟩
    exact parse_arrived h hfits hmethod hs hlength harrived

end

/-- `GETT /a HTTP/1.1` with a body of one byte. -/
def fileHead : RequestHead where
  method := bytes ['G', 'E', 'T', 'T']
  path := bytes ['/', 'a']
  version := bytes ['H', 'T', 'T', 'P', '/', '1', '.', '1']
  fields := [(bytes "Content-Length".toList, [bytes ['1']])]

set_option maxRecDepth 4096 in
theorem fileHead_wellFormed : fileHead.WellFormed where
  method := by decide
  path := by decide
  version := by decide
  fields := by decide
  name := by decide
  values := by decide

theorem fileHead_fits : fileHead.Fits 1 where
  text := by
    have hlength : fileHead.text.length ≤ 64 := by decide +kernel
    exact hlength.trans (by simp [arbitrarySpatialUntilLimit])
  steps := by decide

theorem fileHead_announced :
    announced (fileHead.storedOf contentLengthKey) sizeMax = .ok 1 := by
  have hstored : fileHead.storedOf contentLengthKey = [bytes ['1']] := by decide +kernel
  have hnumber : (announced [bytes ['1']] sizeMax).toOption = some 1 := by decide +kernel
  rw [hstored]
  cases hlength : announced [bytes ['1']] sizeMax with
  | ok n => simpa [hlength, Outcome.toOption] using hnumber
  | thrown w => simp [hlength, Outcome.toOption] at hnumber
  | undef => simp [hlength, Outcome.toOption] at hnumber
  | timeout => simp [hlength, Outcome.toOption] at hnumber

theorem parse_iff_fileHead : ∃ s', HttpRequest.parse sampleContext 1
    (EStream.ofBuffer (fileHead.text ++ bytes ['x'])) =
      .ok ({ (fileHead.request 1 : HttpRequest Rat) with content := bytes ['x'] }, s') := by
  have hmethod : fileHead.method.dropLast ≠ bytes "POST".toList := by decide
  have harrived : Arrived 1 (bytes ['x']) := by simp [Arrived, arbitraryLimitBecauseDumb, bytes]
  exact (parse_iff fileHead_wellFormed fileHead_fits hmethod (holds_ofBuffer _) _).mpr
    ⟨1, fileHead_announced, harrived, rfl⟩

end RequestHead
end WylesLibs.Http
