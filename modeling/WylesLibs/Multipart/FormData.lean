import WylesLibs.KeyValue.Parse
import WylesLibs.Paths

/-! `parser/multipart/parse_formdata`: the parts of a form, read from a request. -/
namespace WylesLibs.Parser.Multipart
open Library WylesLibs.Stream Datastructures
variable {σ : Type}

def maxNumFilesPerRequest : Nat := 64

structure MultipartFile where
  resourceRoot : List UInt8
  id : List UInt8
  name : List UInt8
  deriving DecidableEq

namespace MultipartFile

def initial : MultipartFile := ⟨bytes "./".toList, [], []⟩

/-- `MultipartFile(std::string name)`: the name is assigned to the parameter, which hides the
member. -/
def ofName (_name : List UInt8) : MultipartFile := ⟨[], [], []⟩

/-- The constructor of three arguments assigns all of them to its parameters. -/
def make (_id _resourceRoot _name : List UInt8) : MultipartFile := ⟨[], [], []⟩

def getResourcePath (f : MultipartFile) : Paths.Path := Paths.join f.resourceRoot f.id

/-- `operator==`. -/
def same (f g : MultipartFile) : Bool := f.name == g.name

end MultipartFile

/-- What the server's context has for `createMultipartFile`: its directory, and the keys that its
generator answers with, one call after the other. -/
structure Context where
  resourcesRoot : List UInt8
  next : Nat → Outcome (List UInt8)

namespace FormData

/-- A `write` to the file manager: path, line, and whether to append. -/
structure Write where
  path : Paths.Path
  line : List UInt8
  append : Bool

/-- `files` is shared with the caller, `form_content` is a copy of the caller's. `keys` counts the
keys taken from the generator. -/
structure Parsing where
  files : List MultipartFile
  formContent : KeyValue.KeyValues
  newFile : Bool
  keys : Nat
  writes : List Write

/-- The variables of one turn of the loop, made anew in each. -/
structure Part where
  fieldName : List UInt8
  isFile : Bool
  file : MultipartFile
  hasName : Bool

def Part.initial : Part := ⟨[], false, .initial, false⟩

/-- `Service::createMultipartFile`. -/
def createMultipartFile (context : Context) (fileName : List UInt8) (p : Parsing) :
    Outcome (MultipartFile × Parsing) :=
  (context.next p.keys).bind fun id =>
    .ok (.make id context.resourcesRoot fileName, { p with keys := p.keys + 1 })

/-- What a field of the content disposition is for. -/
def useField (context : Context) (field value : List UInt8) (part : Part) (p : Parsing) :
    Outcome (Part × Parsing) :=
  if field = bytes "filename".toList then
    if p.files.length > maxNumFilesPerRequest then .thrown "Stack size... lol"
    else
      match p.files.find? fun f => f.same (.ofName value) with
      | none =>
        (createMultipartFile context value p).bind fun r =>
          .ok ({ part with isFile := true, file := r.1 },
            { r.2 with files := r.2.files ++ [r.1], newFile := true })
      | some file => .ok ({ part with isFile := true, file := file }, p)
  else if field = bytes "name".toList then
    .ok ({ part with fieldName := value, hasName := true }, p)
  else .ok (part, p)

section
variable [EStreamI σ UInt8]

/-- The `for` loop over two fields. -/
def readFields (context : Context) : Nat → Part → Parsing → Prog σ (Part × Parsing)
  | 0, part, p => pure (part, p)
  | n + 1, part, p => do
    let field ← read [Byte.equals] (none : Option (NullTask UInt8)) true
    let field ← Prog.lift (removeBack field)
    let value ← read [Byte.semicolon] (some (ReaderTaskExtract.mk' Byte.quote Byte.quote)) true
    let value ← Prog.lift (removeBack value)
    let (part, p) ← Prog.lift (useField context field value part p)
    readFields context n part p

/-- `line.at(0) == '-' && line.at(1) == '-'`. -/
def isBoundary (line : List UInt8) : Outcome Bool :=
  match line with
  | [] => .thrown "Invalid position."
  | c :: rest =>
    if c = Byte.minus then
      match rest with
      | [] => .thrown "Invalid position."
      | d :: _ => .ok (decide (d = Byte.minus))
    else .ok false

/-- `line[line.size() - 3] == '-'`; a position before the array is one far behind it, where an
element without a value is appended. -/
def isLast (line : List UInt8) : Outcome Bool :=
  if line.length < 3 then .undef
  else .ok (decide (line.getD (line.length - 3) 0 = Byte.minus))

/-- A line that is no boundary, with the variables of its turn. -/
def useLine (line : List UInt8) (part : Part) (p : Parsing) : Outcome Parsing :=
  if part.fieldName ≠ [] then
    if part.isFile then
      .ok { p with
        writes := p.writes ++ [⟨part.file.getResourcePath, line, !p.newFile⟩]
        newFile := false }
    else
      .ok { p with
        formContent := p.formContent.insert part.fieldName
          ((p.formContent.lookup part.fieldName).getD [] ++ line) }
  else .thrown "Boundary string expected at start."

/-- The `while` loop; every turn reads a line. -/
def parseLoop (context : Context) : Nat → Parsing → Prog σ Parsing
  | 0, _ => Prog.spent
  | steps + 1, p => do
    let line ← read [Byte.newline] (none : Option (NullTask UInt8)) true
    if ← Prog.lift (isBoundary line) then
      if ← Prog.lift (isLast line) then pure p
      else
        let _ ← read [Byte.semicolon] (none : Option (NullTask UInt8)) true
        let (part, p) ← readFields context 2 .initial p
        if part.hasName then
          let _ ← read [Byte.newline] (none : Option (NullTask UInt8)) true
          parseLoop context steps p
        else Prog.raise "Field name required."
    else
      let p ← Prog.lift (useLine line .initial p)
      parseLoop context steps p

/-- `parse`, and what its caller has afterwards: the array of files is the one that was passed, the
map is passed by value. -/
def parse (context : Context) (steps : Nat) (files : List MultipartFile)
    (formContent : KeyValue.KeyValues) :
    Prog σ (List MultipartFile × KeyValue.KeyValues × List Write) := do
  let p ← parseLoop context steps ⟨files, formContent, true, 0, []⟩
  pure (p.files, formContent, p.writes)

end

/-! The forms that the parser is for. -/

def crlf : List UInt8 := [Byte.carriageReturn, Byte.newline]
def dashes : List UInt8 := [Byte.minus, Byte.minus]

/-- A field of a form that is no file; `headers` are the lines behind its content disposition. -/
structure FormField where
  name : List UInt8
  headers : List (List UInt8)
  content : List UInt8

structure Form where
  boundary : List UInt8
  fields : List FormField

namespace Form

def fieldText (boundary : List UInt8) (f : FormField) : List UInt8 :=
  dashes ++ boundary ++ crlf ++ bytes "Content-Disposition: form-data; name=\"".toList ++ f.name ++
    [Byte.quote] ++ crlf ++ f.headers.flatMap (· ++ crlf) ++ crlf ++ f.content ++ crlf

def text (form : Form) : List UInt8 :=
  form.fields.flatMap (fieldText form.boundary) ++ dashes ++ form.boundary ++ dashes ++ crlf

/-- Each name, with the content of its part. -/
def content (form : Form) : KeyValue.KeyValues :=
  form.fields.foldr (fun f m => m.insert f.name f.content) ∅

/-- One or more named parts; the boundary is in none of their contents, and no line ends or quotes
are where they would end something else. -/
structure WellFormed (form : Form) : Prop where
  fields : form.fields ≠ []
  names : (form.fields.map FormField.name).Nodup
  boundary : form.boundary ≠ [] ∧ Byte.newline ∉ form.boundary ∧ Byte.carriageReturn ∉ form.boundary
  name : ∀ f ∈ form.fields, f.name ≠ [] ∧ Byte.quote ∉ f.name ∧ Byte.newline ∉ f.name
  header : ∀ f ∈ form.fields, ∀ line ∈ f.headers, line ≠ [] ∧ Byte.newline ∉ line
  content : ∀ f ∈ form.fields, ¬ dashes ++ form.boundary <:+: f.content

/-- The caller's map, empty before, has exactly the fields of the form afterwards. -/
def Fills (context : Context) (steps : Nat) (form : Form) (s : EStream UInt8) : Prop :=
  ∃ files formContent writes s', parse context steps [] ∅ s = .ok ((files, formContent, writes), s') ∧
    formContent = form.content

/-- The copy that is filled is lost to the caller, whatever the body and whatever becomes of the
parse. -/
theorem formContent_parse {context : Context} {steps : Nat} {files files' : List MultipartFile}
    {formContent formContent' : KeyValue.KeyValues} {writes : List Write} {s s' : EStream UInt8}
    (h : parse context steps files formContent s = .ok ((files', formContent', writes), s')) :
    formContent' = formContent := by
  obtain ⟨p, s₁, -, hpure⟩ := Prog.bind_ok_iff.mp h
  cases hpure
  rfl

theorem content_ne_empty {form : Form} (h : form.fields ≠ []) : form.content ≠ ∅ := by
  obtain ⟨f, fields, hf⟩ := List.exists_cons_of_ne_nil h
  intro hempty
  have hlookup : form.content.lookup f.name = some f.content := by
    simp [content, hf]
  rw [hempty] at hlookup
  simp at hlookup

theorem useField_formContent {context : Context} {field value : List UInt8} {part part' : Part}
    {p p' : Parsing} (h : useField context field value part p = .ok (part', p')) :
    p'.formContent = p.formContent := by
  unfold useField at h
  split at h
  · split at h
    · cases h
    · split at h
      · obtain ⟨r, hr, heq⟩ := Outcome.bind_eq_ok.mp h
        obtain ⟨id, -, hid⟩ := Outcome.bind_eq_ok.mp hr
        cases hid
        cases heq
        rfl
      · cases h
        rfl
  · split at h <;> cases h <;> rfl

theorem readFields_formContent {context : Context} {n : Nat} {part part' : Part} {p p' : Parsing}
    {s s' : EStream UInt8} (h : readFields context n part p s = .ok ((part', p'), s')) :
    p'.formContent = p.formContent := by
  induction n generalizing part p s with
  | zero =>
    cases h
    rfl
  | succ n ih =>
    obtain ⟨field, s₁, -, h⟩ := Prog.bind_ok_iff.mp h
    obtain ⟨field', -, h⟩ := Prog.lift_bind_ok_iff.mp h
    obtain ⟨value, s₂, -, h⟩ := Prog.bind_ok_iff.mp h
    obtain ⟨value', -, h⟩ := Prog.lift_bind_ok_iff.mp h
    obtain ⟨⟨part₁, p₁⟩, huse, h⟩ := Prog.lift_bind_ok_iff.mp h
    exact (ih h).trans (useField_formContent huse)

/-- Not even the copy is filled: a line that is no boundary meets the variables of a new turn. -/
theorem parseLoop_formContent {context : Context} {steps : Nat} {p p' : Parsing}
    {s s' : EStream UInt8} (h : parseLoop context steps p s = .ok (p', s')) :
    p'.formContent = p.formContent := by
  induction steps generalizing p s with
  | zero => cases h
  | succ steps ih =>
    obtain ⟨line, s₁, -, h⟩ := Prog.bind_ok_iff.mp h
    obtain ⟨boundary, -, h⟩ := Prog.lift_bind_ok_iff.mp h
    cases boundary with
    | false =>
      obtain ⟨p₁, hline, -⟩ := Prog.lift_bind_ok_iff.mp h
      simp [useLine, Part.initial] at hline
    | true =>
      obtain ⟨last, -, h⟩ := Prog.lift_bind_ok_iff.mp h
      cases last with
      | true =>
        cases h
        rfl
      | false =>
        obtain ⟨_, s₂, -, h⟩ := Prog.bind_ok_iff.mp h
        obtain ⟨⟨part, p₂⟩, s₃, hfields, h⟩ := Prog.bind_ok_iff.mp h
        have hp₂ := readFields_formContent hfields
        simp only at h
        split at h
        · obtain ⟨_, s₄, -, h⟩ := Prog.bind_ok_iff.mp h
          exact (ih h).trans hp₂
        · cases h

/-- A form is never handed to the caller: there is no well-formed body, in no stream, for which
the caller's map is filled, nor is the copy of it that the parse works on. -/
theorem not_fills (context : Context) (steps : Nat) {form : Form} (h : form.WellFormed)
    (s : EStream UInt8) : ¬ Fills context steps form s ∧
      ∀ p s', parseLoop context steps ⟨[], ∅, true, 0, []⟩ s = .ok (p, s') →
        p.formContent ≠ form.content := by
  constructor
  · rintro ⟨files, formContent, writes, s', hparse, hcontent⟩
    have hempty := formContent_parse hparse
    exact content_ne_empty h.fields (hcontent.symm.trans hempty)
  · intro p s' hparse hcontent
    have hempty := parseLoop_formContent hparse
    exact content_ne_empty h.fields (hcontent.symm.trans hempty)

def sampleForm : Form := ⟨bytes "B".toList, [⟨bytes "a".toList, [], bytes "x".toList⟩]⟩

def sampleContext : Context := ⟨bytes "/".toList, fun _ => .ok []⟩

theorem sampleForm_wellFormed : sampleForm.WellFormed where
  fields := by simp [sampleForm]
  names := by decide
  boundary := by decide
  name := by decide
  header := by decide
  content := by decide

theorem not_fills_sample : ¬ Fills sampleContext 10 sampleForm (EStream.ofBuffer sampleForm.text) :=
  (not_fills sampleContext 10 sampleForm_wellFormed _).1

theorem form_lost : ¬ ∀ (context : Context) (form : Form), form.WellFormed →
    ∃ steps, Fills context steps form (EStream.ofBuffer form.text) := by
  intro hall
  obtain ⟨steps, files, formContent, writes, s', hparse, hcontent⟩ :=
    hall sampleContext sampleForm sampleForm_wellFormed
  have hempty := formContent_parse hparse
  exact content_ne_empty (by simp [sampleForm]) (hcontent.symm.trans hempty)

end Form
end FormData
end WylesLibs.Parser.Multipart
