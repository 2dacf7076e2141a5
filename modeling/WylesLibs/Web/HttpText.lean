import WylesLibs.Json.Layout
import WylesLibs.Library.Delimited
import WylesLibs.Web.HttpTypes

/-! The texts of requests and responses, and what is made of them. -/
namespace WylesLibs.Http
open Library WylesLibs.Stream Datastructures WylesLibs.Parser
variable {D : Type}

/-! The head of a request. -/

structure RequestHead where
  method : List UInt8
  path : List UInt8
  version : List UInt8
  fields : List (List UInt8 × List (List UInt8))

namespace RequestHead

def crlf : List UInt8 := [Byte.carriageReturn, Byte.newline]

def fieldText (f : List UInt8 × List (List UInt8)) : List UInt8 :=
  f.1 ++ [Byte.colon, Byte.space] ++ [Byte.comma, Byte.space].intercalate f.2 ++ crlf

def text (head : RequestHead) : List UInt8 :=
  head.method ++ Byte.space :: (head.path ++ [Byte.space] ++ head.version ++ crlf ++
    head.fields.flatMap fieldText ++ crlf)

/-- A part of the head that none of the given bytes interrupts, nor a line end. -/
def Free (delimiters part : List UInt8) : Prop :=
  part ≠ [] ∧ ∀ c ∈ part, c ∉ delimiters ∧ c ≠ Byte.carriageReturn ∧ c ≠ Byte.newline

instance (delimiters part : List UInt8) : Decidable (Free delimiters part) :=
  inferInstanceAs (Decidable (_ ∧ _))

structure WellFormed (head : RequestHead) : Prop where
  method : Free [Byte.space] head.method
  path : Free [Byte.space, Byte.question] head.path
  version : Free [] head.version
  fields : head.fields.length ≤ 63
  name : ∀ f ∈ head.fields, Free [Byte.colon] f.1
  values : ∀ f ∈ head.fields, f.2 ≠ [] ∧ ∀ v ∈ f.2, Free [Byte.comma] v

def withoutBlanks (part : List UInt8) : List UInt8 := part.filter (· ∉ [Byte.tab, Byte.space])

def key (name : List UInt8) : List UInt8 := (withoutBlanks name).map lowerCase

def value (key v : List UInt8) : List UInt8 :=
  if key ∈ fieldValuesToLowerCase then (withoutBlanks v).map lowerCase else withoutBlanks v

/-- The values written for a lower-cased name. -/
def valuesOf (head : RequestHead) (k : List UInt8) : List (List UInt8) :=
  (head.fields.filter fun f => key f.1 = k).flatMap fun f => f.2.map (value k)

/-- The request has exactly what the head says. -/
structure Describes (head : RequestHead) (request : HttpRequest D) : Prop where
  method : request.method = head.method
  path : request.url.path = head.path
  version : request.version = head.version
  fields : ∀ k, arrayAt request.fields k = head.valuesOf k

/-- A stream that holds the head, and behind it whatever is sent, gives a request with what the
head says. -/
def ReadBack [DoubleArith D] (context : Multipart.Context) (steps : Nat) (head : RequestHead)
    (s : EStream UInt8) : Prop :=
  ∃ (request : HttpRequest D) (s' : EStream UInt8),
    HttpRequest.parse context steps s = .ok (request, s') ∧ head.Describes request

end RequestHead

theorem substrBack_one (l : List UInt8) : substrBack l 1 = l.dropLast := by
  cases l with
  | nil => rfl
  | cons c l => simp [substrBack, List.dropLast_eq_take]

theorem readUntil_inv {s s' : EStream UInt8} {l untilEls data : List UInt8} (hs : Holds s l)
    (h : readUntil untilEls s = .ok (data, s')) : ∃ pre u rest, l = pre ++ u :: rest ∧
      (∀ c ∈ pre, c ∉ untilEls) ∧ u ∈ untilEls ∧ data = pre ++ [u] ∧ Holds s' rest := by
  have hrel := holds_sim.read untilEls (none : Option (NullTask UInt8)) true s l hs
  rw [readUntil] at h
  rw [h] at hrel
  obtain ⟨rest, hread, hs'⟩ := hrel.to_ok
  obtain ⟨pre, u, rfl, hpre, hu, rfl⟩ := actsAs_none.read_inv hread
  exact ⟨pre, u, rest, rfl, hpre, hu, by simp, hs'⟩

/-- What stands in the first line is not changed by what is read behind it. -/
structure HttpRequest.SameLine (r r' : HttpRequest D) : Prop where
  method : r'.method = r.method
  url : r'.url = r.url
  backwardsPath : r'.backwardsPath = r.backwardsPath
  version : r'.version = r.version

section
variable {context : Multipart.Context} {steps contentLength : Nat} {r r' : HttpRequest D}
  {contentType : List UInt8} {s s' : EStream UInt8}

theorem readAll_sameLine (h : r.readAll contentLength s = .ok (r', s')) : r.SameLine r' := by
  obtain ⟨content, s₁, -, h⟩ := Prog.bind_ok_iff.mp h
  cases h
  exact ⟨rfl, rfl, rfl, rfl⟩

variable [DoubleArith D]

theorem readTyped_sameLine (h : r.readTyped context steps contentType s = .ok (r', s')) :
    r.SameLine r' := by
  unfold HttpRequest.readTyped at h
  split at h
  · obtain ⟨value, s₁, -, h⟩ := Prog.bind_ok_iff.mp h
    cases h
    exact ⟨rfl, rfl, rfl, rfl⟩
  split at h
  · obtain ⟨formContent, s₁, -, h⟩ := Prog.bind_ok_iff.mp h
    cases h
    exact ⟨rfl, rfl, rfl, rfl⟩
  split at h
  · obtain ⟨form, s₁, -, h⟩ := Prog.bind_ok_iff.mp h
    cases h
    exact ⟨rfl, rfl, rfl, rfl⟩
  split at h
  · cases h
    exact ⟨rfl, rfl, rfl, rfl⟩
  · obtain ⟨content, s₁, -, h⟩ := Prog.bind_ok_iff.mp h
    cases h
    exact ⟨rfl, rfl, rfl, rfl⟩

theorem readContent_sameLine (h : r.readContent context steps contentLength s = .ok (r', s')) :
    r.SameLine r' := by
  unfold HttpRequest.readContent at h
  split at h
  · cases htypes : arrayAt r.fields contentTypeKey with
    | nil =>
      simp only [htypes] at h
      have hsame := readAll_sameLine h
      exact ⟨hsame.method, hsame.url, hsame.backwardsPath, hsame.version⟩
    | cons contentType types =>
      simp only [htypes] at h
      split at h
      · have hsame := readAll_sameLine h
        exact ⟨hsame.method, hsame.url, hsame.backwardsPath, hsame.version⟩
      · have hsame := readTyped_sameLine h
        exact ⟨hsame.method, hsame.url, hsame.backwardsPath, hsame.version⟩
  · exact readAll_sameLine h

/-- The method is what is read first, without its last two bytes; no path is stored backwards. -/
theorem parse_inv (h : HttpRequest.parse context steps s = .ok (r, s')) :
    ∃ data removed s₁, readUntil [Byte.space] s = .ok (data, s₁) ∧
      removeBack data = .ok removed ∧ r.method = substrBack removed 1 ∧ r.backwardsPath = [] := by
  obtain ⟨data, s₁, hread, h⟩ := Prog.bind_ok_iff.mp h
  obtain ⟨removed, hremove, h⟩ := Prog.lift_bind_ok_iff.mp h
  obtain ⟨url, s₂, -, h⟩ := Prog.bind_ok_iff.mp h
  obtain ⟨line, s₃, -, h⟩ := Prog.bind_ok_iff.mp h
  obtain ⟨version, -, h⟩ := Prog.lift_bind_ok_iff.mp h
  obtain ⟨⟨left, fields, contentLength⟩, s₄, -, h⟩ := Prog.bind_ok_iff.mp h
  simp only at h
  split at h
  · cases h
  · have hsame := readContent_sameLine h
    exact ⟨data, removed, s₁, hread, hremove, hsame.method, hsame.backwardsPath⟩

/-- The last byte of the method is cut off. -/
theorem parse_method {method rest : List UInt8} (hs : Holds s (method ++ Byte.space :: rest))
    (hfree : Byte.space ∉ method) (h : HttpRequest.parse context steps s = .ok (r, s')) :
    r.method = method.dropLast := by
  obtain ⟨data, removed, s₁, hread, hremove, hmethod, -⟩ := parse_inv h
  obtain ⟨pre, u, rest', hl, hpre, hu, rfl, -⟩ := readUntil_inv hs hread
  obtain rfl : u = Byte.space := by simpa using hu
  have hpre' : ∀ c ∈ pre, c ≠ Byte.space := fun c hc hspace => hpre c hc (by simp [hspace])
  have hmethod' : ∀ c ∈ method, c ≠ Byte.space := fun c hc hspace => hfree (hspace ▸ hc)
  obtain ⟨hpre, -⟩ : method = pre ∧ rest = rest' :=
    delimited_inj hmethod' hpre' (by simp) (by simp) hl
  have hremoved : removed = pre := by simpa [removeBack] using hremove.symm
  calc r.method = substrBack removed 1 := hmethod
    _ = method.dropLast := by rw [hremoved, ← hpre, substrBack_one]

end

namespace RequestHead

/-- No well-formed head is read back, whatever follows it: the method loses its last byte. -/
theorem not_readBack [DoubleArith D] (context : Multipart.Context) (steps : Nat)
    {head : RequestHead} {rest : List UInt8} {s : EStream UInt8} (h : head.WellFormed)
    (hs : Holds s (head.text ++ rest)) : ¬ head.ReadBack (D := D) context steps s := by
  intro hread
  obtain ⟨request, s', hparse, hdescribes⟩ := hread
  have hfree : Byte.space ∉ head.method := fun hspace => (h.method.2 _ hspace).1 (by simp)
  have hs' : Holds s (head.method ++ Byte.space :: (head.path ++ [Byte.space] ++ head.version ++
      crlf ++ head.fields.flatMap fieldText ++ crlf ++ rest)) := by
    simpa [text] using hs
  have hcut : head.method.dropLast = head.method :=
    (parse_method hs' hfree hparse).symm.trans hdescribes.method
  have hlength := congrArg List.length hcut
  have hpos := List.length_pos_of_ne_nil h.method.1
  simp only [List.length_dropLast] at hlength
  omega

def sampleHead : RequestHead where
  method := bytes ['P', 'O', 'S', 'T']
  path := bytes ['/', 'a']
  version := bytes ['H', 'T', 'T', 'P', '/', '1', '.', '1']
  fields := [(bytes "Content-Length".toList, [bytes ['1']])]

def sampleContext : Multipart.Context := ⟨bytes ['/'], fun _ => .ok []⟩

set_option maxRecDepth 4096 in
theorem sampleHead_wellFormed : sampleHead.WellFormed where
  method := by decide
  path := by decide
  version := by decide
  fields := by decide
  name := by decide
  values := by decide

theorem not_readBack_sample : ¬ sampleHead.ReadBack (D := Rat) sampleContext 10
    (EStream.ofBuffer (sampleHead.text ++ bytes ['x'])) :=
  not_readBack sampleContext 10 sampleHead_wellFormed (holds_ofBuffer _)

theorem method_cut : ¬ ∀ (context : Multipart.Context) (head : RequestHead) (rest : List UInt8),
    head.WellFormed → ∃ steps, head.ReadBack (D := Rat) context steps
      (EStream.ofBuffer (head.text ++ rest)) := by
  intro hall
  obtain ⟨steps, request, s', hparse, hdescribes⟩ :=
    hall sampleContext sampleHead (bytes ['x']) sampleHead_wellFormed
  have hcut := parse_method (holds_ofBuffer (sampleHead.method ++ Byte.space :: _)) (by decide) hparse
  have hmethod : request.method = bytes ['P', 'O', 'S'] := hcut
  have hsame : bytes ['P', 'O', 'S'] = sampleHead.method := hmethod.symm.trans hdescribes.method
  exact absurd hsame (by decide)

end RequestHead

/-! Responses. -/

namespace HttpResponse

def Free (part : List UInt8) : Prop :=
  RequestHead.Free [Byte.colon, Byte.comma, Byte.space, Byte.tab] part

instance (part : List UInt8) : Decidable (Free part) :=
  inferInstanceAs (Decidable (RequestHead.Free _ _))

structure WellFormed (r : HttpResponse) : Prop where
  version : Free r.version
  statusCode : Free r.statusCode
  name : ∀ f ∈ r.fields.entries, Free f.1 ∧ f.1.map lowerCase = f.1
  value : ∀ f ∈ r.fields.entries, Free f.2
  cookies : ∀ c ∈ r.cookies, Free c
  count : r.fields.entries.length + r.cookies.length ≤ 60

/-- What was read has all that was written. -/
structure Same (r r' : HttpResponse) : Prop where
  version : r'.version = r.version
  statusCode : r'.statusCode = r.statusCode
  fields : ∀ k v, r.fields.lookup k = some v → r'.fields.lookup k = some v
  cookies : r'.cookies = r.cookies
  content : r'.content = r.content
  contentLength : r'.contentLength = some r.content.length

/-- The text of the response is read as the response. -/
def Decoded (steps : Nat) (r : HttpResponse) : Prop :=
  ∃ (text : List UInt8) (r' : HttpResponse) (s : EStream UInt8), r.toString = .ok text ∧
    parse steps (EStream.ofBuffer text) = .ok (r', s) ∧ r.Same r'

/-- Whatever stands in the stream, no status code comes out of it. -/
theorem parse_statusCode {steps : Nat} {s s' : EStream UInt8} {r : HttpResponse}
    (h : parse steps s = .ok (r, s')) : r.statusCode = [] := by
  obtain ⟨version, s₁, -, h⟩ := Prog.bind_ok_iff.mp h
  obtain ⟨version, -, h⟩ := Prog.lift_bind_ok_iff.mp h
  obtain ⟨code, s₂, -, h⟩ := Prog.bind_ok_iff.mp h
  obtain ⟨last, -, h⟩ := Prog.lift_bind_ok_iff.mp h
  obtain ⟨_, s₃, -, h⟩ := Prog.bind_ok_iff.mp h
  obtain ⟨_, -, h⟩ := Prog.lift_bind_ok_iff.mp h
  obtain ⟨⟨left, filled⟩, s₄, -, h⟩ := Prog.bind_ok_iff.mp h
  obtain ⟨content, s₅, -, h⟩ := Prog.bind_ok_iff.mp h
  split at h
  · cases h
  · cases h
    rfl

/-- No response that has a status code is read back. -/
theorem not_decoded (steps : Nat) {r : HttpResponse} (h : r.WellFormed) :
    ¬ r.Decoded steps := by
  intro hread
  obtain ⟨text, r', s, -, hparse, hsame⟩ := hread
  have hcode : r.statusCode = [] := hsame.statusCode.symm.trans (parse_statusCode hparse)
  exact h.statusCode.1 hcode

def sampleResponse : HttpResponse where
  statusCode := bytes ['2', '0', '0']
  version := bytes ['H', 'T', 'T', 'P', '/', '1', '.', '1']
  fields := (∅ : KeyValue.Pairs).insert (bytes ['a', 'g', 'e']) (bytes ['7'])
  cookies := [bytes ['k', '=', 'v']]
  content := bytes ['x']
  contentLength := none

set_option maxRecDepth 4096 in
theorem sampleResponse_wellFormed : sampleResponse.WellFormed where
  version := by decide
  statusCode := by decide
  name := by decide
  value := by decide
  cookies := by decide
  count := by decide

theorem not_decoded_sample : ¬ sampleResponse.Decoded 10 :=
  not_decoded 10 sampleResponse_wellFormed

theorem statusCode_lost : ¬ ∀ r : HttpResponse, r.WellFormed → ∃ steps, r.Decoded steps := by
  intro hall
  obtain ⟨steps, text, r', s, -, hparse, hsame⟩ := hall sampleResponse sampleResponse_wellFormed
  have hcode : sampleResponse.statusCode = [] :=
    hsame.statusCode.symm.trans (parse_statusCode hparse)
  exact absurd hcode (by decide)

end HttpResponse
end WylesLibs.Http
