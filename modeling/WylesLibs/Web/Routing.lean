import WylesLibs.Web.HttpText

/-! `web/http/http_connection_etask`: the dispatcher, and the items that it looks through. -/
namespace WylesLibs.Http
open Library WylesLibs.Stream Datastructures WylesLibs.Parser
variable {D P : Type}

/-- The first character of a registered content type, and the value that was sent for one. -/
def front (types : List (List UInt8)) : Outcome (List UInt8) :=
  match types with
  | [] => .thrown "No element to return."
  | type :: _ => .ok type

@[simp] theorem front_cons (type : List UInt8) (types : List (List UInt8)) :
    front (type :: types) = .ok type := rfl

/-- `*this == x`. That looking for the content type puts it into the maps is not seen: both are
copies, or have it. -/
def HttpRequest.equals (this x : HttpRequest D) : Outcome Bool :=
  let thisStringHash := this.backwardsPath ++ this.method
  let xStringHash := x.backwardsPath ++ x.method
  let thisContentType := arrayAt this.fields contentTypeKey
  if 0 < thisContentType.length then
    (front thisContentType).bind fun thisFront =>
      (front (arrayAt x.fields contentTypeKey)).bind fun xFront =>
        .ok (thisStringHash ++ thisFront == xStringHash ++ xFront)
  else .ok (thisStringHash == xStringHash)

/-- Filters are called around the processor, and are left out; `processor` may be null. -/
structure HttpProcessorItem (D P : Type) where
  request : HttpRequest D
  processor : Option P

namespace HttpProcessorItem

def equals (this x : HttpProcessorItem D P) : Outcome Bool := this.request.equals x.request

def Unequal (this x : HttpProcessorItem D P) : Prop := this.equals x = .ok false

/-! The calls of `SharedArray<HttpProcessorItem>`. -/

def arrayFind (el : HttpProcessorItem D P) : Nat → List (HttpProcessorItem D P) → Outcome Int
  | _, [] => .ok (-1)
  | i, item :: items =>
    (item.equals el).bind fun equal => if equal then .ok i else arrayFind el (i + 1) items

def contains (items : List (HttpProcessorItem D P)) (el : HttpProcessorItem D P) : Outcome Bool :=
  (arrayFind el 0 items).bind fun i => .ok (i ≠ -1)

def uniqueAppend (items : List (HttpProcessorItem D P)) (el : HttpProcessorItem D P) :
    Outcome (List (HttpProcessorItem D P)) :=
  (contains items el).bind fun there => .ok (if there then items else items ++ [el])

/-- What `items[el]` refers to. -/
def element (items : List (HttpProcessorItem D P)) (el : HttpProcessorItem D P) :
    Outcome (HttpProcessorItem D P) :=
  (arrayFind el 0 items).bind fun i =>
    if i = -1 then .ok el
    else
      match items[i.toNat]? with
      | none => .undef
      | some item => .ok item

end HttpProcessorItem

/-- The item whose processor the dispatcher calls; without one a new response is made. -/
def requestDispatcher (requestMap : List (HttpProcessorItem D P)) (request : HttpRequest D) :
    Outcome (Option (HttpProcessorItem D P)) :=
  let testItem : HttpProcessorItem D P := ⟨request, none⟩
  (HttpProcessorItem.contains requestMap testItem).bind fun there =>
    if there then
      (HttpProcessorItem.element requestMap testItem).bind fun actualItem => .ok (some actualItem)
    else .ok none

/-! Registration. -/

/-- What the macro `HTTP` is given. -/
structure Handler (P : Type) where
  method : List UInt8
  path : List UInt8
  contentType : List UInt8
  processor : P

namespace Handler

def item (h : Handler P) : HttpProcessorItem D P :=
  ⟨HttpRequest.ofPath h.path h.method h.contentType, some h.processor⟩

/-- The initialisers that the macro makes, in the order in which they run. -/
def register : List (HttpProcessorItem D P) → List (Handler P) →
    Outcome (List (HttpProcessorItem D P))
  | requestMap, [] => .ok requestMap
  | requestMap, h :: hs =>
    (HttpProcessorItem.uniqueAppend requestMap h.item).bind fun requestMap =>
      register requestMap hs

end Handler

/-! Looking through the items. -/

namespace HttpProcessorItem
variable {el item : HttpProcessorItem D P} {items before after : List (HttpProcessorItem D P)}

theorem arrayFind_append (hbefore : ∀ b ∈ before, b.equals el = .ok false) (i : Nat) :
    arrayFind el i (before ++ after) = arrayFind el (i + before.length) after := by
  induction before generalizing i with
  | nil => rfl
  | cons b before ih =>
    have hb : b.equals el = .ok false := hbefore b (by simp)
    simp only [List.cons_append, arrayFind, hb, Outcome.bind_ok, Bool.false_eq_true, if_false,
      List.length_cons]
    rw [ih (fun c hc => hbefore c (by simp [hc]))]
    congr 1
    omega

theorem arrayFind_found (hbefore : ∀ b ∈ before, b.equals el = .ok false)
    (hitem : item.equals el = .ok true) (i : Nat) :
    arrayFind el i (before ++ item :: after) = .ok (i + before.length : Nat) := by
  rw [arrayFind_append hbefore]
  simp [arrayFind, hitem]

theorem arrayFind_absent (h : ∀ item ∈ items, item.equals el = .ok false) (i : Nat) :
    arrayFind el i items = .ok (-1) := by
  have happend : arrayFind el i (items ++ []) = arrayFind el (i + items.length) [] :=
    arrayFind_append h i
  simpa [arrayFind] using happend

/-- What a search that ends has met. -/
theorem arrayFind_inv {i : Nat} {k : Int} (h : arrayFind el i items = .ok k) :
    (∀ item ∈ items, item.equals el = .ok false) ∨ ∃ before item after,
      items = before ++ item :: after ∧ (∀ b ∈ before, b.equals el = .ok false) ∧
      item.equals el = .ok true := by
  induction items generalizing i with
  | nil => simp
  | cons item items ih =>
    obtain ⟨equal, hequal, h⟩ := Outcome.bind_eq_ok.mp h
    cases equal with
    | true => exact .inr ⟨[], item, items, rfl, by simp, hequal⟩
    | false =>
      obtain hall | ⟨before, found, after, rfl, hbefore, hfound⟩ := ih h
      · left
        intro other hother
        obtain rfl | hother := List.mem_cons.mp hother
        · exact hequal
        · exact hall other hother
      · refine .inr ⟨item :: before, found, after, rfl, ?_, hfound⟩
        intro other hother
        obtain rfl | hother := List.mem_cons.mp hother
        · exact hequal
        · exact hbefore other hother

theorem contains_found (hbefore : ∀ b ∈ before, b.equals el = .ok false)
    (hitem : item.equals el = .ok true) : contains (before ++ item :: after) el = .ok true := by
  simp [contains, arrayFind_found hbefore hitem]

theorem contains_absent (h : ∀ item ∈ items, item.equals el = .ok false) :
    contains items el = .ok false := by
  simp [contains, arrayFind_absent h]

theorem element_found (hbefore : ∀ b ∈ before, b.equals el = .ok false)
    (hitem : item.equals el = .ok true) : element (before ++ item :: after) el = .ok item := by
  have hne : ((before.length : Nat) : Int) ≠ -1 := by omega
  simp [element, arrayFind_found hbefore hitem, hne]

/-- A new item has compared unequal to all that are there. -/
theorem uniqueAppend_inv {items' : List (HttpProcessorItem D P)}
    (h : uniqueAppend items el = .ok items') :
    items' = items ∨ items' = items ++ [el] ∧ ∀ item ∈ items, item.equals el = .ok false := by
  obtain ⟨there, hthere, h⟩ := Outcome.bind_eq_ok.mp h
  cases h
  obtain ⟨k, hfind, -⟩ := Outcome.bind_eq_ok.mp hthere
  obtain hall | ⟨before, item, after, rfl, hbefore, hitem⟩ := arrayFind_inv hfind
  · obtain rfl : false = there := by simpa [contains_absent hall] using hthere
    exact .inr ⟨rfl, hall⟩
  · obtain rfl : true = there := by simpa [contains_found hbefore hitem] using hthere
    exact .inl rfl

end HttpProcessorItem

/-- The dispatcher calls the first item that compares equal, if no comparison before it throws. -/
theorem requestDispatcher_iff {requestMap : List (HttpProcessorItem D P)}
    {request : HttpRequest D} {item : HttpProcessorItem D P} :
    requestDispatcher requestMap request = .ok (some item) ↔ ∃ before after,
      requestMap = before ++ item :: after ∧
      (∀ b ∈ before, b.request.equals request = .ok false) ∧
      item.request.equals request = .ok true := by
  constructor
  · intro h
    obtain ⟨there, hthere, h⟩ := Outcome.bind_eq_ok.mp h
    obtain ⟨k, hfind, -⟩ := Outcome.bind_eq_ok.mp hthere
    obtain hall | ⟨before, found, after, rfl, hbefore, hfound⟩ :=
      HttpProcessorItem.arrayFind_inv hfind
    · obtain rfl : false = there := by
        simpa [HttpProcessorItem.contains_absent hall] using hthere
      cases h
    · obtain rfl : true = there := by
        simpa [HttpProcessorItem.contains_found hbefore hfound] using hthere
      obtain rfl : found = item := by
        simpa [HttpProcessorItem.element_found hbefore hfound] using h
      exact ⟨before, after, rfl, hbefore, hfound⟩
  · intro h
    obtain ⟨before, after, rfl, hbefore, hitem⟩ := h
    have hbefore' : ∀ b ∈ before, b.equals ⟨request, none⟩ = .ok false := hbefore
    have hitem' : item.equals ⟨request, none⟩ = .ok true := hitem
    simp [requestDispatcher, HttpProcessorItem.contains_found hbefore' hitem',
      HttpProcessorItem.element_found hbefore' hitem']

/-! Handlers, and the requests that they are for. -/

/-- The value of the Content-Type of a request, if it has one. -/
def HttpRequest.contentType (x : HttpRequest D) : Option (List UInt8) :=
  (arrayAt x.fields contentTypeKey).head?

@[simp] theorem arrayAt_insert (fields : Fields) (name : List UInt8) (types : List (List UInt8)) :
    arrayAt (fields.insert name types) name = types := by
  simp [arrayAt]

namespace Handler
variable {h h' : Handler P} {x : HttpRequest D}

def Matches (h : Handler P) (x : HttpRequest D) : Prop :=
  h.method = x.method ∧ h.path = x.url.path ∧
    (h.contentType = [] ∨ x.contentType = some h.contentType)

/-- What an item is compared by, without a content type. -/
def key (h : Handler P) : List UInt8 := h.path.reverse ++ h.method

/-- The comparison with a request whose path is not stored backwards. -/
def TakenFor (h : Handler P) (x : HttpRequest D) : Prop :=
  if h.contentType = [] then h.key = x.method
  else ∃ c, x.contentType = some c ∧ h.key ++ h.contentType.take 1 = x.method ++ c

/-- The reversed path makes no difference where it stands. -/
def Inert (h : Handler P) : Prop :=
  if h.contentType = [] then h.path = []
  else h.key ++ h.contentType.take 1 = h.method ++ h.contentType

theorem contentType_item :
    arrayAt (h.item (D := D)).request.fields contentTypeKey = HttpRequest.ofString h.contentType := by
  simp [item, HttpRequest.ofPath]

theorem item_injective : Function.Injective (item : Handler P → HttpProcessorItem D P) := by
  intro h h' heq
  have htypes : HttpRequest.ofString h.contentType = HttpRequest.ofString h'.contentType := by
    rw [← contentType_item (D := D), heq, contentType_item]
  have htype : h.contentType = h'.contentType :=
    List.map_injective_iff.mpr (fun c c' hc => (List.cons.inj hc).1) htypes
  have hmethod : h.method = h'.method := congrArg (fun i => i.request.method) heq
  have hpath : h.path = h'.path := congrArg (fun i => i.request.url.path) heq
  have hprocessor : h.processor = h'.processor :=
    Option.some.inj (congrArg (fun i => i.processor) heq)
  cases h
  cases h'
  simp_all

theorem equals_untyped (htype : h.contentType = []) :
    h.item.request.equals x = .ok (h.key == x.backwardsPath ++ x.method) := by
  simp [HttpRequest.equals, htype, HttpRequest.ofString, item, HttpRequest.ofPath, key]

theorem equals_typed (htype : h.contentType ≠ []) :
    h.item.request.equals x = (front (arrayAt x.fields contentTypeKey)).bind fun c =>
      .ok (h.key ++ h.contentType.take 1 == x.backwardsPath ++ x.method ++ c) := by
  cases hc : h.contentType with
  | nil => exact absurd hc htype
  | cons c cs =>
    simp [HttpRequest.equals, hc, HttpRequest.ofString, item, HttpRequest.ofPath, key]

/-- Two registered handlers of which the second was not taken for the first. -/
def Apart (h h' : Handler P) : Prop :=
  if h.contentType = [] then h.key ≠ h'.key
  else h'.contentType ≠ [] ∧
    h.key ++ h.contentType.take 1 ≠ h'.key ++ h'.contentType.take 1

theorem apart_of_equals (hne : (h.item (D := D)).equals h'.item = .ok false) : h.Apart h' := by
  have hkey : (h'.item (D := D)).request.backwardsPath ++ (h'.item (D := D)).request.method =
      h'.key := rfl
  by_cases htype : h.contentType = []
  · have hequal : Outcome.ok (h.key == h'.key) = .ok false := by
      rw [← hkey, ← equals_untyped htype]
      exact hne
    have hkeys : h.key ≠ h'.key := by simpa using hequal
    simpa [Apart, htype] using hkeys
  · have hequal := (equals_typed htype).symm.trans hne
    rw [contentType_item] at hequal
    cases htype' : h'.contentType with
    | nil =>
      rw [htype'] at hequal
      cases hequal
    | cons c cs =>
      simp only [htype', HttpRequest.ofString, List.map_cons, front_cons, Outcome.bind_ok, hkey]
        at hequal
      have hkeys : h.key ++ h.contentType.take 1 ≠ h'.key ++ [c] := by simpa using hequal
      simpa [Apart, htype, htype'] using hkeys

theorem takenFor_iff (hx : x.backwardsPath = []) :
    h.TakenFor x ↔ h.item.request.equals x = .ok true := by
  by_cases htype : h.contentType = []
  · simp [TakenFor, equals_untyped htype, htype, hx]
  · rw [equals_typed htype, hx]
    cases htypes : arrayAt x.fields contentTypeKey with
    | nil => simp [TakenFor, htype, HttpRequest.contentType, htypes, front]
    | cons c cs => simp [TakenFor, htype, HttpRequest.contentType, htypes]

/-- Where one of two handlers that are apart is taken for a request, the one before it is passed
over without a throw. -/
theorem Apart.passed (hx : x.backwardsPath = []) (happart : h.Apart h') (htaken : h'.TakenFor x)
    (huntyped : h'.contentType ≠ [] → h.contentType = [] → ¬ h.TakenFor x) :
    h.item.request.equals x = .ok false := by
  by_cases htype : h.contentType = []
  · have hne : h.key ≠ x.method := by
      by_cases htype' : h'.contentType = []
      · have hkey : h'.key = x.method := by simpa [TakenFor, htype'] using htaken
        rw [← hkey]
        simpa [Apart, htype] using happart
      · simpa [TakenFor, htype] using huntyped htype' htype
    rw [equals_untyped htype, hx]
    simpa using hne
  · obtain ⟨htype', hne⟩ : h'.contentType ≠ [] ∧
        h.key ++ h.contentType.take 1 ≠ h'.key ++ h'.contentType.take 1 := by
      simpa [Apart, htype] using happart
    obtain ⟨c, hc, hkey⟩ : ∃ c, x.contentType = some c ∧
        h'.key ++ h'.contentType.take 1 = x.method ++ c := by
      simpa [TakenFor, htype'] using htaken
    rw [hkey] at hne
    rw [equals_typed htype, hx]
    cases htypes : arrayAt x.fields contentTypeKey with
    | nil => simp [HttpRequest.contentType, htypes] at hc
    | cons a as =>
      obtain rfl : a = c := by simpa [HttpRequest.contentType, htypes] using hc
      simpa using hne

/-- A registration adds items of the handlers only, each unequal to those before it. -/
theorem register_inv {items requestMap : List (HttpProcessorItem D P)} {hs : List (Handler P)}
    (hregister : register items hs = .ok requestMap)
    (hitems : items.Pairwise HttpProcessorItem.Unequal) :
    requestMap.Pairwise HttpProcessorItem.Unequal ∧
      ∀ a ∈ requestMap, a ∈ items ∨ ∃ h ∈ hs, a = h.item := by
  induction hs generalizing items with
  | nil =>
    cases hregister
    exact ⟨hitems, fun a ha => .inl ha⟩
  | cons h hs ih =>
    obtain ⟨items', happend, hrest⟩ := Outcome.bind_eq_ok.mp hregister
    obtain rfl | ⟨rfl, hnew⟩ := HttpProcessorItem.uniqueAppend_inv happend
    · obtain ⟨hpairwise, hmem⟩ := ih hrest hitems
      refine ⟨hpairwise, fun a ha => ?_⟩
      obtain ha | ⟨h', hh', rfl⟩ := hmem a ha
      · exact .inl ha
      · exact .inr ⟨h', by simp [hh'], rfl⟩
    · have hitems' : (items ++ [h.item]).Pairwise HttpProcessorItem.Unequal :=
        List.pairwise_append.mpr ⟨hitems, by simp, by simpa [HttpProcessorItem.Unequal] using hnew⟩
      obtain ⟨hpairwise, hmem⟩ := ih hrest hitems'
      refine ⟨hpairwise, fun a ha => ?_⟩
      obtain ha | ⟨h', hh', rfl⟩ := hmem a ha
      · obtain ha | ha := List.mem_append.mp ha
        · exact .inl ha
        · exact .inr ⟨h, by simp, by simpa using ha⟩
      · exact .inr ⟨h', by simp [hh'], rfl⟩

/-- What registration makes of the handlers. -/
structure Registered (hs : List (Handler P)) (requestMap : List (HttpProcessorItem D P)) :
    Prop where
  item : ∀ a ∈ requestMap, ∃ h ∈ hs, a = h.item
  apart : requestMap.Pairwise HttpProcessorItem.Unequal

theorem registered_of_register {hs : List (Handler P)}
    {requestMap : List (HttpProcessorItem D P)} (h : register [] hs = .ok requestMap) :
    Registered hs requestMap := by
  obtain ⟨hpairwise, hmem⟩ := register_inv h .nil
  exact ⟨fun a ha => by simpa using hmem a ha, hpairwise⟩

section
variable {hs : List (Handler P)} {requestMap : List (HttpProcessorItem D P)}

/-- A handler is called if it is taken for the request, those without a content type first. -/
theorem called_iff (hmap : Registered hs requestMap) (hx : x.backwardsPath = []) :
    requestDispatcher requestMap x = .ok (some h.item) ↔ h.item ∈ requestMap ∧ h.TakenFor x ∧
      (h.contentType ≠ [] → ∀ h' : Handler P, h'.item ∈ requestMap → h'.contentType = [] →
        ¬ h'.TakenFor x) := by
  rw [requestDispatcher_iff]
  constructor
  · intro hcalled
    obtain ⟨before, after, rfl, hbefore, hequal⟩ := hcalled
    refine ⟨by simp, (takenFor_iff hx).mpr hequal, fun htype h' hmem htype' htaken => ?_⟩
    obtain hmem | hmem := List.mem_append.mp hmem
    · have hequal' := (takenFor_iff hx).mp htaken
      rw [hbefore _ hmem] at hequal'
      cases hequal'
    obtain heq | hmem := List.mem_cons.mp hmem
    · rw [item_injective heq] at htype'
      exact htype htype'
    · have hafter := (List.pairwise_cons.mp (List.pairwise_append.mp hmap.apart).2.1).1
      have happart := apart_of_equals (hafter _ hmem)
      rw [Apart, if_neg htype] at happart
      exact happart.1 htype'
  · intro hcalled
    obtain ⟨hmem, htaken, huntyped⟩ := hcalled
    obtain ⟨before, after, rfl⟩ := List.append_of_mem hmem
    refine ⟨before, after, rfl, fun b hb => ?_, (takenFor_iff hx).mp htaken⟩
    obtain ⟨h', -, rfl⟩ := hmap.item b (by simp [hb])
    have hequals := (List.pairwise_append.mp hmap.apart).2.2 h'.item hb h.item (by simp)
    have happart := apart_of_equals hequals
    exact happart.passed hx htaken fun htype htype' => huntyped htype h' (by simp [hb]) htype'

theorem exists_called (hmap : Registered hs requestMap) (hx : x.backwardsPath = [])
    (hmem : h.item ∈ requestMap) (htaken : h.TakenFor x) :
    ∃ h' ∈ hs, requestDispatcher requestMap x = .ok (some h'.item) := by
  have hcall : ∃ h' : Handler P, h'.item ∈ requestMap ∧
      requestDispatcher requestMap x = .ok (some h'.item) := by
    by_cases huntyped : ∃ h' : Handler P, h'.item ∈ requestMap ∧ h'.contentType = [] ∧
        h'.TakenFor x
    · obtain ⟨h', hmem', htype', htaken'⟩ := huntyped
      exact ⟨h', hmem', (called_iff hmap hx).mpr
        ⟨hmem', htaken', fun htype => absurd htype' htype⟩⟩
    · exact ⟨h, hmem, (called_iff hmap hx).mpr ⟨hmem, htaken, fun _ h' hmem' htype' htaken' =>
        huntyped ⟨h', hmem', htype', htaken'⟩⟩⟩
  obtain ⟨h', hmem', hcall⟩ := hcall
  obtain ⟨h'', hh'', heq⟩ := hmap.item _ hmem'
  exact ⟨h'', hh'', heq ▸ hcall⟩

theorem Matches.takenFor_iff (hmatches : h.Matches x) : h.TakenFor x ↔ h.Inert := by
  obtain ⟨hmethod, -, htyped⟩ := hmatches
  by_cases htype : h.contentType = []
  · simp [TakenFor, Inert, htype, key, ← hmethod]
  · have hvalue : x.contentType = some h.contentType := htyped.resolve_left htype
    simp [TakenFor, Inert, htype, hvalue, ← hmethod]

end

/-- Exactly the handlers that the request is for are called. -/
def Routed (hs : List (Handler P)) (requestMap : List (HttpProcessorItem D P))
    (x : HttpRequest D) : Prop :=
  ∀ h ∈ hs, requestDispatcher requestMap x = .ok (some h.item) ↔ h.Matches x

/-- No handler is for the request, and none in the map is taken for it. -/
def NoneConcerned (hs : List (Handler P)) (requestMap : List (HttpProcessorItem D P))
    (x : HttpRequest D) : Prop :=
  (∀ h ∈ hs, ¬ h.Matches x) ∧ ∀ h : Handler P, h.item ∈ requestMap → ¬ h.TakenFor x

/-- One handler alone is for the request, it is in the map, its path makes no difference, and no
handler that goes before it is taken for the request. -/
def OneConcerned (hs : List (Handler P)) (requestMap : List (HttpProcessorItem D P))
    (x : HttpRequest D) : Prop :=
  ∃ h ∈ hs, h.Matches x ∧ (∀ h' ∈ hs, h'.Matches x → h' = h) ∧ h.item ∈ requestMap ∧ h.Inert ∧
    (h.contentType ≠ [] → ∀ h' : Handler P, h'.item ∈ requestMap → h'.contentType = [] →
      ¬ h'.TakenFor x)

theorem routed_iff [DoubleArith D] {context : Multipart.Context} {steps : Nat}
    {hs : List (Handler P)} {requestMap : List (HttpProcessorItem D P)} {s s' : EStream UInt8}
    {x : HttpRequest D} (hregister : register [] hs = .ok requestMap)
    (hparse : HttpRequest.parse context steps s = .ok (x, s')) :
    Routed hs requestMap x ↔ NoneConcerned hs requestMap x ∨ OneConcerned hs requestMap x := by
  have hmap := registered_of_register hregister
  obtain ⟨-, -, -, -, -, -, hx⟩ := parse_inv hparse
  constructor
  · intro hrouted
    by_cases hmatches : ∃ h ∈ hs, h.Matches x
    · obtain ⟨h, hh, hmatch⟩ := hmatches
      have hcalled := (hrouted h hh).mpr hmatch
      obtain ⟨hmem, htaken, huntyped⟩ := (called_iff hmap hx).mp hcalled
      have hone : ∀ h' ∈ hs, h'.Matches x → h' = h := by
        intro h' hh' hmatch'
        have hcalled' := (hrouted h' hh').mpr hmatch'
        exact item_injective (Option.some.inj (Outcome.ok.inj (hcalled'.symm.trans hcalled)))
      exact .inr ⟨h, hh, hmatch, hone, hmem, hmatch.takenFor_iff.mp htaken, huntyped⟩
    · refine .inl ⟨fun h hh hmatch => hmatches ⟨h, hh, hmatch⟩, fun h hmem htaken => ?_⟩
      obtain ⟨h', hh', hcalled⟩ := exists_called hmap hx hmem htaken
      exact hmatches ⟨h', hh', (hrouted h' hh').mp hcalled⟩
  · intro hcases
    obtain ⟨hnone, huntaken⟩ | ⟨h, hh, hmatch, hone, hmem, hinert, huntyped⟩ := hcases
    · intro h hh
      constructor
      · intro hcalled
        obtain ⟨hmem, htaken, -⟩ := (called_iff hmap hx).mp hcalled
        exact absurd htaken (huntaken h hmem)
      · intro hmatch
        exact absurd hmatch (hnone h hh)
    · have hcalled : requestDispatcher requestMap x = .ok (some h.item) :=
        (called_iff hmap hx).mpr ⟨hmem, hmatch.takenFor_iff.mpr hinert, huntyped⟩
      intro h' hh'
      constructor
      · intro hcalled'
        obtain rfl : h' = h :=
          item_injective (Option.some.inj (Outcome.ok.inj (hcalled'.symm.trans hcalled)))
        exact hmatch
      · intro hmatch'
        obtain rfl := hone h' hh' hmatch'
        exact hcalled

def exampleHandler : Handler Unit where
  method := bytes ['G', 'E', 'T']
  path := bytes ['/', 'e']
  contentType := []
  processor := ()

def exampleText : List UInt8 :=
  bytes ['G', 'E', 'T', 'T', ' ', '/', 'e', ' ', 'H', '\r', '\n',
    'C', 'o', 'n', 't', 'e', 'n', 't', '-', 'L', 'e', 'n', 'g', 't', 'h', ':', '1', '\r', '\n',
    '\r', '\n', 'x']

/-- The request for which the handler is there. -/
theorem exampleText_read : ∃ (x : HttpRequest Rat) (s : EStream UInt8),
    HttpRequest.parse RequestHead.sampleContext 5 (EStream.ofBuffer exampleText) = .ok (x, s) ∧
      exampleHandler.Matches x := by
  have hread : (HttpRequest.parse (D := Rat) RequestHead.sampleContext 5
      (EStream.ofBuffer exampleText)).toOption.map (fun r => (r.1.method, r.1.url.path)) =
        some (exampleHandler.method, exampleHandler.path) := by
    decide +kernel
  cases hparse : HttpRequest.parse (D := Rat) RequestHead.sampleContext 5
      (EStream.ofBuffer exampleText) with
  | ok r =>
    rw [hparse] at hread
    obtain ⟨hmethod, hpath⟩ := Prod.mk.inj (Option.some.inj hread)
    exact ⟨r.1, r.2, rfl, hmethod.symm, hpath.symm, .inl rfl⟩
  | _ =>
    rw [hparse] at hread
    cases hread

theorem routed_iff_example : ∃ x : HttpRequest Rat, exampleHandler.Matches x ∧
    (Routed [exampleHandler] [exampleHandler.item] x ↔
      NoneConcerned [exampleHandler] [exampleHandler.item] x ∨
      OneConcerned [exampleHandler] [exampleHandler.item] x) := by
  obtain ⟨x, s, hparse, hmatches⟩ := exampleText_read
  exact ⟨x, hmatches, routed_iff rfl hparse⟩

theorem example_not_called : ¬ ∀ (context : Multipart.Context) (steps : Nat)
    (hs : List (Handler Unit)) (requestMap : List (HttpProcessorItem Rat Unit))
    (s s' : EStream UInt8) (x : HttpRequest Rat), register [] hs = .ok requestMap →
    HttpRequest.parse context steps s = .ok (x, s') → Routed hs requestMap x := by
  intro hall
  obtain ⟨x, s, hparse, hmatches⟩ := exampleText_read
  have hregister : register [] [exampleHandler] = .ok [exampleHandler.item (D := Rat)] := rfl
  have hrouted := hall _ _ _ _ _ _ _ hregister hparse
  have hcalled := (hrouted exampleHandler (by simp)).mpr hmatches
  obtain ⟨-, -, -, -, -, -, hx⟩ := parse_inv hparse
  obtain ⟨-, htaken, -⟩ := (called_iff (registered_of_register hregister) hx).mp hcalled
  have hinert := hmatches.takenFor_iff.mp htaken
  exact absurd hinert (by simp [Inert, exampleHandler, bytes])

end Handler
end WylesLibs.Http
