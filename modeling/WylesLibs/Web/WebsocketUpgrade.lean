import WylesLibs.Library.Outcome
import WylesLibs.StringUtils

/-! The choice of the upgrader for a websocket request. -/
namespace WylesLibs.Http
open Library

/-- `std::map<std::string, SharedArray<std::string>>`. -/
abbrev Fields := Finmap fun _ : List UInt8 => List (List UInt8)

structure UpgradeResponse where
  statusCode : List UInt8
  version : List UInt8
  fields : Finmap fun _ : List UInt8 => List UInt8

structure ConnectionUpgrader where
  path : List UInt8
  protocol : List UInt8
  deriving DecidableEq

/-- What the SHA1 functions and `EVP_EncodeBlock` answer: a result of 0 is a failure. -/
structure Openssl where
  sha1Init : Int
  sha1Update : List UInt8 → Int
  sha1Final : List UInt8 → Int × List UInt8
  encodeBlock : List UInt8 → List UInt8

structure Openssl.Succeeds (ssl : Openssl) : Prop where
  init : ssl.sha1Init ≠ 0
  update : ∀ key, ssl.sha1Update key ≠ 0
  final : ∀ key, (ssl.sha1Final key).1 ≠ 0

/-- The fields of the request, the local `upgraded`, and the upgrades so far: the position of the
upgrader whose `onConnection` was called, and the response that was written before. -/
structure Exchange where
  fields : Fields
  upgraded : Bool
  upgrades : List (Nat × UpgradeResponse)

def upgradeName : List UInt8 := bytes "upgrade".toList
def connectionName : List UInt8 := bytes "connection".toList
def protocolsName : List UInt8 := bytes "sec-websocket-protocol".toList
def keyName : List UInt8 := bytes "sec-websocket-key".toList
def websocketText : List UInt8 := bytes "websocket".toList
def keySuffix : List UInt8 := bytes "258EAFA5-E914-47DA-95CA-C5AB0DC85B11".toList

namespace Exchange

/-- The array at `fields[name]`, which is a new one for a name that is not in the map. -/
def field (name : List UInt8) (s : Exchange) : List (List UInt8) := (s.fields.lookup name).getD []

def setField (name : List UInt8) (values : List (List UInt8)) (s : Exchange) : Exchange :=
  { s with fields := s.fields.insert name values }

/-- `fields[name]`: a name that is not in the map is put in. -/
def array (name : List UInt8) (s : Exchange) : List (List UInt8) × Exchange :=
  (s.field name, s.setField name (s.field name))

/-- `fields[name][pos]`: past the end of the array an empty text is appended to it. -/
def element (name : List UInt8) (pos : Nat) (s : Exchange) : List UInt8 × Exchange :=
  match (s.field name)[pos]? with
  | some value => (value, s.setField name (s.field name))
  | none => ([], s.setField name (s.field name ++ [[]]))

end Exchange

/-- A new `HttpResponse` is one of status 500 that closes the connection. -/
def UpgradeResponse.initial : UpgradeResponse where
  statusCode := bytes "500".toList
  version := bytes "HTTP/1.1".toList
  fields := Finmap.singleton (bytes "Connection".toList) (bytes "close".toList)

def switchingProtocols (protocol : List UInt8) (accept : List UInt8) : UpgradeResponse :=
  { UpgradeResponse.initial with
    statusCode := bytes "101".toList
    fields := UpgradeResponse.initial.fields
      |>.insert (bytes "Upgrade".toList) websocketText
      |>.insert (bytes "Connection".toList) upgradeName
      |>.insert (bytes "Sec-Websocket-Protocol".toList) protocol
      |>.insert (bytes "Sec-WebSocket-Version".toList) (bytes "13".toList)
      |>.insert (bytes "Sec-WebSocket-Extensions".toList) []
      |>.insert (bytes "Sec-WebSocket-Accept".toList) accept }

def acceptText (ssl : Openssl) (keyString : List UInt8) : Outcome (List UInt8) :=
  if ssl.sha1Init = 0 then .thrown "SHA1 Init failed."
  else if ssl.sha1Update keyString = 0 then .thrown "SHA1 Update failed."
  else if (ssl.sha1Final keyString).1 = 0 then .thrown "SHA1 Final failed."
  else .ok (ssl.encodeBlock (ssl.sha1Final keyString).2)

section
variable (ssl : Openssl) (path : List UInt8)

/-- The body of the inner loop. The key is asked for twice, and its first element is there by the
second time. -/
def tryUpgrader (i : Nat) (upgrader : ConnectionUpgrader) (s : Exchange) : Outcome Exchange :=
  let (protocol, s) := s.element protocolsName i
  if upgrader.path = path ∧ protocol = upgrader.protocol then
    let (key, s) := s.element keyName 0
    (acceptText ssl (key ++ keySuffix)).bind fun accept =>
      .ok { s with
        upgraded := true
        upgrades := s.upgrades ++ [(i, switchingProtocols protocol accept)] }
  else .ok s

/-- `for (size_t x = 0; i < upgraders.size(); i++)`: the loop moves the `i` of the loop around it,
which goes on from where this one ends. -/
def overUpgraders : List ConnectionUpgrader → Nat → Exchange → Outcome (Nat × Exchange)
  | [], i, s => .ok (i, s)
  | upgrader :: rest, i, s =>
    (tryUpgrader ssl path i upgrader s).bind (overUpgraders rest (i + 1))

variable (upgraders : List ConnectionUpgrader)

/-- `for (size_t i = 0; i < protocols.size(); i++)`; the size is that of the array as it grows. -/
def overProtocols : Nat → Nat → Exchange → Outcome Exchange
  | 0, _, _ => .timeout
  | fuel + 1, i, s =>
    if i < (s.field protocolsName).length then
      (overUpgraders ssl path (upgraders.drop i) i s).bind fun (j, t) =>
        overProtocols fuel (j + 1) t
    else .ok s

/-- Each turn of the outer loop moves `i`, and the array grows no longer than the upgraders are. -/
def handleWebsocketRequest (fields : Fields) : Outcome Exchange :=
  let s : Exchange := ⟨fields, false, []⟩
  let (upgrade, s) := s.array upgradeName
  if websocketText ∈ upgrade then
    let (connection, s) := s.array connectionName
    if upgradeName ∈ connection then
      let (protocols, s) := s.array protocolsName
      overProtocols ssl path upgraders (protocols.length + upgraders.length + 1) 0 s
    else .ok s
  else .ok s

end

/-! What the request's arrays hold after an element was asked for. -/

section
variable {name other : List UInt8} {pos : Nat} {s : Exchange}

@[simp] theorem field_setField (values : List (List UInt8)) :
    (s.setField name values).field name = values := by
  simp [Exchange.field, Exchange.setField]

theorem field_setField_of_ne (values : List (List UInt8)) (h : other ≠ name) :
    (s.setField name values).field other = s.field other := by
  simp [Exchange.field, Exchange.setField, Finmap.lookup_insert_of_ne _ h]

theorem field_array (other : List UInt8) : (s.array name).2.field other = s.field other := by
  by_cases h : other = name
  · rw [h]
    exact field_setField _
  · exact field_setField_of_ne _ h

theorem element_value : (s.element name pos).1 = (s.field name).getD pos [] := by
  rw [Exchange.element, List.getD_eq_getElem?_getD]
  cases (s.field name)[pos]? <;> rfl

theorem field_element_of_ne (h : other ≠ name) :
    (s.element name pos).2.field other = s.field other := by
  rw [Exchange.element]
  cases (s.field name)[pos]? with
  | some value => exact field_setField_of_ne _ h
  | none => exact field_setField_of_ne _ h

/-- The empty text that may have been appended is what a look past the end gives anyway. -/
theorem getD_element (j : Nat) :
    ((s.element name pos).2.field name).getD j [] = (s.field name).getD j [] := by
  rw [Exchange.element]
  cases (s.field name)[pos]? with
  | some value => rw [field_setField]
  | none =>
    rw [field_setField]
    simp only [List.getD_eq_getElem?_getD, List.getElem?_append]
    split
    · rfl
    · next hj =>
      rw [List.getElem?_eq_none (l := s.field name) (by omega)]
      cases j - (s.field name).length with
      | zero => rfl
      | succ k => rfl

theorem length_element :
    ((s.element name pos).2.field name).length ≤ max (s.field name).length (pos + 1) := by
  rw [Exchange.element]
  cases hvalue : (s.field name)[pos]? with
  | some value =>
    rw [field_setField]
    exact le_max_left _ _
  | none =>
    have hle := List.getElem?_eq_none_iff.mp hvalue
    rw [field_setField, List.length_append, List.length_singleton]
    omega

theorem element_upgrades : (s.element name pos).2.upgrades = s.upgrades := by
  rw [Exchange.element]
  cases (s.field name)[pos]? <;> rfl

theorem element_upgraded : (s.element name pos).2.upgraded = s.upgraded := by
  rw [Exchange.element]
  cases (s.field name)[pos]? <;> rfl

end

/-- The upgrader at position `i` is one for the path, and its protocol is the one offered at the same
position; the protocols are followed by empty ones. -/
def aligned (path : List UInt8) (upgraders : List ConnectionUpgrader)
    (protocols : List (List UInt8)) (i : Nat) : Bool :=
  upgraders[i]?.any fun u => decide (u.path = path ∧ protocols.getD i [] = u.protocol)

/-- What the loops keep: the offered protocols, the positions of the upgrades and the size of the
array of protocols. -/
structure Searched (protocols : List (List UInt8)) (positions : List Nat) (size : Nat)
    (s : Exchange) : Prop where
  protocols : ∀ j, (s.field protocolsName).getD j [] = protocols.getD j []
  upgrades : s.upgrades.map Prod.fst = positions
  upgraded : s.upgraded = decide (positions ≠ [])
  size : (s.field protocolsName).length ≤ size

section
variable {ssl : Openssl} {path : List UInt8} {upgraders : List ConnectionUpgrader}
  {protocols : List (List UInt8)} {positions : List Nat} {size i : Nat} {s : Exchange}

theorem acceptText_ok (hssl : ssl.Succeeds) (keyString : List UInt8) :
    ∃ accept, acceptText ssl keyString = .ok accept := by
  rw [acceptText, if_neg hssl.init, if_neg (hssl.update _), if_neg (hssl.final _)]
  exact ⟨_, rfl⟩

theorem Searched.element (hs : Searched protocols positions size s) (i : Nat) :
    ∃ t, s.element protocolsName i = (protocols.getD i [], t) ∧
      Searched protocols positions (max size (i + 1)) t := by
  refine ⟨(s.element protocolsName i).2, ?_, ?_, ?_, ?_, ?_⟩
  · rw [← hs.protocols, ← element_value]
  · intro j
    rw [getD_element, hs.protocols]
  · rw [element_upgrades, hs.upgrades]
  · rw [element_upgraded, hs.upgraded]
  · have hle := @length_element protocolsName i s
    have hsize := hs.size
    omega

theorem Searched.key (hs : Searched protocols positions size s) :
    ∃ key t, s.element keyName 0 = (key, t) ∧ Searched protocols positions size t := by
  have hfield := @field_element_of_ne keyName protocolsName 0 s (by decide)
  refine ⟨(s.element keyName 0).1, (s.element keyName 0).2, rfl, ?_, ?_, ?_, ?_⟩
  · intro j
    rw [hfield, hs.protocols]
  · rw [element_upgrades, hs.upgrades]
  · rw [element_upgraded, hs.upgraded]
  · rw [hfield]
    exact hs.size

theorem Searched.upgrade (hs : Searched protocols positions size s) (i : Nat)
    (response : UpgradeResponse) :
    Searched protocols (positions ++ [i]) size
      { s with upgraded := true, upgrades := s.upgrades ++ [(i, response)] } where
  protocols := hs.protocols
  upgrades := by simp [hs.upgrades]
  upgraded := by simp
  size := hs.size

theorem tryUpgrader_ok (path : List UInt8) (i : Nat) (hssl : ssl.Succeeds) (upgrader : ConnectionUpgrader)
    (hs : Searched protocols positions size s) :
    ∃ t, tryUpgrader ssl path i upgrader s = .ok t ∧
      Searched protocols
        (if upgrader.path = path ∧ protocols.getD i [] = upgrader.protocol
          then positions ++ [i] else positions) (max size (i + 1)) t := by
  obtain ⟨t, ht, hkept⟩ := hs.element i
  by_cases hmatch : upgrader.path = path ∧ protocols.getD i [] = upgrader.protocol
  · obtain ⟨key, u, hu, hkept'⟩ := hkept.key
    obtain ⟨accept, haccept⟩ := acceptText_ok hssl (key ++ keySuffix)
    have hrun : tryUpgrader ssl path i upgrader s = .ok { u with
        upgraded := true
        upgrades := u.upgrades ++ [(i, switchingProtocols (protocols.getD i []) accept)] } := by
      simp only [tryUpgrader, ht, if_pos hmatch, hu, haccept, Outcome.bind_ok]
    refine ⟨_, hrun, ?_⟩
    rw [if_pos hmatch]
    exact hkept'.upgrade i _
  · refine ⟨t, ?_, ?_⟩
    · simp only [tryUpgrader, ht, if_neg hmatch]
    · rw [if_neg hmatch]
      exact hkept

/-- The inner loop looks at one position of both lists at a time. -/
theorem overUpgraders_ok (path : List UInt8) (hssl : ssl.Succeeds) (rest : List ConnectionUpgrader)
    (hrest : rest = upgraders.drop i) (hs : Searched protocols positions size s) :
    ∃ t, overUpgraders ssl path rest i s = .ok (i + rest.length, t) ∧
      Searched protocols
        (positions ++ (List.range' i rest.length).filter (aligned path upgraders protocols))
        (max size (i + rest.length)) t := by
  induction rest generalizing i positions size s with
  | nil =>
    refine ⟨s, rfl, ?_⟩
    simpa using ⟨hs.protocols, hs.upgrades, hs.upgraded, le_sup_of_le_left hs.size⟩
  | cons upgrader rest ih =>
    have hhere : upgraders[i]? = some upgrader := by
      rw [← List.head?_drop, ← hrest, List.head?_cons]
    have hnext : rest = upgraders.drop (i + 1) := by
      rw [← List.tail_drop, ← hrest, List.tail_cons]
    obtain ⟨t, ht, hone⟩ := tryUpgrader_ok path i hssl upgrader hs
    obtain ⟨u, hu, hrun⟩ := ih hnext hone
    have hposition : aligned path upgraders protocols i =
        decide (upgrader.path = path ∧ protocols.getD i [] = upgrader.protocol) := by
      rw [aligned, hhere, Option.any_some]
    have hpositions : (if upgrader.path = path ∧ protocols.getD i [] = upgrader.protocol
        then positions ++ [i] else positions) ++
          (List.range' (i + 1) rest.length).filter (aligned path upgraders protocols) =
        positions ++ (List.range' i (rest.length + 1)).filter (aligned path upgraders protocols) := by
      rw [List.range'_succ, List.filter_cons, hposition]
      by_cases hmatch : upgrader.path = path ∧ protocols.getD i [] = upgrader.protocol
      · rw [if_pos hmatch, if_pos (decide_eq_true hmatch), List.append_assoc, List.singleton_append]
      · rw [if_neg hmatch, if_neg (by simpa using hmatch)]
    have hcount : i + 1 + rest.length = i + (rest.length + 1) := by omega
    refine ⟨u, ?_, ?_⟩
    · rw [overUpgraders, ht, Outcome.bind_ok, hu, hcount, List.length_cons]
    · rw [hpositions, hcount, max_assoc, max_eq_right (a := i + 1) (by omega)] at hrun
      exact hrun

/-- Behind the last upgrader the outer loop only counts up. -/
theorem overProtocols_behind {fuel : Nat} (hi : upgraders.length ≤ i)
    (hfuel : (s.field protocolsName).length ≤ i + fuel) :
    overProtocols ssl path upgraders (fuel + 1) i s = .ok s := by
  induction fuel generalizing i with
  | zero => rw [overProtocols, if_neg (by omega)]
  | succ fuel ih =>
    rw [overProtocols]
    split
    · rw [List.drop_eq_nil_of_le hi, overUpgraders, Outcome.bind_ok]
      exact ih (by omega) (by omega)
    · rfl

/-- The positions of the upgraders that are chosen. -/
def chosen (path : List UInt8) (upgraders : List ConnectionUpgrader)
    (protocols : List (List UInt8)) : List Nat :=
  if protocols = [] then []
  else (List.range upgraders.length).filter (aligned path upgraders protocols)

theorem overProtocols_ok (hssl : ssl.Succeeds) (hs : Searched protocols [] protocols.length s)
    (hsize : (s.field protocolsName).length = protocols.length) :
    ∃ t, overProtocols ssl path upgraders (protocols.length + upgraders.length + 1) 0 s = .ok t ∧
      t.upgrades.map Prod.fst = chosen path upgraders protocols ∧
      t.upgraded = decide (chosen path upgraders protocols ≠ []) := by
  by_cases hnone : protocols = []
  · subst hnone
    rw [chosen, if_pos rfl, overProtocols, hsize, if_neg (by simp)]
    exact ⟨s, rfl, hs.upgrades, hs.upgraded⟩
  · obtain ⟨t, ht, hrun⟩ := overUpgraders_ok path hssl (upgraders.drop 0) rfl hs
    have hpos := List.length_pos_iff.mpr hnone
    have hbound := hrun.size
    rw [List.drop_zero, Nat.zero_add] at ht hbound
    rw [overProtocols, hsize, if_pos hpos, List.drop_zero, ht, Outcome.bind_ok]
    obtain ⟨fuel, hfuel⟩ : ∃ fuel, protocols.length + upgraders.length = fuel + 1 :=
      Nat.exists_eq_add_one.mpr (by omega)
    have hbehind : overProtocols ssl path upgraders (fuel + 1) (upgraders.length + 1) t = .ok t :=
      overProtocols_behind (by omega) (by omega)
    refine ⟨t, by rw [hfuel]; exact hbehind, ?_, ?_⟩
    · simpa [chosen, hnone, List.range_eq_range'] using hrun.upgrades
    · simpa [chosen, hnone, List.range_eq_range'] using hrun.upgraded

end

/-! A call, and the two searches it stands for. -/

section
variable {ssl : Openssl} {path : List UInt8} {upgraders : List ConnectionUpgrader}
  {fields : Fields}

/-- The array that a request has for a name, which is empty for a name it does not have. -/
def arrayOf (fields : Fields) (name : List UInt8) : List (List UInt8) :=
  (fields.lookup name).getD []

theorem handleWebsocketRequest_ok (path : List UInt8) (upgraders : List ConnectionUpgrader)
    (hssl : ssl.Succeeds)
    (hupgrade : websocketText ∈ arrayOf fields upgradeName)
    (hconnection : upgradeName ∈ arrayOf fields connectionName) :
    ∃ t, handleWebsocketRequest ssl path upgraders fields = .ok t ∧
      t.upgrades.map Prod.fst = chosen path upgraders (arrayOf fields protocolsName) ∧
      t.upgraded = decide (chosen path upgraders (arrayOf fields protocolsName) ≠ []) := by
  let s₀ : Exchange := ⟨fields, false, []⟩
  let s₁ := (s₀.array upgradeName).2
  let s₂ := (s₁.array connectionName).2
  let s₃ := (s₂.array protocolsName).2
  have hs₁ : s₁.field connectionName = arrayOf fields connectionName := field_array _
  have hs₂ : s₂.field protocolsName = arrayOf fields protocolsName :=
    (field_array _).trans (field_array _)
  have hs₃ : s₃.field protocolsName = arrayOf fields protocolsName := (field_array _).trans hs₂
  have hstart : Searched (arrayOf fields protocolsName) [] (arrayOf fields protocolsName).length s₃ :=
    ⟨fun j => by rw [hs₃], rfl, rfl, le_of_eq (by rw [hs₃])⟩
  have hcall : handleWebsocketRequest ssl path upgraders fields =
      if websocketText ∈ arrayOf fields upgradeName then
        if upgradeName ∈ s₁.field connectionName then
          overProtocols ssl path upgraders
            ((s₂.field protocolsName).length + upgraders.length + 1) 0 s₃
        else .ok s₂
      else .ok s₁ := rfl
  rw [hcall, if_pos hupgrade, hs₁, if_pos hconnection, hs₂]
  exact overProtocols_ok hssl hstart (by rw [hs₃])

/-- Some upgrader is one for the path and for a protocol that is offered. -/
def Selects (path : List UInt8) (upgraders : List ConnectionUpgrader)
    (protocols : List (List UInt8)) : Prop :=
  ∃ u ∈ upgraders, u.path = path ∧ u.protocol ∈ protocols

/-- What a search over all pairs does: one upgrade where some pair matches, and no upgrade
otherwise. -/
def UpgradesOnce (ssl : Openssl) (path : List UInt8) (upgraders : List ConnectionUpgrader)
    (fields : Fields) : Prop :=
  ∃ t, handleWebsocketRequest ssl path upgraders fields = .ok t ∧
    (t.upgraded = true ↔ Selects path upgraders (arrayOf fields protocolsName)) ∧
    (t.upgraded = true → t.upgrades.length = 1) ∧ (t.upgraded = false → t.upgrades = [])

theorem mem_chosen {protocols : List (List UInt8)} {i : Nat} (h : protocols ≠ []) :
    i ∈ chosen path upgraders protocols ↔ aligned path upgraders protocols i = true := by
  rw [chosen, if_neg h, List.mem_filter, List.mem_range]
  constructor
  · intro hi
    exact hi.2
  · intro hi
    refine ⟨?_, hi⟩
    by_contra hge
    rw [aligned, List.getElem?_eq_none (by omega)] at hi
    cases hi

theorem nodup_chosen (path : List UInt8) (upgraders : List ConnectionUpgrader)
    (protocols : List (List UInt8)) :
    (chosen path upgraders protocols).Nodup := by
  rw [chosen]
  split
  · exact List.nodup_nil
  · exact List.nodup_range.filter _

theorem length_eq_one_iff_existsUnique {l : List Nat} (hl : l.Nodup) :
    l.length = 1 ↔ ∃! i, i ∈ l := by
  constructor
  · intro h
    obtain ⟨i, rfl⟩ := List.length_eq_one_iff.mp h
    exact ⟨i, by simp, by simp⟩
  · intro hcase
    obtain ⟨i, hi, hunique⟩ := hcase
    have hall : l = List.replicate l.length i := List.eq_replicate_of_mem hunique
    have hle : l.length ≤ 1 := List.nodup_replicate.mp (hall ▸ hl)
    have hpos := List.length_pos_of_mem hi
    omega

/-- What is asked of a call, said of the positions that are chosen. -/
theorem upgradesOnce_iff_chosen (hssl : ssl.Succeeds)
    (hupgrade : websocketText ∈ arrayOf fields upgradeName)
    (hconnection : upgradeName ∈ arrayOf fields connectionName) :
    UpgradesOnce ssl path upgraders fields ↔
      (chosen path upgraders (arrayOf fields protocolsName) ≠ [] ↔
        Selects path upgraders (arrayOf fields protocolsName)) ∧
      (chosen path upgraders (arrayOf fields protocolsName) ≠ [] →
        (chosen path upgraders (arrayOf fields protocolsName)).length = 1) := by
  obtain ⟨t, ht, hpositions, hupgraded⟩ :=
    handleWebsocketRequest_ok path upgraders hssl hupgrade hconnection
  have hlength := congrArg List.length hpositions
  rw [List.length_map] at hlength
  rw [UpgradesOnce, ht]
  constructor
  · intro hcase
    obtain ⟨t', ht', hiff, hone, _⟩ := hcase
    obtain rfl : t = t' := Outcome.ok.inj ht'
    rw [hupgraded, decide_eq_true_iff, hlength] at hone
    rw [hupgraded, decide_eq_true_iff] at hiff
    exact ⟨hiff, hone⟩
  · intro hcase
    obtain ⟨hiff, hone⟩ := hcase
    refine ⟨t, rfl, ?_, ?_, ?_⟩
    · rw [hupgraded, decide_eq_true_iff, hiff]
    · rw [hupgraded, decide_eq_true_iff, hlength]
      exact hone
    · intro hnone
      rw [hupgraded, decide_eq_false_iff_not, not_not] at hnone
      rwa [hnone, List.map_eq_nil_iff] at hpositions

/-- The pairs that are tried are those at the same position of both lists. -/
theorem websocket_upgrade_iff (hssl : ssl.Succeeds)
    (hupgrade : websocketText ∈ arrayOf fields upgradeName)
    (hconnection : upgradeName ∈ arrayOf fields connectionName) :
    UpgradesOnce ssl path upgraders fields ↔
      arrayOf fields protocolsName = [] ∨
      (Selects path upgraders (arrayOf fields protocolsName) ∧
        ∃! i, aligned path upgraders (arrayOf fields protocolsName) i = true) ∨
      (¬ Selects path upgraders (arrayOf fields protocolsName) ∧
        ∀ i, aligned path upgraders (arrayOf fields protocolsName) i = false) := by
  rw [upgradesOnce_iff_chosen hssl hupgrade hconnection]
  generalize arrayOf fields protocolsName = protocols
  by_cases hnone : protocols = []
  · simp [hnone, chosen, Selects]
  have hsingle := length_eq_one_iff_existsUnique (nodup_chosen path upgraders protocols)
  simp only [mem_chosen hnone] at hsingle
  have hempty : chosen path upgraders protocols = [] ↔
      ∀ i, aligned path upgraders protocols i = false := by
    rw [List.eq_nil_iff_forall_not_mem]
    simp only [mem_chosen hnone, Bool.not_eq_true]
  rw [← hsingle, ← hempty]
  by_cases hselects : Selects path upgraders protocols
  · constructor
    · intro hcase
      obtain ⟨hiff, hone⟩ := hcase
      exact Or.inr (Or.inl ⟨hselects, hone (hiff.mpr hselects)⟩)
    · intro h
      have hone : (chosen path upgraders protocols).length = 1 := by tauto
      have hne : chosen path upgraders protocols ≠ [] := by
        intro heq
        rw [heq] at hone
        cases hone
      exact ⟨iff_of_true hne hselects, fun _ => hone⟩
  · constructor
    · intro hcase
      obtain ⟨hiff, _⟩ := hcase
      exact Or.inr (Or.inr ⟨hselects, not_not.mp (mt hiff.mp hselects)⟩)
    · intro h
      have heq : chosen path upgraders protocols = [] := by tauto
      exact ⟨iff_of_false (not_not.mpr heq) hselects, fun hne => absurd heq hne⟩

/-- What Openssl answers for the key of `sampleFields`. -/
def sampleOpenssl : Openssl where
  sha1Init := 1
  sha1Update _ := 1
  sha1Final _ := (1, [0xb3, 0x7a, 0x4f, 0x2c, 0xc0, 0x62, 0x4f, 0x16, 0x90, 0xf6, 0x46, 0x06, 0xcf,
    0x38, 0x59, 0x45, 0xb2, 0xbe, 0xc4, 0xea])
  encodeBlock _ := bytes "s3pPLMBiTxaQ9kYGzzhZRbK+xOo=".toList

theorem sampleOpenssl_succeeds : sampleOpenssl.Succeeds :=
  ⟨one_ne_zero, fun _ => one_ne_zero, fun _ => one_ne_zero⟩

def sampleFields (protocols : List (List UInt8)) : Fields :=
  Finmap.singleton upgradeName [websocketText]
    |>.insert connectionName [upgradeName]
    |>.insert protocolsName protocols
    |>.insert keyName [bytes "dGhlIHNhbXBsZSBub25jZQ==".toList]

def sampleUpgraders : List ConnectionUpgrader := [⟨bytes "/ws".toList, bytes "chat".toList⟩]

theorem websocket_upgrade_first :
    UpgradesOnce sampleOpenssl (bytes "/ws".toList) sampleUpgraders
      (sampleFields [bytes "chat".toList]) := by
  apply (websocket_upgrade_iff sampleOpenssl_succeeds (by decide) (by decide)).mpr
  refine Or.inr (Or.inl ⟨⟨⟨bytes "/ws".toList, bytes "chat".toList⟩, by decide, by decide⟩, 0,
    by decide, ?_⟩)
  intro i hi
  cases i with
  | zero => rfl
  | succ i => cases hi

/-- The protocol is the second that is offered, and its upgrader the first. -/
theorem websocket_upgrade_second :
    ¬ UpgradesOnce sampleOpenssl (bytes "/ws".toList) sampleUpgraders
      (sampleFields [bytes "json".toList, bytes "chat".toList]) := by
  rw [upgradesOnce_iff_chosen sampleOpenssl_succeeds (by decide) (by decide)]
  intro hcase
  obtain ⟨hiff, _⟩ := hcase
  have hnone : chosen (bytes "/ws".toList) sampleUpgraders
      (arrayOf (sampleFields [bytes "json".toList, bytes "chat".toList]) protocolsName) = [] := by
    decide
  exact hiff.mpr ⟨⟨bytes "/ws".toList, bytes "chat".toList⟩, by decide, by decide⟩ hnone

end

end WylesLibs.Http
