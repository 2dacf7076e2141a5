import WylesLibs.File.FileManager
import WylesLibs.Library.Acts
import WylesLibs.Web.Routing
import WylesLibs.Web.StaticPaths

/-! `web/http/http_connection_etask`: what the task of a connection does, from the request that it
reads to the responses that it writes. -/
namespace WylesLibs.Http
open Library WylesLibs.Stream WylesLibs.Parser Paths
variable {D : Type}

/-- A filter gets a pointer, which it cannot set to another response. -/
structure ResponseFilter where
  onResponse : HttpResponse → Outcome HttpResponse
  onNull : Outcome Unit

def ResponseFilter.call (filter : ResponseFilter) : Option HttpResponse →
    Outcome (Option HttpResponse)
  | some response => (filter.onResponse response).bind fun response => .ok (some response)
  | none => filter.onNull.bind fun _ => .ok none

abbrev RequestFilter (D : Type) := HttpRequest D → Outcome (HttpRequest D)
abbrev RequestProcessor (D : Type) := HttpRequest D → Outcome (Option HttpResponse)

/-- What an item of the request map holds behind its request. -/
structure Handling (D : Type) where
  processor : RequestProcessor D
  requestFilters : List (RequestFilter D)
  responseFilters : List ResponseFilter

/-- `tlsSupport` says whether the server was built with `WYLESLIBS_SSL_ENABLED`. -/
structure HttpServer (D : Type) where
  staticPath : Path
  rootHtmlFile : List UInt8
  tlsSupport : Bool
  tlsEnabled : Bool
  fileManager : File.FileManager
  processor : Option (RequestProcessor D)
  requestMap : List (HttpProcessorItem D (Handling D))
  requestFilters : List (RequestFilter D)
  responseFilters : List ResponseFilter
  upgraders : List ConnectionUpgrader
  onConnection : Nat → Outcome Unit
  ssl : Openssl
  context : Multipart.Context

/-- What a connection does that is seen from outside: files that it reads, calls of a processor,
responses, and upgrades with the response that announces them. -/
inductive Event (D : Type) where
  | opened (path : Path)
  | called (request : HttpRequest D)
  | wrote (response : HttpResponse)
  | upgraded (i : Nat) (response : UpgradeResponse)

/-- The paths are the server's. -/
structure Locals where
  staticPaths : StaticPaths
  acceptedTls : Bool

abbrev Task (D α : Type) := Act Locals (Event D) α

/-- A path as the file manager has it. -/
def fileName (path : Path) : String := String.ofList (path.map fun c => Char.ofNat c.toNat)

def headMethod : List UInt8 := bytes "HEAD".toList
def getMethod : List UInt8 := bytes "GET".toList

namespace HttpServer
variable (server : HttpServer D)

def writeResponse (response : HttpResponse) : Task D Unit := do
  let _ ← Act.lift response.toString
  Act.emit (.wrote response)

/-- Where the file of a request would be. -/
def requestedPath (request : HttpRequest D) : Path :=
  if request.url.path = [slash] then join server.staticPath server.rootHtmlFile
  else join server.staticPath request.url.path

/-- `static_paths[path]`. -/
def contentTypeAt (path : Path) (s : Locals) : List UInt8 × Locals :=
  ((contentType s.staticPaths path).1, { s with staticPaths := (contentType s.staticPaths path).2 })

def fileResponse (method contentType fileData : List UInt8) : HttpResponse :=
  { HttpResponse.initial with
    statusCode := bytes "200".toList
    fields := HttpResponse.initial.fields
      |>.insert (bytes "Content-Length".toList) (bytes (toString fileData.length).toList)
      |>.insert (bytes "Content-Type".toList) contentType
    content := if method = getMethod then fileData else [] }

def handleStaticRequest (request : HttpRequest D) : Task D (Option HttpResponse) := do
  let path := server.requestedPath request
  let contentType ← Act.change (contentTypeAt path)
  if contentType ≠ [] then
    if request.method = headMethod ∨ request.method = getMethod then do
      Act.emit (.opened path)
      let fileData ← Act.lift (server.fileManager.read (fileName path) 0 sizeMax)
      pure (some (fileResponse request.method contentType fileData))
    else pure (some HttpResponse.initial)
  else pure none

/-- The upgrades of a request, one after the other; an upgrader that throws ends them. -/
def upgradeAll : List (Nat × UpgradeResponse) → Task D Unit
  | [] => pure ()
  | (i, response) :: upgrades => do
    Act.emit (.upgraded i response)
    Act.lift (server.onConnection i)
    upgradeAll upgrades

def upgradeRequest (request : HttpRequest D) : Task D Bool := do
  let exchange ← Act.lift
    (handleWebsocketRequest server.ssl request.url.path server.upgraders request.fields)
  server.upgradeAll exchange.upgrades
  pure exchange.upgraded

/-- What the dispatcher does with the item that it finds; a null processor is called as well. -/
def callItem (request : HttpRequest D) :
    Option (HttpProcessorItem D (Handling D)) → Task D (Option HttpResponse)
  | none => pure none
  | some item =>
    match item.processor with
    | none => Act.lift .undef
    | some handling => do
      let request ← Act.lift (feed (fun filter r => filter r) handling.requestFilters request)
      Act.emit (.called request)
      let response ← Act.lift (handling.processor request)
      Act.lift (feed ResponseFilter.call handling.responseFilters response)

/-- `requestDispatcher` with the filters. Without a response of a processor there is a new one. -/
def dispatch (request : HttpRequest D) : Task D HttpResponse := do
  let request ← Act.lift (feed (fun filter r => filter r) server.requestFilters request)
  let item ← Act.lift (requestDispatcher server.requestMap request)
  let response ← callItem request item
  Act.lift (feed ResponseFilter.onResponse server.responseFilters
    (response.getD HttpResponse.initial))

/-- The processor of the server, or the dispatcher. -/
def process (request : HttpRequest D) : Task D (Option HttpResponse) :=
  match server.processor with
  | none => some <$> server.dispatch request
  | some processor => do
    Act.emit (.called request)
    Act.lift (processor request)

def processRequest (request : HttpRequest D) : Task D Unit := do
  let response ← server.handleStaticRequest request
  match response with
  | some response => writeResponse response
  | none =>
    let upgraded ← server.upgradeRequest request
    if upgraded then pure ()
    else do
      let response ← server.process request
      match response with
      | none => Act.raise "HttpResponse object is a nullptr."
      | some response => writeResponse response

/-- The stream over the connection; `accept` is what comes of the handshake. -/
def openStream (accept : Outcome Unit) : Task D Unit :=
  if server.tlsSupport ∧ server.tlsEnabled then do
    Act.lift accept
    Act.change fun s => ((), { s with acceptedTls := true })
  else pure ()

/-- What `catch` does. -/
def respondToError : Task D Unit := do
  let acceptedTls ← Act.change fun s => (s.acceptedTls, s)
  if server.tlsEnabled = true ∧ acceptedTls = false then pure ()
  else writeResponse HttpResponse.initial

/-- The request is read from what the move assignment has made of the temporary stream `io`. Nothing
can be read where that points at what the temporary has deleted. -/
def receive [DoubleArith D] (assign : ByteEStream → ByteEStream) (steps : Nat) (io : ByteEStream) :
    Outcome (HttpRequest D × EStream UInt8) :=
  if (assign io).alive then HttpRequest.parse server.context steps (assign io).stream
  else (.undef)

/-- `run()` up to the end of its streams, the connection being made the temporary `io`. -/
def run [DoubleArith D] (assign : ByteEStream → ByteEStream) (steps : Nat) (accept : Outcome Unit)
    (io : ByteEStream) : Task D Unit :=
  Act.handle
    (do
      server.openStream accept
      let (request, _) ← Act.lift (server.receive assign steps io)
      server.processRequest request)
    server.respondToError

/-- The task starts without a handshake. -/
def connection [DoubleArith D] (assign : ByteEStream → ByteEStream) (steps : Nat)
    (accept : Outcome Unit) (io : ByteEStream) (staticPaths : StaticPaths) :
    Trace Locals (Event D) Unit :=
  server.run assign steps accept io ⟨staticPaths, false⟩

/-- The defaulted assignment: the first read goes to what the temporary has deleted. -/
theorem receive_moveAssign [DoubleArith D] (steps : Nat) (io : ByteEStream) :
    server.receive ByteEStream.moveAssign steps io = .undef := rfl

end HttpServer

/-! The order in which things happen: one look into a file or one call of a processor at most, then
a response; or upgrades, and behind them no response but that to an error. -/

inductive Phase where
  | start | working | upgrading | answered
  deriving DecidableEq

def internalError : List UInt8 := bytes "500".toList

def Phase.next : Phase → Event D → Option Phase
  | .start, .opened _ | .start, .called _ => some .working
  | .start, .wrote _ | .working, .wrote _ => some .answered
  | .start, .upgraded _ _ | .upgrading, .upgraded _ _ => some .upgrading
  | .upgrading, .wrote response =>
    if response.statusCode = internalError then some .answered else none
  | _, _ => none

namespace HttpServer
variable {server : HttpServer D} {s : Locals} {request : HttpRequest D}

/-- An exception finds the connection without a response. -/
def Unanswered (phase : Phase) : Prop := phase ≠ .answered

@[simp] theorem unanswered_start : Unanswered .start := by simp [Unanswered]
@[simp] theorem unanswered_working : Unanswered .working := by simp [Unanswered]
@[simp] theorem unanswered_upgrading : Unanswered .upgrading := by simp [Unanswered]

/-- What a part of the task brings about, which leaves the handshake as it was. -/
def responds {α : Type} (acceptedTls : Bool) (ok : Phase → α → Prop) : Act.Post Phase Locals α where
  ok phase a t := ok phase a ∧ t.acceptedTls = acceptedTls
  thrown phase t := Unanswered phase ∧ t.acceptedTls = acceptedTls
  stuck _ _ := True

section
variable {b : Bool}

/-- What may throw, but leaves no mark. -/
theorem lift_next {α : Type} {o : Outcome α} {phase : Phase} {ok : Phase → α → Prop}
    (hb : s.acceptedTls = b) (hphase : Unanswered phase) (hok : ∀ a, o = .ok a → ok phase a) :
    Act.Ensures (Phase.next (D := D)) (Act.lift o) s phase (responds b ok) :=
  Act.Ensures.lift (fun a ha => ⟨hok a ha, hb⟩) ⟨hphase, hb⟩ trivial

theorem lift_bind_next {α β : Type} {o : Outcome α} {f : α → Task D β} {phase : Phase}
    {ok : Phase → β → Prop} (hb : s.acceptedTls = b) (hphase : Unanswered phase)
    (hf : ∀ a, o = .ok a → Act.Ensures Phase.next (f a) s phase (responds b ok)) :
    Act.Ensures Phase.next (Act.lift o >>= f) s phase (responds b ok) :=
  Act.Ensures.bind (Act.Ensures.lift hf ⟨hphase, hb⟩ trivial)

theorem bind_next {α β : Type} {m : Task D α} {f : α → Task D β} {phase : Phase}
    {okm : Phase → α → Prop} {ok : Phase → β → Prop}
    (hm : Act.Ensures Phase.next m s phase (responds b okm))
    (hf : ∀ q a (t : Locals), okm q a → t.acceptedTls = b →
      Act.Ensures Phase.next (f a) t q (responds b ok)) :
    Act.Ensures Phase.next (m >>= f) s phase (responds b ok) :=
  Act.Ensures.bind (hm.mono (fun q a t h => hf q a t h.1 h.2) (fun _ _ h => h) fun _ _ h => h)

theorem writeResponse_next {response : HttpResponse} {phase : Phase} (hb : s.acceptedTls = b)
    (h : phase = .start ∨ phase = .working) :
    Act.Ensures Phase.next (writeResponse (D := D) response) s phase
      (responds b fun q _ => q = .answered ∨ q = .upgrading) := by
  have hphase : Unanswered phase := by
    obtain rfl | rfl := h <;> simp
  apply lift_bind_next hb hphase
  intro text _
  have hstep : Phase.next phase (.wrote (D := D) response) = some .answered := by
    obtain rfl | rfl := h <;> rfl
  exact Act.Ensures.emit hstep ⟨Or.inl rfl, hb⟩

theorem handleStaticRequest_next (hb : s.acceptedTls = b) :
    Act.Ensures Phase.next (server.handleStaticRequest request) s .start
      (responds b fun q response => q = .start ∨ response.isSome = true ∧ q = .working) := by
  have hb' : (contentTypeAt (server.requestedPath request) s).2.acceptedTls = b := hb
  apply Act.Ensures.bind
  apply Act.Ensures.change
  apply Act.Ensures.ite
  · intro _
    apply Act.Ensures.ite
    · intro _
      apply Act.Ensures.bind
      apply Act.Ensures.emit rfl
      apply lift_bind_next hb' unanswered_working
      intro fileData _
      exact Act.Ensures.pure ⟨Or.inr ⟨rfl, rfl⟩, hb⟩
    · intro _
      exact Act.Ensures.pure ⟨Or.inl rfl, hb⟩
  · intro _
    exact Act.Ensures.pure ⟨Or.inl rfl, hb⟩

theorem upgradeAll_next (upgrades : List (Nat × UpgradeResponse)) {phase : Phase}
    (hb : s.acceptedTls = b) (h : phase = .start ∨ phase = .upgrading) :
    Act.Ensures Phase.next (server.upgradeAll upgrades) s phase
      (responds b fun q _ => if upgrades = [] then q = phase else q = .upgrading) := by
  induction upgrades generalizing phase s with
  | nil => exact Act.Ensures.pure ⟨rfl, hb⟩
  | cons upgrade upgrades ih =>
    have hstep : Phase.next phase (.upgraded (D := D) upgrade.1 upgrade.2) = some .upgrading := by
      obtain rfl | rfl := h <;> rfl
    apply Act.Ensures.bind
    apply Act.Ensures.emit hstep
    apply lift_bind_next hb unanswered_upgrading
    intro _ _
    refine (ih hb (Or.inr rfl)).mono (fun q _ _ hq => ⟨?_, hq.2⟩) (fun _ _ h => h) fun _ _ h => h
    have hsame : q = .upgrading := by simpa using hq.1
    simpa using hsame

/-- The answer of `handleWebsocketRequest` says whether there was an upgrade. -/
theorem upgraded_iff (hssl : server.ssl.Succeeds) (path : Path) (upgraders : List ConnectionUpgrader)
    (fields : Fields) : ∃ t, handleWebsocketRequest server.ssl path upgraders fields = .ok t ∧
      (t.upgraded = true ↔ t.upgrades ≠ []) := by
  by_cases hupgrade : websocketText ∈ arrayOf fields upgradeName
  · by_cases hconnection : upgradeName ∈ arrayOf fields connectionName
    · obtain ⟨t, ht, hpositions, hupgraded⟩ :=
        handleWebsocketRequest_ok path upgraders hssl hupgrade hconnection
      refine ⟨t, ht, ?_⟩
      rw [hupgraded, ← hpositions]
      simp
    · have hfield : ((⟨fields, false, []⟩ : Exchange).array upgradeName).2.field connectionName =
          arrayOf fields connectionName := field_array _
      have hcall : handleWebsocketRequest server.ssl path upgraders fields =
          if websocketText ∈ arrayOf fields upgradeName then
            if upgradeName ∈ ((⟨fields, false, []⟩ : Exchange).array upgradeName).2.field
                connectionName then _
            else .ok _
          else .ok _ := rfl
      rw [if_pos hupgrade, hfield, if_neg hconnection] at hcall
      exact ⟨_, hcall, by simp [Exchange.setField]⟩
  · have hcall : handleWebsocketRequest server.ssl path upgraders fields =
        if websocketText ∈ arrayOf fields upgradeName then _ else .ok _ := rfl
    rw [if_neg hupgrade] at hcall
    exact ⟨_, hcall, by simp [Exchange.setField]⟩

theorem upgradeRequest_next (hssl : server.ssl.Succeeds) (hb : s.acceptedTls = b) :
    Act.Ensures Phase.next (server.upgradeRequest request) s .start
      (responds b fun q upgraded => q = if upgraded then .upgrading else .start) := by
  obtain ⟨t, ht, hupgraded⟩ := upgraded_iff hssl request.url.path server.upgraders request.fields
  apply lift_bind_next hb unanswered_start
  intro exchange hexchange
  obtain rfl : t = exchange := Outcome.ok.inj (ht.symm.trans hexchange)
  apply bind_next (upgradeAll_next t.upgrades hb (Or.inl rfl))
  intro q _ u hq hb
  apply Act.Ensures.pure
  refine ⟨?_, hb⟩
  cases hflag : t.upgraded with
  | true =>
    have hne := hupgraded.mp hflag
    simpa [hne] using hq
  | false =>
    have hnil : t.upgrades = [] := by
      by_contra hne
      rw [hupgraded.mpr hne] at hflag
      cases hflag
    simpa [hnil] using hq

theorem callItem_next (item : Option (HttpProcessorItem D (Handling D))) (hb : s.acceptedTls = b) :
    Act.Ensures Phase.next (callItem request item) s .start
      (responds b fun q _ => q = .start ∨ q = .working) := by
  cases item with
  | none => exact Act.Ensures.pure ⟨Or.inl rfl, hb⟩
  | some item =>
    simp only [callItem]
    cases item.processor with
    | none =>
      apply lift_next hb unanswered_start
      intro _ h
      cases h
    | some handling =>
      apply lift_bind_next hb unanswered_start
      intro request _
      apply Act.Ensures.bind
      apply Act.Ensures.emit rfl
      apply lift_bind_next hb unanswered_working
      intro response _
      exact lift_next hb unanswered_working fun _ _ => Or.inr rfl

theorem dispatch_next (hb : s.acceptedTls = b) :
    Act.Ensures Phase.next (server.dispatch request) s .start
      (responds b fun q _ => q = .start ∨ q = .working) := by
  apply lift_bind_next hb unanswered_start
  intro request _
  apply lift_bind_next hb unanswered_start
  intro item _
  apply bind_next (callItem_next item hb)
  intro q response t hq hb
  have hphase : Unanswered q := by
    obtain rfl | rfl := hq <;> simp
  exact lift_next hb hphase fun _ _ => hq

theorem process_next (hb : s.acceptedTls = b) :
    Act.Ensures Phase.next (server.process request) s .start
      (responds b fun q _ => q = .start ∨ q = .working) := by
  unfold process
  cases server.processor with
  | none =>
    have hmap : (some <$> server.dispatch request : Task D (Option HttpResponse)) =
        server.dispatch request >>= fun response => pure (some response) := rfl
    rw [hmap]
    apply bind_next (dispatch_next hb)
    intro q response t hq hb
    exact Act.Ensures.pure ⟨hq, hb⟩
  | some processor =>
    apply Act.Ensures.bind
    apply Act.Ensures.emit rfl
    exact lift_next hb unanswered_working fun _ _ => Or.inr rfl

theorem processRequest_next (hssl : server.ssl.Succeeds) (hb : s.acceptedTls = b) :
    Act.Ensures Phase.next (server.processRequest request) s .start
      (responds b fun q _ => q = .answered ∨ q = .upgrading) := by
  apply bind_next (handleStaticRequest_next hb)
  intro q response t hq hb
  cases response with
  | some response => exact writeResponse_next hb (hq.imp_right And.right)
  | none =>
    obtain rfl : q = .start := by simpa using hq
    apply bind_next (upgradeRequest_next hssl hb)
    intro q upgraded t hq hb
    obtain rfl := hq
    cases upgraded with
    | true => exact Act.Ensures.pure ⟨Or.inr rfl, hb⟩
    | false =>
      apply bind_next (process_next hb)
      intro q response t hq hb
      cases response with
      | none =>
        have hphase : Unanswered q := by
          obtain rfl | rfl := hq <;> simp
        exact Act.Ensures.raise ⟨hphase, hb⟩
      | some response => exact writeResponse_next hb hq

end

/-! The whole task. -/

set_option maxRecDepth 4096 in
/-- The response to an error can be written out. -/
theorem toString_initial : ∃ text, HttpResponse.initial.toString = .ok text := by
  have hsome : HttpResponse.initial.toString.toOption.isSome = true := by decide +kernel
  cases htext : HttpResponse.initial.toString with
  | ok text => exact ⟨text, rfl⟩
  | thrown w => simp [htext, Outcome.toOption] at hsome
  | undef => simp [htext, Outcome.toOption] at hsome
  | timeout => simp [htext, Outcome.toOption] at hsome

/-- Whether an error is answered: not where a handshake was to be, and there was none. -/
def AnswersErrors (server : HttpServer D) (accept : Outcome Unit) : Prop :=
  server.tlsEnabled = false ∨ server.tlsSupport = true ∧ accept = .ok ()

theorem respondToError_next {phase : Phase} (hphase : Unanswered phase) :
    Act.Ensures Phase.next server.respondToError s phase {
      ok q _ _ := q = .answered ∨ server.tlsEnabled = true ∧ s.acceptedTls = false
      thrown _ _ := False
      stuck _ _ := True } := by
  apply Act.Ensures.bind
  apply Act.Ensures.change
  apply Act.Ensures.ite
  · intro hsilent
    exact Act.Ensures.pure (Or.inr hsilent)
  · intro _
    obtain ⟨text, htext⟩ := toString_initial
    have hstep : Phase.next phase (.wrote (D := D) HttpResponse.initial) = some .answered := by
      cases phase with
      | start => rfl
      | working => rfl
      | upgrading => rfl
      | answered => exact absurd rfl hphase
    apply Act.Ensures.bind
    rw [htext]
    exact ⟨phase, rfl, Act.Ensures.emit hstep (Or.inl rfl)⟩

/-- The state after a handshake that was asked for, if it was. -/
def Opened (server : HttpServer D) (accept : Outcome Unit) (s : Locals) : Prop :=
  server.AnswersErrors accept → server.tlsEnabled = true → s.acceptedTls = true

theorem openStream_next (server : HttpServer D) (accept : Outcome Unit) (s : Locals) :
    Act.Ensures Phase.next (server.openStream accept) s .start {
      ok q _ t := q = .start ∧ server.Opened accept t
      thrown q t := q = .start ∧ server.Opened accept t
      stuck _ _ := True } := by
  apply Act.Ensures.ite
  · intro _
    cases accept with
    | ok u =>
      apply Act.Ensures.bind
      exact ⟨.start, rfl, Act.Ensures.change ⟨rfl, fun _ _ => rfl⟩⟩
    | thrown w =>
      have hno : server.Opened (.thrown w) s := by
        intro hanswers htls
        obtain hoff | ⟨-, hok⟩ := hanswers
        · rw [hoff] at htls
          cases htls
        · cases hok
      exact ⟨.start, rfl, rfl, hno⟩
    | undef => exact ⟨.start, rfl, trivial⟩
    | timeout => exact ⟨.start, rfl, trivial⟩
  · intro hplain
    refine Act.Ensures.pure ⟨rfl, fun hanswers htls => ?_⟩
    obtain hoff | ⟨hsupport, -⟩ := hanswers
    · rw [hoff] at htls
      cases htls
    · exact absurd ⟨hsupport, htls⟩ hplain

theorem run_next [DoubleArith D] (hssl : server.ssl.Succeeds)
    (assign : ByteEStream → ByteEStream) (steps : Nat) (accept : Outcome Unit) (io : ByteEStream) :
    Act.Ensures Phase.next (server.run assign steps accept io) s .start {
      ok q _ _ := server.AnswersErrors accept → q = .answered ∨ q = .upgrading
      thrown _ _ := False
      stuck _ _ := True } := by
  have herror : ∀ q t, Unanswered q → server.Opened accept t →
      Act.Ensures Phase.next server.respondToError t q {
        ok q _ _ := server.AnswersErrors accept → q = .answered ∨ q = .upgrading
        thrown _ _ := False
        stuck _ _ := True } := by
    intro q t hq ht
    refine (respondToError_next hq).mono (fun r _ _ hr hanswers => ?_) (fun _ _ h => h)
      fun _ _ h => h
    obtain hr | ⟨htls, hno⟩ := hr
    · exact Or.inl hr
    · rw [ht hanswers htls] at hno
      cases hno
  apply Act.Ensures.handle
  apply Act.Ensures.bind
  refine (openStream_next server accept s).mono (fun q _ t h => ?_) (fun q t h => ?_) fun _ _ h => h
  · obtain ⟨rfl, hopened⟩ := h
    have hserve := @lift_bind_next D t t.acceptedTls _ _ (server.receive assign steps io)
      (fun p => server.processRequest p.1) .start _ rfl unanswered_start
      fun p _ => processRequest_next hssl rfl
    refine hserve.mono (fun q _ _ h _ => h.1) (fun q u h => ?_) fun _ _ h => h
    refine herror q u h.1 fun hanswers htls => ?_
    rw [h.2]
    exact hopened hanswers htls
  · obtain ⟨rfl, hopened⟩ := h
    exact herror .start t unanswered_start hopened

/-- A server with nothing but its static path. -/
def sampleServer : HttpServer Rat where
  staticPath := bytes ['s']
  rootHtmlFile := bytes ['a']
  tlsSupport := false
  tlsEnabled := false
  fileManager := ⟨fun _ => none, fun _ => false, fun _ => false, []⟩
  processor := none
  requestMap := []
  requestFilters := []
  responseFilters := []
  upgraders := []
  onConnection _ := .ok ()
  ssl := sampleOpenssl
  context := RequestHead.sampleContext

end HttpServer
end WylesLibs.Http
