import WylesLibs.Web.Connection
import WylesLibs.Web.RequestHead

/-! What a server makes of the connections that come to it. -/
namespace WylesLibs.Http
open Library WylesLibs.Stream WylesLibs.Parser Paths
variable {D : Type}

/-- What comes of the handshake of a connection, and the temporary stream over what is sent. -/
structure Arrival where
  accept : Outcome Unit
  io : ByteEStream

namespace HttpServer

/-- The connections share the map of the paths. Each looks into it once at most, so they are taken
in the order of these looks. -/
def serve [DoubleArith D] (server : HttpServer D) (assign : ByteEStream → ByteEStream)
    (steps : Nat) : List Arrival → StaticPaths → List (List (Event D)) × StaticPaths
  | [], staticPaths => ([], staticPaths)
  | a :: as, staticPaths =>
    let t := server.connection assign steps a.accept a.io staticPaths
    let rest := server.serve assign steps as t.state.staticPaths
    (t.events :: rest.1, rest.2)

/-- Maps with the same types: an empty type is as good as none. -/
def SameTypes (m m' : StaticPaths) : Prop := ∀ path, (contentType m path).1 = (contentType m' path).1

theorem SameTypes.refl (m : StaticPaths) : SameTypes m m := fun _ => rfl

theorem SameTypes.trans {m₁ m₂ m₃ : StaticPaths} (h : SameTypes m₁ m₂) (h' : SameTypes m₂ m₃) :
    SameTypes m₁ m₃ :=
  fun path => (h path).trans (h' path)

theorem contentTypeFromPath_ne_nil (path : Path) : contentTypeFromPath path ≠ [] := by
  have hhtml : bytes "text/html".toList ≠ [] := by decide
  have hjs : bytes "text/javascript".toList ≠ [] := by decide
  have hcss : bytes "text/css".toList ≠ [] := by decide
  have hnone : bytes "none".toList ≠ [] := by decide
  simp only [contentTypeFromPath]
  split_ifs
  · exact hhtml
  · exact hjs
  · exact hcss
  · exact hnone

/-- Looking a path up enters an empty type at most. -/
theorem sameTypes_looked (m : StaticPaths) (p : Path) : SameTypes (contentType m p).2 m := by
  intro path
  have hlookup : ∀ m : StaticPaths, (contentType m path).1 = (m.lookup path).getD [] := by
    intro m
    unfold contentType
    cases m.lookup path <;> rfl
  rw [hlookup, hlookup]
  unfold contentType
  cases hp : m.lookup p with
  | some v => rfl
  | none =>
    by_cases hpath : path = p
    · subst hpath
      simp [hp]
    · simp [Finmap.lookup_insert_of_ne _ hpath]

/-- What the task of a connection can tell of its locals, where the types are those of `m`. -/
structure SameLocals (m : StaticPaths) (s t : Locals) : Prop where
  acceptedTls : s.acceptedTls = t.acceptedTls
  left : SameTypes s.staticPaths m
  right : SameTypes t.staticPaths m

theorem SameLocals.looked {m : StaticPaths} {s t : Locals} (h : SameLocals m s t) (path : Path) :
    (contentTypeAt path s).1 = (contentType m path).1 ∧
      (contentTypeAt path t).1 = (contentType m path).1 ∧
      SameLocals m (contentTypeAt path s).2 (contentTypeAt path t).2 :=
  ⟨h.left path, h.right path, h.acceptedTls, (sameTypes_looked _ _).trans h.left,
    (sameTypes_looked _ _).trans h.right⟩

/-- No file is opened but at these paths. -/
def OnlyOpens (P : Path → Prop) : Event D → Prop
  | .opened path => P path
  | _ => True

section
variable {server : HttpServer D} {request : HttpRequest D} {m : StaticPaths} {P : Path → Prop}

theorem writeResponse_blind (response : HttpResponse) :
    Act.Blind (SameLocals m) (OnlyOpens (D := D) P) (writeResponse response) :=
  Act.Blind.then (Act.Blind.lift _) fun _ => Act.Blind.emit trivial

theorem handleStaticRequest_blind (hP : (contentType m (server.requestedPath request)).1 ≠ [] →
      request.method = headMethod ∨ request.method = getMethod → P (server.requestedPath request)) :
    Act.Blind (SameLocals m) (OnlyOpens P) (server.handleStaticRequest request) := by
  apply Act.Blind.bind
  · apply Act.Blind.change
    intro s t hst
    obtain ⟨hs, ht, hlooked⟩ := hst.looked (server.requestedPath request)
    exact ⟨hs.trans ht.symm, hlooked⟩
  intro s t type hst htype
  have hfound : type = (contentType m (server.requestedPath request)).1 :=
    (Outcome.ok.inj htype).symm.trans (hst.looked _).1
  apply Act.Blind.ite
  · intro hsome
    apply Act.Blind.ite
    · intro hmethod
      rw [hfound] at hsome
      have hopen : OnlyOpens (D := D) P (.opened (server.requestedPath request)) := hP hsome hmethod
      apply Act.Blind.then (Act.Blind.emit hopen)
      intro _
      exact Act.Blind.then (Act.Blind.lift _) fun _ => Act.Blind.pure _
    · intro _
      exact Act.Blind.pure _
  · intro _
    exact Act.Blind.pure _

theorem upgradeAll_blind (upgrades : List (Nat × UpgradeResponse)) :
    Act.Blind (SameLocals m) (OnlyOpens P) (server.upgradeAll upgrades) := by
  induction upgrades with
  | nil => exact Act.Blind.pure _
  | cons upgrade upgrades ih =>
    apply Act.Blind.then (Act.Blind.emit trivial)
    intro _
    exact Act.Blind.then (Act.Blind.lift _) fun _ => ih

theorem upgradeRequest_blind :
    Act.Blind (SameLocals m) (OnlyOpens P) (server.upgradeRequest request) := by
  apply Act.Blind.then (Act.Blind.lift _)
  intro exchange
  exact Act.Blind.then (upgradeAll_blind _) fun _ => Act.Blind.pure _

theorem callItem_blind (item : Option (HttpProcessorItem D (Handling D))) :
    Act.Blind (SameLocals m) (OnlyOpens P) (callItem request item) := by
  cases item with
  | none => exact Act.Blind.pure _
  | some item =>
    simp only [callItem]
    cases item.processor with
    | none => exact Act.Blind.lift _
    | some handling =>
      apply Act.Blind.then (Act.Blind.lift _)
      intro request
      apply Act.Blind.then (Act.Blind.emit trivial)
      intro _
      exact Act.Blind.then (Act.Blind.lift _) fun _ => Act.Blind.lift _

theorem dispatch_blind : Act.Blind (SameLocals m) (OnlyOpens P) (server.dispatch request) := by
  apply Act.Blind.then (Act.Blind.lift _)
  intro request
  apply Act.Blind.then (Act.Blind.lift _)
  intro item
  exact Act.Blind.then (callItem_blind item) fun _ => Act.Blind.lift _

theorem process_blind : Act.Blind (SameLocals m) (OnlyOpens P) (server.process request) := by
  unfold process
  cases server.processor with
  | none => exact Act.Blind.then dispatch_blind fun _ => Act.Blind.pure _
  | some processor => exact Act.Blind.then (Act.Blind.emit trivial) fun _ => Act.Blind.lift _

theorem processRequest_blind (hP : (contentType m (server.requestedPath request)).1 ≠ [] →
      request.method = headMethod ∨ request.method = getMethod → P (server.requestedPath request)) :
    Act.Blind (SameLocals m) (OnlyOpens P) (server.processRequest request) := by
  apply Act.Blind.then (handleStaticRequest_blind hP)
  intro response
  cases response with
  | some response => exact writeResponse_blind response
  | none =>
    apply Act.Blind.then upgradeRequest_blind
    intro upgraded
    apply Act.Blind.ite
    · intro _
      exact Act.Blind.pure _
    · intro _
      apply Act.Blind.then process_blind
      intro response
      cases response with
      | none => exact Act.Blind.lift _
      | some response => exact writeResponse_blind response

theorem openStream_blind (accept : Outcome Unit) :
    Act.Blind (SameLocals m) (OnlyOpens P) (server.openStream accept) := by
  apply Act.Blind.ite
  · intro _
    apply Act.Blind.then (Act.Blind.lift _)
    intro _
    apply Act.Blind.change
    intro s t hst
    exact ⟨rfl, rfl, hst.left, hst.right⟩
  · intro _
    exact Act.Blind.pure _

theorem respondToError_blind :
    Act.Blind (SameLocals m) (OnlyOpens P) server.respondToError := by
  apply Act.Blind.then
  · apply Act.Blind.change
    intro s t hst
    exact ⟨hst.acceptedTls, hst⟩
  intro acceptedTls
  exact Act.Blind.ite (fun _ => Act.Blind.pure _) fun _ => writeResponse_blind _

/-- Whether the stream of a connection is there to be read. -/
def Accepted (server : HttpServer D) (accept : Outcome Unit) : Prop :=
  server.tlsSupport = true ∧ server.tlsEnabled = true → accept = .ok ()

theorem accepted_of_opened {accept : Outcome Unit} {s : Locals} {u : Unit}
    (h : (server.openStream accept s).outcome = .ok u) : server.Accepted accept := by
  intro htls
  have hopen : server.openStream accept = (Act.lift accept >>= fun _ =>
      Act.change fun s => ((), { s with acceptedTls := true })) := if_pos htls
  rw [hopen] at h
  cases accept with
  | ok u => rfl
  | thrown w => cases h
  | undef => cases h
  | timeout => cases h

theorem openStream_accepted {accept : Outcome Unit} (h : server.Accepted accept)
    (staticPaths : StaticPaths) : ∃ s, server.openStream accept ⟨staticPaths, false⟩ =
      ⟨[], .ok (), s⟩ ∧ s.staticPaths = staticPaths ∧
      (server.tlsSupport = true ∧ server.tlsEnabled = true → s.acceptedTls = true) := by
  by_cases htls : server.tlsSupport = true ∧ server.tlsEnabled = true
  · refine ⟨⟨staticPaths, true⟩, ?_, rfl, fun _ => rfl⟩
    rw [openStream, if_pos htls, h htls]
    rfl
  · refine ⟨⟨staticPaths, false⟩, ?_, rfl, fun h => absurd h htls⟩
    rw [openStream, if_neg htls]
    rfl

/-- The stream that is assigned outlives the temporary, as it would if it were made in its place. -/
def Outlives (assign : ByteEStream → ByteEStream) : Prop :=
  ∀ x, x.alive = true → assign x = x

/-- A request for a file at `path` comes out of what is sent. -/
def Asks [DoubleArith D] (server : HttpServer D) (assign : ByteEStream → ByteEStream) (steps : Nat)
    (a : Arrival) (path : Path) : Prop :=
  server.Accepted a.accept ∧ ∃ request io, server.receive assign steps a.io = .ok (request, io) ∧
    (request.method = headMethod ∨ request.method = getMethod) ∧ path = server.requestedPath request

theorem run_blind [DoubleArith D] (server : HttpServer D) (assign : ByteEStream → ByteEStream)
    (steps : Nat) (a : Arrival) :
    Act.Blind (SameLocals m)
      (OnlyOpens fun path => server.Asks assign steps a path ∧ (contentType m path).1 ≠ [])
      (server.run assign steps a.accept a.io) := by
  apply Act.Blind.handle _ respondToError_blind
  apply Act.Blind.bind (openStream_blind a.accept)
  intro s t u _ hopened
  apply Act.Blind.bind (Act.Blind.lift _)
  intro s t p _ hparse
  apply processRequest_blind
  intro hsome hmethod
  exact ⟨⟨accepted_of_opened hopened, p.1, p.2, hparse, hmethod, rfl⟩, hsome⟩

end

/-! Runs of connections. -/

section
variable [DoubleArith D] {server : HttpServer D} {assign : ByteEStream → ByteEStream} {steps : Nat}
  {m staticPaths : StaticPaths}

theorem connection_alike (server : HttpServer D) (assign : ByteEStream → ByteEStream) (steps : Nat)
    (a : Arrival) (h : SameTypes staticPaths m) :
    Act.Trace.Alike (SameLocals m)
      (OnlyOpens fun path => server.Asks assign steps a path ∧ (contentType m path).1 ≠ [])
      (server.connection assign steps a.accept a.io staticPaths)
      (server.connection assign steps a.accept a.io m) :=
  run_blind server assign steps a _ _ ⟨rfl, h, SameTypes.refl m⟩

/-- No connection is told from what it would be as the first. -/
theorem serve_eq (arrivals : List Arrival) (h : SameTypes staticPaths m) :
    (server.serve assign steps arrivals staticPaths).1 =
        arrivals.map (fun a => (server.connection assign steps a.accept a.io m).events) ∧
      SameTypes (server.serve assign steps arrivals staticPaths).2 m := by
  induction arrivals generalizing staticPaths with
  | nil => exact ⟨rfl, h⟩
  | cons a as ih =>
    have halike := connection_alike server assign steps a h
    obtain ⟨hevents, hpaths⟩ := ih halike.state.left
    refine ⟨?_, hpaths⟩
    rw [List.map_cons, ← hevents, ← halike.events]
    rfl

/-- A file is opened just where one of the paths with a type is asked for. -/
theorem opened_iff (a : Arrival) (path : Path) :
    .opened path ∈ (server.connection assign steps a.accept a.io m).events ↔
      server.Asks assign steps a path ∧ (contentType m path).1 ≠ [] := by
  constructor
  · intro hopened
    exact (connection_alike server assign steps a (SameTypes.refl m)).allowed _ hopened
  · rintro ⟨⟨haccepted, request, io, hparse, hmethod, rfl⟩, hsome⟩
    obtain ⟨s, hopen, hpaths, -⟩ := openStream_accepted haccepted m
    have hstatic : .opened (server.requestedPath request) ∈
        (server.handleStaticRequest request s).events := by
      have htype : (contentTypeAt (server.requestedPath request) s).1 ≠ [] := by
        rw [contentTypeAt, hpaths]
        exact hsome
      apply Act.mem_bind_right rfl
      rw [if_pos htype, if_pos hmethod]
      exact Act.mem_bind_left (List.mem_singleton.mpr rfl)
    apply Act.mem_handle
    apply Act.mem_bind_right (by rw [hopen])
    rw [hopen]
    apply Act.mem_bind_right (by rw [hparse]; rfl)
    exact Act.mem_bind_left hstatic

/-- The walk gives every path that it comes to a type. -/
theorem contentType_walk {tree : DirectoryTree} {path : Path} :
    (contentType (initializeStaticPaths tree ∅) path).1 ≠ [] ↔
      path ∈ tree.files ∨ path ∈ tree.directories := by
  have htypes : ∀ (es : List DirectoryEntry) (m : StaticPaths),
      (∀ type, m.lookup path = some type → type ≠ []) → ∀ type,
      (es.foldl (fun m e => m.insert e.path (contentTypeFromPath e.path)) m).lookup path =
        some type → type ≠ [] := by
    intro es
    induction es with
    | nil => exact fun _ hm => hm
    | cons e es ih =>
      intro m hm
      apply ih
      intro type htype
      by_cases hpath : path = e.path
      · subst hpath
        rw [Finmap.lookup_insert, Option.some.injEq] at htype
        rw [← htype]
        exact contentTypeFromPath_ne_nil _
      · rw [Finmap.lookup_insert_of_ne _ hpath] at htype
        exact hm type htype
  rw [← mem_walk, ← Finmap.lookup_isSome]
  unfold contentType
  cases hlookup : (initializeStaticPaths tree ∅).lookup path with
  | none => simp
  | some type => simpa using htypes tree.entries ∅ (by simp) type hlookup

/-- What cannot be read as a request is answered with an error. -/
theorem connection_refused {accept : Outcome Unit} {io : ByteEStream} {w : String}
    (hanswers : server.AnswersErrors accept) (hparse : server.receive assign steps io = .thrown w)
    (staticPaths : StaticPaths) :
    (server.connection assign steps accept io staticPaths).events = [.wrote HttpResponse.initial] := by
  have haccepted : server.Accepted accept := by
    intro htls
    obtain hoff | ⟨-, hok⟩ := hanswers
    · rw [hoff] at htls
      exact absurd htls.2 (by simp)
    · exact hok
  obtain ⟨s, hopen, -, htls⟩ := openStream_accepted haccepted staticPaths
  have hloud : ¬ (server.tlsEnabled = true ∧ s.acceptedTls = false) := by
    rintro ⟨hon, hno⟩
    obtain hoff | ⟨hsupport, -⟩ := hanswers
    · rw [hoff] at hon
      cases hon
    · rw [htls ⟨hsupport, hon⟩] at hno
      cases hno
  obtain ⟨text, htext⟩ := toString_initial
  have hrun : server.connection assign steps accept io staticPaths =
      Act.rescued (Act.andThen (server.openStream accept ⟨staticPaths, false⟩) fun _ =>
        Act.lift (server.receive assign steps io) >>= fun p =>
          server.processRequest p.1) server.respondToError := rfl
  have hthrown : (Act.lift (server.receive assign steps io) >>= fun p =>
      server.processRequest p.1) s = ⟨[], .thrown w, s⟩ := by
    rw [hparse]
    rfl
  have herror : server.respondToError s = writeResponse HttpResponse.initial s := by
    have hcond : server.respondToError s = (if server.tlsEnabled = true ∧ s.acceptedTls = false
        then pure () else writeResponse HttpResponse.initial : Task D Unit) s := rfl
    rw [hcond, if_neg hloud]
  have hwrite : (writeResponse HttpResponse.initial s : Trace Locals (Event D) Unit) =
      ⟨[.wrote HttpResponse.initial], .ok (), s⟩ := by
    have hlift : (writeResponse HttpResponse.initial : Task D Unit) =
        (Act.lift HttpResponse.initial.toString >>= fun _ =>
          Act.emit (.wrote HttpResponse.initial)) := rfl
    rw [hlift, htext]
    rfl
  rw [hrun, hopen]
  simp only [Act.andThen, hthrown, Act.behind, Act.rescued, herror, hwrite, List.nil_append]

/-- With the defaulted move assignment nothing comes of a connection whose handshake has succeeded: the
first read goes to what the temporary has deleted. -/
theorem connection_moveAssign {accept : Outcome Unit} (haccepted : server.Accepted accept)
    (steps : Nat) (io : ByteEStream) (staticPaths : StaticPaths) :
    (server.connection ByteEStream.moveAssign steps accept io staticPaths).events = [] ∧
      (server.connection ByteEStream.moveAssign steps accept io staticPaths).outcome = .undef := by
  obtain ⟨s, hopen, -, -⟩ := openStream_accepted haccepted staticPaths
  have hrun : server.connection ByteEStream.moveAssign steps accept io staticPaths =
      Act.rescued (Act.andThen (server.openStream accept ⟨staticPaths, false⟩) fun _ =>
        Act.lift (server.receive ByteEStream.moveAssign steps io) >>= fun p =>
          server.processRequest p.1) server.respondToError := rfl
  rw [hrun, hopen, receive_moveAssign]
  exact ⟨rfl, rfl⟩

/-! Connections over which a well-formed head is sent. -/

section
variable {head : RequestHead} {body : List UInt8} {a : Arrival}

theorem receive_eq (hassign : Outlives assign) (halive : a.io.alive = true) :
    server.receive assign steps a.io = HttpRequest.parse server.context steps a.io.stream := by
  rw [receive, hassign _ halive, if_pos halive]

/-- Where the file of a request with the head would be. -/
def headPath (server : HttpServer D) (head : RequestHead) : Path :=
  if head.path = [slash] then join server.staticPath server.rootHtmlFile
  else join server.staticPath head.path

theorem ne_post_of_reads {method : List UInt8} (h : method = headMethod ∨ method = getMethod) :
    method ≠ bytes "POST".toList := by
  obtain rfl | rfl := h
  · decide
  · decide

theorem asks_head (hassign : Outlives assign) (halive : a.io.alive = true) (h : head.WellFormed)
    (hfits : head.Fits steps) (hs : Holds a.io.stream (head.text ++ body)) (path : Path) :
    server.Asks assign steps a path ↔ server.Accepted a.accept ∧
      (head.method.dropLast = headMethod ∨ head.method.dropLast = getMethod) ∧
      path = server.headPath head ∧
      ∃ n, RequestHead.announced (head.storedOf contentLengthKey) sizeMax = .ok n ∧
        RequestHead.Arrived n body := by
  refine and_congr_right fun _ => ?_
  constructor
  · rintro ⟨request, io, hparse, hmethod, rfl⟩
    rw [receive_eq hassign halive] at hparse
    rw [RequestHead.method_of_parse h hs hparse] at hmethod
    obtain ⟨n, hlength, harrived, rfl⟩ :=
      RequestHead.parse_arrived_inv h hfits (ne_post_of_reads hmethod) hs hparse
    exact ⟨hmethod, rfl, n, hlength, harrived⟩
  · rintro ⟨hmethod, rfl, n, hlength, harrived⟩
    obtain ⟨io, hparse⟩ : ∃ io, HttpRequest.parse server.context steps a.io.stream =
        .ok ({ (head.request n : HttpRequest D) with content := body.take n }, io) :=
      RequestHead.parse_arrived h hfits (ne_post_of_reads hmethod) hs hlength harrived
    rw [← receive_eq hassign halive] at hparse
    exact ⟨_, io, hparse, hmethod, rfl⟩

/-- A file is read for a well-formed head just where the method with its last byte cut off is HEAD
or GET, the path is one that the walk has come to, and the announced body is there. -/
theorem opened_head (server : HttpServer D) (tree : DirectoryTree) (hassign : Outlives assign)
    (halive : a.io.alive = true) (h : head.WellFormed) (hfits : head.Fits steps)
    (hs : Holds a.io.stream (head.text ++ body)) (path : Path) :
    .opened path ∈
        (server.connection assign steps a.accept a.io (initializeStaticPaths tree ∅)).events ↔
      server.Accepted a.accept ∧
        (head.method.dropLast = headMethod ∨ head.method.dropLast = getMethod) ∧
        path = server.headPath head ∧ (path ∈ tree.files ∨ path ∈ tree.directories) ∧
        ∃ n, RequestHead.announced (head.storedOf contentLengthKey) sizeMax = .ok n ∧
          RequestHead.Arrived n body := by
  rw [opened_iff, contentType_walk, asks_head hassign halive h hfits hs]
  tauto

theorem opened_head_sample : .opened (bytes ['s', '/', 'a']) ∈
    (sampleServer.connection id 1 (.ok ())
      (.ofBuffer (RequestHead.fileHead.text ++ bytes ['x']))
      (initializeStaticPaths oneFile ∅)).events := by
  have haccepted : sampleServer.Accepted (.ok ()) := fun _ => rfl
  have hmethod : RequestHead.fileHead.method.dropLast = getMethod := by decide
  have hpath : bytes ['s', '/', 'a'] = sampleServer.headPath RequestHead.fileHead := by decide
  have hfile : bytes ['s', '/', 'a'] ∈ oneFile.files := by decide
  have harrived : RequestHead.Arrived 1 (bytes ['x']) := by
    simp [RequestHead.Arrived, arbitraryLimitBecauseDumb, bytes]
  exact (opened_head (a := ⟨.ok (), .ofBuffer (RequestHead.fileHead.text ++ bytes ['x'])⟩) sampleServer
    oneFile (fun _ _ => rfl) rfl RequestHead.fileHead_wellFormed RequestHead.fileHead_fits
    (holds_ofBuffer _) _).mpr
      ⟨haccepted, Or.inr hmethod, hpath, Or.inl hfile, 1, RequestHead.fileHead_announced, harrived⟩

/-- Whatever the server is made of, a well-formed head without a body that is announced and sent
along is answered with an error, and with nothing else. Nothing announced is as good as
`SIZE_MAX`. -/
theorem refused_head (server : HttpServer D) (staticPaths : StaticPaths)
    (hassign : Outlives assign) (halive : a.io.alive = true) (h : head.WellFormed)
    (hfits : head.Fits steps) (hmethod : head.method.dropLast ≠ bytes "POST".toList)
    (hs : Holds a.io.stream (head.text ++ body)) (hanswers : server.AnswersErrors a.accept) {n : Nat}
    (hlength : RequestHead.announced (head.storedOf contentLengthKey) sizeMax = .ok n)
    (hmissing : ¬ RequestHead.Arrived n body) :
    (server.connection assign steps a.accept a.io staticPaths).events = [.wrote HttpResponse.initial] := by
  obtain ⟨w, hparse⟩ : ∃ w,
      HttpRequest.parse (D := D) server.context steps a.io.stream = .thrown w :=
    RequestHead.parse_missing h hfits hmethod hs hlength hmissing
  rw [← receive_eq hassign halive] at hparse
  exact connection_refused hanswers hparse staticPaths

end

/-- The same head, and no body. -/
theorem refused_head_sample :
    (sampleServer.connection id 1 (.ok ()) (.ofBuffer (RequestHead.fileHead.text ++ []))
      (initializeStaticPaths oneFile ∅)).events = [.wrote HttpResponse.initial] := by
  have hmethod : RequestHead.fileHead.method.dropLast ≠ bytes "POST".toList := by decide
  have hmissing : ¬ RequestHead.Arrived 1 [] := by simp [RequestHead.Arrived]
  exact refused_head (a := ⟨.ok (), .ofBuffer (RequestHead.fileHead.text ++ [])⟩) sampleServer _
    (fun _ _ => rfl) rfl RequestHead.fileHead_wellFormed RequestHead.fileHead_fits hmethod
    (holds_ofBuffer _) (Or.inl rfl) RequestHead.fileHead_announced hmissing

end

end HttpServer
end WylesLibs.Http
