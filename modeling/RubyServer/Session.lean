import RubyServer.Protocol.Decode
import RubyServer.Protocol.Encode
import RubyServer.Protocol.Message
import RubyServer.Protocol.Unanswered
import RubyServer.Server

/-!
# Sessions

A conversation with a client: it is opened by one successful `initialize`, closed by `shutdown` and ended by `exit`.
Outside the open phase requests are refused and notifications dropped. Messages are known by their numbers of arrival;
a request to format may be answered long after later messages.
-/

namespace RubyServer

/-- How far a conversation has come. -/
inductive Phase where
  | fresh
  | running
  | closing
  | exited
  deriving DecidableEq, Repr

/-- A conversation: the server once there is one, the requests that wait for their answers, the ids of those that broke
off, and what goes out. -/
structure Session where
  phase : Phase := .fresh
  server : Option Server := none
  pending : List (Nat × RequestId) := []
  lost : List RequestId := []
  replies : List (Nat × Reply) := []
  outbox : List Outgoing := []

namespace Session

/-- Ends the handling of a message. -/
def reply (s : Session) (arrival : Nat) (r : Reply) : Session := { s with replies := s.replies ++ [(arrival, r)] }

/-- Sends a message to the client. -/
def send (s : Session) (method : String) (params : Json) (isRequest : Bool) : Session :=
  { s with outbox := s.outbox ++ [⟨method, params, isRequest⟩] }

/-- Refuses a message. -/
def refuse (s : Session) (arrival : Nat) (m : Message) (refusal : Refusal) : Session :=
  s.reply arrival (.refuse m.id refusal)

/-- Changes the server, if there is one. -/
def withServer (s : Session) (f : Server → Server) : Session := { s with server := s.server.map f }

/-! ## What the server has to say -/

/-- The notices of a document as a notification. -/
def publishParams (p : Publish) : Json :=
  .obj ([("uri", .str p.uri), ("diagnostics", .ofList Notice.toJson p.notices)]
    ++ Json.optionalMember "version" Json.int p.version)

/-- A fetch of settings as a request. -/
def fetchParams (scopes : List String) : Json :=
  .obj [("items", .ofList (fun scope => .obj [("scopeUri", .str scope), ("section", .str "ruby")]) scopes)]

/-- The answer to a request to format. -/
def editsJson : Option TextEdit → Json
  | some edit => .arr [edit.toJson]
  | none => .null

/-- Answers a request to format, unless it was cancelled meanwhile. -/
def finish (s : Session) (formatted : Nat × Option TextEdit) : Session :=
  match s.pending.lookup formatted.1 with
  | some id =>
    { s with pending := s.pending.filter fun p => p.1 != formatted.1 }.reply formatted.1
      (.result id (editsJson formatted.2))
  | none => s

/-- Gives up a request that broke off. It gets no answer, but its id stays taken. -/
def lose (s : Session) (arrival : Nat) : Session :=
  match s.pending.lookup arrival with
  | some id => { s with pending := s.pending.filter fun p => p.1 != arrival, lost := s.lost ++ [id] }
  | none => s

/-- Passes on what the server has sent, fetched, formatted and failed to format. -/
def flush (s : Session) : Session :=
  match s.server with
  | none => s
  | some server =>
    let s := { s with server := some { server with sent := [], fetched := [], formatted := [], brokenOff := [] } }
    let s := server.sent.foldl (fun s p => s.send "textDocument/publishDiagnostics" (publishParams p) false) s
    let fetched := if server.client.configuration then server.fetched else []
    let s := fetched.foldl (fun s scopes => s.send "workspace/configuration" (fetchParams scopes) true) s
    server.brokenOff.foldl lose (server.formatted.foldl finish s)

/-! ## The phases of a conversation -/

/-- What the server says about itself. -/
def greeting (client : ClientFeatures) : Json :=
  .obj
    [("capabilities", client.serverCapabilities),
      ("serverInfo", .obj [("name", .str "ruby-lsp"), ("version", .str "0.1.0")])]

/-- Opens the conversation. -/
def start (s : Session) (arrival : Nat) (m : Message) : Session :=
  match s.phase, m.id with
  | .fresh, some id =>
    match m.params.bind Json.openingParams? with
    | some (client, options) =>
      let server := (Server.ofOptions client options).registerFeatures
      { s with phase := .running, server := some server }.reply arrival (.result id (greeting client))
    | none => s.refuse arrival m .invalidParams
  | .fresh, none => s.reply arrival .silent
  | _, _ => s.refuse arrival m .invalidRequest

/-- Why a message is refused outside the open phase. -/
def closedRefusal : Phase → Refusal
  | .fresh => .notInitialized
  | _ => .invalidRequest

/-- Whether an id is taken: by a request that waits, or by one that broke off. -/
def isTaken (s : Session) (id : RequestId) : Bool := s.lost.contains id || s.pending.any fun p => p.2 == id

/-- Closes the conversation. Even a faulty request to do so closes it. -/
def stop (tools : Tools) (s : Session) (arrival : Nat) (m : Message) : Session :=
  match s.phase with
  | .running =>
    let s := { s with phase := .closing }
    match m.id with
    | none => s.reply arrival .silent
    | some id =>
      if s.isTaken id then s.refuse arrival m .invalidRequest
      else if m.params.isSome then s.refuse arrival m .invalidParams
      else ((s.withServer fun server => server.shutdown tools).reply arrival (.result id .null)).flush
  | phase => s.refuse arrival m (closedRefusal phase)

/-- Ends the conversation: what waits is cancelled. -/
def exit (s : Session) (arrival : Nat) : Session :=
  let cancelled := s.pending.map fun p => (p.1, Reply.error p.2 Refusal.cancelled.code)
  let s := { s with phase := .exited, server := none, pending := [], lost := [], replies := s.replies ++ cancelled }
  s.reply arrival .silent

/-- The id of a request to cancel. -/
def cancelled? (params : Json) : Option RequestId :=
  match (params.named ["id"]).get? "id" with
  | some id => if id.isToken then RequestId.read? id else none
  | none => none

/-- Cancels a request that waits, and frees the id of one that broke off. As a notification it must not have an id. -/
def cancel (s : Session) (arrival : Nat) (m : Message) : Session :=
  match m.id, m.params.bind cancelled? with
  | some _, _ => s.refuse arrival m .invalidRequest
  | none, none => s.reply arrival .silent
  | none, some id =>
    let s := { s with lost := s.lost.filter (· != id) }.reply arrival .silent
    match s.pending.find? fun p => p.2 == id with
    | some p =>
      { s with pending := s.pending.filter fun q => q.1 != p.1 }.reply p.1 (.error id Refusal.cancelled.code)
    | none => s

/-! ## Requests and notifications -/

/-- Tells the server that the client is ready, and asks the client for news of its settings if it can register that. -/
def ready (s : Session) (server : Server) : Session :=
  let s := s.withServer Server.registerWorkspace
  if server.client.dynamicConfiguration then
    let registration :=
      .obj [("id", .str "ruby-configuration"), ("method", .str "workspace/didChangeConfiguration")]
    s.send "client/registerCapability" (.obj [("registrations", .arr [registration])]) true
  else s

/-- Opens a document; the user is told when it is refused. -/
def openDocument (s : Session) (server : Server) (item : DocumentItem) : Session :=
  let (server, e) := server.didOpen item
  let s := { s with server := some server }
  match e with
  | some e => s.send "window/showMessage" (.obj [("type", .int 1), ("message", .str e.message)]) false
  | none => s

/-- Handles a notification; one with faulty parameters is dropped. `none` for methods that are no notifications. -/
def notified? (s : Session) (server : Server) (method : String) (params : Option Json) : Option Session :=
  let reading {α : Type} (read? : Json → Option α) (f : α → Session) : Session :=
    match params.bind read? with
    | some a => f a
    | none => s
  match method with
  | "initialized" => some (reading (Json.fields? []) fun _ => s.ready server)
  | "textDocument/didOpen" =>
    some (reading Json.openParams? fun item => s.openDocument server item)
  | "textDocument/didChange" =>
    some (reading Json.changeParams? fun (uri, version, changes) =>
      { s with server := some (server.didChange uri changes version).1 })
  | "textDocument/didClose" =>
    some (reading Json.closeParams? fun uri => { s with server := some (server.didClose uri) })
  | "workspace/didChangeConfiguration" =>
    some (reading Json.settingsParams? fun _ => { s with server := some server.configurationChanged })
  | "workspace/didChangeWorkspaceFolders" =>
    some (reading Json.foldersParams? fun _ => { s with server := some server.foldersChanged })
  | _ => if ignoredNotifications.contains method then some s else none

/-- How a request is answered. -/
inductive Answer where
  /-- With a value, by a server that has moved on. -/
  | now (value : Json) (server : Server)
  /-- Later, by a server that has taken note of it. -/
  | later (server : Server)
  | refusal (refusal : Refusal)

/-- The outline as the client gets it. -/
def outlineJson : OutlineAnswer → Json
  | .nested symbols => .arr (Symbol.allToJson symbols)
  | .flat symbols => .ofList FlatSymbol.toJson symbols

/-- Answers a request. `none` for methods that are no requests. -/
def answer? (tools : Tools) (server : Server) (arrival : Nat) (method : String) (params : Option Json) : Option Answer :=
  let reading {α : Type} (read? : Json → Option α) (f : α → Answer) : Answer :=
    match params.bind read? with
    | some a => f a
    | none => .refusal .invalidParams
  match method with
  | "textDocument/documentHighlight" =>
    some (reading Json.placeParams? fun (uri, position) =>
      let (found, server) := server.highlight tools uri position
      .now (.ofOption (.ofList Highlight.toJson) found) server)
  | "textDocument/foldingRange" =>
    some (reading Json.documentParams? fun uri =>
      let (found, server) := server.folding tools uri
      .now (.ofOption (.ofList Fold.toJson) found) server)
  | "textDocument/documentSymbol" =>
    some (reading Json.documentParams? fun uri =>
      let (found, server) := server.symbols tools uri
      .now (.ofOption outlineJson found) server)
  | "textDocument/formatting" =>
    some (reading Json.formattingParams? fun uri => .later (server.formatting tools arrival uri))
  | _ =>
    (unansweredRequests.lookup method).map fun shape =>
      .refusal (if params.any shape then .methodNotFound else .invalidParams)

/-- Handles a request. -/
def respond (s : Session) (arrival : Nat) (id : RequestId) : Answer → Session
  | .now value server => { s with server := some server }.reply arrival (.result id value)
  | .later server => { s with server := some server, pending := s.pending ++ [(arrival, id)] }
  | .refusal refusal => s.reply arrival (.error id refusal.code)

/-- Whether a method is one of the protocol's, apart from those that open and end a conversation. -/
def isKnown (method : String) : Bool :=
  ["initialized", "textDocument/didOpen", "textDocument/didChange", "textDocument/didClose",
    "workspace/didChangeConfiguration", "workspace/didChangeWorkspaceFolders", "textDocument/documentHighlight",
    "textDocument/foldingRange", "textDocument/documentSymbol", "textDocument/formatting"].contains method
    || (unansweredRequests.lookup method).isSome || ignoredNotifications.contains method

/-- Handles a message of a known method in the open phase. A request must have an id that is not taken, and a notification
none. -/
def handle (tools : Tools) (s : Session) (server : Server) (arrival : Nat) (m : Message) : Session :=
  match m.id with
  | some id =>
    if s.isTaken id then s.refuse arrival m .invalidRequest
    else
      match answer? tools server arrival m.method m.params with
      | some answer => s.respond arrival id answer
      | none => s.refuse arrival m .invalidRequest
  | none =>
    match s.notified? server m.method m.params with
    | some s => s.reply arrival .silent
    | none => s.reply arrival .silent

/-- Refuses a message of a method that nobody knows; those of the protocol's own extensions are passed over. -/
def refuseUnknown (s : Session) (arrival : Nat) (m : Message) : Session :=
  if "$/".toList.isPrefixOf m.method.toList then s.reply arrival .silent else s.refuse arrival m .methodNotFound

/-- Takes in a message; `none` once the conversation has ended. -/
def receive? (tools : Tools) (s : Session) (arrival : Nat) (m : Message) : Option Session :=
  if s.phase = .exited then none
  else
    some <|
      match m.method with
      | "initialize" => s.start arrival m
      | "shutdown" => s.stop tools arrival m
      | "exit" => s.exit arrival
      | "$/cancelRequest" => s.cancel arrival m
      | method =>
        if isKnown method then
          match s.phase, s.server with
          | .running, some server => (s.handle tools server arrival m).flush
          | phase, _ => s.refuse arrival m (closedRefusal phase)
        else s.refuseUnknown arrival m

end Session

end RubyServer
