import RubyServer.Capabilities
import RubyServer.Feature.Folding
import RubyServer.Feature.Format
import RubyServer.Feature.Highlight
import RubyServer.Feature.Outline
import RubyServer.Workspace

/-!
# The server

A workspace with a client: results of lint runs and the clearing of closed documents leave through one queue, in the
order they arose, and the requests of the editor are answered by the features that are registered. What was sent, which
scopes were fetched, which requests to format were answered and which of them broke off is kept in order.

After shutdown nothing is sent.
-/

namespace RubyServer

/-- The notices of a document for the client. A clearing has no version. -/
structure Publish where
  uri : Uri
  notices : List Notice
  version : Option Int
  deriving DecidableEq, Repr, Inhabited

/-- Which features answer. -/
structure Providers where
  highlight : Bool := false
  folding : Bool := false
  symbols : Bool := false
  formatting : Bool := false
  configuration : Bool := false
  workspaceFolders : Bool := false
  deriving DecidableEq, Repr, Inhabited

/-- The outline of a document, nested or flat as the client can take it. -/
inductive OutlineAnswer where
  | nested (symbols : List Symbol)
  | flat (symbols : List FlatSymbol)

/-- A server. -/
structure Server where
  workspace : Workspace
  client : ClientFeatures := {}
  providers : Providers := {}
  queue : List Publish := []
  sent : List Publish := []
  fetched : List (List String) := []
  formatted : List (Nat × Option TextEdit) := []
  brokenOff : List Nat := []
  shutDown : Bool := false

namespace Server

/-- A server for a client, before anything was registered. -/
def ofOptions (client : ClientFeatures) (options : Options) : Server :=
  { workspace := .ofOptions options true, client := client }

/-- Registers what the server offers at once. -/
def registerFeatures (s : Server) : Server :=
  { s with providers := { s.providers with highlight := true, folding := true, symbols := true, formatting := true } }

/-- Registers what needs a client that is ready. -/
def registerWorkspace (s : Server) : Server :=
  { s with
    providers := { s.providers with configuration := true, workspaceFolders := s.client.workspaceFolders } }

/-! ## Documents -/

/-- Opens a document. -/
def didOpen (s : Server) (item : DocumentItem) : Server × Option DocumentError :=
  let (w, e) := s.workspace.openItem item
  ({ s with workspace := w }, e)

/-- Changes a document. -/
def didChange (s : Server) (uri : Uri) (changes : List Change) (version : Int) : Server × Option DocumentError :=
  let (w, e) := s.workspace.change uri changes version
  ({ s with workspace := w }, e)

/-- Closes a document and clears its notices. -/
def didClose (s : Server) (uri : Uri) : Server :=
  let (w, wasOpen) := s.workspace.close uri
  let s := { s with workspace := w }
  if wasOpen && !s.shutDown then { s with queue := s.queue ++ [⟨uri, [], none⟩] } else s

/-- Forgets all settings and lints every open document again. -/
def relint (s : Server) : Server :=
  let w := s.workspace
  { s with workspace := { w with settings := w.settings.invalidateAll }.relintAll }

/-- The settings changed on the client. -/
def configurationChanged (s : Server) : Server := if s.providers.configuration then s.relint else s

/-- The folders of the workspace changed on the client. -/
def foldersChanged (s : Server) : Server := if s.providers.workspaceFolders then s.relint else s

/-! ## Features -/

/-- The tree of an open document. -/
def tree? (tools : Tools) (s : Server) (uri : Uri) : Option ParsedDocument × Server :=
  let (tree, w) := s.workspace.tree? tools uri
  (tree, { s with workspace := w })

/-- Answers from the tree of a document, if the feature is registered. -/
def feature (tools : Tools) (s : Server) (registered : Bool) (uri : Uri) (f : Source → α) : Option α × Server :=
  if registered then
    let (tree, s) := s.tree? tools uri
    (tree.map fun t => f t.source, s)
  else (none, s)

/-- The occurrences of the name at a position. -/
def highlight (tools : Tools) (s : Server) (uri : Uri) (q : Position) : Option (List Highlight) × Server :=
  s.feature tools s.providers.highlight uri fun source => Highlight.occurrences source q

/-- The folds of a document. -/
def folding (tools : Tools) (s : Server) (uri : Uri) : Option (List Fold) × Server :=
  s.feature tools s.providers.folding uri Fold.all

/-- The outline of a document. -/
def symbols (tools : Tools) (s : Server) (uri : Uri) : Option OutlineAnswer × Server :=
  s.feature tools s.providers.symbols uri fun source =>
    if s.client.hierarchicalSymbols then .nested (Outline.ofSource source)
    else .flat (Outline.flatten uri (Outline.ofSource source))

/-- Answers a request to format once its settings are known, unless formatting breaks off. -/
def finishFormatting (tools : Tools) (s : Server) (request : Nat × Uri × Settings) : Server :=
  let (tree, s) := s.tree? tools request.2.1
  let settings := request.2.2.format
  if tree.any fun t => Format.breaksOff settings t.source then { s with brokenOff := s.brokenOff ++ [request.1] }
  else
    let edit := tree.bind fun t => Format.edit? settings t.source
    { s with formatted := s.formatted ++ [(request.1, edit)] }

/-- Takes in a request to format; it is answered when its settings are known. -/
def formatting (tools : Tools) (s : Server) (request : Nat) (uri : Uri) : Server :=
  if s.providers.formatting then
    let (w, outcome) := s.workspace.askSettings (.formatting request uri) uri
    let s := { s with workspace := w }
    match outcome with
    | some outcome => s.finishFormatting tools (request, uri, Workspace.settingsOr outcome)
    | none => s
  else { s with formatted := s.formatted ++ [(request, none)] }

/-! ## What happens by itself -/

/-- The pause before a run is over. -/
def elapse (s : Server) (ticket : Ticket) : Server := { s with workspace := s.workspace.elapse ticket }

/-- A window closes, and its scopes are fetched. -/
def closeWindow (s : Server) (batch : Nat) : Server :=
  let fetched :=
    match s.workspace.settings.openBatch with
    | some b => if b.id = batch then [b.scopes] else []
    | none => []
  { s with workspace := s.workspace.closeWindow batch, fetched := s.fetched ++ fetched }

/-- The client's answer to a fetch arrives. -/
def answer (tools : Tools) (s : Server) (batch : Nat) (response : Response) : Server :=
  let (w, requests) := s.workspace.answer batch response
  requests.foldl (finishFormatting tools) { s with workspace := w }

/-- A run lints; gives the tree it looked at. -/
def lint (tools : Tools) (s : Server) (ticket : Ticket) : Server × Option ParsedDocument :=
  let (w, tree) := s.workspace.lint tools ticket
  ({ s with workspace := w }, tree)

/-- A run is delivered: its result joins the queue. -/
def deliver (s : Server) (ticket : Ticket) : Server :=
  let (w, result) := s.workspace.deliver ticket
  let s := { s with workspace := w }
  match result with
  | some r => if s.shutDown then s else { s with queue := s.queue ++ [⟨r.uri, r.notices, some r.version⟩] }
  | none => s

/-- The first of the queue is sent. -/
def forward (s : Server) : Server :=
  if s.shutDown then s
  else
    match s.queue with
    | [] => s
    | publish :: rest => { s with queue := rest, sent := s.sent ++ [publish] }

/-! ## The end -/

/-- Ends the workspace; requests to format that waited are answered with default settings. -/
def teardown (tools : Tools) (s : Server) : Server :=
  let (w, requests) := s.workspace.teardown
  requests.foldl (finishFormatting tools) { s with workspace := w }

/-- Ends the server; a second time changes nothing. -/
def shutdown (tools : Tools) (s : Server) : Server :=
  if s.shutDown then s else { s with shutDown := true }.teardown tools

end Server

end RubyServer
