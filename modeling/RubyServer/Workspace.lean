import RubyServer.Linter
import RubyServer.SettingsCache

/-!
# Workspaces

The documents, their trees, their settings and the lint runs, and how they act on each other. While a workspace listens,
every event of the store drops the document's tree and schedules a lint, or forgets the document when it was closed.

What happens by itself is a function per step: a pause is over (`elapse`), a window closes (`closeWindow`), an answer
arrives (`answer`), a run lints (`lint`) and is delivered (`deliver`). They may come in any order.
-/

namespace RubyServer

/-- Who asks for settings: a lint run, or a request to format a document. -/
inductive Requester where
  | run (ticket : Ticket)
  | formatting (request : Nat) (uri : Uri)
  deriving DecidableEq, Repr

/-- What a workspace works with. -/
structure Tools where
  parse : Grammar
  engine : Engine

/-- The state of the documents. Time is in milliseconds. -/
structure Workspace where
  options : Options
  clock : Nat := 0
  store : Store
  forest : Forest := {}
  settings : SettingsCache Requester := {}
  linter : Linter := {}
  listening : Bool := true

namespace Workspace

/-- A workspace without documents. -/
def ofOptions (options : Options) (listening : Bool) : Workspace :=
  { options := options, store := { maxSize := options.maxDocumentSize }, listening := listening }

/-! ## Documents -/

/-- Schedules a lint after the pause. -/
def schedule (w : Workspace) (uri : Uri) (version : Int) : Workspace :=
  { w with linter := w.linter.schedule uri version (w.clock + w.options.debounce) }

/-- Forgets the lint of a document. -/
def forget (w : Workspace) (uri : Uri) : Workspace := { w with linter := w.linter.forget uri }

/-- Reacts to an event of the store. -/
def react (w : Workspace) (event : DocumentEvent) : Workspace :=
  if w.listening then
    match event with
    | .opened uri version => { w with forest := w.forest.invalidate uri }.schedule uri version
    | .changed uri version => { w with forest := w.forest.invalidate uri }.schedule uri version
    | .closed uri => { w with forest := w.forest.remove uri }.forget uri
  else w

/-- Takes in what became of the store. -/
def commit (w : Workspace) : Except DocumentError (Store × DocumentEvent) → Workspace × Option DocumentError
  | .ok (store, event) => ({ w with store := store }.react event, none)
  | .error e => (w, some e)

/-- Opens a document. -/
def openItem (w : Workspace) (item : DocumentItem) : Workspace × Option DocumentError :=
  w.commit (w.store.openItem item)

/-- Changes a document. -/
def change (w : Workspace) (uri : Uri) (changes : List Change) (version : Int) : Workspace × Option DocumentError :=
  w.commit (w.store.change uri changes version)

/-- Closes a document; tells whether it was open. -/
def close (w : Workspace) (uri : Uri) : Workspace × Bool :=
  match w.store.close uri with
  | some (store, event) => ({ w with store := store }.react event, true)
  | none => (w, false)

/-- Schedules every open document again. -/
def relintAll (w : Workspace) : Workspace :=
  w.store.documents.entries.foldl (fun w d => w.schedule d.1 d.2.version) w

/-- The tree of an open document. -/
def tree? (tools : Tools) (w : Workspace) (uri : Uri) : Option ParsedDocument × Workspace :=
  let (tree, forest) := w.forest.get? tools.parse w.store uri
  (tree, { w with forest := forest })

/-! ## Settings -/

/-- Asks for settings. -/
def askSettings (w : Workspace) (who : Requester) (uri : Uri) : Workspace × Option SettingsOutcome :=
  let (settings, outcome) := w.settings.get who uri (w.clock + w.options.window)
  ({ w with settings := settings }, outcome)

/-- The settings to go on with: the defaults where they could not be had. -/
def settingsOr : SettingsOutcome → Settings
  | .ok settings => settings
  | .error _ => {}

/-- Hands an answer to the run that waits for it; a request to format is put aside. -/
def handTo : Workspace × List (Nat × Uri × Settings) → Requester × SettingsOutcome →
    Workspace × List (Nat × Uri × Settings)
  | (w, requests), (.run ticket, outcome) =>
    ({ w with linter := w.linter.settle ticket (settingsOr outcome) }, requests)
  | (w, requests), (.formatting request uri, outcome) => (w, requests ++ [(request, uri, settingsOr outcome)])

/-- Hands answers to the runs that wait for them; the requests to format are given back. -/
def handOut (w : Workspace) (answers : List (Requester × SettingsOutcome)) :
    Workspace × List (Nat × Uri × Settings) :=
  answers.foldl handTo (w, [])

/-- Takes in the client's answer to the fetch of a batch. -/
def answer (w : Workspace) (batch : Nat) (response : Response) : Workspace × List (Nat × Uri × Settings) :=
  let (settings, answers) := w.settings.answer batch response
  { w with settings := settings }.handOut answers

/-- Ends the settings: nobody gets any from now on. -/
def endSettings (w : Workspace) : Workspace × List (Nat × Uri × Settings) :=
  let (settings, answers) := w.settings.shutdown
  { w with settings := settings }.handOut answers

/-- Closes the window of a batch. -/
def closeWindow (w : Workspace) (batch : Nat) : Workspace := { w with settings := w.settings.closeWindow batch }

/-! ## Lint runs -/

/-- The pause before a run is over: it asks for settings. -/
def elapse (w : Workspace) (ticket : Ticket) : Workspace :=
  match w.linter.run? ticket with
  | some r =>
    match r.stage with
    | .debouncing _ =>
      if w.linter.isCancelled ticket then { w with linter := w.linter.drop ticket }
      else
        let (w, outcome) := w.askSettings (.run ticket) r.uri
        match outcome with
        | some outcome => { w with linter := w.linter.settle ticket (settingsOr outcome) }
        | none => { w with linter := w.linter.moveTo ticket .awaitingSettings }
    | _ => w
  | none => w

/-- A run with settings lints the tree of its document; gives the tree it looked at. -/
def lint (tools : Tools) (w : Workspace) (ticket : Ticket) : Workspace × Option ParsedDocument :=
  match w.linter.run? ticket with
  | some r =>
    match r.stage with
    | .linting settings =>
      match w.tree? tools r.uri with
      | (none, w) => ({ w with linter := w.linter.drop ticket }, none)
      | (some tree, w) => ({ w with linter := w.linter.finish r tree (tools.engine tree settings) }, some tree)
    | _ => (w, none)
  | none => (w, none)

/-- Delivers a run that has linted. -/
def deliver (w : Workspace) (ticket : Ticket) : Workspace × Option LintResult :=
  let (linter, result) := w.linter.deliver ticket
  ({ w with linter := linter }, result)

/-! ## The end -/

/-- Ends all reactions, runs and requests and drops all trees. The requests to format that waited are given back. -/
def teardown (w : Workspace) : Workspace × List (Nat × Uri × Settings) :=
  { w with listening := false, linter := w.linter.stop, forest := w.forest.releaseAll }.endSettings

end Workspace

end RubyServer
