import RubyServer.Registry
import RubyServer.Rehearsal.Agenda

/-!
# A linter rehearsed

A workspace that does not listen to its documents, with a scripted client and scripted observers of lint results. The
clock moves only when told, and everything that falls due by then happens before the clock stands still again.
-/

namespace RubyServer.Rehearsal

/-- What an observer does at its first delivery. -/
inductive DeliveryAction where
  | schedule (version : Int)
  | forget
  | unsubscribe (name : String)

/-- An observer of lint results. Its number tells it apart from others of the same name. -/
structure Recipient where
  number : Nat
  name : String
  actions : List DeliveryAction

/-- What an observer saw. -/
structure Delivery where
  observer : String
  result : LintResult
  lastDelivered : Option Int

/-- The linter and everything around it. -/
structure LintRehearsal where
  tools : Tools
  workspace : Workspace
  client : ScriptedClient := {}
  interruptions : Interruptions := []
  registry : Registry Recipient := {}
  ids : Table String Nat := ∅
  served : List Nat := []
  deliveries : List Delivery := []
  calls : List (List String) := []

namespace LintRehearsal

/-- Subscribes an observer. -/
def subscribe (r : LintRehearsal) (name : String) (actions : List DeliveryAction) : LintRehearsal :=
  let (registry, id) := r.registry.subscribe ⟨r.registry.next, name, actions⟩
  { r with registry := registry, ids := r.ids.insert name id }

/-- Whether the last subscription under a name is in force; `none` if there never was one. -/
def isSubscribed? (r : LintRehearsal) (name : String) : Option Bool := (r.ids.get? name).map r.registry.isSubscribed

/-- Ends the last subscription under a name. -/
def unsubscribe (r : LintRehearsal) (name : String) : LintRehearsal :=
  match r.ids.get? name with
  | some id => { r with registry := r.registry.unsubscribe id }
  | none => r

/-- Carries out an observer's action. -/
def act (uri : Uri) (r : LintRehearsal) : DeliveryAction → LintRehearsal
  | .schedule version => { r with workspace := r.workspace.schedule uri version }
  | .forget => { r with workspace := r.workspace.forget uri }
  | .unsubscribe name => r.unsubscribe name

/-- Calls an observer with a result. -/
def notify (result : LintResult) (recipient : Recipient) (r : LintRehearsal) : LintRehearsal :=
  let seen := ⟨recipient.name, result, r.workspace.linter.lastDelivered? result.uri⟩
  let actions := if r.served.contains recipient.number then [] else recipient.actions
  actions.foldl (act result.uri)
    { r with deliveries := r.deliveries ++ [seen], served := recipient.number :: r.served }

/-- Carries out a task. -/
def perform (r : LintRehearsal) : Task → LintRehearsal
  | .elapse ticket => { r with workspace := r.workspace.elapse ticket }
  | .closeWindow batch =>
    let calls := (r.workspace.settings.openBatch.toList.filter fun b => b.id == batch).map Batch.scopes
    { r with workspace := r.workspace.closeWindow batch, calls := r.calls ++ calls }
  | .answer batch =>
    let (response, client) := r.client.respond batch.scopes
    { r with workspace := (r.workspace.answer batch.id response).1, client := client }
  | .lint ticket =>
    match r.workspace.lint r.tools ticket with
    | (w, some tree) =>
      let (now, later) := r.interruptions.take tree.version
      { r with workspace := now.foldl (Agenda.interrupt tree.uri) w, interruptions := later }
    | (w, none) => { r with workspace := w }
  | .deliver ticket =>
    match r.workspace.deliver ticket with
    | (w, some result) => (Registry.dispatch registry (notify result) { r with workspace := w }).1
    | (w, none) => { r with workspace := w }

/-- What happens next up to a given time. -/
def step? (limit : Nat) (r : LintRehearsal) : Option LintRehearsal :=
  (Agenda.next? r.client.holding limit r.workspace).map fun (time, task) =>
    { r with workspace := Agenda.moveClock r.workspace time }.perform task

/-- The number of actions that scripts may still add. -/
def scripted (r : LintRehearsal) : Nat :=
  r.interruptions.count + (r.registry.observers.flatMap fun o => o.2.actions).length

/-- Lets everything happen that falls due up to a given time. -/
def runUntil (r : LintRehearsal) (limit : Nat) : LintRehearsal :=
  let r := Agenda.repeatAtMost (step? limit) (Agenda.bound r.workspace r.scripted) r
  { r with workspace := Agenda.moveClock r.workspace limit }

/-- Lets everything happen that needs no waiting. -/
def settle (r : LintRehearsal) : LintRehearsal := r.runUntil r.workspace.clock

/-- Moves the clock. -/
def advance (r : LintRehearsal) (ms : Nat) : LintRehearsal := r.runUntil (r.workspace.clock + ms)

end LintRehearsal

end RubyServer.Rehearsal
