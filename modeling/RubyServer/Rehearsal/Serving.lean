import RubyServer.Rehearsal.Agenda
import RubyServer.Server

/-!
# A server rehearsed

A server with a scripted client. The clock moves only when told, and everything that falls due by then happens before
the clock stands still again; what is queued for the client is sent at once.
-/

namespace RubyServer.Rehearsal

/-- The server and everything around it. -/
structure ServerRehearsal where
  tools : Tools
  server : Server
  client : ScriptedClient := {}
  interruptions : Interruptions := []

namespace ServerRehearsal

/-- The server with its workspace changed. -/
def withWorkspace (r : ServerRehearsal) (f : Workspace → Workspace) : ServerRehearsal :=
  { r with server := { r.server with workspace := f r.server.workspace } }

/-- Carries out a task. -/
def perform (r : ServerRehearsal) : Task → ServerRehearsal
  | .elapse ticket => { r with server := r.server.elapse ticket }
  | .closeWindow batch => { r with server := r.server.closeWindow batch }
  | .answer batch =>
    let (response, client) := r.client.respond batch.scopes
    { r with server := r.server.answer r.tools batch.id response, client := client }
  | .lint ticket =>
    match r.server.lint r.tools ticket with
    | (server, some tree) =>
      let (now, later) := r.interruptions.take tree.version
      { r with server := server, interruptions := later }.withWorkspace fun w =>
        now.foldl (Agenda.interrupt tree.uri) w
    | (server, none) => { r with server := server }
  | .deliver ticket => { r with server := r.server.deliver ticket }

/-- Sends everything that is queued. -/
def forwardAll (r : ServerRehearsal) : ServerRehearsal :=
  { r with server := r.server.queue.foldl (fun s _ => s.forward) r.server }

/-- What happens next up to a given time. -/
def step? (limit : Nat) (r : ServerRehearsal) : Option ServerRehearsal :=
  (Agenda.next? r.client.holding limit r.server.workspace).map fun (time, task) =>
    (r.withWorkspace fun w => Agenda.moveClock w time).perform task

/-- Lets everything happen that falls due up to a given time. -/
def runUntil (r : ServerRehearsal) (limit : Nat) : ServerRehearsal :=
  let r := Agenda.repeatAtMost (step? limit) (Agenda.bound r.server.workspace r.interruptions.count) r
  (r.withWorkspace fun w => Agenda.moveClock w limit).forwardAll

/-- Lets everything happen that needs no waiting. -/
def settle (r : ServerRehearsal) : ServerRehearsal := r.runUntil r.server.workspace.clock

/-- Moves the clock. -/
def advance (r : ServerRehearsal) (ms : Nat) : ServerRehearsal := r.runUntil (r.server.workspace.clock + ms)

end ServerRehearsal

end RubyServer.Rehearsal
