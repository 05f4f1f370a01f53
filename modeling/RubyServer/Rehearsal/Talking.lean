import RubyServer.Rehearsal.Agenda
import RubyServer.Session

/-!
# A session rehearsed

A session with a client that answers every request at once: fetches of settings with the values set for the scopes, or,
while it refuses, with an error. A client that cannot be asked for settings has the defaults everywhere. The clock moves
only when told.
-/

namespace RubyServer.Rehearsal

/-- The session and everything around it. -/
structure SessionRehearsal where
  tools : Tools
  session : Session := {}
  client : ScriptedClient := {}
  refusing : Bool := false

namespace SessionRehearsal

/-- What the client answers to a fetch. -/
def response (r : SessionRehearsal) (server : Server) (scopes : List String) : Response :=
  if !server.client.configuration then .values (scopes.map fun _ => .null)
  else if r.refusing then .refused "refused"
  else .values (scopes.map r.client.valueOf)

/-- Carries out a task. -/
def perform (r : SessionRehearsal) (server : Server) : Task → Server
  | .elapse ticket => server.elapse ticket
  | .closeWindow batch => server.closeWindow batch
  | .answer batch => server.answer r.tools batch.id (r.response server batch.scopes)
  | .lint ticket => (server.lint r.tools ticket).1
  | .deliver ticket => server.deliver ticket

/-- What happens next up to a given time. -/
def step? (limit : Nat) (r : SessionRehearsal) (server : Server) : Option Server :=
  (Agenda.next? false limit server.workspace).map fun (time, task) =>
    r.perform { server with workspace := Agenda.moveClock server.workspace time } task

/-- Lets everything happen that falls due up to a given time from now. -/
def advance (r : SessionRehearsal) (ms : Nat) : SessionRehearsal :=
  let moved := r.session.withServer fun server =>
    let limit := server.workspace.clock + ms
    let server := Agenda.repeatAtMost (r.step? limit) (Agenda.bound server.workspace 0) server
    let server := { server with workspace := Agenda.moveClock server.workspace limit }
    server.queue.foldl (fun s _ => s.forward) server
  { r with session := moved.flush }

/-- Sends a message to the server; `none` once the session has ended. -/
def send? (r : SessionRehearsal) (arrival : Nat) (m : Message) : Option SessionRehearsal :=
  (r.session.receive? r.tools arrival m).map fun session => { r with session := session }.advance 0

end SessionRehearsal

end RubyServer.Rehearsal
