import RubyServer.SettingsCache

/-!
# A scripted client

A client that answers fetches of settings by a script: from a queue of prepared responses as long as there are any, else
with the values set for the scopes. It can be told to hold its answers back.
-/

namespace RubyServer.Rehearsal

/-- What the client will answer. -/
structure ScriptedClient where
  values : Table String Json := ∅
  responses : List Response := []
  holding : Bool := false

namespace ScriptedClient

/-- Sets the value of a scope. -/
def set (c : ScriptedClient) (scope : String) (value : Json) : ScriptedClient :=
  { c with values := c.values.insert scope value }

/-- Prepares the response to a later fetch. -/
def prepare (c : ScriptedClient) (response : Response) : ScriptedClient :=
  { c with responses := c.responses ++ [response] }

/-- Holds answers back. -/
def hold (c : ScriptedClient) : ScriptedClient := { c with holding := true }

/-- Lets answers go. -/
def release (c : ScriptedClient) : ScriptedClient := { c with holding := false }

/-- The value of a scope; `null` if none was set. -/
def valueOf (c : ScriptedClient) (scope : String) : Json := (c.values.get? scope).getD .null

/-- Answers a fetch. -/
def respond (c : ScriptedClient) (scopes : List String) : Response × ScriptedClient :=
  match c.responses with
  | response :: rest => (response, { c with responses := rest })
  | [] => (.values (scopes.map c.valueOf), c)

end ScriptedClient

/-- A settings cache with a scripted client and a clock that moves only when told. Requests are known by numbers. -/
structure SettingsRehearsal where
  window : Nat
  clock : Nat := 0
  cache : SettingsCache Nat := {}
  client : ScriptedClient := {}
  resolved : List (Nat × SettingsOutcome) := []
  calls : List (List String) := []

namespace SettingsRehearsal

/-- Answers one fetch. -/
def answer (r : SettingsRehearsal) (batch : Batch) : SettingsRehearsal :=
  let (response, client) := r.client.respond batch.scopes
  let (cache, answers) := r.cache.answer batch.id response
  { r with client := client, cache := cache, resolved := r.resolved ++ answers }

/-- Answers the fetches under way, unless the client holds back. -/
def settle (r : SettingsRehearsal) : SettingsRehearsal :=
  if r.client.holding then r else r.cache.inFlight.foldl answer r

/-- Asks for the settings of a scope. -/
def get (r : SettingsRehearsal) (request : Nat) (scope : String) : SettingsRehearsal :=
  let (cache, outcome) := r.cache.get request scope (r.clock + r.window)
  let resolved :=
    match outcome with
    | some outcome => [(request, outcome)]
    | none => []
  { r with cache := cache, resolved := r.resolved ++ resolved }

/-- Closes the window that is due, if one is. -/
def closeDue (r : SettingsRehearsal) : SettingsRehearsal :=
  match r.cache.openBatch with
  | some batch =>
    if batch.due ≤ r.clock then { r with cache := r.cache.closeWindow batch.id, calls := r.calls ++ [batch.scopes] }.settle
    else r
  | none => r

/-- Moves the clock. -/
def advance (r : SettingsRehearsal) (ms : Nat) : SettingsRehearsal := { r with clock := r.clock + ms }.closeDue

/-- Ends the cache. -/
def shutdown (r : SettingsRehearsal) : SettingsRehearsal :=
  let (cache, answers) := r.cache.shutdown
  { r with cache := cache, resolved := r.resolved ++ answers }

end SettingsRehearsal

end RubyServer.Rehearsal
