import RubyServer.Settings

/-!
# The settings cache

Settings are fetched from the client per scope and kept. A scope is absent, pending (it belongs to a batch that has not
been answered) or present. Requests for absent scopes within one window share a batch, which is fetched as a whole when
the window closes; a request for a pending scope waits for the batch that has it. A scope that is invalidated while
pending still answers those who wait for it, but is not kept.

Those who wait are values of any type: the cache hands them back with their answers.
-/

namespace RubyServer

/-- Why settings could not be had. -/
inductive FetchError where
  | transport (reason : String)
  | lengthMismatch (expected actual : Nat)
  | invalidSettings (scope : String)
  | cancelled
  deriving DecidableEq, Repr

/-- The wording of an error. Of settings that cannot be read it names the scope; what the reader has to say about them
would follow after a colon and is left out. -/
def FetchError.message : FetchError → String
  | .transport reason => s!"configuration request failed: {reason}"
  | .lengthMismatch expected actual =>
    s!"configuration response has {actual} items for {expected} requested scopes"
  | .invalidSettings scope => s!"invalid settings for {scope}"
  | .cancelled => "configuration request cancelled"

/-- What a client answers to a fetch: one value per scope, or an error. -/
inductive Response where
  | values (values : List Json)
  | failed (error : FetchError)
  deriving Repr, Inhabited

/-- The answer of a client that cannot be reached or does not want to. -/
def Response.refused (reason : String) : Response := .failed (.transport reason)

/-- Settings, or why there are none. -/
abbrev SettingsOutcome := Except FetchError Settings

/-- Scopes that are fetched together, in the order they were asked for, once the window closes. -/
structure Batch where
  id : Nat
  scopes : List String
  due : Nat
  deriving DecidableEq, Repr, Inhabited

/-- What the cache knows about a scope that is not absent. -/
inductive Entry where
  | pending (batch : Nat) (stale : Bool)
  | present (settings : Settings)
  deriving DecidableEq, Repr

/-- Someone who waits for a scope of a batch. -/
structure Waiter (ω : Type) where
  batch : Nat
  scope : String
  who : ω
  deriving DecidableEq, Repr

/-- What the cache shows about a scope. -/
inductive ScopeState where
  | absent
  | pending
  | present
  deriving DecidableEq, Repr

/-- The settings per scope, and the requests under way. Batches and fetches are counted without a bound: a 64-bit word
would not run over in the life of a server. -/
structure SettingsCache (ω : Type) where
  entries : Table String Entry := ∅
  openBatch : Option Batch := none
  inFlight : List Batch := []
  waiters : List (Waiter ω) := []
  nextBatch : Nat := 1
  fetches : Nat := 0
  shutDown : Bool := false

namespace SettingsCache

variable {ω : Type}

/-- What is known about a scope. -/
def state (c : SettingsCache ω) (scope : String) : ScopeState :=
  match c.entries.get? scope with
  | none => .absent
  | some (.pending _ _) => .pending
  | some (.present _) => .present

/-- Adds a scope to the open batch, opening one that is due at `due` if there is none; gives the batch's number. -/
def join (c : SettingsCache ω) (scope : String) (due : Nat) : SettingsCache ω × Nat :=
  match c.openBatch with
  | some batch => ({ c with openBatch := some { batch with scopes := batch.scopes ++ [scope] } }, batch.id)
  | none => ({ c with openBatch := some ⟨c.nextBatch, [scope], due⟩, nextBatch := c.nextBatch + 1 }, c.nextBatch)

/-- Lets someone wait for a scope of a batch. -/
def wait (c : SettingsCache ω) (batch : Nat) (scope : String) (who : ω) : SettingsCache ω :=
  { c with waiters := c.waiters ++ [⟨batch, scope, who⟩] }

/-- Asks for the settings of a scope. The answer comes at once, or later to the one who asks. -/
def get (c : SettingsCache ω) (who : ω) (scope : String) (due : Nat) : SettingsCache ω × Option SettingsOutcome :=
  if c.shutDown then (c, some (.error .cancelled))
  else
    match c.entries.get? scope with
    | some (.present settings) => (c, some (.ok settings))
    | some (.pending batch _) => (c.wait batch scope who, none)
    | none =>
      let (c, batch) := c.join scope due
      ({ c with entries := c.entries.insert scope (.pending batch false) }.wait batch scope who, none)

/-- Closes the window of a batch: it is fetched now. -/
def closeWindow (c : SettingsCache ω) (id : Nat) : SettingsCache ω :=
  match c.openBatch with
  | some batch =>
    if batch.id = id then
      { c with openBatch := none, inFlight := c.inFlight ++ [batch], fetches := c.fetches + 1 }
    else c
  | none => c

/-- The outcome for one scope of a value that the client gave for it. -/
def outcomeOf (scope : String) (value : Json) : SettingsOutcome :=
  match Settings.read? value with
  | some settings => .ok settings
  | none => .error (.invalidSettings scope)

/-- The outcome for each scope of a batch. -/
def outcomes (scopes : List String) : Response → List SettingsOutcome
  | .values values =>
    if values.length = scopes.length then List.zipWith outcomeOf scopes values
    else scopes.map fun _ => .error (.lengthMismatch scopes.length values.length)
  | .failed error => scopes.map fun _ => .error error

/-- Settles the entry of a scope: settings are kept unless they were invalidated meanwhile. -/
def settle (id : Nat) (entries : Table String Entry) (scope : String) (outcome : SettingsOutcome) : Table String Entry :=
  match entries.get? scope with
  | some (.pending batch stale) =>
    if batch = id then
      match outcome, stale with
      | .ok settings, false => entries.insert scope (.present settings)
      | _, _ => entries.erase scope
    else entries
  | _ => entries

/-- Those who wait for a scope of a batch. -/
def waitingFor (c : SettingsCache ω) (id : Nat) (scope : String) : List ω :=
  (c.waiters.filter fun w => w.batch == id && w.scope == scope).map Waiter.who

/-- Takes in the client's answer to the fetch of a batch, and gives the answers to those who waited. -/
def answer (c : SettingsCache ω) (id : Nat) (response : Response) : SettingsCache ω × List (ω × SettingsOutcome) :=
  match c.inFlight.find? fun batch => batch.id == id with
  | none => (c, [])
  | some batch =>
    let settled := batch.scopes.zip (outcomes batch.scopes response)
    ({ c with
        entries := settled.foldl (fun entries s => settle id entries s.1 s.2) c.entries
        inFlight := c.inFlight.filter fun batch => batch.id != id
        waiters := c.waiters.filter fun w => w.batch != id },
      settled.flatMap fun s => (c.waitingFor id s.1).map fun who => (who, s.2))

/-- Forgets the settings of a scope. -/
def invalidate (c : SettingsCache ω) (scope : String) : SettingsCache ω :=
  match c.entries.get? scope with
  | some (.pending batch _) => { c with entries := c.entries.insert scope (.pending batch true) }
  | some (.present _) => { c with entries := c.entries.erase scope }
  | none => c

/-- Forgets all settings. -/
def invalidateAll (c : SettingsCache ω) : SettingsCache ω := c.entries.keys.foldl invalidate c

/-- Ends the cache: those who wait get nothing, and neither does anyone later. -/
def shutdown (c : SettingsCache ω) : SettingsCache ω × List (ω × SettingsOutcome) :=
  if c.shutDown then (c, [])
  else
    ({ c with entries := ∅, openBatch := none, inFlight := [], waiters := [], shutDown := true },
      c.waiters.map fun w => (w.who, .error .cancelled))

end SettingsCache

end RubyServer
