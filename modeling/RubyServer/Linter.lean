import RubyServer.Forest
import RubyServer.Notice
import RubyServer.Settings

/-!
# Lint runs under way

A document that changes is linted after a pause in the typing. Each time it is scheduled a run starts in the lane of the
document: the lane counts its runs by generations and holds the token of the run that is under way in it, and a run that
starts cancels the one before it. Forgetting a document takes its lane away and cancels the run in it; the next run for
the document starts in a new lane, whose generations begin anew. Stopping the linter cancels all runs.

A run waits for the pause to be over, then for settings, then lints, then is delivered: if it was not cancelled, if its
generation is still the one of the lane it started in, and if no later version was delivered from that lane.
-/

namespace RubyServer

/-- The number of a run, which is also that of its token. No two runs have the same. -/
abbrev Ticket := Nat

/-- The number of a lane. -/
abbrev LaneId := Nat

/-- How far a run has come. -/
inductive Stage where
  /-- Waits for the pause to be over. -/
  | debouncing (due : Nat)
  /-- Waits for settings. -/
  | awaitingSettings
  /-- About to lint. -/
  | linting (settings : Settings)
  /-- About to be delivered. -/
  | linted (result : LintResult)
  deriving DecidableEq, Repr

/-- A lint of one version of a document, and the lane and generation it was started under. -/
structure Run where
  ticket : Ticket
  lane : LaneId
  generation : UInt64
  uri : Uri
  version : Int
  stage : Stage
  deriving DecidableEq, Repr

/-- What is remembered about a document: how many runs were started, the version scheduled and the one delivered last,
and the token of the run under way. Generations are 64-bit words that start again from zero after the last: whether a run
is the latest is told by comparing two of them, so that it matters what becomes of them there. -/
structure Lane where
  generation : UInt64 := 0
  scheduled : Option Int := none
  delivered : Option Int := none
  token : Option Ticket := none
  deriving DecidableEq, Repr

/-- The runs under way. A lane that was taken from its document stays for the runs that were started in it. -/
structure Linter where
  lanes : Table LaneId Lane := ∅
  laneOf : Table Uri LaneId := ∅
  cancelled : List Ticket := []
  runs : List Run := []
  nextLane : LaneId := 0
  nextTicket : Ticket := 0
  stopped : Bool := false

/-- What a lint engine comes back with. -/
inductive LintOutcome where
  | found (diagnostics : List Diagnostic)
  | failed (error : LintError)
  | crashed
  deriving DecidableEq, Repr

/-- A lint engine. -/
abbrev Engine := ParsedDocument → Settings → LintOutcome

/-- The engine that runs the standard rules. -/
def Engine.standard : Engine := fun tree settings =>
  match settings.diagnose tree.source with
  | .ok found => .found found
  | .error e => .failed e

namespace Linter

/-- The run with a ticket. -/
def run? (l : Linter) (ticket : Ticket) : Option Run := l.runs.find? fun r => r.ticket == ticket

/-- A lane; one that was never used is as new. -/
def lane (l : Linter) (id : LaneId) : Lane := (l.lanes.get? id).getD {}

/-- Whether a run was cancelled. -/
def isCancelled (l : Linter) (ticket : Ticket) : Bool := l.stopped || l.cancelled.contains ticket

/-- The version of a document that was delivered last. -/
def lastDelivered? (l : Linter) (uri : Uri) : Option Int := (l.laneOf.get? uri).bind fun id => (l.lane id).delivered

/-- The lane of a document, a new one if it has none. -/
def enter (l : Linter) (uri : Uri) : Linter × LaneId :=
  match l.laneOf.get? uri with
  | some id => (l, id)
  | none => ({ l with laneOf := l.laneOf.insert uri l.nextLane, nextLane := l.nextLane + 1 }, l.nextLane)

/-- Cancels the run under way in a lane, if there is one. -/
def cancelIn (l : Linter) (id : LaneId) : Linter :=
  { l with
    cancelled := (l.lane id).token.toList ++ l.cancelled
    lanes := l.lanes.insert id { l.lane id with token := none } }

/-- Starts a run in a lane, as the next generation. -/
def start (l : Linter) (id : LaneId) (uri : Uri) (version : Int) (due : Nat) : Linter :=
  let lane := l.lane id
  let generation := lane.generation + 1
  { l with
    lanes := l.lanes.insert id
      { lane with generation := generation, scheduled := some version, token := some l.nextTicket }
    runs := l.runs ++ [⟨l.nextTicket, id, generation, uri, version, .debouncing due⟩]
    nextTicket := l.nextTicket + 1 }

/-- Schedules a version of a document, unless a later one has been scheduled or the linter was stopped. -/
def schedule (l : Linter) (uri : Uri) (version : Int) (due : Nat) : Linter :=
  if l.stopped then l
  else
    let (l, id) := l.enter uri
    if (l.lane id).scheduled.any fun scheduled => version < scheduled then l
    else (l.cancelIn id).start id uri version due

/-- Forgets a document and cancels the run for it. -/
def forget (l : Linter) (uri : Uri) : Linter :=
  match l.laneOf.get? uri with
  | some id => { l.cancelIn id with laneOf := l.laneOf.erase uri }
  | none => l

/-- Stops for good. -/
def stop (l : Linter) : Linter := { l with laneOf := ∅, stopped := true }

/-- Ends a run. -/
def drop (l : Linter) (ticket : Ticket) : Linter := { l with runs := l.runs.filter fun r => r.ticket != ticket }

/-- Moves a run on to a stage. -/
def moveTo (l : Linter) (ticket : Ticket) (stage : Stage) : Linter :=
  { l with runs := l.runs.map fun r => if r.ticket = ticket then { r with stage := stage } else r }

/-- Gives a run the settings it waits for. A run that was cancelled ends here. -/
def settle (l : Linter) (ticket : Ticket) (settings : Settings) : Linter :=
  if l.isCancelled ticket then l.drop ticket else l.moveTo ticket (.linting settings)

/-- The result of a run on the tree it was given. A tree of another version gives none, unless the engine crashed. -/
def resultOf (r : Run) (tree : ParsedDocument) : LintOutcome → Option LintResult
  | .crashed => some (.failure r.uri r.version "internal error in lint task")
  | .found found =>
    if tree.version = r.version then some ⟨r.uri, r.version, Notice.ofDiagnostics tree.source.text found⟩ else none
  | .failed e => if tree.version = r.version then some (.failure r.uri r.version e.message) else none

/-- Ends the linting of a run, which goes on with its result if there is one. -/
def finish (l : Linter) (r : Run) (tree : ParsedDocument) (outcome : LintOutcome) : Linter :=
  match resultOf r tree outcome with
  | some result => l.moveTo r.ticket (.linted result)
  | none => l.drop r.ticket

/-- Delivers a run that has linted, if it still may be: once, and never a version before the one delivered last. -/
def deliver (l : Linter) (ticket : Ticket) : Linter × Option LintResult :=
  match l.run? ticket with
  | some r =>
    match r.stage with
    | .linted result =>
      let l := l.drop ticket
      let lane := l.lane r.lane
      if lane.generation != r.generation || l.isCancelled ticket then (l, none)
      else if lane.delivered.any fun delivered => result.version < delivered then (l, none)
      else
        ({ l with lanes := l.lanes.insert r.lane { lane with delivered := some result.version, token := none } },
          some result)
    | _ => (l, none)
  | none => (l, none)

end Linter

end RubyServer
