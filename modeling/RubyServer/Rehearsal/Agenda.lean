import RubyServer.Rehearsal.Client
import RubyServer.Workspace

/-!
# Agendas

What happens next by itself in a workspace whose client is scripted. What can happen without waiting comes first:
deliveries, lints, answers to fetches. Otherwise the earliest pause or window that falls due by a given time is over. A
rehearsal repeats this until nothing is left to do; the bound on the number of repetitions grows with what is under way.
-/

namespace RubyServer.Rehearsal

/-- Something that happens by itself. -/
inductive Task where
  | elapse (ticket : Ticket)
  | closeWindow (batch : Nat)
  | answer (batch : Batch)
  | lint (ticket : Ticket)
  | deliver (ticket : Ticket)

/-- What happens to a document while it is being linted. -/
inductive Interruption where
  | schedule (version : Int)
  | forget
  | stop
  | close
  | change (version : Int) (text : Text)

/-- Interruptions by the version of the tree that is being linted. Each entry is used once. -/
abbrev Interruptions := List (Int × List Interruption)

namespace Interruptions

/-- The interruptions for a version, and those left for later. -/
def take (version : Int) : Interruptions → List Interruption × Interruptions
  | [] => ([], [])
  | (v, interruptions) :: rest =>
    if v = version then (interruptions, rest)
    else
      let (found, left) := take version rest
      (found, (v, interruptions) :: left)

/-- The number of interruptions. -/
def count (interruptions : Interruptions) : Nat := (interruptions.flatMap fun i => i.2).length

end Interruptions

/-- The engine that crashes on texts with the word `panic` in them, fails on others with the word `fail`, and runs the
standard rules otherwise. -/
def faultyEngine : Engine := fun tree settings =>
  if Text.includes "panic".toList tree.source.text then .crashed
  else if Text.includes "fail".toList tree.source.text then .failed (.rule "broken" "cannot lint")
  else Engine.standard tree settings

namespace Agenda

/-- Carries out an interruption. -/
def interrupt (uri : Uri) (w : Workspace) : Interruption → Workspace
  | .schedule version => w.schedule uri version
  | .forget => w.forget uri
  | .stop => { w with linter := w.linter.stop }
  | .close => (w.close uri).1
  | .change version text => (w.change uri [⟨none, text⟩] version).1

/-- The task of a run that can go on at once. -/
def readyRun? (r : Run) : Option Task :=
  match r.stage with
  | .linted _ => some (.deliver r.ticket)
  | .linting _ => some (.lint r.ticket)
  | _ => none

/-- What can happen without waiting. A run that has linted is delivered before another one lints. -/
def ready? (holding : Bool) (w : Workspace) : Option Task :=
  let linted := w.linter.runs.filter fun r => match r.stage with | .linted _ => true | _ => false
  match (linted ++ w.linter.runs).findSome? readyRun? with
  | some task => some task
  | none => if holding then none else w.settings.inFlight.head?.map .answer

/-- The pauses and windows under way, with the times they are over. -/
def timers (w : Workspace) : List (Nat × Task) :=
  let pauses := w.linter.runs.filterMap fun r =>
    match r.stage with
    | .debouncing due => some (due, .elapse r.ticket)
    | _ => none
  let windows := w.settings.openBatch.toList.map fun batch => (batch.due, .closeWindow batch.id)
  pauses ++ windows

/-- The earliest of several timers; of those at the same time the first. -/
def earliest? : List (Nat × Task) → Option (Nat × Task)
  | [] => none
  | t :: rest =>
    match earliest? rest with
    | some other => if other.1 < t.1 then some other else some t
    | none => some t

/-- What happens next up to a given time, and when. -/
def next? (holding : Bool) (limit : Nat) (w : Workspace) : Option (Nat × Task) :=
  match ready? holding w with
  | some task => some (w.clock, task)
  | none => (earliest? (timers w)).filter fun t => t.1 ≤ limit

/-- The workspace at a later time. -/
def moveClock (w : Workspace) (time : Nat) : Workspace := { w with clock := max w.clock time }

/-- An upper bound on how much happens: a run takes part in at most six tasks, those of its batch included. -/
def bound (w : Workspace) (scripted : Nat) : Nat :=
  8 * (w.linter.runs.length + w.settings.inFlight.length + scripted + 2)

/-- Repeats a step as long as it leads on. -/
def repeatAtMost (step : σ → Option σ) : Nat → σ → σ
  | 0, s => s
  | n + 1, s =>
    match step s with
    | some s => repeatAtMost step n s
    | none => s

end Agenda

end RubyServer.Rehearsal
