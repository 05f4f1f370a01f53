import RubyServer.Registry
import RubyServer.Table

/-!
# Scripted observers

Observers that react to a call by a script: they subscribe others, end subscriptions, or dispatch an event of their own.
Observers go by names; a name stands for the last subscription made under it. Events that come from an observer are
marked, and an observer called with a marked event dispatches nothing further.
-/

namespace RubyServer.Rehearsal

/-- What an observer does when it is called. -/
inductive Reaction where
  | subscribe (name : String)
  | unsubscribe (name : String)
  | clear
  | dispatch (event : String)
  deriving DecidableEq, Repr

/-- An observer with its script. -/
structure Listener where
  name : String
  reactions : List Reaction
  deriving DecidableEq, Repr

/-- Observers under names, and the calls made so far. -/
structure Board where
  registry : Registry Listener := {}
  ids : Table String Nat := ∅
  calls : List (String × String) := []

namespace Board

/-- Subscribes an observer. -/
def subscribe (b : Board) (listener : Listener) : Board :=
  let (registry, id) := b.registry.subscribe listener
  { b with registry := registry, ids := b.ids.insert listener.name id }

/-- Whether the last subscription under a name is in force; `none` if there never was one. -/
def isSubscribed? (b : Board) (name : String) : Option Bool := (b.ids.get? name).map b.registry.isSubscribed

/-- Ends the last subscription under a name. -/
def unsubscribe (b : Board) (name : String) : Board :=
  match b.ids.get? name with
  | some id => { b with registry := b.registry.unsubscribe id }
  | none => b

/-- Ends all subscriptions. -/
def clear (b : Board) : Board := { b with registry := b.registry.clear }

/-- The mark of events that come from an observer. -/
def isMarked (event : String) : Bool := event.toList.head? == some '>'

/-- Calls an observer: the call is noted, then the script is carried out. Dispatches nest at most `depth` deep. -/
def notify : Nat → String → Listener → Board → Board
  | 0, _, _, b => b
  | depth + 1, event, listener, b =>
    listener.reactions.foldl
      (fun b reaction =>
        match reaction with
        | .subscribe name => b.subscribe ⟨name, []⟩
        | .unsubscribe name => b.unsubscribe name
        | .clear => b.clear
        | .dispatch e =>
          if isMarked event then b else (Registry.dispatch registry (notify depth (">" ++ e)) b).1)
      { b with calls := b.calls ++ [(listener.name, event)] }

/-- Dispatches an event; gives the number of observers it called. A marked event is the last of a nest, so two levels
are enough. -/
def dispatch (b : Board) (event : String) : Board × Nat := Registry.dispatch registry (notify 2 event) b

end Board

end RubyServer.Rehearsal
