import RubyServer.Registry
import RubyServer.Store

/-!
# An observed store

A document store whose events go to observers. An observer notes the event and the version it finds in the store, then
ends the subscriptions its script names.
-/

namespace RubyServer.Rehearsal

/-- An observer of documents: its name, and the observers it removes when called. -/
structure Watcher where
  name : String
  removes : List String
  deriving DecidableEq, Repr

/-- What an observer saw. -/
structure Sighting where
  observer : String
  event : DocumentEvent
  stored : Option Int
  deriving DecidableEq, Repr

/-- A store with observers under names. -/
structure ObservedStore where
  store : Store
  registry : Registry Watcher := {}
  ids : Table String Nat := ∅
  sightings : List Sighting := []

namespace ObservedStore

/-- Subscribes an observer. -/
def subscribe (o : ObservedStore) (watcher : Watcher) : ObservedStore :=
  let (registry, id) := o.registry.subscribe watcher
  { o with registry := registry, ids := o.ids.insert watcher.name id }

/-- Whether the last subscription under a name is in force; `none` if there never was one. -/
def isSubscribed? (o : ObservedStore) (name : String) : Option Bool := (o.ids.get? name).map o.registry.isSubscribed

/-- Ends the last subscription under a name. -/
def unsubscribe (o : ObservedStore) (name : String) : ObservedStore :=
  match o.ids.get? name with
  | some id => { o with registry := o.registry.unsubscribe id }
  | none => o

/-- Calls an observer. -/
def notify (event : DocumentEvent) (watcher : Watcher) (o : ObservedStore) : ObservedStore :=
  watcher.removes.foldl unsubscribe
    { o with sightings := o.sightings ++ [⟨watcher.name, event, o.store.version? event.uri⟩] }

/-- Takes in a new store and dispatches the event that led to it. -/
def commit (o : ObservedStore) (store : Store) (event : DocumentEvent) : ObservedStore :=
  (Registry.dispatch registry (notify event) { o with store := store }).1

/-- Opens a document. -/
def openItem (o : ObservedStore) (item : DocumentItem) : ObservedStore × Option DocumentError :=
  match o.store.openItem item with
  | .ok (store, event) => (o.commit store event, none)
  | .error e => (o, some e)

/-- Changes a document. -/
def change (o : ObservedStore) (uri : Uri) (changes : List Change) (version : Int) :
    ObservedStore × Option DocumentError :=
  match o.store.change uri changes version with
  | .ok (store, event) => (o.commit store event, none)
  | .error e => (o, some e)

/-- Closes a document; tells whether it was open. -/
def close (o : ObservedStore) (uri : Uri) : ObservedStore × Bool :=
  match o.store.close uri with
  | some (store, event) => (o.commit store event, true)
  | none => (o, false)

end ObservedStore

end RubyServer.Rehearsal
