/-!
# Observers

A registry of observers, called in the order in which they subscribed. An observer may change the registry while it is
being called: `Registry.dispatch` calls those that were subscribed when it began and still are when their turn comes.
-/

namespace RubyServer

/-- Observers by subscription number, in order of subscription. Numbers are never used again: they are counted without a
bound, for a 64-bit word would not run over in the life of a server. -/
structure Registry (κ : Type) where
  next : Nat := 1
  observers : List (Nat × κ) := []
  deriving Repr, Inhabited

namespace Registry

variable {κ σ : Type}

/-- Adds an observer and gives its subscription number. -/
def subscribe (r : Registry κ) (observer : κ) : Registry κ × Nat :=
  (⟨r.next + 1, r.observers ++ [(r.next, observer)]⟩, r.next)

/-- Whether a subscription is in force. -/
def isSubscribed (r : Registry κ) (id : Nat) : Bool := r.observers.any fun o => o.1 == id

/-- Ends a subscription. -/
def unsubscribe (r : Registry κ) (id : Nat) : Registry κ := { r with observers := r.observers.filter fun o => o.1 != id }

/-- Ends all subscriptions. -/
def clear (r : Registry κ) : Registry κ := { r with observers := [] }

/-- The number of observers. -/
def size (r : Registry κ) : Nat := r.observers.length

/-- A registry in one line. -/
def display (r : Registry κ) : String :=
  let observers := r.size
  "ObserverRegistry \x7b observers: " ++ toString observers ++ " \x7d"

/-- One turn of a dispatch: an observer is called, and counted, if it is still subscribed. -/
def turn (registry : σ → Registry κ) (call : κ → σ → σ) (progress : σ × Nat) (o : Nat × κ) : σ × Nat :=
  if (registry progress.1).isSubscribed o.1 then (call o.2 progress.1, progress.2 + 1) else progress

/-- Calls the observers of the registry inside a state, which a call may change, and counts the calls. -/
def dispatch (registry : σ → Registry κ) (call : κ → σ → σ) (s : σ) : σ × Nat :=
  (registry s).observers.foldl (turn registry call) (s, 0)

end Registry

end RubyServer
