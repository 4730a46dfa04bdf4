import CausalReplica.Container
import CausalReplica.Version.Frontiers

/-!
# Events and their observers

A commit or an import that adds to the log is an event. Each observer that wants it receives it
once, in the order of subscription.
-/

namespace CausalReplica

structure VersionEvent where
  before : Frontiers
  after : Frontiers
  /-- A commit, and not an import. -/
  isLocal : Bool
  /-- The label given with a commit. -/
  origin : Option String
  /-- The containers touched by the new changes, ascending. -/
  containers : List ContainerId
  deriving DecidableEq, Repr, Inhabited

structure Subscription where
  id : Nat
  /-- The container whose events are wanted; every event is when there is none. -/
  container : Option ContainerId
  /-- Ends with the first event received. -/
  once : Bool
  deriving DecidableEq, Repr, Inhabited

def Subscription.wants (s : Subscription) (event : VersionEvent) : Bool :=
  match s.container with
  | none => true
  | some id => (Ordered.search id event.containers).isOk

structure Delivery where
  subscriber : Nat
  event : VersionEvent
  deriving DecidableEq, Repr, Inhabited

structure Observers where
  nextId : Nat := 0
  subscriptions : List Subscription := []
  /-- What was delivered, the oldest first. -/
  delivered : List Delivery := []
  deriving DecidableEq, Repr, Inhabited

namespace Observers

def subscribe (o : Observers) (container : Option ContainerId) (once : Bool) : Observers × Nat :=
  ({ o with
      nextId := o.nextId + 1
      subscriptions := o.subscriptions ++ [⟨o.nextId, container, once⟩] }, o.nextId)

/-- Ends a subscription; tells whether there was one. -/
def unsubscribe (o : Observers) (id : Nat) : Observers × Bool :=
  ({ o with subscriptions := o.subscriptions.filter (·.id ≠ id) },
    o.subscriptions.any (·.id = id))

def emit (o : Observers) (event : VersionEvent) : Observers :=
  { o with
    subscriptions := o.subscriptions.filter fun s => !(s.wants event && s.once)
    delivered :=
      o.delivered ++ (o.subscriptions.filter (·.wants event)).map fun s => ⟨s.id, event⟩ }

/-- Hands out what was delivered since the last call. -/
def drain (o : Observers) : List Delivery × Observers := (o.delivered, { o with delivered := [] })

end Observers

end CausalReplica
