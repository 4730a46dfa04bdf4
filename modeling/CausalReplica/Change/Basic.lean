import CausalReplica.Change.Content
import CausalReplica.Version.Frontiers

/-!
# Changes

A change is a run of operations of one peer with one set of dependencies. Its atoms occupy
consecutive counters and consecutive Lamport times.
-/

namespace CausalReplica

structure Change where
  id : OpId
  lamport : Nat
  /-- The causal parents. The peer's own preceding operation may be left out. -/
  deps : Frontiers
  /-- Commit time in seconds; zero when times are not recorded. -/
  timestamp : Int
  ops : List Op
  deriving DecidableEq, Repr, Inhabited

/-- What there is to say about a change without its operations. -/
structure ChangeSummary where
  peer : Peer
  counter : Nat
  length : Nat
  lamport : Nat
  deps : Frontiers
  timestamp : Int
  deriving DecidableEq, Repr, Inhabited

namespace Change

def peer (c : Change) : Peer := c.id.peer

def start (c : Change) : Nat := c.id.counter

/-- The first counter after the change. -/
def stop (c : Change) : Nat :=
  match c.ops.getLast? with
  | some op => op.stop
  | none => c.start

def length (c : Change) : Nat := c.stop - c.start

def isEmpty (c : Change) : Bool := c.length = 0

def span (c : Change) : IdSpan := ⟨c.peer, c.start, c.stop⟩

def lastId (c : Change) : OpId := ⟨c.peer, c.stop - 1⟩

/-- The first Lamport time after the change. -/
def lamportEnd (c : Change) : Nat := c.lamport + c.length

def checkedLamportEnd (c : Change) : Option Nat := Word.checked c.lamportEnd

def contains (c : Change) (id : OpId) : Bool := c.span.contains id

/-- The Lamport time of the atom at `counter`. -/
def lamportOf (c : Change) (counter : Nat) : Nat := Word.wrap (c.lamport + (counter - c.start))

def lamportOf? (c : Change) (counter : Nat) : Option Nat :=
  if counter < c.start then none else Word.checked (c.lamport + (counter - c.start))

/-- Every operation the change depends on: its dependencies and the peer's preceding one. -/
def parents (c : Change) : List OpId := c.deps.ids ++ c.id.prev.toList

/-- The part of the change from `counter` on. It depends only on the operation right before it,
which is the same peer's. -/
def sliceFrom (c : Change) (counter : Nat) : Change :=
  if counter ≤ c.start then c
  else
    { id := ⟨c.peer, counter⟩
      lamport := c.lamportOf counter
      deps := .ofId ⟨c.peer, counter - 1⟩
      timestamp := c.timestamp
      ops := (c.ops.filter fun op => counter < op.stop).map fun op =>
        if op.counter < counter then op.suffixFrom counter else op }

def sliceFrom? (c : Change) (counter : Nat) : Option Change :=
  if counter ≤ c.start then some c
  else do
    let ops ← (c.ops.filter fun op => counter < op.stop).mapM fun op =>
      if op.counter < counter then op.suffixFrom? counter else some op
    let lamport ← c.lamportOf? counter
    return {
      id := ⟨c.peer, counter⟩
      lamport
      deps := .ofId ⟨c.peer, counter - 1⟩
      timestamp := c.timestamp
      ops }

def summary (c : Change) : ChangeSummary :=
  { peer := c.peer, counter := c.start, length := c.length, lamport := c.lamport, deps := c.deps,
    timestamp := c.timestamp }

end Change

end CausalReplica
