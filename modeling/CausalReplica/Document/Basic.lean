import CausalReplica.Event
import CausalReplica.Log.History
import CausalReplica.Log.Import
import CausalReplica.Registry

/-!
# Documents

A document is one replica: its log, the containers it knows, the operations recorded since the last
commit and the observers. An operation gets its counter when it is recorded; a commit seals the
recorded operations into one change.

Versions of a document are compared as vectors or as heads. Heads are asked for in a three-way form,
which concurrent versions do not have: these are an error, never an order.
-/

namespace CausalReplica

structure Config where
  /-- The peer to start with; one is drawn when there is none. -/
  peer : Option Peer := none
  /-- Whether committed changes carry the time of the commit. -/
  recordTimestamp : Bool := false
  deriving DecidableEq, Repr, Inhabited

/-- The operations recorded since the last commit. -/
structure Transaction where
  items : List (ContainerId × Content) := []
  /-- The counters they occupy. -/
  length : Nat := 0
  deriving DecidableEq, Repr, Inhabited

structure Document where
  peer : Peer
  config : Config
  log : ChangeLog
  registry : Registry
  txn : Transaction
  observers : Observers
  deriving DecidableEq, Inhabited

namespace Document

/-- An empty document. The peer `drawn` is used when the configuration names none. -/
def ofConfig (config : Config) (drawn : Peer) : Document :=
  { peer := config.peer.getD drawn, config, log := .empty, registry := .empty, txn := {}
    observers := {} }

/-- Changes the peer, as long as nothing is recorded under the present one, and the new one has no
history here. -/
def setPeer (d : Document) (p : Peer) : Except Error Document :=
  if !(d.log.changesOf d.peer).isEmpty || !d.txn.items.isEmpty then
    .error (.invalidState (.ownHistory d.peer))
  else if !(d.log.changesOf p).isEmpty then .error (.invalidState (.foreignHistory p))
  else .ok { d with peer := p }

def register (d : Document) (id : ContainerId) : Document :=
  { d with registry := d.registry.register id }

def root (d : Document) (name : String) (kind : Kind) : Document × Handle kind :=
  (d.register (.root name kind), .root name kind)

def record (d : Document) (container : ContainerId) (content : Content) :
    Except Error (Document × OpId) :=
  if !d.registry.contains container then .error (.notFound (.container container.toText))
  else
    let overflow := .error (.invalidState (.counterOverflow d.peer))
    match content.checkedAtoms with
    | none => overflow
    | some atoms =>
      let counter := d.log.nextCounter d.peer + d.txn.length
      if Word.top < counter + atoms then overflow
      else
        let op : Op := ⟨counter, container, content⟩
        let registered :=
          match op.created? d.peer with
          | some child => d.register child
          | none => d
        .ok
          ({ registered with
              txn := ⟨d.txn.items ++ [(container, content)], d.txn.length + atoms⟩ },
            ⟨d.peer, counter⟩)

def emit (d : Document) (event : VersionEvent) : Document :=
  { d with observers := d.observers.emit event }

/-- Seals the recorded operations into one change that depends on the whole log, made at the time
`now`. The operations leave the transaction whether or not the change can be recorded. -/
def commit (d : Document) (origin : Option String) (now : Int) : Document × Except Error Unit :=
  if d.txn.items.isEmpty then (d, .ok ())
  else
    let timestamp := if d.config.recordTimestamp then now else 0
    let emptied := { d with txn := {} }
    match d.log.append d.peer d.txn.items d.log.frontiers timestamp with
    | .error error => (emptied, .error error)
    | .ok (log, _) =>
      let event : VersionEvent :=
        { before := d.log.frontiers
          after := log.frontiers
          isLocal := true
          origin
          containers := Ordered.ofList (d.txn.items.map (·.1)) }
      ({ emptied with log }.emit event, .ok ())

def subscribe (d : Document) (container : Option ContainerId) (once : Bool) : Document × Nat :=
  let (observers, id) := d.observers.subscribe container once
  ({ d with observers }, id)

def unsubscribe (d : Document) (id : Nat) : Document × Bool :=
  let (observers, found) := d.observers.unsubscribe id
  ({ d with observers }, found)

def drain (d : Document) : List Delivery × Document :=
  let (deliveries, observers) := d.observers.drain
  (deliveries, { d with observers })

end Document

def CausalOrder.threeWay (o : CausalOrder) : Except Error Ordering :=
  match o.toOrdering? with
  | some ordering => .ok ordering
  | none => .error .concurrent

namespace Document

def compareVersion (d : Document) (v : VersionVector) : CausalOrder := d.log.vv.compare v

/-- The order of this replica's heads and others, which may name unknown operations. -/
def compareHeads (d : Document) (f : Frontiers) : Except Error Ordering := do
  (← d.log.compareWithFrontiers f).threeWay

/-- The order of two sets of heads that this replica knows. -/
def compareHeadsOf (d : Document) (f g : Frontiers) : Except Error Ordering := do
  (← d.log.compareFrontiers f g).threeWay

end Document

end CausalReplica
