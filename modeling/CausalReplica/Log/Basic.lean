import CausalReplica.Error
import CausalReplica.Log.Pending
import CausalReplica.Ordered.Search
import CausalReplica.Version.Vector

/-!
# The change log

A log holds every change a replica knows, for each peer in counter order, so an id is also the
address of its operation. Version vector, frontiers and clock are kept along with each insertion.
Changes that cannot enter yet are buffered beside it.

A new change takes the counters right after its peer's last operation and a Lamport time past its
parents. Nothing enters the log unless its dependencies are known and its counters and Lamport
times fit.
-/

namespace CausalReplica

structure LamportClock where
  next : Nat := 0
  deriving DecidableEq, Repr, Inhabited

namespace LamportClock

/-- Takes note of operations with Lamport times below `stop`. -/
def observe (clock : LamportClock) (stop : Nat) : LamportClock := ⟨max clock.next stop⟩

/-- One past the latest parent; zero without parents. It stays at the top of the word range. -/
def assign (parents : List Nat) : Nat :=
  (parents.map fun lamport => Word.clamp (lamport + 1)).foldl max 0

theorem foldl_max_le_iff {xs : List Nat} {acc n : Nat} :
    xs.foldl max acc ≤ n ↔ acc ≤ n ∧ ∀ x ∈ xs, x ≤ n := by
  induction xs generalizing acc with
  | nil => simp
  | cons x xs ih => simp only [List.foldl_cons, ih, Nat.max_le, List.forall_mem_cons, and_assoc]

/-- The assigned time is the least one past every parent. -/
theorem assign_le_iff {parents : List Nat} {n : Nat} :
    assign parents ≤ n ↔ ∀ lamport ∈ parents, Word.clamp (lamport + 1) ≤ n := by
  simp [assign, foldl_max_le_iff]

end LamportClock

structure ChangeLog where
  changes : OrdMap Peer (List Change)
  vv : VersionVector
  frontiers : Frontiers
  clock : LamportClock
  pending : PendingChanges
  deriving DecidableEq, Inhabited

namespace Change

/-- An order in which every change comes after its parents: by Lamport time, then peer, then
counter. -/
def causalKeyLe (c d : Change) : Bool :=
  ((compare c.lamport d.lamport).then ((compare c.peer d.peer).then (compare c.start d.start))).isLE

end Change

namespace ChangeLog

def empty : ChangeLog := ⟨.empty, .empty, .empty, ⟨0⟩, .empty⟩

/-- The first Lamport time past every operation of the log. -/
def nextLamport (log : ChangeLog) : Nat := log.clock.next

def contains (log : ChangeLog) (id : OpId) : Bool := log.vv.includes id

/-- The counter at which the next change of `p` starts. -/
def nextCounter (log : ChangeLog) (p : Peer) : Nat := log.vv.get p

def isEmpty (log : ChangeLog) : Bool := log.changes.isEmpty

/-- The changes of one peer in counter order. -/
def changesOf (log : ChangeLog) (p : Peer) : List Change := log.changes.findD p []

def allChanges (log : ChangeLog) : List Change := log.changes.values.flatten

/-- The first change of the peer that ends past the counter, if the operation lies in it. -/
def find? (log : ChangeLog) (id : OpId) : Option Change :=
  (Ordered.firstFailing? (fun c => c.stop ≤ id.counter) (log.changesOf id.peer)).filter
    (·.contains id)

def get (log : ChangeLog) (id : OpId) : Except Error Change :=
  match log.find? id with
  | some c => .ok c
  | none => .error (.notFound (.change id))

/-- The operations of the change that contains `id`. -/
def opsAround (log : ChangeLog) (id : OpId) : Except Error (List Op) := (log.get id).map (·.ops)

def lamportOf? (log : ChangeLog) (id : OpId) : Option Nat :=
  (log.find? id).map (·.lamportOf id.counter)

/-- The places, among the changes of the span's peer, from the first change that ends past the start
of the span on, and before the first that starts at its end or later. -/
def placesIn (log : ChangeLog) (span : IdSpan) : Nat × Nat :=
  Ordered.cuts (fun c => c.stop ≤ span.start) (fun c => c.start < span.stop)
    (log.changesOf span.peer)

/-- The changes at these places. -/
def changesIn (log : ChangeLog) (span : IdSpan) : List Change :=
  (log.changesOf span.peer).extract (log.placesIn span).1 (log.placesIn span).2

/-- The Lamport times of operations that must be in the log. -/
def parentLamports (log : ChangeLog) : List OpId → Except Error (List Nat)
  | [] => .ok []
  | id :: ids =>
    match log.lamportOf? id with
    | none => .error (.danglingDependency id)
    | some lamport => (log.parentLamports ids).map (lamport :: ·)

/-- The Lamport time a new change of `p` with these dependencies gets. -/
def assignLamport (log : ChangeLog) (p : Peer) (deps : Frontiers) : Except Error Nat :=
  (log.parentLamports (deps.ids ++ (OpId.prev ⟨p, log.nextCounter p⟩).toList)).map
    LamportClock.assign

/-- Puts a change that continues its peer's history into the log. -/
def insert (log : ChangeLog) (c : Change) : ChangeLog :=
  { log with
    changes := log.changes.insert c.peer (log.changesOf c.peer ++ [c])
    vv := log.vv.setEnd c.peer c.stop
    frontiers := (c.parents.foldl Frontiers.erase log.frontiers).insert c.lastId
    clock := log.clock.observe c.lamportEnd }

/-- The operations `v` does not cover, as changes in causal order. -/
def changesSince (log : ChangeLog) (v : VersionVector) : List Change :=
  ((log.vv.missingFrom v).flatMap fun span =>
    (log.changesIn span).map (·.sliceFrom span.start)).mergeSort Change.causalKeyLe

def changesSince? (log : ChangeLog) (v : VersionVector) : Option (List Change) := do
  let parts ← (log.vv.missingFrom v).mapM fun span =>
    (log.changesIn span).mapM (·.sliceFrom? span.start)
  return parts.flatten.mergeSort Change.causalKeyLe

def changesInCausalOrder (log : ChangeLog) : List Change :=
  log.allChanges.mergeSort Change.causalKeyLe

theorem insert_pending (log : ChangeLog) (c : Change) : (log.insert c).pending = log.pending := rfl

theorem insert_vv (log : ChangeLog) (c : Change) :
    (log.insert c).vv = log.vv.setEnd c.peer c.stop := rfl

end ChangeLog

def LayoutFault.stateFault (p : Peer) : LayoutFault → StateFault
  | .tooLong counter => .opTooLong ⟨p, counter⟩
  | .noAtoms _ => .zeroLengthOp
  | .overflow => .counterOverflow p

namespace ChangeLog

/-- The change that `append` records. -/
def nextChange (log : ChangeLog) (p : Peer) (items : List (ContainerId × Content))
    (deps : Frontiers) (timestamp : Int) : Except Error Change :=
  if items.isEmpty then .error (.invalidState .emptyChange)
  else if items.any fun item => item.2.atoms = 0 then .error (.invalidState .zeroLengthOp)
  else do
    let lamport ← log.assignLamport p deps
    let start := log.nextCounter p
    let (ops, stop) ←
      (Op.layOut start items).mapError fun fault => .invalidState (fault.stateFault p)
    if lamport + (stop - start) ≤ Word.top then
      return { id := ⟨p, start⟩, lamport, deps, timestamp, ops }
    else
      throw (.invalidState (.noLamportRoom lamport (stop - start)))

def append (log : ChangeLog) (p : Peer) (items : List (ContainerId × Content))
    (deps : Frontiers) (timestamp : Int) : Except Error (ChangeLog × Change) :=
  (log.nextChange p items deps timestamp).map fun c => (log.insert c, c)

end ChangeLog

end CausalReplica
