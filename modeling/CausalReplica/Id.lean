/-!
# Peers, operation ids and id spans

An operation is named by the peer that issued it and its place among that peer's operations,
counted from zero. Ids are ordered by peer, then by counter.

A set of ids given as spans in any order, some touching or overlapping, has one form in which
spans are sorted and no two of one peer touch.
-/

namespace CausalReplica

open Std (TransOrd LawfulEqOrd TransCmp LawfulEqCmp)

/-- The identity of a replica. -/
structure Peer where
  number : UInt64
  deriving DecidableEq, Repr, Inhabited

namespace Peer

instance : Ord Peer := ⟨compareOn Peer.number⟩

instance : TransOrd Peer := inferInstanceAs (TransCmp (compareOn Peer.number))

instance : LawfulEqOrd Peer where
  compare_self := Std.ReflOrd.compare_self
  eq_of_compare {a b} h := by
    have : a.number = b.number := LawfulEqOrd.eq_of_compare h
    cases a; cases b; simp_all

/-- The decimal numeral of the peer. -/
def toText (p : Peer) : String := Nat.repr p.number.toNat

end Peer

/-- The name of one operation. -/
structure OpId where
  peer : Peer
  counter : Nat
  deriving DecidableEq, Repr, Inhabited

namespace OpId

theorem ext {a b : OpId} (hp : a.peer = b.peer) (hc : a.counter = b.counter) : a = b := by
  cases a
  exact congr (congrArg mk hp) hc

instance : Ord OpId := ⟨compareLex (compareOn OpId.peer) (compareOn OpId.counter)⟩

instance : TransOrd OpId :=
  inferInstanceAs (TransCmp (compareLex (compareOn OpId.peer) (compareOn OpId.counter)))

theorem compare_eq (a b : OpId) :
    compare a b = (compare a.peer b.peer).then (compare a.counter b.counter) := rfl

instance : LawfulEqOrd OpId where
  compare_self := Std.ReflOrd.compare_self
  eq_of_compare {a b} h := by
    rw [compare_eq, Ordering.then_eq_eq] at h
    exact ext (LawfulEqOrd.eq_of_compare h.1) (LawfulEqOrd.eq_of_compare h.2)

/-- The operation the same peer issued right before this one. -/
def prev (id : OpId) : Option OpId :=
  match id.counter with
  | 0 => none
  | n + 1 => some ⟨id.peer, n⟩

/-- The counter, an at sign and the peer. -/
def toText (id : OpId) : String := Nat.repr id.counter ++ "@" ++ id.peer.toText

end OpId

/-- The counters `start ≤ c < stop` of one peer. -/
structure IdSpan where
  peer : Peer
  start : Nat
  stop : Nat
  deriving DecidableEq, Repr, Inhabited

namespace IdSpan

def length (s : IdSpan) : Nat := s.stop - s.start

def isEmpty (s : IdSpan) : Bool := s.stop ≤ s.start

def contains (s : IdSpan) (id : OpId) : Bool :=
  id.peer = s.peer && s.start ≤ id.counter && id.counter < s.stop

/-- Spans are sorted by peer, then by start. -/
def startsBy (s t : IdSpan) : Bool :=
  ((compare s.peer t.peer).then (compare s.start t.start)).isLE

/-- Extends `s` by the spans after it as long as they touch it. -/
def join (s : IdSpan) : List IdSpan → List IdSpan
  | [] => [s]
  | t :: rest =>
    if s.peer = t.peer ∧ t.start ≤ s.stop then join { s with stop := max s.stop t.stop } rest
    else s :: join t rest

def joinAll : List IdSpan → List IdSpan
  | [] => []
  | s :: rest => join s rest

def coalesce (spans : List IdSpan) : List IdSpan := joinAll (spans.mergeSort startsBy)

end IdSpan

end CausalReplica
