import CausalReplica.Container
import CausalReplica.Word

/-!
# Content operations

An operation changes one container and occupies a run of counters, one for each atom: a character,
a value, a deleted element, or the operation as a whole. An operation with several atoms can be cut
between any two of them.

The operations of a change take consecutive runs of counters, each at least one. Laying them out
from a first counter fails when an operation is too long or has no atoms, or when the counters run
out.
-/

namespace CausalReplica

/-- A scalar, or a reference to a container. -/
inductive Value where
  | null
  | bool (b : Bool)
  | int (n : Int)
  | text (s : String)
  | container (id : ContainerId)
  deriving DecidableEq, Repr, Inhabited

inductive Content where
  | insertText (pos : Nat) (text : String)
  | insertValues (pos : Nat) (values : List Value)
  | delete (pos len : Nat)
  /-- Sets a map key, or clears it when there is no value. -/
  | setKey (key : String) (value : Option Value)
  /-- Creates the child container named after this operation. -/
  | createChild (kind : Kind)
  deriving DecidableEq, Repr, Inhabited

namespace Content

def atoms : Content → Nat
  | .insertText _ text => text.length
  | .insertValues _ values => values.length
  | .delete _ len => len
  | .setKey .. | .createChild _ => 1

def checkedAtoms (c : Content) : Option Nat := Word.checked c.atoms

/-- The part from the atom `offset` on. What follows a deleted element moves to its place, so the
rest of a deletion keeps its position. -/
def suffix (offset : Nat) : Content → Content
  | .insertText pos text =>
    .insertText (Word.wrap (pos + offset)) (String.ofList (text.toList.drop offset))
  | .insertValues pos values => .insertValues (Word.wrap (pos + offset)) (values.drop offset)
  | .delete pos len => .delete pos (len - offset)
  | single => single

/-- The same, if the position that an insertion moves to is a word. -/
def suffix? (offset : Nat) : Content → Option Content
  | .insertText pos text =>
    (Word.checked (pos + offset)).map fun moved =>
      .insertText moved (String.ofList (text.toList.drop offset))
  | .insertValues pos values =>
    (Word.checked (pos + offset)).map fun moved => .insertValues moved (values.drop offset)
  | single => some (single.suffix offset)

theorem atoms_suffix {c : Content} {offset : Nat} (h : offset < c.atoms) :
    (c.suffix offset).atoms = c.atoms - offset := by
  cases c <;> simp [suffix, atoms, ← String.length_toList] at * <;> omega

end Content

/-- A content operation at its place in the run of counters of its change. -/
structure Op where
  counter : Nat
  container : ContainerId
  content : Content
  deriving DecidableEq, Repr, Inhabited

namespace Op

/-- The counters occupied, at most a word of them. -/
def atoms (op : Op) : Nat := Word.clamp op.content.atoms

/-- The first counter after the operation. -/
def stop (op : Op) : Nat := Word.clamp (op.counter + op.atoms)

/-- The container that `peer` creates by this operation. -/
def created? (op : Op) (peer : Peer) : Option ContainerId :=
  match op.content with
  | .createChild kind => some (.child ⟨peer, op.counter⟩ kind)
  | _ => none

/-- The part of the operation from `counter` on. -/
def suffixFrom (counter : Nat) (op : Op) : Op :=
  { op with counter, content := op.content.suffix (counter - op.counter) }

def suffixFrom? (counter : Nat) (op : Op) : Option Op :=
  (op.content.suffix? (counter - op.counter)).map fun content => { op with counter, content }

end Op

inductive LayoutFault where
  /-- The operation at this counter has more atoms than there are counters. -/
  | tooLong (counter : Nat)
  /-- The operation at this counter has no atoms. -/
  | noAtoms (counter : Nat)
  | overflow
  deriving DecidableEq, Repr

namespace Op

/-- The operations with their counters from `counter` on, and the first counter after them. -/
def layOut (counter : Nat) : List (ContainerId × Content) → Except LayoutFault (List Op × Nat)
  | [] => .ok ([], counter)
  | (container, content) :: rest =>
    match content.checkedAtoms with
    | none => .error (.tooLong counter)
    | some 0 => .error (.noAtoms counter)
    | some atoms =>
      match Word.checked (counter + atoms) with
      | none => .error .overflow
      | some next => do
        let (ops, stop) ← layOut next rest
        return (⟨counter, container, content⟩ :: ops, stop)

end Op

end CausalReplica
