import CausalReplica.Container
import CausalReplica.Numeral
import CausalReplica.Text.Quoted

/-!
# What can go wrong

Each error names its cause with the values it is about; `Error.message` is the one place that
puts it into words.
-/

namespace CausalReplica

/-- A caller-supplied number that an operation carries in a word. -/
inductive Measure where
  | position
  | length
  deriving DecidableEq, Repr

def Measure.name : Measure → String
  | .position => "position"
  | .length => "length"

/-- Why something is refused in the present state. -/
inductive StateFault where
  | emptyChange
  | zeroLengthOp
  | opTooLong (id : OpId)
  | counterOverflow (peer : Peer)
  | noLamportRoom (lamport atoms : Nat)
  | lamportOverflow (id : OpId)
  | vectorDisagrees (peer : Peer)
  | vectorListsUnknownPeers
  | frontiersAreNotHeads
  | wrongKind (container : ContainerId) (wanted : Kind)
  | ambiguousRoot (name : String)
  | outOfRange (what : Measure) (n : Nat)
  | ownHistory (peer : Peer)
  | foreignHistory (peer : Peer)
  deriving DecidableEq, Repr

/-- What was sought in vain. -/
inductive Absent where
  | change (id : OpId)
  | op (id : OpId)
  | version (id : OpId)
  | container (text : String)
  deriving DecidableEq, Repr

/-- Why a text or a batch of bytes cannot be read. -/
inductive DecodeFault where
  | badPeer (text : String) (fault : Numeral.Fault)
  | badKind (text : String)
  | badContainer (text : String)
  | notABatch
  | formatVersion (version : Nat)
  | malformedBody
  | emptyChange (id : OpId)
  | opTooLong (id : OpId)
  | zeroLengthOp (id : OpId)
  | counterOverflow (peer : Peer)
  | lamportOverflow (lamport : Nat) (id : OpId)
  deriving DecidableEq, Repr

inductive Error where
  | invalidState (fault : StateFault)
  | danglingDependency (id : OpId)
  | notFound (what : Absent)
  | invalidLamport (id : OpId) (lamport expected : Nat)
  /-- The counters of a peer do not continue where its earlier ones stopped. -/
  | corruptVersion (peer : Peer) (expected found : Nat)
  | concurrent
  | decode (fault : DecodeFault)
  deriving DecidableEq, Repr

def StateFault.message : StateFault → String
  | .emptyChange => "cannot append an empty change"
  | .zeroLengthOp => "ops must occupy at least one counter"
  | .opTooLong id => "op at " ++ id.toText ++ " is too long"
  | .counterOverflow peer => "counter overflow for peer " ++ peer.toText
  | .noLamportRoom lamport atoms =>
    "lamport " ++ Nat.repr lamport ++ " leaves no room for " ++ Nat.repr atoms ++ " ops"
  | .lamportOverflow id => "lamport range of change " ++ id.toText ++ " overflows"
  | .vectorDisagrees peer => "version vector disagrees with log for peer " ++ peer.toText
  | .vectorListsUnknownPeers => "version vector lists unknown peers"
  | .frontiersAreNotHeads => "frontiers are not the heads of the log"
  | .wrongKind container wanted =>
    "container " ++ container.toText ++ " is a " ++ container.kind.name ++ ", not a " ++ wanted.name
  | .ambiguousRoot name =>
    "root name " ++ Text.quoted name ++ " is used by several container kinds"
  | .outOfRange what n => what.name ++ " " ++ Nat.repr n ++ " does not fit in u32"
  | .ownHistory peer => "peer " ++ peer.toText ++ " already has local history"
  | .foreignHistory peer => "peer " ++ peer.toText ++ " already has history in this document"

def Absent.message : Absent → String
  | .change id => "no change contains op " ++ id.toText
  | .op id => "op " ++ id.toText ++ " is not in the change log"
  | .version id => "version " ++ id.toText ++ " is not in the change log"
  | .container text => "container " ++ text

def DecodeFault.message : DecodeFault → String
  | .badPeer text fault => "invalid peer id " ++ Text.quoted text ++ ": " ++ fault.message
  | .badKind text => "unknown container type " ++ Text.quoted text
  | .badContainer text => "malformed container id " ++ Text.quoted text
  | .notABatch => "not a change batch"
  | .formatVersion version => "unsupported format version " ++ Nat.repr version
  | .malformedBody => "malformed body"
  | .emptyChange id => "change " ++ id.toText ++ " carries no ops"
  | .opTooLong id => "op at " ++ id.toText ++ " is too long"
  | .zeroLengthOp id => "zero-length op at " ++ id.toText
  | .counterOverflow peer => "counter overflow for peer " ++ peer.toText
  | .lamportOverflow lamport id =>
    "lamport " ++ Nat.repr lamport ++ " of change " ++ id.toText ++ " overflows"

def Error.message : Error → String
  | .invalidState fault => "invalid state: " ++ fault.message
  | .danglingDependency id => "dependency " ++ id.toText ++ " is not present in the change log"
  | .notFound what => "not found: " ++ what.message
  | .invalidLamport id lamport expected =>
    "change " ++ id.toText ++ " carries lamport " ++ Nat.repr lamport ++ ", expected at least "
      ++ Nat.repr expected
  | .corruptVersion peer expected found =>
    "counters for peer " ++ peer.toText ++ " are not contiguous: expected " ++ Nat.repr expected
      ++ ", found " ++ Nat.repr found
  | .concurrent => "versions are concurrent"
  | .decode fault => "decode error: " ++ fault.message

end CausalReplica
