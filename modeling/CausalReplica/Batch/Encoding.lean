import CausalReplica.Batch.Varint
import CausalReplica.Change.Basic
import CausalReplica.Error
import CausalReplica.Id.Reader

/-!
# Records and their bytes

A record holds a change without the counters of its operations, which follow from its first
counter. A record read from elsewhere is checked before it becomes a change.

Each part of a record is written without padding or length of its own, one after the other; lists
and texts are preceded by their length, choices by their number. Beside each writer stands its
reader, which refuses anything that is out of range for its field.
-/

namespace CausalReplica.Batch

open Reader (byte)

structure Record where
  id : OpId
  lamport : Nat
  timestamp : Int
  deps : List OpId
  items : List (ContainerId × Content)
  deriving DecidableEq, Repr

def Record.ofChange (c : Change) : Record :=
  { id := c.id, lamport := c.lamport, timestamp := c.timestamp, deps := c.deps.ids
    items := c.ops.map fun op => (op.container, op.content) }

/-- What a fault in the layout means for a record of the peer. -/
def layoutFault (p : Peer) : LayoutFault → DecodeFault
  | .tooLong counter => .opTooLong ⟨p, counter⟩
  | .noAtoms counter => .zeroLengthOp ⟨p, counter⟩
  | .overflow => .counterOverflow p

/-- The change, if its counters and Lamport times fit. -/
def Record.toChange (r : Record) : Except DecodeFault Change :=
  if r.items.isEmpty then .error (.emptyChange r.id)
  else do
    let (ops, stop) ← (Op.layOut r.id.counter r.items).mapError (layoutFault r.id.peer)
    if r.lamport + (stop - r.id.counter) ≤ Word.top then
      return {
        id := r.id
        lamport := r.lamport
        deps := .ofList r.deps
        timestamp := r.timestamp
        ops }
    else
      throw (.lamportOverflow r.lamport r.id)

def encodeList (encode : α → List UInt8) (xs : List α) : List UInt8 :=
  encodeNat xs.length ++ xs.flatMap encode

def decodeList (decode : Reader α) : Reader (List α) := do
  decode.times (← decodeNat)

def encodeText (s : String) : List UInt8 :=
  encodeNat s.toByteArray.size ++ s.toByteArray.data.toList

/-- A text; its bytes must be well-formed UTF-8. -/
def decodeText : Reader String := do
  let bytes ← byte.times (← decodeNat)
  match String.fromUTF8? ⟨bytes.toArray⟩ with
  | some s => return s
  | none => failure

def encodeBool (b : Bool) : List UInt8 := [if b then 1 else 0]

def decodeBool : Reader Bool := do
  let b ← byte
  if b = 0 then return false else if b = 1 then return true else failure

def encodeOption (encode : α → List UInt8) : Option α → List UInt8
  | none => encodeBool false
  | some a => encodeBool true ++ encode a

def decodeOption (decode : Reader α) : Reader (Option α) := do
  if ← decodeBool then return some (← decode) else return none

def encodeInt (n : Int) : List UInt8 := encodeNat (zigzag n)

def decodeInt : Reader Int := do return ofZigzag (← decodeNat)

def decodeWord : Reader Nat := decodeUpTo Word.top

def encodePeer (p : Peer) : List UInt8 := encodeNat p.number.toNat

def decodePeer : Reader Peer := do return ⟨UInt64.ofNat (← decodeNat)⟩

def encodeOpId (id : OpId) : List UInt8 := encodePeer id.peer ++ encodeNat id.counter

def decodeOpId : Reader OpId := do
  let peer ← decodePeer
  let counter ← decodeWord
  return ⟨peer, counter⟩

def encodeKind (k : Kind) : List UInt8 := encodeNat k.rank

def decodeKind : Reader Kind := do
  match Kind.ofRank? (← decodeNat) with
  | some k => return k
  | none => failure

/-- A container id, with the peer of a child written by `peer`. -/
def encodeContainerWith (peer : Peer → List UInt8) : ContainerId → List UInt8
  | .root name kind => encodeNat 0 ++ encodeText name ++ encodeKind kind
  | .child id kind => encodeNat 1 ++ peer id.peer ++ encodeNat id.counter ++ encodeKind kind

def decodeContainerWith (peer : Reader Peer) : Reader ContainerId := do
  match ← decodeNat with
  | 0 =>
    let name ← decodeText
    let kind ← decodeKind
    return .root name kind
  | 1 =>
    let peer ← peer
    let counter ← decodeWord
    let kind ← decodeKind
    return .child ⟨peer, counter⟩ kind
  | _ => failure

/-- The container an operation belongs to. -/
def encodeContainer : ContainerId → List UInt8 := encodeContainerWith encodePeer

def decodeContainer : Reader ContainerId := decodeContainerWith decodePeer

def encodePeerNumeral (p : Peer) : List UInt8 := encodeText p.toText

def decodePeerNumeral : Reader Peer := do
  match Peer.ofNumeral (← decodeText) with
  | .ok p => return p
  | .error _ => failure

/-- In a container that is referred to by a value, the peer is a decimal numeral. -/
def encodeValue : Value → List UInt8
  | .null => encodeNat 0
  | .bool b => encodeNat 1 ++ encodeBool b
  | .int n => encodeNat 2 ++ encodeInt n
  | .text s => encodeNat 3 ++ encodeText s
  | .container id => encodeNat 4 ++ encodeContainerWith encodePeerNumeral id

def decodeValue : Reader Value := do
  match ← decodeNat with
  | 0 => return .null
  | 1 => return .bool (← decodeBool)
  | 2 => return .int (← decodeInt)
  | 3 => return .text (← decodeText)
  | 4 => return .container (← decodeContainerWith decodePeerNumeral)
  | _ => failure

def encodeContent : Content → List UInt8
  | .insertText pos text => encodeNat 0 ++ encodeNat pos ++ encodeText text
  | .insertValues pos values => encodeNat 1 ++ encodeNat pos ++ encodeList encodeValue values
  | .delete pos len => encodeNat 2 ++ encodeNat pos ++ encodeNat len
  | .setKey key value => encodeNat 3 ++ encodeText key ++ encodeOption encodeValue value
  | .createChild kind => encodeNat 4 ++ encodeKind kind

def decodeContent : Reader Content := do
  match ← decodeNat with
  | 0 =>
    let pos ← decodeWord
    let text ← decodeText
    return .insertText pos text
  | 1 =>
    let pos ← decodeWord
    let values ← decodeList decodeValue
    return .insertValues pos values
  | 2 =>
    let pos ← decodeWord
    let len ← decodeWord
    return .delete pos len
  | 3 =>
    let key ← decodeText
    let value ← decodeOption decodeValue
    return .setKey key value
  | 4 => return .createChild (← decodeKind)
  | _ => failure

def encodeItem (item : ContainerId × Content) : List UInt8 :=
  encodeContainer item.1 ++ encodeContent item.2

def decodeItem : Reader (ContainerId × Content) := do
  let container ← decodeContainer
  let content ← decodeContent
  return (container, content)

def encodeRecord (r : Record) : List UInt8 :=
  encodeOpId r.id ++ encodeNat r.lamport ++ encodeInt r.timestamp ++ encodeList encodeOpId r.deps
    ++ encodeList encodeItem r.items

def decodeRecord : Reader Record := do
  let id ← decodeOpId
  let lamport ← decodeWord
  let timestamp ← decodeInt
  let deps ← decodeList decodeOpId
  let items ← decodeList decodeItem
  return { id, lamport, timestamp, deps, items }

end CausalReplica.Batch
