import CausalReplica.Batch.Encoding
import CausalReplica.Ordered.Map

/-!
# Batches of changes

A batch is a header and the records of some changes. What is read from a batch is, for each peer,
a run of changes without gap or overlap: where one does not start at the counter at which the one
before it stopped, it and the later ones of that peer are dropped, and the first such break is
reported. A batch that cannot be read, or holds a record that is no change, fails as a whole.
-/

namespace CausalReplica.Batch

/-- The letters CDOC. -/
def magic : List UInt8 := [67, 68, 79, 67]

def formatVersion : UInt8 := 1

/-- The changes read from a batch, and the break that cut off a part of it. -/
structure Decoded where
  changes : List Change
  error : Option Error
  deriving DecidableEq, Repr

/-- Writes the changes in the order given. -/
def encode (changes : List Change) : List UInt8 :=
  magic ++ formatVersion :: encodeList encodeRecord (changes.map Record.ofChange)

/-- The records of a batch body, which they fill. -/
def decodeBody (bytes : List UInt8) : Option (List Record) :=
  match (decodeList decodeRecord).run bytes with
  | some (records, []) => some records
  | _ => none

def toChanges : List Record → Except DecodeFault (List Change)
  | [] => .ok []
  | r :: rs => do
    let c ← r.toChange
    let cs ← toChanges rs
    return c :: cs

/-- The changes by peer, those of one peer in the order given. -/
def byPeer (changes : List Change) : OrdMap Peer (List Change) :=
  changes.foldl (fun m c => m.insert c.peer (m.findD c.peer [] ++ [c])) .empty

def startsByCounter (c d : Change) : Bool := c.start ≤ d.start

/-- The longest part of the list in which each change starts where the one before stopped, the
first of them at `expected`, and the counters that disagree where it ends early. -/
def runFrom (expected : Nat) : List Change → List Change × Option (Nat × Nat)
  | [] => ([], none)
  | c :: cs =>
    if c.start = expected then
      let (run, gap) := runFrom c.stop cs
      (c :: run, gap)
    else ([], some (expected, c.start))

/-- The unbroken run of one peer's changes. -/
def peerRun (p : Peer) (changes : List Change) : Decoded :=
  match changes.mergeSort startsByCounter with
  | [] => ⟨[], none⟩
  | c :: cs =>
    let (run, gap) := runFrom c.start (c :: cs)
    ⟨run, gap.map fun (expected, found) => .corruptVersion p expected found⟩

/-- One after the other; the earlier break is the one reported. -/
def Decoded.append (a b : Decoded) : Decoded := ⟨a.changes ++ b.changes, a.error.or b.error⟩

def assemble (changes : List Change) : Decoded :=
  (byPeer changes).entries.foldr (fun (p, cs) d => (peerRun p cs).append d) ⟨[], none⟩

/-- The format version and the body of what begins as a batch does. -/
def splitHeader (bytes : List UInt8) : Option (UInt8 × List UInt8) :=
  if bytes.take magic.length = magic then
    match bytes.drop magic.length with
    | [] => none
    | version :: body => some (version, body)
  else none

/-- Reads a batch. -/
def decode (bytes : List UInt8) : Except Error Decoded :=
  match splitHeader bytes with
  | none => .error (.decode .notABatch)
  | some (version, body) =>
    if version ≠ formatVersion then .error (.decode (.formatVersion version.toNat))
    else
      match decodeBody body with
      | none => .error (.decode .malformedBody)
      | some records => ((toChanges records).mapError .decode).map assemble

end CausalReplica.Batch
