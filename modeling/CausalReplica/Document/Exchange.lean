import CausalReplica.Batch.Basic
import CausalReplica.Document.Basic

/-!
# Exchanging batches

Replicas converge by exporting batches of changes and importing those of others. Both begin with a
commit of what is recorded, which stands even if the rest fails.
-/

namespace CausalReplica

namespace Document

/-- Writes every committed change that `v` does not cover. -/
def exportFrom (d : Document) (v : VersionVector) (now : Int) :
    Document × Except Error (List UInt8) :=
  match d.commit none now with
  | (d, .error error) => (d, .error error)
  | (d, .ok ()) => (d, .ok (Batch.encode (d.log.changesSince v)))

def exportFrom? (d : Document) (v : VersionVector) (now : Int) :
    Option (Document × Except Error (List UInt8)) :=
  match d.commit none now with
  | (d, .error error) => some (d, .error error)
  | (d, .ok ()) => (d.log.changesSince? v).map fun changes => (d, .ok (Batch.encode changes))

/-- Reads batches one after the other; the changes of all, and the first break in any. -/
def decodeAll : List (List UInt8) → Except Error Batch.Decoded
  | [] => .ok ⟨[], none⟩
  | bytes :: rest => do
    let first ← Batch.decode bytes
    let others ← decodeAll rest
    return first.append others

/-- The operations of the log that lie in the spans, each with its peer. -/
def opsIn (log : ChangeLog) (spans : List IdSpan) : List (Peer × Op) :=
  spans.flatMap fun span =>
    (log.changesIn span).flatMap fun c =>
      (c.ops.filter fun op => span.start < op.stop).map (c.peer, ·)

/-- Registers the containers that operations touch or create. -/
def registerAll (d : Document) (ops : List (Peer × Op)) : Document :=
  ops.foldl
    (fun d (p, op) =>
      let d :=
        match op.created? p with
        | some child => d.register child
        | none => d
      d.register op.container)
    d

/-- Makes what entered the log known: containers are registered and observers told. -/
def announce (d : Document) (before : Frontiers) (applied : List IdSpan) : Document :=
  if applied.isEmpty then d
  else
    let ops := opsIn d.log applied
    (d.registerAll ops).emit
      { before
        after := d.log.frontiers
        isLocal := false
        origin := none
        containers := Ordered.ofList (ops.map (·.2.container)) }

/-- Takes over the log after an import, for which one change may not have been read in full. -/
def takeIn (d : Document) (broken : Option Error) :
    ChangeLog × ImportStatus × Option Error → Document × Except Error (ImportStatus × Option Error)
  | (log, status, rejected) =>
    ({ d with log }.announce d.log.frontiers status.applied, .ok (status, broken.or rejected))

/-- Merges batches in one pass. If one cannot be read, nothing is applied and the answer is an
error. Otherwise the answer is the status of everything that went in, beside the first problem with
any of the changes. -/
def importWithStatus (d : Document) (batches : List (List UInt8)) (now : Int) :
    Document × Except Error (ImportStatus × Option Error) :=
  match d.commit none now with
  | (d, .error error) => (d, .error error)
  | (d, .ok ()) =>
    match decodeAll batches with
    | .error error => (d, .error error)
    | .ok decoded => d.takeIn decoded.error (d.log.importChanges decoded.changes)

def importWithStatus? (d : Document) (batches : List (List UInt8)) (now : Int) :
    Option (Document × Except Error (ImportStatus × Option Error)) :=
  match d.commit none now with
  | (d, .error error) => some (d, .error error)
  | (d, .ok ()) =>
    match decodeAll batches with
    | .error error => some (d, .error error)
    | .ok decoded => (d.log.importChanges? decoded.changes).map (d.takeIn decoded.error)

/-- A problem with a change hides the status. -/
def hideStatus : Document × Except Error (ImportStatus × Option Error) →
    Document × Except Error ImportStatus
  | (d, .ok (status, none)) => (d, .ok status)
  | (d, .ok (_, some error)) => (d, .error error)
  | (d, .error error) => (d, .error error)

/-- Merges batches; the answer is the status, or the first problem there was. -/
def importBatches (d : Document) (batches : List (List UInt8)) (now : Int) :
    Document × Except Error ImportStatus :=
  hideStatus (d.importWithStatus batches now)

def importBatches? (d : Document) (batches : List (List UInt8)) (now : Int) :
    Option (Document × Except Error ImportStatus) :=
  (d.importWithStatus? batches now).map hideStatus

end Document

end CausalReplica
