import CausalReplica.Change.Basic
import CausalReplica.Document.Basic
import CausalReplica.Id.Reader
import CausalReplica.Json.Basic
import CausalReplica.Version.Vector

/-!
# Domain values in JSON

For each type the form that is written and, beside it, the reader, which takes every form a host
may use. Peers are decimal strings, also as keys, because hosts may lack 64-bit integers.
-/

namespace CausalReplica

open Json

namespace Peer

def toJson (p : Peer) : Json := .str p.toText

def ofText? (s : String) : Option Peer := (Peer.ofNumeral s).toOption

def ofJson? (j : Json) : Option Peer := do ofText? (← j.text?)

end Peer

namespace OpId

def toJson (id : OpId) : Json :=
  .record [("peer", id.peer.toJson), ("counter", .nat id.counter)]

def ofJson? (j : Json) : Option OpId := do
  match ← j.fields? ["peer", "counter"] with
  | [some peer, some counter] => return ⟨← Peer.ofJson? peer, ← counter.word?⟩
  | _ => none

end OpId

namespace IdSpan

def toJson (s : IdSpan) : Json :=
  .record [("peer", s.peer.toJson), ("start", .nat s.start), ("end", .nat s.stop)]

def ofJson? (j : Json) : Option IdSpan := do
  match ← j.fields? ["peer", "start", "end"] with
  | [some peer, some start, some stop] =>
    return ⟨← Peer.ofJson? peer, ← start.word?, ← stop.word?⟩
  | _ => none

end IdSpan

namespace Kind

def toJson (k : Kind) : Json := .str k.name

def ofJson? (j : Json) : Option Kind := do
  let (name, content) ← j.alternative?
  if isBare content then ofName? name else none

end Kind

namespace ContainerId

def toJson : ContainerId → Json
  | .root name kind => alternative "Root" (.record [("name", .str name), ("kind", kind.toJson)])
  | .child id kind => alternative "Normal" (.record [("id", id.toJson), ("kind", kind.toJson)])

def ofJson? (j : Json) : Option ContainerId := do
  match ← j.alternative? with
  | ("Root", some content) =>
    match ← content.fields? ["name", "kind"] with
    | [some name, some kind] => return .root (← name.text?) (← Kind.ofJson? kind)
    | _ => none
  | ("Normal", some content) =>
    match ← content.fields? ["id", "kind"] with
    | [some id, some kind] => return .child (← OpId.ofJson? id) (← Kind.ofJson? kind)
    | _ => none
  | _ => none

end ContainerId

namespace Value

def toJson : Value → Json
  | .null => .str "Null"
  | .bool b => alternative "Bool" (.bool b)
  | .int n => alternative "I64" (.int n)
  | .text s => alternative "String" (.str s)
  | .container id => alternative "Container" id.toJson

def ofJson? (j : Json) : Option Value := do
  match ← j.alternative? with
  | ("Null", content) => if isBare content then some .null else none
  | ("Bool", some content) => return .bool (← content.bool?)
  | ("I64", some content) => return .int (← content.int64?)
  | ("String", some content) => return .text (← content.text?)
  | ("Container", some content) => return .container (← ContainerId.ofJson? content)
  | _ => none

end Value

namespace Content

def toJson : Content → Json
  | .insertText pos text =>
    alternative "InsertText" (.record [("pos", .nat pos), ("text", .str text)])
  | .insertValues pos values =>
    alternative "InsertValues"
      (.record [("pos", .nat pos), ("values", .array (values.map Value.toJson))])
  | .delete pos len => alternative "Delete" (.record [("pos", .nat pos), ("len", .nat len)])
  | .setKey key value =>
    alternative "SetKey"
      (.record [("key", .str key), ("value", .ofOption (value.map Value.toJson))])
  | .createChild kind => alternative "CreateContainer" (.record [("kind", kind.toJson)])

def ofJson? (j : Json) : Option Content := do
  match ← j.alternative? with
  | ("InsertText", some content) =>
    match ← content.fields? ["pos", "text"] with
    | [some pos, some text] => return .insertText (← pos.word?) (← text.text?)
    | _ => none
  | ("InsertValues", some content) =>
    match ← content.fields? ["pos", "values"] with
    | [some pos, some values] =>
      return .insertValues (← pos.word?) (← values.arrayOf? Value.ofJson?)
    | _ => none
  | ("Delete", some content) =>
    match ← content.fields? ["pos", "len"] with
    | [some pos, some len] => return .delete (← pos.word?) (← len.word?)
    | _ => none
  | ("SetKey", some content) =>
    match ← content.fields? ["key", "value"] with
    | [some key, value] =>
      return .setKey (← key.text?) (← (value.getD .null).optional? Value.ofJson?)
    | _ => none
  | ("CreateContainer", some content) =>
    match ← content.fields? ["kind"] with
    | [some kind] => return .createChild (← Kind.ofJson? kind)
    | _ => none
  | _ => none

end Content

namespace Op

def toJson (op : Op) : Json :=
  .record
    [("counter", .nat op.counter), ("container", op.container.toJson),
      ("content", op.content.toJson)]

def ofJson? (j : Json) : Option Op := do
  match ← j.fields? ["counter", "container", "content"] with
  | [some counter, some container, some content] =>
    return ⟨← counter.word?, ← ContainerId.ofJson? container, ← Content.ofJson? content⟩
  | _ => none

end Op

namespace Frontiers

def toJson (f : Frontiers) : Json := .array (f.ids.map OpId.toJson)

/-- The ids as they are given, in any order. -/
def ofJson? (j : Json) : Option Frontiers := (j.arrayOf? OpId.ofJson?).map (⟨·⟩)

end Frontiers

namespace ChangeSummary

def toJson (s : ChangeSummary) : Json :=
  .record
    [("peer", s.peer.toJson), ("counter", .nat s.counter), ("length", .nat s.length),
      ("lamport", .nat s.lamport), ("deps", s.deps.toJson), ("timestamp", .int s.timestamp)]

def ofJson? (j : Json) : Option ChangeSummary := do
  match ← j.fields? ["peer", "counter", "length", "lamport", "deps", "timestamp"] with
  | [some peer, some counter, some length, some lamport, some deps, some timestamp] =>
    return ⟨← Peer.ofJson? peer, ← counter.word?, ← length.word?, ← lamport.word?,
      ← Frontiers.ofJson? deps, ← timestamp.int64?⟩
  | _ => none

end ChangeSummary

namespace VersionVector

def toJson (v : VersionVector) : Json :=
  .record (v.toList.map fun (p, n) => (p.toText, .nat n))

/-- Adds the entry as it is given, in place of an earlier one of the same peer. -/
def addField? (v : VersionVector) (field : String × Json) : Option VersionVector := do
  return ⟨v.ends.insert (← Peer.ofText? field.1) (← field.2.word?)⟩

def ofJson? : Json → Option VersionVector
  | .object fields => do (← namedFields? fields).foldlM addField? .empty
  | _ => none

end VersionVector

namespace Config

def toJson (c : Config) : Json :=
  .record
    [("peer", .ofOption (c.peer.map Peer.toJson)), ("record_timestamp", .bool c.recordTimestamp)]

/-- Whatever is left out keeps its default. -/
def ofJson? (j : Json) : Option Config := do
  match ← j.fieldsOrFewer? ["peer", "record_timestamp"] with
  | [peer, recordTimestamp] =>
    return {
      peer := ← (peer.getD .null).optional? Peer.ofJson?
      recordTimestamp := ← (recordTimestamp.getD (.bool false)).bool? }
  | _ => none

end Config

end CausalReplica
