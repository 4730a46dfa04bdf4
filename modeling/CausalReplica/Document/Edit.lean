import CausalReplica.Document.Basic

/-!
# Editing through handles

Positions and lengths come from the caller and may be too large for the word that an operation
carries. Editing nothing, an empty text or a range of no elements, records nothing.
-/

namespace CausalReplica

/-- The number, which must fit a word. -/
def Measure.narrow (what : Measure) (n : Nat) : Except Error Nat :=
  if n ≤ Word.top then .ok n else .error (.invalidState (.outOfRange what n))

namespace Document

/-- Records an operation whose id is of no interest. -/
def edit (d : Document) (container : ContainerId) (content : Content) : Except Error Document :=
  (d.record container content).map (·.1)

def insertText (d : Document) (h : Handle .text) (pos : Nat) (text : String) :
    Except Error Document :=
  if text.isEmpty then .ok d
  else do
    let pos ← Measure.position.narrow pos
    d.edit h.id (.insertText pos text)

def deleteRange (d : Document) (container : ContainerId) (pos len : Nat) :
    Except Error Document :=
  if len = 0 then .ok d
  else do
    let pos ← Measure.position.narrow pos
    let len ← Measure.length.narrow len
    d.edit container (.delete pos len)

def deleteText (d : Document) (h : Handle .text) (pos len : Nat) : Except Error Document :=
  d.deleteRange h.id pos len

def insertValue (d : Document) (h : Handle .list) (pos : Nat) (value : Value) :
    Except Error Document := do
  let pos ← Measure.position.narrow pos
  d.edit h.id (.insertValues pos [value])

def deleteValues (d : Document) (h : Handle .list) (pos len : Nat) : Except Error Document :=
  d.deleteRange h.id pos len

def setKey (d : Document) (h : Handle .map) (key : String) (value : Value) :
    Except Error Document :=
  d.edit h.id (.setKey key (some value))

def clearKey (d : Document) (h : Handle .map) (key : String) : Except Error Document :=
  d.edit h.id (.setKey key none)

/-- Creates a child of `parent` and then refers to it by `refer`. The creation stays recorded when
the reference fails. -/
def insertChildWith (d : Document) (parent : ContainerId) (kind : Kind)
    (refer : Document → Value → Except Error Document) : Document × Except Error ContainerId :=
  match d.record parent (.createChild kind) with
  | .error error => (d, .error error)
  | .ok (created, id) =>
    let child := ContainerId.child id kind
    match refer created (.container child) with
    | .error error => (created, .error error)
    | .ok referred => (referred, .ok child)

def insertListChild (d : Document) (h : Handle .list) (pos : Nat) (kind : Kind) :
    Document × Except Error ContainerId :=
  d.insertChildWith h.id kind fun d value => d.insertValue h pos value

def insertMapChild (d : Document) (h : Handle .map) (key : String) (kind : Kind) :
    Document × Except Error ContainerId :=
  d.insertChildWith h.id kind fun d value => d.setKey h key value

end Document

end CausalReplica
