import CausalReplica.Numeral
import CausalReplica.Word

/-!
# JSON documents

The tree of a JSON text. Fields keep their order and may repeat. A string literal can name half of
a surrogate pair; such a string is part of a valid text but stands for no sequence of characters.

A record is an object with named fields, in any order and among others, or an array of all its
fields in order. A choice is the name of an alternative, or an object whose only field has that
name and holds what belongs to the alternative.
-/

namespace CausalReplica

inductive Json where
  | null
  | bool (b : Bool)
  /-- A number written without fraction and exponent, other than a negative zero. -/
  | int (n : Int)
  /-- Any other number, as it is written. -/
  | decimal (literal : String)
  /-- A string; nothing when it holds half of a surrogate pair. -/
  | string (s : Option String)
  | array (items : List Json)
  | object (fields : List (Option String × Json))
  deriving Inhabited, Repr

namespace Json

def str (s : String) : Json := .string (some s)

def nat (n : Nat) : Json := .int n

def ofOption : Option Json → Json
  | none => .null
  | some j => j

def record (fields : List (String × Json)) : Json :=
  .object (fields.map fun (name, value) => (some name, value))

def text? : Json → Option String
  | .string s => s
  | _ => none

def bool? : Json → Option Bool
  | .bool b => some b
  | _ => none

def word? : Json → Option Nat
  | .int (.ofNat n) => if n ≤ Word.top then some n else none
  | _ => none

/-- A number that fits a signed word of 64 bits. -/
def int64? : Json → Option Int
  | .int n => if Int64.minValue.toInt ≤ n ∧ n ≤ Int64.maxValue.toInt then some n else none
  | _ => none

def array? : Json → Option (List Json)
  | .array items => some items
  | _ => none

/-- Nothing for a null, else what `read` makes of it. -/
def optional? (read : Json → Option α) : Json → Option (Option α)
  | .null => some none
  | j => (read j).map some

def arrayOf? (read : Json → Option α) : Json → Option (List α)
  | .array items => items.mapM read
  | _ => none

/-- The fields of an object by name; a name that is no text has no place in a record. -/
def namedFields? (fields : List (Option String × Json)) : Option (List (String × Json)) :=
  fields.mapM fun (key, value) => key.map (·, value)

/-- The value of the field `name`, which must not occur twice. -/
def field? (fields : List (String × Json)) (name : String) : Option (Option Json) :=
  match fields.filter fun field => field.1 = name with
  | [] => some none
  | [(_, value)] => some (some value)
  | _ => none

/-- What an object holds under each of the names. -/
def objectFields? (names : List String) (fields : List (Option String × Json)) :
    Option (List (Option Json)) := do
  names.mapM (field? (← namedFields? fields))

/-- What a record holds under each of the names, in their order. -/
def fields? (names : List String) : Json → Option (List (Option Json))
  | .array items => if items.length = names.length then some (items.map some) else none
  | .object fields => objectFields? names fields
  | _ => none

/-- The same for a record whose fields may all be left out, in an array from the end. -/
def fieldsOrFewer? (names : List String) : Json → Option (List (Option Json))
  | .array items =>
    if items.length ≤ names.length then
      some (items.map some ++ List.replicate (names.length - items.length) none)
    else none
  | .object fields => objectFields? names fields
  | _ => none

/-- The name of the alternative taken and what belongs to it. -/
def alternative? : Json → Option (String × Option Json)
  | .string (some name) => some (name, none)
  | .object [(some name, content)] => some (name, some content)
  | _ => none

def alternative (name : String) (content : Json) : Json := record [(name, content)]

/-- Nothing belongs to the alternative: its name alone, or a null in its place. -/
def isBare : Option Json → Bool
  | none | some .null => true
  | _ => false

end Json

end CausalReplica
