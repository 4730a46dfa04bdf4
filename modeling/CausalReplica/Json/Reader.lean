import CausalReplica.Json.Token

/-!
# Reading a JSON text

The tokens are taken one by one. What is open around the present place is a stack of frames, so no
depth of nesting is too deep.
-/

namespace CausalReplica.Json

/-- An array or object that is not closed yet, with what it holds so far, the latest first. -/
inductive Frame where
  | items (before : List Json)
  /-- The field `key` is being read. -/
  | fields (before : List (Option String × Json)) (key : Option String)

/-- What may come next. -/
inductive State where
  | value (stack : List Frame)
  /-- A value, or the end of an empty array. -/
  | firstItem (stack : List Frame)
  /-- A key, or the end of an empty object. -/
  | firstKey (stack : List Frame)
  | nextKey (before : List (Option String × Json)) (stack : List Frame)
  | colon (before : List (Option String × Json)) (key : Option String) (stack : List Frame)
  /-- Whatever may follow the value `j`. -/
  | after (j : Json) (stack : List Frame)

namespace State

def startValue (stack : List Frame) : Token → Option State
  | .scalar j => some (.after j stack)
  | .openArray => some (.firstItem stack)
  | .openObject => some (.firstKey stack)
  | _ => none

def step : State → Token → Option State
  | .value stack, token => startValue stack token
  | .firstItem stack, .closeArray => some (.after (.array []) stack)
  | .firstItem stack, token => startValue (.items [] :: stack) token
  | .firstKey stack, .closeObject => some (.after (.object []) stack)
  | .firstKey stack, .scalar (.string key) => some (.colon [] key stack)
  | .nextKey before stack, .scalar (.string key) => some (.colon before key stack)
  | .colon before key stack, .colon => some (.value (.fields before key :: stack))
  | .after j (.items before :: stack), .comma => some (.value (.items (j :: before) :: stack))
  | .after j (.items before :: stack), .closeArray =>
    some (.after (.array (j :: before).reverse) stack)
  | .after j (.fields before key :: stack), .comma => some (.nextKey ((key, j) :: before) stack)
  | .after j (.fields before key :: stack), .closeObject =>
    some (.after (.object ((key, j) :: before).reverse) stack)
  | _, _ => none

end State

/-- The tree of a text, if it is a JSON text. -/
def ofText? (s : String) : Option Json := do
  let tokens ← Token.lex s.toList
  match ← tokens.foldlM State.step (.value []) with
  | .after j [] => return j
  | _ => none

end CausalReplica.Json
