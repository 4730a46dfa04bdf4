import CausalReplica.Json.Basic

/-!
# Writing a JSON text

Without blanks. Quotes, backslashes and controls are escaped; every other character stands for
itself.
-/

namespace CausalReplica.Json

/-- The four hexadecimal digits of a control character. -/
def controlNumeral (c : Char) : List Char :=
  let digits := Nat.toDigits 16 c.toNat
  List.replicate (4 - digits.length) '0' ++ digits

/-- The letter that stands for the character behind a backslash. -/
def letter? : Char → Option Char
  | '"' => some '"'
  | '\\' => some '\\'
  | '\x08' => some 'b'
  | '\x0c' => some 'f'
  | '\n' => some 'n'
  | '\r' => some 'r'
  | '\t' => some 't'
  | _ => none

def writtenChar (c : Char) : List Char :=
  match letter? c with
  | some letter => ['\\', letter]
  | none => if c.toNat < 0x20 then '\\' :: 'u' :: controlNumeral c else [c]

/-- Half of a surrogate pair stands for a string that holds one. -/
def writeString (out : String) : Option String → String
  | none => out ++ "\"\\ud800\""
  | some s => (out.push '"' ++ String.ofList (s.toList.flatMap writtenChar)).push '"'

mutual

def write (out : String) : Json → String
  | .null => out ++ "null"
  | .bool b => out ++ if b then "true" else "false"
  | .int n => out ++ toString n
  | .decimal literal => out ++ literal
  | .string s => writeString out s
  | .array [] => out ++ "[]"
  | .array (j :: items) => (writeItems (write (out.push '[') j) items).push ']'
  | .object [] => out ++ "\x7b\x7d"
  | .object ((key, j) :: fields) =>
    (writeFields (write ((writeString (out.push '\x7b') key).push ':') j) fields).push '\x7d'

def writeItems (out : String) : List Json → String
  | [] => out
  | j :: items => writeItems (write (out.push ',') j) items

def writeFields (out : String) : List (Option String × Json) → String
  | [] => out
  | (key, j) :: fields => writeFields (write ((writeString (out.push ',') key).push ':') j) fields

end

def toText (j : Json) : String := write "" j

end CausalReplica.Json
