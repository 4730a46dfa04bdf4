/-!
# Decimal numerals

Unsigned numerals of a bounded size: an optional plus sign and at least one digit, leading zeros
allowed. Reading stops at the first character at which it is known to fail, so a numeral that is
already too large is reported as such whatever follows.
-/

namespace CausalReplica.Numeral

/-- Why a text is no numeral within the bound. -/
inductive Fault where
  | empty
  | invalidDigit
  | tooLarge
  deriving DecidableEq, Repr

def Fault.message : Fault → String
  | .empty => "cannot parse integer from empty string"
  | .invalidDigit => "invalid digit found in string"
  | .tooLarge => "number too large to fit in target type"

def digit? (c : Char) : Option Nat := if c.isDigit then some (c.toNat - '0'.toNat) else none

/-- Appends the digits to the number read so far. -/
def readDigits (limit acc : Nat) : List Char → Except Fault Nat
  | [] => .ok acc
  | c :: cs =>
    match digit? c with
    | none => .error .invalidDigit
    | some d =>
      if acc * 10 + d ≤ limit then readDigits limit (acc * 10 + d) cs else .error .tooLarge

def read (limit : Nat) : List Char → Except Fault Nat
  | [] => .error .empty
  | ['+'] => .error .invalidDigit
  | '+' :: c :: cs => readDigits limit 0 (c :: cs)
  | c :: cs => readDigits limit 0 (c :: cs)

def ofText (limit : Nat) (s : String) : Except Fault Nat := read limit s.toList

end CausalReplica.Numeral
