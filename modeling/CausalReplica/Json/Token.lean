import CausalReplica.Json.Basic

/-!
# Tokens of a JSON text
-/

namespace CausalReplica.Json

inductive Token where
  | openArray
  | closeArray
  | openObject
  | closeObject
  | colon
  | comma
  | scalar (j : Json)

namespace Token

def isBlank (c : Char) : Bool := c = ' ' || c = '\n' || c = '\t' || c = '\r'

def ofChar? : Char → Option Token
  | '[' => some .openArray
  | ']' => some .closeArray
  | '\x7b' => some .openObject
  | '\x7d' => some .closeObject
  | ':' => some .colon
  | ',' => some .comma
  | _ => none

def hexDigit? (c : Char) : Option Nat :=
  if '0' ≤ c ∧ c ≤ '9' then some (c.toNat - '0'.toNat)
  else if 'a' ≤ c ∧ c ≤ 'f' then some (c.toNat - 'a'.toNat + 10)
  else if 'A' ≤ c ∧ c ≤ 'F' then some (c.toNat - 'A'.toNat + 10)
  else none

def hexUnit? (a b c d : Char) : Option Nat := do
  return (((← hexDigit? a) * 16 + (← hexDigit? b)) * 16 + (← hexDigit? c)) * 16 + (← hexDigit? d)

/-- The code point that a letter after a backslash stands for. -/
def escape? : Char → Option Nat
  | '"' => some 0x22
  | '\\' => some 0x5c
  | '/' => some 0x2f
  | 'b' => some 0x08
  | 'f' => some 0x0c
  | 'n' => some 0x0a
  | 'r' => some 0x0d
  | 't' => some 0x09
  | _ => none

/-- Puts a unit, if there is one, in front of a string that could be read. -/
def consUnit (unit : Option Nat) (string : Option (List Nat × List Char)) :
    Option (List Nat × List Char) :=
  match unit, string with
  | some unit, some (units, rest) => some (unit :: units, rest)
  | _, _ => none

/-- The code points and surrogate halves up to the closing quote, and what follows it. -/
def readString : List Char → Option (List Nat × List Char)
  | [] => none
  | '"' :: cs => some ([], cs)
  | '\\' :: 'u' :: a :: b :: c :: d :: cs => consUnit (hexUnit? a b c d) (readString cs)
  | '\\' :: c :: cs => consUnit (escape? c) (readString cs)
  | c :: cs => consUnit (if c.toNat < 0x20 then none else some c.toNat) (readString cs)

def isHighHalf (n : Nat) : Bool := 0xd800 ≤ n && n < 0xdc00

def isLowHalf (n : Nat) : Bool := 0xdc00 ≤ n && n < 0xe000

/-- Joins the surrogate halves; there is no result when one lacks its partner. -/
def joinHalves : List Nat → Option (List Char)
  | [] => some []
  | [n] => if isHighHalf n || isLowHalf n then none else some [Char.ofNat n]
  | n :: m :: rest =>
    if isHighHalf n then
      if isLowHalf m then
        (joinHalves rest).map (Char.ofNat (0x10000 + (n - 0xd800) * 0x400 + (m - 0xdc00)) :: ·)
      else none
    else if isLowHalf n then none
    else (joinHalves (m :: rest)).map (Char.ofNat n :: ·)

/-- The digits at the front, at least one, and what follows them. -/
def readDigits (cs : List Char) : Option (List Char × List Char) :=
  match cs.takeWhile Char.isDigit with
  | [] => none
  | d :: ds => some (d :: ds, cs.dropWhile Char.isDigit)

/-- The digits before any point: no leading zero but a single one. -/
def readWhole (cs : List Char) : Option (List Char × List Char) :=
  match readDigits cs with
  | some ('0' :: _ :: _, _) => none
  | result => result

/-- A point and at least one digit, or nothing. -/
def readFraction : List Char → Option (List Char × List Char)
  | '.' :: cs => (readDigits cs).map fun (ds, rest) => ('.' :: ds, rest)
  | cs => some ([], cs)

/-- An exponent mark, a sign or none, and at least one digit, or nothing. -/
def readExponent : List Char → Option (List Char × List Char)
  | c :: cs =>
    if c = 'e' ∨ c = 'E' then
      match cs with
      | '+' :: cs => (readDigits cs).map fun (ds, rest) => (c :: '+' :: ds, rest)
      | '-' :: cs => (readDigits cs).map fun (ds, rest) => (c :: '-' :: ds, rest)
      | cs => (readDigits cs).map fun (ds, rest) => (c :: ds, rest)
    else some ([], c :: cs)
  | [] => some ([], [])

def natOfDigits (ds : List Char) : Nat := Nat.ofDigitChars 10 ds 0

/-- The number with this sign, whole part and remainder of the literal. -/
def number (negative : Bool) (whole tail : List Char) : Json :=
  let sign := if negative then ['-'] else []
  if tail ≠ [] ∨ negative ∧ natOfDigits whole = 0 then
    .decimal (String.ofList (sign ++ whole ++ tail))
  else .int (if negative then -natOfDigits whole else natOfDigits whole)

def readUnsigned (negative : Bool) (cs : List Char) : Option (Json × List Char) := do
  let (whole, cs) ← readWhole cs
  let (fraction, cs) ← readFraction cs
  let (exponent, cs) ← readExponent cs
  return (number negative whole (fraction ++ exponent), cs)

/-- The scalar at the front and what follows it. -/
def readScalar : List Char → Option (Json × List Char)
  | '"' :: cs => (readString cs).map fun (units, rest) =>
    (.string ((joinHalves units).map String.ofList), rest)
  | 'n' :: 'u' :: 'l' :: 'l' :: cs => some (.null, cs)
  | 't' :: 'r' :: 'u' :: 'e' :: cs => some (.bool true, cs)
  | 'f' :: 'a' :: 'l' :: 's' :: 'e' :: cs => some (.bool false, cs)
  | '-' :: cs => readUnsigned true cs
  | cs => readUnsigned false cs

theorem of_consUnit {unit : Option Nat} {string : Option (List Nat × List Char)}
    {units : List Nat} {rest : List Char} (h : consUnit unit string = some (units, rest)) :
    ∃ tail, string = some (tail, rest) := by
  unfold consUnit at h
  split at h
  · cases h; exact ⟨_, rfl⟩
  · exact nomatch h

theorem readString_length {cs rest : List Char} {units : List Nat}
    (h : readString cs = some (units, rest)) : rest.length < cs.length := by
  fun_induction readString cs generalizing units rest with
  | case1 => exact nomatch h
  | case2 cs => cases h; exact Nat.lt_succ_self _
  | _ =>
    rename_i ih
    obtain ⟨tail, ht⟩ := of_consUnit h
    have := ih ht
    simp only [List.length_cons]
    omega

theorem readDigits_length {cs ds rest : List Char} (h : readDigits cs = some (ds, rest)) :
    rest.length < cs.length := by
  unfold readDigits at h
  split at h
  · exact nomatch h
  · next d ds hd =>
    cases h
    have total := congrArg List.length
      (List.takeWhile_append_dropWhile (p := Char.isDigit) (l := cs))
    rw [hd] at total
    simp only [List.length_append, List.length_cons] at total
    omega

theorem readWhole_length {cs ds rest : List Char} (h : readWhole cs = some (ds, rest)) :
    rest.length < cs.length := by
  unfold readWhole at h
  split at h
  · exact nomatch h
  · exact readDigits_length h

theorem readFraction_length {cs ds rest : List Char} (h : readFraction cs = some (ds, rest)) :
    rest.length ≤ cs.length := by
  unfold readFraction at h
  split at h
  · obtain ⟨⟨ds, r⟩, hd, he⟩ := Option.map_eq_some_iff.mp h
    cases he
    have := readDigits_length hd
    simp only [List.length_cons]
    omega
  · cases h; exact Nat.le_refl _

theorem readExponent_length {cs ds rest : List Char} (h : readExponent cs = some (ds, rest)) :
    rest.length ≤ cs.length := by
  unfold readExponent at h
  split at h
  · split at h
    · split at h <;>
      · obtain ⟨⟨ds, r⟩, hd, he⟩ := Option.map_eq_some_iff.mp h
        cases he
        have := readDigits_length hd
        simp only [List.length_cons]
        omega
    · cases h; exact Nat.le_refl _
  · cases h; exact Nat.le_refl _

theorem readUnsigned_length {negative : Bool} {cs rest : List Char} {j : Json}
    (h : readUnsigned negative cs = some (j, rest)) : rest.length < cs.length := by
  simp only [readUnsigned, bind, Option.bind_eq_some_iff] at h
  obtain ⟨⟨w, c₁⟩, h₁, ⟨f, c₂⟩, h₂, ⟨e, c₃⟩, h₃, h⟩ := h
  cases h
  have := readWhole_length h₁
  have := readFraction_length h₂
  have := readExponent_length h₃
  dsimp only at *
  omega

theorem readScalar_length {cs rest : List Char} {j : Json}
    (h : readScalar cs = some (j, rest)) : rest.length < cs.length := by
  unfold readScalar at h
  split at h
  · obtain ⟨⟨units, r⟩, hs, he⟩ := Option.map_eq_some_iff.mp h
    cases he
    have := readString_length hs
    simp only [List.length_cons]
    omega
  · cases h; simp only [List.length_cons]; omega
  · cases h; simp only [List.length_cons]; omega
  · cases h; simp only [List.length_cons]; omega
  · have := readUnsigned_length h
    simp only [List.length_cons]
    omega
  · exact readUnsigned_length h

/-- Cuts a text into tokens; there is no result when it has a part that is no token. -/
def lex (cs : List Char) : Option (List Token) :=
  match cs with
  | [] => some []
  | c :: rest =>
    if isBlank c then lex rest
    else
      match ofChar? c with
      | some token => (lex rest).map (token :: ·)
      | none =>
        match _ : readScalar (c :: rest) with
        | some (j, rest) => (lex rest).map (scalar j :: ·)
        | none => none
termination_by cs.length
decreasing_by
  · exact Nat.lt_succ_self _
  · exact Nat.lt_succ_self _
  · exact readScalar_length ‹_›

end Token

end CausalReplica.Json
