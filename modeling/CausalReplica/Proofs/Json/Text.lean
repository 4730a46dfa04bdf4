import CausalReplica.Json.Printer
import CausalReplica.Json.Reader
import CausalReplica.Proofs.Numeral

/-!
# Reading back a JSON text

The text that is written of a tree is read as that tree. A number does not show where it ends, but
behind a value there is only the end, a comma or a closing bracket, and none of these goes on with
it.
-/

namespace CausalReplica.Json

/-- What an object holds for a record with these fields. -/
def named (fields : List (String × Json)) : List (Option String × Json) :=
  fields.map fun (name, value) => (some name, value)

/-- Behind a value nothing else can come. -/
inductive Stops : List Char → Prop
  | nil : Stops []
  | comma (cs : List Char) : Stops (',' :: cs)
  | bracket (cs : List Char) : Stops (']' :: cs)
  | brace (cs : List Char) : Stops ('\x7d' :: cs)

/-- The literal of a string. -/
def quoted (s : String) : List Char := '"' :: (s.toList.flatMap writtenChar ++ ['"'])

theorem writeString_some (out s : String) :
    (writeString out (some s)).toList = out.toList ++ quoted s := by
  simp [writeString, quoted]

namespace Token

variable {c : Char} {cs ds rest : List Char} {t : Token} {j : Json} {n : Nat} {units : List Nat}

section Strings

theorem hexUnit?_controlNumeral : ∀ n < 0x20,
    (match controlNumeral (Char.ofNat n) with
    | [a, b, c, d] => hexUnit? a b c d
    | _ => none) = some n := by decide

theorem escape?_of_letter? {letter : Char} (h : letter? c = some letter) :
    escape? letter = some c.toNat ∧ letter ≠ 'u' := by
  unfold letter? at h
  split at h <;> cases h <;> exact ⟨rfl, by decide⟩

theorem readString_writtenChar (c : Char) (rest : List Char) :
    readString (writtenChar c ++ rest) = consUnit (some c.toNat) (readString rest) := by
  unfold writtenChar
  split
  · next letter h =>
    obtain ⟨hescape, hne⟩ := escape?_of_letter? h
    simp [readString, hescape, hne]
  · next hplain =>
    split
    · next hcontrol =>
      have hunit := hexUnit?_controlNumeral c.toNat hcontrol
      rw [Char.ofNat_toNat] at hunit
      split at hunit
      · next a b c' d heq => simp [heq, readString, hunit]
      · exact nomatch hunit
    · next hcontrol =>
      have hquote : c ≠ '"' := fun h => by simp [h, letter?] at hplain
      have hslash : c ≠ '\\' := fun h => by simp [h, letter?] at hplain
      simp [readString, hslash, hcontrol]

theorem readString_written (cs rest : List Char) :
    readString (cs.flatMap writtenChar ++ '"' :: rest) = some (cs.map Char.toNat, rest) := by
  induction cs with
  | nil => rfl
  | cons c cs ih =>
    rw [List.flatMap_cons, List.append_assoc, readString_writtenChar, ih]
    rfl

theorem isHalf_toNat (c : Char) : isHighHalf c.toNat = false ∧ isLowHalf c.toNat = false := by
  have hvalid : c.toNat < 0xd800 ∨ 0xdfff < c.toNat ∧ c.toNat < 0x110000 := c.valid
  simp only [isHighHalf, isLowHalf, Bool.and_eq_false_iff, decide_eq_false_iff_not]
  omega

theorem joinHalves_map_toNat (cs : List Char) : joinHalves (cs.map Char.toNat) = some cs := by
  induction cs with
  | nil => rfl
  | cons c cs ih =>
    obtain ⟨hhigh, hlow⟩ := isHalf_toNat c
    cases cs with
    | nil => simp [joinHalves, hhigh, hlow]
    | cons c' cs =>
      rw [List.map_cons] at ih
      simp [joinHalves, hhigh, hlow, ih]

theorem readScalar_quoted (s : String) (rest : List Char) :
    readScalar (quoted s ++ rest) = some (.str s, rest) := by
  have hread := readString_written s.toList rest
  rw [quoted, List.cons_append, List.append_assoc, readScalar, List.singleton_append, hread]
  simp [joinHalves_map_toNat, str]

end Strings

section Numbers

theorem readDigits_append (hne : ds ≠ []) (hds : ∀ c ∈ ds, c.isDigit = true) (h : Stops rest) :
    readDigits (ds ++ rest) = some (ds, rest) := by
  have hstop : rest.takeWhile Char.isDigit = [] ∧ rest.dropWhile Char.isDigit = rest := by
    cases h <;> exact ⟨rfl, rfl⟩
  unfold readDigits
  rw [List.takeWhile_append_of_pos hds, List.dropWhile_append_of_pos hds, hstop.1, hstop.2,
    List.append_nil]
  cases ds with
  | nil => exact absurd rfl hne
  | cons d ds => rfl

theorem eq_zero_of_toDigits (h : Nat.toDigits 10 n = '0' :: cs) : n = 0 := by
  induction n using Nat.strongRecOn generalizing cs with
  | _ n ih =>
    by_cases hlt : n < 10
    · rw [Nat.toDigits_of_lt_base hlt] at h
      have hdigit : ∀ n < 10, n.digitChar = '0' → n = 0 := by decide
      exact hdigit n hlt (List.cons.inj h).1
    · rw [Nat.toDigits_of_base_le (by decide) (Nat.le_of_not_lt hlt)] at h
      cases hfirst : Nat.toDigits 10 (n / 10) with
      | nil => exact absurd hfirst Nat.toDigits_ne_nil
      | cons d ds =>
        rw [hfirst] at h
        obtain rfl := (List.cons.inj h).1
        have hzero := ih (n / 10) (by omega) hfirst
        omega

theorem readWhole_toDigits (n : Nat) (h : Stops rest) :
    readWhole (Nat.toDigits 10 n ++ rest) = some (Nat.toDigits 10 n, rest) := by
  have hread : readDigits (Nat.toDigits 10 n ++ rest) = some (Nat.toDigits 10 n, rest) :=
    readDigits_append Nat.toDigits_ne_nil
      (fun _ hc => Nat.isDigit_of_mem_toDigits (by decide) (by decide) hc) h
  unfold readWhole
  rw [hread]
  split
  · next d ds _ heq =>
    have heq := congrArg Prod.fst (Option.some.inj heq)
    have hzero := eq_zero_of_toDigits heq
    subst hzero
    exact nomatch heq
  · rfl

theorem readUnsigned_toDigits {negative : Bool} (hn : negative = true → n ≠ 0) (h : Stops rest) :
    readUnsigned negative (Nat.toDigits 10 n ++ rest) =
      some (.int (if negative then -n else n), rest) := by
  have hfraction : readFraction rest = some ([], rest) := by cases h <;> rfl
  have hexponent : readExponent rest = some ([], rest) := by cases h <;> rfl
  have hvalue : natOfDigits (Nat.toDigits 10 n) = n := Nat.ofDigitChars_ten_toDigits
  have hwhole : ¬ (negative = true ∧ n = 0) := fun h => hn h.1 h.2
  simp [readUnsigned, readWhole_toDigits n h, hfraction, hexponent, number, hvalue, hwhole]

theorem readScalar_of_isDigit (hc : c.isDigit = true) :
    readScalar (c :: cs) = readUnsigned false (c :: cs) := by
  unfold readScalar
  split <;> first
    | rfl
    | next heq => exact absurd ((List.cons.inj heq).1 ▸ hc) (by decide)

theorem readScalar_toString (n : Int) (h : Stops rest) :
    readScalar ((toString n).toList ++ rest) = some (.int n, rest) := by
  cases n with
  | ofNat n =>
    have hread : readUnsigned false (Nat.toDigits 10 n ++ rest) = some (.int n, rest) :=
      readUnsigned_toDigits nofun h
    change readScalar (n.repr.toList ++ rest) = _
    rw [Nat.toList_repr]
    cases hdigits : Nat.toDigits 10 n with
    | nil => exact absurd hdigits Nat.toDigits_ne_nil
    | cons d ds =>
      have hd : d.isDigit = true :=
        Nat.isDigit_of_mem_toDigits (by decide) (by decide) (hdigits ▸ List.mem_cons_self)
      rw [List.cons_append, readScalar_of_isDigit hd, ← List.cons_append, ← hdigits]
      exact hread
  | negSucc n =>
    have hread : readUnsigned true (Nat.toDigits 10 (n + 1) ++ rest) =
        some (.int (Int.negSucc n), rest) := readUnsigned_toDigits (fun _ => n.succ_ne_zero) h
    have htext : (toString (Int.negSucc n)).toList = '-' :: Nat.toDigits 10 (n + 1) := by
      change ("-" ++ (n + 1).repr).toList = _
      rw [String.toList_append, Nat.toList_repr]
      rfl
    rw [htext]
    exact hread

end Numbers

section Lexing

theorem lex_mark (h : ofChar? c = some t) : lex (c :: rest) = (lex rest).map (t :: ·) := by
  have hblank : isBlank c = false := by
    unfold ofChar? at h
    split at h <;> first
      | rfl
      | exact nomatch h
  rw [lex]
  simp [hblank, h]

theorem readScalar_of_isBlank (h : isBlank c = true) : readScalar (c :: cs) = none := by
  simp only [isBlank, Bool.or_eq_true, decide_eq_true_eq] at h
  rcases h with ((rfl | rfl) | rfl) | rfl <;> rfl

theorem readScalar_of_ofChar? (h : ofChar? c = some t) : readScalar (c :: cs) = none := by
  unfold ofChar? at h
  split at h <;> first
    | rfl
    | exact nomatch h

theorem lex_scalar (h : readScalar cs = some (j, rest)) :
    lex cs = (lex rest).map (.scalar j :: ·) := by
  cases cs with
  | nil => exact absurd h nofun
  | cons c cs =>
    -- Neither a blank nor a mark begins a scalar.
    have hblank : ¬ isBlank c = true := by
      intro hblank
      rw [readScalar_of_isBlank hblank] at h
      cases h
    have hmark : ofChar? c = none := by
      cases hc : ofChar? c with
      | none => rfl
      | some t =>
        rw [readScalar_of_ofChar? hc] at h
        cases h
    rw [lex, if_neg hblank, hmark]
    dsimp only
    split
    · next heq =>
      obtain ⟨rfl, rfl⟩ := Prod.mk.inj (Option.some.inj (heq.symm.trans h))
      rfl
    · next heq =>
      rw [heq] at h
      cases h

end Lexing

end Token

namespace State

variable {s next : State} {stack : List Frame} {text rest : List Char} {c : Char} {t : Token}
  {j v : Json}

/-- From the state the text is read to its end, and then `j` stands for the whole. -/
def Reads (s : State) (text : List Char) (j : Json) : Prop :=
  ∃ tokens, Token.lex text = some tokens ∧ tokens.foldlM step s = some (.after j [])

/-- A value may come. -/
def Accepts (s : State) (stack : List Frame) : Prop :=
  ∀ t, t ≠ .closeArray → s.step t = startValue stack t

theorem accepts_value (stack : List Frame) : Accepts (.value stack) stack := fun _ _ => rfl

theorem accepts_firstItem (stack : List Frame) :
    Accepts (.firstItem stack) (.items [] :: stack) := by
  intro t ht
  cases t <;> first
    | rfl
    | exact absurd rfl ht

namespace Reads

theorem nil : Reads (.after j []) [] j := ⟨[], by simp [Token.lex], rfl⟩

theorem of_lex (hlex : Token.lex text = (Token.lex rest).map (t :: ·))
    (hstep : s.step t = some next) (h : next.Reads rest j) : s.Reads text j := by
  obtain ⟨tokens, htokens, hrun⟩ := h
  refine ⟨t :: tokens, by rw [hlex, htokens]; rfl, ?_⟩
  rw [List.foldlM_cons, hstep]
  exact hrun

theorem mark (hc : Token.ofChar? c = some t) (hstep : s.step t = some next)
    (h : next.Reads rest j) : s.Reads (c :: rest) j :=
  of_lex (Token.lex_mark hc) hstep h

theorem scalar (hs : s.Accepts stack) (hread : Token.readScalar text = some (v, rest))
    (h : Reads (.after v stack) rest j) : s.Reads text j :=
  of_lex (Token.lex_scalar hread) (hs _ nofun) h

theorem key {key : String} {before : List (Option String × Json)}
    (hs : s.step (.scalar (.str key)) = some (.colon before (some key) stack))
    (h : Reads (.value (.fields before (some key) :: stack)) rest j) :
    s.Reads (quoted key ++ ':' :: rest) j :=
  of_lex (Token.lex_scalar (Token.readScalar_quoted key _)) hs (.mark rfl rfl h)

end Reads

end State

/-- The text is what is written of the tree, and is read as the tree wherever a value may come. -/
structure Spells (text : List Char) (v : Json) : Prop where
  written : ∀ out, (write out v).toList = out.toList ++ text
  read : ∀ {s : State} {stack : List Frame} {rest : List Char} {j : Json}, s.Accepts stack →
    Stops rest → State.Reads (.after v stack) rest j → s.Reads (text ++ rest) j

section Spelling

open State (Reads Accepts)

variable {stack : List Frame} {items : List Json} {fields : List (String × Json)} {j v : Json}
  {rest text : List Char}

theorem Spells.of_scalar (hwritten : ∀ out, (write out v).toList = out.toList ++ text)
    (hread : ∀ {rest}, Stops rest → Token.readScalar (text ++ rest) = some (v, rest)) :
    Spells text v where
  written := hwritten
  read := fun hs hrest h => .scalar hs (hread hrest) h

/-- The items of an array behind the first of them, up to its end. -/
theorem exists_spelled_items (h : ∀ v ∈ items, ∃ text, Spells text v) :
    ∃ text, (∀ out, (writeItems out items).toList = out.toList ++ text) ∧
      ∀ {v before stack rest j},
        Reads (.after (.array ((v :: before).reverse ++ items)) stack) rest j →
        Stops (text ++ ']' :: rest) ∧
        Reads (.after v (.items before :: stack)) (text ++ ']' :: rest) j := by
  induction items with
  | nil =>
    refine ⟨[], fun out => (List.append_nil _).symm, fun h => ⟨.bracket _, ?_⟩⟩
    rw [List.append_nil] at h
    exact .mark rfl rfl h
  | cons w items ih =>
    obtain ⟨⟨first, hfirst⟩, hitems⟩ := List.forall_mem_cons.mp h
    obtain ⟨others, hwritten, hread⟩ := ih hitems
    refine ⟨',' :: (first ++ others), fun out => ?_,
      fun {v before stack rest j} h => ⟨.comma _, ?_⟩⟩
    · rw [writeItems, hwritten, hfirst.written]
      simp
    · have h' : Reads (.after (.array ((w :: v :: before).reverse ++ items)) stack) rest j := by
        simpa using h
      obtain ⟨hstops, hothers⟩ := hread h'
      rw [List.cons_append, List.append_assoc]
      exact .mark rfl rfl (hfirst.read (State.accepts_value _) hstops hothers)

theorem Spells.exists_array (h : ∀ v ∈ items, ∃ text, Spells text v) :
    ∃ text, Spells text (.array items) := by
  cases items with
  | nil =>
    refine ⟨['[', ']'], fun out => ?_, fun hs _ h => ?_⟩
    · rw [write, String.toList_append]
      rfl
    · exact .mark rfl (hs _ nofun) (.mark rfl rfl h)
  | cons v items =>
    obtain ⟨⟨first, hfirst⟩, hitems⟩ := List.forall_mem_cons.mp h
    obtain ⟨others, hwritten, hread⟩ := exists_spelled_items hitems
    refine ⟨'[' :: (first ++ others ++ [']']), fun out => ?_, fun {s stack rest j} hs _ h => ?_⟩
    · rw [write, String.toList_push, hwritten, hfirst.written]
      simp
    · obtain ⟨hstops, hothers⟩ := @hread v [] stack rest j h
      have hvalue := hfirst.read (State.accepts_firstItem stack) hstops hothers
      simpa using Reads.mark rfl (hs .openArray nofun) hvalue

/-- The fields of an object behind the first of them, up to its end. -/
theorem exists_spelled_fields (h : ∀ f ∈ fields, ∃ text, Spells text f.2) :
    ∃ text, (∀ out, (writeFields out (named fields)).toList = out.toList ++ text) ∧
      ∀ {key v before stack rest j},
        Reads (.after (.object (((key, v) :: before).reverse ++ named fields)) stack) rest j →
        Stops (text ++ '\x7d' :: rest) ∧
        Reads (.after v (.fields before key :: stack)) (text ++ '\x7d' :: rest) j := by
  induction fields with
  | nil =>
    refine ⟨[], fun out => (List.append_nil _).symm, fun h => ⟨.brace _, ?_⟩⟩
    rw [named, List.map_nil, List.append_nil] at h
    exact .mark rfl rfl h
  | cons field fields ih =>
    obtain ⟨⟨first, hfirst⟩, hfields⟩ := List.forall_mem_cons.mp h
    obtain ⟨others, hwritten, hread⟩ := ih hfields
    refine ⟨',' :: (quoted field.1 ++ ':' :: (first ++ others)), fun out => ?_,
      fun {key v before stack rest j} h => ⟨.comma _, ?_⟩⟩
    · rw [named, List.map_cons, writeFields, ← named, hwritten, hfirst.written, String.toList_push,
        writeString_some]
      simp
    · obtain ⟨hstops, hothers⟩ :=
        @hread (some field.1) field.2 ((key, v) :: before) stack rest j (by simpa [named] using h)
      have hvalue := hfirst.read (State.accepts_value _) hstops hothers
      simpa using Reads.mark rfl rfl (.key rfl hvalue)

theorem Spells.exists_record (h : ∀ f ∈ fields, ∃ text, Spells text f.2) :
    ∃ text, Spells text (.record fields) := by
  cases fields with
  | nil =>
    refine ⟨['\x7b', '\x7d'], fun out => ?_, fun hs _ h => ?_⟩
    · rw [record, List.map_nil, write, String.toList_append]
      rfl
    · exact .mark rfl (hs _ nofun) (.mark rfl rfl h)
  | cons field fields =>
    obtain ⟨⟨first, hfirst⟩, hfields⟩ := List.forall_mem_cons.mp h
    obtain ⟨others, hwritten, hread⟩ := exists_spelled_fields hfields
    refine ⟨'\x7b' :: (quoted field.1 ++ ':' :: (first ++ others ++ ['\x7d'])), fun out => ?_,
      fun {s stack rest j} hs _ h => ?_⟩
    · rw [record, List.map_cons, write, ← named, String.toList_push, hwritten, hfirst.written,
        String.toList_push, writeString_some]
      simp
    · obtain ⟨hstops, hothers⟩ := @hread (some field.1) field.2 [] stack rest j h
      have hvalue := hfirst.read (State.accepts_value _) hstops hothers
      have hkey : Reads (.firstKey stack) _ j := .key rfl hvalue
      simpa using Reads.mark rfl (hs .openObject nofun) hkey

end Spelling

/-- What the domain writes: nulls, truth values, integers, texts, arrays and records. -/
inductive Plain : Json → Prop
  | null : Plain .null
  | bool (b : Bool) : Plain (.bool b)
  | int (n : Int) : Plain (.int n)
  | text (s : String) : Plain (.str s)
  | array {items : List Json} (h : ∀ v ∈ items, Plain v) : Plain (.array items)
  | record {fields : List (String × Json)} (h : ∀ f ∈ fields, Plain f.2) : Plain (.record fields)

namespace Plain

variable {v : Json}

theorem exists_spells (h : Plain v) : ∃ text, Spells text v := by
  induction h with
  | null => exact ⟨_, .of_scalar (fun out => String.toList_append) fun _ => rfl⟩
  | bool b => cases b <;> exact ⟨_, .of_scalar (fun out => String.toList_append) fun _ => rfl⟩
  | int n =>
    exact ⟨_, .of_scalar (fun out => String.toList_append) fun h => Token.readScalar_toString n h⟩
  | text s => exact ⟨_, .of_scalar (writeString_some · s) fun _ => Token.readScalar_quoted s _⟩
  | array _ ih => exact Spells.exists_array ih
  | record _ ih => exact Spells.exists_record ih

theorem ofText?_toText (h : Plain v) : ofText? v.toText = some v := by
  obtain ⟨text, hspells⟩ := h.exists_spells
  obtain ⟨tokens, htokens, hrun⟩ := hspells.read (State.accepts_value []) .nil .nil
  have htext : v.toText.toList = text := hspells.written ""
  rw [List.append_nil, ← htext] at htokens
  simp [ofText?, htokens, hrun]

end Plain

end CausalReplica.Json
