import CausalReplica.Id.Reader

/-!
# Reading back numerals

What is read are the decimal digits of numbers within the bound, with any leading zeros and with or
without a plus sign. The numeral of such a number is among them, so a peer is read back from its
text.
-/

namespace CausalReplica

namespace Numeral

variable {limit acc n : Nat} {c : Char} {cs : List Char}

/-- Decimal digits, at least one, that give the number. -/
structure Digits (text : List Char) (n : Nat) : Prop where
  ne_nil : text ≠ []
  isDigit : ∀ c ∈ text, c.isDigit = true
  value : Nat.ofDigitChars 10 text 0 = n

/-- The digits stand alone or after a plus sign. -/
def Writes (text : List Char) (n : Nat) : Prop :=
  Digits text n ∨ ∃ digits, text = '+' :: digits ∧ Digits digits n

theorem le_ofDigitChars : acc ≤ Nat.ofDigitChars 10 cs acc := by
  induction cs generalizing acc with
  | nil => exact Nat.le_of_eq Nat.ofDigitChars_nil.symm
  | cons c cs ih =>
    rw [Nat.ofDigitChars_cons]
    have hrest : 10 * acc + (c.toNat - '0'.toNat) ≤
        Nat.ofDigitChars 10 cs (10 * acc + (c.toNat - '0'.toNat)) := ih
    omega

theorem readDigits_ok (hdigits : ∀ c ∈ cs, c.isDigit = true)
    (hfit : Nat.ofDigitChars 10 cs acc ≤ limit) :
    readDigits limit acc cs = .ok (Nat.ofDigitChars 10 cs acc) := by
  induction cs generalizing acc with
  | nil => rw [readDigits, Nat.ofDigitChars_nil]
  | cons c cs ih =>
    rw [Nat.ofDigitChars_cons] at hfit ⊢
    have hdigit : digit? c = some (c.toNat - '0'.toNat) := if_pos (hdigits c List.mem_cons_self)
    have hle : acc * 10 + (c.toNat - '0'.toNat) ≤ limit := by
      rw [Nat.mul_comm]
      exact Nat.le_trans le_ofDigitChars hfit
    have htail := ih (fun d hd => hdigits d (List.mem_cons_of_mem c hd)) hfit
    rw [readDigits, hdigit]
    dsimp only
    rw [if_pos hle, Nat.mul_comm acc 10]
    exact htail

theorem readDigits_eq_ok_iff (hacc : acc ≤ limit) : readDigits limit acc cs = .ok n ↔
    (∀ c ∈ cs, c.isDigit = true) ∧ Nat.ofDigitChars 10 cs acc = n ∧ n ≤ limit := by
  constructor
  · intro h
    fun_induction readDigits limit acc cs with
    | case1 acc =>
      obtain rfl := Except.ok.inj h
      exact ⟨fun _ hc => absurd hc List.not_mem_nil, Nat.ofDigitChars_nil, hacc⟩
    | case2 acc c cs hno => exact nomatch h
    | case3 acc c cs d hd hle ih =>
      obtain ⟨hdigits, hvalue, hn⟩ := ih hle h
      obtain ⟨hc, heq⟩ := Option.ite_none_right_eq_some.mp hd
      obtain rfl := Option.some.inj heq
      refine ⟨List.forall_mem_cons.mpr ⟨hc, hdigits⟩, ?_, hn⟩
      rw [Nat.ofDigitChars_cons, Nat.mul_comm]
      exact hvalue
    | case4 acc c cs d hd hlarge => exact nomatch h
  · rintro ⟨hdigits, rfl, hfit⟩
    exact readDigits_ok hdigits hfit

theorem readDigits_zero_eq_ok_iff (hne : cs ≠ []) :
    readDigits limit 0 cs = .ok n ↔ Digits cs n ∧ n ≤ limit := by
  rw [readDigits_eq_ok_iff (Nat.zero_le limit), ← and_assoc]
  exact and_congr_left fun _ => ⟨fun h => ⟨hne, h.1, h.2⟩, fun h => ⟨h.isDigit, h.value⟩⟩

theorem Digits.plus_not_mem (h : Digits cs n) : '+' ∉ cs :=
  fun hmem => absurd (h.isDigit '+' hmem) (by decide)

theorem not_writes_nil : ¬ Writes [] n := by
  rintro (h | ⟨digits, heq, -⟩)
  · exact h.ne_nil rfl
  · exact nomatch heq

theorem writes_plus_iff : Writes ('+' :: cs) n ↔ Digits cs n := by
  constructor
  · rintro (h | ⟨digits, heq, h⟩)
    · exact absurd List.mem_cons_self h.plus_not_mem
    · rwa [(List.cons.inj heq).2]
  · exact fun h => .inr ⟨cs, rfl, h⟩

theorem writes_cons_iff (hc : c ≠ '+') : Writes (c :: cs) n ↔ Digits (c :: cs) n := by
  refine or_iff_left ?_
  rintro ⟨digits, heq, -⟩
  exact hc (List.cons.inj heq).1

theorem read_eq_ok_iff : read limit cs = .ok n ↔ Writes cs n ∧ n ≤ limit := by
  fun_cases read limit cs with
  | case1 => exact iff_of_false nofun fun h => not_writes_nil h.1
  | case2 => exact iff_of_false nofun fun h => (writes_plus_iff.mp h.1).ne_nil rfl
  | case3 c cs =>
    rw [writes_plus_iff]
    exact readDigits_zero_eq_ok_iff (List.cons_ne_nil c cs)
  | case4 c cs hlone hsign =>
    have hc : c ≠ '+' := fun hplus => by
      cases cs with
      | nil => exact hlone hplus rfl
      | cons d ds => exact hsign d ds hplus rfl
    rw [writes_cons_iff hc]
    exact readDigits_zero_eq_ok_iff (List.cons_ne_nil c cs)

theorem writes_toDigits (n : Nat) : Writes (Nat.toDigits 10 n) n :=
  .inl ⟨Nat.toDigits_ne_nil, fun _ hc => Nat.isDigit_of_mem_toDigits (by decide) (by decide) hc,
    Nat.ofDigitChars_ten_toDigits⟩

theorem read_toDigits (h : n ≤ limit) : read limit (Nat.toDigits 10 n) = .ok n :=
  read_eq_ok_iff.mpr ⟨writes_toDigits n, h⟩

theorem ofText_repr (h : n ≤ limit) : ofText limit n.repr = .ok n := by
  unfold ofText
  rw [Nat.toList_repr]
  exact read_toDigits h

end Numeral

theorem Peer.ofNumeral_toText (p : Peer) : Peer.ofNumeral p.toText = .ok p := by
  have hlt : p.number.toNat ≤ UInt64.size - 1 := Nat.le_sub_one_of_lt p.number.toNat_lt
  unfold Peer.ofNumeral Peer.toText
  rw [Numeral.ofText_repr hlt]
  change Except.ok (Peer.mk (UInt64.ofNat p.number.toNat)) = _
  rw [UInt64.ofNat_toNat]

end CausalReplica
