import CausalReplica.Proofs.Change.Fits
import CausalReplica.Proofs.Numeral
import CausalReplica.Proofs.Outcome

/-!
# The texts of children

A text names a child if it is a counter, a kind and a peer with their separators. The numbers may be
written in several ways, so a child has many such texts, but each of them names only that child.
-/

namespace CausalReplica

variable {sep : Char} {s before after : List Char} {n : Nat} {text : String} {p : Peer}
  {kind : Kind} {id : OpId} {x : ContainerId}

theorem splitAtFirst_append (h : sep ∉ before) :
    splitAtFirst sep (before ++ sep :: after) = some (before, after) := by
  induction before with
  | nil => exact if_pos rfl
  | cons c cs ih =>
    obtain ⟨hc, hcs⟩ := List.ne_and_not_mem_of_not_mem_cons h
    rw [List.cons_append, splitAtFirst, if_neg (Ne.symm hc), ih hcs]
    rfl

theorem splitAtFirst_eq_some_iff :
    splitAtFirst sep s = some (before, after) ↔ s = before ++ sep :: after ∧ sep ∉ before := by
  constructor
  · intro h
    fun_induction splitAtFirst sep s generalizing before with
    | case1 => exact nomatch h
    | case2 cs =>
      cases h
      exact ⟨rfl, List.not_mem_nil⟩
    | case3 c cs hc ih =>
      obtain ⟨⟨rest, _⟩, hrest, heq⟩ := Option.map_eq_some_iff.mp h
      cases heq
      obtain ⟨rfl, hnot⟩ := ih hrest
      exact ⟨rfl, List.not_mem_cons_of_ne_of_not_mem (Ne.symm hc) hnot⟩
  · rintro ⟨rfl, hnot⟩
    exact splitAtFirst_append hnot

theorem Kind.ofName?_eq_some_iff : ofName? text = some kind ↔ text = kind.name := by
  constructor
  · intro h
    unfold ofName? at h
    split at h <;> cases h <;> rfl
  · rintro rfl
    exact ofName?_name kind

theorem Kind.read_eq_ok_iff : Kind.read text = .ok kind ↔ text = kind.name := by
  rw [← ofName?_eq_some_iff]
  unfold Kind.read
  cases ofName? text <;> simp

theorem Kind.separator_not_mem_name : '@' ∉ kind.name.toList := by
  cases kind <;> decide

theorem Numeral.Writes.separator_not_mem (h : Writes s n) : ':' ∉ s := by
  have hdigits : ∀ {ds}, Digits ds n → ':' ∉ ds :=
    fun h hmem => absurd (h.isDigit ':' hmem) (by decide)
  rcases h with h | ⟨ds, rfl, h⟩
  · exact hdigits h
  · exact List.not_mem_cons_of_ne_of_not_mem (by decide) (hdigits h)

theorem Peer.read_eq_ok_iff : Peer.read text = .ok p ↔
    ∃ n, Numeral.Writes text.toList n ∧ n < UInt64.size ∧ p = ⟨UInt64.ofNat n⟩ := by
  have hlimit : ∀ n, n ≤ UInt64.size - 1 ↔ n < UInt64.size := fun n => by
    have : 0 < UInt64.size := by decide
    omega
  constructor
  · intro h
    obtain ⟨n, hread, rfl⟩ := Outcome.of_map_ok (Outcome.of_mapError_ok h)
    obtain ⟨hwrites, hle⟩ := Numeral.read_eq_ok_iff.mp hread
    exact ⟨n, hwrites, (hlimit n).mp hle, rfl⟩
  · rintro ⟨n, hwrites, hlt, rfl⟩
    have hread : Numeral.ofText (UInt64.size - 1) text = .ok n :=
      Numeral.read_eq_ok_iff.mpr ⟨hwrites, (hlimit n).mpr hlt⟩
    unfold Peer.read Peer.ofNumeral
    rw [hread]
    rfl

theorem Peer.read_toText (p : Peer) : Peer.read p.toText = .ok p := by
  unfold Peer.read
  rw [Peer.ofNumeral_toText]
  rfl

namespace ContainerId

/-- The text is a counter, a kind and a peer with their separators, and `x` the child of that kind
that the peer's operation created. -/
def Spelling (text : String) (x : ContainerId) : Prop :=
  ∃ (counter peer : List Char) (n m : Nat) (kind : Kind),
    text.toList = counter ++ ':' :: (kind.name.toList ++ '@' :: peer) ∧
    Numeral.Writes counter n ∧ n ≤ Word.top ∧ Numeral.Writes peer m ∧ m < UInt64.size ∧
    x = .child ⟨⟨UInt64.ofNat m⟩, n⟩ kind

theorem not_spelling_root {name : String} : ¬ Spelling text (.root name kind) := by
  rintro ⟨_, _, _, _, _, _, _, _, _, _, heq⟩
  exact nomatch heq

theorem read_of_spelling (h : Spelling text x) : ContainerId.read text = .ok x := by
  obtain ⟨counter, peer, n, m, kind, htext, hcounter, hn, hpeer, hm, rfl⟩ := h
  have hpeer : Peer.read (String.ofList peer) = .ok ⟨UInt64.ofNat m⟩ :=
    Peer.read_eq_ok_iff.mpr ⟨m, String.toList_ofList.symm ▸ hpeer, hm, rfl⟩
  have hkind : Kind.read (String.ofList kind.name.toList) = .ok kind :=
    Kind.read_eq_ok_iff.mpr String.ofList_toList
  unfold ContainerId.read
  rw [htext, splitAtFirst_append hcounter.separator_not_mem]
  dsimp only
  rw [splitAtFirst_append Kind.separator_not_mem_name]
  dsimp only
  rw [Numeral.read_eq_ok_iff.mpr ⟨hcounter, hn⟩]
  dsimp only
  rw [hpeer, hkind]
  rfl

theorem spelling_of_read (h : ContainerId.read text = .ok x) : Spelling text x := by
  -- One split for each separator and one for the counter; errors of peer and kind end the binds.
  unfold ContainerId.read at h
  split at h
  · exact nomatch h
  · next counter rest hcolon =>
    split at h
    · exact nomatch h
    · next kind peer hat =>
      split at h
      · exact nomatch h
      · next n hread =>
        obtain ⟨p, hreadPeer, h⟩ := Outcome.of_bind_ok h
        obtain ⟨k, hreadKind, h⟩ := Outcome.of_bind_ok h
        obtain ⟨hcounter, hn⟩ := Numeral.read_eq_ok_iff.mp hread
        obtain ⟨m, hpeer, hm, rfl⟩ := Peer.read_eq_ok_iff.mp hreadPeer
        have hkind : kind = k.name.toList := by
          rw [← Kind.read_eq_ok_iff.mp hreadKind, String.toList_ofList]
        rw [String.toList_ofList] at hpeer
        have htext := (splitAtFirst_eq_some_iff.mp hcolon).1
        rw [(splitAtFirst_eq_some_iff.mp hat).1, hkind] at htext
        exact ⟨counter, peer, n, m, k, htext, hcounter, hn, hpeer, hm, (Except.ok.inj h).symm⟩

theorem read_eq_ok_iff : ContainerId.read text = .ok x ↔ Spelling text x :=
  ⟨spelling_of_read, read_of_spelling⟩

theorem spelling_toText (h : id.Fits) : Spelling (child id kind).toText (.child id kind) := by
  refine ⟨Nat.toDigits 10 id.counter, Nat.toDigits 10 id.peer.number.toNat, id.counter,
    id.peer.number.toNat, kind, ?_, Numeral.writes_toDigits _, h, Numeral.writes_toDigits _,
    id.peer.number.toNat_lt, ?_⟩
  · simp [toText, Peer.toText, Nat.toList_repr]
  · rw [UInt64.ofNat_toNat]

theorem read_toText (h : id.Fits) :
    ContainerId.read (child id kind).toText = .ok (.child id kind) :=
  read_of_spelling (spelling_toText h)

/-- A text is read as a child exactly if it spells that child. The text of a child does, so no two
children share one. A peer, too, is read back from its text. -/
theorem child_texts_read_back :
    (∀ text x, ContainerId.read text = .ok x ↔ Spelling text x) ∧
    (∀ id kind, id.Fits → ContainerId.read (child id kind).toText = .ok (child id kind)) ∧
    (∀ p : Peer, Peer.read p.toText = .ok p) ∧
    ∀ id kind other kind', id.Fits → OpId.Fits other →
      child id kind ≠ child other kind' → (child id kind).toText ≠ (child other kind').toText := by
  refine ⟨fun text x => read_eq_ok_iff, fun id kind => read_toText, Peer.read_toText, ?_⟩
  intro id kind other kind' hid hother hne heq
  have hread : ContainerId.read (child id kind).toText = .ok (child id kind) := read_toText hid
  rw [heq, read_toText hother] at hread
  exact hne (Except.ok.inj hread).symm

/-- With a plus sign and leading zeros the largest peer is still meant. -/
theorem child_texts_read_back_untidy :
    ContainerId.read "+07:Map@0018446744073709551615" =
      .ok (.child ⟨⟨18446744073709551615⟩, 7⟩ .map) ∧
    ContainerId.read (child ⟨⟨18446744073709551615⟩, 7⟩ .map).toText =
      .ok (.child ⟨⟨18446744073709551615⟩, 7⟩ .map) ∧
    (child ⟨⟨1⟩, 23⟩ .text).toText ≠ (child ⟨⟨3⟩, 12⟩ .text).toText := by
  obtain ⟨hread, hback, -, hdistinct⟩ := child_texts_read_back
  refine ⟨(hread _ _).mpr ?_, hback _ _ (by decide), hdistinct _ _ _ _ (by decide) (by decide) ?_⟩
  · exact ⟨['+', '0', '7'], "0018446744073709551615".toList, 7, 18446744073709551615, .map,
      by decide, .inr ⟨['0', '7'], rfl, by decide, List.all_eq_true.mp (by decide), by decide⟩,
      by decide, .inl ⟨by decide, List.all_eq_true.mp (by decide), by decide⟩, by decide, rfl⟩
  · decide

end ContainerId

end CausalReplica
