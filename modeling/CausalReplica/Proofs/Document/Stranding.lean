import CausalReplica.Proofs.Document.Run

/-!
# Edits that fail

An edit that records one operation at most leaves the document as it was when it fails. Inserting a
child records two. When the second cannot be recorded, because its position or its counter does not
fit, the first stays: the child is known, and the next commit creates it, but nothing refers to it.
-/

namespace CausalReplica

theorem Measure.narrow_of_le {what : Measure} {n : Nat} (h : n ≤ Word.top) :
    what.narrow n = .ok n := if_pos h

theorem Measure.narrow_of_lt {what : Measure} {n : Nat} (h : Word.top < n) :
    what.narrow n = .error (.invalidState (.outOfRange what n)) := if_neg (Nat.not_le_of_lt h)

namespace Document

variable {d next : Document} {container parent : ContainerId} {content : Content} {kind : Kind}
  {edit : Edit} {e : Error} {value : Value}

section Record

/-- The counter that the next operation gets when it is recorded. -/
def nextFree (d : Document) : Nat := d.log.nextCounter d.peer + d.txn.length

theorem record_of_room (hknown : d.registry.contains container = true)
    (hroom : d.nextFree + content.atoms ≤ Word.top) :
    ∃ next, d.record container content = .ok (next, ⟨d.peer, d.nextFree⟩) := by
  have hatoms : content.checkedAtoms = some content.atoms :=
    Word.checked_eq_some_iff.mpr ⟨Nat.le_of_add_left_le hroom, rfl⟩
  unfold record
  rw [hknown, hatoms]
  exact ⟨_, if_neg (Nat.not_lt_of_le hroom)⟩

theorem record_of_full (hknown : d.registry.contains container = true)
    (hfull : Word.top < d.nextFree + content.atoms) :
    d.record container content = .error (.invalidState (.counterOverflow d.peer)) := by
  unfold record
  rw [hknown, if_neg (by decide)]
  dsimp only
  split
  · rfl
  · next hatoms =>
    obtain ⟨_, rfl⟩ := Word.checked_eq_some_iff.mp hatoms
    exact if_pos hfull

theorem edit_of_full (hknown : d.registry.contains container = true)
    (hfull : Word.top < d.nextFree + content.atoms) :
    d.edit container content = .error (.invalidState (.counterOverflow d.peer)) := by
  rw [edit, record_of_full hknown hfull]
  rfl

/-- In a known container, only a lack of counters keeps an operation from being recorded. -/
theorem edit_error (hknown : d.registry.contains container = true)
    (h : d.edit container content = .error e) :
    Word.top < d.nextFree + content.atoms ∧ e = .invalidState (.counterOverflow d.peer) := by
  rcases Nat.lt_or_ge Word.top (d.nextFree + content.atoms) with hfull | hroom
  · exact ⟨hfull, Except.error.inj (h.symm.trans (edit_of_full hknown hfull))⟩
  · obtain ⟨next, hok⟩ := record_of_room hknown hroom
    rw [edit, hok] at h
    exact nomatch h

theorem insertValue_of_lt {handle : Handle .list} {pos : Nat} (hpast : Word.top < pos) :
    d.insertValue handle pos value = .error (.invalidState (.outOfRange .position pos)) := by
  rw [insertValue, Measure.narrow_of_lt hpast]
  rfl

theorem insertValue_of_le {handle : Handle .list} {pos : Nat} (hfit : pos ≤ Word.top) :
    d.insertValue handle pos value = d.edit handle.id (.insertValues pos [value]) := by
  rw [insertValue, Measure.narrow_of_le hfit]
  rfl

end Record

section Stranded

/-- The child that is created if the creation is what is recorded next. -/
def nextChild (d : Document) (kind : Kind) : ContainerId := .child ⟨d.peer, d.nextFree⟩ kind

/-- `d` after the creation of a child of `parent` was recorded, and nothing else. -/
def stranded (d : Document) (parent : ContainerId) (kind : Kind) : Document :=
  { d with
    registry := d.registry.register (d.nextChild kind)
    txn := ⟨d.txn.items ++ [(parent, .createChild kind)], d.txn.length + 1⟩ }

theorem nextFree_stranded : (d.stranded parent kind).nextFree = d.nextFree + 1 := rfl

theorem full_stranded (hlast : d.nextFree + 1 = Word.top) :
    Word.top < (d.stranded parent kind).nextFree + 1 := by
  rw [nextFree_stranded, hlast]
  exact Nat.lt_succ_self _

theorem contains_stranded (hknown : d.registry.contains container = true) :
    (d.stranded parent kind).registry.contains container = true :=
  Registry.contains_register.mpr (.inr hknown)

theorem stranded_ne : d.stranded parent kind ≠ d := by
  intro heq
  have hitems : d.txn.items ++ [(parent, .createChild kind)] = d.txn.items :=
    congrArg (·.txn.items) heq
  simp at hitems

theorem record_createChild (hknown : d.registry.contains parent = true)
    (hroom : d.nextFree < Word.top) :
    d.record parent (.createChild kind) = .ok (d.stranded parent kind, ⟨d.peer, d.nextFree⟩) := by
  unfold record
  rw [hknown]
  exact if_neg (Nat.not_lt_of_le hroom)

variable {refer : Document → Value → Except Error Document}

theorem insertChildWith_of_room (hknown : d.registry.contains parent = true)
    (hroom : d.nextFree < Word.top) :
    d.insertChildWith parent kind refer =
      match refer (d.stranded parent kind) (.container (d.nextChild kind)) with
      | .error e => (d.stranded parent kind, .error e)
      | .ok next => (next, .ok (d.nextChild kind)) := by
  rw [insertChildWith, record_createChild hknown hroom]
  rfl

/-- Either the creation cannot be recorded, or the reference cannot. -/
theorem insertChildWith_error (h : (d.insertChildWith parent kind refer).2 = .error e) :
    (d.insertChildWith parent kind refer).1 = d ∨
      (d.registry.contains parent = true ∧ d.nextFree < Word.top ∧
        refer (d.stranded parent kind) (.container (d.nextChild kind)) = .error e) := by
  cases hrec : d.record parent (.createChild kind) with
  | error e' =>
    rw [insertChildWith, hrec]
    exact .inl rfl
  | ok recorded =>
    obtain ⟨hknown, hid, hroom, _⟩ := record_spec hrec
    rw [hid] at hroom
    replace hroom : d.nextFree < Word.top := hroom
    rw [insertChildWith_of_room hknown hroom] at h
    refine .inr ⟨hknown, hroom, ?_⟩
    cases hrefer : refer (d.stranded parent kind) (.container (d.nextChild kind)) with
    | error e' =>
      rw [hrefer] at h
      exact congrArg Except.error (Except.error.inj h)
    | ok next =>
      rw [hrefer] at h
      exact nomatch h

end Stranded

/-- The edit creates a child of `parent`, and then cannot refer to it. -/
inductive Strands (d : Document) : Edit → ContainerId → Kind → Error → Prop
  | position (handle : Handle .list) (pos : Nat) (kind : Kind)
      (hknown : d.registry.contains handle.id = true) (hroom : d.nextFree < Word.top)
      (hpast : Word.top < pos) :
      Strands d (.insertListChild handle pos kind) handle.id kind
        (.invalidState (.outOfRange .position pos))
  | listCounter (handle : Handle .list) (pos : Nat) (kind : Kind)
      (hknown : d.registry.contains handle.id = true) (hlast : d.nextFree + 1 = Word.top)
      (hfit : pos ≤ Word.top) :
      Strands d (.insertListChild handle pos kind) handle.id kind
        (.invalidState (.counterOverflow d.peer))
  | mapCounter (handle : Handle .map) (key : String) (kind : Kind)
      (hknown : d.registry.contains handle.id = true) (hlast : d.nextFree + 1 = Word.top) :
      Strands d (.insertMapChild handle key kind) handle.id kind
        (.invalidState (.counterOverflow d.peer))

def errorOf? {α : Type} : Except Error α → Option Error
  | .error e => some e
  | .ok _ => none

/-- The error that the edit ends with, if it fails. -/
def failure? (d : Document) : Edit → Option Error
  | .root .. => none
  | .insertText h pos text => errorOf? (d.insertText h pos text)
  | .deleteText h pos len => errorOf? (d.deleteText h pos len)
  | .insertValue h pos value => errorOf? (d.insertValue h pos value)
  | .deleteValues h pos len => errorOf? (d.deleteValues h pos len)
  | .insertListChild h pos kind => errorOf? (d.insertListChild h pos kind).2
  | .setKey h key value => errorOf? (d.setKey h key value)
  | .clearKey h key => errorOf? (d.clearKey h key)
  | .insertMapChild h key kind => errorOf? (d.insertMapChild h key kind).2

theorem eq_error_of_errorOf? {α : Type} {result : Except Error α} (h : errorOf? result = some e) :
    result = .error e := by
  cases result with
  | error e' => exact congrArg Except.error (Option.some.inj h)
  | ok a => exact nomatch h

theorem orKeep_of_errorOf? {result : Except Error Document} (h : errorOf? result = some e) :
    d.orKeep result = d := by rw [eq_error_of_errorOf? h, orKeep]

theorem insertListChild_error {handle : Handle .list} {pos : Nat}
    (h : errorOf? (d.insertListChild handle pos kind).2 = some e) :
    (d.insertListChild handle pos kind).1 = d ∨
      d.Strands (.insertListChild handle pos kind) handle.id kind e := by
  refine (insertChildWith_error (eq_error_of_errorOf? h)).imp_right ?_
  rintro ⟨hknown, hroom, hrefer⟩
  rcases Nat.lt_or_ge Word.top pos with hpast | hfit
  · rw [insertValue_of_lt hpast] at hrefer
    cases hrefer
    exact .position handle pos kind hknown hroom hpast
  · rw [insertValue_of_le hfit] at hrefer
    obtain ⟨hfull, rfl⟩ := edit_error (contains_stranded hknown) hrefer
    replace hfull : Word.top < d.nextFree + 1 + 1 := hfull
    exact .listCounter handle pos kind hknown (by omega) hfit

theorem insertMapChild_error {handle : Handle .map} {key : String}
    (h : errorOf? (d.insertMapChild handle key kind).2 = some e) :
    (d.insertMapChild handle key kind).1 = d ∨
      d.Strands (.insertMapChild handle key kind) handle.id kind e := by
  refine (insertChildWith_error (eq_error_of_errorOf? h)).imp_right ?_
  rintro ⟨hknown, hroom, hrefer⟩
  obtain ⟨hfull, rfl⟩ := edit_error (contains_stranded hknown) hrefer
  replace hfull : Word.top < d.nextFree + 1 + 1 := hfull
  exact .mapCounter handle key kind hknown (by omega)

/-- A failed edit leaves the document as it was, or strands a child. -/
theorem apply_eq_or_strands (h : d.failure? edit = some e) :
    d.apply edit = d ∨ ∃ parent kind, d.Strands edit parent kind e := by
  cases edit with
  | root name kind => exact nomatch h
  | insertText handle pos text => exact .inl (orKeep_of_errorOf? h)
  | deleteText handle pos len => exact .inl (orKeep_of_errorOf? h)
  | insertValue handle pos value => exact .inl (orKeep_of_errorOf? h)
  | deleteValues handle pos len => exact .inl (orKeep_of_errorOf? h)
  | insertListChild handle pos kind =>
    exact (insertListChild_error h).imp_right fun hstrands => ⟨_, _, hstrands⟩
  | setKey handle key value => exact .inl (orKeep_of_errorOf? h)
  | clearKey handle key => exact .inl (orKeep_of_errorOf? h)
  | insertMapChild handle key kind =>
    exact (insertMapChild_error h).imp_right fun hstrands => ⟨_, _, hstrands⟩

theorem Strands.outcome (h : d.Strands edit parent kind e) :
    d.failure? edit = some e ∧ d.apply edit = d.stranded parent kind := by
  cases h with
  | position handle pos kind hknown hroom hpast =>
    have hchild : d.insertListChild handle pos kind =
        (d.stranded handle.id kind, .error (.invalidState (.outOfRange .position pos))) := by
      rw [insertListChild, insertChildWith_of_room hknown hroom, insertValue_of_lt hpast]
    rw [failure?, apply, hchild]
    exact ⟨rfl, rfl⟩
  | listCounter handle pos kind hknown hlast hfit =>
    have hchild : d.insertListChild handle pos kind =
        (d.stranded handle.id kind, .error (.invalidState (.counterOverflow d.peer))) := by
      rw [insertListChild, insertChildWith_of_room hknown (by omega), insertValue_of_le hfit,
        edit_of_full (contains_stranded hknown) (full_stranded hlast)]
      rfl
    rw [failure?, apply, hchild]
    exact ⟨rfl, rfl⟩
  | mapCounter handle key kind hknown hlast =>
    have hchild : d.insertMapChild handle key kind =
        (d.stranded handle.id kind, .error (.invalidState (.counterOverflow d.peer))) := by
      rw [insertMapChild, insertChildWith_of_room hknown (by omega), setKey,
        edit_of_full (contains_stranded hknown) (full_stranded hlast)]
      rfl
    rw [failure?, apply, hchild]
    exact ⟨rfl, rfl⟩

/-- An edit fails and yet changes the document exactly when it creates a child and then cannot
refer to it. Nothing but the creation is recorded then. -/
theorem failed_edit_changes_iff (d : Document) (edit : Edit) (e : Error) :
    ((d.failure? edit = some e ∧ d.apply edit ≠ d) ↔ ∃ parent kind, d.Strands edit parent kind e) ∧
    ∀ parent kind, d.Strands edit parent kind e → d.apply edit = d.stranded parent kind := by
  refine ⟨⟨fun ⟨hfail, hchanged⟩ => ?_, fun ⟨parent, kind, hstrands⟩ => ?_⟩,
    fun parent kind hstrands => hstrands.outcome.2⟩
  · exact (apply_eq_or_strands hfail).resolve_left hchanged
  · obtain ⟨hfail, heq⟩ := hstrands.outcome
    exact ⟨hfail, heq ▸ stranded_ne⟩

/-- A deletion took all counters but one. -/
def filled : Document :=
  (ofConfig {} ⟨1⟩).run
    [.edit (.root "t" .text), .edit (.root "m" .map),
      .edit (.deleteText (.root "t" .text) 0 4294967294)]

theorem failed_edit_changes_iff_last_counter :
    let edit : Edit := .insertMapChild ⟨.root "m" .map, rfl⟩ "k" .list
    filled.failure? edit = some (.invalidState (.counterOverflow ⟨1⟩)) ∧
      filled.apply edit ≠ filled ∧
      (filled.apply edit).registry.contains (.child ⟨⟨1⟩, 4294967294⟩ .list) = true := by
  intro edit
  have hstrands : filled.Strands edit (.root "m" .map) .list
      (.invalidState (.counterOverflow filled.peer)) :=
    .mapCounter ⟨.root "m" .map, rfl⟩ "k" .list (by decide) (by decide)
  obtain ⟨hiff, hstranded⟩ :=
    failed_edit_changes_iff filled edit (.invalidState (.counterOverflow ⟨1⟩))
  obtain ⟨hfail, hchanged⟩ := hiff.mpr ⟨_, _, hstrands⟩
  refine ⟨hfail, hchanged, ?_⟩
  rw [hstranded _ _ hstrands]
  decide

/-- A document of the first peer with a list. -/
def listed : Document := (ofConfig {} ⟨1⟩).run [.edit (.root "l" .list)]

/-- A failed edit need not keep what is recorded and what is known. -/
theorem failed_edit_strands_child :
    ¬ ∀ d : Document, d.Reachable → ∀ edit e, d.failure? edit = some e →
      (d.apply edit).txn = d.txn ∧ (d.apply edit).registry = d.registry := by
  intro hkeeps
  have hstrands : listed.Strands (.insertListChild ⟨.root "l" .list, rfl⟩ 4294967296 .map)
      (.root "l" .list) .map (.invalidState (.outOfRange .position 4294967296)) :=
    .position ⟨.root "l" .list, rfl⟩ 4294967296 .map (by decide) (by decide) (by decide)
  obtain ⟨hfail, heq⟩ := hstrands.outcome
  obtain ⟨htxn, _⟩ := hkeeps listed ⟨{}, ⟨1⟩, _, rfl⟩ _ _ hfail
  rw [heq] at htxn
  exact absurd htxn (by decide)

end Document

end CausalReplica
