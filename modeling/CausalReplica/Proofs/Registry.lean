import CausalReplica.Proofs.Id.Reader
import CausalReplica.Registry

/-!
# What a text resolves to

A text that spells a child is looked up as that child and as nothing else, and any other text as the
name of a root. So a container is found by its own text unless it is a root whose name spells a
child: such a root is known to the registry, but its text leads past it.
-/

namespace CausalReplica.Registry

open ContainerId (Spelling)

variable {r : Registry} {id x : ContainerId} {ids : List ContainerId} {text name : String}
  {kind other : Kind}

/-- The registry after all the ids have been registered. -/
def registerEach (r : Registry) (ids : List ContainerId) : Registry := ids.foldl register r

theorem mem_registerEach : x ∈ (r.registerEach ids).known ↔ x ∈ ids ∨ x ∈ r.known := by
  induction ids generalizing r with
  | nil => simp [registerEach]
  | cons id ids ih =>
    have hrest : x ∈ (r.registerEach (id :: ids)).known ↔ x ∈ ids ∨ x ∈ (r.register id).known := ih
    rw [hrest, mem_register, List.mem_cons, or_left_comm, or_assoc]

theorem get_eq (r : Registry) (x : ContainerId) :
    r.get x = if x ∈ r.known then .ok x else .error (.notFound (.container x.toText)) := by
  unfold get
  simp only [contains_iff_mem]

theorem get_of_mem (h : x ∈ r.known) : r.get x = .ok x := (get_eq r x).trans (if_pos h)

theorem get_of_not_mem (h : x ∉ r.known) : r.get x = .error (.notFound (.container x.toText)) :=
  (get_eq r x).trans (if_neg h)

theorem eq_of_get (h : r.get x = .ok id) : x = id := by
  rw [get_eq] at h
  split at h
  · exact Except.ok.inj h
  · exact nomatch h

theorem mem_rootsNamed : x ∈ r.rootsNamed name ↔ x ∈ r.known ∧ ∃ kind, x = .root name kind := by
  unfold rootsNamed
  rw [List.mem_filter]
  refine and_congr_right fun _ => ?_
  cases x with
  | root n kind => simp
  | child id kind => simp

theorem resolve_of_spelling (h : Spelling text x) : r.resolve text = r.get x := by
  unfold resolve
  rw [ContainerId.read_of_spelling h]

theorem resolve_of_not_spelling (h : ∀ x, ¬ Spelling text x) :
    r.resolve text = match r.rootsNamed text with
      | [] => .error (.notFound (.container text))
      | [id] => .ok id
      | _ :: _ :: _ => .error (.invalidState (.ambiguousRoot text)) := by
  unfold resolve
  cases hread : ContainerId.read text with
  | ok x => exact absurd (ContainerId.spelling_of_read hread) (h x)
  | error e => rfl

theorem resolve_of_only (hspell : ∀ x, ¬ Spelling name x) (hmem : .root name kind ∈ r.known)
    (honly : ∀ k, .root name k ∈ r.known → k = kind) : r.resolve name = .ok (.root name kind) := by
  have hascending : Ordered.Ascending (r.rootsNamed name) := List.Pairwise.filter _ r.ascending
  have hroots : r.rootsNamed name = [.root name kind] := by
    apply Ordered.eq_of_mem_iff hascending (List.pairwise_singleton _ _)
    intro x
    rw [mem_rootsNamed, List.mem_singleton]
    constructor
    · rintro ⟨hx, k, rfl⟩
      rw [honly k hx]
    · rintro rfl
      exact ⟨hmem, kind, rfl⟩
  rw [resolve_of_not_spelling hspell, hroots]

theorem resolve_of_several (hspell : ∀ x, ¬ Spelling name x) (hne : kind ≠ other)
    (hmem : .root name kind ∈ r.known) (hother : .root name other ∈ r.known) :
    r.resolve name = .error (.invalidState (.ambiguousRoot name)) := by
  have hkind := mem_rootsNamed.mpr ⟨hmem, kind, rfl⟩
  have hother := mem_rootsNamed.mpr ⟨hother, other, rfl⟩
  rw [resolve_of_not_spelling hspell]
  split
  · next hroots => exact absurd (hroots ▸ hkind) List.not_mem_nil
  · next root hroots =>
    rw [hroots, List.mem_singleton] at hkind hother
    exact absurd (ContainerId.root.inj (hkind.trans hother.symm)).2 hne
  · rfl

/-- The text of a registered child finds it, and so does the name of a root that is the only one of
its name, unless it spells a child. -/
theorem resolve_toText_iff (hid : id ∈ r.known) (hfit : id.Fits)
    (honly : ∀ x ∈ r.known, x.toText = id.toText → x = id) :
    r.resolve id.toText = .ok id ↔ ∀ x, Spelling id.toText x → x = id := by
  constructor
  · intro hresolve x hx
    rw [resolve_of_spelling hx] at hresolve
    exact eq_of_get hresolve
  · intro hspell
    cases id with
    | child id kind =>
      rw [resolve_of_spelling (ContainerId.spelling_toText hfit)]
      exact get_of_mem hid
    | root name kind =>
      refine resolve_of_only (fun x hx => ?_) hid fun k hk => ?_
      · exact ContainerId.not_spelling_root (hspell x hx ▸ hx)
      · exact (ContainerId.root.inj (honly _ hk rfl)).2

/-- A name that roots of several kinds have leads to an error, unless it spells a known child. -/
theorem resolve_several_error_iff (hne : kind ≠ other) (hmem : .root name kind ∈ r.known)
    (hother : .root name other ∈ r.known) :
    (∃ e, r.resolve name = .error e) ↔ ∀ x, Spelling name x → x ∉ r.known := by
  constructor
  · rintro ⟨e, herror⟩ x hx hknown
    rw [resolve_of_spelling hx, get_of_mem hknown] at herror
    exact nomatch herror
  · intro hunknown
    by_cases hspell : ∃ x, Spelling name x
    · obtain ⟨x, hx⟩ := hspell
      exact ⟨_, (resolve_of_spelling hx).trans (get_of_not_mem (hunknown x hx))⟩
    · exact ⟨_, resolve_of_several (not_exists.mp hspell) hne hmem hother⟩

/-- A registered container with a text of its own is found by that text exactly if it spells no
other container. A name that roots of several kinds have leads to an error, unless it spells a
registered child. Texts that spell a child lead to that child only. -/
theorem own_texts_resolve (ids : List ContainerId) (hfit : ∀ x ∈ ids, x.Fits) :
    (∀ id ∈ ids, (∀ x ∈ ids, x.toText = id.toText → x = id) →
      ((empty.registerEach ids).resolve id.toText = .ok id ↔
        ∀ x, Spelling id.toText x → x = id)) ∧
    (∀ name kind other, kind ≠ other → .root name kind ∈ ids → .root name other ∈ ids →
      ((∃ e, (empty.registerEach ids).resolve name = .error e) ↔ ∀ x, Spelling name x → x ∉ ids) ∧
      ((∀ x, ¬ Spelling name x) → (empty.registerEach ids).resolve name =
        .error (.invalidState (.ambiguousRoot name)))) ∧
    ∀ text x, Spelling text x → (empty.registerEach ids).resolve text =
      if x ∈ ids then .ok x else .error (.notFound (.container x.toText)) := by
  have hknown : ∀ x, x ∈ (empty.registerEach ids).known ↔ x ∈ ids := fun x =>
    mem_registerEach.trans (or_iff_left List.not_mem_nil)
  refine ⟨fun id hid honly => ?_, fun name kind other hne hkind hother => ⟨?_, fun hspell => ?_⟩,
    fun text x hx => ?_⟩
  · refine resolve_toText_iff ((hknown id).mpr hid) (hfit id hid) fun x hx => ?_
    exact honly x ((hknown x).mp hx)
  · rw [resolve_several_error_iff hne ((hknown _).mpr hkind) ((hknown _).mpr hother)]
    simp only [hknown]
  · exact resolve_of_several hspell hne ((hknown _).mpr hkind) ((hknown _).mpr hother)
  · rw [resolve_of_spelling hx, get_eq]
    simp only [hknown]

/-- A child, a root whose name spells this child in another way, and two roots of one name. -/
def lookalikes : List ContainerId :=
  [.root "+7:Map@03" .text, .child ⟨⟨3⟩, 7⟩ .map, .root "notes" .text, .root "notes" .list]

theorem own_texts_resolve_lookalikes :
    (empty.registerEach lookalikes).resolve "7:Map@3" = .ok (.child ⟨⟨3⟩, 7⟩ .map) ∧
    (empty.registerEach lookalikes).resolve "+7:Map@03" = .ok (.child ⟨⟨3⟩, 7⟩ .map) ∧
    (empty.registerEach lookalikes).resolve "notes" =
      .error (.invalidState (.ambiguousRoot "notes")) := by
  obtain ⟨hown, hseveral, hspelled⟩ := own_texts_resolve lookalikes (by decide)
  have hspelling : Spelling "+7:Map@03" (.child ⟨⟨3⟩, 7⟩ .map) :=
    ContainerId.spelling_of_read (by rfl)
  have hread : ContainerId.read "7:Map@3" = .ok (.child ⟨⟨3⟩, 7⟩ .map) := by rfl
  have hname : ContainerId.read "notes" = .error (.decode (.badContainer "notes")) := by rfl
  refine ⟨(hown (.child ⟨⟨3⟩, 7⟩ .map) (by decide) (by decide)).mpr fun x hx => ?_,
    (hspelled _ _ hspelling).trans (if_pos (by decide)),
    (hseveral "notes" .text .list (by decide) (by decide) (by decide)).2 fun x hx => ?_⟩
  · exact Except.ok.inj ((ContainerId.read_of_spelling hx).symm.trans hread)
  · exact nomatch (ContainerId.read_of_spelling hx).symm.trans hname

/-- A root whose name spells a child is registered and yet not found by its name. -/
theorem root_named_like_child_not_found :
    ¬ ∀ ids : List ContainerId, (∀ x ∈ ids, x.Fits) →
      ∀ id ∈ ids, (∀ x ∈ ids, x.toText = id.toText → x = id) →
        (empty.registerEach ids).resolve id.toText = .ok id := by
  intro hall
  have hfound := hall [.root "7:Map@3" .text] (by decide) _ List.mem_cons_self (by decide)
  have hresolve : (empty.registerEach [.root "7:Map@3" .text]).resolve "7:Map@3" =
      .error (.notFound (.container "7:Map@3")) := by rfl
  exact nomatch hfound.symm.trans hresolve

end CausalReplica.Registry
