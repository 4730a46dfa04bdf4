import CausalReplica.Proofs.Document.Order

/-!
# Heads that are not known

Heads are compared by their histories, which a log has only of operations it holds. It reports an
operation it does not hold wherever it works the histories out. Equal heads are found equal before
that, whether they are known or not.
-/

namespace CausalReplica.ChangeLog

variable {α : Type} {log : ChangeLog} {f g : Frontiers} {ids : List OpId}

/-- The result names one of `ids` that the log does not hold, and nothing when it holds all. -/
structure Reports (log : ChangeLog) (ids : List OpId) (result : Except Error α) : Prop where
  unknown : (∃ r ∈ ids, log.contains r = false) →
    ∃ r ∈ ids, log.contains r = false ∧ result = .error (.notFound (.op r))
  known : (∀ r ∈ ids, log.contains r = true) → ∀ what, result ≠ .error (.notFound what)

theorem Reports.notFound_iff {result : Except Error α} (h : log.Reports ids result) :
    (∃ what, result = .error (.notFound what)) ↔ ∃ r ∈ ids, log.contains r = false := by
  constructor
  · rintro ⟨what, herror⟩
    by_contra hnone
    exact h.known (by simpa using hnone) what herror
  · intro hout
    obtain ⟨r, _, _, herror⟩ := h.unknown hout
    exact ⟨_, herror⟩

namespace Sound

variable (h : log.Sound)
include h

/-- Whatever is done with the vectors of two sets of heads, an unknown head is reported first. -/
theorem bind_vectors_of_unknown (hfg : ∃ r ∈ f.ids ++ g.ids, log.contains r = false)
    (k : VersionVector → VersionVector → Except Error α) :
    ∃ r ∈ f.ids ++ g.ids, log.contains r = false ∧
      (do k (← log.frontiersToVector f) (← log.frontiersToVector g)) =
        .error (.notFound (.op r)) := by
  by_cases hf : ∃ r ∈ f.ids, log.contains r = false
  · obtain ⟨r, hr, hout, herror⟩ := h.frontiersToVector_of_unknown hf
    refine ⟨r, List.mem_append_left _ hr, hout, ?_⟩
    rw [herror]
    rfl
  · have hknown : ∀ r ∈ f.ids, log.contains r = true := by simpa using hf
    have hg : ∃ r ∈ g.ids, log.contains r = false := by
      obtain ⟨r, hr, hout⟩ := hfg
      rcases List.mem_append.mp hr with hr | hr
      · exact absurd ⟨r, hr, hout⟩ hf
      · exact ⟨r, hr, hout⟩
    obtain ⟨v, hv, _⟩ := h.frontiersToVector_spec hknown
    obtain ⟨r, hr, hout, herror⟩ := h.frontiersToVector_of_unknown hg
    refine ⟨r, List.mem_append_right _ hr, hout, ?_⟩
    rw [hv, herror]
    rfl

theorem commonAncestor_reports : log.Reports (f.ids ++ g.ids) (log.commonAncestor f g) where
  unknown hfg := h.bind_vectors_of_unknown hfg fun v w => log.vectorToFrontiers (v.intersection w)
  known hall what herror := by
    obtain ⟨hf, hg⟩ := List.forall_mem_append.mp hall
    obtain ⟨a, ha, _⟩ := h.commonAncestor_spec hf hg
    rw [ha] at herror
    cases herror

theorem compareFrontiers_reports (hne : f ≠ g) :
    log.Reports (f.ids ++ g.ids) (log.compareFrontiers f g) where
  unknown hfg := by
    rw [compareFrontiers, if_neg hne]
    exact h.bind_vectors_of_unknown hfg fun v w => .ok (v.compare w)
  known hall what herror := by
    obtain ⟨hf, hg⟩ := List.forall_mem_append.mp hall
    obtain ⟨o, ho, _⟩ := h.exists_compareFrontiers_eq hf hg
    rw [ho] at herror
    cases herror

end Sound

/-- A three-way answer reports what the comparison below it reports: having no answer is an error
of another kind. -/
theorem Reports.compareHeadsOf {d : Document}
    (h : d.log.Reports ids (d.log.compareFrontiers f g)) :
    d.log.Reports ids (d.compareHeadsOf f g) where
  unknown hout := by
    obtain ⟨r, hr, hr', herror⟩ := h.unknown hout
    refine ⟨r, hr, hr', ?_⟩
    rw [Document.compareHeadsOf, herror]
    rfl
  known hall what herror := by
    rw [Document.compareHeadsOf] at herror
    cases hcompare : d.log.compareFrontiers f g with
    | error e =>
      rw [hcompare] at herror
      have hsame : e = .notFound what := Except.error.inj herror
      exact h.known hall what (hcompare.trans (congrArg Except.error hsame))
    | ok o =>
      rw [hcompare] at herror
      cases o <;> cases herror

/-- The common ancestor of two sets of heads is refused for a head that the log does not hold, and
only for that. So is their comparison, also in its three-way form, when the two are different. Equal
heads are answered as equal without a look at the log. -/
theorem unknown_heads_reported (h : Steps empty log) (f g : Frontiers) :
    log.Reports (f.ids ++ g.ids) (log.commonAncestor f g) ∧
    (f ≠ g → log.Reports (f.ids ++ g.ids) (log.compareFrontiers f g)) ∧
    (f = g → log.compareFrontiers f g = .ok .equal) ∧
    ∀ d : Document, d.log = log →
      (f ≠ g → log.Reports (f.ids ++ g.ids) (d.compareHeadsOf f g)) ∧
      (f = g → d.compareHeadsOf f g = .ok .eq) := by
  have hs : log.Sound := (h.intact intact_empty).1.sound
  refine ⟨hs.commonAncestor_reports, hs.compareFrontiers_reports, fun heq => if_pos heq,
    fun d hd => ?_⟩
  subst hd
  refine ⟨fun hne => (hs.compareFrontiers_reports hne).compareHeadsOf, fun heq => ?_⟩
  rw [Document.compareHeadsOf, compareFrontiers, if_pos heq]
  rfl

/-- Beside a head that is known and covers its first operation, the unknown one is found. -/
theorem unknown_heads_reported_crossed :
    (∃ what, crossed.commonAncestor ⟨[⟨⟨1⟩, 3⟩, ⟨⟨3⟩, 0⟩]⟩ (.ofId ⟨⟨1⟩, 1⟩) =
      .error (.notFound what)) ∧
    (∃ what, crossed.compareFrontiers (.ofId ⟨⟨1⟩, 1⟩) ⟨[⟨⟨1⟩, 3⟩, ⟨⟨1⟩, 4⟩]⟩ =
      .error (.notFound what)) ∧
    ¬ ∃ what, crossed.compareFrontiers (.ofId ⟨⟨1⟩, 3⟩) (.ofId ⟨⟨2⟩, 1⟩) =
      .error (.notFound what) := by
  obtain ⟨hancestor, _⟩ :=
    unknown_heads_reported steps_crossed ⟨[⟨⟨1⟩, 3⟩, ⟨⟨3⟩, 0⟩]⟩ (.ofId ⟨⟨1⟩, 1⟩)
  obtain ⟨_, hcompare, _⟩ :=
    unknown_heads_reported steps_crossed (.ofId ⟨⟨1⟩, 1⟩) ⟨[⟨⟨1⟩, 3⟩, ⟨⟨1⟩, 4⟩]⟩
  obtain ⟨_, hknown, _⟩ :=
    unknown_heads_reported steps_crossed (.ofId ⟨⟨1⟩, 3⟩) (.ofId ⟨⟨2⟩, 1⟩)
  refine ⟨hancestor.notFound_iff.mpr ?_, (hcompare (by decide)).notFound_iff.mpr ?_, ?_⟩
  · exact ⟨⟨⟨3⟩, 0⟩, by decide, by decide⟩
  · exact ⟨⟨⟨1⟩, 4⟩, by decide, by decide⟩
  · rw [(hknown (by decide)).notFound_iff]
    decide

/-- The empty log finds a head that it does not hold equal to itself. -/
theorem equal_unknown_heads_unreported :
    ¬ ∀ (log : ChangeLog) (f g : Frontiers), Steps empty log →
      ((∃ what, log.compareFrontiers f g = .error (.notFound what)) ↔
        ∃ r ∈ f.ids ++ g.ids, log.contains r = false) := by
  intro hall
  obtain ⟨what, herror⟩ := (hall empty (.ofId ⟨⟨2⟩, 0⟩) (.ofId ⟨⟨2⟩, 0⟩) .refl).mpr
    ⟨⟨⟨2⟩, 0⟩, by decide, by decide⟩
  cases herror

end CausalReplica.ChangeLog
