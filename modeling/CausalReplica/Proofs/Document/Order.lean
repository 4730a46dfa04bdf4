import CausalReplica.Document.Basic
import CausalReplica.Proofs.Document.Registry
import CausalReplica.Proofs.Log.Histories

/-!
# Heads are ordered by their histories

Of two sets of known heads, one is behind the other when its history is part of the other's. A log
computes both histories as vectors and compares these, so it finds exactly that order, and a
document, asked for it in the three-way form, has no answer just when there is none.
-/

namespace CausalReplica

namespace CausalOrder

variable {α : Type*} {o o' : CausalOrder} {s t : Set α}

/-- What an order says of the histories of its two sides. -/
def Relates (o : CausalOrder) (s t : Set α) : Prop :=
  match o with
  | .equal => s = t
  | .less => s ⊂ t
  | .greater => t ⊂ s
  | .concurrent => ¬ s ⊆ t ∧ ¬ t ⊆ s

theorem relates_iff :
    o.Relates s t ↔ (o.isLe = true ↔ s ⊆ t) ∧ (o.isGe = true ↔ t ⊆ s) := by
  cases o with
  | equal => simp [Relates, isLe, isGe, Set.Subset.antisymm_iff]
  | less => simp [Relates, isLe, isGe, Set.ssubset_def]
  | greater => simp [Relates, isLe, isGe, Set.ssubset_def, and_comm]
  | concurrent => simp [Relates, isLe, isGe]

theorem Relates.unique (h : o.Relates s t) (h' : o'.Relates s t) : o = o' := by
  rw [relates_iff] at h h'
  apply eq_of_isLe_of_isGe
  · exact Bool.eq_iff_iff.mpr (h.1.trans h'.1.symm)
  · exact Bool.eq_iff_iff.mpr (h.2.trans h'.2.symm)

theorem Relates.reverse (h : o.Relates s t) : o.reverse.Relates t s := by
  rw [relates_iff, isLe_reverse, isGe_reverse]
  exact (relates_iff.mp h).symm

theorem threeWay_eq_concurrent_iff : o.threeWay = .error .concurrent ↔ o = .concurrent := by
  cases o <;> simp [threeWay, toOrdering?]

end CausalOrder

theorem VersionVector.relates_compare {v w : VersionVector} {s t : Set OpId}
    (hv : ∀ x, v.includes x = true ↔ x ∈ s) (hw : ∀ x, w.includes x = true ↔ x ∈ t) :
    (v.compare w).Relates s t := by
  rw [CausalOrder.relates_iff]
  simp only [isLe_compare, isGe_compare, includesAll_iff, get_le_iff, hv, hw]
  exact ⟨Iff.rfl, Iff.rfl⟩

namespace ChangeLog

variable {log : ChangeLog} {f g : Frontiers} {o : CausalOrder}

namespace Sound

variable (h : log.Sound) (hf : ∀ r ∈ f.ids, log.contains r = true)
  (hg : ∀ r ∈ g.ids, log.contains r = true)
include h hf hg

theorem exists_compareFrontiers_eq :
    ∃ o, log.compareFrontiers f g = .ok o ∧ o.Relates (log.history f) (log.history g) := by
  by_cases heq : f = g
  · exact ⟨.equal, if_pos heq, congrArg log.history heq⟩
  · obtain ⟨v, hv, _, hvmem⟩ := h.frontiersToVector_spec hf
    obtain ⟨w, hw, _, hwmem⟩ := h.frontiersToVector_spec hg
    refine ⟨v.compare w, ?_, VersionVector.relates_compare hvmem hwmem⟩
    rw [compareFrontiers, if_neg heq, hv, hw]
    rfl

theorem compareFrontiers_eq_iff :
    log.compareFrontiers f g = .ok o ↔ o.Relates (log.history f) (log.history g) := by
  obtain ⟨o', heq, hrelates⟩ := h.exists_compareFrontiers_eq hf hg
  rw [heq, Except.ok.injEq]
  constructor
  · rintro rfl
    exact hrelates
  · exact hrelates.unique

end Sound

/-- Known heads are ordered as their histories include each other, and the other way round when the
sides are exchanged. A document that is asked for a three-way answer says that there is none exactly
when neither history includes the other. -/
theorem heads_ordered_by_history (h : Steps empty log) (hf : ∀ r ∈ f.ids, log.contains r = true)
    (hg : ∀ r ∈ g.ids, log.contains r = true) :
    (∀ o, log.compareFrontiers f g = .ok o ↔ o.Relates (log.history f) (log.history g)) ∧
    (∃ o, log.compareFrontiers f g = .ok o ∧ log.compareFrontiers g f = .ok o.reverse) ∧
    (∀ k : Frontiers, (∀ r ∈ k.ids, log.contains r = true) →
      log.compareFrontiers f g = .ok .less → log.compareFrontiers g k = .ok .less →
      log.compareFrontiers f k = .ok .less) ∧
    ∀ d : Document, d.log = log →
      (d.compareHeadsOf f g = .error .concurrent ↔
        ¬ log.history f ⊆ log.history g ∧ ¬ log.history g ⊆ log.history f) := by
  have hs : log.Sound := (h.intact intact_empty).1.sound
  obtain ⟨o, heq, hrelates⟩ := hs.exists_compareFrontiers_eq hf hg
  refine ⟨fun o => hs.compareFrontiers_eq_iff hf hg, ⟨o, heq, ?_⟩, fun k hk hfg hgk => ?_,
    fun d hd => ?_⟩
  · exact (hs.compareFrontiers_eq_iff hg hf).mpr hrelates.reverse
  · rw [hs.compareFrontiers_eq_iff hf hg] at hfg
    rw [hs.compareFrontiers_eq_iff hg hk] at hgk
    exact (hs.compareFrontiers_eq_iff hf hk).mpr (hfg.trans hgk)
  · have hanswer : d.compareHeadsOf f g = o.threeWay := by
      rw [Document.compareHeadsOf, hd, heq]
      rfl
    rw [hanswer, CausalOrder.threeWay_eq_concurrent_iff]
    constructor
    · rintro rfl
      exact hrelates
    · intro hnone
      have hconcurrent : CausalOrder.concurrent.Relates (log.history f) (log.history g) := hnone
      exact hrelates.unique hconcurrent

open Document in
/-- The change of the second peer comes after the first character only, so it neither knows the
second one nor is known by it, and naming the first character beside it adds nothing. -/
theorem heads_ordered_by_history_grown :
    Steps empty grown.log ∧
      ¬ grown.log.history (.ofId ⟨⟨1⟩, 1⟩) ⊆ grown.log.history (.ofId ⟨⟨2⟩, 0⟩) ∧
      grown.log.history ⟨[⟨⟨1⟩, 0⟩, ⟨⟨2⟩, 0⟩]⟩ = grown.log.history (.ofId ⟨⟨2⟩, 0⟩) := by
  have hreach : grown.Reachable := ⟨{}, ⟨3⟩,
    [.importWithStatus [sprout] 0, .importBatches [greeting] 0, .edit (.root "m" .map),
      .edit (.insertMapChild ⟨.root "m" .map, rfl⟩ "k" .list)], rfl⟩
  have hknown : grown.log.vv.get ⟨1⟩ = 2 ∧ grown.log.vv.get ⟨2⟩ = 1 := by cbv
  have hconcurrent : grown.compareHeadsOf (.ofId ⟨⟨1⟩, 1⟩) (.ofId ⟨⟨2⟩, 0⟩) =
      .error .concurrent := by cbv
  have hequal : grown.log.compareFrontiers ⟨[⟨⟨1⟩, 0⟩, ⟨⟨2⟩, 0⟩]⟩ (.ofId ⟨⟨2⟩, 0⟩) =
      .ok .equal := by cbv
  have hsprout : ∀ r ∈ (Frontiers.ofId ⟨⟨2⟩, 0⟩).ids, grown.log.contains r = true := by
    simp [Frontiers.ofId, contains_iff, hknown]
  obtain ⟨_, _, _, hthreeWay⟩ := heads_ordered_by_history hreach.steps
    (f := .ofId ⟨⟨1⟩, 1⟩) (by simp [Frontiers.ofId, contains_iff, hknown]) hsprout
  obtain ⟨horder, _⟩ := heads_ordered_by_history hreach.steps
    (f := ⟨[⟨⟨1⟩, 0⟩, ⟨⟨2⟩, 0⟩]⟩) (by simp [contains_iff, hknown]) hsprout
  refine ⟨hreach.steps, ?_, ?_⟩
  · exact ((hthreeWay grown rfl).mp hconcurrent).1
  · exact (horder .equal).mp hequal

end ChangeLog

end CausalReplica
