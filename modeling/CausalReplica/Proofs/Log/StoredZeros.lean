import CausalReplica.Proofs.Log.Append
import CausalReplica.Proofs.Log.Reachable
import CausalReplica.Proofs.Version.Equality

/-!
# Zeros in a version vector

For the heads of a version vector, one is taken from each of its entries to name the last operation
of the peer. A stored zero names no operation, and there is nothing to take from it. So a zero puts
an end to the search for the heads of a known vector. A vector that names unknown operations is
refused before that, whether it stores zeros or not.
-/

namespace CausalReplica

open Outcome (Guarded)

namespace VersionVector

variable {v : VersionVector}

theorem toList_withoutZeros (v : VersionVector) :
    v.withoutZeros.toList = v.toList.filter fun e => 0 < e.2 := by
  let kept : VersionVector :=
    ⟨⟨v.toList.filter fun e => 0 < e.2, v.ends.ascending.sublist List.filter_sublist⟩⟩
  have hmem : ∀ e, e ∈ kept.toList ↔ e ∈ v.toList ∧ 0 < e.2 := fun e => by
    rw [show kept.toList = v.toList.filter fun e => 0 < e.2 from rfl, List.mem_filter,
      decide_eq_true_eq]
  have hpos : ∀ e ∈ kept.toList, 0 < e.2 := fun e he => ((hmem e).mp he).2
  have hget : ∀ p, kept.get p = v.get p := by
    intro p
    by_cases hv : 0 < v.get p
    · exact get_of_mem ((hmem _).mpr ⟨mem_of_get_pos hv, hv⟩)
    · by_cases hkept : 0 < kept.get p
      · exact (get_of_mem ((hmem _).mp (mem_of_get_pos hkept)).1).symm
      · omega
  have heq : v.withoutZeros = kept :=
    eq_of_get v.withoutZeros_pos hpos fun p => (v.get_withoutZeros p).trans (hget p).symm
  rw [heq]
  rfl

end VersionVector

namespace ChangeLog

variable {log : ChangeLog} {v : VersionVector} {p : Peer} {n : Nat}

theorem firstUnknown_eq_none_iff : log.firstUnknown v = none ↔ v ≤ log.vv := by
  unfold firstUnknown
  simp only [List.find?_eq_none, decide_eq_true_eq, Nat.not_lt]
  constructor
  · intro h p
    by_cases hp : 0 < v.get p
    · exact h _ (VersionVector.mem_of_get_pos hp)
    · omega
  · rintro h ⟨p, n⟩ he
    exact VersionVector.get_of_mem he ▸ h p

/-- A zero names no operation, so it is not the entry that is reported. -/
theorem firstUnknown_withoutZeros : log.firstUnknown v.withoutZeros = log.firstUnknown v := by
  unfold firstUnknown
  rw [VersionVector.toList_withoutZeros, List.find?_filter]
  congr 1
  funext ⟨p, n⟩
  simp only [decide_eq_true_eq, decide_eq_decide]
  exact and_iff_right_of_imp Nat.zero_lt_of_lt

/-- Nothing is taken from a zero: none is stored, or the vector is refused before. -/
def ZerosUnused (log : ChangeLog) (v : VersionVector) : Prop :=
  ¬ v ≤ log.vv ∨ ∀ e ∈ v.toList, 0 < e.2

theorem lastCounter?_guarded : Guarded (lastCounter? n) (0 < n) (lastCounter n) where
  eq_some hn := by rw [lastCounter?, lastCounter, if_neg hn.ne', if_neg hn.ne']
  eq_none hn := if_pos (Nat.eq_zero_of_not_pos hn)

theorem lastIds?_guarded : Guarded (lastIds? v) (∀ e ∈ v.toList, 0 < e.2) (lastIds v) :=
  Guarded.mapM fun _ _ => lastCounter?_guarded.map _

theorem vectorToFrontiers?_guarded :
    Guarded (log.vectorToFrontiers? v) (log.ZerosUnused v) (log.vectorToFrontiers v) := by
  unfold vectorToFrontiers? vectorToFrontiers ZerosUnused
  split
  · next hunknown =>
    have hv : ¬ v ≤ log.vv := fun hle => by
      rw [firstUnknown_eq_none_iff.mpr hle] at hunknown
      cases hunknown
    exact (Guarded.pure _).congr (iff_of_true trivial (.inl hv))
  · next hknown =>
    have hv : v ≤ log.vv := firstUnknown_eq_none_iff.mp hknown
    exact (lastIds?_guarded.map _).congr (or_iff_right (not_not.mpr hv)).symm

theorem vectorToFrontiers_of_not_le (h : ¬ v ≤ log.vv) :
    ∃ x, log.vectorToFrontiers v = .error (.notFound (.version x)) ∧
      log.vectorToFrontiers v.withoutZeros = .error (.notFound (.version x)) := by
  obtain ⟨⟨p, n⟩, hfirst⟩ := Option.ne_none_iff_exists'.mp (mt firstUnknown_eq_none_iff.mp h)
  refine ⟨⟨p, n - 1⟩, ?_⟩
  unfold vectorToFrontiers
  rw [firstUnknown_withoutZeros, hfirst]
  exact ⟨rfl, rfl⟩

theorem vectorToFrontiers_eq_withoutZeros (h : log.ZerosUnused v) :
    log.vectorToFrontiers v = log.vectorToFrontiers v.withoutZeros := by
  obtain hv | hpos := h
  · obtain ⟨x, herror, hsame⟩ := vectorToFrontiers_of_not_le hv
    exact herror.trans hsame.symm
  · rw [VersionVector.withoutZeros_eq_self hpos]

/-- The heads of a vector are those of the same vector without zeros unless the log holds all that
the vector includes and a zero is stored. Then there is nothing to take from the zero. A vector is
refused as unknown just when the log does not hold all that it includes, with or without zeros. -/
theorem heads_of_vector_with_zeros (h : Steps empty log) (v : VersionVector) :
    (log.vectorToFrontiers? v = none ↔ ¬ log.ZerosUnused v) ∧
    (log.vectorToFrontiers? v = log.vectorToFrontiers? v.withoutZeros ↔ log.ZerosUnused v) ∧
    ((∃ what, log.vectorToFrontiers? v = some (.error (.notFound what))) ↔ ¬ v ≤ log.vv) ∧
    ((∃ f, log.vectorToFrontiers? v = some (.ok f)) ↔
      v ≤ log.vv ∧ ∀ e ∈ v.toList, 0 < e.2) := by
  have hs : log.Sound := (h.intact intact_empty).1.sound
  have hwithout : log.vectorToFrontiers? v.withoutZeros =
      some (log.vectorToFrontiers v.withoutZeros) :=
    vectorToFrontiers?_guarded.eq_some (.inr v.withoutZeros_pos)
  -- With and without an unused zero the outcome is the same, and it is known from the vector.
  have herror : ¬ v ≤ log.vv →
      ∃ x, log.vectorToFrontiers? v = some (.error (.notFound (.version x))) := fun hv => by
    obtain ⟨x, hx, -⟩ := vectorToFrontiers_of_not_le hv
    exact ⟨x, (vectorToFrontiers?_guarded.eq_some (.inl hv)).trans (congrArg some hx)⟩
  have hok : v ≤ log.vv → (∀ e ∈ v.toList, 0 < e.2) →
      ∃ f, log.vectorToFrontiers? v = some (.ok f) := fun hv hpos => by
    obtain ⟨f, hf, -⟩ := vectorToFrontiers_spec hs hv hpos
    exact ⟨f, (vectorToFrontiers?_guarded.eq_some (.inr hpos)).trans (congrArg some hf)⟩
  refine ⟨vectorToFrontiers?_guarded.eq_none_iff, ⟨fun hsame => ?_, fun hunused => ?_⟩,
    ⟨?_, fun hv => ?_⟩, ⟨?_, fun ⟨hv, hpos⟩ => hok hv hpos⟩⟩
  · exact (vectorToFrontiers?_guarded.eq_some_iff.mp (hsame.trans hwithout)).1
  · rw [hwithout, ← vectorToFrontiers_eq_withoutZeros hunused]
    exact vectorToFrontiers?_guarded.eq_some hunused
  · rintro ⟨what, hwhat⟩ hv
    obtain ⟨hunused, -⟩ := vectorToFrontiers?_guarded.eq_some_iff.mp hwhat
    obtain ⟨f, hf⟩ := hok hv (hunused.resolve_left (not_not.mpr hv))
    exact nomatch hwhat.symm.trans hf
  · obtain ⟨x, hx⟩ := herror hv
    exact ⟨_, hx⟩
  · rintro ⟨f, hf⟩
    have hv : v ≤ log.vv := by
      by_contra hv
      obtain ⟨x, hx⟩ := herror hv
      exact nomatch hf.symm.trans hx
    obtain ⟨hunused, -⟩ := vectorToFrontiers?_guarded.eq_some_iff.mp hf
    exact ⟨hv, hunused.resolve_left (not_not.mpr hv)⟩

/-- One operation of peer 1. -/
def single : ChangeLog :=
  empty.appended ⟨1⟩ [(.root "t" .text, .insertText 0 "a")] .empty 0

theorem steps_single : Steps empty single := .single (.append ..)

/-- All of the log, and a zero for a peer without operations. -/
def zeroBeside : VersionVector := ⟨⟨[(⟨1⟩, 1), (⟨2⟩, 0)], by decide⟩⟩

theorem zeroBeside_le : zeroBeside ≤ single.vv := VersionVector.includesAll_iff_le.mp (by decide)

/-- There are no heads of the known vector with the zero. A vector that goes beyond the log is
refused with the zero as without it. -/
theorem heads_of_vector_with_zeros_beside :
    single.vectorToFrontiers? zeroBeside = none ∧
    let beyond := zeroBeside.setEnd ⟨1⟩ 2
    single.vectorToFrontiers? beyond = single.vectorToFrontiers? beyond.withoutZeros ∧
      ∃ what, single.vectorToFrontiers? beyond = some (.error (.notFound what)) := by
  obtain ⟨hnone, -⟩ := heads_of_vector_with_zeros steps_single zeroBeside
  constructor
  · refine hnone.mpr ?_
    rintro (hnot | hpos)
    · exact hnot zeroBeside_le
    · exact absurd (hpos (⟨2⟩, 0) (by decide)) (by decide)
  · intro beyond
    obtain ⟨-, hsame, hunknown, -⟩ := heads_of_vector_with_zeros steps_single beyond
    have hnot : ¬ beyond ≤ single.vv := fun hle => absurd (hle ⟨1⟩) (by decide)
    exact ⟨hsame.mpr (.inl hnot), hunknown.mpr hnot⟩

/-- A stored zero stands between a log and the heads of a vector that it holds. -/
theorem stored_zero_hides_heads :
    Steps empty single ∧ zeroBeside ≤ single.vv ∧
      single.vectorToFrontiers? zeroBeside = none ∧
      single.vectorToFrontiers? zeroBeside.withoutZeros = some (.ok (.ofId ⟨⟨1⟩, 0⟩)) :=
  ⟨steps_single, zeroBeside_le, by decide, by cbv⟩

end ChangeLog

end CausalReplica
