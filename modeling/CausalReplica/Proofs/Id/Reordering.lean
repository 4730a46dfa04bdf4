import CausalReplica.Proofs.Id.NormalForm
import Mathlib.Data.List.Permutation

/-!
# Coalescing in any order

Spans are sorted by their starts alone, so the order in which they come decides how spans with one
start are sorted. Coalescing joins these and nothing is seen of it. A span may be empty, and then
the ids do not show it; in a scale twice as fine every span can be given an id of its own, and the
ids determine the coalesced spans again.
-/

namespace CausalReplica.IdSpan

variable {s t : IdSpan} {rest spans ss ts : List IdSpan}

/-- The span in a scale twice as fine, with the id at its end. It is never empty, and it touches the
spans that it touched. -/
def widen (s : IdSpan) : IdSpan := ⟨s.peer, 2 * s.start, 2 * s.stop + 1⟩

theorem widen_injective : Function.Injective widen := by
  intro s t h
  obtain ⟨hpeer, hstart, hstop⟩ := mk.inj h
  cases s
  cases t
  simp only [mk.injEq] at hpeer hstart hstop ⊢
  exact ⟨hpeer, by omega, by omega⟩

theorem startsBy_widen : s.widen.startsBy t.widen = s.startsBy t := by
  have hstart : compare (2 * s.start) (2 * t.start) = compare s.start t.start := by
    rcases Nat.lt_trichotomy s.start t.start with h | h | h
    · rw [Nat.compare_eq_lt.mpr h, Nat.compare_eq_lt.mpr (by omega)]
    · rw [h, Std.ReflOrd.compare_self, Std.ReflOrd.compare_self]
    · rw [Nat.compare_eq_gt.mpr h, Nat.compare_eq_gt.mpr (by omega)]
  unfold startsBy widen
  rw [hstart]

theorem join_map_widen : join s.widen (rest.map widen) = (join s rest).map widen := by
  induction rest generalizing s with
  | nil => rfl
  | cons t rest ih =>
    have htouch : (s.widen.peer = t.widen.peer ∧ t.widen.start ≤ s.widen.stop) ↔
        s.peer = t.peer ∧ t.start ≤ s.stop := by
      refine and_congr Iff.rfl ?_
      change 2 * t.start ≤ 2 * s.stop + 1 ↔ _
      omega
    have hextend : ({ s.widen with stop := max s.widen.stop t.widen.stop } : IdSpan) =
        widen { s with stop := max s.stop t.stop } := by
      refine congrArg (mk s.peer (2 * s.start)) ?_
      change max (2 * s.stop + 1) (2 * t.stop + 1) = 2 * max s.stop t.stop + 1
      omega
    rw [List.map_cons, join, join]
    by_cases h : s.peer = t.peer ∧ t.start ≤ s.stop
    · rw [if_pos h, if_pos (htouch.mpr h), hextend]
      exact ih
    · rw [if_neg h, if_neg (mt htouch.mp h), ih, List.map_cons]

theorem coalesce_map_widen : coalesce (spans.map widen) = (coalesce spans).map widen := by
  have hsorted : (spans.mergeSort startsBy).map widen = (spans.map widen).mergeSort startsBy :=
    List.map_mergeSort fun _ _ _ _ => startsBy_widen.symm
  unfold coalesce
  rw [← hsorted]
  cases spans.mergeSort startsBy with
  | nil => rfl
  | cons s rest => exact join_map_widen

theorem coalesce_eq_of_perm (hperm : ss.Perm ts) (h : ∀ s ∈ ss, s.start ≤ s.stop) :
    coalesce ss = coalesce ts := by
  have hwide : ∀ us : List IdSpan, (∀ u ∈ us, u.start ≤ u.stop) →
      ∀ u ∈ coalesce (us.map widen), u.start < u.stop := by
    intro us hus
    refine coalesce_start_lt_stop (List.forall_mem_map.mpr fun u hu => ?_)
    have hle := hus u hu
    change 2 * u.start < 2 * u.stop + 1
    omega
  refine (List.map_inj_right fun _ _ h => widen_injective h).mp ?_
  rw [← coalesce_map_widen, ← coalesce_map_widen]
  refine eq_of_same_ids coalesce_pairwise_apart coalesce_pairwise_apart (hwide ss h)
    (hwide ts fun t ht => h t (hperm.mem_iff.mpr ht)) fun x => ?_
  rw [exists_mem_coalesce, exists_mem_coalesce]
  simp only [(hperm.map widen).mem_iff]

/-- Coalescing gives sorted spans with a gap between any two of one peer, which hold the ids that
the spans hold, and are the same for the same spans in another order. -/
theorem coalesce_normal_form (h : ∀ s ∈ spans, s.start ≤ s.stop) :
    (coalesce spans).Pairwise
        (fun s t => (compare s.peer t.peer).then (compare s.start t.start) = .lt) ∧
      (coalesce spans).Pairwise (fun s t => s.peer = t.peer → s.stop < t.start) ∧
      (∀ x, (∃ t ∈ coalesce spans, t.contains x = true) ↔ ∃ s ∈ spans, s.contains x = true) ∧
      ∀ others, others.Perm spans → coalesce others = coalesce spans := by
  refine ⟨?_, ?_, fun x => exists_mem_coalesce, fun others hperm => ?_⟩
  · refine coalesce_pairwise_apart.imp_of_mem fun {s t} hs _ hapart => ?_
    rcases hapart with hlt | ⟨hpeer, hlt⟩
    · rw [hlt]
      rfl
    · have hstart := Nat.lt_of_le_of_lt (coalesce_start_le_stop h s hs) hlt
      rw [hpeer, Std.ReflOrd.compare_self, Nat.compare_eq_lt.mpr hstart]
      rfl
  · refine coalesce_pairwise_apart.imp fun {s t} hapart hpeer => ?_
    rcases hapart with hlt | ⟨_, hlt⟩
    · exact absurd hpeer (Ordered.ne_of_lt hlt)
    · exact hlt
  · exact (coalesce_eq_of_perm hperm.symm h).symm

/-- Nested, equal, touching and empty spans, of two peers and out of order. -/
theorem coalesce_normal_form_mixed :
    let spans : List IdSpan :=
      [⟨⟨2⟩, 4, 4⟩, ⟨⟨1⟩, 5, 9⟩, ⟨⟨1⟩, 0, 3⟩, ⟨⟨1⟩, 6, 7⟩, ⟨⟨1⟩, 3, 4⟩, ⟨⟨1⟩, 0, 3⟩, ⟨⟨1⟩, 5, 5⟩]
    (∀ s ∈ spans, s.start ≤ s.stop) ∧
      coalesce spans = [⟨⟨1⟩, 0, 4⟩, ⟨⟨1⟩, 5, 9⟩, ⟨⟨2⟩, 4, 4⟩] ∧
      (coalesce spans).Pairwise
        (fun s t => (compare s.peer t.peer).then (compare s.start t.start) = .lt) ∧
      (coalesce spans).Pairwise (fun s t => s.peer = t.peer → s.stop < t.start) ∧
      (∀ x, (∃ t ∈ coalesce spans, t.contains x = true) ↔ ∃ s ∈ spans, s.contains x = true) ∧
      ∀ others, others.Perm spans → coalesce others = coalesce spans := by
  intro spans
  exact ⟨by decide, by cbv, coalesce_normal_form (by decide)⟩

end CausalReplica.IdSpan
