import CausalReplica.Id
import CausalReplica.Proofs.Sorting

/-!
# Coalescing keeps the ids of the spans

Sorted spans are joined from left to right, and what is joined has no gap, so the coalesced spans
hold the ids that the spans hold, no more and no less. None of them is empty unless a span was.
-/

namespace CausalReplica.IdSpan

variable {s t : IdSpan} {rest spans : List IdSpan} {x : OpId}

theorem contains_iff :
    s.contains x = true ↔ x.peer = s.peer ∧ s.start ≤ x.counter ∧ x.counter < s.stop := by
  simp [contains, and_assoc]

theorem start_le_of_startsBy (h : s.startsBy t = true) (hp : s.peer = t.peer) :
    s.start ≤ t.start := by
  unfold startsBy at h
  rw [hp, Std.ReflOrd.compare_self] at h
  exact Nat.isLE_compare.mp h

theorem pairwise_mergeSort_startsBy (spans : List IdSpan) :
    (spans.mergeSort startsBy).Pairwise fun s t => s.startsBy t = true :=
  List.pairwise_mergeSort
    (isLE_trans (compareLex (compareOn IdSpan.peer) (compareOn IdSpan.start)))
    (isLE_total (compareLex (compareOn IdSpan.peer) (compareOn IdSpan.start))) spans

/-- Of two spans that touch, the one that reaches to the end of both holds the ids of both. -/
theorem contains_extend (hp : s.peer = t.peer) (hst : s.start ≤ t.start) (hts : t.start ≤ s.stop) :
    ({ s with stop := max s.stop t.stop } : IdSpan).contains x = true ↔
      s.contains x = true ∨ t.contains x = true := by
  rw [contains_iff, contains_iff, contains_iff, ← hp, ← and_or_left]
  refine and_congr_right fun _ => ?_
  change s.start ≤ x.counter ∧ x.counter < max s.stop t.stop ↔ _
  omega

theorem exists_mem_join (h : (s :: rest).Pairwise fun s t => s.startsBy t = true) :
    (∃ t ∈ join s rest, t.contains x = true) ↔ ∃ t ∈ s :: rest, t.contains x = true := by
  induction rest generalizing s with
  | nil => rfl
  | cons t rest ih =>
    obtain ⟨hs, hrest⟩ := List.pairwise_cons.mp h
    unfold join
    split
    · next htouch =>
      obtain ⟨hp, hts⟩ := htouch
      have hst := start_le_of_startsBy (hs t List.mem_cons_self) hp
      -- The order of spans does not depend on where they stop.
      have hsorted : ({ s with stop := max s.stop t.stop } :: rest).Pairwise
          fun s t => s.startsBy t = true :=
        List.pairwise_cons.mpr
          ⟨fun u hu => hs u (List.mem_cons_of_mem t hu), (List.pairwise_cons.mp hrest).2⟩
      refine (ih hsorted).trans ?_
      simp only [List.mem_cons, exists_eq_or_imp, contains_extend hp hst hts, or_assoc]
    · simp only [List.mem_cons, exists_eq_or_imp] at ih ⊢
      rw [ih hrest]

theorem exists_mem_coalesce :
    (∃ t ∈ coalesce spans, t.contains x = true) ↔ ∃ t ∈ spans, t.contains x = true := by
  have hjoin : (∃ t ∈ coalesce spans, t.contains x = true) ↔
      ∃ t ∈ spans.mergeSort startsBy, t.contains x = true := by
    have hsorted := pairwise_mergeSort_startsBy spans
    unfold coalesce
    cases hsort : spans.mergeSort startsBy with
    | nil => rfl
    | cons s rest => exact exists_mem_join (hsort ▸ hsorted)
  simpa only [List.mem_mergeSort] using hjoin

section Bounds

variable {P : Nat → Nat → Prop} (hmono : ∀ {a b c : Nat}, P a b → b ≤ c → P a c)

include hmono

theorem join_bounds (hs : P s.start s.stop) (hrest : ∀ t ∈ rest, P t.start t.stop) :
    ∀ t ∈ join s rest, P t.start t.stop := by
  induction rest generalizing s with
  | nil => exact fun t ht => List.mem_singleton.mp ht ▸ hs
  | cons t rest ih =>
    obtain ⟨ht, hrest⟩ := List.forall_mem_cons.mp hrest
    unfold join
    split
    · exact ih (hmono hs (Nat.le_max_left _ _)) hrest
    · exact List.forall_mem_cons.mpr ⟨hs, ih ht hrest⟩

/-- What holds between start and end of every span, however much further the end lies, holds for the
coalesced spans. -/
theorem coalesce_bounds (h : ∀ t ∈ spans, P t.start t.stop) :
    ∀ t ∈ coalesce spans, P t.start t.stop := by
  have hsorted : ∀ t ∈ spans.mergeSort startsBy, P t.start t.stop :=
    fun t ht => h t (List.mem_mergeSort.mp ht)
  unfold coalesce
  cases hsort : spans.mergeSort startsBy with
  | nil => exact fun t ht => absurd ht List.not_mem_nil
  | cons s rest =>
    rw [hsort] at hsorted
    obtain ⟨hs, hrest⟩ := List.forall_mem_cons.mp hsorted
    exact join_bounds hmono hs hrest

end Bounds

theorem coalesce_start_lt_stop (h : ∀ t ∈ spans, t.start < t.stop) :
    ∀ t ∈ coalesce spans, t.start < t.stop :=
  coalesce_bounds Nat.lt_of_lt_of_le h

theorem coalesce_start_le_stop (h : ∀ t ∈ spans, t.start ≤ t.stop) :
    ∀ t ∈ coalesce spans, t.start ≤ t.stop :=
  coalesce_bounds Nat.le_trans h

theorem join_ne_nil : join s rest ≠ [] := by
  induction rest generalizing s with
  | nil => exact List.cons_ne_nil s []
  | cons t rest ih =>
    unfold join
    split
    · exact ih
    · exact List.cons_ne_nil s _

theorem coalesce_eq_nil_iff : coalesce spans = [] ↔ spans = [] := by
  have hlen : (spans.mergeSort startsBy).length = spans.length := List.length_mergeSort spans
  unfold coalesce
  cases hsort : spans.mergeSort startsBy with
  | nil =>
    rw [hsort] at hlen
    exact iff_of_true rfl (List.length_eq_zero_iff.mp hlen.symm)
  | cons s rest =>
    rw [hsort] at hlen
    refine iff_of_false join_ne_nil fun hnil => ?_
    rw [hnil] at hlen
    exact nomatch hlen

theorem coalesce_nil : coalesce [] = [] := coalesce_eq_nil_iff.mpr rfl

end CausalReplica.IdSpan
