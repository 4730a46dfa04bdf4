import CausalReplica.Log.Pending

/-!
# The changes that wait for an operation

Filing a change adds it under the operation it misses, unless one with its extent is already there.
A release takes out exactly what waits for the released operations.
-/

namespace CausalReplica.PendingChanges

variable {b : PendingChanges} {c d : Change} {m n : OpId} {p : OpId → Bool}

/-- The changes filed under `m`. -/
def waiting (b : PendingChanges) (m : OpId) : List Change := b.byMissing.findD m []

theorem mem_toList : c ∈ b.toList ↔ ∃ m, c ∈ b.waiting m := OrdMap.mem_flatten_values

theorem add_of_known (h : (b.waiting m).any fun w => w.id = c.id && w.stop = c.stop) :
    b.add m c = b :=
  if_pos h

theorem waiting_add_of_new
    (h : ¬ ((b.waiting m).any fun w => w.id = c.id && w.stop = c.stop) = true) :
    (b.add m c).waiting n = if n = m then b.waiting m ++ [c] else b.waiting n := by
  have hadd : b.add m c = ⟨b.byMissing.insert m (b.waiting m ++ [c])⟩ := if_neg h
  rw [hadd]
  unfold waiting OrdMap.findD
  split
  · next hn => rw [hn, OrdMap.find?_insert_self, Option.getD_some]
  · next hn => rw [OrdMap.find?_insert_of_ne hn]

theorem mem_waiting_add (h : d ∈ (b.add m c).waiting n) : d ∈ b.waiting n ∨ (n = m ∧ d = c) := by
  by_cases hknown : ((b.waiting m).any fun w => w.id = c.id && w.stop = c.stop) = true
  · rw [add_of_known hknown] at h
    exact .inl h
  · rw [waiting_add_of_new hknown] at h
    split at h
    · next hn =>
      subst hn
      rcases List.mem_append.mp h with h | h
      · exact .inl h
      · exact .inr ⟨rfl, List.mem_singleton.mp h⟩
    · exact .inl h

/-- When extents name the filed changes, filing adds just the change. -/
theorem mem_waiting_add_iff
    (h : ∀ w ∈ b.waiting m, w.id = c.id → w.stop = c.stop → w = c) :
    d ∈ (b.add m c).waiting n ↔ d ∈ b.waiting n ∨ (n = m ∧ d = c) := by
  refine ⟨mem_waiting_add, fun hd => ?_⟩
  by_cases hknown : ((b.waiting m).any fun w => w.id = c.id && w.stop = c.stop) = true
  · rw [add_of_known hknown]
    rcases hd with hd | ⟨rfl, rfl⟩
    · exact hd
    · obtain ⟨w, hw, heq⟩ := List.any_eq_true.mp hknown
      simp only [Bool.and_eq_true, decide_eq_true_eq] at heq
      rwa [← h w hw heq.1 heq.2]
  · rw [waiting_add_of_new hknown]
    rcases hd with hd | ⟨rfl, rfl⟩
    · split
      · next hn => exact List.mem_append_left _ (hn ▸ hd)
      · exact hd
    · rw [if_pos rfl]
      exact List.mem_append_right _ (List.mem_singleton_self d)

theorem nodup_waiting_add (h : ∀ n, (b.waiting n).Nodup) : ((b.add m c).waiting n).Nodup := by
  by_cases hknown : ((b.waiting m).any fun w => w.id = c.id && w.stop = c.stop) = true
  · rw [add_of_known hknown]
    exact h n
  · rw [waiting_add_of_new hknown]
    split
    · refine List.nodup_append.mpr ⟨h m, by simp, fun w hw d hd heq => ?_⟩
      rw [List.mem_singleton.mp hd] at heq
      subst heq
      exact hknown (List.any_eq_true.mpr ⟨w, hw, by simp⟩)
    · exact h n

theorem mem_release : c ∈ (b.release p).1 ↔ ∃ m, p m = true ∧ c ∈ b.waiting m := by
  have hmem : c ∈ (b.release p).1 ↔ ∃ m, c ∈ (b.byMissing.filterKeys p).findD m [] :=
    OrdMap.mem_flatten_values
  rw [hmem]
  refine exists_congr fun m => ?_
  rw [OrdMap.findD_filterKeys]
  cases hp : p m with
  | false => simp
  | true => simp [waiting]

theorem waiting_release : (b.release p).2.waiting m = if p m then [] else b.waiting m := by
  unfold release waiting
  rw [OrdMap.findD_filterKeys]
  cases hp : p m <;> rfl

/-- A release separates the filed changes into those it takes out and those it leaves. -/
theorem mem_release_or_left :
    c ∈ (b.release p).1 ∨ c ∈ (b.release p).2.toList ↔ c ∈ b.toList := by
  rw [mem_release, mem_toList, mem_toList]
  constructor
  · intro h
    rcases h with ⟨m, _, hm⟩ | ⟨m, hm⟩
    · exact ⟨m, hm⟩
    · rw [waiting_release] at hm
      split at hm
      · exact absurd hm List.not_mem_nil
      · exact ⟨m, hm⟩
  · intro ⟨m, hm⟩
    by_cases hp : p m = true
    · exact .inl ⟨m, hp, hm⟩
    · refine .inr ⟨m, ?_⟩
      rw [waiting_release, if_neg hp]
      exact hm

section Forall

variable {P : Change → Prop}

theorem forall_waiting_add (h : ∀ n, ∀ d ∈ b.waiting n, P d) (hc : P c) :
    ∀ n, ∀ d ∈ (b.add m c).waiting n, P d := by
  intro n d hd
  rcases mem_waiting_add hd with hd | ⟨_, rfl⟩
  · exact h n d hd
  · exact hc

theorem forall_release (h : ∀ n, ∀ d ∈ b.waiting n, P d) (p : OpId → Bool) :
    (∀ d ∈ (b.release p).1, P d) ∧ ∀ n, ∀ d ∈ (b.release p).2.waiting n, P d := by
  constructor
  · intro d hd
    obtain ⟨n, _, hn⟩ := mem_release.mp hd
    exact h n d hn
  · intro n d hd
    rw [waiting_release] at hd
    split at hd
    · exact absurd hd List.not_mem_nil
    · exact h n d hd

end Forall

end CausalReplica.PendingChanges
