import CausalReplica.Proofs.Log.Delivery

/-!
# Catching up with another replica

What a replica hands out against a version that the receiver covers is all the receiver misses: with
its own history the receiver can take every change of it in, however old the version is.
-/

namespace CausalReplica.ChangeLog

variable {log whole source final : ChangeLog} {v : VersionVector} {c : Change} {x : OpId}

namespace Absorbs

theorem contains_of_source
    (h : Absorbs whole log (source.changesSince v ++ log.pending.toList) final)
    (hl : log.ReplicaOf whole) (hs : source.ReplicaOf whole) (hw : whole.Sound)
    (hv : ∀ p, v.get p ≤ log.vv.get p) (hx : source.contains x = true) :
    final.contains x = true := by
  have hissued : ∀ c ∈ source.changesSince v ++ log.pending.toList, whole.Issues c := by
    intro c hc
    rcases List.mem_append.mp hc with hc | hc
    · exact (issues_changesSince hs.sound.runs hc).mono hs.partOf
    · exact hl.issues_of_waiting hc
  apply h.contains_of_covered hl hw hissued
  intro y hy
  have hin : source.contains y = true := hs.sound.contains_of_partOf hw.runs hs.partOf hy hx
  cases hvy : v.includes y with
  | true =>
    left
    exact contains_iff.mpr (Nat.lt_of_lt_of_le (VersionVector.includes_iff.mp hvy) (hv y.peer))
  | false =>
    obtain ⟨c, hc, hcy⟩ := exists_mem_changesSince hs.sound.runs hin hvy
    exact .inr ⟨c, List.mem_append_left _ hc, hcy⟩

/-- With nothing waiting, nothing but what the source knows comes in. -/
theorem contains_iff_of_source (h : Absorbs whole log (source.changesSince v) final)
    (hl : log.ReplicaOf whole) (hs : source.ReplicaOf whole) (hw : whole.Sound)
    (hv : ∀ p, v.get p ≤ log.vv.get p) (hbuffer : log.pending.toList = []) :
    final.contains x = true ↔ log.contains x = true ∨ source.contains x = true := by
  constructor
  · intro hx
    obtain ⟨c, hc, hcx⟩ := h.replica.sound.runs.exists_change hx
    rcases h.stored_from x.peer c hc with hc | hc
    · exact .inl (hl.sound.runs.contains_of_mem hc hcx)
    · exact .inr ((issues_changesSince hs.sound.runs hc).contains hs.sound.runs hcx)
  · intro hx
    rcases hx with hx | hx
    · exact h.grows.contains hl.sound.runs h.replica.sound.runs hx
    · refine contains_of_source (v := v) ?_ hl hs hw hv hx
      rwa [hbuffer, List.append_nil]

theorem vv_eq_merge (h : Absorbs whole log (source.changesSince v) final)
    (hl : log.ReplicaOf whole) (hs : source.ReplicaOf whole) (hw : whole.Sound)
    (hv : ∀ p, v.get p ≤ log.vv.get p) (hbuffer : log.pending.toList = []) :
    final.vv = log.vv.merge source.vv := by
  have hiff : ∀ x, final.contains x = true ↔ log.contains x = true ∨ source.contains x = true :=
    fun x => h.contains_iff_of_source hl hs hw hv hbuffer
  apply VersionVector.eq_of_get h.replica.sound.vv_pos (VersionVector.merge_pos hl.sound.vv_pos)
  intro p
  rw [VersionVector.get_merge]
  apply Nat.le_antisymm
  · apply Nat.le_of_not_lt
    intro hlt
    have hnew := (hiff ⟨p, max (log.vv.get p) (source.vv.get p)⟩).mp (contains_iff.mpr hlt)
    rcases hnew with hin | hin
    · exact Nat.not_lt_of_le (Nat.le_max_left _ _) (contains_iff.mp hin)
    · exact Nat.not_lt_of_le (Nat.le_max_right _ _) (contains_iff.mp hin)
  · apply Nat.max_le.mpr
    exact ⟨vv_le_of_contains (fun x hx => (hiff x).mpr (.inl hx)) p,
      vv_le_of_contains (fun x hx => (hiff x).mpr (.inr hx)) p⟩

end Absorbs

theorem ReplicaOf.not_contains_of_waiting (h : final.ReplicaOf whole) (hs : source.ReplicaOf whole)
    (hw : whole.Sound) (hle : source.vv.get c.peer ≤ final.vv.get c.peer)
    (hc : c ∈ final.pending.toList) (hx : c.contains x = true) : source.contains x = false := by
  have hnew : source.vv.get c.peer < c.stop :=
    Nat.lt_of_le_of_lt hle (h.lt_stop_of_waiting hw hc)
  obtain ⟨d, _, hbound, hstart, _⟩ :=
    (h.issues_of_waiting hc).vv_le_start hw.runs hs.sound.runs hs.partOf hnew
  obtain ⟨hp, hcx, _⟩ := Change.contains_iff.mp hx
  apply Bool.eq_false_iff.mpr
  intro hin
  have hlt := contains_iff.mp hin
  rw [hp] at hlt
  omega

end CausalReplica.ChangeLog
