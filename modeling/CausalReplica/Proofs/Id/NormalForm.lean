import CausalReplica.Proofs.Id.Coalesce
import Mathlib.Data.List.Pairwise

/-!
# Spans in normal form

Spans that are in order and do not touch are determined by the ids they hold: they are the spans
that reach from a first id without its predecessor to a last one without its successor. Coalescing
gives this form, so any other way to it gives the same spans.
-/

namespace CausalReplica.IdSpan

variable {s t : IdSpan} {rest spans ss ts : List IdSpan} {P : OpId → Prop}

theorem contains_mk_iff {p : Peer} {n : Nat} :
    s.contains ⟨p, n⟩ = true ↔ p = s.peer ∧ s.start ≤ n ∧ n < s.stop := contains_iff

/-- `s` comes before `t`, and if both are of one peer then some counter lies between them. -/
def Apart (s t : IdSpan) : Prop :=
  compare s.peer t.peer = .lt ∨ (s.peer = t.peer ∧ s.stop < t.start)

theorem Apart.ne (h : s.Apart t) (hs : s.start < s.stop) : s ≠ t := by
  rintro rfl
  rcases h with hp | ⟨_, hlt⟩
  · exact Ordered.ne_of_lt hp rfl
  · omega

theorem Apart.asymm (h : s.Apart t) (hs : s.start < s.stop) (ht : t.start < t.stop) :
    ¬ t.Apart s := by
  rintro (hp | ⟨hp, hlt⟩)
  · rcases h with hp' | ⟨hp', _⟩
    · exact nomatch (Std.OrientedCmp.gt_of_lt hp').symm.trans hp
    · exact Ordered.ne_of_lt hp hp'.symm
  · rcases h with hp' | ⟨_, hlt'⟩
    · exact Ordered.ne_of_lt hp' hp.symm
    · omega

/-- What is joined begins where one of the spans does. -/
theorem exists_start_of_mem_join (h : t ∈ join s rest) :
    ∃ u ∈ s :: rest, t.peer = u.peer ∧ t.start = u.start := by
  induction rest generalizing s with
  | nil => exact ⟨s, List.mem_cons_self, by rw [List.mem_singleton.mp h]; exact ⟨rfl, rfl⟩⟩
  | cons r rest ih =>
    unfold join at h
    split at h
    · obtain ⟨u, hu, heq⟩ := ih h
      rcases List.mem_cons.mp hu with rfl | hu
      · exact ⟨s, List.mem_cons_self, heq⟩
      · exact ⟨u, List.mem_cons_of_mem s (List.mem_cons_of_mem r hu), heq⟩
    · rcases List.mem_cons.mp h with rfl | h
      · exact ⟨t, List.mem_cons_self, rfl, rfl⟩
      · obtain ⟨u, hu, heq⟩ := ih h
        exact ⟨u, List.mem_cons_of_mem s hu, heq⟩

/-- A span that does not touch the next one is apart from all that begin no earlier. -/
theorem apart_of_startsBy {u : IdSpan} (hst : s.startsBy t = true)
    (hgap : ¬ (s.peer = t.peer ∧ t.start ≤ s.stop)) (htu : t.startsBy u = true) : s.Apart u := by
  have hpst : (compare s.peer t.peer).isLE := Ordering.isLE_left_of_isLE_then hst
  have hptu : (compare t.peer u.peer).isLE := Ordering.isLE_left_of_isLE_then htu
  cases hpsu : compare s.peer u.peer with
  | lt => exact .inl hpsu
  | gt =>
    have hle := Std.TransCmp.isLE_trans hpst hptu
    rw [hpsu] at hle
    exact nomatch hle
  | eq =>
    have hsu := Std.LawfulEqOrd.eq_of_compare hpsu
    have hpeer : s.peer = t.peer :=
      Std.LawfulEqOrd.eq_of_compare (Std.OrientedCmp.isLE_antisymm hpst (hsu ▸ hptu))
    have hlt := Nat.lt_of_not_le (not_and.mp hgap hpeer)
    have hle := start_le_of_startsBy htu (hpeer.symm.trans hsu)
    exact .inr ⟨hsu, Nat.lt_of_lt_of_le hlt hle⟩

theorem join_pairwise_apart (h : (s :: rest).Pairwise fun s t => s.startsBy t = true) :
    (join s rest).Pairwise Apart := by
  induction rest generalizing s with
  | nil => exact List.pairwise_singleton Apart s
  | cons t rest ih =>
    obtain ⟨hs, hrest⟩ := List.pairwise_cons.mp h
    obtain ⟨ht, hsorted⟩ := List.pairwise_cons.mp hrest
    unfold join
    split
    · -- The order of spans does not depend on where they stop.
      exact ih (List.pairwise_cons.mpr ⟨fun u hu => hs u (List.mem_cons_of_mem t hu), hsorted⟩)
    · next hgap =>
      refine List.pairwise_cons.mpr ⟨fun u hu => ?_, ih hrest⟩
      obtain ⟨r, hr, hpeer, hstart⟩ := exists_start_of_mem_join hu
      have htr : t.startsBy r = true := by
        rcases List.mem_cons.mp hr with rfl | hr
        · simp [startsBy]
        · exact ht r hr
      have hsr := apart_of_startsBy (hs t List.mem_cons_self) hgap htr
      unfold Apart at hsr ⊢
      rwa [hpeer, hstart]

theorem coalesce_pairwise_apart : (coalesce spans).Pairwise Apart := by
  have hsorted := pairwise_mergeSort_startsBy spans
  unfold coalesce
  cases hsort : spans.mergeSort startsBy with
  | nil => exact .nil
  | cons s rest => exact join_pairwise_apart (hsort ▸ hsorted)

/-- Of spans that are apart no two of one peer overlap or touch. -/
theorem eq_of_touching (h : ss.Pairwise Apart) (hs : s ∈ ss) (ht : t ∈ ss)
    (hpeer : s.peer = t.peer) (hst : s.start ≤ t.stop) (hts : t.start ≤ s.stop) : s = t := by
  have hsymm : Std.Symm fun s t : IdSpan => s.Apart t ∨ t.Apart s := ⟨fun _ _ => Or.symm⟩
  have heither : ss.Pairwise fun s t => s.Apart t ∨ t.Apart s := h.imp fun hap => .inl hap
  by_contra hne
  rcases heither.forall hs ht hne with (hp | ⟨_, hlt⟩) | (hp | ⟨_, hlt⟩)
  · exact Ordered.ne_of_lt hp hpeer
  · omega
  · exact Ordered.ne_of_lt hp hpeer.symm
  · omega

/-- `s` holds only ids with the property, and neither the id right before it nor the one right after
it has the property. -/
structure Fills (P : OpId → Prop) (s : IdSpan) : Prop where
  start_lt_stop : s.start < s.stop
  holds : ∀ x, s.contains x = true → P x
  not_stop : ¬ P ⟨s.peer, s.stop⟩
  not_prev : ∀ n, s.start = n + 1 → ¬ P ⟨s.peer, n⟩

theorem fills_of_mem (h : ss.Pairwise Apart) (hlt : ∀ t ∈ ss, t.start < t.stop) (hs : s ∈ ss) :
    s.Fills fun x => ∃ t ∈ ss, t.contains x = true := by
  have hlt' := hlt s hs
  refine ⟨hlt', fun x hx => ⟨s, hs, hx⟩, ?_, ?_⟩
  · rintro ⟨t, ht, htx⟩
    obtain ⟨hp, hle, hgt⟩ := contains_mk_iff.mp htx
    obtain rfl := eq_of_touching h hs ht hp (by omega) hle
    omega
  · rintro n hn ⟨t, ht, htx⟩
    obtain ⟨hp, hle, hgt⟩ := contains_mk_iff.mp htx
    obtain rfl := eq_of_touching h hs ht hp (by omega) (by omega)
    omega

/-- Two spans that a property fills are equal when one holds the first id of the other. -/
theorem Fills.eq (hs : s.Fills P) (ht : t.Fills P) (hp : s.peer = t.peer)
    (hle : t.start ≤ s.start) (hlt : s.start < t.stop) : s = t := by
  have hstart : s.start = t.start := by
    by_contra hne
    refine hs.not_prev (s.start - 1) (by omega) (ht.holds _ ?_)
    exact contains_mk_iff.mpr ⟨hp, by omega, by omega⟩
  have hstop : s.stop = t.stop := by
    have hpos := hs.start_lt_stop
    rcases Nat.lt_trichotomy s.stop t.stop with hless | heq | hmore
    · exact absurd (ht.holds _ (contains_mk_iff.mpr ⟨hp, by omega, hless⟩)) hs.not_stop
    · exact heq
    · exact absurd (hs.holds _ (contains_mk_iff.mpr ⟨hp.symm, by omega, hmore⟩)) ht.not_stop
  cases s
  cases t
  simp_all

/-- Spans that are apart are those that the ids they hold fill. -/
theorem mem_iff_fills (h : ss.Pairwise Apart) (hlt : ∀ t ∈ ss, t.start < t.stop) :
    s ∈ ss ↔ s.Fills fun x => ∃ t ∈ ss, t.contains x = true := by
  refine ⟨fills_of_mem h hlt, fun hs => ?_⟩
  have hfirst : s.contains ⟨s.peer, s.start⟩ = true :=
    contains_mk_iff.mpr ⟨rfl, Nat.le_refl _, hs.start_lt_stop⟩
  obtain ⟨t, ht, htx⟩ := hs.holds _ hfirst
  obtain ⟨hp, hle, hgt⟩ := contains_mk_iff.mp htx
  exact hs.eq (fills_of_mem h hlt ht) hp hle hgt ▸ ht

theorem eq_of_same_ids (hs : ss.Pairwise Apart) (ht : ts.Pairwise Apart)
    (hslt : ∀ s ∈ ss, s.start < s.stop) (htlt : ∀ t ∈ ts, t.start < t.stop)
    (h : ∀ x, (∃ s ∈ ss, s.contains x = true) ↔ ∃ t ∈ ts, t.contains x = true) : ss = ts := by
  have hnodup : ∀ {us : List IdSpan}, us.Pairwise Apart → (∀ u ∈ us, u.start < u.stop) → us.Nodup :=
    fun hus hlt => hus.imp_of_mem fun hu _ hap => hap.ne (hlt _ hu)
  have hmem : ∀ s, s ∈ ss ↔ s ∈ ts := by
    intro s
    rw [mem_iff_fills hs hslt, mem_iff_fills ht htlt]
    simp only [h]
  refine List.Perm.eq_of_pairwise (fun s t hss hts hst hts' => ?_) hs ht
    ((List.perm_ext_iff_of_nodup (hnodup hs hslt) (hnodup ht htlt)).mpr hmem)
  exact absurd hts' (hst.asymm (hslt s hss) (htlt t hts))

end CausalReplica.IdSpan
