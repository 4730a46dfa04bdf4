import CausalReplica.Proofs.Log.Reachable

/-!
# Heads and version vectors

The heads of a version vector stand for its causal closure, the least closed vector that includes
it, so the way through the heads and back loses nothing that was closed. The other way round, the
heads of the history of some operations are those of them that come before no other.
-/

namespace CausalReplica.ChangeLog

variable {log : ChangeLog} {u v w : VersionVector} {x y : OpId}

/-- With every operation of `v`, what comes right before it is in `v`. -/
def Closed (log : ChangeLog) (v : VersionVector) : Prop :=
  ∀ x y, v.includes x = true → log.Parent y x → v.includes y = true

/-- `w` is the least closed vector that includes `v`. -/
structure ClosureOf (log : ChangeLog) (v w : VersionVector) : Prop where
  closed : log.Closed w
  le : ∀ p, v.get p ≤ w.get p
  least : ∀ u, log.Closed u → (∀ p, v.get p ≤ u.get p) → ∀ p, w.get p ≤ u.get p

theorem Closed.includes_of_atOrBefore (h : log.Closed v) (hb : log.AtOrBefore y x)
    (hx : v.includes x = true) : v.includes y = true := by
  unfold AtOrBefore at hb
  induction hb using Relation.ReflTransGen.head_induction_on with
  | refl => exact hx
  | head hp _ ih => exact h _ _ ih hp

theorem ClosureOf.eq_iff (h : log.ClosureOf v w) (hv : ∀ e ∈ v.toList, 0 < e.2)
    (hw : ∀ e ∈ w.toList, 0 < e.2) : w = v ↔ log.Closed v := by
  constructor
  · rintro rfl
    exact h.closed
  · intro hclosed
    apply VersionVector.eq_of_get hw hv
    intro p
    exact Nat.le_antisymm (h.least v hclosed (fun _ => Nat.le_refl _) p) (h.le p)

section Closure

theorem closureFrom_pos {stack : List OpId} (hv : ∀ e ∈ v.toList, 0 < e.2)
    (h : log.closureFrom v stack = .ok w) : ∀ e ∈ w.toList, 0 < e.2 := by
  induction v, stack using closureFrom.induct log with
  | case1 v =>
    rw [closureFrom] at h
    cases h
    exact hv
  | case2 v id rest hin ih =>
    rw [closureFrom, dif_pos hin] at h
    exact ih hv h
  | case3 v id rest hout hknown _ ih =>
    rw [closureFrom, dif_neg hout, dif_pos hknown] at h
    exact ih (VersionVector.setEnd_pos hv) h
  | case4 v id rest hout hunknown =>
    rw [closureFrom, dif_neg hout, dif_neg hunknown] at h
    cases h

theorem closure_pos {roots : List OpId} (h : log.closure roots = .ok w) :
    ∀ e ∈ w.toList, 0 < e.2 :=
  closureFrom_pos (fun _ he => absurd he List.not_mem_nil) h

end Closure

section Maximal

/-- `x` is one of `ids` and comes before no other of them. -/
def MaximalIn (log : ChangeLog) (ids : List OpId) (x : OpId) : Prop :=
  x ∈ ids ∧ ∀ y ∈ ids, ¬ log.Before x y

theorem Sound.lamport_lt_nextLamport (h : log.Sound) (hx : log.contains x = true) :
    ∃ lamport, log.lamportOf? x = some lamport ∧ lamport < log.nextLamport := by
  obtain ⟨c, hc, hcx⟩ := h.runs.exists_change hx
  have hend := (h.nextLamport_le_iff _).mp (Nat.le_refl _) _ c hc
  obtain ⟨_, hle, hlt⟩ := Change.contains_iff.mp hcx
  refine ⟨_, h.runs.lamportOf?_of_mem hc hcx, ?_⟩
  unfold Change.lamportEnd Change.length at hend
  omega

/-- Going up from an operation ends, since Lamport times grow and stay below the next one. -/
theorem Sound.exists_latest (h : log.Sound) {P : OpId → Prop}
    (hP : ∀ x, P x → log.contains x = true) (hx : P x) :
    ∃ r, P r ∧ (∀ y, P y → ¬ log.Before r y) ∧ log.AtOrBefore x r := by
  obtain ⟨l, hl, hlt⟩ := h.lamport_lt_nextLamport (hP x hx)
  induction hn : log.nextLamport - l using Nat.strongRecOn generalizing x l with
  | ind n ih =>
    by_cases hmax : ∃ y, P y ∧ log.Before x y
    · obtain ⟨y, hy, hxy⟩ := hmax
      obtain ⟨l', m, hl', hm, hlm⟩ := h.lamport_lt_of_before hxy
      obtain ⟨m', hm', hmn⟩ := h.lamport_lt_nextLamport (hP y hy)
      rw [hl] at hl'
      rw [hm] at hm'
      cases hl'
      cases hm'
      obtain ⟨r, hr, hlatest, hyr⟩ := ih _ (by omega) hy m hm hmn rfl
      exact ⟨r, hr, hlatest, hxy.to_reflTransGen.trans hyr⟩
    · exact ⟨x, hx, fun y hy hxy => hmax ⟨y, hy, hxy⟩, .refl⟩

theorem Sound.exists_maximal (h : log.Sound) {ids : List OpId}
    (hids : ∀ x ∈ ids, log.contains x = true) (hx : x ∈ ids) :
    ∃ r, log.MaximalIn ids r ∧ log.AtOrBefore x r := by
  obtain ⟨r, hr, hmax, hxr⟩ := h.exists_latest hids hx
  exact ⟨r, ⟨hr, hmax⟩, hxr⟩

/-- Every operation of the log leads up to a head. -/
theorem Sound.exists_head (h : log.Sound) (hx : log.contains x = true) :
    ∃ r ∈ log.frontiers.ids, log.AtOrBefore x r := by
  obtain ⟨r, hr, hlatest, hxr⟩ := h.exists_latest (P := (log.contains · = true)) (fun _ hy => hy) hx
  refine ⟨r, h.mem_frontiers_iff.mpr ⟨hr, fun y hry => ?_⟩, hxr⟩
  exact hlatest y (h.runs.contains_of_before hry) hry

end Maximal

namespace Sound

theorem vectorToFrontiers_maximal (h : log.Sound) (hv : ∀ p, v.get p ≤ log.vv.get p)
    (hpos : ∀ e ∈ v.toList, 0 < e.2) :
    ∃ f, log.vectorToFrontiers v = .ok f ∧ Ordered.Ascending f.ids ∧
      ∀ x, x ∈ f.ids ↔ log.MaximalIn (lastIds v) x := by
  obtain ⟨f, hf, hasc, hmem⟩ := vectorToFrontiers_spec h hv hpos
  refine ⟨f, hf, hasc, fun x => ?_⟩
  rw [hmem]
  unfold MaximalIn
  simp only [mem_lastIds hpos]

theorem frontiersToVector_spec (h : log.Sound) {f : Frontiers}
    (hf : ∀ x ∈ f.ids, log.contains x = true) :
    ∃ w, log.frontiersToVector f = .ok w ∧ (∀ e ∈ w.toList, 0 < e.2) ∧
      ∀ x, w.includes x = true ↔ ∃ r ∈ f.ids, log.AtOrBefore x r := by
  obtain ⟨w, hw, hmem⟩ := closure_spec h hf
  exact ⟨w, hw, closure_pos hw, hmem⟩

/-- The history of the maximal last operations of `v` is the closure of `v`. -/
theorem closureOf_of_maximal (h : log.Sound) (hv : ∀ p, v.get p ≤ log.vv.get p)
    (hpos : ∀ e ∈ v.toList, 0 < e.2)
    (hw : ∀ x, w.includes x = true ↔ ∃ r, log.MaximalIn (lastIds v) r ∧ log.AtOrBefore x r) :
    log.ClosureOf v w where
  closed := fun x y hx hp => by
    obtain ⟨r, hr, hxr⟩ := (hw x).mp hx
    exact (hw y).mpr ⟨r, hr, .head hp hxr⟩
  le := VersionVector.get_le_iff.mpr fun x hx => by
    obtain ⟨z, hz, hxz⟩ := h.exists_lastId hv hpos hx
    obtain ⟨r, hr, hzr⟩ := h.exists_maximal (fun z hz => contains_of_mem_lastIds hv hpos hz) hz
    exact (hw x).mpr ⟨r, hr, hxz.trans hzr⟩
  least := fun u hclosed hle => VersionVector.get_le_iff.mpr fun x hx => by
    obtain ⟨r, ⟨hr, _⟩, hxr⟩ := (hw x).mp hx
    have hin : v.includes r = true := by
      have := (mem_lastIds hpos).mp hr
      exact VersionVector.includes_iff.mpr (by omega)
    exact hclosed.includes_of_atOrBefore hxr (VersionVector.get_le_iff.mp hle r hin)

/-- Among the last operations of the history of `ids`, the maximal ones are those of `ids`. -/
theorem maximal_lastIds_iff (h : log.Sound) {ids : List OpId} (hw : ∀ p, w.get p ≤ log.vv.get p)
    (hpos : ∀ e ∈ w.toList, 0 < e.2)
    (hmem : ∀ x, w.includes x = true ↔ ∃ r ∈ ids, log.AtOrBefore x r) :
    log.MaximalIn (lastIds w) x ↔ log.MaximalIn ids x := by
  have hlast : ∀ y ∈ ids, ∃ z ∈ lastIds w, log.AtOrBefore y z := by
    intro y hy
    exact h.exists_lastId hw hpos ((hmem y).mpr ⟨y, hy, .refl⟩)
  have hback : ∀ z ∈ lastIds w, ∃ r ∈ ids, log.AtOrBefore z r := by
    intro z hz
    have := (mem_lastIds hpos).mp hz
    exact (hmem z).mp (VersionVector.includes_iff.mpr (by omega))
  have hsame : ∀ as bs : List OpId, (∀ a ∈ as, ∃ b ∈ bs, log.AtOrBefore a b) →
      (∀ b ∈ bs, ∃ a ∈ as, log.AtOrBefore b a) → log.MaximalIn as x → log.MaximalIn bs x := by
    intro as bs hab hba ⟨hx, hmax⟩
    obtain ⟨b, hb, hxb⟩ := hab x hx
    obtain ⟨a, ha, hba'⟩ := hba b hb
    have hno : ∀ y, log.Before x y → ∀ c ∈ bs, ¬ log.AtOrBefore y c := by
      intro y hxy c hc hyc
      obtain ⟨d, hd, hcd⟩ := hba c hc
      exact hmax d hd ((hxy.trans_left hyc).trans_left hcd)
    refine ⟨?_, fun y hy hxy => hno y hxy y hy .refl⟩
    rcases Relation.reflTransGen_iff_eq_or_transGen.mp hxb with rfl | hlt
    · exact hb
    · exact absurd .refl (hno b hlt b hb)
  exact ⟨hsame _ _ hback hlast, hsame _ _ hlast hback⟩

end Sound

/-- The heads of a version vector come before none of each other, and their history is the closure
of the vector, hence the vector itself exactly when that is closed. The heads of the history of
known operations are the maximal ones among these. -/
theorem heads_stand_for_closure (h : Steps empty log) :
    (∀ v : VersionVector, (∀ e ∈ v.toList, 0 < e.2) → (∀ p, v.get p ≤ log.vv.get p) →
      ∃ f w, log.vectorToFrontiers v = .ok f ∧
        (∀ x ∈ f.ids, ∀ y ∈ f.ids, ¬ log.Before x y) ∧
        log.frontiersToVector f = .ok w ∧ log.ClosureOf v w ∧ (w = v ↔ log.Closed v)) ∧
    ∀ a : Frontiers, (∀ x ∈ a.ids, log.contains x = true) →
      ∃ w f, log.frontiersToVector a = .ok w ∧ log.vectorToFrontiers w = .ok f ∧
        Ordered.Ascending f.ids ∧ ∀ x, x ∈ f.ids ↔ log.MaximalIn a.ids x := by
  have hs : log.Sound := (h.intact intact_empty).1.sound
  constructor
  · intro v hpos hv
    obtain ⟨f, hf, _, hheads⟩ := hs.vectorToFrontiers_maximal hv hpos
    have hknown : ∀ x ∈ f.ids, log.contains x = true :=
      fun x hx => contains_of_mem_lastIds hv hpos ((hheads x).mp hx).1
    obtain ⟨w, hw, hwpos, hmem⟩ := hs.frontiersToVector_spec hknown
    simp only [hheads] at hmem
    have hclosure := hs.closureOf_of_maximal hv hpos hmem
    refine ⟨f, w, hf, fun x hx y hy => ?_, hw, hclosure, hclosure.eq_iff hpos hwpos⟩
    exact ((hheads x).mp hx).2 y ((hheads y).mp hy).1
  · intro a ha
    obtain ⟨w, hw, hwpos, hmem⟩ := hs.frontiersToVector_spec ha
    have hle : ∀ p, w.get p ≤ log.vv.get p := VersionVector.get_le_iff.mpr fun x hx => by
      obtain ⟨r, hr, hxr⟩ := (hmem x).mp hx
      exact hs.contains_of_atOrBefore hxr (ha r hr)
    obtain ⟨f, hf, hasc, hheads⟩ := hs.vectorToFrontiers_maximal hle hwpos
    exact ⟨w, f, hw, hf, hasc, fun x => (hheads x).trans (hs.maximal_lastIds_iff hle hwpos hmem)⟩

theorem heads_stand_for_closure_inside_change :
    let t : ContainerId := .root "t" .text
    let first := empty.appended ⟨1⟩ [(t, .insertText 0 "abc")] .empty 0
    let log := first.appended ⟨2⟩ [(t, .insertText 2 "x")] (.ofId ⟨⟨1⟩, 1⟩) 0
    let v := VersionVector.ofList [(⟨2⟩, 1)]
    let a : Frontiers := ⟨[⟨⟨1⟩, 0⟩, ⟨⟨1⟩, 2⟩, ⟨⟨2⟩, 0⟩]⟩
    (∃ f w, log.vectorToFrontiers v = .ok f ∧ log.frontiersToVector f = .ok w ∧
      log.ClosureOf v w ∧ w ≠ v) ∧
    ∃ w f, log.frontiersToVector a = .ok w ∧ log.vectorToFrontiers w = .ok f ∧
      ∀ x, x ∈ f.ids ↔ log.MaximalIn a.ids x := by
  intro t first log v a
  have reached : Steps empty log :=
    (Relation.ReflTransGen.single (Step.append empty ⟨1⟩ ..)).tail (.append first ⟨2⟩ ..)
  obtain ⟨hvectors, hheads⟩ := heads_stand_for_closure reached
  have hle : ∀ p, v.get p ≤ log.vv.get p := VersionVector.includesAll_iff.mp (by decide)
  obtain ⟨f, w, hf, _, hw, hclosure, heq⟩ := hvectors v (by decide) hle
  obtain ⟨w', f', hw', hf', _, hmax⟩ := hheads a (by decide)
  refine ⟨⟨f, w, hf, hw, hclosure, fun hv => ?_⟩, w', f', hw', hf', hmax⟩
  let c : Change := ⟨⟨⟨2⟩, 0⟩, 2, .ofId ⟨⟨1⟩, 1⟩, 0, [⟨0, t, .insertText 2 "x"⟩]⟩
  have hparent : log.Parent ⟨⟨1⟩, 1⟩ ⟨⟨2⟩, 0⟩ := ⟨c, by decide, by decide, by decide⟩
  exact absurd (heq.mp hv _ _ (by decide) hparent) (by decide)

end CausalReplica.ChangeLog
