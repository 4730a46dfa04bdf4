import CausalReplica.Proofs.Log.Comparison

/-!
# The histories that heads stand for

A log computes the history of heads it knows as a version vector, which counts for each peer the
operations in it. What two histories share is closed, so it is the history of its own heads: these
are the common ancestor of the two.
-/

namespace CausalReplica.ChangeLog

variable {log : ChangeLog} {f g a : Frontiers} {w : VersionVector} {x y : OpId} {s : Set OpId}

def typed (text : String) : List (ContainerId × Content) :=
  [(.root "t" .text, .insertText 0 text)]

/-- Two peers, each of which appends again on top of some of what the other appended first. -/
def crossed : ChangeLog :=
  (((empty.appended ⟨1⟩ (typed "abc") .empty 0).appended ⟨2⟩ (typed "x") .empty 0).appended ⟨1⟩
    (typed "d") (.ofId ⟨⟨2⟩, 0⟩) 0).appended ⟨2⟩ (typed "y") (.ofId ⟨⟨1⟩, 1⟩) 0

theorem steps_crossed : Steps empty crossed :=
  (((Relation.ReflTransGen.single (.append ..)).tail (.append ..)).tail (.append ..)).tail
    (.append ..)

section Count

theorem encard_includes (w : VersionVector) (p : Peer) :
    { x | w.includes x = true ∧ x.peer = p }.encard = w.get p := by
  have himage : { x | w.includes x = true ∧ x.peer = p } =
      OpId.mk p '' (Finset.range (w.get p) : Set Nat) := by
    ext x
    constructor
    · rintro ⟨hx, rfl⟩
      have hlt := VersionVector.includes_iff.mp hx
      exact ⟨x.counter, Finset.mem_coe.mpr (Finset.mem_range.mpr hlt), rfl⟩
    · rintro ⟨n, hn, rfl⟩
      exact ⟨VersionVector.includes_iff.mpr (Finset.mem_range.mp (Finset.mem_coe.mp hn)), rfl⟩
  rw [himage, Function.Injective.encard_image fun _ _ h => (OpId.mk.inj h).2,
    Set.encard_coe_eq_coe_finsetCard, Finset.card_range]

theorem mem_keys_iff (hpos : ∀ e ∈ w.toList, 0 < e.2) {p : Peer} :
    p ∈ w.ends.keys ↔ ∃ x, w.includes x = true ∧ x.peer = p := by
  constructor
  · intro hp
    obtain ⟨e, he, rfl⟩ := List.mem_map.mp hp
    refine ⟨⟨e.1, 0⟩, VersionVector.includes_iff.mpr ?_, rfl⟩
    change 0 < w.get e.1
    rw [VersionVector.get_of_mem (n := e.2) he]
    exact hpos e he
  · rintro ⟨x, hx, rfl⟩
    have hpos := Nat.zero_lt_of_lt (VersionVector.includes_iff.mp hx)
    exact List.mem_map.mpr ⟨_, VersionVector.mem_of_get_pos hpos, rfl⟩

/-- Of the heads that the log does not know, one is reported. -/
theorem Sound.frontiersToVector_of_unknown (h : log.Sound)
    (hf : ∃ r ∈ f.ids, log.contains r = false) :
    ∃ r ∈ f.ids, log.contains r = false ∧
      log.frontiersToVector f = .error (.notFound (.op r)) := by
  obtain ⟨r, hr, hout⟩ := hf
  have hsome : (f.ids.reverse.find? fun id => !log.contains id).isSome :=
    List.find?_isSome.mpr ⟨r, List.mem_reverse.mpr hr, by simp [hout]⟩
  obtain ⟨last, hlast⟩ := Option.isSome_iff_exists.mp hsome
  refine ⟨last, List.mem_reverse.mp (List.mem_of_find?_eq_some hlast), ?_, ?_⟩
  · simpa using List.find?_some hlast
  · exact closureFrom_of_unknown h (fun _ hx => absurd hx VersionVector.not_includes_empty) hlast

/-- Heads of which one is unknown have no vector. The vector of known heads counts the operations
of each peer that are at or before one of them, and lists no peer without any. -/
theorem frontiersToVector_counts_history (h : Steps empty log) (f : Frontiers) :
    ((∃ what, log.frontiersToVector f = .error (.notFound what)) ↔
      ∃ r ∈ f.ids, log.contains r = false) ∧
    ((∀ r ∈ f.ids, log.contains r = true) →
      ∃ w, log.frontiersToVector f = .ok w ∧ ∀ p,
        { x | x ∈ log.history f ∧ x.peer = p }.encard = w.get p ∧
        (p ∈ w.ends.keys ↔ ∃ x ∈ log.history f, x.peer = p)) := by
  have hs : log.Sound := (h.intact intact_empty).1.sound
  have hcounted : (∀ r ∈ f.ids, log.contains r = true) →
      ∃ w, log.frontiersToVector f = .ok w ∧ ∀ p,
        { x | x ∈ log.history f ∧ x.peer = p }.encard = w.get p ∧
        (p ∈ w.ends.keys ↔ ∃ x ∈ log.history f, x.peer = p) := by
    intro hf
    obtain ⟨w, hw, hpos, hmem⟩ := hs.frontiersToVector_spec hf
    have hhistory : log.history f = { x | w.includes x = true } :=
      Set.ext fun x => (hmem x).symm
    rw [hhistory]
    exact ⟨w, hw, fun p => ⟨encard_includes w p, mem_keys_iff hpos⟩⟩
  refine ⟨⟨fun ⟨what, herror⟩ => ?_, fun hf => ?_⟩, hcounted⟩
  · by_contra hknown
    obtain ⟨w, hw, _⟩ := hcounted (by simpa using hknown)
    exact nomatch herror.symm.trans hw
  · obtain ⟨r, _, _, herror⟩ := hs.frontiersToVector_of_unknown hf
    exact ⟨.op r, herror⟩

theorem frontiersToVector_counts_history_inside_change :
    { x | x ∈ crossed.history (.ofId ⟨⟨2⟩, 1⟩) ∧ x.peer = ⟨1⟩ }.encard = 2 ∧
      (¬ ∃ x ∈ crossed.history (.ofId ⟨⟨1⟩, 2⟩), x.peer = ⟨2⟩) ∧
      ∃ what, crossed.frontiersToVector ⟨[⟨⟨1⟩, 0⟩, ⟨⟨2⟩, 2⟩]⟩ = .error (.notFound what) := by
  obtain ⟨_, hlater⟩ := frontiersToVector_counts_history steps_crossed (.ofId ⟨⟨2⟩, 1⟩)
  obtain ⟨_, hearlier⟩ := frontiersToVector_counts_history steps_crossed (.ofId ⟨⟨1⟩, 2⟩)
  obtain ⟨hunknown, _⟩ :=
    frontiersToVector_counts_history steps_crossed ⟨[⟨⟨1⟩, 0⟩, ⟨⟨2⟩, 2⟩]⟩
  obtain ⟨v, hv, hcount⟩ := hlater (by decide)
  obtain ⟨w, hw, hlisted⟩ := hearlier (by decide)
  have hv' : crossed.frontiersToVector (.ofId ⟨⟨2⟩, 1⟩) = .ok (.ofList [(⟨1⟩, 2), (⟨2⟩, 2)]) := by
    cbv
  have hw' : crossed.frontiersToVector (.ofId ⟨⟨1⟩, 2⟩) = .ok (.ofList [(⟨1⟩, 3)]) := by cbv
  have hvget : v.get ⟨1⟩ = 2 := by
    rw [Except.ok.inj (hv.symm.trans hv')]
    decide
  have hwkeys : ⟨2⟩ ∉ w.ends.keys := by
    rw [Except.ok.inj (hw.symm.trans hw')]
    decide
  refine ⟨?_, fun hex => hwkeys ((hlisted ⟨2⟩).2.mpr hex), hunknown.mpr ?_⟩
  · rw [(hcount ⟨1⟩).1, hvget]
    rfl
  · exact ⟨⟨⟨2⟩, 2⟩, by decide, by decide⟩

end Count

section Shared

theorem mem_history_of_parent (hp : log.Parent y x) (hx : x ∈ log.history f) :
    y ∈ log.history f := by
  obtain ⟨r, hr, hxr⟩ := hx
  exact ⟨r, hr, .head hp hxr⟩

namespace Sound

theorem history_eq_of_heads (h : log.Sound) (hknown : s ⊆ log.ops)
    (hclosed : ∀ x ∈ s, ∀ y, log.Parent y x → y ∈ s)
    (ha : ∀ x, x ∈ a.ids ↔ x ∈ s ∧ ∀ y ∈ s, ¬ log.Before x y) : log.history a = s := by
  ext x
  constructor
  · rintro ⟨r, hr, hxr⟩
    unfold AtOrBefore at hxr
    induction hxr using Relation.ReflTransGen.head_induction_on with
    | refl => exact ((ha r).mp hr).1
    | head hp _ ih => exact hclosed _ ih _ hp
  · intro hx
    obtain ⟨r, hr, hlatest, hxr⟩ := h.exists_latest (P := (· ∈ s)) hknown hx
    exact ⟨r, (ha r).mpr ⟨hr, hlatest⟩, hxr⟩

theorem commonAncestor_spec (h : log.Sound) (hf : ∀ r ∈ f.ids, log.contains r = true)
    (hg : ∀ r ∈ g.ids, log.contains r = true) :
    ∃ a, log.commonAncestor f g = .ok a ∧ Ordered.Ascending a.ids ∧
      ∀ x, x ∈ a.ids ↔ x ∈ log.history f ∩ log.history g ∧
        ∀ y ∈ log.history f ∩ log.history g, ¬ log.Before x y := by
  obtain ⟨v, hv, _, hvmem⟩ := h.frontiersToVector_spec hf
  obtain ⟨w, hw, _, hwmem⟩ := h.frontiersToVector_spec hg
  have hshared : ∀ x, (v.intersection w).includes x = true ↔
      x ∈ log.history f ∩ log.history g := by
    intro x
    rw [VersionVector.includes_intersection, hvmem, hwmem]
    exact Iff.rfl
  have hle : ∀ p, (v.intersection w).get p ≤ log.vv.get p :=
    VersionVector.get_le_iff.mpr fun x hx => h.history_subset hf ((hshared x).mp hx).1
  obtain ⟨a, ha, hasc, hheads⟩ :=
    h.vectorToFrontiers_heads hle (VersionVector.intersection_pos v w)
  refine ⟨a, ?_, hasc, fun x => ?_⟩
  · unfold commonAncestor
    rw [hv, hw]
    exact ha
  · simp only [hheads, hshared]

end Sound

/-- Known heads have a common ancestor, the same whichever side comes first. It consists of the
shared operations that come before no other shared one, and its history is all that is shared. -/
theorem commonAncestor_heads_shared (h : Steps empty log)
    (hf : ∀ r ∈ f.ids, log.contains r = true) (hg : ∀ r ∈ g.ids, log.contains r = true) :
    let shared := log.history f ∩ log.history g
    ∃ a, log.commonAncestor f g = .ok a ∧ log.commonAncestor g f = .ok a ∧
      log.history a = shared ∧
      (∀ x, x ∈ a.ids ↔ x ∈ shared ∧ ∀ y ∈ shared, ¬ log.Before x y) ∧
      (∀ x ∈ a.ids, ∀ y ∈ a.ids, ¬ log.Before x y) ∧ (a.ids = [] ↔ shared = ∅) := by
  intro shared
  have hs : log.Sound := (h.intact intact_empty).1.sound
  obtain ⟨a, ha, hasc, hheads⟩ := hs.commonAncestor_spec hf hg
  obtain ⟨b, hb, hbasc, hbheads⟩ := hs.commonAncestor_spec hg hf
  have hsame : a.ids = b.ids := by
    refine Ordered.eq_of_mem_iff hasc hbasc fun x => ?_
    rw [hheads, hbheads, Set.inter_comm]
  have hhistory : log.history a = shared := by
    refine hs.history_eq_of_heads ?_ ?_ hheads
    · exact Set.inter_subset_left.trans (hs.history_subset hf)
    · exact fun x hx y hp => ⟨mem_history_of_parent hp hx.1, mem_history_of_parent hp hx.2⟩
  refine ⟨a, ha, ?_, hhistory, hheads, fun x hx y hy => ?_, ?_⟩
  · rw [hb]
    exact congrArg (fun ids => Except.ok (Frontiers.mk ids)) hsame.symm
  · exact ((hheads x).mp hx).2 y ((hheads y).mp hy).1
  · constructor
    · intro hnil
      rw [← hhistory]
      refine Set.eq_empty_of_forall_notMem fun x ⟨r, hr, _⟩ => ?_
      rw [hnil] at hr
      exact List.not_mem_nil hr
    · intro hempty
      refine List.eq_nil_iff_forall_not_mem.mpr fun x hx => ?_
      have hin : x ∈ shared := ((hheads x).mp hx).1
      rw [hempty] at hin
      exact hin

theorem commonAncestor_heads_shared_crossed :
    let merged : Frontiers := ⟨[⟨⟨1⟩, 1⟩, ⟨⟨2⟩, 0⟩]⟩
    crossed.commonAncestor (.ofId ⟨⟨1⟩, 3⟩) (.ofId ⟨⟨2⟩, 1⟩) = .ok merged ∧
      crossed.history merged =
        crossed.history (.ofId ⟨⟨1⟩, 3⟩) ∩ crossed.history (.ofId ⟨⟨2⟩, 1⟩) ∧
      ¬ crossed.Before ⟨⟨1⟩, 1⟩ ⟨⟨2⟩, 0⟩ := by
  intro merged
  have answer : crossed.commonAncestor (.ofId ⟨⟨1⟩, 3⟩) (.ofId ⟨⟨2⟩, 1⟩) = .ok merged := by cbv
  obtain ⟨a, ha, _, hhistory, _, hchain, _⟩ :=
    commonAncestor_heads_shared steps_crossed (f := .ofId ⟨⟨1⟩, 3⟩) (g := .ofId ⟨⟨2⟩, 1⟩)
      (by decide) (by decide)
  have heq : a = merged := Except.ok.inj (ha.symm.trans answer)
  subst heq
  exact ⟨answer, hhistory, hchain _ (.head _) _ (.tail _ (.head _))⟩

end Shared

end CausalReplica.ChangeLog
