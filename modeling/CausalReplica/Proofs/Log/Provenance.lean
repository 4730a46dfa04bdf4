import CausalReplica.Proofs.Log.Course
import CausalReplica.Proofs.Log.Reachable
import Mathlib

/-!
# Where the operations of an import come from

Every operation that an import adds came with an arrival that entered the log, in full with all it
depends on, or without a beginning that the log knew already. What is left then depends on the last
operation of that beginning only, so the dependencies that the whole change came with may be
missing.
-/

namespace CausalReplica

/-- What `stored` is of the change `c` that came in between the log before and the log after, and
was offered to the log `considered`. -/
structure Change.EntersAs (c stored : Change) (before considered after : ChangeLog) : Prop where
  stored_mem : stored ∈ after.changesOf c.peer
  not_known : ∀ x, stored.contains x = true → before.contains x = false
  /-- It is the change itself, all of whose dependencies are known, or what is left of it after a
  beginning that was known. -/
  grounded : (stored = c ∧ ∀ d ∈ c.deps.ids, after.contains d = true) ∨
    (c.start < stored.start ∧ stored = c.sliceFrom stored.start ∧
      stored.deps.ids = [⟨c.peer, stored.start - 1⟩] ∧
      ∀ x, c.contains x = true → x.counter < stored.start → considered.contains x = true)

theorem Change.EntersAs.of_grow {c stored : Change} {before mid considered after : ChangeLog}
    (h : c.EntersAs stored mid considered after)
    (hgrow : ∀ x, before.contains x = true → mid.contains x = true) :
    c.EntersAs stored before considered after where
  stored_mem := h.stored_mem
  not_known := fun x hx => Bool.eq_false_iff.mpr fun hold =>
    Bool.eq_false_iff.mp (h.not_known x hx) (hgrow x hold)
  grounded := h.grounded

namespace Desk

variable {desk : Desk} {a b : Arrival} {stored : Change} {x : OpId} {queue batch : List Arrival}

theorem sound_log (h : desk.toLog.Intact) : desk.log.Sound := h.sound.withPending desk.log.pending

/-- What enters is what the log does not know of the change, and is admitted. -/
theorem judge_entered (h : desk.toLog.Intact) (ha : a.change.WellFormed)
    (hj : desk.judge a = .entered b stored) :
    b = a ∧ stored = a.change.sliceFrom (desk.log.nextCounter a.change.peer) ∧
      desk.log.Admits stored := by
  unfold judge at hj
  split at hj
  · next ho =>
    cases hj
    exact ⟨rfl, rfl, (ChangeLog.offer_added (sound_log h) ha ho).1⟩
  · exact nomatch hj
  · split at hj <;> exact nomatch hj
  · exact nomatch hj

theorem judge_filed {m : OpId} (hj : desk.judge a = .filed b m) :
    b = a ∧ desk.holder? m a.change = none := by
  unfold judge at hj
  split at hj
  · exact nomatch hj
  · exact nomatch hj
  · split at hj
    · exact nomatch hj
    · next hnone =>
      cases hj
      exact ⟨rfl, hnone⟩
  · exact nomatch hj

theorem release_intact (h : desk.toLog.Intact) (p : OpId → Bool) :
    (∀ b ∈ (desk.release p).1, b.change.WellFormed) ∧ (desk.release p).2.toLog.Intact := by
  obtain ⟨hfreed, hnext⟩ := h.release p
  rw [toLog_release] at hfreed hnext
  exact ⟨fun b hb => hfreed _ (List.mem_map_of_mem hb), hnext⟩

theorem after_intact (h : desk.toLog.Intact) (ha : a.change.WellFormed) :
    (∀ b ∈ (desk.after (desk.judge a)).1, b.change.WellFormed) ∧
      (desk.after (desk.judge a)).2.toLog.Intact := by
  cases hj : desk.judge a with
  | entered b stored =>
    obtain ⟨_, _, hadmits⟩ := judge_entered h ha hj
    have hinsert : ({ desk with log := desk.log.insert stored } : Desk).toLog.Intact :=
      ⟨(hadmits.sound_insert (sound_log h)).withPending _, h.waiting_wellFormed⟩
    exact release_intact hinsert _
  | filed b m =>
    obtain ⟨rfl, hnew⟩ := judge_filed hj
    exact ⟨fun _ hb => absurd hb List.not_mem_nil, add_toLog_of_new hnew ▸ h.withPending_add ha⟩
  | known b => exact ⟨fun _ hb => absurd hb List.not_mem_nil, h⟩
  | displaced b w => exact ⟨fun _ hb => absurd hb List.not_mem_nil, h⟩
  | refused b e => exact ⟨fun _ hb => absurd hb List.not_mem_nil, h⟩

theorem run_intact (h : desk.toLog.Intact) (hq : ∀ a ∈ queue, a.change.WellFormed) :
    (desk.run queue).desk.toLog.Intact ∧ desk.toLog.PartOf (desk.run queue).desk.toLog := by
  have hqueue : ∀ c ∈ queue.map Arrival.change, c.WellFormed := List.forall_mem_map.mpr hq
  have hend := h.settle hqueue
  rwa [settle_toLog] at hend

theorem contains_after (h : desk.toLog.Intact) (ha : a.change.WellFormed) :
    (desk.after (desk.judge a)).2.log.contains x = true ↔ desk.log.contains x = true ∨
      ∃ b stored, desk.judge a = .entered b stored ∧ stored.contains x = true := by
  cases hj : desk.judge a with
  | entered b stored =>
    obtain ⟨_, _, hadmits⟩ := judge_entered h ha hj
    refine hadmits.contains_insert.trans (or_congr_right ⟨fun hx => ⟨b, stored, rfl, hx⟩, ?_⟩)
    rintro ⟨_, _, heq, hx⟩
    cases heq
    exact hx
  | _ => exact ⟨.inl, fun hx => hx.resolve_right fun ⟨_, _, heq, _⟩ => nomatch heq⟩

theorem entersAs_of_judge {after : ChangeLog} (h : desk.toLog.Intact) (ha : a.change.WellFormed)
    (hj : desk.judge a = .entered b stored) (hafter : after.Sound)
    (hpart : (desk.log.insert stored).PartOf after) :
    b = a ∧ b.change.EntersAs stored desk.toLog desk.toLog after := by
  obtain ⟨rfl, hstored, hadmits⟩ := judge_entered h ha hj
  have hpeer : stored.peer = b.change.peer := hstored ▸ Change.peer_sliceFrom
  have hruns := hadmits.runs_insert (sound_log h).runs
  have hgrow : ∀ x, desk.log.contains x = true → after.contains x = true := by
    intro x hx
    exact hpart.contains hruns hafter.runs (hadmits.contains_insert.mpr (.inl hx))
  have hdeps : ∀ d ∈ stored.deps.ids, after.contains d = true := by
    intro d hd
    exact hgrow d (hadmits.contains_parents (sound_log h).runs (List.mem_append_left _ hd))
  refine ⟨rfl, ?_, fun x hx => hadmits.not_contains hx, ?_⟩
  · rw [← hpeer]
    exact hpart.mem (ChangeLog.mem_changesOf_insert.mpr (.inr ⟨rfl, rfl⟩))
  · by_cases hcut : desk.log.nextCounter b.change.peer ≤ b.change.start
    · have hwhole : stored = b.change := hstored.trans (Change.sliceFrom_of_le hcut)
      exact .inl ⟨hwhole, hwhole ▸ hdeps⟩
    · have hstart : stored.start = desk.log.nextCounter b.change.peer := by
        rw [hstored, Change.start_sliceFrom]
        omega
      refine .inr ⟨by omega, hstart ▸ hstored, ?_, fun x hx hlt => ?_⟩
      · rw [hstart, hstored, Change.deps_sliceFrom (by omega)]
      · apply ChangeLog.contains_iff.mpr
        rw [(Change.contains_iff.mp hx).1]
        rwa [hstart] at hlt

/-- What is new in the log at the end of a run entered in its course. -/
theorem run_provenance (h : desk.toLog.Intact) (hq : ∀ a ∈ queue, a.change.WellFormed) :
    (∀ x, (desk.run queue).desk.toLog.contains x = true ↔ desk.toLog.contains x = true ∨
      ∃ a stored, .entered a stored ∈ (desk.run queue).verdicts ∧ stored.contains x = true) ∧
    ∀ a stored, .entered a stored ∈ (desk.run queue).verdicts → ∃ considered later,
      ChangeLog.Passes (desk.toLog, queue.map Arrival.change) (considered, a.change :: later) ∧
      a.change.EntersAs stored desk.toLog considered (desk.run queue).desk.toLog := by
  induction desk, queue using Desk.run.induct with
  | case1 desk =>
    rw [run_nil]
    refine ⟨fun x => ⟨.inl, fun hx => hx.resolve_right ?_⟩, fun a stored hv => ?_⟩
    · rintro ⟨_, _, hv, _⟩
      exact absurd hv List.not_mem_nil
    · exact absurd hv List.not_mem_nil
  | case2 desk a rest ih =>
    obtain ⟨ha, hrest⟩ := List.forall_mem_cons.mp hq
    obtain ⟨hfreed, hnext⟩ := after_intact h ha
    have hqueue := List.forall_mem_append.mpr ⟨hrest, hfreed⟩
    obtain ⟨hcontains, henters⟩ := ih hnext hqueue
    obtain ⟨hend, hpart⟩ := run_intact hnext hqueue
    rw [run_cons rfl]
    refine ⟨fun x => ((hcontains x).trans (or_congr_left (contains_after h ha))).trans ?_, ?_⟩
    · rw [or_assoc]
      apply or_congr_right
      simp only [Course.after, List.mem_cons, or_and_right, exists_or]
      exact or_congr_left (by simp only [eq_comm])
    · intro b stored hv
      rcases List.mem_cons.mp hv with hj | hv
      · obtain ⟨rfl, henters⟩ := entersAs_of_judge h ha hj.symm hend.sound (hj ▸ hpart)
        exact ⟨_, _, .refl, henters⟩
      · obtain ⟨considered, later, hpasses, henters⟩ := henters b stored hv
        refine ⟨considered, later, .head reports_judge.passStep hpasses, henters.of_grow ?_⟩
        exact fun x hx => (contains_after h ha).mpr (.inl hx)

theorem importChanges_provenance (h : desk.toLog.Intact) (hb : ∀ a ∈ batch, a.change.WellFormed) :
    (∀ x, (desk.importChanges batch).desk.toLog.contains x = true ↔
      desk.toLog.contains x = true ∨
        ∃ a stored, .entered a stored ∈ (desk.importChanges batch).verdicts ∧
          stored.contains x = true) ∧
    ∀ a stored, .entered a stored ∈ (desk.importChanges batch).verdicts →
      (a ∈ batch ∨ a ∈ desk.held) ∧ ∃ considered later,
        ChangeLog.Passes (desk.toLog.opening (batch.map Arrival.change))
          (considered, a.change :: later) ∧
        a.change.EntersAs stored desk.toLog considered (desk.importChanges batch).desk.toLog := by
  obtain ⟨hfreed, hnext⟩ := release_intact h desk.log.vv.includes
  have hsorted : ∀ a ∈ batch.mergeSort fun a b => a.change.causalKeyLe b.change,
      a.change.WellFormed := fun a ha => hb a (List.mem_mergeSort.mp ha)
  obtain ⟨hcontains, henters⟩ := run_provenance hnext (List.forall_mem_append.mpr ⟨hsorted, hfreed⟩)
  refine ⟨hcontains, fun a stored hv => ?_⟩
  obtain ⟨considered, later, hpasses, henters⟩ := henters a stored hv
  refine ⟨?_, considered, later, opening_toLog ▸ hpasses, henters.of_grow fun _ hx => hx⟩
  have hsettled : a ∈ (desk.importChanges batch).settled :=
    List.mem_filterMap.mpr ⟨_, hv, rfl⟩
  exact List.mem_append.mp (importChanges_perm.subset (List.mem_append_left _ hsettled))

end Desk

namespace ChangeLog

variable {log : ChangeLog} {cs : List Change}

/-- An import adds only what its arrivals bring, each change with all it depends on in the log or
without a beginning that is there. -/
theorem import_provenance (h : Steps empty log) (hcs : ∀ c ∈ cs, c.WellFormed) :
    let final := (log.importChanges cs).1
    let verdicts := (log.course [cs]).verdicts
    (∀ x, final.contains x = true ↔ log.contains x = true ∨
      ∃ a stored, .entered a stored ∈ verdicts ∧ stored.contains x = true) ∧
    (∀ a stored, .entered a stored ∈ verdicts →
      (a.change ∈ cs ∨ a.change ∈ log.pending.toList) ∧ ∃ considered later,
        Passes (log.opening cs) (considered, a.change :: later) ∧
        a.change.EntersAs stored log considered final) ∧
    ∀ c ∈ final.pending.toList, c ∈ cs ∨ c ∈ log.pending.toList := by
  intro final verdicts
  let batch := (cs.zipIdx 0).map fun e => Arrival.mk (some e.2) e.1
  have hbatch : batch.map Arrival.change = cs :=
    (List.map_map).trans (List.zipIdx_map_fst 0 cs)
  have hcome : ∀ a, a ∈ batch ∨ a ∈ (Desk.ofLog log).held →
      a.change ∈ cs ∨ a.change ∈ log.pending.toList := by
    rintro a (ha | ha)
    · exact .inl (hbatch ▸ List.mem_map_of_mem ha)
    · rw [Desk.held_ofLog] at ha
      obtain ⟨c, hc, rfl⟩ := List.mem_map.mp ha
      exact .inr hc
  have hfinal : final = ((Desk.ofLog log).importChanges batch).desk.toLog :=
    @deliver_eq_course log [cs]
  have hverdicts : verdicts = ((Desk.ofLog log).importChanges batch).verdicts := List.append_nil _
  have hintact : (Desk.ofLog log).toLog.Intact := Desk.toLog_ofLog ▸ (h.intact intact_empty).1
  have hwf : ∀ a ∈ batch, a.change.WellFormed :=
    fun a ha => hcs _ (hbatch ▸ List.mem_map_of_mem ha)
  obtain ⟨hcontains, henters⟩ := Desk.importChanges_provenance hintact hwf
  rw [Desk.toLog_ofLog, hbatch] at henters
  rw [Desk.toLog_ofLog] at hcontains
  rw [hfinal, hverdicts]
  refine ⟨hcontains, fun a stored hv => ?_, fun c hc => ?_⟩
  · obtain ⟨ha, has⟩ := henters a stored hv
    exact ⟨hcome a ha, has⟩
  · rw [Desk.toList_toLog] at hc
    obtain ⟨a, ha, rfl⟩ := List.mem_map.mp hc
    exact hcome a (List.mem_append.mp
      (Desk.importChanges_perm.subset (List.mem_append_right _ ha)))

/-- A change that waited for what it depends on comes in with it. -/
theorem import_provenance_woken :
    let late : Change :=
      ⟨⟨⟨2⟩, 0⟩, 1, .ofId ⟨⟨1⟩, 0⟩, 0, [⟨0, .root "m" .map, .setKey "k" none⟩]⟩
    let first : Change := ⟨⟨⟨1⟩, 0⟩, 0, .empty, 0, [⟨0, .root "t" .text, .insertText 0 "a"⟩]⟩
    let log := (empty.importChanges [late]).1
    let final := (log.importChanges [first]).1
    let verdicts := (log.course [[first]]).verdicts
    (∀ x, final.contains x = true ↔ log.contains x = true ∨
      ∃ a stored, .entered a stored ∈ verdicts ∧ stored.contains x = true) ∧
    (∀ a stored, .entered a stored ∈ verdicts →
      (a.change ∈ [first] ∨ a.change ∈ log.pending.toList) ∧ ∃ considered later,
        Passes (log.opening [first]) (considered, a.change :: later) ∧
        a.change.EntersAs stored log considered final) ∧
    ∀ c ∈ final.pending.toList, c ∈ [first] ∨ c ∈ log.pending.toList := by
  intro late first log
  have step : Step empty log := .importChanges _ _ (by decide)
  exact import_provenance (.single step) (by decide)

/-- Of a change whose beginning came with another one, the rest enters the log while an operation
that the whole change depends on is missing. -/
theorem rest_enters_without_dependency :
    let begun : Change := ⟨⟨⟨1⟩, 0⟩, 0, .empty, 0, [⟨0, .root "l" .list, .insertValues 0 [.null]⟩]⟩
    let whole : Change :=
      ⟨⟨⟨1⟩, 0⟩, 0, .ofId ⟨⟨2⟩, 0⟩, 0,
        [⟨0, .root "l" .list, .insertValues 0 [.null, .bool true]⟩]⟩
    let final := (empty.importChanges [begun, whole]).1
    (begun.WellFormed ∧ whole.WellFormed) ∧
      (begun.contains ⟨⟨1⟩, 1⟩ = false ∧ whole.contains ⟨⟨1⟩, 1⟩ = true) ∧
      (empty.contains ⟨⟨1⟩, 1⟩ = false ∧ final.contains ⟨⟨1⟩, 1⟩ = true) ∧
      ⟨⟨2⟩, 0⟩ ∈ whole.deps.ids ∧ final.contains ⟨⟨2⟩, 0⟩ = false := by
  intro begun whole final
  have hvv : (empty.importChanges [begun, whole]).1.vv = .ofList [(⟨1⟩, 2)] := by cbv
  refine ⟨by decide, by decide, ⟨by decide, ?_⟩, by decide, ?_⟩
  · change (empty.importChanges [begun, whole]).1.vv.includes _ = true
    rw [hvv]
    decide
  · change (empty.importChanges [begun, whole]).1.vv.includes _ = false
    rw [hvv]
    decide

end ChangeLog

end CausalReplica
