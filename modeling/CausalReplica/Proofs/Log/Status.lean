import CausalReplica.Proofs.Id.NormalForm
import CausalReplica.Proofs.Log.Entered
import CausalReplica.Proofs.Log.Reachable
import CausalReplica.Proofs.Version.Lattice
import Mathlib

/-!
# What an import reports

The spans of the changes that enter the log are collected in the order of arrival and then
coalesced. What was unknown before and is known afterwards is also what the later version vector has
over the earlier one, and both give it in normal form. So the report is the difference of the
vectors.
-/

namespace CausalReplica

/-- The status says what a call did that led from one log to another. -/
structure ImportStatus.Exact (status : ImportStatus) (before after : ChangeLog) : Prop where
  vv_le : ∀ p, before.vv.get p ≤ after.vv.get p
  applied_eq : status.applied = after.vv.missingFrom before.vv
  /-- One span for each peer, by peer. -/
  applied_pairwise : status.applied.Pairwise fun s t => compare s.peer t.peer = .lt
  mem_applied : ∀ x, (∃ s ∈ status.applied, s.contains x = true) ↔
    after.contains x = true ∧ before.contains x = false
  isNoop_iff : status.isNoop = true ↔ after.changes = before.changes ∧ after.vv = before.vv ∧
    after.frontiers = before.frontiers ∧ after.nextLamport = before.nextLamport
  mem_pending : ∀ x, (∃ s ∈ status.pending, s.contains x = true) ↔
    ∃ c ∈ after.pending.toList, c.contains x = true

namespace ChangeLog

variable {log next : ChangeLog} {added cs : List Change} {x : OpId}

namespace GrowsBy

theorem eq_nil_of_changes_eq (h : log.GrowsBy added next) (heq : next.changes = log.changes) :
    added = [] := by
  refine List.eq_nil_iff_forall_not_mem.mpr fun c hc => ?_
  have hgrown := h c.peer
  have hsame : next.changesOf c.peer = log.changesOf c.peer := by
    unfold changesOf
    rw [heq]
  rw [hsame, List.self_eq_append_right, List.filter_eq_nil_iff] at hgrown
  exact hgrown c hc (by simp)

theorem coalesce_eq_missingFrom (h : log.GrowsBy added next) (hl : log.Runs) (hn : next.Runs) :
    IdSpan.coalesce (added.map Change.span) = next.vv.missingFrom log.vv := by
  refine IdSpan.eq_of_same_ids IdSpan.coalesce_pairwise_apart ?_ ?_ ?_ fun x => ?_
  · exact VersionVector.missingFrom_pairwise_peer.imp fun hlt => .inl hlt
  · refine IdSpan.coalesce_start_lt_stop fun s hs => ?_
    obtain ⟨c, hc, rfl⟩ := List.mem_map.mp hs
    exact ((hn c.peer).mem (h.mem_of_added hc)).2.1.start_lt_stop
  · exact fun s hs => (VersionVector.mem_missingFrom.mp hs).2.1
  · rw [exists_mem_coalesce_span, VersionVector.exists_mem_missingFrom]
    constructor
    · rintro ⟨c, hc, hcx⟩
      exact ⟨(h.contains_iff hl hn).mpr (.inr ⟨c, hc, hcx⟩), h.not_contains hl hn hc hcx⟩
    · intro ⟨hin, hout⟩
      rcases (h.contains_iff hl hn).mp hin with hold | hnew
      · exact nomatch hold.symm.trans hout
      · exact hnew

end GrowsBy

theorem exists_mem_spans {b : PendingChanges} :
    (∃ s ∈ b.spans, s.contains x = true) ↔ ∃ c ∈ b.toList, c.contains x = true :=
  exists_mem_coalesce_span

/-- An import reports exactly what entered the log and what waits. It is reported to have done
nothing exactly when it left the log as it was, but for the buffer. -/
theorem import_status_exact (h : Steps empty log) (hcs : ∀ c ∈ cs, c.WellFormed) :
    (log.importChanges cs).2.1.Exact log (log.importChanges cs).1 := by
  obtain ⟨hlog, _⟩ := h.intact intact_empty
  obtain ⟨hafter, hgrow⟩ := hlog.importChanges hcs
  obtain ⟨added, hadded, happlied⟩ := hlog.importChanges_growsBy hcs
  have hmissing := hadded.coalesce_eq_missingFrom hlog.sound.runs hafter.sound.runs
  refine ⟨hgrow.vv_le hlog.sound.runs hafter.sound.runs, happlied.trans hmissing, ?_, ?_, ?_, ?_⟩
  · rw [happlied, hmissing]
    exact VersionVector.missingFrom_pairwise_peer
  · rw [happlied, hmissing]
    exact fun x => VersionVector.exists_mem_missingFrom
  · rw [ImportStatus.isNoop, List.isEmpty_iff, happlied, IdSpan.coalesce_eq_nil_iff,
      List.map_eq_nil_iff]
    constructor
    · rintro rfl
      obtain ⟨hchanges, hvv, hfrontiers, hclock⟩ :=
        hafter.sound.eq_of_changesOf hlog.sound fun p => by simp [hadded p]
      exact ⟨hchanges, hvv, hfrontiers, congrArg LamportClock.next hclock⟩
    · exact fun ⟨hchanges, _⟩ => hadded.eq_nil_of_changes_eq hchanges
  · exact fun x => exists_mem_spans

/-- A text that waited for an operation which was then appended here. -/
def overdue : ChangeLog :=
  (empty.importChanges
    [⟨⟨⟨2⟩, 0⟩, 5, ⟨[⟨⟨1⟩, 0⟩]⟩, 0, [⟨0, .root "t" .text, .insertText 0 "ab"⟩]⟩]).1.appended
    ⟨1⟩ [(.root "m" .map, .setKey "k" none)] .empty 0

/-- A change that depends on something unknown, and one that is no later than what it depends on. -/
def unfit : List Change :=
  [⟨⟨⟨3⟩, 0⟩, 4, ⟨[⟨⟨4⟩, 0⟩]⟩, 0, [⟨0, .root "m" .map, .setKey "k" none⟩]⟩,
    ⟨⟨⟨4⟩, 0⟩, 0, ⟨[⟨⟨1⟩, 0⟩]⟩, 0, [⟨0, .root "m" .map, .setKey "k" (some .null)⟩]⟩]

theorem import_status_exact_overdue :
    overdue.pendingSpans = [⟨⟨2⟩, 0, 2⟩] ∧
      (overdue.importChanges unfit).2 =
        (⟨[⟨⟨2⟩, 0, 2⟩], [⟨⟨3⟩, 0, 1⟩]⟩, some (.invalidLamport ⟨⟨4⟩, 0⟩ 0 1)) ∧
      (overdue.importChanges unfit).2.1.Exact overdue (overdue.importChanges unfit).1 := by
  have hoverdue : Steps empty overdue :=
    (Relation.ReflTransGen.single (Step.importChanges empty _ (by decide))).tail (.append ..)
  exact ⟨by cbv, by cbv, import_status_exact hoverdue (by decide)⟩

end ChangeLog

end CausalReplica
