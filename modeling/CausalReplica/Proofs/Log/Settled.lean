import CausalReplica.Proofs.Id.Coalesce
import CausalReplica.Proofs.Log.Course
import CausalReplica.Proofs.Log.Reachable
import CausalReplica.Proofs.Log.Replica
import Mathlib

/-!
# An import leaves nothing to try again

Every change that waits after an import waits for one of its own parents, and the log knows none of
these. A local append may make some of them known without releasing what waits for it, which is why
an import begins with a sweep. So an import of nothing right after an import does nothing.
-/

namespace CausalReplica

namespace PendingChanges

variable {b : PendingChanges} {c : Change} {m n : OpId} {p : OpId → Bool}

/-- The operations that something was filed under. -/
def missing (b : PendingChanges) : List OpId := b.byMissing.keys

theorem mem_missing_of_waiting (h : c ∈ b.waiting m) : m ∈ b.missing := by
  refine OrdMap.mem_keys_iff.mpr ?_
  unfold waiting OrdMap.findD at h
  cases hfind : b.byMissing.find? m with
  | none =>
    rw [hfind] at h
    exact absurd h List.not_mem_nil
  | some cs => rfl

theorem mem_missing_add (h : n ∈ (b.add m c).missing) : n = m ∨ n ∈ b.missing := by
  by_cases hknown : ((b.waiting m).any fun w => w.id = c.id && w.stop = c.stop) = true
  · rw [add_of_known hknown] at h
    exact .inr h
  · have hadd : b.add m c = ⟨b.byMissing.insert m (b.waiting m ++ [c])⟩ := if_neg hknown
    rw [hadd, missing, OrdMap.keys_insert] at h
    exact Ordered.mem_insert.mp h

theorem mem_missing_release : m ∈ (b.release p).2.missing ↔ m ∈ b.missing ∧ p m = false := by
  simp [missing, release, OrdMap.keys, OrdMap.filterKeys]

/-- A release takes nothing out when nothing waits for what it is about. -/
theorem release_of_missing (h : ∀ m ∈ b.missing, p m = false) : b.release p = ([], b) := by
  have hentries : ∀ e ∈ b.byMissing.entries, p e.1 = false :=
    fun e he => h e.1 (List.mem_map_of_mem he)
  obtain ⟨⟨entries, hascending⟩⟩ := b
  have hout : entries.filter (fun e => p e.1) = [] :=
    List.filter_eq_nil_iff.mpr fun e he => by simp [hentries e he]
  have hleft : entries.filter (fun e => !p e.1) = entries :=
    List.filter_eq_self.mpr fun e he => by simp [hentries e he]
  simp [release, OrdMap.filterKeys, OrdMap.values, hout, hleft]

end PendingChanges

namespace ChangeLog

variable {log later : ChangeLog} {c d : Change} {m : OpId} {queue cs : List Change}

/-- What waits does so for one of its parents. -/
def Filed (log : ChangeLog) : Prop := ∀ m, ∀ c ∈ log.pending.waiting m, m ∈ c.parents

/-- Nothing waits for what the log knows. -/
def Settled (log : ChangeLog) : Prop := ∀ m ∈ log.pending.missing, log.contains m = false

theorem offer_blocked_missing (ho : log.offer c = .blocked m d) : log.missing? c = some m := by
  have heq := offer_blocked_eq ho
  unfold offer at ho
  dsimp only at ho
  split at ho
  · exact nomatch ho
  · split at ho
    · next hgap =>
      rw [missing?_of_gap hgap]
      exact congrArg some (Offer.blocked.inj ho).1
    · next hgap =>
      obtain ⟨hd, hmissing⟩ := offerNext_blocked ho
      rw [missing?_of_no_gap (Nat.le_of_not_lt hgap)]
      rwa [← hd, heq] at hmissing

theorem Settled.release_insert {span : IdSpan} (h : log.Settled) (hspan : span = c.span) :
    ((log.insert c).freedBy span).2.Settled := by
  intro m hm
  obtain ⟨hm, hfree⟩ := PendingChanges.mem_missing_release.mp hm
  have hold := h m hm
  rw [Bool.eq_false_iff, ne_eq, contains_iff] at hold ⊢
  change ¬ m.counter < (log.insert c).vv.get m.peer
  rw [get_vv_insert]
  subst hspan
  split
  · next hp =>
    intro hlt
    have : (decide (m.peer = c.span.peer) && decide (m.counter < c.span.stop)) = true := by
      simpa using ⟨hp, hlt⟩
    rw [this] at hfree
    exact nomatch hfree
  · exact hold

theorem Settled.settle (h : log.Settled) : (log.settle queue).log.Settled := by
  induction log, queue using settle.induct with
  | case1 log =>
    rw [settle_nil]
    exact h
  | case2 log c rest next span ho freed ih =>
    obtain ⟨rfl, hspan⟩ := offer_added_eq ho
    rw [settle_added ho]
    exact ih (h.release_insert hspan)
  | case3 log c rest ho ih =>
    rw [settle_known ho]
    exact ih h
  | case4 log c rest m d ho ih =>
    rw [settle_blocked ho]
    refine ih fun n hn => ?_
    rcases PendingChanges.mem_missing_add hn with rfl | hn
    · exact (missing?_spec (offer_blocked_missing ho)).1
    · exact h n hn
  | case5 log c rest e ho ih =>
    rw [settle_refused ho]
    exact ih h

/-- The sweep that an import begins with makes up for appends. -/
theorem importChanges_settled : (log.importChanges cs).1.Settled := by
  have hswept : (log.release log.vv.includes).2.Settled :=
    fun m hm => (PendingChanges.mem_missing_release.mp hm).2
  exact hswept.settle

namespace Filed

theorem release (h : log.Filed) (p : OpId → Bool) : (log.release p).2.Filed := by
  intro m c hc
  replace hc : c ∈ (log.pending.release p).2.waiting m := hc
  rw [PendingChanges.waiting_release] at hc
  split at hc
  · exact absurd hc List.not_mem_nil
  · exact h m c hc

theorem settle (h : log.Filed) : (log.settle queue).log.Filed := by
  induction log, queue using settle.induct with
  | case1 log =>
    rw [settle_nil]
    exact h
  | case2 log c rest next span ho freed ih =>
    have hnext : next.Filed := by
      unfold Filed
      rw [offer_pending ho]
      exact h
    rw [settle_added ho]
    exact ih (hnext.release _)
  | case3 log c rest ho ih =>
    rw [settle_known ho]
    exact ih h
  | case4 log c rest m d ho ih =>
    rw [settle_blocked ho]
    refine ih fun n w hw => ?_
    rcases PendingChanges.mem_waiting_add hw with hw | ⟨rfl, rfl⟩
    · exact h n w hw
    · rw [offer_blocked_eq ho]
      exact (missing?_spec (offer_blocked_missing ho)).2
  | case5 log c rest e ho ih =>
    rw [settle_refused ho]
    exact ih h

theorem step (hs : Step log later) (h : log.Filed) : later.Filed := by
  cases hs with
  | append p items deps timestamp =>
    unfold appended
    split
    · next next c hok =>
      obtain ⟨_, rfl⟩ := append_ok hok
      exact h
    · exact h
  | importChanges cs _ => exact (h.release _).settle

theorem steps (hs : Steps log later) (h : log.Filed) : later.Filed := by
  induction hs with
  | refl => exact h
  | tail _ step ih => exact ih.step step

end Filed

theorem filed_empty : empty.Filed := fun _ _ hc => absurd hc List.not_mem_nil

/-- Nothing waits that could go in, so there is nothing for an import of no changes to do. -/
theorem Settled.importChanges_nil (h : log.Settled) :
    log.importChanges [] = (log, ⟨[], log.pending.spans⟩, none) := by
  have hkept : log.pending.release log.vv.includes = ([], log.pending) :=
    PendingChanges.release_of_missing h
  have hrelease : log.release log.vv.includes = ([], log) := by
    unfold release
    rw [hkept]
  unfold importChanges
  rw [hrelease]
  dsimp only
  rw [List.mergeSort_nil, List.append_nil, settle_nil, Pass.result, IdSpan.coalesce_nil]

/-- After an import whatever waits is filed under one of its dependencies, or the operation right
before it, that the log does not know; and to import nothing then does nothing. -/
theorem importChanges_reaches_fixpoint (h : Steps empty log) (hcs : ∀ c ∈ cs, c.WellFormed) :
    let after := (log.importChanges cs).1
    (∀ m, ∀ c ∈ after.pending.waiting m,
      after.contains m = false ∧ (m ∈ c.deps.ids ∨ c.id.prev = some m)) ∧
    after.importChanges [] = (after, ⟨[], (log.importChanges cs).2.1.pending⟩, none) := by
  intro after
  have hsettled : after.Settled := importChanges_settled
  have hfiled : after.Filed := filed_empty.steps (h.tail (.importChanges log cs hcs))
  refine ⟨fun m c hc => ⟨?_, ?_⟩, hsettled.importChanges_nil⟩
  · exact hsettled m (PendingChanges.mem_missing_of_waiting hc)
  · exact mem_parents.mp (hfiled m c hc)

/-- A text that depends on an operation of another peer. -/
def reply : Change := ⟨⟨⟨2⟩, 0⟩, 5, ⟨[⟨⟨1⟩, 0⟩]⟩, 0, [⟨0, .root "t" .text, .insertText 0 "ab"⟩]⟩

/-- A change that depends on the text and on something else. -/
def followUp : Change :=
  ⟨⟨⟨3⟩, 0⟩, 9, ⟨[⟨⟨1⟩, 4⟩, ⟨⟨2⟩, 1⟩]⟩, 0, [⟨0, .root "m" .map, .setKey "k" none⟩]⟩

/-- The text waits for an operation that was then appended here. -/
def unswept : ChangeLog :=
  (empty.importChanges [reply]).1.appended ⟨1⟩ [(.root "m" .map, .setKey "k" none)] .empty 0

theorem importChanges_reaches_fixpoint_unswept :
    let after := (unswept.importChanges [followUp]).1
    unswept.pending.waiting ⟨⟨1⟩, 0⟩ = [reply] ∧ unswept.contains ⟨⟨1⟩, 0⟩ = true ∧
      after.changesOf ⟨2⟩ = [reply] ∧ after.pending.waiting ⟨⟨1⟩, 4⟩ = [followUp] ∧
      after.contains ⟨⟨1⟩, 4⟩ = false ∧
      (⟨⟨1⟩, 4⟩ ∈ followUp.deps.ids ∨ followUp.id.prev = some ⟨⟨1⟩, 4⟩) ∧
      after.importChanges [] =
        (after, ⟨[], (unswept.importChanges [followUp]).2.1.pending⟩, none) := by
  have hunswept : Steps empty unswept :=
    (Relation.ReflTransGen.single (Step.importChanges empty [reply] (by decide))).tail (.append ..)
  have hfollowUp : ∀ c ∈ [followUp], c.WellFormed := by decide
  obtain ⟨hwaiting, hnothing⟩ := importChanges_reaches_fixpoint hunswept hfollowUp
  have hbefore : unswept.pending.waiting ⟨⟨1⟩, 0⟩ = [reply] ∧
      unswept.contains ⟨⟨1⟩, 0⟩ = true := by cbv
  have hafter : (unswept.importChanges [followUp]).1.changesOf ⟨2⟩ = [reply] ∧
      (unswept.importChanges [followUp]).1.pending.waiting ⟨⟨1⟩, 4⟩ = [followUp] := by cbv
  obtain ⟨hmissing, hparent⟩ :=
    hwaiting ⟨⟨1⟩, 4⟩ followUp (by rw [hafter.2]; exact .head _)
  exact ⟨hbefore.1, hbefore.2, hafter.1, hafter.2, hmissing, hparent, hnothing⟩

end ChangeLog

end CausalReplica
