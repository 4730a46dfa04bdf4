import CausalReplica.Proofs.Log.Course
import Mathlib.Data.List.Chain
import Mathlib.Data.List.Nodup
import Mathlib.Data.Nat.Choose.Basic

/-!
# Imports come to an end

A change can go round between queue and buffer many times, as its dependencies arrive one by one.
But an offer takes it from the queue, and only an offer that puts a change into the log releases
buffered ones. So the changes in queue and buffer together become fewer with every change that
enters the log, and between two of these the queue becomes shorter. Nothing is assumed of the log or
of the changes.
-/

namespace CausalReplica

namespace ChangeLog

variable {log : ChangeLog} {cs : List Change} {s s' : ChangeLog × List Change}

/-- The changes that are to be offered or wait. -/
def load (s : ChangeLog × List Change) : Nat := s.2.length + s.1.pending.size

/-- The next offer puts a change into the log. -/
def Applies (s : ChangeLog × List Change) : Prop :=
  ∃ c rest next span, s.2 = c :: rest ∧ s.1.offer c = .added next span

theorem load_opening : load (log.opening cs) = cs.length + log.pending.size := by
  have hrelease := log.pending.release_size log.vv.includes
  have hsorted : (cs.mergeSort Change.causalKeyLe).length = cs.length := List.length_mergeSort cs
  simp only [load, opening, release, List.length_append]
  omega

namespace PassStep

theorem load_lt (h : PassStep s s') (ha : Applies s) : load s' < load s := by
  obtain ⟨d, _, _, _, hqueue, hadded⟩ := ha
  cases h with
  | @added log next c rest span ho =>
    have hrelease := next.pending.release_size
      fun id => id.peer = span.peer && id.counter < span.stop
    rw [offer_pending ho] at hrelease
    simp only [load, freedBy, release, List.length_append, List.length_cons, offer_pending ho]
    omega
  | known ho | blocked ho | refused ho =>
    cases hqueue
    rw [ho] at hadded
    cases hadded

theorem queue_eq_tail (h : PassStep s s') (ha : ¬ Applies s) : s'.2 = s.2.tail := by
  cases h with
  | added ho => exact absurd ⟨_, _, _, _, rfl, ho⟩ ha
  | known ho | blocked ho | refused ho => rfl

theorem queue_ne_nil (h : PassStep s s') : s.2 ≠ [] := by
  cases h <;> exact List.cons_ne_nil _ _

theorem load_le (h : PassStep s s') : load s' ≤ load s := by
  by_cases ha : Applies s
  · exact Nat.le_of_lt (h.load_lt ha)
  · cases h with
    | added ho => exact absurd ⟨_, _, _, _, rfl, ho⟩ ha
    | @blocked log c d rest m ho =>
      have hadd := log.pending.size_add_le m d
      simp only [load, List.length_cons]
      omega
    | known ho | refused ho =>
      simp only [load, List.length_cons]
      omega

end PassStep

/-- At most so many offers are still made. -/
def offersLeft (s : ChangeLog × List Change) : Nat := s.2.length + (load s).choose 2

theorem PassStep.offersLeft_lt (h : PassStep s s') : offersLeft s' < offersLeft s := by
  have hqueue := List.length_pos_iff.mpr h.queue_ne_nil
  by_cases ha : Applies s
  · -- All that is left may be queued now, but it is less.
    have hchoose : (load s' + 1).choose 2 ≤ (load s).choose 2 :=
      Nat.choose_le_choose 2 (h.load_lt ha)
    have hsplit : (load s' + 1).choose 2 = load s' + (load s').choose 2 := by
      rw [Nat.choose_succ_succ, Nat.choose_one_right]
    have hload : s'.2.length ≤ load s' := Nat.le_add_right _ _
    unfold offersLeft
    omega
  · have hchoose : (load s').choose 2 ≤ (load s).choose 2 := Nat.choose_le_choose 2 h.load_le
    unfold offersLeft
    rw [h.queue_eq_tail ha, List.length_tail]
    omega

theorem length_le_offersLeft {states : List (ChangeLog × List Change)}
    (h : (s :: states).IsChain PassStep) : states.length ≤ offersLeft s := by
  induction states generalizing s with
  | nil => exact Nat.zero_le _
  | cons s' states ih =>
    obtain ⟨hstep, hrest⟩ := List.isChain_cons_cons.mp h
    exact Nat.lt_of_le_of_lt (ih hrest) hstep.offersLeft_lt

end ChangeLog

/-- The arrival that enters the log. -/
def Verdict.entered? : Verdict → Option Arrival
  | .entered a _ => some a
  | _ => none

/-- The arrivals that entered the log, one for each time that one did. -/
def Course.entered (course : Course) : List Arrival := course.verdicts.filterMap Verdict.entered?

theorem Course.entered_sublist_settled {course : Course} :
    course.entered.Sublist course.settled := by
  unfold entered settled
  induction course.verdicts with
  | nil => exact .slnil
  | cons v verdicts ih =>
    cases v with
    | entered a stored => exact ih.cons_cons a
    | known a => exact ih.cons a
    | filed a m => exact ih
    | displaced a w => exact ih.cons a
    | refused a e => exact ih.cons a

namespace Desk

variable {desk : Desk} {batch : List Arrival} {log : ChangeLog} {cs : List Change}

/-- The desk and the batch are the log and the changes handed in, with the changes of both marked in
such a way that no two, equal or not, are taken for one another. -/
structure Marks (desk : Desk) (batch : List Arrival) (log : ChangeLog) (cs : List Change) :
    Prop where
  toLog_eq : desk.toLog = log
  changes_eq : batch.map Arrival.change = cs
  nodup : (batch ++ desk.held).Nodup

theorem exists_toLog_eq (log : ChangeLog) {lists : List (List Arrival)}
    (h : lists.map (·.map Arrival.change) = log.pending.byMissing.values) :
    ∃ desk : Desk, desk.toLog = log ∧ desk.held = lists.flatten := by
  have hlength : log.pending.byMissing.keys.length = lists.length := by
    have hcount := congrArg List.length h
    simp only [OrdMap.values, OrdMap.keys, List.length_map] at hcount ⊢
    exact hcount.symm
  have hkeys : (log.pending.byMissing.keys.zip lists).map (·.1) = log.pending.byMissing.keys :=
    List.map_fst_zip (Nat.le_of_eq hlength)
  have hasc : (log.pending.byMissing.keys.zip lists).Pairwise
      fun a b => compare a.1 b.1 = .lt := by
    rw [← List.pairwise_map (f := Prod.fst) (R := fun a b => compare a b = .lt), hkeys]
    exact List.pairwise_map.mpr log.pending.byMissing.ascending
  refine ⟨⟨log, ⟨_, hasc⟩⟩, ?_, ?_⟩
  · have hsame : (OrdMap.mk _ hasc).mapValues (·.map Arrival.change) = log.pending.byMissing := by
      refine (OrdMap.mk.injEq ..).mpr ?_
      calc (log.pending.byMissing.keys.zip lists).map (Prod.map id (·.map Arrival.change))
        _ = log.pending.byMissing.keys.zip log.pending.byMissing.values := by
          rw [← List.zip_map_right, h]
        _ = log.pending.byMissing.entries := (List.zip_of_prod rfl rfl).symm
    unfold toLog
    rw [hsame]
  · unfold held OrdMap.values
    rw [List.map_snd_zip (Nat.le_of_eq hlength.symm)]

theorem exists_marks (log : ChangeLog) (cs : List Change) :
    ∃ desk batch, Marks desk batch log cs := by
  -- The changes handed in are numbered first, and then, list by list, those in the buffer.
  let lists := Arrival.enumerate 0 (cs :: log.pending.byMissing.values)
  have hchanges : lists.map (·.map Arrival.change) = cs :: log.pending.byMissing.values :=
    Arrival.map_change_enumerate
  have hnodup : lists.flatten.Nodup := by
    refine List.Nodup.of_map Arrival.number ?_
    rw [Arrival.map_number_enumerate]
    exact List.Nodup.map (fun _ _ => Option.some.inj) List.nodup_range'
  obtain ⟨hbatch, hlists⟩ := List.cons.inj hchanges
  obtain ⟨desk, htoLog, hheld⟩ := exists_toLog_eq log hlists
  exact ⟨desk, _, htoLog, hbatch, hheld ▸ hnodup⟩

theorem Marks.entered (h : Marks desk batch log cs) :
    (desk.importChanges batch).pass.result = log.importChanges cs ∧
      (desk.importChanges batch).entered.Nodup ∧
      ∀ a ∈ (desk.importChanges batch).entered, a ∈ batch ∨ a ∈ desk.held := by
  obtain ⟨rfl, rfl, hnodup⟩ := h
  have hperm := @importChanges_perm desk batch
  have hsettled := (List.nodup_append.mp (hperm.nodup_iff.mpr hnodup)).1
  refine ⟨importChanges_toLog.symm, hsettled.sublist Course.entered_sublist_settled, fun a ha => ?_⟩
  have hmem := Course.entered_sublist_settled.subset ha
  exact List.mem_append.mp (hperm.subset (List.mem_append_left _ hmem))

end Desk

namespace ChangeLog

open Desk (Marks)

/-- Whatever the log and the changes are, an import makes offers until its queue is empty: for `n`
changes that are handed in or buffered at most `n * (n + 1) / 2` of them. The changes in queue and
buffer never become more, they become fewer when one enters the log, and otherwise the queue just
loses its head. If the changes are marked so that all are told apart, none enters the log twice. -/
theorem import_terminates (log : ChangeLog) (cs : List Change) :
    (∀ s s', PassStep s s' →
      load s' ≤ load s ∧ (Applies s → load s' < load s) ∧ (¬ Applies s → s'.2 = s.2.tail)) ∧
    (∀ s, s.2 ≠ [] → ∃! s', PassStep s s') ∧
    (load (log.opening cs) = cs.length + log.pending.size ∧
      Passes (log.opening cs) ((log.importChanges cs).1, []) ∧
      ∀ states, (log.opening cs :: states).IsChain PassStep →
        states.length ≤ (cs.length + log.pending.size + 1).choose 2) ∧
    (∃ desk batch, Marks desk batch log cs) ∧
    ∀ desk batch, Marks desk batch log cs →
      (desk.importChanges batch).pass.result = log.importChanges cs ∧
      (desk.importChanges batch).entered.Nodup ∧
      ∀ a ∈ (desk.importChanges batch).entered, a ∈ batch ∨ a ∈ desk.held := by
  refine ⟨fun s s' h => ⟨h.load_le, h.load_lt, h.queue_eq_tail⟩, fun s => exists_unique_passStep,
    ⟨load_opening, passes_settle .., fun states h => ?_⟩, Desk.exists_marks log cs,
    fun desk batch h => h.entered⟩
  calc states.length ≤ offersLeft (log.opening cs) := length_le_offersLeft h
    _ ≤ load (log.opening cs) + (load (log.opening cs)).choose 2 :=
      Nat.add_le_add_right (Nat.le_add_right _ _) _
    _ = (cs.length + log.pending.size + 1).choose 2 := by
      rw [load_opening, Nat.choose_succ_succ, Nat.choose_one_right]

/-- Two changes that depend on each other and one that depends on itself are left waiting. -/
example :
    let ops : List Op := [⟨0, .root "m" .map, .setKey "k" none⟩]
    (empty.importChanges [⟨⟨⟨1⟩, 0⟩, 1, .ofId ⟨⟨2⟩, 0⟩, 0, ops⟩,
      ⟨⟨⟨2⟩, 0⟩, 1, .ofId ⟨⟨1⟩, 0⟩, 0, ops⟩, ⟨⟨⟨3⟩, 0⟩, 1, .ofId ⟨⟨3⟩, 0⟩, 0, ops⟩]).2 =
      (⟨[], [⟨⟨1⟩, 0, 1⟩, ⟨⟨2⟩, 0, 1⟩, ⟨⟨3⟩, 0, 1⟩]⟩, none) := by
  cbv

end ChangeLog

end CausalReplica
