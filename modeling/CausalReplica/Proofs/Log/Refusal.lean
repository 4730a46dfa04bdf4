import CausalReplica.Proofs.Log.Course
import Mathlib

/-!
# Refused changes

A change that is refused leaves the log as it is, and so does the time it waited before, unless
another change was displaced by it in the buffer. Leaving out the refused changes therefore does not
show in the log when none of them displaced an accepted one, and it may show when one did.
-/

namespace CausalReplica

namespace Verdict

/-- The arrival that did not get into the log and will not be offered again. -/
def turnedAway? : Verdict → Option Arrival
  | .displaced a _ | .refused a _ => some a
  | _ => none

/-- Adds what was handed in and refused to what was refused later. A copy that was displaced is
refused with the change that took its place. -/
def addRefused (verdict : Verdict) (later : List Arrival) : List Arrival :=
  match verdict with
  | .refused a _ => if a.number.isSome then a :: later else later
  | .displaced a holder =>
    if a.number.isSome ∧ holder ∈ later ∧ holder.change = a.change then a :: later else later
  | _ => later

theorem mem_addRefused {v : Verdict} {a : Arrival} {later : List Arrival}
    (h : a ∈ v.addRefused later) :
    (a.number.isSome = true ∧ v.turnedAway? = some a) ∨ a ∈ later := by
  unfold addRefused at h
  split at h
  · split at h
    · next b _ hnumber =>
      rcases List.mem_cons.mp h with rfl | hlater
      · exact .inl ⟨hnumber, rfl⟩
      · exact .inr hlater
    · exact .inr h
  · split at h
    · next b _ hcopy =>
      rcases List.mem_cons.mp h with rfl | hlater
      · exact .inl ⟨hcopy.1, rfl⟩
      · exact .inr hlater
    · exact .inr h
  · exact .inr h

end Verdict

namespace Course

/-- Whether the change was handed in and refused, at once or after it had waited. -/
def refuses (course : Course) (a : Arrival) : Bool :=
  decide (a ∈ course.verdicts.foldr Verdict.addRefused [])

theorem turnedAway_of_refuses {course : Course} {a : Arrival} (h : course.refuses a = true) :
    a.number.isSome = true ∧ ∃ v ∈ course.verdicts, v.turnedAway? = some a := by
  replace h := of_decide_eq_true h
  generalize course.verdicts = verdicts at h
  induction verdicts with
  | nil => exact absurd h List.not_mem_nil
  | cons v verdicts ih =>
    rcases Verdict.mem_addRefused h with ⟨hnumber, hv⟩ | hlater
    · exact ⟨hnumber, v, List.mem_cons_self, hv⟩
    · obtain ⟨hnumber, w, hw, hwa⟩ := ih hlater
      exact ⟨hnumber, w, List.mem_cons_of_mem v hw, hwa⟩

end Course

/-- The batches without the changes that are refused in the course of their delivery. -/
def ChangeLog.accepted (log : ChangeLog) (batches : List (List Change)) : List (List Change) :=
  (Arrival.enumerate 0 batches).map fun batch =>
    (batch.filter fun a => !(log.course batches).refuses a).map Arrival.change

section SettledOnce

variable {log : ChangeLog} {batches : List (List Change)} {a : Arrival} {v w : Verdict}

theorem ChangeLog.nodup_course :
    ((log.course batches).settled.filterMap Arrival.number).Nodup := by
  have hperm := (@Desk.deliver_perm (Desk.ofLog log) (Arrival.enumerate 0 batches)).filterMap
    Arrival.number
  have hheld : (Desk.ofLog log).held.filterMap Arrival.number = [] := by
    rw [Desk.held_ofLog, List.filterMap_map]
    exact List.filterMap_eq_nil_iff.mpr fun _ _ => rfl
  rw [List.filterMap_append, List.filterMap_append, hheld, Arrival.number_enumerate,
    List.append_nil] at hperm
  exact (List.nodup_append.mp (hperm.nodup_iff.mpr List.nodup_range')).1

theorem ChangeLog.course_settles_once (hv : v ∈ (log.course batches).verdicts)
    (hw : w ∈ (log.course batches).verdicts) (hva : v.settled? = some a)
    (hwa : w.settled? = some a) (ha : a.number.isSome = true) : v = w := by
  obtain ⟨n, hn⟩ := Option.isSome_iff_exists.mp ha
  have hnodup := @nodup_course log batches
  unfold Course.settled at hnodup
  rw [List.filterMap_filterMap, List.Nodup, List.pairwise_filterMap] at hnodup
  apply Classical.byContradiction
  intro hne
  have hsymm : Std.Symm fun v w : Verdict => ∀ b, v.settled?.bind Arrival.number = some b →
      ∀ b', w.settled?.bind Arrival.number = some b' → b ≠ b' :=
    ⟨fun _ _ h b hb b' hb' => (h b' hb' b hb).symm⟩
  have hdiff := hnodup.forall hv hw hne
  exact hdiff n (by rw [hva]; exact hn) n (by rw [hwa]; exact hn) rfl

end SettledOnce

/-- The first element with a property is found without some others too. -/
theorem find?_filter_of_kept {α : Type u} {p q : α → Bool} {xs : List α}
    (h : ∀ w, xs.find? q = some w → p w = true) : (xs.filter p).find? q = xs.find? q := by
  induction xs with
  | nil => rfl
  | cons x xs ih =>
    by_cases hq : q x = true
    · have hp := h x (List.find?_cons_of_pos hq)
      rw [List.filter_cons_of_pos hp, List.find?_cons_of_pos hq, List.find?_cons_of_pos hq]
    · rw [List.find?_cons_of_neg hq] at h ⊢
      by_cases hp : p x = true
      · rw [List.filter_cons_of_pos hp, List.find?_cons_of_neg hq, ih h]
      · rw [List.filter_cons_of_neg hp, ih h]

/-- The arrivals with the property `gone` do not enter the log, and displace only each other. -/
def Verdict.Spares (gone : Arrival → Bool) : Verdict → Prop
  | .entered a _ => gone a = false
  | .displaced a holder => gone holder = true → gone a = true
  | _ => True

/-- The desk with the arrivals left out that have the property `gone`. -/
structure Desk.Without (gone : Arrival → Bool) (full rest : Desk) : Prop where
  log_eq : rest.log = full.log
  waiting_eq : ∀ m, rest.waitingFor m = (full.waitingFor m).filter (!gone ·)

namespace Desk

variable {gone : Arrival → Bool} {full rest : Desk} {a w : Arrival} {m n : OpId} {c : Change}
  {queue batch : List Arrival} {batches : List (List Arrival)}

theorem waitingFor_filed : (full.after (.filed a m)).2.waitingFor n =
    if n = m then full.waitingFor m ++ [a] else full.waitingFor n := by
  unfold after waitingFor OrdMap.findD
  dsimp only
  split
  · next hn => rw [hn, OrdMap.find?_insert_self, Option.getD_some]
  · next hn => rw [OrdMap.find?_insert_of_ne hn]

namespace Without

theorem release (h : Without gone full rest) (p : OpId → Bool) :
    (rest.release p).1 = (full.release p).1.filter (!gone ·) ∧
      Without gone (full.release p).2 (rest.release p).2 := by
  constructor
  · unfold Desk.release
    dsimp only
    rw [List.filter_flatten, ← OrdMap.values_mapValues]
    apply OrdMap.flatten_values_congr
    intro m
    have hfind := OrdMap.findD_mapValues (f := List.filter (!gone ·))
      (m := full.waiting.filterKeys p) (k := m) (v := [])
    rw [List.filter_nil] at hfind
    rw [hfind, OrdMap.findD_filterKeys, OrdMap.findD_filterKeys]
    split
    · exact h.waiting_eq m
    · rfl
  · refine ⟨h.log_eq, fun m => ?_⟩
    unfold waitingFor Desk.release
    dsimp only
    rw [OrdMap.findD_filterKeys, OrdMap.findD_filterKeys]
    split
    · exact h.waiting_eq m
    · rfl

theorem insert (h : Without gone full rest) :
    Without gone { full with log := full.log.insert c } { rest with log := rest.log.insert c } :=
  ⟨congrArg (ChangeLog.insert · c) h.log_eq, h.waiting_eq⟩

theorem file (h : Without gone full rest) (ha : gone a = false) :
    Without gone (full.after (.filed a m)).2 (rest.after (.filed a m)).2 := by
  refine ⟨h.log_eq, fun n => ?_⟩
  rw [waitingFor_filed, waitingFor_filed, h.waiting_eq, h.waiting_eq]
  split
  · rw [List.filter_append, List.filter_cons_of_pos (by rw [ha]; rfl), List.filter_nil]
  · rfl

/-- Who waits in a place is the same, unless it is one of those that are left out. -/
theorem holder?_eq (h : Without gone full rest)
    (hspared : ∀ w, full.holder? m c = some w → gone w = false) :
    rest.holder? m c = full.holder? m c := by
  unfold holder? at hspared ⊢
  rw [h.waiting_eq]
  exact find?_filter_of_kept fun w hw => by rw [hspared w hw]; rfl

theorem judge_eq (h : Without gone full rest) (ha : gone a = false)
    (hspared : (full.judge a).Spares gone) : rest.judge a = full.judge a := by
  unfold judge at hspared ⊢
  rw [h.log_eq]
  cases ho : full.log.offer a.change with
  | blocked m c =>
    rw [ho] at hspared
    dsimp only at hspared ⊢
    have hholder : ∀ w, full.holder? m a.change = some w → gone w = false := fun w hw => by
      rw [hw] at hspared
      exact Bool.eq_false_iff.mpr fun hgone => Bool.eq_false_iff.mp ha (hspared hgone)
    rw [h.holder?_eq hholder]
  | _ => rfl

/-- A verdict on an arrival that stays releases the same, but for what is left out. -/
theorem after (h : Without gone full rest) (ha : gone a = false) :
    (rest.after (full.judge a)).1 = (full.after (full.judge a)).1.filter (!gone ·) ∧
      Without gone (full.after (full.judge a)).2 (rest.after (full.judge a)).2 := by
  unfold judge
  split
  · exact h.insert.release _
  · exact ⟨rfl, h⟩
  · split
    · exact ⟨rfl, h⟩
    · exact ⟨rfl, h.file ha⟩
  · exact ⟨rfl, h⟩

/-- An arrival that is left out and does not enter the log changes only what waits. -/
theorem skip (h : Without gone full rest) (ha : gone a = true)
    (hspared : (full.judge a).Spares gone) :
    (full.after (full.judge a)).1 = [] ∧ Without gone (full.after (full.judge a)).2 rest := by
  unfold judge at hspared ⊢
  split at hspared
  · rw [Verdict.Spares, ha] at hspared
    exact nomatch hspared
  · exact ⟨rfl, h⟩
  · split at hspared
    · exact ⟨rfl, h⟩
    · refine ⟨rfl, h.log_eq, fun n => ?_⟩
      rw [waitingFor_filed, h.waiting_eq]
      split
      · next hn =>
        rw [hn, List.filter_append, List.filter_cons_of_neg (by rw [ha]; exact Bool.false_ne_true),
          List.filter_nil, List.append_nil]
      · rfl
  · exact ⟨rfl, h⟩

theorem run (h : Without gone full rest)
    (hspared : ∀ v ∈ (full.run queue).verdicts, v.Spares gone) :
    Without gone (full.run queue).desk (rest.run (queue.filter (!gone ·))).desk := by
  induction full, queue using Desk.run.induct generalizing rest with
  | case1 full =>
    rw [run_nil, List.filter_nil, run_nil]
    exact h
  | case2 full a queue ih =>
    rw [run_cons rfl] at hspared ⊢
    obtain ⟨hjudge, hcourse⟩ := List.forall_mem_cons.mp hspared
    by_cases ha : gone a = true
    · obtain ⟨hfreed, hnext⟩ := h.skip ha hjudge
      have hend := ih hnext hcourse
      simp only [hfreed, List.append_nil] at hend ⊢
      rw [List.filter_cons_of_neg (by rw [ha]; exact Bool.false_ne_true)]
      exact hend
    · rw [Bool.not_eq_true] at ha
      obtain ⟨hfreed, hnext⟩ := h.after ha
      have hend := ih hnext hcourse
      rw [List.filter_append, ← hfreed] at hend
      rw [List.filter_cons_of_pos (by rw [ha]; rfl), run_cons (h.judge_eq ha hjudge)]
      exact hend

theorem importChanges (h : Without gone full rest)
    (hspared : ∀ v ∈ (full.importChanges batch).verdicts, v.Spares gone) :
    Without gone (full.importChanges batch).desk
      (rest.importChanges (batch.filter (!gone ·))).desk := by
  obtain ⟨hfreed, hnext⟩ := h.release full.log.vv.includes
  have hsort : (batch.mergeSort fun a b => a.change.causalKeyLe b.change).filter (!gone ·) =
      (batch.filter (!gone ·)).mergeSort fun a b => a.change.causalKeyLe b.change :=
    filter_mergeSort (fun a b c => Change.causalKeyLe_trans a.change b.change c.change)
      (fun a b => Change.causalKeyLe_total a.change b.change) _ batch
  have hend := @run gone _ _ ((batch.mergeSort fun a b => a.change.causalKeyLe b.change) ++
    (full.release full.log.vv.includes).1) hnext hspared
  rw [List.filter_append, hsort, ← hfreed] at hend
  unfold Desk.importChanges
  rw [h.log_eq]
  exact hend

theorem deliver (h : Without gone full rest)
    (hspared : ∀ v ∈ (full.deliver batches).verdicts, v.Spares gone) :
    Without gone (full.deliver batches).desk
      (rest.deliver (batches.map (·.filter (!gone ·)))).desk := by
  induction batches generalizing full rest with
  | nil => exact h
  | cons batch batches ih =>
    obtain ⟨hfirst, hrest⟩ := List.forall_mem_append.mp hspared
    exact ih (h.importChanges hfirst) hrest

end Without

/-- Nothing that waited before is among the refused changes that were handed in. -/
theorem without_refuses {course : Course} {log : ChangeLog} :
    Without course.refuses (ofLog log) (ofLog log) := by
  refine ⟨rfl, fun m => (List.filter_eq_self.mpr fun a ha => ?_).symm⟩
  have hwaiting : (ofLog log).waitingFor m = (log.pending.waiting m).map (Arrival.mk none) :=
    OrdMap.findD_mapValues (v := [])
  rw [hwaiting] at ha
  obtain ⟨c, _, rfl⟩ := List.mem_map.mp ha
  rw [Bool.not_eq_true', Bool.eq_false_iff]
  intro hrefuses
  exact Bool.false_ne_true (Course.turnedAway_of_refuses hrefuses).1

end Desk

namespace ChangeLog

variable {log : ChangeLog} {batches : List (List Change)}

theorem course_spares_refuses
    (h : ∀ a w, .displaced a w ∈ (log.course batches).verdicts →
      (log.course batches).refuses w = true → (log.course batches).refuses a = true) :
    ∀ v ∈ (log.course batches).verdicts, v.Spares (log.course batches).refuses := by
  intro v hv
  cases v with
  | entered a stored =>
    rw [Verdict.Spares, Bool.eq_false_iff]
    intro hrefuses
    -- An arrival cannot both enter the log and be turned away.
    obtain ⟨hnumber, w, hw, hwa⟩ := Course.turnedAway_of_refuses hrefuses
    cases w with
    | displaced b holder =>
      cases hwa
      exact nomatch course_settles_once hv hw rfl rfl hnumber
    | refused b e =>
      cases hwa
      exact nomatch course_settles_once hv hw rfl rfl hnumber
    | _ => exact nomatch hwa
  | displaced a w => exact h a w hv
  | _ => exact trivial

/-- Leaving out what is refused does not show in the log, when no accepted change was displaced by
one that is refused. -/
theorem refusal_leaves_no_trace
    (h : ∀ a w, .displaced a w ∈ (log.course batches).verdicts →
      (log.course batches).refuses w = true → (log.course batches).refuses a = true) :
  let final := log.deliver batches
    let other := log.deliver (log.accepted batches)
    other.changes = final.changes ∧ other.vv = final.vv ∧ other.frontiers = final.frontiers ∧
      other.clock = final.clock := by
  intro final other
  have hwithout := Desk.without_refuses.deliver (course_spares_refuses h)
  have hbatches : log.accepted batches = ((Arrival.enumerate 0 batches).map
      (·.filter (!(log.course batches).refuses ·))).map (·.map Arrival.change) := by
    rw [List.map_map]
    rfl
  have hfinal : final = (log.course batches).desk.toLog := deliver_eq_course
  have hother : other = ((Desk.ofLog log).deliver ((Arrival.enumerate 0 batches).map
      (·.filter (!(log.course batches).refuses ·)))).desk.toLog := by
    rw [← Desk.deliver_toLog, Desk.toLog_ofLog, ← hbatches]
  have hlog := hwithout.log_eq
  rw [hfinal, hother]
  unfold Desk.toLog
  rw [hlog]
  exact ⟨rfl, rfl, rfl, rfl⟩

/-- A change that waited and is refused displaced only a copy of itself, and leaves room for the
right one. -/
theorem refusal_leaves_no_trace_woken :
    let first : Change := ⟨⟨⟨1⟩, 0⟩, 0, .empty, 0, [⟨0, .root "t" .text, .insertText 0 "a"⟩]⟩
    let good : Change := ⟨⟨⟨1⟩, 1⟩, 1, .empty, 0, [⟨1, .root "t" .text, .insertText 1 "b"⟩]⟩
    let bad : Change := { good with lamport := 0 }
    let batches := [[bad], [bad], [first], [good]]
    let final := empty.deliver batches
    let other := empty.deliver (empty.accepted batches)
    other.changes = final.changes ∧ other.vv = final.vv ∧ other.frontiers = final.frontiers ∧
      other.clock = final.clock := by
  intro first good bad batches
  have hverdicts : (empty.course batches).verdicts =
      [.filed ⟨some 0, bad⟩ ⟨⟨1⟩, 0⟩, .displaced ⟨some 1, bad⟩ ⟨some 0, bad⟩,
        .entered ⟨some 2, first⟩ first, .refused ⟨some 0, bad⟩ (.invalidLamport ⟨⟨1⟩, 1⟩ 0 1),
        .entered ⟨some 3, good⟩ good] := by
    cbv
  apply refusal_leaves_no_trace
  intro a w hw _
  have hcopy : a = ⟨some 1, bad⟩ := by
    rw [hverdicts] at hw
    simp at hw
    exact hw.1
  rw [hcopy, Course.refuses, hverdicts]
  decide

/-- A change that is refused when it is woken displaced the right one, which is lost with it. -/
theorem displaced_change_lost :
    let first : Change := ⟨⟨⟨1⟩, 0⟩, 0, .empty, 0, [⟨0, .root "t" .text, .insertText 0 "a"⟩]⟩
    let good : Change := ⟨⟨⟨1⟩, 1⟩, 1, .empty, 0, [⟨1, .root "t" .text, .insertText 1 "b"⟩]⟩
    let bad : Change := { good with lamport := 0 }
    (first.WellFormed ∧ good.WellFormed ∧ bad.WellFormed) ∧
      empty.accepted [[bad], [good], [first]] = [[], [good], [first]] ∧
      (empty.deliver [[], [good], [first]]).vv.get ⟨1⟩ = 2 ∧
      (empty.deliver [[bad], [good], [first]]).vv.get ⟨1⟩ = 1 := by
  intro first good bad
  refine ⟨by decide, ?_, ?_, ?_⟩
  · cbv
  · cbv
  · cbv

end ChangeLog

end CausalReplica
