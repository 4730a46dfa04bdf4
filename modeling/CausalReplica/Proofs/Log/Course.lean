import CausalReplica.Proofs.Log.Delivery

/-!
# The course of an import

An import, told with the changes kept apart by where they came from: each arrival at the desk enters
the log, is found known, is filed under what it misses, is displaced by a change with its extent
that waits there, or is refused. Without the numbers of the arrivals this is what the log does, and
every arrival is settled once or still waits.
-/

namespace CausalReplica

/-- A change with its place among the changes that were handed in. What waited before has none. -/
structure Arrival where
  number : Option Nat
  change : Change
  deriving DecidableEq

/-- What becomes of an arrival when it is offered. -/
inductive Verdict where
  | entered (a : Arrival) (stored : Change)
  | known (a : Arrival)
  | filed (a : Arrival) (missing : OpId)
  /-- A waiting change with the same id and end keeps the place. -/
  | displaced (a holder : Arrival)
  | refused (a : Arrival) (error : Error)

namespace Verdict

/-- The arrival that is done with. A filed one will be offered again. -/
def settled? : Verdict → Option Arrival
  | .entered a _ | .known a | .displaced a _ | .refused a _ => some a
  | .filed .. => none

def applied? : Verdict → Option IdSpan
  | .entered _ stored => some stored.span
  | _ => none

def error? : Verdict → Option Error
  | .refused _ error => some error
  | _ => none

end Verdict

/-- A log together with the arrivals that wait. The log's own buffer is not looked at. -/
structure Desk where
  log : ChangeLog
  waiting : OrdMap OpId (List Arrival)

/-- What happened at a desk, and the desk after it. -/
structure Course where
  verdicts : List Verdict
  desk : Desk

/-- The course that starts with the verdict. -/
def Course.after (verdict : Verdict) (course : Course) : Course :=
  { course with verdicts := verdict :: course.verdicts }

namespace Desk

/-- The log as it is without the numbers. -/
def toLog (desk : Desk) : ChangeLog :=
  { desk.log with pending := ⟨desk.waiting.mapValues (·.map Arrival.change)⟩ }

def ofLog (log : ChangeLog) : Desk :=
  ⟨log, log.pending.byMissing.mapValues (·.map (Arrival.mk none))⟩

def waitingFor (desk : Desk) (m : OpId) : List Arrival := desk.waiting.findD m []

/-- Every arrival that waits. -/
def held (desk : Desk) : List Arrival := desk.waiting.values.flatten

def release (desk : Desk) (p : OpId → Bool) : List Arrival × Desk :=
  ((desk.waiting.filterKeys p).values.flatten,
    { desk with waiting := desk.waiting.filterKeys fun m => !p m })

/-- The change that waits for `m` in the place that `c` would take. -/
def holder? (desk : Desk) (m : OpId) (c : Change) : Option Arrival :=
  (desk.waitingFor m).find? fun w => w.change.id = c.id && w.change.stop = c.stop

def judge (desk : Desk) (a : Arrival) : Verdict :=
  match desk.log.offer a.change with
  | .added _ _ => .entered a (a.change.sliceFrom (desk.log.nextCounter a.change.peer))
  | .known => .known a
  | .blocked missing _ =>
    match desk.holder? missing a.change with
    | some holder => .displaced a holder
    | none => .filed a missing
  | .refused error => .refused a error

/-- The arrivals that a verdict releases, and the desk after it. -/
def after (desk : Desk) : Verdict → List Arrival × Desk
  | .entered _ stored =>
    { desk with log := desk.log.insert stored }.release fun m =>
      m.peer = stored.peer && m.counter < stored.stop
  | .filed a missing =>
    ([], { desk with waiting := desk.waiting.insert missing (desk.waitingFor missing ++ [a]) })
  | _ => ([], desk)

variable {desk : Desk} {a : Arrival} {p : OpId → Bool}

theorem release_perm : ((desk.release p).1 ++ (desk.release p).2.held).Perm desk.held :=
  OrdMap.flatten_values_filterKeys_perm

/-- A verdict settles its arrival or leaves it to wait, and loses and doubles none. -/
theorem after_perm : ((desk.judge a).settled?.toList ++
    ((desk.after (desk.judge a)).1 ++ (desk.after (desk.judge a)).2.held)).Perm
      (a :: desk.held) := by
  unfold judge
  split
  · exact release_perm.cons a
  · exact List.Perm.refl _
  · split
    · exact List.Perm.refl _
    · exact OrdMap.flatten_values_insert_perm
  · exact List.Perm.refl _

/-- Offers the queued arrivals one by one, and after them those they release. -/
def run (desk : Desk) (queue : List Arrival) : Course :=
  match queue with
  | [] => ⟨[], desk⟩
  | a :: rest =>
    ((desk.after (desk.judge a)).2.run (rest ++ (desk.after (desk.judge a)).1)).after (desk.judge a)
termination_by (queue.length + desk.held.length, queue.length)
decreasing_by
  have hcount := (@after_perm desk a).length_eq
  simp only [List.length_append, List.length_cons] at hcount ⊢
  cases hs : (desk.judge a).settled? with
  | some _ =>
    rw [hs, Option.toList_some, List.length_singleton] at hcount
    exact Prod.Lex.left _ _ (by omega)
  | none =>
    -- Only a filed arrival is not settled, and filing releases nothing.
    have hfreed : (desk.after (desk.judge a)).1 = [] := by
      cases hj : desk.judge a with
      | filed => rfl
      | _ =>
        rw [hj] at hs
        exact nomatch hs
    rw [hs, hfreed, Option.toList_none, List.length_nil] at hcount
    rw [hfreed, List.length_nil]
    have heq : rest.length + 0 + (desk.after (desk.judge a)).2.held.length =
        rest.length + 1 + desk.held.length := by omega
    exact heq ▸ Prod.Lex.right _ (Nat.lt_succ_self _)

theorem run_nil : desk.run [] = ⟨[], desk⟩ := by rw [run]

theorem run_cons {rest : List Arrival} {verdict : Verdict} (h : desk.judge a = verdict) :
    desk.run (a :: rest) =
      ((desk.after verdict).2.run (rest ++ (desk.after verdict).1)).after verdict := by
  rw [run, h]

def importChanges (desk : Desk) (batch : List Arrival) : Course :=
  let (released, desk) := desk.release desk.log.vv.includes
  desk.run (batch.mergeSort (fun a b => a.change.causalKeyLe b.change) ++ released)

def deliver (desk : Desk) : List (List Arrival) → Course
  | [] => ⟨[], desk⟩
  | batch :: batches =>
    let first := desk.importChanges batch
    let rest := first.desk.deliver batches
    ⟨first.verdicts ++ rest.verdicts, rest.desk⟩

end Desk

namespace Arrival

/-- Numbers the changes of all batches from `k` on. -/
def enumerate (k : Nat) : List (List Change) → List (List Arrival)
  | [] => []
  | batch :: batches =>
    ((batch.zipIdx k).map fun (c, i) => ⟨some i, c⟩) :: enumerate (k + batch.length) batches

theorem map_change_enumerate {k : Nat} {batches : List (List Change)} :
    (enumerate k batches).map (·.map Arrival.change) = batches := by
  induction batches generalizing k with
  | nil => rfl
  | cons batch batches ih =>
    rw [enumerate, List.map_cons, ih, List.map_map]
    exact congrArg (· :: batches) (List.zipIdx_map_fst k batch)

theorem map_number_enumerate {k : Nat} {batches : List (List Change)} :
    (enumerate k batches).flatten.map Arrival.number =
      (List.range' k batches.flatten.length).map some := by
  induction batches generalizing k with
  | nil => rfl
  | cons batch batches ih =>
    have hbatch : ((batch.zipIdx k).map fun (c, i) => Arrival.mk (some i) c).map Arrival.number =
        (List.range' k batch.length).map some := by
      rw [List.map_map, ← List.zipIdx_map_snd, List.map_map]
      rfl
    rw [enumerate, List.flatten_cons, List.map_append, ih, hbatch, List.flatten_cons,
      List.length_append, ← List.range'_append_1, List.map_append]

theorem number_enumerate {k : Nat} {batches : List (List Change)} :
    (enumerate k batches).flatten.filterMap Arrival.number =
      List.range' k batches.flatten.length := by
  have h := congrArg (List.filterMap id) (@map_number_enumerate k batches)
  rwa [List.filterMap_map, List.filterMap_map, Function.id_comp, Function.id_comp,
    List.filterMap_some] at h

end Arrival

/-- What becomes of the changes that are delivered to the log, batch by batch. -/
def ChangeLog.course (log : ChangeLog) (batches : List (List Change)) : Course :=
  (Desk.ofLog log).deliver (Arrival.enumerate 0 batches)

namespace ChangeLog

variable {log : ChangeLog} {c : Change}

/-- The offer as it is for a log with another buffer. -/
def Offer.withPending (b : PendingChanges) : Offer → Offer
  | .added next span => .added { next with pending := b } span
  | other => other

theorem offerNext_withPending (b : PendingChanges) :
    ({ log with pending := b } : ChangeLog).offerNext c = (log.offerNext c).withPending b := by
  have hcontains : ({ log with pending := b } : ChangeLog).contains = log.contains := rfl
  have hlamport : ({ log with pending := b } : ChangeLog).lamportOf? = log.lamportOf? := rfl
  unfold offerNext
  rw [hlamport]
  simp only [hcontains]
  cases c.checkedLamportEnd with
  | none => rfl
  | some _ =>
    cases c.deps.ids.find? fun id => !log.contains id with
    | some _ => rfl
    | none =>
      dsimp only
      split <;> rfl

theorem offer_withPending (b : PendingChanges) :
    ({ log with pending := b } : ChangeLog).offer c = (log.offer c).withPending b := by
  unfold offer
  dsimp only
  rw [offerNext_withPending]
  change (if c.stop ≤ log.nextCounter c.peer then _ else _) = _
  split
  · rfl
  · change (if log.nextCounter c.peer < c.start then _ else _) = _
    split <;> rfl

end ChangeLog

section Faithful

variable {desk : Desk} {a : Arrival} {queue batch : List Arrival} {batches : List (List Arrival)}
  {log : ChangeLog}

/-- What the verdict adds to a pass. -/
def Verdict.record (verdict : Verdict) (pass : ChangeLog.Pass) : ChangeLog.Pass :=
  match verdict with
  | .entered _ stored => pass.apply stored.span
  | .refused _ error => pass.refuse error
  | _ => pass

/-- What the log makes of a course. -/
def Course.pass (course : Course) : ChangeLog.Pass where
  log := course.desk.toLog
  applied := course.verdicts.filterMap Verdict.applied?
  firstError := (course.verdicts.filterMap Verdict.error?).head?

theorem Course.pass_after {verdict : Verdict} {course : Course} :
    (course.after verdict).pass = verdict.record course.pass := by
  cases verdict <;> rfl

namespace Desk

theorem toLog_release {p : OpId → Bool} :
    desk.toLog.release p = ((desk.release p).1.map Arrival.change, (desk.release p).2.toLog) := by
  unfold ChangeLog.release PendingChanges.release toLog release
  dsimp only
  rw [← OrdMap.mapValues_filterKeys, ← OrdMap.mapValues_filterKeys, OrdMap.values_mapValues,
    List.map_flatten]

theorem waiting_toLog {m : OpId} :
    desk.toLog.pending.waiting m = (desk.waitingFor m).map Arrival.change :=
  OrdMap.findD_mapValues (v := [])

theorem add_toLog_of_holder {m : OpId} {w : Arrival} (h : desk.holder? m a.change = some w) :
    desk.toLog.pending.add m a.change = desk.toLog.pending := by
  apply PendingChanges.add_of_known
  rw [waiting_toLog, List.any_map]
  exact List.any_eq_true.mpr ⟨w, List.mem_of_find?_eq_some h, List.find?_some h⟩

theorem add_toLog_of_new {m : OpId} (h : desk.holder? m a.change = none) :
    { desk.toLog with pending := desk.toLog.pending.add m a.change } =
      (desk.after (.filed a m)).2.toLog := by
  have hnone : ¬ ((desk.toLog.pending.waiting m).any
      fun w => w.id = a.change.id && w.stop = a.change.stop) = true := by
    rw [waiting_toLog, List.any_map, List.any_eq_true]
    intro ⟨w, hw, heq⟩
    exact List.find?_eq_none.mp h w hw heq
  have hadd : desk.toLog.pending.add m a.change =
      ⟨desk.toLog.pending.byMissing.insert m (desk.toLog.pending.waiting m ++ [a.change])⟩ :=
    if_neg hnone
  rw [hadd, waiting_toLog]
  unfold toLog after
  dsimp only
  rw [OrdMap.mapValues_insert, List.map_append]
  rfl

/-- What the log says to a change, and what it does then, when this verdict is given on it. -/
inductive Reports (desk : Desk) (a : Arrival) : Verdict → Prop
  | entered {next : ChangeLog} {stored : Change}
      (ho : desk.toLog.offer a.change = .added next stored.span)
      (hnext : next.freedBy stored.span = ((desk.after (.entered a stored)).1.map Arrival.change,
        (desk.after (.entered a stored)).2.toLog)) : Reports desk a (.entered a stored)
  | known (ho : desk.toLog.offer a.change = .known) : Reports desk a (.known a)
  | filed {m : OpId} (ho : desk.toLog.offer a.change = .blocked m a.change)
      (hnext : { desk.toLog with pending := desk.toLog.pending.add m a.change } =
        (desk.after (.filed a m)).2.toLog) : Reports desk a (.filed a m)
  | displaced {m : OpId} {w : Arrival} (ho : desk.toLog.offer a.change = .blocked m a.change)
      (hnext : { desk.toLog with pending := desk.toLog.pending.add m a.change } = desk.toLog) :
      Reports desk a (.displaced a w)
  | refused {e : Error} (ho : desk.toLog.offer a.change = .refused e) :
      Reports desk a (.refused a e)

theorem reports_judge : desk.Reports a (desk.judge a) := by
  have hoffer : desk.toLog.offer a.change = (desk.log.offer a.change).withPending _ :=
    ChangeLog.offer_withPending _
  cases ho : desk.log.offer a.change with
  | added next span =>
    obtain ⟨rfl, rfl⟩ := ChangeLog.offer_added_eq ho
    rw [judge, ho]
    rw [ho] at hoffer
    generalize a.change.sliceFrom (desk.log.nextCounter a.change.peer) = stored at hoffer
    exact .entered hoffer (@toLog_release { desk with log := desk.log.insert stored } _)
  | known =>
    rw [judge, ho]
    rw [ho] at hoffer
    exact .known hoffer
  | blocked m c =>
    obtain rfl := ChangeLog.offer_blocked_eq ho
    rw [judge, ho]
    rw [ho] at hoffer
    dsimp only
    split
    · next hw => exact .displaced hoffer (congrArg (ChangeLog.mk _ _ _ _) (add_toLog_of_holder hw))
    · next hw => exact .filed hoffer (add_toLog_of_new hw)
  | refused e =>
    rw [judge, ho]
    rw [ho] at hoffer
    exact .refused hoffer

variable {verdict : Verdict} {rest : List Arrival}

theorem Reports.settle (h : desk.Reports a verdict) :
    desk.toLog.settle ((a :: rest).map Arrival.change) =
      verdict.record ((desk.after verdict).2.toLog.settle
        ((rest ++ (desk.after verdict).1).map Arrival.change)) := by
  have hsame : rest.map Arrival.change = rest.map Arrival.change ++ [].map Arrival.change :=
    (List.append_nil _).symm
  rw [List.map_cons, List.map_append]
  cases h with
  | entered ho hnext =>
    rw [ChangeLog.settle_added ho, hnext]
    rfl
  | known ho => exact (ChangeLog.settle_known ho).trans (congrArg _ hsame)
  | filed ho hnext =>
    rw [ChangeLog.settle_blocked ho, hnext]
    exact congrArg _ hsame
  | displaced ho hnext =>
    rw [ChangeLog.settle_blocked ho, hnext]
    exact congrArg _ hsame
  | refused ho =>
    rw [ChangeLog.settle_refused ho]
    exact congrArg (ChangeLog.Pass.refuse · _) (congrArg _ hsame)

/-- The log does to the change at the head of its queue what the desk says of the arrival. -/
theorem Reports.passStep (h : desk.Reports a verdict) :
    ChangeLog.PassStep (desk.toLog, (a :: rest).map Arrival.change)
      ((desk.after verdict).2.toLog, (rest ++ (desk.after verdict).1).map Arrival.change) := by
  have hsame : rest.map Arrival.change = rest.map Arrival.change ++ [].map Arrival.change :=
    (List.append_nil _).symm
  rw [List.map_cons, List.map_append]
  cases h with
  | @entered next stored ho hnext =>
    have hstep : ChangeLog.PassStep (desk.toLog, a.change :: rest.map Arrival.change)
        ((next.freedBy stored.span).2, rest.map Arrival.change ++ (next.freedBy stored.span).1) :=
      .added ho
    rwa [hnext] at hstep
  | known ho => exact hsame ▸ .known ho
  | filed ho hnext => exact hsame ▸ hnext ▸ .blocked ho
  | @displaced m w ho hnext =>
    have hstep : ChangeLog.PassStep (desk.toLog, a.change :: rest.map Arrival.change)
        ({ desk.toLog with pending := desk.toLog.pending.add m a.change },
          rest.map Arrival.change) := .blocked ho
    rw [hnext] at hstep
    exact hsame ▸ hstep
  | refused ho => exact hsame ▸ .refused ho

/-- Without the numbers a course is a pass of the log over the queue. -/
theorem settle_toLog : desk.toLog.settle (queue.map Arrival.change) = (desk.run queue).pass := by
  induction desk, queue using Desk.run.induct with
  | case1 desk =>
    rw [run_nil]
    exact ChangeLog.settle_nil
  | case2 desk a rest ih =>
    rw [reports_judge.settle, ih, run_cons rfl, Course.pass_after]

theorem opening_toLog : desk.toLog.opening (batch.map Arrival.change) =
    ((desk.release desk.log.vv.includes).2.toLog,
      ((batch.mergeSort fun a b => a.change.causalKeyLe b.change) ++
        (desk.release desk.log.vv.includes).1).map Arrival.change) := by
  have hsorted : (batch.mergeSort fun a b => a.change.causalKeyLe b.change).map Arrival.change =
      (batch.map Arrival.change).mergeSort Change.causalKeyLe :=
    List.map_mergeSort fun _ _ _ _ => rfl
  have hfreed := @toLog_release desk desk.log.vv.includes
  rw [List.map_append, hsorted]
  exact congrArg (fun freed : List Change × ChangeLog =>
    (freed.2, (batch.map Arrival.change).mergeSort Change.causalKeyLe ++ freed.1)) hfreed

theorem importChanges_toLog :
    desk.toLog.importChanges (batch.map Arrival.change) =
      (desk.importChanges batch).pass.result := by
  calc
    desk.toLog.importChanges (batch.map Arrival.change)
    _ = ((desk.toLog.opening (batch.map Arrival.change)).1.settle
          (desk.toLog.opening (batch.map Arrival.change)).2).result := rfl
    _ = (desk.importChanges batch).pass.result := by
      rw [opening_toLog, settle_toLog]
      rfl

theorem deliver_toLog :
    desk.toLog.deliver (batches.map (·.map Arrival.change)) =
      (desk.deliver batches).desk.toLog := by
  induction batches generalizing desk with
  | nil => rfl
  | cons batch batches ih =>
    rw [List.map_cons, ChangeLog.deliver, importChanges_toLog]
    exact ih

theorem toLog_ofLog : (ofLog log).toLog = log := by
  have hsame : ∀ cs : List Change,
      ((·.map Arrival.change) ∘ (·.map (Arrival.mk none))) cs = cs := by
    intro cs
    simp [Function.comp_def]
  unfold toLog ofLog
  rw [OrdMap.mapValues_mapValues, OrdMap.mapValues_id hsame]

theorem held_ofLog : (ofLog log).held = log.pending.toList.map (Arrival.mk none) := by
  unfold held ofLog PendingChanges.toList
  rw [OrdMap.values_mapValues, List.map_flatten]

theorem toList_toLog : desk.toLog.pending.toList = desk.held.map Arrival.change := by
  unfold toLog PendingChanges.toList held
  rw [OrdMap.values_mapValues, List.map_flatten]

end Desk

theorem ChangeLog.deliver_eq_course {batches : List (List Change)} :
    log.deliver batches = (log.course batches).desk.toLog := by
  have hdeliver := @Desk.deliver_toLog (Desk.ofLog log) (Arrival.enumerate 0 batches)
  rwa [Desk.toLog_ofLog, Arrival.map_change_enumerate] at hdeliver

end Faithful

section Conservation

variable {desk : Desk} {queue batch : List Arrival} {batches : List (List Arrival)}

/-- The arrivals that were done with. -/
def Course.settled (course : Course) : List Arrival := course.verdicts.filterMap Verdict.settled?

theorem Course.settled_after {verdict : Verdict} {course : Course} :
    (course.after verdict).settled = verdict.settled?.toList ++ course.settled := by
  unfold settled after
  rw [List.filterMap_cons]
  cases verdict.settled? <;> rfl

theorem Desk.run_perm : ((desk.run queue).settled ++ (desk.run queue).desk.held).Perm
    (queue ++ desk.held) := by
  induction desk, queue using Desk.run.induct with
  | case1 desk =>
    rw [run_nil]
    exact List.Perm.refl _
  | case2 desk a rest ih =>
    have hstep := @after_perm desk a
    rw [run_cons rfl, Course.settled_after, List.append_assoc]
    generalize desk.after (desk.judge a) = next at ih hstep ⊢
    calc
      List.Perm _ ((desk.judge a).settled?.toList ++ (rest ++ next.1 ++ next.2.held)) :=
        ih.append_left _
      List.Perm _ (rest ++ ((desk.judge a).settled?.toList ++ (next.1 ++ next.2.held))) := by
        rw [List.append_assoc rest]
        exact List.perm_append_comm_assoc ..
      List.Perm _ (rest ++ a :: desk.held) := hstep.append_left rest
      List.Perm _ (a :: rest ++ desk.held) := List.perm_middle

theorem Desk.importChanges_perm : ((desk.importChanges batch).settled ++
    (desk.importChanges batch).desk.held).Perm (batch ++ desk.held) := by
  refine run_perm.trans ?_
  rw [List.append_assoc]
  exact (List.mergeSort_perm _ _).append release_perm

theorem Desk.deliver_perm :
    ((desk.deliver batches).settled ++ (desk.deliver batches).desk.held).Perm
      (batches.flatten ++ desk.held) := by
  induction batches generalizing desk with
  | nil => exact List.Perm.refl _
  | cons batch batches ih =>
    have hsettled : (desk.deliver (batch :: batches)).settled =
        (desk.importChanges batch).settled ++
          ((desk.importChanges batch).desk.deliver batches).settled :=
      List.filterMap_append
    rw [hsettled, List.flatten_cons, List.append_assoc, List.append_assoc]
    refine (ih.append_left _).trans ?_
    refine (List.perm_append_comm_assoc ..).trans ?_
    exact (importChanges_perm.append_left _).trans (List.perm_append_comm_assoc ..)

end Conservation

end CausalReplica
