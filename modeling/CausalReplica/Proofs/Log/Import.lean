import CausalReplica.Log.Import
import CausalReplica.Proofs.Log.Pending
import CausalReplica.Proofs.Log.Append
import Mathlib.Logic.ExistsUnique

/-!
# Imports keep a log sound

Whatever well-formed changes are offered, only admitted ones enter the log: each in full or without
the beginning that is known. So an import leaves a sound log sound, and only adds to it.
-/

namespace CausalReplica.ChangeLog

variable {log next : ChangeLog} {c d : Change} {m : OpId} {span : IdSpan} {queue : List Change}

/-- A sound log whose buffer holds well-formed changes. -/
structure Intact (log : ChangeLog) : Prop where
  sound : log.Sound
  waiting_wellFormed : ∀ m, ∀ c ∈ log.pending.waiting m, c.WellFormed

theorem Sound.withPending (h : log.Sound) (b : PendingChanges) :
    Sound { log with pending := b } where
  runs := h.runs
  keys_eq := h.keys_eq
  stored_ne_nil := h.stored_ne_nil
  parent_earlier := h.parent_earlier
  frontiers_ascending := h.frontiers_ascending
  mem_frontiers := h.mem_frontiers
  nextLamport_le_iff := h.nextLamport_le_iff

section Offer

theorem mem_parents {x : OpId} : x ∈ c.parents ↔ x ∈ c.deps.ids ∨ c.id.prev = some x := by
  unfold Change.parents
  rw [List.mem_append, Option.mem_toList]

/-- A change that starts where its peer's history ends is admitted when nothing it depends on is
missing and its Lamport time is late enough. -/
theorem admits_of_expected_le (h : log.Sound) (hc : c.WellFormed)
    (hstart : c.start = log.vv.get c.peer)
    (hdeps : ∀ x ∈ c.deps.ids, log.contains x = true)
    (hlam : LamportClock.assign (c.parents.filterMap log.lamportOf?) ≤ c.lamport) :
    log.Admits c := by
  refine ⟨hc, hstart, fun x hx => ?_⟩
  have hin : log.contains x = true := by
    rcases mem_parents.mp hx with hdep | hprev
    · exact hdeps x hdep
    · obtain ⟨hp, hn⟩ := prev_eq_some_iff.mp hprev
      replace hn : c.start = x.counter + 1 := hn
      replace hp : x.peer = c.peer := hp
      exact contains_iff.mpr (by rw [hp, ← hstart]; omega)
  obtain ⟨d, hd, hdx⟩ := h.runs.exists_change hin
  have hl := h.runs.lamportOf?_of_mem hd hdx
  refine ⟨_, hl, ?_⟩
  exact LamportClock.succ_le_of_assign_le hlam (List.mem_filterMap.mpr ⟨x, hx, hl⟩)
    hc.lamport_lt_top

theorem offerNext_added (ho : log.offerNext c = .added next span) :
    c.lamportEnd ≤ Word.top ∧ (∀ x ∈ c.deps.ids, log.contains x = true) ∧
      LamportClock.assign (c.parents.filterMap log.lamportOf?) ≤ c.lamport ∧
      next = log.insert c ∧ span = c.span := by
  unfold offerNext at ho
  split at ho
  · exact nomatch ho
  · next hend =>
    split at ho
    · exact nomatch ho
    · next hfind =>
      dsimp only at ho
      split at ho
      · exact nomatch ho
      · next hlam =>
        cases ho
        refine ⟨(Word.checked_eq_some_iff.mp hend).1, fun x hx => ?_, Nat.le_of_not_lt hlam,
          rfl, rfl⟩
        simpa using List.find?_eq_none.mp hfind x hx

theorem offerNext_blocked (ho : log.offerNext c = .blocked m d) :
    d = c ∧ (c.deps.ids.find? fun id => !log.contains id) = some m := by
  unfold offerNext at ho
  split at ho
  · exact nomatch ho
  · split at ho
    · next hfind =>
      cases ho
      exact ⟨rfl, hfind⟩
    · dsimp only at ho
      split at ho <;> exact nomatch ho

/-- Only what is left of a change past the known operations can enter. -/
theorem offer_added_cases (ho : log.offer c = .added next span) :
    c.start ≤ log.nextCounter c.peer ∧ log.nextCounter c.peer < c.stop ∧
      log.offerNext (c.sliceFrom (log.nextCounter c.peer)) = .added next span := by
  unfold offer at ho
  dsimp only at ho
  split at ho
  · exact nomatch ho
  · next hnew =>
    split at ho
    · exact nomatch ho
    · next hgap => exact ⟨Nat.le_of_not_lt hgap, Nat.lt_of_not_le hnew, ho⟩

theorem offer_added_eq (ho : log.offer c = .added next span) :
    next = log.insert (c.sliceFrom (log.nextCounter c.peer)) ∧
      span = (c.sliceFrom (log.nextCounter c.peer)).span := by
  obtain ⟨_, _, hnext⟩ := offer_added_cases ho
  exact (offerNext_added hnext).2.2.2

/-- What enters the log is the change without what the log knows of it. -/
theorem offer_added (h : log.Sound) (hc : c.WellFormed) (ho : log.offer c = .added next span) :
    log.Admits (c.sliceFrom (log.nextCounter c.peer)) ∧
      next = log.insert (c.sliceFrom (log.nextCounter c.peer)) ∧
      span = (c.sliceFrom (log.nextCounter c.peer)).span := by
  obtain ⟨hle, hlt, hnext⟩ := offer_added_cases ho
  obtain ⟨_, hdeps, hlam, _⟩ := offerNext_added hnext
  refine ⟨admits_of_expected_le h (hc.sliceFrom hlt) ?_ hdeps hlam, offer_added_eq ho⟩
  rw [Change.start_sliceFrom, Change.peer_sliceFrom]
  exact Nat.max_eq_right hle

/-- What is left of a change that is known in part depends on the last operation known. -/
theorem contains_deps_sliceFrom (hlt : c.start < log.nextCounter c.peer)
    (hm : m ∈ (c.sliceFrom (log.nextCounter c.peer)).deps.ids) : log.contains m = true := by
  rw [Change.deps_sliceFrom hlt, List.mem_singleton] at hm
  rw [hm]
  exact contains_iff.mpr (Nat.sub_lt (by omega) Nat.one_pos)

/-- Only a change that is not known in part is blocked, so it is left as it is. -/
theorem offer_blocked_eq (ho : log.offer c = .blocked m d) : d = c := by
  unfold offer at ho
  dsimp only at ho
  split at ho
  · exact nomatch ho
  · split at ho
    · exact (Offer.blocked.inj ho).2.symm
    · obtain ⟨rfl, hmissing⟩ := offerNext_blocked ho
      by_cases hle : log.nextCounter c.peer ≤ c.start
      · exact Change.sliceFrom_of_le hle
      · have hunknown := List.find?_some hmissing
        rw [contains_deps_sliceFrom (by omega) (List.mem_of_find?_eq_some hmissing)] at hunknown
        exact nomatch hunknown

theorem offer_blocked (hc : c.WellFormed) (ho : log.offer c = .blocked m d) : d.WellFormed :=
  (offer_blocked_eq ho).symm ▸ hc

end Offer

section Settle

variable {rest : List Change} {e : Error}

/-- The changes that the operations of `span` release, and the log without them. -/
def freedBy (log : ChangeLog) (span : IdSpan) : List Change × ChangeLog :=
  log.release fun id => id.peer = span.peer && id.counter < span.stop

theorem settle_nil : log.settle [] = ⟨log, [], none⟩ := by rw [settle]

theorem settle_added (h : log.offer c = .added next span) :
    log.settle (c :: rest) =
      ((next.freedBy span).2.settle (rest ++ (next.freedBy span).1)).apply span := by
  rw [settle]
  split <;> simp_all [freedBy]

theorem settle_known (h : log.offer c = .known) : log.settle (c :: rest) = log.settle rest := by
  rw [settle]
  split <;> simp_all

theorem settle_blocked (h : log.offer c = .blocked m d) :
    log.settle (c :: rest) = { log with pending := log.pending.add m d }.settle rest := by
  rw [settle]
  split <;> simp_all

theorem settle_refused (h : log.offer c = .refused e) :
    log.settle (c :: rest) = (log.settle rest).refuse e := by
  rw [settle]
  split <;> simp_all

end Settle

section Pass

variable {s s' : ChangeLog × List Change} {P : Change → Prop}

/-- One offer of a pass: the log and the changes that are still to be offered, before and after. -/
inductive PassStep : ChangeLog × List Change → ChangeLog × List Change → Prop
  | added {log next : ChangeLog} {c : Change} {rest : List Change} {span : IdSpan}
      (h : log.offer c = .added next span) :
      PassStep (log, c :: rest) ((next.freedBy span).2, rest ++ (next.freedBy span).1)
  | known {log : ChangeLog} {c : Change} {rest : List Change} (h : log.offer c = .known) :
      PassStep (log, c :: rest) (log, rest)
  | blocked {log : ChangeLog} {c d : Change} {rest : List Change} {m : OpId}
      (h : log.offer c = .blocked m d) :
      PassStep (log, c :: rest) ({ log with pending := log.pending.add m d }, rest)
  | refused {log : ChangeLog} {c : Change} {rest : List Change} {e : Error}
      (h : log.offer c = .refused e) : PassStep (log, c :: rest) (log, rest)

/-- The log and its queue decide what the next offer does, and there is one as long as a change is
queued. -/
theorem exists_unique_passStep (h : s.2 ≠ []) : ∃! s', PassStep s s' := by
  obtain ⟨log, queue⟩ := s
  obtain ⟨c, rest, rfl⟩ := List.exists_cons_of_ne_nil h
  cases ho : log.offer c with
  | added next span =>
    refine ⟨_, .added ho, fun s' hs => ?_⟩
    cases hs with
    | added ho' =>
      cases ho.symm.trans ho'
      rfl
    | known ho' | blocked ho' | refused ho' => exact nomatch ho.symm.trans ho'
  | known =>
    refine ⟨_, .known ho, fun s' hs => ?_⟩
    cases hs with
    | known ho' => rfl
    | added ho' | blocked ho' | refused ho' => exact nomatch ho.symm.trans ho'
  | blocked m d =>
    refine ⟨_, .blocked ho, fun s' hs => ?_⟩
    cases hs with
    | blocked ho' =>
      cases ho.symm.trans ho'
      rfl
    | added ho' | known ho' | refused ho' => exact nomatch ho.symm.trans ho'
  | refused e =>
    refine ⟨_, .refused ho, fun s' hs => ?_⟩
    cases hs with
    | refused ho' => rfl
    | added ho' | known ho' | blocked ho' => exact nomatch ho.symm.trans ho'

def Passes : ChangeLog × List Change → ChangeLog × List Change → Prop :=
  Relation.ReflTransGen PassStep

theorem passes_settle (log : ChangeLog) (queue : List Change) :
    Passes (log, queue) ((log.settle queue).log, []) := by
  induction log, queue using settle.induct with
  | case1 log =>
    rw [settle_nil]
    exact .refl
  | case2 log c rest next span ho freed ih =>
    rw [settle_added ho]
    exact .head (.added ho) ih
  | case3 log c rest ho ih =>
    rw [settle_known ho]
    exact .head (.known ho) ih
  | case4 log c rest m d ho ih =>
    rw [settle_blocked ho]
    exact .head (.blocked ho) ih
  | case5 log c rest e ho ih =>
    rw [settle_refused ho]
    exact .head (.refused ho) ih

/-- What an import begins with: the buffered changes that miss nothing are queued behind those that
are handed in. -/
def opening (log : ChangeLog) (cs : List Change) : ChangeLog × List Change :=
  ((log.release log.vv.includes).2,
    cs.mergeSort Change.causalKeyLe ++ (log.release log.vv.includes).1)

/-- Of changes with the property only what the log admits can enter it. -/
def Screens (P : Change → Prop) : Prop :=
  ∀ {log next : ChangeLog} {c : Change} {span : IdSpan}, log.Sound → P c →
    log.offer c = .added next span → log.Admits (c.sliceFrom (log.nextCounter c.peer))

theorem screens_wellFormed : Screens Change.WellFormed :=
  fun h hc ho => (offer_added h hc ho).1

/-- The log is sound, and the changes that wait or are still to be offered have the property. -/
structure Holding (P : Change → Prop) (s : ChangeLog × List Change) : Prop where
  sound : s.1.Sound
  waiting : ∀ m, ∀ c ∈ s.1.pending.waiting m, P c
  queued : ∀ c ∈ s.2, P c

theorem PassStep.holding (hs : PassStep s s') (hP : Screens P) (h : Holding P s) :
    Holding P s' ∧ s.1.PartOf s'.1 := by
  cases hs with
  | @added log next c rest span ho =>
    obtain ⟨hc, hrest⟩ := List.forall_mem_cons.mp h.queued
    have hadmits := hP h.sound hc ho
    obtain ⟨rfl, rfl⟩ := offer_added_eq ho
    obtain ⟨hfreed, hleft⟩ := PendingChanges.forall_release h.waiting
      fun id => id.peer = (c.sliceFrom (log.nextCounter c.peer)).span.peer &&
        id.counter < (c.sliceFrom (log.nextCounter c.peer)).span.stop
    refine ⟨⟨(hadmits.sound_insert h.sound).withPending _, hleft, ?_⟩, partOf_insert⟩
    exact List.forall_mem_append.mpr ⟨hrest, hfreed⟩
  | known ho => exact ⟨⟨h.sound, h.waiting, (List.forall_mem_cons.mp h.queued).2⟩, .refl _⟩
  | blocked ho =>
    obtain ⟨hc, hrest⟩ := List.forall_mem_cons.mp h.queued
    obtain rfl := offer_blocked_eq ho
    exact ⟨⟨h.sound.withPending _, PendingChanges.forall_waiting_add h.waiting hc, hrest⟩, .refl _⟩
  | refused ho => exact ⟨⟨h.sound, h.waiting, (List.forall_mem_cons.mp h.queued).2⟩, .refl _⟩

theorem Passes.holding (hs : Passes s s') (hP : Screens P) (h : Holding P s) :
    Holding P s' ∧ s.1.PartOf s'.1 := by
  unfold Passes at hs
  induction hs with
  | refl => exact ⟨h, .refl _⟩
  | tail _ step ih =>
    obtain ⟨hmid, hgrow⟩ := ih
    obtain ⟨hnext, hstep⟩ := step.holding hP hmid
    exact ⟨hnext, hgrow.trans hstep⟩

end Pass

namespace Intact

theorem withPending_add (h : log.Intact) (hd : d.WellFormed) :
    Intact { log with pending := log.pending.add m d } where
  sound := h.sound.withPending _
  waiting_wellFormed := PendingChanges.forall_waiting_add h.waiting_wellFormed hd

theorem release (h : log.Intact) (p : OpId → Bool) :
    (∀ c ∈ (log.release p).1, c.WellFormed) ∧ (log.release p).2.Intact := by
  obtain ⟨hfreed, hleft⟩ := PendingChanges.forall_release h.waiting_wellFormed p
  exact ⟨hfreed, h.sound.withPending _, hleft⟩

theorem insert (h : log.Intact) (ha : log.Admits c) : (log.insert c).Intact :=
  ⟨ha.sound_insert h.sound, h.waiting_wellFormed⟩

theorem settle (h : log.Intact) (hq : ∀ c ∈ queue, c.WellFormed) :
    (log.settle queue).log.Intact ∧ log.PartOf (log.settle queue).log := by
  have hstart : Holding Change.WellFormed (log, queue) := ⟨h.sound, h.waiting_wellFormed, hq⟩
  obtain ⟨hend, hgrow⟩ := (passes_settle log queue).holding screens_wellFormed hstart
  exact ⟨⟨hend.sound, hend.waiting⟩, hgrow⟩

theorem importChanges (h : log.Intact) {cs : List Change} (hcs : ∀ c ∈ cs, c.WellFormed) :
    (log.importChanges cs).1.Intact ∧ log.PartOf (log.importChanges cs).1 := by
  obtain ⟨hfreed, hint⟩ := h.release log.vv.includes
  refine hint.settle fun c hc => ?_
  rcases List.mem_append.mp hc with hc | hc
  · exact hcs c (List.mem_mergeSort.mp hc)
  · exact hfreed c hc

end Intact

end CausalReplica.ChangeLog
