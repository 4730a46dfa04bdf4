import CausalReplica.Proofs.Log.History
import CausalReplica.Proofs.Log.Import
import Mathlib.Data.List.Permutation

/-!
# Reachable logs

A log changes by appends, which may fail, and by imports of well-formed changes from anywhere.
Neither takes anything out of the log, and after any number of them its version vector, frontiers
and clock are those of the changes it holds.
-/

namespace CausalReplica.ChangeLog

/-- The log after an attempt to append. -/
def appended (log : ChangeLog) (p : Peer) (items : List (ContainerId × Content)) (deps : Frontiers)
    (timestamp : Int) : ChangeLog :=
  match log.append p items deps timestamp with
  | .ok (next, _) => next
  | .error _ => log

inductive Step : ChangeLog → ChangeLog → Prop
  | append (log : ChangeLog) (p : Peer) (items : List (ContainerId × Content)) (deps : Frontiers)
      (timestamp : Int) : Step log (log.appended p items deps timestamp)
  | importChanges (log : ChangeLog) (cs : List Change) (h : ∀ c ∈ cs, c.WellFormed) :
      Step log (log.importChanges cs).1

/-- `later` comes from `log` by some sequence of calls. -/
def Steps : ChangeLog → ChangeLog → Prop := Relation.ReflTransGen Step

structure Consistent (log : ChangeLog) : Prop where
  runs : log.Runs
  mem_peers : ∀ p, p ∈ log.vv.ends.keys ↔ log.changesOf p ≠ []
  deps_known : ∀ p, ∀ c ∈ log.changesOf p, ∀ d ∈ c.deps.ids, log.contains d = true
  parents_earlier : ∀ p, ∀ c ∈ log.changesOf p, ∀ d ∈ c.parents,
    ∃ lamport, log.lamportOf? d = some lamport ∧ lamport < c.lamport
  frontiers_ascending : Ordered.Ascending log.frontiers.ids
  mem_frontiers : ∀ x, x ∈ log.frontiers.ids ↔
    log.contains x = true ∧ ∀ y, log.contains y = true → ¬ log.Before x y
  nextLamport_eq : log.nextLamport = (log.allChanges.map Change.lamportEnd).foldl max 0
  valid : log.validate = .ok ()

variable {log next later : ChangeLog}

theorem Intact.appended (h : log.Intact) (p : Peer) (items : List (ContainerId × Content))
    (deps : Frontiers) (timestamp : Int) :
    (log.appended p items deps timestamp).Intact ∧
      log.PartOf (log.appended p items deps timestamp) := by
  unfold ChangeLog.appended
  split
  · next next c hok =>
    obtain ⟨hc, rfl⟩ := append_ok hok
    exact ⟨h.insert (nextChange_admits hc h.sound).1, partOf_insert⟩
  · exact ⟨h, .refl log⟩

theorem Step.intact (hs : Step log next) (h : log.Intact) : next.Intact ∧ log.PartOf next := by
  cases hs with
  | append p items deps timestamp => exact h.appended p items deps timestamp
  | importChanges cs hcs => exact h.importChanges hcs

theorem Steps.intact (hs : Steps log later) (h : log.Intact) : later.Intact ∧ log.PartOf later := by
  unfold Steps at hs
  induction hs with
  | refl => exact ⟨h, .refl log⟩
  | tail _ step ih =>
    obtain ⟨hmid, hgrow⟩ := ih
    obtain ⟨hnext, hstep⟩ := step.intact hmid
    exact ⟨hnext, hgrow.trans hstep⟩

theorem intact_empty : Intact empty where
  sound := sound_empty
  waiting_wellFormed := fun _ _ hc => absurd hc List.not_mem_nil

namespace Sound

theorem nextLamport_eq (h : log.Sound) :
    log.nextLamport = (log.allChanges.map Change.lamportEnd).foldl max 0 := by
  have hbound : ∀ n, (log.allChanges.map Change.lamportEnd).foldl max 0 ≤ n ↔
      log.nextLamport ≤ n := by
    intro n
    rw [LamportClock.foldl_max_le_iff, h.nextLamport_le_iff, List.forall_mem_map]
    constructor
    · intro ⟨_, hall⟩ p c hc
      exact hall c (mem_allChanges.mpr ⟨p, hc⟩)
    · intro hall
      refine ⟨Nat.zero_le n, fun c hc => ?_⟩
      obtain ⟨p, hp⟩ := mem_allChanges.mp hc
      exact hall p c hp
  apply Nat.le_antisymm
  · exact (hbound _).mp (Nat.le_refl _)
  · exact (hbound _).mpr (Nat.le_refl _)

theorem consistent (h : log.Sound) : log.Consistent where
  runs := h.runs
  mem_peers := h.mem_peers
  deps_known := fun _ _ hc _ hd => h.contains_of_parents hc (List.mem_append_left _ hd)
  parents_earlier := h.parent_earlier
  frontiers_ascending := h.frontiers_ascending
  mem_frontiers := fun x => by
    rw [h.mem_frontiers_iff]
    apply and_congr_right
    intro _
    constructor
    · exact fun hno y _ => hno y
    · exact fun hno y hb => hno y (h.runs.contains_of_before hb) hb
  nextLamport_eq := h.nextLamport_eq
  valid := h.validate_ok

end Sound

/-- Every log that calls lead to is consistent, and further calls keep all it holds. -/
theorem reachable_consistent (h : Steps empty log) (hs : Steps log later) :
    log.Consistent ∧ later.Consistent ∧ log.PartOf later := by
  obtain ⟨hlog, _⟩ := h.intact intact_empty
  obtain ⟨hlater, hgrow⟩ := hs.intact hlog
  exact ⟨hlog.sound.consistent, hlater.sound.consistent, hgrow⟩

/-- A key is set in a map. -/
def keyed : ChangeLog := empty.appended ⟨1⟩ [(.root "m" .map, .setKey "k" none)] .empty 0

/-- Two list elements, inserted after the key was set. -/
def listed : Change :=
  ⟨⟨⟨2⟩, 0⟩, 7, ⟨[⟨⟨1⟩, 0⟩]⟩, 0, [⟨0, .root "l" .list, .insertValues 0 [.null, .null]⟩]⟩

/-- Two more, the first of which takes the counter of an earlier one. -/
def relisted : Change :=
  ⟨⟨⟨2⟩, 1⟩, 9, .empty, 0, [⟨1, .root "l" .list, .insertValues 1 [.null, .null]⟩]⟩

/-- A change arrives before the operation right before it. When that comes, together with the
beginning of the change, the rest of the change follows. -/
theorem reachable_consistent_early_arrival :
    let early := (keyed.importChanges [relisted]).1
    let later := (early.importChanges [listed, listed]).1
    (keyed.Consistent ∧ later.Consistent ∧ keyed.PartOf later) ∧
      early.changesOf ⟨2⟩ = [] ∧ later.changesOf ⟨2⟩ = [listed, relisted.sliceFrom 2] := by
  intro early later
  have append : Steps empty keyed := .single (.append ..)
  have arrive : Steps keyed early := .single (.importChanges _ _ (by decide))
  have hearly : (keyed.importChanges [relisted]).1.changesOf ⟨2⟩ = [] := by cbv
  have hlater : ((keyed.importChanges [relisted]).1.importChanges [listed, listed]).1.changesOf
      ⟨2⟩ = [listed, relisted.sliceFrom 2] := by cbv
  have follow : Step early later := .importChanges early [listed, listed] (by decide)
  exact ⟨reachable_consistent append (arrive.tail follow), hearly, hlater⟩

end CausalReplica.ChangeLog
