import CausalReplica.Event
import CausalReplica.Proofs.Change.Atom
import CausalReplica.Proofs.Log.Comparison
import CausalReplica.Proofs.Log.Entered

/-!
# Events that tell how a log grows

An event tells of changes that entered a log. Each begins with the heads that the one before it
ended with, so a sequence of events leads from one log to another, and in what the last log knows
each of them can still be read: what it says was added is what its heads add, and the containers it
names are those that the added operations are for.
-/

namespace CausalReplica

/-- The event tells of the changes `added` that bring a log from `log` to `next`. -/
structure VersionEvent.Announces (e : VersionEvent) (log next : ChangeLog) (added : List Change) :
    Prop where
  before_eq : e.before = log.frontiers
  after_eq : e.after = next.frontiers
  ascending : Ordered.Ascending e.containers
  mem_containers : ∀ x, x ∈ e.containers ↔ ∃ c ∈ added, ∃ op ∈ c.ops, op.container = x

/-- Each event begins where the one before it ended, the first at `f`, and the last ends at `g`. -/
def Frontiers.Chained (f : Frontiers) : List VersionEvent → Frontiers → Prop
  | [], g => f = g
  | e :: es, g => e.before = f ∧ e.after.Chained es g

namespace ChangeLog

variable {log mid next whole : ChangeLog} {added : List Change} {c : Change} {e : VersionEvent}
  {es fs : List VersionEvent} {x : OpId} {k : ContainerId}

/-- The operation with the atom `x` is for the container `k`. -/
def Targets (log : ChangeLog) (x : OpId) (k : ContainerId) : Prop :=
  ∃ c ∈ log.changesOf x.peer, ∃ op ∈ c.ops,
    op.counter ≤ x.counter ∧ x.counter < op.stop ∧ op.container = k

/-- What the event says is so in a log that knows it: the heads after it have a larger history than
those before it, and the containers are those of the operations that were added. -/
structure Told (log : ChangeLog) (e : VersionEvent) : Prop where
  before_known : ∀ x ∈ e.before.ids, log.contains x = true
  after_known : ∀ x ∈ e.after.ids, log.contains x = true
  grows : log.history e.before ⊂ log.history e.after
  ascending : Ordered.Ascending e.containers
  mem_containers : ∀ k, k ∈ e.containers ↔
    ∃ x ∈ log.history e.after, x ∉ log.history e.before ∧ log.Targets x k

theorem Runs.targets_iff (h : log.Runs) (hc : c ∈ log.changesOf x.peer)
    (hx : c.contains x = true) :
    log.Targets x k ↔
      ∃ op ∈ c.ops, op.counter ≤ x.counter ∧ x.counter < op.stop ∧ op.container = k := by
  constructor
  · rintro ⟨d, hd, op, hop, hle, hlt, hk⟩
    obtain ⟨hpeer, hwf, _⟩ := (h x.peer).mem hd
    obtain ⟨hstart, _, hstop⟩ := hwf.op_bounds hop
    have hdx : d.contains x = true :=
      Change.contains_iff.mpr ⟨hpeer.symm, Nat.le_trans hstart hle, Nat.lt_of_lt_of_le hlt hstop⟩
    rw [h.eq_of_contains hc hd hx hdx]
    exact ⟨op, hop, hle, hlt, hk⟩
  · exact fun ⟨op, hop, htarget⟩ => ⟨c, hc, op, hop, htarget⟩

/-- For a log that has grown since, the heads of a log still stand for what that log knew. -/
theorem Sound.history_frontiers (h : log.Sound) (hw : whole.Runs) (hp : log.PartOf whole) :
    whole.history log.frontiers = log.ops := by
  have hknown : ∀ r ∈ log.frontiers.ids, log.contains r = true :=
    fun r hr => ((h.mem_frontiers r).mp hr).1
  rw [← hp.history_eq h hw hknown]
  exact Set.Subset.antisymm (h.history_subset hknown) h.ops_subset_history

theorem GrowsBy.ops_ssubset (h : log.GrowsBy added next) (hl : log.Runs) (hn : next.Runs)
    (hne : added ≠ []) : log.ops ⊂ next.ops := by
  obtain ⟨c, hc⟩ := List.exists_mem_of_ne_nil added hne
  have hid := ((hn c.peer).mem (h.mem_of_added hc)).2.1.contains_id
  refine (Set.ssubset_iff_of_subset fun x hx => h.partOf.contains hl hn hx).mpr ⟨c.id, ?_, ?_⟩
  · exact (h.contains_iff hl hn).mpr (.inr ⟨c, hc, hid⟩)
  · exact Bool.eq_false_iff.mp (h.not_contains hl hn hc hid)

theorem GrowsBy.exists_targets_iff (h : log.GrowsBy added next) (hl : log.Runs) (hn : next.Runs)
    (hw : whole.Runs) (hp : next.PartOf whole) :
    (∃ x ∈ next.ops, x ∉ log.ops ∧ whole.Targets x k) ↔
      ∃ c ∈ added, ∃ op ∈ c.ops, op.container = k := by
  constructor
  · rintro ⟨x, hx, hnew, htarget⟩
    obtain ⟨c, hc, hcx⟩ := ((h.contains_iff hl hn).mp hx).resolve_left hnew
    have hmem : c ∈ whole.changesOf x.peer :=
      hp.mem (h.mem_changesOf.mpr (.inr ⟨hc, (Change.contains_iff.mp hcx).1.symm⟩))
    obtain ⟨op, hop, _, _, hk⟩ := (hw.targets_iff hmem hcx).mp htarget
    exact ⟨c, hc, op, hop, hk⟩
  · rintro ⟨c, hc, op, hop, hk⟩
    have hmem := h.mem_of_added hc
    have hwf := ((hn c.peer).mem hmem).2.1
    have hcx := hwf.contains_op hop
    refine ⟨⟨c.peer, op.counter⟩, (h.contains_iff hl hn).mpr (.inr ⟨c, hc, hcx⟩), ?_,
      c, hp.mem hmem, op, hop, Nat.le_refl _, (hwf.op_bounds hop).2.1, hk⟩
    exact Bool.eq_false_iff.mp (h.not_contains hl hn hc hcx)

/-- An event that tells of the growth of a part of a log is told to the whole. -/
theorem Told.of_announces (he : e.Announces log mid added) (hgrow : log.GrowsBy added mid)
    (hne : added ≠ []) (hl : log.Sound) (hm : mid.Sound) (hw : whole.Runs)
    (hp : mid.PartOf whole) : whole.Told e := by
  have hpl := hgrow.partOf.trans hp
  have hbefore : whole.history e.before = log.ops := by
    rw [he.before_eq, hl.history_frontiers hw hpl]
  have hafter : whole.history e.after = mid.ops := by
    rw [he.after_eq, hm.history_frontiers hw hp]
  refine ⟨fun x hx => ?_, fun x hx => ?_, ?_, he.ascending, fun k => ?_⟩
  · rw [he.before_eq] at hx
    exact hpl.contains hl.runs hw ((hl.mem_frontiers x).mp hx).1
  · rw [he.after_eq] at hx
    exact hp.contains hm.runs hw ((hm.mem_frontiers x).mp hx).1
  · rw [hbefore, hafter]
    exact hgrow.ops_ssubset hl.runs hm.runs hne
  · rw [he.mem_containers, hbefore, hafter, hgrow.exists_targets_iff hl.runs hm.runs hw hp]

/-- The events tell, one after the other, of all that was added between two logs. -/
inductive Tells : ChangeLog → List VersionEvent → ChangeLog → Prop
  | silent {log next : ChangeLog} (hgrow : log.GrowsBy [] next)
      (hfrontiers : next.frontiers = log.frontiers) : Tells log [] next
  | event {log mid next : ChangeLog} {added : List Change} {e : VersionEvent}
      {es : List VersionEvent} (hgrow : log.GrowsBy added mid) (hne : added ≠ [])
      (he : e.Announces log mid added) (hmid : mid.Sound) (rest : Tells mid es next) :
      Tells log (e :: es) next

namespace Tells

theorem refl (log : ChangeLog) : Tells log [] log := .silent (.refl log) rfl

theorem trans (h : Tells log es mid) (h' : Tells mid fs next) : Tells log (es ++ fs) next := by
  induction h with
  | silent hgrow hfrontiers =>
    cases h' with
    | silent hgrow' hfrontiers' =>
      exact .silent (hgrow.trans hgrow') (hfrontiers'.trans hfrontiers)
    | event hgrow' hne he hmid rest =>
      exact .event (hgrow.trans hgrow') hne
        ⟨he.before_eq.trans hfrontiers, he.after_eq, he.ascending, he.mem_containers⟩ hmid rest
  | event hgrow hne he hmid _ ih => exact .event hgrow hne he hmid (ih h')

theorem partOf (h : Tells log es next) : log.PartOf next := by
  induction h with
  | silent hgrow _ => exact hgrow.partOf
  | event hgrow _ _ _ _ ih => exact hgrow.partOf.trans ih

theorem chained (h : Tells log es next) : log.frontiers.Chained es next.frontiers := by
  induction h with
  | silent _ hfrontiers => exact hfrontiers.symm
  | event _ _ he _ _ ih => exact ⟨he.before_eq, he.after_eq ▸ ih⟩

theorem told (h : Tells log es next) (hl : log.Sound) (hw : whole.Runs) (hp : next.PartOf whole) :
    ∀ e ∈ es, whole.Told e := by
  induction h with
  | silent _ _ => exact fun e he => absurd he List.not_mem_nil
  | event hgrow hne he hmid rest ih =>
    refine List.forall_mem_cons.mpr ⟨?_, ih hmid hp⟩
    exact .of_announces he hgrow hne hl hmid hw (rest.partOf.trans hp)

theorem eq_nil (h : Tells log es next) (hl : log.Sound) (hn : next.Runs)
    (hsame : ∀ x, next.contains x = true → log.contains x = true) : es = [] := by
  cases h with
  | silent _ _ => rfl
  | event hgrow hne he hmid rest =>
    obtain ⟨x, hx, hnew⟩ := Set.exists_of_ssubset (hgrow.ops_ssubset hl.runs hmid.runs hne)
    exact absurd (hsame x (rest.partOf.contains hmid.runs hn hx)) hnew

end Tells

end ChangeLog

end CausalReplica
