import CausalReplica.Log.Basic
import CausalReplica.Proofs.Change.Run
import Mathlib.Logic.Relation

/-!
# The causal order of a log

An operation comes after the one its peer issued right before it and after every dependency of the
change that holds it. When each peer's changes form a run, ids are addresses: looking one up finds
the only change that holds it. A log whose runs begin those of another, `PartOf` it, answers alike
for every operation it holds.
-/

namespace CausalReplica.ChangeLog

/-- `y` is the operation right before `x`, or a dependency of the change that holds `x`. -/
def Parent (log : ChangeLog) (y x : OpId) : Prop :=
  ∃ c ∈ log.changesOf x.peer, c.contains x = true ∧ (x.prev = some y ∨ y ∈ c.deps.ids)

/-- `y` is a strict causal ancestor of `x`. -/
def Before (log : ChangeLog) : OpId → OpId → Prop := Relation.TransGen log.Parent

def AtOrBefore (log : ChangeLog) : OpId → OpId → Prop := Relation.ReflTransGen log.Parent

/-- The changes of each peer fill the counters that the version vector says are known. -/
def Runs (log : ChangeLog) : Prop :=
  ∀ p, Change.Run p 0 (log.vv.get p) (log.changesOf p)

/-- Each peer's changes begin those that `whole` holds. -/
def PartOf (log whole : ChangeLog) : Prop := ∀ p, log.changesOf p <+: whole.changesOf p

theorem contains_iff {log : ChangeLog} {id : OpId} :
    log.contains id = true ↔ id.counter < log.vv.get id.peer :=
  VersionVector.includes_iff

theorem vv_le_of_contains {log other : ChangeLog}
    (h : ∀ x, log.contains x = true → other.contains x = true) (p : Peer) :
    log.vv.get p ≤ other.vv.get p :=
  VersionVector.get_le_iff.mpr h p

theorem prev_eq_some_iff {x y : OpId} :
    x.prev = some y ↔ y.peer = x.peer ∧ x.counter = y.counter + 1 := by
  obtain ⟨p, n⟩ := x
  obtain ⟨q, m⟩ := y
  cases n with
  | zero => simp [OpId.prev]
  | succ n =>
    simp only [OpId.prev, Option.some.injEq, OpId.mk.injEq, Nat.add_right_cancel_iff]
    exact and_congr eq_comm Iff.rfl

section Runs

variable {log : ChangeLog} {c : Change} {id x y : OpId}

theorem Runs.contains_of_mem (h : log.Runs) (hc : c ∈ log.changesOf id.peer)
    (hid : c.contains id = true) : log.contains id = true := by
  have hstop := ((h id.peer).mem hc).2.2.2
  have := (Change.contains_iff.mp hid).2.2
  exact contains_iff.mpr (by omega)

theorem Runs.exists_change (h : log.Runs) (hid : log.contains id = true) :
    ∃ c ∈ log.changesOf id.peer, c.contains id = true := by
  obtain ⟨c, hc, hle, hlt⟩ := (h id.peer).exists_holding (Nat.zero_le _) (contains_iff.mp hid)
  exact ⟨c, hc, Change.contains_iff.mpr ⟨((h id.peer).mem hc).1.symm, hle, hlt⟩⟩

/-- The search by halving meets the change that looking from the front would. -/
theorem Runs.find?_eq (h : log.Runs) (id : OpId) :
    log.find? id =
      ((log.changesOf id.peer).find? fun c => id.counter < c.stop).filter (·.contains id) := by
  unfold find?
  rw [((h id.peer).partitioned_stop id.counter).firstFailing?_eq]
  simp only [← decide_not, Nat.not_le]

theorem Runs.find?_of_mem (h : log.Runs) (hc : c ∈ log.changesOf id.peer)
    (hid : c.contains id = true) : log.find? id = some c := by
  obtain ⟨_, hle, hlt⟩ := Change.contains_iff.mp hid
  rw [h.find?_eq, (h id.peer).find?_of_mem hc hle hlt, Option.filter_some, if_pos hid]

theorem Runs.eq_of_contains (h : log.Runs) {d : Change} (hc : c ∈ log.changesOf id.peer)
    (hd : d ∈ log.changesOf id.peer) (hcid : c.contains id = true) (hdid : d.contains id = true) :
    c = d := by
  have hfind := h.find?_of_mem hc hcid
  rw [h.find?_of_mem hd hdid] at hfind
  exact (Option.some.inj hfind).symm

theorem Runs.lamportOf?_of_mem (h : log.Runs) (hc : c ∈ log.changesOf id.peer)
    (hid : c.contains id = true) :
    log.lamportOf? id = some (c.lamport + (id.counter - c.start)) := by
  unfold lamportOf?
  rw [h.find?_of_mem hc hid, Option.map_some]
  exact congrArg some (((h id.peer).mem hc).2.1.lamportOf_eq (Change.contains_iff.mp hid).2.2)

theorem Runs.find?_eq_none (h : log.Runs) (hid : log.contains id = false) :
    log.find? id = none := by
  apply Option.eq_none_iff_forall_not_mem.mpr
  intro c hc
  obtain ⟨hfirst, hcid⟩ := Option.filter_eq_some_iff.mp hc
  have := h.contains_of_mem (Ordered.mem_of_firstFailing? hfirst) hcid
  exact absurd this (by simp [hid])

theorem Runs.lamportOf?_eq_some (h : log.Runs) {lamport : Nat}
    (hl : log.lamportOf? id = some lamport) : log.contains id = true := by
  by_cases hid : log.contains id = true
  · exact hid
  · unfold lamportOf? at hl
    rw [h.find?_eq_none (by simpa using hid)] at hl
    exact nomatch hl

theorem Runs.parent_iff (h : log.Runs) (hc : c ∈ log.changesOf x.peer) (hx : c.contains x = true) :
    log.Parent y x ↔ x.prev = some y ∨ y ∈ c.deps.ids := by
  constructor
  · rintro ⟨d, hd, hdx, hy⟩
    rwa [h.eq_of_contains hc hd hx hdx]
  · exact fun hy => ⟨c, hc, hx, hy⟩

theorem Runs.contains_of_parent (h : log.Runs) (hp : log.Parent y x) : log.contains x = true := by
  obtain ⟨c, hc, hx, _⟩ := hp
  exact h.contains_of_mem hc hx

theorem Runs.contains_of_before (h : log.Runs) (hb : log.Before y x) : log.contains x = true := by
  obtain ⟨z, _, hp⟩ := Relation.TransGen.tail'_iff.mp hb
  exact h.contains_of_parent hp

/-- Of one peer's known operations, the earlier are ancestors of the later. -/
theorem Runs.atOrBefore_of_le (h : log.Runs) (hp : x.peer = y.peer) (hle : x.counter ≤ y.counter)
    (hy : log.contains y = true) : log.AtOrBefore x y := by
  obtain ⟨p, n⟩ := x
  obtain ⟨q, m⟩ := y
  dsimp only at hp hle
  subst hp
  induction m with
  | zero =>
    rw [Nat.le_zero.mp hle]
    exact .refl
  | succ m ih =>
    rcases Nat.lt_or_eq_of_le hle with hlt | rfl
    · obtain ⟨c, hc, hx⟩ := h.exists_change hy
      have hm : m + 1 < log.vv.get p := contains_iff.mp hy
      have hbefore : log.contains ⟨p, m⟩ = true := contains_iff.mpr (Nat.lt_of_succ_lt hm)
      have hbelow := ih (Nat.le_of_lt_succ hlt) hbefore
      exact hbelow.tail ⟨c, hc, hx, .inl rfl⟩
    · exact .refl

/-- Two searches by halving pick what two scans would. -/
theorem Runs.changesIn_eq (h : log.Runs) (s : IdSpan) :
    log.changesIn s = ((log.changesOf s.peer).dropWhile fun c => c.stop ≤ s.start).takeWhile
      fun c => c.start < s.stop :=
  ((h s.peer).partitioned_stop s.start).extract_cuts ((h s.peer).partitioned_start s.stop)

theorem mem_changesIn (h : log.Runs) {s : IdSpan} :
    c ∈ log.changesIn s ↔ c ∈ log.changesOf s.peer ∧ s.start < c.stop ∧ c.start < s.stop := by
  rw [h.changesIn_eq]
  exact (h s.peer).mem_between

theorem mem_allChanges : c ∈ log.allChanges ↔ ∃ p, c ∈ log.changesOf p :=
  OrdMap.mem_flatten_values

end Runs

namespace PartOf

variable {log mid whole : ChangeLog} {c : Change} {x y : OpId}

theorem refl (log : ChangeLog) : log.PartOf log := fun _ => List.prefix_rfl

theorem trans (h : log.PartOf mid) (h' : mid.PartOf whole) : log.PartOf whole :=
  fun p => (h p).trans (h' p)

theorem mem (h : log.PartOf whole) {p : Peer} (hc : c ∈ log.changesOf p) : c ∈ whole.changesOf p :=
  (h p).subset hc

theorem vv_le (h : log.PartOf whole) (hl : log.Runs) (hw : whole.Runs) (p : Peer) :
    log.vv.get p ≤ whole.vv.get p := by
  obtain ⟨rest, hrest⟩ := h p
  exact ((hl p).of_append (hrest ▸ hw p)).le

theorem contains (h : log.PartOf whole) (hl : log.Runs) (hw : whole.Runs)
    (hx : log.contains x = true) : whole.contains x = true := by
  have := h.vv_le hl hw x.peer
  have := contains_iff.mp hx
  exact contains_iff.mpr (by omega)

theorem lamportOf? (h : log.PartOf whole) (hl : log.Runs) (hw : whole.Runs)
    (hx : log.contains x = true) : log.lamportOf? x = whole.lamportOf? x := by
  obtain ⟨c, hc, hcx⟩ := hl.exists_change hx
  rw [hl.lamportOf?_of_mem hc hcx, hw.lamportOf?_of_mem (h.mem hc) hcx]

theorem parent (h : log.PartOf whole) (hp : log.Parent y x) : whole.Parent y x := by
  obtain ⟨c, hc, hy⟩ := hp
  exact ⟨c, h.mem hc, hy⟩

theorem parent_of_contains (h : log.PartOf whole) (hl : log.Runs) (hw : whole.Runs)
    (hx : log.contains x = true) (hp : whole.Parent y x) : log.Parent y x := by
  obtain ⟨c, hc, hcx⟩ := hl.exists_change hx
  exact ⟨c, hc, hcx, (hw.parent_iff (h.mem hc) hcx).mp hp⟩

/-- Parts of one log that know equally many operations of a peer hold the same changes of it. -/
theorem changesOf_eq {other : ChangeLog} (h : log.PartOf whole) (h' : other.PartOf whole)
    (hl : log.Runs) (ho : other.Runs) {p : Peer} (heq : log.vv.get p = other.vv.get p) :
    log.changesOf p = other.changesOf p :=
  (hl p).eq_of_common (heq ▸ ho p) (h p) (h' p)

end PartOf

end CausalReplica.ChangeLog
