import CausalReplica.Proofs.Log.Heads
import Mathlib

/-!
# What an append needs

An append goes through exactly when there are operations, each of them has atoms, the dependencies
are known, and both counters and Lamport times suffice. The new change starts at one past the latest
of its parents. Among these the heads of the log are as late as any, so a change that depends on
them starts where the clock stands.
-/

namespace CausalReplica.ChangeLog

variable {log next : ChangeLog} {p : Peer} {deps : Frontiers} {timestamp : Int} {c : Change}
  {items : List (ContainerId × Content)} {ids : List OpId} {x : OpId} {n : Nat}

section Time

/-- One past the latest of these operations; zero if there are none. -/
def timeAfter (log : ChangeLog) (ids : List OpId) : Nat :=
  match (ids.filterMap log.lamportOf?).max? with
  | none => 0
  | some latest => latest + 1

theorem timeAfter_le_iff :
    log.timeAfter ids ≤ n ↔ ∀ x ∈ ids, ∀ l, log.lamportOf? x = some l → l < n := by
  have hmem : (∀ l ∈ ids.filterMap log.lamportOf?, l < n) ↔
      ∀ x ∈ ids, ∀ l, log.lamportOf? x = some l → l < n := by
    simp only [List.mem_filterMap]
    exact ⟨fun h x hx l hl => h l ⟨x, hx, hl⟩, fun h l ⟨x, hx, hl⟩ => h x hx l hl⟩
  rw [← hmem, timeAfter]
  cases hmax : (ids.filterMap log.lamportOf?).max? with
  | none => simp [List.max?_eq_none_iff.mp hmax]
  | some latest =>
    obtain ⟨hlatest, hall⟩ := List.max?_eq_some_iff.mp hmax
    exact ⟨fun h l hl => Nat.lt_of_le_of_lt (hall l hl) h, fun h => h latest hlatest⟩

/-- The last operation of the peer that the log holds. -/
def lastOp? (log : ChangeLog) (p : Peer) : Option OpId :=
  (log.changesOf p).getLast?.map Change.lastId

/-- The operations that a new change of `p` comes right after. -/
def parentsOf (log : ChangeLog) (p : Peer) (deps : Frontiers) : List OpId :=
  deps.ids ++ (log.lastOp? p).toList

theorem Runs.prev_nextCounter (h : log.Runs) (p : Peer) :
    OpId.prev ⟨p, log.nextCounter p⟩ = log.lastOp? p := by
  have hrun := h p
  unfold nextCounter lastOp?
  rcases List.eq_nil_or_concat (log.changesOf p) with hnil | ⟨cs, c, hcs⟩
  · rw [hnil] at hrun ⊢
    rw [← show 0 = log.vv.get p from hrun]
    rfl
  · rw [List.concat_eq_append] at hcs
    rw [hcs] at hrun ⊢
    obtain ⟨mid, _, hpeer, _, hwf, hstop⟩ := Change.Run.append_iff.mp hrun
    replace hstop : c.stop = log.vv.get p := hstop
    have hlt := hwf.start_lt_stop
    rw [List.getLast?_append, List.getLast?_singleton, Option.some_or, Option.map_some]
    refine prev_eq_some_iff.mpr ⟨hpeer, ?_⟩
    change log.vv.get p = c.stop - 1 + 1
    omega

theorem Sound.nextLamport_le_top (h : log.Sound) : log.nextLamport ≤ Word.top :=
  (h.nextLamport_le_iff _).mpr fun p _ hc => ((h.runs p).mem hc).2.1.lamportEnd_le_top

/-- Lamport times of the log lie below the top, where an assigned time would be held. -/
theorem Sound.assign_eq_timeAfter (h : log.Sound) (ids : List OpId) :
    LamportClock.assign (ids.filterMap log.lamportOf?) = log.timeAfter ids := by
  refine eq_of_forall_ge_iff fun n => ?_
  rw [LamportClock.assign_le_iff, timeAfter_le_iff]
  simp only [List.mem_filterMap, forall_exists_index, and_imp]
  have hclamp : ∀ x l, log.lamportOf? x = some l → (Word.clamp (l + 1) ≤ n ↔ l < n) := by
    intro x l hl
    obtain ⟨m, hm, hlt⟩ := h.lamport_lt_nextLamport (h.runs.lamportOf?_eq_some hl)
    cases hl.symm.trans hm
    have htop := h.nextLamport_le_top
    rw [Word.clamp_of_le (by omega)]
    exact Iff.rfl
  exact ⟨fun hall x hx l hl => (hclamp x l hl).mp (hall l x hx hl),
    fun hall l x hx hl => (hclamp x l hl).mpr (hall x hx l hl)⟩

theorem eq_filterMap_of_parentLamports {ls : List Nat} (h : log.parentLamports ids = .ok ls) :
    ls = ids.filterMap log.lamportOf? := by
  induction ids generalizing ls with
  | nil =>
    cases h
    rfl
  | cons id ids ih =>
    unfold parentLamports at h
    split at h
    · exact nomatch h
    · next l hl =>
      obtain ⟨rest, hrest, rfl⟩ := Outcome.of_map_ok h
      rw [List.filterMap_cons_some hl, ih hrest]

/-- A change can only get the time after its parents. -/
theorem Sound.assignLamport_ok (h : log.Sound) (hok : log.assignLamport p deps = .ok n) :
    n = log.timeAfter (log.parentsOf p deps) := by
  obtain ⟨ls, hls, rfl⟩ := Outcome.of_map_ok hok
  rw [eq_filterMap_of_parentLamports hls, h.runs.prev_nextCounter]
  exact h.assign_eq_timeAfter _

theorem Sound.lamport_le_of_atOrBefore (h : log.Sound) {y : OpId} {l : Nat}
    (hl : log.lamportOf? x = some l) (hb : log.AtOrBefore x y) :
    ∃ m, log.lamportOf? y = some m ∧ l ≤ m := by
  rcases Relation.reflTransGen_iff_eq_or_transGen.mp hb with rfl | hbefore
  · exact ⟨l, hl, Nat.le_refl l⟩
  · obtain ⟨k, m, hk, hm, hlt⟩ := h.lamport_lt_of_before hbefore
    cases hl.symm.trans hk
    exact ⟨m, hm, Nat.le_of_lt hlt⟩

/-- Nothing in the log is later than all of its heads. -/
theorem Sound.timeAfter_eq_nextLamport (h : log.Sound)
    (hheads : ∀ x ∈ log.frontiers.ids, x ∈ ids) : log.timeAfter ids = log.nextLamport := by
  apply Nat.le_antisymm
  · refine timeAfter_le_iff.mpr fun x _ l hl => ?_
    obtain ⟨m, hm, hlt⟩ := h.lamport_lt_nextLamport (h.runs.lamportOf?_eq_some hl)
    cases hl.symm.trans hm
    exact hlt
  · refine (h.nextLamport_le_iff _).mpr fun q c hc => ?_
    obtain ⟨rfl, hwf, _⟩ := (h.runs q).mem hc
    have hin : log.contains c.lastId = true := h.runs.contains_of_mem hc hwf.contains_lastId
    have hl : log.lamportOf? c.lastId = some (c.lamport + (c.lastId.counter - c.start)) :=
      h.runs.lamportOf?_of_mem hc hwf.contains_lastId
    obtain ⟨r, hr, hlater⟩ := h.exists_head hin
    obtain ⟨m, hm, hle⟩ := h.lamport_le_of_atOrBefore hl hlater
    have hlt := timeAfter_le_iff.mp (Nat.le_refl _) r (hheads r hr) m hm
    have hstop := hwf.start_lt_stop
    change c.lamport + (c.stop - 1 - c.start) ≤ m at hle
    change c.lamport + (c.stop - c.start) ≤ log.timeAfter ids
    omega

end Time

section Accept

/-- The change with these operations, one after the other behind those of the peer, and with the
time after its parents. -/
def follower (log : ChangeLog) (p : Peer) (items : List (ContainerId × Content)) (deps : Frontiers)
    (timestamp : Int) : Change :=
  { id := ⟨p, log.nextCounter p⟩, lamport := log.timeAfter (log.parentsOf p deps), deps, timestamp,
    ops := Op.place (log.nextCounter p) items }

/-- What a new change of `p` must meet. -/
structure Appendable (log : ChangeLog) (p : Peer) (items : List (ContainerId × Content))
    (deps : Frontiers) : Prop where
  nonempty : items ≠ []
  atoms_pos : ∀ item ∈ items, 0 < item.2.atoms
  deps_known : ∀ x ∈ deps.ids, log.contains x = true
  counters_fit : log.nextCounter p + Op.extent items ≤ Word.top
  times_fit : log.timeAfter (log.parentsOf p deps) + Op.extent items ≤ Word.top

theorem Sound.of_nextChange_ok (h : log.Sound)
    (hok : log.nextChange p items deps timestamp = .ok c) :
    log.Appendable p items deps ∧ c = log.follower p items deps timestamp := by
  obtain ⟨hne, ls, lamport, ops, stop, hls, rfl, hlay, hfit, rfl⟩ := nextChange_ok hok
  obtain ⟨hpos, rfl⟩ := Op.extent_of_layOut hlay
  have htop := (Op.layOut_ok hlay (vv_le_top h.runs p)).2.2.1
  have hassign : log.assignLamport p deps = .ok (LamportClock.assign ls) := by
    rw [assignLamport, hls]
    rfl
  rw [h.assignLamport_ok hassign, Nat.add_sub_cancel_left] at hfit
  refine ⟨⟨hne, hpos, fun x hx => ?_, htop, hfit⟩, ?_⟩
  · obtain ⟨l, _, hl⟩ := parentLamports_ok hls (List.mem_append_left _ hx)
    exact h.runs.lamportOf?_eq_some hl
  · rw [h.assignLamport_ok hassign, Op.eq_place_of_layOut hlay]
    rfl

theorem Sound.nextChange_ok_iff (h : log.Sound) :
    log.nextChange p items deps timestamp = .ok c ↔
      log.Appendable p items deps ∧ c = log.follower p items deps timestamp := by
  refine ⟨h.of_nextChange_ok, ?_⟩
  rintro ⟨happendable, rfl⟩
  obtain ⟨lamport, hlamport⟩ := exists_assignLamport h.runs p happendable.deps_known
  have htimes := happendable.times_fit
  rw [← h.assignLamport_ok hlamport] at htimes
  obtain ⟨ops, hchange⟩ :=
    nextChange_eq hlamport happendable.nonempty happendable.atoms_pos happendable.counters_fit
  rw [if_pos htimes] at hchange
  rw [hchange, (h.of_nextChange_ok hchange).2]

/-- Nothing but `c` was added, behind the changes of its peer. -/
structure GainsOnly (log : ChangeLog) (c : Change) (next : ChangeLog) : Prop where
  own : next.changesOf c.peer = log.changesOf c.peer ++ [c]
  own_counter : next.nextCounter c.peer = log.nextCounter c.peer + Op.totalAtoms c.ops
  others : ∀ q ≠ c.peer, next.changesOf q = log.changesOf q ∧ next.nextCounter q = log.nextCounter q
  pending_eq : next.pending = log.pending

theorem Admits.gainsOnly (ha : log.Admits c) : log.GainsOnly c (log.insert c) where
  own := by rw [changesOf_insert, if_pos rfl]
  own_counter := by
    have hstart : c.start = log.nextCounter c.peer := ha.start_eq
    rw [nextCounter, get_vv_insert, if_pos rfl, ha.wellFormed.stop_eq, hstart]
  others := fun q hq => by
    rw [changesOf_insert, if_neg hq, nextCounter, get_vv_insert, if_neg hq]
    exact ⟨rfl, rfl⟩
  pending_eq := rfl

/-- An append succeeds exactly when there are operations, each with atoms, the dependencies are
known, and neither the counters nor the Lamport times run out. It adds the change with these
operations, in place, with the time right after its parents. Otherwise the log stays as it is. -/
theorem append_ok_iff (h : Steps empty log) (p : Peer) (items : List (ContainerId × Content))
    (deps : Frontiers) (timestamp : Int) :
    ((∃ next c, log.append p items deps timestamp = .ok (next, c)) ↔ log.Appendable p items deps) ∧
    (∀ next c, log.append p items deps timestamp = .ok (next, c) →
      c = log.follower p items deps timestamp ∧ log.GainsOnly c next ∧
      next.nextCounter p = log.nextCounter p + Op.extent items) ∧
    ∀ e, log.append p items deps timestamp = .error e →
      log.appended p items deps timestamp = log := by
  have hs : log.Sound := (h.intact intact_empty).1.sound
  refine ⟨⟨?_, fun happendable => ?_⟩, fun next c hok => ?_, fun e herror => ?_⟩
  · rintro ⟨next, c, hok⟩
    exact (hs.of_nextChange_ok (append_ok hok).1).1
  · have hchange : log.nextChange p items deps timestamp = _ :=
      hs.nextChange_ok_iff.mpr ⟨happendable, rfl⟩
    rw [append, hchange]
    exact ⟨_, _, rfl⟩
  · obtain ⟨hchange, rfl⟩ := append_ok hok
    have hgains := (nextChange_admits hchange hs).1.gainsOnly
    obtain ⟨_, rfl⟩ := hs.of_nextChange_ok hchange
    have hcounter := hgains.own_counter
    rw [follower, Op.totalAtoms_place] at hcounter
    exact ⟨rfl, hgains, hcounter⟩
  · rw [appended, herror]

/-- A change of one atom whose time leaves four. -/
def jump : Change :=
  ⟨⟨⟨2⟩, 0⟩, 4294967290, .empty, 0, [⟨0, .root "t" .text, .insertText 0 "a"⟩]⟩

def jumped : ChangeLog := (empty.importChanges [jump]).1

theorem append_ok_iff_last_times :
    (∃ next c, jumped.append ⟨1⟩ [(.root "t" .text, .delete 0 4)] (.ofId ⟨⟨2⟩, 0⟩) 0 =
        .ok (next, c) ∧ c.lamport = 4294967291 ∧ next.nextCounter ⟨1⟩ = 4) ∧
    ¬ ∃ next c, jumped.append ⟨1⟩ [(.root "t" .text, .delete 0 5)] (.ofId ⟨⟨2⟩, 0⟩) 0 =
        .ok (next, c) := by
  have reached : Steps empty jumped := .single (.importChanges empty [jump] (by decide))
  have hcounter : jumped.nextCounter ⟨1⟩ = 0 := by cbv
  have htime : jumped.timeAfter (jumped.parentsOf ⟨1⟩ (.ofId ⟨⟨2⟩, 0⟩)) = 4294967291 := by cbv
  constructor
  · obtain ⟨hiff, hgains, _⟩ :=
      append_ok_iff reached ⟨1⟩ [(.root "t" .text, .delete 0 4)] (.ofId ⟨⟨2⟩, 0⟩) 0
    have hknown : ∀ x ∈ (Frontiers.ofId ⟨⟨2⟩, 0⟩).ids, jumped.contains x = true := by
      intro x hx
      obtain rfl := List.mem_singleton.mp hx
      cbv
    obtain ⟨next, c, hok⟩ := hiff.mpr
      ⟨by decide, by decide, hknown, by rw [hcounter]; decide, by rw [htime]; decide⟩
    obtain ⟨rfl, _, hnext⟩ := hgains next c hok
    exact ⟨next, _, hok, htime, hnext.trans (by rw [hcounter]; rfl)⟩
  · obtain ⟨hiff, _⟩ :=
      append_ok_iff reached ⟨1⟩ [(.root "t" .text, .delete 0 5)] (.ofId ⟨⟨2⟩, 0⟩) 0
    rintro ⟨next, c, hok⟩
    have hfit := (hiff.mp ⟨next, c, hok⟩).times_fit
    rw [htime] at hfit
    exact absurd hfit (by decide)

end Accept

end CausalReplica.ChangeLog
