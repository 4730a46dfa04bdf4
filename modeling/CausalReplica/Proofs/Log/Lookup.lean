import CausalReplica.Proofs.Id.Coalesce
import CausalReplica.Proofs.Log.Acceptance
import Mathlib.Data.List.Nodup

/-!
# Looking up operations and spans

The changes of a peer follow one another without a gap, so a place among them can be found by
halving. The operations that are found are those the version vector covers, and each has a Lamport
time past those of its history. The changes found for a span are those that hold one of its
operations, unless the span is empty and lies inside a change: then that change is found though it
holds none.
-/

namespace CausalReplica

namespace Change

variable {p : Peer} {first last : Nat} {c : Change} {cs ds : List Change} {s : IdSpan}

theorem Run.eq_singleton (h : Run p first last cs) (hsub : ds.Sublist cs)
    (hmem : ∀ d, d ∈ ds ↔ d = c) : ds = [c] := by
  apply List.perm_singleton.mp
  apply (List.perm_ext_iff_of_nodup (h.nodup.sublist hsub) (List.nodup_singleton c)).mpr
  simpa only [List.mem_singleton] using hmem

/-- Some operation of the span is in the change. -/
def Meets (c : Change) (s : IdSpan) : Prop := ∃ id, s.contains id = true ∧ c.contains id = true

/-- The span ends where it starts or before, and the change has counters on either side. -/
structure Bridges (c : Change) (s : IdSpan) : Prop where
  isEmpty : s.isEmpty = true
  start_lt : c.start < s.stop
  lt_stop : s.start < c.stop

theorem meets_iff (hpeer : c.peer = s.peer) (hc : c.start < c.stop) :
    c.Meets s ↔ s.start < s.stop ∧ s.start < c.stop ∧ c.start < s.stop := by
  constructor
  · rintro ⟨id, hs, hid⟩
    obtain ⟨_, _, _⟩ := IdSpan.contains_iff.mp hs
    obtain ⟨_, _, _⟩ := contains_iff.mp hid
    omega
  · rintro ⟨hlt, hstop, hstart⟩
    -- The later of the two starts lies in both.
    refine ⟨⟨s.peer, max s.start c.start⟩, IdSpan.contains_iff.mpr ⟨rfl, ?_⟩,
      contains_iff.mpr ⟨hpeer.symm, ?_⟩⟩
    · dsimp only
      omega
    · dsimp only
      omega

end Change

namespace ChangeLog

variable {log : ChangeLog} {c : Change} {id : OpId} {s : IdSpan}

section Operations

/-- The changes of the peer whose counters reach over the operation. -/
def holders (log : ChangeLog) (id : OpId) : List Change :=
  (log.changesOf id.peer).filter fun c => c.start ≤ id.counter ∧ id.counter < c.stop

/-- The Lamport time of an operation in `c` lies past those of its history. -/
structure TimedBy (log : ChangeLog) (id : OpId) (c : Change) (lamport : Nat) : Prop where
  eq_add_offset : lamport = c.lamport + (id.counter - c.start)
  le_top : lamport ≤ Word.top
  lt_next : lamport < log.nextLamport
  past_history : ∀ y, log.AtOrBefore y id → y ≠ id →
    ∃ earlier, log.lamportOf? y = some earlier ∧ earlier < lamport

theorem Runs.mem_holders_iff (h : log.Runs) :
    c ∈ log.holders id ↔ c ∈ log.changesOf id.peer ∧ c.contains id = true := by
  simp only [holders, List.mem_filter, decide_eq_true_eq, Change.contains_iff]
  refine and_congr_right fun hc => ?_
  exact (and_iff_right ((h id.peer).mem hc).1.symm).symm

theorem Runs.holders_eq (h : log.Runs) (hc : c ∈ log.changesOf id.peer)
    (hid : c.contains id = true) : log.holders id = [c] := by
  apply (h id.peer).eq_singleton List.filter_sublist
  intro d
  change d ∈ log.holders id ↔ d = c
  rw [h.mem_holders_iff]
  constructor
  · exact fun ⟨hd, hdid⟩ => h.eq_of_contains hd hc hdid hid
  · rintro rfl
    exact ⟨hc, hid⟩

theorem Runs.get_of_mem (h : log.Runs) (hc : c ∈ log.changesOf id.peer)
    (hid : c.contains id = true) : log.get id = .ok c := by
  rw [get, h.find?_of_mem hc hid]

theorem Runs.get_of_not_contains (h : log.Runs) (hid : log.contains id = false) :
    log.get id = .error (.notFound (.change id)) := by
  rw [get, h.find?_eq_none hid]

theorem Runs.lamportOf?_of_not_contains (h : log.Runs) (hid : log.contains id = false) :
    log.lamportOf? id = none := by
  rw [lamportOf?, h.find?_eq_none hid]
  rfl

theorem Sound.timedBy (h : log.Sound) (hc : c ∈ log.changesOf id.peer)
    (hid : c.contains id = true) : log.TimedBy id c (c.lamport + (id.counter - c.start)) := by
  have hlamport := h.runs.lamportOf?_of_mem hc hid
  obtain ⟨lamport, hl, hlt⟩ := h.lamport_lt_nextLamport (h.runs.contains_of_mem hc hid)
  rw [hlamport] at hl
  cases hl
  have htop := h.nextLamport_le_top
  refine ⟨rfl, by omega, hlt, fun y hy hne => ?_⟩
  rcases Relation.reflTransGen_iff_eq_or_transGen.mp hy with heq | hbefore
  · exact absurd heq.symm hne
  · obtain ⟨earlier, _, hearlier, hl, hless⟩ := h.lamport_lt_of_before hbefore
    rw [hlamport] at hl
    cases hl
    exact ⟨earlier, hearlier, hless⟩

/-- An operation is found exactly if the version vector covers it, namely in the only change of its
peer that reaches over it, and its Lamport time follows from its place there. -/
theorem lookup_meets_only_holder (h : Steps empty log) (id : OpId) :
    ((∃ c, log.get id = .ok c) ↔ log.vv.includes id = true) ∧
    ((∃ lamport, log.lamportOf? id = some lamport) ↔ log.vv.includes id = true) ∧
    (log.vv.includes id = false →
      log.get id = .error (.notFound (.change id)) ∧ log.lamportOf? id = none) ∧
    ∀ c, log.get id = .ok c → log.holders id = [c] ∧
      ∃ lamport, log.lamportOf? id = some lamport ∧ log.TimedBy id c lamport := by
  have hs : log.Sound := (h.intact intact_empty).1.sound
  by_cases hid : log.contains id = true
  · obtain ⟨c, hc, hcid⟩ := hs.runs.exists_change hid
    have hget := hs.runs.get_of_mem hc hcid
    have hlamport := hs.runs.lamportOf?_of_mem hc hcid
    refine ⟨iff_of_true ⟨c, hget⟩ hid, iff_of_true ⟨_, hlamport⟩ hid, fun hnot => ?_,
      fun d hd => ?_⟩
    · exact absurd hid (ne_true_of_eq_false hnot)
    · obtain rfl : c = d := Except.ok.inj (hget.symm.trans hd)
      exact ⟨hs.runs.holders_eq hc hcid, _, hlamport, hs.timedBy hc hcid⟩
  · have hnot : log.contains id = false := eq_false_of_ne_true hid
    have hget := hs.runs.get_of_not_contains hnot
    have hlamport := hs.runs.lamportOf?_of_not_contains hnot
    refine ⟨iff_of_false ?_ hid, iff_of_false ?_ hid, fun _ => ⟨hget, hlamport⟩, ?_⟩
    · rintro ⟨c, hc⟩
      exact nomatch hget.symm.trans hc
    · rintro ⟨lamport, hl⟩
      exact nomatch hlamport.symm.trans hl
    · intro c hc
      exact nomatch hget.symm.trans hc

def threeValues : ChangeLog :=
  empty.appended ⟨1⟩ [(.root "l" .list, .insertValues 0 [.int 10, .int 11, .int 12])] .empty 0

/-- Two operations of the log again, and two more. -/
def overlap : Change :=
  ⟨⟨⟨1⟩, 1⟩, 1, .ofId ⟨⟨1⟩, 0⟩, 0,
    [⟨1, .root "l" .list, .insertValues 1 [.int 11, .int 12, .int 13, .int 14]⟩]⟩

def spliced : ChangeLog := (threeValues.importChanges [overlap]).1

/-- What is stored of the change: the two operations it adds. -/
def spliceTail : Change :=
  ⟨⟨⟨1⟩, 3⟩, 3, .ofId ⟨⟨1⟩, 2⟩, 0, [⟨3, .root "l" .list, .insertValues 3 [.int 13, .int 14]⟩]⟩

theorem steps_spliced : Steps empty spliced :=
  (Relation.ReflTransGen.single (Step.append empty ⟨1⟩ ..)).tail
    (.importChanges threeValues [overlap] (by decide))

/-- The last operation of peer 1 is looked up in the slice, and the one after it is unknown. -/
theorem lookup_meets_only_holder_spliced :
    spliced.get ⟨⟨1⟩, 5⟩ = .error (.notFound (.change ⟨⟨1⟩, 5⟩)) ∧
    spliced.get ⟨⟨1⟩, 4⟩ = .ok spliceTail ∧ spliced.holders ⟨⟨1⟩, 4⟩ = [spliceTail] ∧
      ∃ lamport, spliced.lamportOf? ⟨⟨1⟩, 4⟩ = some lamport ∧
        spliced.TimedBy ⟨⟨1⟩, 4⟩ spliceTail lamport := by
  have hget : spliced.get ⟨⟨1⟩, 4⟩ = .ok spliceTail := by cbv
  obtain ⟨-, -, hunknown, -⟩ := lookup_meets_only_holder steps_spliced ⟨⟨1⟩, 5⟩
  obtain ⟨-, -, -, hfound⟩ := lookup_meets_only_holder steps_spliced ⟨⟨1⟩, 4⟩
  exact ⟨(hunknown (by cbv)).1, hget, hfound spliceTail hget⟩

end Operations

section Spans

variable (h : log.Runs)
include h

theorem Runs.changesIn_sublist (s : IdSpan) : (log.changesIn s).Sublist (log.changesOf s.peer) := by
  rw [h.changesIn_eq]
  exact (List.takeWhile_sublist _).trans (List.dropWhile_sublist _)

theorem Runs.placesIn_le (s : IdSpan) : (log.placesIn s).1 ≤ (log.placesIn s).2 ∧
    (log.placesIn s).2 ≤ (log.changesOf s.peer).length :=
  ((h s.peer).partitioned_stop s.start).cuts_le ((h s.peer).partitioned_start s.stop)

/-- A change is found by meeting the span or by bridging it. -/
theorem Runs.mem_changesIn_iff :
    c ∈ log.changesIn s ↔ c ∈ log.changesOf s.peer ∧ (c.Meets s ∨ c.Bridges s) := by
  rw [mem_changesIn h]
  refine and_congr_right fun hc => ?_
  obtain ⟨hpeer, hwf, _⟩ := (h s.peer).mem hc
  rw [Change.meets_iff hpeer hwf.start_lt_stop]
  constructor
  · rintro ⟨hstop, hstart⟩
    by_cases hempty : s.stop ≤ s.start
    · exact .inr ⟨decide_eq_true hempty, hstart, hstop⟩
    · exact .inl ⟨Nat.lt_of_not_le hempty, hstop, hstart⟩
  · rintro (⟨_, hstop, hstart⟩ | hbridge)
    · exact ⟨hstop, hstart⟩
    · exact ⟨hbridge.lt_stop, hbridge.start_lt⟩

theorem Runs.changesIn_of_bridges (hc : c ∈ log.changesOf s.peer) (hbridge : c.Bridges s) :
    log.changesIn s = [c] := by
  have hempty : s.stop ≤ s.start := of_decide_eq_true hbridge.isEmpty
  have hlow := hbridge.start_lt
  have hhigh := hbridge.lt_stop
  apply (h s.peer).eq_singleton (h.changesIn_sublist s)
  intro d
  rw [mem_changesIn h]
  constructor
  · -- Both hold the counter at which the span starts.
    rintro ⟨hd, hstop, hstart⟩
    exact (h s.peer).eq_of_holding hd hc (n := s.start) ⟨by omega, hstop⟩ ⟨by omega, hhigh⟩
  · rintro rfl
    exact ⟨hc, hhigh, hlow⟩

/-- A change never does both, so the changes found are those that meet the span exactly if none
bridges it. -/
theorem Runs.changesIn_exact_iff :
    (∀ c, c ∈ log.changesIn s ↔ c ∈ log.changesOf s.peer ∧ c.Meets s) ↔
      ∀ c ∈ log.changesOf s.peer, ¬ c.Bridges s := by
  constructor
  · intro hexact c hc hbridge
    obtain ⟨hpeer, hwf, _⟩ := (h s.peer).mem hc
    have hfound := h.mem_changesIn_iff.mpr ⟨hc, .inr hbridge⟩
    have hmeets := (Change.meets_iff hpeer hwf.start_lt_stop).mp ((hexact c).mp hfound).2
    exact absurd (of_decide_eq_true hbridge.isEmpty) (Nat.not_le_of_lt hmeets.1)
  · intro hnone c
    rw [h.mem_changesIn_iff]
    exact and_congr_right fun hc => or_iff_left (hnone c hc)

end Spans

/-- The changes found for a span lie between two places of the list of its peer. They are those that
hold an operation of the span, unless a change bridges it; then that change is all that is found. -/
theorem span_finds_changes_it_meets (h : Steps empty log) (s : IdSpan) :
    ((log.placesIn s).1 ≤ (log.placesIn s).2 ∧
      (log.placesIn s).2 ≤ (log.changesOf s.peer).length) ∧
    (log.changesIn s).Pairwise (fun c d => c.stop ≤ d.start) ∧
    ((∀ c, c ∈ log.changesIn s ↔ c ∈ log.changesOf s.peer ∧ c.Meets s) ↔
      ∀ c ∈ log.changesOf s.peer, ¬ c.Bridges s) ∧
    ∀ c ∈ log.changesOf s.peer, c.Bridges s → log.changesIn s = [c] := by
  have hr : log.Runs := (h.intact intact_empty).1.sound.runs
  exact ⟨hr.placesIn_le s, (hr s.peer).pairwise.sublist (hr.changesIn_sublist s),
    hr.changesIn_exact_iff, fun c hc => hr.changesIn_of_bridges hc⟩

/-- A span over the seam of the two changes of peer 1 meets both, and an empty one behind the seam
finds the change around it. -/
theorem span_finds_changes_it_meets_spliced :
    (∀ c, c ∈ spliced.changesIn ⟨⟨1⟩, 2, 4⟩ ↔
      c ∈ spliced.changesOf ⟨1⟩ ∧ c.Meets ⟨⟨1⟩, 2, 4⟩) ∧
    spliced.changesIn ⟨⟨1⟩, 4, 4⟩ = [spliceTail] := by
  have hmem : spliceTail ∈ spliced.changesOf ⟨1⟩ :=
    List.mem_of_getElem? (i := 1) (by cbv)
  obtain ⟨-, -, hexact, -⟩ := span_finds_changes_it_meets steps_spliced ⟨⟨1⟩, 2, 4⟩
  obtain ⟨-, -, -, hbridged⟩ := span_finds_changes_it_meets steps_spliced ⟨⟨1⟩, 4, 4⟩
  constructor
  · exact hexact.mpr fun c _ hbridge => absurd hbridge.isEmpty (by decide)
  · exact hbridged spliceTail hmem ⟨by decide, by decide, by decide⟩

/-- An empty span holds no operation, yet the change that it lies in is found. -/
theorem empty_span_finds_change_around_it :
    ¬ ∀ (log : ChangeLog) (s : IdSpan), Steps empty log →
      ∀ c, c ∈ log.changesIn s ↔ c ∈ log.changesOf s.peer ∧ c.Meets s := by
  intro hall
  let text : ContainerId := .root "t" .text
  let log := empty.appended ⟨1⟩ [(text, .insertText 0 "ab")] .empty 0
  let c : Change := ⟨⟨⟨1⟩, 0⟩, 0, .empty, 0, [⟨0, text, .insertText 0 "ab"⟩]⟩
  have hfound : log.changesIn ⟨⟨1⟩, 1, 1⟩ = [c] := by decide
  have hmem : c ∈ log.changesIn ⟨⟨1⟩, 1, 1⟩ := hfound ▸ List.mem_cons_self
  obtain ⟨_, id, hid, _⟩ := (hall log ⟨⟨1⟩, 1, 1⟩ (.single (.append ..)) c).mp hmem
  obtain ⟨_, hle, hlt⟩ := IdSpan.contains_iff.mp hid
  exact Nat.not_lt_of_le hle hlt

end ChangeLog

end CausalReplica
