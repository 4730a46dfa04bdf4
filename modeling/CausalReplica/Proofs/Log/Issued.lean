import CausalReplica.Proofs.Log.Sound

/-!
# Issued changes

What a log hands out are its changes, some of them without their beginnings. A part of the log that
does not know all of such a change knows none of it, since it ends where a change ends.
-/

namespace CausalReplica.ChangeLog

variable {log whole : ChangeLog} {c d : Change} {x : OpId} {v : VersionVector}

/-- `c` is what is left of a change of the log from some counter on. -/
def Issues (log : ChangeLog) (c : Change) : Prop :=
  ∃ d ∈ log.changesOf c.peer, d.start ≤ c.start ∧ c.start < d.stop ∧ c = d.sliceFrom c.start

theorem issues_sliceFrom (h : log.Runs) {p : Peer} {k : Nat} (hd : d ∈ log.changesOf p)
    (hk : k < d.stop) : log.Issues (d.sliceFrom k) := by
  obtain ⟨hp, hwf, _⟩ := (h p).mem hd
  have hlt := hwf.start_lt_stop
  have hstart : (d.sliceFrom k).start = max d.start k := Change.start_sliceFrom
  refine ⟨d, ?_, by omega, by omega, ?_⟩
  · rw [Change.peer_sliceFrom, hp]
    exact hd
  · by_cases hle : k ≤ d.start
    · rw [Change.sliceFrom_of_le hle, Change.sliceFrom_of_le (Nat.le_refl _)]
    · rw [hstart, Nat.max_eq_right (by omega)]

theorem mem_changesSince (h : log.Runs) :
    c ∈ log.changesSince v ↔
      ∃ d ∈ log.changesOf c.peer, v.get c.peer < d.stop ∧ c = d.sliceFrom (v.get c.peer) := by
  unfold changesSince
  rw [List.mem_mergeSort, List.mem_flatMap]
  constructor
  · intro ⟨s, hs, hc⟩
    obtain ⟨d, hd, rfl⟩ := List.mem_map.mp hc
    obtain ⟨hmem, hstop, _⟩ := (mem_changesIn h).mp hd
    have hp : (d.sliceFrom s.start).peer = s.peer :=
      Change.peer_sliceFrom.trans ((h s.peer).mem hmem).1
    have hstart := (VersionVector.mem_missingFrom.mp hs).1
    rw [hp, ← hstart]
    exact ⟨d, hmem, hstop, rfl⟩
  · intro ⟨d, hd, hk, hc⟩
    obtain ⟨_, hwf, _, hle⟩ := (h c.peer).mem hd
    have hlt := hwf.start_lt_stop
    refine ⟨⟨c.peer, v.get c.peer, log.vv.get c.peer⟩, ?_, ?_⟩
    · exact VersionVector.mem_missingFrom.mpr ⟨rfl, Nat.lt_of_lt_of_le hk hle, rfl⟩
    · refine List.mem_map.mpr ⟨d, (mem_changesIn h).mpr ⟨hd, hk, ?_⟩, hc.symm⟩
      exact Nat.lt_of_lt_of_le hlt hle

/-- What is handed out of one peer's changes is a run. -/
theorem exists_run_changesIn (h : log.Runs) {s : IdSpan} :
    ∃ first last, Change.Run s.peer first last
      ((log.changesIn s).map (·.sliceFrom s.start)) := by
  obtain ⟨mid, hdrop⟩ := (h s.peer).dropWhile fun c => c.stop ≤ s.start
  obtain ⟨last, htake⟩ : ∃ last, Change.Run s.peer mid last (log.changesIn s) :=
    h.changesIn_eq s ▸ hdrop.takeWhile _
  obtain ⟨first, hrun⟩ := htake.map_sliceFrom fun c hc => ((mem_changesIn h).mp hc).2.1
  exact ⟨first, last, hrun⟩

theorem nodup_changesSince (h : log.Runs) : (log.changesSince v).Nodup := by
  apply (List.mergeSort_perm _ _).nodup_iff.mpr
  apply List.pairwise_flatMap.mpr
  constructor
  · intro s _
    obtain ⟨_, _, hrun⟩ := exists_run_changesIn h (s := s)
    exact hrun.nodup
  · have hpeers : (log.vv.missingFrom v).Pairwise fun s t => s.peer ≠ t.peer := by
      apply List.pairwise_filterMap.mpr
      apply log.vv.ends.ascending.imp
      intro e f hlt s hs t ht
      dsimp only at hs ht
      split at hs
      · split at ht
        · cases hs
          cases ht
          exact Ordered.ne_of_lt hlt
        · exact nomatch ht
      · exact nomatch hs
    apply hpeers.imp
    intro s t hne c hc d hd heq
    obtain ⟨_, _, hs⟩ := exists_run_changesIn h (s := s)
    obtain ⟨_, _, ht⟩ := exists_run_changesIn h (s := t)
    subst heq
    exact hne ((hs.mem hc).1.symm.trans (ht.mem hd).1)

/-- The changes of one peer among those handed out, in counter order. -/
theorem exists_run_changesSince (h : log.Runs) (p : Peer) :
    ∃ first last run, Change.Run p first last run ∧
      ((log.changesSince v).filter fun c => c.peer = p).Perm run := by
  obtain ⟨first, last, hrun⟩ := exists_run_changesIn h (s := ⟨p, v.get p, log.vv.get p⟩)
  refine ⟨first, last, _, hrun, ?_⟩
  have hnodup := (nodup_changesSince h (v := v)).filter fun c => decide (c.peer = p)
  apply (List.perm_ext_iff_of_nodup hnodup hrun.nodup).mpr
  intro c
  rw [List.mem_filter, decide_eq_true_eq, mem_changesSince h, List.mem_map]
  constructor
  · intro ⟨⟨d, hd, hk, hc⟩, hp⟩
    rw [hp] at hd hk hc
    have hwf := (h p).mem hd
    have hlt := hwf.2.1.start_lt_stop
    exact ⟨d, (mem_changesIn h).mpr ⟨hd, hk, Nat.lt_of_lt_of_le hlt hwf.2.2.2⟩, hc.symm⟩
  · intro ⟨d, hd, hc⟩
    obtain ⟨hmem, hk, _⟩ := (mem_changesIn h).mp hd
    have hp : c.peer = p := by
      rw [← hc, Change.peer_sliceFrom]
      exact ((h p).mem hmem).1
    rw [hp]
    exact ⟨⟨d, hmem, hk, hc.symm⟩, rfl⟩

theorem issues_changesSince (h : log.Runs) (hc : c ∈ log.changesSince v) : log.Issues c := by
  obtain ⟨d, hd, hk, heq⟩ := (mem_changesSince h).mp hc
  rw [heq]
  exact issues_sliceFrom h hd hk

/-- The operations that `v` does not cover are those of the changes handed out. -/
theorem exists_mem_changesSince (h : log.Runs) (hx : log.contains x = true)
    (hv : v.includes x = false) : ∃ c ∈ log.changesSince v, c.contains x = true := by
  obtain ⟨d, hd, hdx⟩ := h.exists_change hx
  obtain ⟨hp, hle, hlt⟩ := Change.contains_iff.mp hdx
  have hnew : v.get x.peer ≤ x.counter := by
    have := mt VersionVector.includes_iff.mpr (by rw [hv]; exact Bool.false_ne_true)
    omega
  have hpeer : (d.sliceFrom (v.get x.peer)).peer = x.peer := Change.peer_sliceFrom.trans hp.symm
  have hk : v.get x.peer < d.stop := by omega
  refine ⟨d.sliceFrom (v.get x.peer), (mem_changesSince h).mpr ⟨d, ?_, ?_, ?_⟩, ?_⟩
  · rwa [hpeer]
  · rwa [hpeer]
  · rw [hpeer]
  · refine Change.contains_iff.mpr ⟨hpeer.symm, ?_, ?_⟩
    · rw [Change.start_sliceFrom]
      omega
    · rwa [Change.stop_sliceFrom hk]

namespace Issues

theorem mono (h : log.Issues c) (hp : log.PartOf whole) : whole.Issues c := by
  obtain ⟨d, hd, hc⟩ := h
  exact ⟨d, hp.mem hd, hc⟩

theorem wellFormed (h : log.Issues c) (hr : log.Runs) : c.WellFormed := by
  obtain ⟨d, hd, _, hlt, heq⟩ := h
  rw [heq]
  exact ((hr c.peer).mem hd).2.1.sliceFrom hlt

theorem exists_change (h : log.Issues c) :
    ∃ d ∈ log.changesOf c.peer, d.start ≤ c.start ∧ c.start < d.stop ∧ c.stop = d.stop ∧
      c = d.sliceFrom c.start := by
  obtain ⟨d, hd, hle, hlt, heq⟩ := h
  refine ⟨d, hd, hle, hlt, ?_, heq⟩
  rw [heq]
  exact Change.stop_sliceFrom hlt

theorem contains (h : log.Issues c) (hr : log.Runs) (hx : c.contains x = true) :
    log.contains x = true := by
  obtain ⟨d, hd, hle, _, hstop, _⟩ := h.exists_change
  obtain ⟨hp, hxle, hxlt⟩ := Change.contains_iff.mp hx
  obtain ⟨hpeer, _, _, hend⟩ := (hr c.peer).mem hd
  apply contains_iff.mpr
  rw [hp]
  omega

theorem eq_of_id (hc : log.Issues c) (hd : log.Issues d) (hr : log.Runs) (h : c.id = d.id) :
    c = d := by
  obtain ⟨e, he, hle, hlt, hce⟩ := hc
  obtain ⟨f, hf, hfle, hflt, hdf⟩ := hd
  have hp : c.peer = d.peer := congrArg OpId.peer h
  have hs : c.start = d.start := congrArg OpId.counter h
  rw [← hp] at hf
  rw [← hs] at hfle hflt
  have hef := (hr c.peer).eq_of_holding he hf ⟨hle, hlt⟩ ⟨hfle, hflt⟩
  rw [hce, hdf, hef, hs]

theorem parent (h : log.Issues c) (hr : log.Runs) (hx : x ∈ c.parents) : log.Parent x c.id := by
  obtain ⟨d, hd, hle, hlt, heq⟩ := h
  have hin : d.contains c.id = true :=
    Change.contains_iff.mpr ⟨((hr c.peer).mem hd).1.symm, hle, hlt⟩
  refine ⟨d, hd, hin, ?_⟩
  rcases List.mem_append.mp hx with hdep | hprev
  · by_cases hcut : d.start < c.start
    · -- The beginning that was cut off ends in the operation right before the rest.
      rw [heq, Change.deps_sliceFrom hcut] at hdep
      have hxeq := List.mem_singleton.mp hdep
      left
      apply prev_eq_some_iff.mpr
      rw [hxeq]
      refine ⟨((hr c.peer).mem hd).1, ?_⟩
      change c.start = c.start - 1 + 1
      omega
    · right
      rwa [heq, Change.sliceFrom_of_le (by omega)] at hdep
  · exact .inl (Option.mem_toList.mp hprev)

/-- A part of the log that does not know all of an issued change knows nothing from its start on. -/
theorem vv_le_start (h : whole.Issues c) (hw : whole.Runs) (hl : log.Runs) (hp : log.PartOf whole)
    (hnew : log.vv.get c.peer < c.stop) :
    ∃ d ∈ whole.changesOf c.peer, log.vv.get c.peer ≤ d.start ∧ d.start ≤ c.start ∧
      c = d.sliceFrom c.start := by
  obtain ⟨d, hd, hle, _, hstop, heq⟩ := h.exists_change
  rcases (hw c.peer).stop_le_or_le_start (hp c.peer) (hl c.peer) hd with ⟨_, hknown⟩ | hbefore
  · omega
  · exact ⟨d, hd, hbefore, hle, heq⟩

end Issues

end CausalReplica.ChangeLog
