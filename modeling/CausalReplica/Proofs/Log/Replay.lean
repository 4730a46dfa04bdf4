import CausalReplica.Proofs.Change.Atom
import CausalReplica.Proofs.Log.Issued
import CausalReplica.Proofs.Log.Reachable
import CausalReplica.Proofs.Sorting

/-!
# Replaying a log

What a log hands out beyond a version vector is the rest of its history: every operation once, as
the log has it, and every change after what it depends on. Since a change is later in Lamport time
than its dependencies, sorting by Lamport time is enough for that.
-/

namespace CausalReplica.ChangeLog

variable {log : ChangeLog} {c d : Change} {x y : OpId} {v : VersionVector}

/-- The changes are the rest of the log after `v`, in an order in which they can be replayed. -/
structure Remainder (log : ChangeLog) (v : VersionVector) (cs : List Change) : Prop where
  covers : ∀ x, (∃ c ∈ cs, c.contains x = true) ↔
    v.get x.peer ≤ x.counter ∧ x.counter < log.vv.get x.peer
  disjoint : cs.Pairwise fun c d => ∀ x, c.contains x = true → d.contains x = false
  lamport_eq : ∀ c ∈ cs, ∀ x, c.contains x = true →
    log.lamportOf? x = some (c.lamportOf x.counter)
  content_eq : ∀ c ∈ cs, ∀ x, c.contains x = true → ∃ d atom, log.find? x = some d ∧
    c.timestamp = d.timestamp ∧ c.atom? x.counter = some atom ∧ d.atom? x.counter = some atom
  causal : ∀ before c after, cs = before ++ c :: after → ∀ x ∈ c.parents,
    v.includes x = true ∨ ∃ d ∈ before, d.contains x = true

section ChangesSince

theorem exists_source (h : log.Runs) (hc : c ∈ log.changesSince v) (hx : c.contains x = true) :
    ∃ d ∈ log.changesOf x.peer, d.contains x = true ∧ v.get x.peer ≤ x.counter ∧
      c = d.sliceFrom (v.get x.peer) := by
  obtain ⟨hp, hle, hlt⟩ := Change.contains_iff.mp hx
  obtain ⟨d, hd, hk, heq⟩ := (mem_changesSince h).mp hc
  obtain ⟨hpeer, _⟩ := (h c.peer).mem hd
  have hstart : c.start = max d.start (v.get c.peer) := by rw [heq, Change.start_sliceFrom, ← heq]
  have hstop : c.stop = d.stop := by rw [heq, Change.stop_sliceFrom (heq ▸ hk)]
  rw [hp]
  refine ⟨d, hd, Change.contains_iff.mpr ⟨hp.trans hpeer.symm, ?_, ?_⟩, ?_, heq⟩
  · omega
  · omega
  · omega

theorem eq_of_mem_changesSince (h : log.Runs) (hc : c ∈ log.changesSince v)
    (hd : d ∈ log.changesSince v) (hcx : c.contains x = true) (hdx : d.contains x = true) :
    c = d := by
  obtain ⟨e, he, hex, _, hce⟩ := exists_source h hc hcx
  obtain ⟨f, hf, hfx, _, hdf⟩ := exists_source h hd hdx
  rw [hce, hdf, h.eq_of_contains he hf hex hfx]

theorem covers_changesSince (h : log.Runs) :
    (∃ c ∈ log.changesSince v, c.contains x = true) ↔
      v.get x.peer ≤ x.counter ∧ x.counter < log.vv.get x.peer := by
  constructor
  · intro ⟨c, hc, hx⟩
    obtain ⟨d, hd, hdx, hnew, _⟩ := exists_source h hc hx
    exact ⟨hnew, contains_iff.mp (h.contains_of_mem hd hdx)⟩
  · intro ⟨hnew, hin⟩
    refine exists_mem_changesSince h (contains_iff.mpr hin) ?_
    rw [Bool.eq_false_iff]
    exact fun hv => Nat.not_lt_of_le hnew (VersionVector.includes_iff.mp hv)

theorem disjoint_changesSince (h : log.Runs) :
    (log.changesSince v).Pairwise fun c d => ∀ x, c.contains x = true → d.contains x = false := by
  apply (nodup_changesSince h).imp_of_mem
  intro c d hc hd hne x hcx
  rw [Bool.eq_false_iff]
  exact fun hdx => hne (eq_of_mem_changesSince h hc hd hcx hdx)

theorem Issues.lamportOf? (hc : log.Issues c) (h : log.Runs) (hx : c.contains x = true) :
    log.lamportOf? x = some (c.lamportOf x.counter) := by
  obtain ⟨d, hd, hle, hlt, hstop, heq⟩ := hc.exists_change
  obtain ⟨hp, hxle, hxlt⟩ := Change.contains_iff.mp hx
  obtain ⟨hpeer, hwf, _⟩ := (h c.peer).mem hd
  have hdx : d.contains x = true :=
    Change.contains_iff.mpr ⟨hp.trans hpeer.symm, by omega, by omega⟩
  have hlam : c.lamport = d.lamport + (c.start - d.start) := by
    rw [heq, hwf.lamport_sliceFrom hlt, ← heq]
  rw [← hp] at hd
  rw [h.lamportOf?_of_mem hd hdx, (hc.wellFormed h).lamportOf_eq hxlt]
  exact congrArg some (by omega)

theorem content_changesSince (h : log.Runs)
    (hcut : ∀ c ∈ log.allChanges, c.CutFits (v.get c.peer)) (hc : c ∈ log.changesSince v)
    (hx : c.contains x = true) :
    ∃ d atom, log.find? x = some d ∧ c.timestamp = d.timestamp ∧
      c.atom? x.counter = some atom ∧ d.atom? x.counter = some atom := by
  obtain ⟨d, hd, hdx, hnew, heq⟩ := exists_source h hc hx
  obtain ⟨hp, hle, hlt⟩ := Change.contains_iff.mp hdx
  have hwf := ((h x.peer).mem hd).2.1
  obtain ⟨atom, hatom⟩ := hwf.exists_atom hle hlt
  have hfits : d.CutFits (v.get x.peer) := hp ▸ hcut d (mem_allChanges.mpr ⟨x.peer, hd⟩)
  refine ⟨d, atom, h.find?_of_mem hd hdx, ?_, ?_, hatom⟩
  · rw [heq, Change.timestamp_sliceFrom]
  · rw [heq, hwf.atom?_sliceFrom hfits hnew, hatom]

/-- An issued change that holds a parent of another one is earlier in Lamport time. -/
theorem Issues.lamport_lt (hc : log.Issues c) (hd : log.Issues d) (h : log.Sound)
    (hx : x ∈ c.parents) (hdx : d.contains x = true) : d.lamport < c.lamport := by
  have hwf := hc.wellFormed h.runs
  have hfirst : c.lamportOf c.id.counter = c.lamport + (c.start - c.start) :=
    hwf.lamportOf_eq hwf.start_lt_stop
  have hholds : d.lamportOf x.counter = d.lamport + (x.counter - d.start) :=
    (hd.wellFormed h.runs).lamportOf_eq (Change.contains_iff.mp hdx).2.2
  obtain ⟨l, m, hl, hm, hlt⟩ := h.lamport_lt_of_parent (hc.parent h.runs hx)
  rw [hd.lamportOf? h.runs hdx] at hl
  rw [hc.lamportOf? h.runs hwf.contains_id] at hm
  cases hl
  cases hm
  omega

/-- What a listed change depends on is covered by `v` or was listed before it. -/
theorem causal_changesSince (h : log.Sound) {before after : List Change}
    (hsplit : log.changesSince v = before ++ c :: after) (hx : x ∈ c.parents) :
    v.includes x = true ∨ ∃ d ∈ before, d.contains x = true := by
  have hc : c ∈ log.changesSince v := by
    rw [hsplit]
    exact List.mem_append_right _ List.mem_cons_self
  have hissue := issues_changesSince h.runs hc
  have hin := h.contains_parent (hissue.parent h.runs hx)
  by_cases hv : v.includes x = true
  · exact .inl hv
  · obtain ⟨d, hd, hdx⟩ := exists_mem_changesSince h.runs hin (Bool.eq_false_iff.mpr hv)
    have hlt := hissue.lamport_lt (issues_changesSince h.runs hd) h hx hdx
    exact .inr ⟨d, Change.mem_before_of_mergeSort hsplit hd hlt, hdx⟩

end ChangesSince

theorem Runs.nodup_allChanges (h : log.Runs) : log.allChanges.Nodup := by
  apply OrdMap.nodup_flatten_values fun p => (h p).nodup
  intro p q c hp hq
  exact ((h p).mem hp).1.symm.trans ((h q).mem hq).1

theorem Runs.changesSince_empty (h : log.Runs) :
    log.changesSince .empty = log.changesInCausalOrder := by
  have hwhole : ∀ d : Change, d.sliceFrom (VersionVector.empty.get d.peer) = d :=
    fun d => Change.sliceFrom_of_le (Nat.zero_le _)
  have hmem : ∀ c, c ∈ log.changesSince .empty ↔ c ∈ log.allChanges := by
    intro c
    rw [mem_changesSince h, mem_allChanges]
    constructor
    · intro ⟨d, hd, _, heq⟩
      have hp := ((h c.peer).mem hd).1
      rw [← hp, hwhole] at heq
      exact ⟨c.peer, heq ▸ hd⟩
    · intro ⟨p, hp⟩
      obtain ⟨rfl, hwf, _⟩ := (h p).mem hp
      exact ⟨c, hp, Nat.zero_lt_of_lt hwf.start_lt_stop, (hwhole c).symm⟩
  have hperm := (List.perm_ext_iff_of_nodup (nodup_changesSince h) h.nodup_allChanges).mpr hmem
  have hunsorted := (List.mergeSort_perm _ Change.causalKeyLe).symm.trans hperm
  apply Change.mergeSort_eq_of_perm hunsorted
  intro c hc d hd hid
  have hissued : ∀ e, e ∈ log.changesSince .empty → log.Issues e :=
    fun e he => issues_changesSince h he
  exact (hissued c (List.mem_mergeSort.mpr hc)).eq_of_id
    (hissued d (List.mem_mergeSort.mpr hd)) h hid

theorem Sound.changesSince_remainder (h : log.Sound)
    (hcut : ∀ c ∈ log.allChanges, c.CutFits (v.get c.peer)) :
    log.Remainder v (log.changesSince v) where
  covers := fun _ => covers_changesSince h.runs
  disjoint := disjoint_changesSince h.runs
  lamport_eq := fun _ hc _ hx => (issues_changesSince h.runs hc).lamportOf? h.runs hx
  content_eq := fun _ hc _ hx => content_changesSince h.runs hcut hc hx
  causal := fun _ _ _ hsplit _ hx => causal_changesSince h hsplit hx

/-- Lamport time and peer tell any two operations of a log apart. -/
theorem Sound.eq_of_lamportOf? (h : log.Sound) (hx : log.contains x = true)
    (hy : log.contains y = true) (hp : x.peer = y.peer)
    (hl : log.lamportOf? x = log.lamportOf? y) : x = y := by
  have hno : ∀ {x y : OpId}, log.contains y = true → x.peer = y.peer →
      log.lamportOf? x = log.lamportOf? y → ¬ x.counter < y.counter := by
    intro x y hy hp hl hlt
    have hle := h.runs.atOrBefore_of_le hp (Nat.le_of_lt hlt) hy
    rcases Relation.reflTransGen_iff_eq_or_transGen.mp hle with rfl | hbefore
    · exact Nat.lt_irrefl _ hlt
    · obtain ⟨l, m, hl', hm, hlm⟩ := h.lamport_lt_of_before hbefore
      rw [hl, hm] at hl'
      exact Nat.lt_irrefl _ (Option.some.inj hl' ▸ hlm)
  refine OpId.ext hp (Nat.le_antisymm ?_ ?_)
  · exact Nat.le_of_not_lt (hno hx hp.symm hl.symm)
  · exact Nat.le_of_not_lt (hno hy hp hl)

/-- Every log that calls lead to hands out the rest of its history in causal order. -/
theorem replay_order (h : Steps empty log)
    (hcut : ∀ c ∈ log.allChanges, c.CutFits (v.get c.peer)) :
    log.Remainder v (log.changesSince v) ∧
      (∀ x y, log.contains x = true → log.contains y = true → x.peer = y.peer →
        log.lamportOf? x = log.lamportOf? y → x = y) ∧
      log.changesSince .empty = log.changesInCausalOrder := by
  have hs := (h.intact intact_empty).1.sound
  exact ⟨hs.changesSince_remainder hcut, fun _ _ => hs.eq_of_lamportOf?,
    hs.runs.changesSince_empty⟩

/-- The vector ends inside a change that another one depends on. -/
theorem replay_order_cut_text :
    let typed := empty.appended ⟨1⟩ [(.root "t" .text, .insertText 0 "abc")] .empty 0
    let log := typed.appended ⟨2⟩ [(.root "m" .map, .setKey "k" none)] (.ofId ⟨⟨1⟩, 2⟩) 0
    let v := VersionVector.ofList [(⟨1⟩, 1)]
    log.Remainder v (log.changesSince v) ∧
      (∀ x y, log.contains x = true → log.contains y = true → x.peer = y.peer →
        log.lamportOf? x = log.lamportOf? y → x = y) ∧
      log.changesSince .empty = log.changesInCausalOrder := by
  intro typed log v
  have append : Steps empty typed := .single (.append ..)
  exact replay_order (append.tail (.append ..)) (by decide)

end CausalReplica.ChangeLog
