import CausalReplica.Proofs.Log.History
import CausalReplica.Proofs.Log.Import
import CausalReplica.Proofs.Log.Issued

/-!
# Replicas of one history

A replica holds part of what `whole` holds, and its buffer the issued changes that miss something.
Nothing that `whole` issues is refused: it is known, waits for its first missing operation, or goes
in as `whole` has it. What arrives is either absorbed or left waiting.
-/

namespace CausalReplica.ChangeLog

variable {log whole later next : ChangeLog} {c d : Change} {m x y : OpId}

/-- The first operation that keeps `c` out of the log. -/
def missing? (log : ChangeLog) (c : Change) : Option OpId :=
  if log.vv.get c.peer < c.start then some ⟨c.peer, c.start - 1⟩
  else c.deps.ids.find? fun id => !log.contains id

structure ReplicaOf (log whole : ChangeLog) : Prop where
  sound : log.Sound
  partOf : log.PartOf whole
  issued : ∀ m, ∀ c ∈ log.pending.waiting m, whole.Issues c
  filed : ∀ m, ∀ c ∈ log.pending.waiting m, log.missing? c = some m
  nodup : ∀ m, (log.pending.waiting m).Nodup

section Missing

theorem missing?_of_gap (h : log.vv.get c.peer < c.start) :
    log.missing? c = some ⟨c.peer, c.start - 1⟩ :=
  if_pos h

theorem missing?_of_no_gap (h : c.start ≤ log.vv.get c.peer) :
    log.missing? c = c.deps.ids.find? fun id => !log.contains id :=
  if_neg (Nat.not_lt_of_le h)

theorem missing?_spec (h : log.missing? c = some m) : log.contains m = false ∧ m ∈ c.parents := by
  by_cases hgap : log.vv.get c.peer < c.start
  · rw [missing?_of_gap hgap] at h
    cases h
    constructor
    · apply Bool.eq_false_iff.mpr
      intro hin
      have := contains_iff.mp hin
      change c.start - 1 < log.vv.get c.peer at this
      omega
    · apply mem_parents.mpr
      right
      apply prev_eq_some_iff.mpr
      refine ⟨rfl, ?_⟩
      change c.start = c.start - 1 + 1
      omega
  · rw [missing?_of_no_gap (Nat.le_of_not_lt hgap)] at h
    have hmem := List.mem_of_find?_eq_some h
    exact ⟨by simpa using List.find?_some h, mem_parents.mpr (.inl hmem)⟩

/-- While an operation stays missing, it stays the first one missing. -/
theorem missing?_of_grow (h : log.missing? c = some m) (hl : log.Runs) (hr : later.Runs)
    (hgrow : log.PartOf later) (hm : later.contains m = false) : later.missing? c = some m := by
  have hle := hgrow.vv_le hl hr c.peer
  by_cases hgap : log.vv.get c.peer < c.start
  · rw [missing?_of_gap hgap] at h
    cases h
    have hstill : ¬ c.start - 1 < later.vv.get c.peer := by
      intro hlt
      rw [contains_iff.mpr hlt] at hm
      exact nomatch hm
    exact missing?_of_gap (by omega)
  · rw [missing?_of_no_gap (by omega)] at h ⊢
    obtain ⟨_, before, after, hids, hknown⟩ := List.find?_eq_some_iff_append.mp h
    refine List.find?_eq_some_iff_append.mpr ⟨by simp [hm], before, after, hids, fun a ha => ?_⟩
    have hin : log.contains a = true := by simpa using hknown a ha
    simp [hgrow.contains hl hr hin]

theorem lt_stop_of_missing? (h : log.missing? c = some m) (hs : log.Sound) (hw : whole.Sound)
    (hp : log.PartOf whole) (hc : whole.Issues c) : log.vv.get c.peer < c.stop := by
  obtain ⟨hm, hparent⟩ := missing?_spec h
  apply Nat.lt_of_not_le
  intro hknown
  have hlt := (hc.wellFormed hw.runs).start_lt_stop
  have hid : log.contains c.id = true := contains_iff.mpr (Nat.lt_of_lt_of_le hlt hknown)
  have hpar := hp.parent_of_contains hs.runs hw.runs hid (hc.parent hw.runs hparent)
  rw [hs.contains_parent hpar] at hm
  exact nomatch hm

end Missing

section Offer

/-- A known parent has its Lamport time from `whole`, so an issued change is never too early. -/
theorem expected_le_of_partOf (hs : log.Sound) (hw : whole.Sound) (hp : log.PartOf whole)
    (hc : c ∈ whole.changesOf c.peer) :
    LamportClock.assign (c.parents.filterMap log.lamportOf?) ≤ c.lamport := by
  apply LamportClock.assign_le_iff.mpr
  intro l hl
  obtain ⟨x, hx, hxl⟩ := List.mem_filterMap.mp hl
  have hin := hs.runs.lamportOf?_eq_some hxl
  rw [hp.lamportOf? hs.runs hw.runs hin] at hxl
  apply LamportClock.assign_le_iff.mp (hw.expected_le hc) l
  exact List.mem_filterMap.mpr ⟨x, hx, hxl⟩

/-- What may become of an issued change. -/
def Fares (log whole : ChangeLog) (c : Change) : Offer → Prop
  | .added later span =>
    c ∈ whole.changesOf c.peer ∧ log.Admits c ∧ later = log.insert c ∧ span = c.span
  | .known => c.stop ≤ log.vv.get c.peer
  | .blocked m d => log.missing? c = some m ∧ d = c
  | .refused _ => False

theorem offer_issued (hs : log.Sound) (hw : whole.Sound) (hp : log.PartOf whole)
    (hc : whole.Issues c) : log.Fares whole c (log.offer c) := by
  by_cases hknown : c.stop ≤ log.vv.get c.peer
  · have hoffer : log.offer c = .known := if_pos hknown
    rw [hoffer]
    exact hknown
  have hoffer : log.offer c = if log.vv.get c.peer < c.start then .blocked ⟨c.peer, c.start - 1⟩ c
      else log.offerNext (c.sliceFrom (log.vv.get c.peer)) := if_neg hknown
  by_cases hgap : log.vv.get c.peer < c.start
  · rw [hoffer, if_pos hgap]
    exact ⟨missing?_of_gap hgap, rfl⟩
  obtain ⟨d, hd, hbound, hle, heq⟩ :=
    hc.vv_le_start hw.runs hs.runs hp (Nat.lt_of_not_le hknown)
  have hstart : c.start = log.vv.get c.peer := by omega
  have hwhole : c ∈ whole.changesOf c.peer := by
    have hcd : c = d := heq.trans (Change.sliceFrom_of_le (by omega))
    exact hcd ▸ hd
  have hwf := hc.wellFormed hw.runs
  have hfit : c.checkedLamportEnd = some c.lamportEnd :=
    Word.checked_eq_some_iff.mpr ⟨hwf.lamportEnd_le_top, rfl⟩
  rw [hoffer, if_neg hgap, Change.sliceFrom_of_le (Nat.le_of_eq hstart.symm)]
  have hmissing := missing?_of_no_gap (Nat.le_of_eq hstart)
  unfold offerNext
  rw [hfit]
  cases hfind : c.deps.ids.find? fun id => !log.contains id with
  | some m => exact ⟨hmissing.trans hfind, rfl⟩
  | none =>
    have hlam := expected_le_of_partOf hs hw hp hwhole
    have hdeps : ∀ x ∈ c.deps.ids, log.contains x = true := by
      intro x hx
      simpa using List.find?_eq_none.mp hfind x hx
    dsimp only
    rw [if_neg (Nat.not_lt_of_le hlam)]
    exact ⟨hwhole, admits_of_expected_le hs hwf hstart hdeps hlam, rfl, rfl⟩

end Offer

namespace ReplicaOf

theorem insert_partOf (h : log.PartOf whole) (hl : log.Runs) (hw : whole.Runs) (ha : log.Admits c)
    (hc : c ∈ whole.changesOf c.peer) : (log.insert c).PartOf whole := by
  intro p
  rw [changesOf_insert]
  split
  · next hp =>
    rw [hp]
    exact (hw c.peer).prefix_snoc (h c.peer) (ha.start_eq ▸ hl c.peer) hc
  · exact h p

theorem release (h : log.ReplicaOf whole) (p : OpId → Bool) :
    (log.release p).2.ReplicaOf whole := by
  have hsub : ∀ m, ∀ c ∈ (log.release p).2.pending.waiting m, c ∈ log.pending.waiting m := by
    intro m c hc
    change c ∈ (log.pending.release p).2.waiting m at hc
    rw [PendingChanges.waiting_release] at hc
    split at hc
    · exact absurd hc List.not_mem_nil
    · exact hc
  refine ⟨h.sound.withPending _, h.partOf, fun m c hc => h.issued m c (hsub m c hc),
    fun m c hc => h.filed m c (hsub m c hc), fun m => ?_⟩
  change ((log.pending.release p).2.waiting m).Nodup
  rw [PendingChanges.waiting_release]
  split
  · exact List.nodup_nil
  · exact h.nodup m

/-- Inserting a change releases exactly the waiting changes whose missing operation it holds. -/
theorem insert_release (h : log.ReplicaOf whole) (hw : whole.Sound) (ha : log.Admits c)
    (hc : c ∈ whole.changesOf c.peer) :
    ((log.insert c).freedBy c.span).2.ReplicaOf whole := by
  have hrel : ∀ m, ((log.insert c).freedBy c.span).2.pending.waiting m =
      if m.peer = c.peer ∧ m.counter < c.stop then [] else log.pending.waiting m := by
    intro m
    refine PendingChanges.waiting_release.trans (ite_congr ?_ (fun _ => rfl) fun _ => rfl)
    rw [Bool.and_eq_true]
    exact propext (and_congr decide_eq_true_iff decide_eq_true_iff)
  have hleft : ∀ m, ∀ e ∈ ((log.insert c).freedBy c.span).2.pending.waiting m,
      e ∈ log.pending.waiting m ∧ ¬ (m.peer = c.peer ∧ m.counter < c.stop) := by
    intro m e he
    rw [hrel] at he
    split at he
    · exact absurd he List.not_mem_nil
    · next hm => exact ⟨he, hm⟩
  have hruns := ha.runs_insert h.sound.runs
  refine ⟨(ha.sound_insert h.sound).withPending _,
    insert_partOf h.partOf h.sound.runs hw.runs ha hc, ?_, ?_, ?_⟩
  · intro m e he
    exact h.issued m e (hleft m e he).1
  · intro m e he
    obtain ⟨hold, hm⟩ := hleft m e he
    have hmiss := h.filed m e hold
    apply missing?_of_grow hmiss h.sound.runs hruns partOf_insert
    apply Bool.eq_false_iff.mpr
    intro hin
    rcases ha.contains_insert.mp hin with hin | hin
    · rw [(missing?_spec hmiss).1] at hin
      exact nomatch hin
    · obtain ⟨hp, _, hlt⟩ := Change.contains_iff.mp hin
      exact hm ⟨hp, hlt⟩
  · intro m
    rw [hrel]
    split
    · exact List.nodup_nil
    · exact h.nodup m

theorem withPending_add (h : log.ReplicaOf whole) (hc : whole.Issues c)
    (hm : log.missing? c = some m) :
    ReplicaOf { log with pending := log.pending.add m c } whole where
  sound := h.sound.withPending _
  partOf := h.partOf
  issued := fun n d hd => by
    rcases PendingChanges.mem_waiting_add hd with hd | ⟨_, rfl⟩
    · exact h.issued n d hd
    · exact hc
  filed := fun n d hd => by
    rcases PendingChanges.mem_waiting_add hd with hd | ⟨rfl, rfl⟩
    · exact h.filed n d hd
    · exact hm
  nodup := fun _ => PendingChanges.nodup_waiting_add h.nodup

theorem mem_toList_add (h : log.ReplicaOf whole) (hw : whole.Runs) (hc : whole.Issues c) :
    d ∈ (log.pending.add m c).toList ↔ d ∈ log.pending.toList ∨ d = c := by
  have hid : ∀ w ∈ log.pending.waiting m, w.id = c.id → w.stop = c.stop → w = c := by
    intro w hmem heq _
    exact (h.issued m w hmem).eq_of_id hc hw heq
  rw [PendingChanges.mem_toList, PendingChanges.mem_toList]
  constructor
  · intro ⟨n, hn⟩
    rcases PendingChanges.mem_waiting_add hn with hn | ⟨_, hd⟩
    · exact .inl ⟨n, hn⟩
    · exact .inr hd
  · intro hd
    rcases hd with ⟨n, hn⟩ | hd
    · exact ⟨n, (PendingChanges.mem_waiting_add_iff hid).mpr (.inl hn)⟩
    · exact ⟨m, (PendingChanges.mem_waiting_add_iff hid).mpr (.inr ⟨rfl, hd⟩)⟩

theorem lt_stop_of_waiting (h : log.ReplicaOf whole) (hw : whole.Sound)
    (hc : c ∈ log.pending.toList) : log.vv.get c.peer < c.stop := by
  obtain ⟨m, hm⟩ := PendingChanges.mem_toList.mp hc
  exact lt_stop_of_missing? (h.filed m c hm) h.sound hw h.partOf (h.issued m c hm)

theorem issues_of_waiting (h : log.ReplicaOf whole) (hc : c ∈ log.pending.toList) :
    whole.Issues c := by
  obtain ⟨m, hm⟩ := PendingChanges.mem_toList.mp hc
  exact h.issued m c hm

end ReplicaOf

end CausalReplica.ChangeLog
