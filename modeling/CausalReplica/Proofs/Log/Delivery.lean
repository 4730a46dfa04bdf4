import CausalReplica.Proofs.Id.Reordering
import CausalReplica.Proofs.Log.Replica

/-!
# Deliveries to a replica

However the issued changes that reach a replica are grouped, ordered and repeated, an operation is
in the log in the end if and only if all its history arrived or was there, and exactly the changes
that are not known in full are left waiting.
-/

namespace CausalReplica.ChangeLog

variable {log whole mid final : ChangeLog} {c d : Change} {x y : OpId}
  {queue arrived xs ys : List Change} {batches : List (List Change)}

def deliver (log : ChangeLog) : List (List Change) → ChangeLog
  | [] => log
  | batch :: batches => (log.importChanges batch).1.deliver batches

/-- No import of the batches, one by one, reports an error. -/
def Accepts (log : ChangeLog) : List (List Change) → Prop
  | [] => True
  | batch :: batches =>
    (log.importChanges batch).2.2 = none ∧ (log.importChanges batch).1.Accepts batches

/-- What arrived at `log` is known or waits in `final`, and nothing else came in. -/
structure Absorbs (whole log : ChangeLog) (arrived : List Change) (final : ChangeLog) : Prop where
  replica : final.ReplicaOf whole
  grows : log.PartOf final
  known_or_waiting : ∀ c ∈ arrived,
    c.stop ≤ final.vv.get c.peer ∨ c ∈ final.pending.toList
  stored_from : ∀ p, ∀ c ∈ final.changesOf p, c ∈ log.changesOf p ∨ c ∈ arrived
  waiting_from : ∀ c ∈ final.pending.toList, c ∈ arrived

namespace Absorbs

theorem refl (h : log.ReplicaOf whole) : Absorbs whole log log.pending.toList log where
  replica := h
  grows := .refl log
  known_or_waiting := fun _ hc => .inr hc
  stored_from := fun _ _ hc => .inl hc
  waiting_from := fun _ hc => hc

theorem of_mem_iff (h : Absorbs whole log xs final) (heq : ∀ c, c ∈ xs ↔ c ∈ ys) :
    Absorbs whole log ys final where
  replica := h.replica
  grows := h.grows
  known_or_waiting := fun c hc => h.known_or_waiting c ((heq c).mpr hc)
  stored_from := fun p c hc => (h.stored_from p c hc).imp_right (heq c).mp
  waiting_from := fun c hc => (heq c).mp (h.waiting_from c hc)

/-- What waited before counts only as arrived. -/
theorem of_withPending {b : PendingChanges}
    (h : Absorbs whole { log with pending := b } arrived final) :
    Absorbs whole log arrived final where
  replica := h.replica
  grows := h.grows
  known_or_waiting := h.known_or_waiting
  stored_from := h.stored_from
  waiting_from := h.waiting_from

theorem trans (h : Absorbs whole log (xs ++ log.pending.toList) mid)
    (h' : Absorbs whole mid (ys ++ mid.pending.toList) final) :
    Absorbs whole log ((xs ++ ys) ++ log.pending.toList) final := by
  have hsub : ∀ c, c ∈ xs ++ log.pending.toList → c ∈ (xs ++ ys) ++ log.pending.toList := by
    intro c hc
    rcases List.mem_append.mp hc with hc | hc
    · exact List.mem_append_left _ (List.mem_append_left _ hc)
    · exact List.mem_append_right _ hc
  have hlater : ∀ c, c ∈ ys ++ mid.pending.toList → c ∈ (xs ++ ys) ++ log.pending.toList := by
    intro c hc
    rcases List.mem_append.mp hc with hc | hc
    · exact List.mem_append_left _ (List.mem_append_right _ hc)
    · exact hsub c (h.waiting_from c hc)
  have hfirst : ∀ c ∈ xs ++ log.pending.toList,
      c.stop ≤ final.vv.get c.peer ∨ c ∈ final.pending.toList := by
    intro c hc
    rcases h.known_or_waiting c hc with hknown | hwait
    · have hle := h'.grows.vv_le h.replica.sound.runs h'.replica.sound.runs c.peer
      exact .inl (Nat.le_trans hknown hle)
    · exact h'.known_or_waiting c (List.mem_append_right _ hwait)
  refine ⟨h'.replica, h.grows.trans h'.grows, fun c hc => ?_, fun p c hc => ?_, fun c hc => ?_⟩
  · rcases List.mem_append.mp hc with hc | hc
    · rcases List.mem_append.mp hc with hc | hc
      · exact hfirst c (List.mem_append_left _ hc)
      · exact h'.known_or_waiting c (List.mem_append_left _ hc)
    · exact hfirst c (List.mem_append_right _ hc)
  · rcases h'.stored_from p c hc with hc | hc
    · exact (h.stored_from p c hc).imp_right (hsub c)
    · exact .inr (hlater c hc)
  · exact hlater c (h'.waiting_from c hc)

/-- A change that goes in, and then whatever becomes of the rest and of what it releases. -/
theorem of_insert (ha : log.Admits c) (hr : (log.insert c).Runs)
    (h : Absorbs whole ((log.insert c).freedBy c.span).2
      ((xs ++ ((log.insert c).freedBy c.span).1) ++
        ((log.insert c).freedBy c.span).2.pending.toList) final) :
    Absorbs whole log ((c :: xs) ++ log.pending.toList) final := by
  have hmem : ∀ e, e ∈ (xs ++ ((log.insert c).freedBy c.span).1) ++
      ((log.insert c).freedBy c.span).2.pending.toList ↔ e ∈ xs ∨ e ∈ log.pending.toList := by
    intro e
    rw [List.append_assoc, List.mem_append, List.mem_append]
    exact or_congr_right PendingChanges.mem_release_or_left
  have hback : ∀ e, e ∈ xs ∨ e ∈ log.pending.toList → e ∈ (c :: xs) ++ log.pending.toList := by
    intro e he
    rcases he with he | he
    · exact List.mem_append_left _ (List.mem_cons_of_mem c he)
    · exact List.mem_append_right _ he
  refine ⟨h.replica, partOf_insert.trans h.grows, fun e he => ?_, fun p e he => ?_, fun e he => ?_⟩
  · rcases List.mem_append.mp he with he | he
    · rcases List.mem_cons.mp he with rfl | he
      · have hle : (log.insert e).vv.get e.peer ≤ final.vv.get e.peer :=
          h.grows.vv_le hr h.replica.sound.runs e.peer
        rw [get_vv_insert, if_pos rfl] at hle
        exact .inl hle
      · exact h.known_or_waiting e ((hmem e).mpr (.inl he))
    · exact h.known_or_waiting e ((hmem e).mpr (.inr he))
  · rcases h.stored_from p e he with he | he
    · rcases mem_changesOf_insert.mp he with he | ⟨_, rfl⟩
      · exact .inl he
      · exact .inr (List.mem_append_left _ List.mem_cons_self)
    · exact .inr (hback e ((hmem e).mp he))
  · exact hback e ((hmem e).mp (h.waiting_from e he))

end Absorbs

namespace ReplicaOf

/-- Nothing that `whole` issued is lost or refused when a queue of it is settled. -/
theorem settle (h : log.ReplicaOf whole) (hw : whole.Sound) (hq : ∀ c ∈ queue, whole.Issues c) :
    Absorbs whole log (queue ++ log.pending.toList) (log.settle queue).log ∧
      (log.settle queue).firstError = none := by
  induction log, queue using settle.induct with
  | case1 log =>
    rw [settle_nil]
    exact ⟨.refl h, rfl⟩
  | case2 log c rest next span ho freed ih =>
    have hfares := offer_issued h.sound hw h.partOf (hq c List.mem_cons_self)
    rw [ho] at hfares
    obtain ⟨hc, ha, rfl, rfl⟩ := hfares
    have hqueue : ∀ e ∈ rest ++ freed.1, whole.Issues e := by
      intro e hmem
      rcases List.mem_append.mp hmem with hmem | hmem
      · exact hq e (List.mem_cons_of_mem c hmem)
      · obtain ⟨m, _, hm⟩ := PendingChanges.mem_release.mp hmem
        exact h.issued m e hm
    obtain ⟨habs, herr⟩ := ih (h.insert_release hw ha hc) hqueue
    rw [settle_added ho]
    exact ⟨.of_insert ha (ha.runs_insert h.sound.runs) habs, herr⟩
  | case3 log c rest ho ih =>
    have hknown := offer_issued h.sound hw h.partOf (hq c List.mem_cons_self)
    rw [ho] at hknown
    obtain ⟨habs, herr⟩ := ih h fun e he => hq e (List.mem_cons_of_mem c he)
    rw [settle_known ho]
    refine ⟨⟨habs.replica, habs.grows, fun e he => ?_, fun p e he => ?_, fun e he => ?_⟩, herr⟩
    · rcases List.mem_cons.mp he with rfl | he
      · have hle := habs.grows.vv_le h.sound.runs habs.replica.sound.runs e.peer
        exact .inl (Nat.le_trans hknown hle)
      · exact habs.known_or_waiting e he
    · exact (habs.stored_from p e he).imp_right (List.mem_cons_of_mem c)
    · exact List.mem_cons_of_mem c (habs.waiting_from e he)
  | case4 log c rest m d ho ih =>
    have hissue := hq c List.mem_cons_self
    have hfares := offer_issued h.sound hw h.partOf hissue
    rw [ho] at hfares
    obtain ⟨hmiss, rfl⟩ := hfares
    obtain ⟨habs, herr⟩ := ih (h.withPending_add hissue hmiss)
      fun e he => hq e (List.mem_cons_of_mem d he)
    rw [settle_blocked ho]
    refine ⟨habs.of_withPending.of_mem_iff fun e => ?_, herr⟩
    have hadd : e ∈ (log.pending.add m d).toList ↔ e ∈ log.pending.toList ∨ e = d :=
      h.mem_toList_add hw.runs hissue
    rw [List.cons_append, List.mem_cons, List.mem_append, List.mem_append, hadd, ← or_assoc]
    exact or_comm
  | case5 log c rest e ho ih =>
    have hfares := offer_issued h.sound hw h.partOf (hq c List.mem_cons_self)
    rw [ho] at hfares
    exact hfares.elim

theorem importChanges (h : log.ReplicaOf whole) (hw : whole.Sound)
    (hxs : ∀ c ∈ xs, whole.Issues c) :
    Absorbs whole log (xs ++ log.pending.toList) (log.importChanges xs).1 ∧
      (log.importChanges xs).2.2 = none := by
  have hqueue : ∀ c ∈ xs.mergeSort Change.causalKeyLe ++ (log.release log.vv.includes).1,
      whole.Issues c := by
    intro c hc
    rcases List.mem_append.mp hc with hc | hc
    · exact hxs c (List.mem_mergeSort.mp hc)
    · obtain ⟨m, _, hm⟩ := PendingChanges.mem_release.mp hc
      exact h.issued m c hm
  obtain ⟨habs, herr⟩ := (h.release log.vv.includes).settle hw hqueue
  refine ⟨habs.of_withPending.of_mem_iff fun c => ?_, herr⟩
  rw [List.append_assoc, List.mem_append, List.mem_append, List.mem_append, List.mem_mergeSort]
  exact or_congr_right PendingChanges.mem_release_or_left

theorem deliver (h : log.ReplicaOf whole) (hw : whole.Sound)
    (hbatches : ∀ batch ∈ batches, ∀ c ∈ batch, whole.Issues c) :
    Absorbs whole log (batches.flatten ++ log.pending.toList) (log.deliver batches) ∧
      log.Accepts batches := by
  induction batches generalizing log with
  | nil => exact ⟨.refl h, trivial⟩
  | cons batch batches ih =>
    obtain ⟨habs, herr⟩ := h.importChanges hw (hbatches batch List.mem_cons_self)
    obtain ⟨hrest, haccepts⟩ :=
      ih habs.replica fun b hb => hbatches b (List.mem_cons_of_mem batch hb)
    exact ⟨habs.trans hrest, herr, haccepts⟩

end ReplicaOf

namespace Absorbs

/-- An operation whose whole history is there or arrived is in the log in the end. -/
theorem contains_of_covered (h : Absorbs whole log arrived final) (hl : log.ReplicaOf whole)
    (hw : whole.Sound) (harr : ∀ c ∈ arrived, whole.Issues c)
    (hcov : ∀ y, whole.AtOrBefore y x →
      log.contains y = true ∨ ∃ c ∈ arrived, c.contains y = true) :
    final.contains x = true := by
  have hx : whole.contains x = true := by
    rcases hcov x .refl with hin | ⟨c, hc, hcx⟩
    · exact hl.partOf.contains hl.sound.runs hw.runs hin
    · exact (harr c hc).contains hw.runs hcx
  obtain ⟨e, he, hex⟩ := hw.runs.exists_change hx
  have hlam := hw.runs.lamportOf?_of_mem he hex
  generalize e.lamport + (x.counter - e.start) = lamport at hlam
  clear he hex e
  induction lamport using Nat.strongRecOn generalizing x with
  | ind lamport ih =>
    rcases hcov x .refl with hin | ⟨c, hc, hcx⟩
    · exact h.grows.contains hl.sound.runs h.replica.sound.runs hin
    · obtain ⟨hp, hle, hlt⟩ := Change.contains_iff.mp hcx
      rcases h.known_or_waiting c hc with hknown | hwait
      · apply contains_iff.mpr
        rw [hp]
        omega
      · -- The first operation that the waiting change misses comes before `x`, so it arrived.
        obtain ⟨m, hm⟩ := PendingChanges.mem_toList.mp hwait
        obtain ⟨hnot, hparent⟩ := missing?_spec (h.replica.filed m c hm)
        have hpar := (harr c hc).parent hw.runs hparent
        have hstart : whole.AtOrBefore c.id x := hw.runs.atOrBefore_of_le hp.symm hle hx
        have hbefore : whole.Before m x := .head' hpar hstart
        obtain ⟨l, n, hlm, hln, hless⟩ := hw.lamport_lt_of_before hbefore
        rw [hlam] at hln
        cases hln
        have hall : ∀ y, whole.AtOrBefore y m →
            log.contains y = true ∨ ∃ c ∈ arrived, c.contains y = true := by
          intro y hy
          exact hcov y (hy.trans hbefore.to_reflTransGen)
        have hmin := ih l hless hall (hw.contains_parent hpar) hlm
        rw [hnot] at hmin
        exact nomatch hmin

theorem contains_iff_covered (h : Absorbs whole log arrived final) (hl : log.ReplicaOf whole)
    (hw : whole.Sound) (harr : ∀ c ∈ arrived, whole.Issues c) :
    final.contains x = true ↔ log.contains x = true ∨ ∀ y, whole.AtOrBefore y x →
      log.contains y = true ∨ ∃ c ∈ arrived, c.contains y = true := by
  constructor
  · intro hx
    right
    intro y hy
    have hfinal := h.replica.sound
    have hyin := hfinal.contains_of_partOf hw.runs h.replica.partOf hy hx
    obtain ⟨c, hc, hcy⟩ := hfinal.runs.exists_change hyin
    rcases h.stored_from y.peer c hc with hc | hc
    · exact .inl (hl.sound.runs.contains_of_mem hc hcy)
    · exact .inr ⟨c, hc, hcy⟩
  · intro hx
    rcases hx with hx | hcov
    · exact h.grows.contains hl.sound.runs h.replica.sound.runs hx
    · exact h.contains_of_covered hl hw harr hcov

theorem mem_waiting_iff (h : Absorbs whole log arrived final) (hw : whole.Sound) :
    c ∈ final.pending.toList ↔
      c ∈ arrived ∧ ∃ x, c.contains x = true ∧ final.contains x = false := by
  constructor
  · intro hc
    have hwf := (h.replica.issues_of_waiting hc).wellFormed hw.runs
    have hlt := h.replica.lt_stop_of_waiting hw hc
    refine ⟨h.waiting_from c hc, c.lastId, hwf.contains_lastId, ?_⟩
    apply Bool.eq_false_iff.mpr
    intro hin
    have := contains_iff.mp hin
    change c.stop - 1 < final.vv.get c.peer at this
    omega
  · intro ⟨hc, x, hcx, hx⟩
    rcases h.known_or_waiting c hc with hknown | hwait
    · obtain ⟨hp, _, hlt⟩ := Change.contains_iff.mp hcx
      have hin : final.contains x = true := by
        apply contains_iff.mpr
        rw [hp]
        omega
      rw [hx] at hin
      exact nomatch hin
    · exact hwait

end Absorbs

theorem ReplicaOf.nodup_waiting (h : log.ReplicaOf whole) : log.pending.toList.Nodup := by
  apply OrdMap.nodup_flatten_values h.nodup
  intro m n c hm hn
  -- One change waits for one operation.
  have hmiss := h.filed m c hm
  rw [h.filed n c hn] at hmiss
  exact (Option.some.inj hmiss).symm

/-- What arrives decides what the log and its buffer hold in the end. -/
theorem Absorbs.unique {other : ChangeLog} (h : Absorbs whole log xs final)
    (h' : Absorbs whole log ys other) (hl : log.ReplicaOf whole) (hw : whole.Sound)
    (hxs : ∀ c ∈ xs, whole.Issues c) (heq : ∀ c, c ∈ xs ↔ c ∈ ys) :
    (final.changes = other.changes ∧ final.vv = other.vv ∧ final.frontiers = other.frontiers ∧
        final.clock = other.clock) ∧ final.pendingSpans = other.pendingSpans := by
  have hsame := h.of_mem_iff heq
  have hys : ∀ c ∈ ys, whole.Issues c := fun c hc => hxs c ((heq c).mpr hc)
  have hcontains : ∀ x, final.contains x = true ↔ other.contains x = true := by
    intro x
    rw [hsame.contains_iff_covered hl hw hys, h'.contains_iff_covered hl hw hys]
  have hget : ∀ p, final.vv.get p = other.vv.get p := by
    intro p
    exact Nat.le_antisymm (vv_le_of_contains (fun x => (hcontains x).mp) p)
      (vv_le_of_contains (fun x => (hcontains x).mpr) p)
  refine ⟨h.replica.sound.eq_of_changesOf h'.replica.sound fun p => ?_, ?_⟩
  · exact h.replica.partOf.changesOf_eq h'.replica.partOf h.replica.sound.runs
      h'.replica.sound.runs (hget p)
  · have hmem : ∀ c, c ∈ final.pending.toList ↔ c ∈ other.pending.toList := by
      intro c
      rw [hsame.mem_waiting_iff hw, h'.mem_waiting_iff hw]
      apply and_congr_right
      intro _
      apply exists_congr
      intro x
      apply and_congr_right
      intro _
      rw [← Bool.not_eq_true, ← Bool.not_eq_true, hcontains]
    have hperm := (List.perm_ext_iff_of_nodup h.replica.nodup_waiting h'.replica.nodup_waiting).mpr
      hmem
    refine IdSpan.coalesce_eq_of_perm (hperm.map Change.span)
      (List.forall_mem_map.mpr fun c hc => ?_)
    exact Nat.le_of_lt ((h.replica.issues_of_waiting hc).wellFormed hw.runs).start_lt_stop

end CausalReplica.ChangeLog
