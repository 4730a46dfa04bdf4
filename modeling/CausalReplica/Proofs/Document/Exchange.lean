import CausalReplica.Document.Exchange
import CausalReplica.Proofs.Batch.Assembly
import CausalReplica.Proofs.Document.Edit
import CausalReplica.Proofs.Log.Delivery

/-!
# Exports and imports of one document

A batch that was exported is read as the changes that were handed out, in another order. An import
sorts them, so importing batches comes down to a commit and then an import of changes.
-/

namespace CausalReplica

namespace ChangeLog

variable {log whole : ChangeLog} {c : Change} {v : VersionVector} {xs ys : List Change}

def Fits (log : ChangeLog) : Prop := ∀ p, ∀ c ∈ log.changesOf p, c.Fits

theorem Fits.of_partOf (h : whole.Fits) (hp : log.PartOf whole) : log.Fits :=
  fun p c hc => h p c (hp.mem hc)

theorem Fits.issues (h : log.Fits) (hc : log.Issues c) : c.Fits := by
  obtain ⟨d, hd, _, hlt, heq⟩ := hc
  rw [heq]
  exact (h c.peer d hd).sliceFrom hlt

theorem fits_insert (h : log.Fits) (hc : c.Fits) : (log.insert c).Fits := by
  intro p d hd
  rcases mem_changesOf_insert.mp hd with hd | ⟨_, rfl⟩
  · exact h p d hd
  · exact hc

/-- An import sorts what it is handed. -/
theorem importChanges_eq_of_perm (hperm : xs.Perm ys)
    (hkey : ∀ c ∈ xs, ∀ d ∈ xs, c.id = d.id → c = d) :
    log.importChanges xs = log.importChanges ys := by
  unfold importChanges
  rw [Change.mergeSort_eq_of_perm hperm hkey]

/-- Changes that were handed out survive as a batch. -/
theorem decode_changesSince (h : log.Runs) (hfit : log.Fits)
    (hcount : Batch.Countable (Batch.encode (log.changesSince v))) :
    ∃ ds, Batch.decode (Batch.encode (log.changesSince v)) = .ok ⟨ds, none⟩ ∧
      ds.Perm (log.changesSince v) := by
  obtain ⟨ds, hds, hperm⟩ := Batch.assemble_perm (exists_run_changesSince h (v := v))
  refine ⟨ds, ?_, hperm⟩
  rw [Batch.decode_encode (fun c hc => hfit.issues (issues_changesSince h hc)) hcount, hds]

end ChangeLog

namespace Document

variable {d : Document} {v : VersionVector} {now : Int} {bytes : List UInt8}
  {batches : List (List UInt8)} {cs : List Change} {P : Change → Prop} {e : Error}

section Export

theorem exportFrom_fst : (d.exportFrom v now).1 = (d.commit none now).1 := by
  unfold exportFrom
  split
  · next h => rw [h]
  · next h => rw [h]

theorem exportFrom_ok (h : (d.exportFrom v now).2 = .ok bytes) :
    (d.commit none now).2 = .ok () ∧
      bytes = Batch.encode ((d.commit none now).1.log.changesSince v) := by
  unfold exportFrom at h
  split at h
  · exact nomatch h
  · next heq =>
    cases h
    rw [heq]
    exact ⟨rfl, rfl⟩

theorem exportFrom_of_commit_ok (h : (d.commit none now).2 = .ok ()) :
    (d.exportFrom v now).2 = .ok (Batch.encode ((d.commit none now).1.log.changesSince v)) := by
  unfold exportFrom
  split
  · next heq =>
    rw [heq] at h
    exact nomatch h
  · next heq => rw [heq]

end Export

section Announce

theorem registerAll_eq (d : Document) (ops : List (Peer × Op)) :
    ∃ registry, d.registerAll ops = { d with registry } := by
  unfold registerAll
  induction ops generalizing d with
  | nil => exact ⟨d.registry, rfl⟩
  | cons op ops ih =>
    rw [List.foldl_cons]
    dsimp only
    split
    · obtain ⟨registry, h⟩ := ih ((d.register _).register op.2.container)
      exact ⟨registry, h⟩
    · obtain ⟨registry, h⟩ := ih (d.register op.2.container)
      exact ⟨registry, h⟩

/-- Only what the document knows of containers and what observers were told changes. -/
theorem announce_eq (d : Document) (before : Frontiers) (applied : List IdSpan) :
    ∃ registry observers, d.announce before applied = { d with registry, observers } := by
  unfold announce
  split
  · exact ⟨d.registry, d.observers, rfl⟩
  · obtain ⟨registry, h⟩ := d.registerAll_eq (opsIn d.log applied)
    dsimp only
    rw [h]
    exact ⟨registry, _, rfl⟩

end Announce

section Import

theorem decodeAll_ok
    (h : ∀ b ∈ batches, ∃ cs, Batch.decode b = .ok ⟨cs, none⟩ ∧ ∀ c ∈ cs, P c) :
    ∃ cs, decodeAll batches = .ok ⟨cs, none⟩ ∧ ∀ c ∈ cs, P c := by
  induction batches with
  | nil => exact ⟨[], rfl, fun _ hc => absurd hc List.not_mem_nil⟩
  | cons b batches ih =>
    obtain ⟨first, hfirst, hP⟩ := h b List.mem_cons_self
    obtain ⟨others, hothers, hPs⟩ := ih fun b' hb => h b' (List.mem_cons_of_mem b hb)
    refine ⟨first ++ others, ?_, fun c hc => ?_⟩
    · rw [decodeAll, hfirst, hothers]
      rfl
    · exact (List.mem_append.mp hc).elim (hP c) (hPs c)

theorem decodeAll_singleton (h : Batch.decode bytes = .ok ⟨cs, none⟩) :
    decodeAll [bytes] = .ok ⟨cs, none⟩ := by
  rw [decodeAll, h]
  change Except.ok (⟨cs ++ [], none⟩ : Batch.Decoded) = _
  rw [List.append_nil]

/-- The document after these changes are imported and what enters is made known. -/
def absorb (d : Document) (cs : List Change) : Document :=
  { d with log := (d.log.importChanges cs).1 }.announce d.log.frontiers
    (d.log.importChanges cs).2.1.applied

theorem absorb_log : (d.absorb cs).log = (d.log.importChanges cs).1 := by
  obtain ⟨registry, observers, h⟩ := announce_eq { d with log := (d.log.importChanges cs).1 }
    d.log.frontiers (d.log.importChanges cs).2.1.applied
  rw [absorb, h]

/-- After the commit an import absorbs the changes it reads, or fails and does nothing. -/
theorem importWithStatus_cases (d : Document) (batches : List (List UInt8)) (now : Int) :
    (d.importWithStatus batches now).1 = (d.commit none now).1 ∨
      ∃ decoded, decodeAll batches = .ok decoded ∧
        (d.importWithStatus batches now).1 = (d.commit none now).1.absorb decoded.changes := by
  unfold importWithStatus
  generalize d.commit none now = committed
  obtain ⟨c, outcome⟩ := committed
  cases outcome with
  | error e => exact .inl rfl
  | ok _ =>
    cases decodeAll batches with
    | error e => exact .inl rfl
    | ok decoded => exact .inr ⟨decoded, rfl, rfl⟩

theorem importBatches_fst :
    (d.importBatches batches now).1 = (d.importWithStatus batches now).1 := by
  unfold importBatches hideStatus
  split <;> next h => rw [h]

theorem importBatches_of_commit_error (h : (d.commit none now).2 = .error e) :
    d.importBatches batches now = ((d.commit none now).1, .error e) := by
  unfold importBatches importWithStatus
  generalize d.commit none now = committed at h
  obtain ⟨c, r⟩ := committed
  cases h
  rfl

/-- Readable batches are imported as their changes are, after the commit. -/
theorem importBatches_of_decodeAll (hcommit : (d.commit none now).2 = .ok ())
    (hread : decodeAll batches = .ok ⟨cs, none⟩)
    (haccept : ((d.commit none now).1.log.importChanges cs).2.2 = none) :
    ∃ registry observers, d.importBatches batches now =
      ({ (d.commit none now).1 with
          log := ((d.commit none now).1.log.importChanges cs).1, registry, observers },
        .ok ((d.commit none now).1.log.importChanges cs).2.1) := by
  unfold importBatches importWithStatus
  generalize d.commit none now = committed at hcommit haccept
  obtain ⟨c, r⟩ := committed
  cases hcommit
  rw [hread]
  dsimp only at haccept ⊢
  generalize c.log.importChanges cs = imported at haccept
  obtain ⟨log, status, error⟩ := imported
  cases haccept
  obtain ⟨registry, observers, h⟩ := announce_eq { c with log } c.log.frontiers status.applied
  exact ⟨registry, observers, congrArg (·, Except.ok status) h⟩

end Import

end Document

end CausalReplica
