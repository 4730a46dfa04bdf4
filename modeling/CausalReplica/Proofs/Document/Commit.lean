import CausalReplica.Proofs.Document.Run

/-!
# Commits that fail

In a document that calls lead to, a commit fails in one way only: there is something to commit, and
fewer Lamport times are left than it has atoms. Observers are told nothing and nothing but the
transaction changes, but that is emptied, so what was recorded is lost and the next commit succeeds.
-/

namespace CausalReplica.Document

variable {d : Document} {e : Error} {lamport : Nat} {origin : Option String} {now : Int}

/-- What is recorded would start at the Lamport time `lamport`, from which there are too few. -/
structure OutOfRoom (d : Document) (lamport : Nat) : Prop where
  items_ne_nil : d.txn.items ≠ []
  assigned : d.log.assignLamport d.peer d.log.frontiers = .ok lamport
  top_lt : Word.top < lamport + d.txn.length

theorem commit_error (h : (d.commit origin now).2 = .error e) :
    d.txn.items ≠ [] ∧ d.change now = .error e := by
  rcases d.commit_cases origin now with ⟨_, heq⟩ | ⟨_, hne, hchange, heq⟩ | ⟨_, _, _, heq⟩
  · rw [heq] at h
    exact nomatch h
  · rw [heq] at h
    cases h
    exact ⟨hne, hchange⟩
  · rw [heq] at h
    exact nomatch h

theorem commit_of_change_error (hne : d.txn.items ≠ []) (h : d.change now = .error e) :
    d.commit origin now = (d.emptied, .error e) := by
  rcases d.commit_cases origin now with ⟨hnil, _⟩ | ⟨_, _, hchange, heq⟩ | ⟨_, _, hchange, _⟩
  · exact absurd hnil hne
  · rw [heq, Except.error.inj (hchange.symm.trans h)]
  · exact nomatch hchange.symm.trans h

namespace Coherent

theorem exists_change_eq (h : Coherent d) (hne : d.txn.items ≠ []) (now : Int) :
    ∃ lamport c, d.log.assignLamport d.peer d.log.frontiers = .ok lamport ∧
      d.change now = if lamport + d.txn.length ≤ Word.top then .ok c
        else .error (.invalidState (.noLamportRoom lamport d.txn.length)) := by
  have hs := h.intact.sound
  have hfit := h.counters_fit
  obtain ⟨lamport, hlamport⟩ := ChangeLog.exists_assignLamport hs.runs d.peer
    fun id hid => ((hs.mem_frontiers id).mp hid).1
  rw [h.length_eq] at hfit ⊢
  obtain ⟨ops, hchange⟩ := ChangeLog.nextChange_eq hlamport hne h.atoms_pos hfit
  exact ⟨lamport, _, hlamport, hchange⟩

theorem outOfRoom_of_change_error (h : Coherent d) (hne : d.txn.items ≠ [])
    (hchange : d.change now = .error e) :
    ∃ lamport, d.OutOfRoom lamport ∧ e = .invalidState (.noLamportRoom lamport d.txn.length) := by
  obtain ⟨lamport, c, hassigned, heq⟩ := h.exists_change_eq hne now
  rw [hchange] at heq
  split at heq
  · exact nomatch heq
  · next hshort =>
    exact ⟨lamport, ⟨hne, hassigned, Nat.lt_of_not_le hshort⟩, Except.error.inj heq⟩

theorem change_of_outOfRoom (h : Coherent d) (hout : d.OutOfRoom lamport) (now : Int) :
    d.change now = .error (.invalidState (.noLamportRoom lamport d.txn.length)) := by
  obtain ⟨l, c, hassigned, heq⟩ := h.exists_change_eq hout.items_ne_nil now
  have hl : l = lamport := Except.ok.inj (hassigned.symm.trans hout.assigned)
  rw [heq, hl, if_neg (Nat.not_le_of_lt hout.top_lt)]

end Coherent

theorem exportFrom_of_commit_error (v : VersionVector)
    (h : d.commit none now = (d.emptied, .error e)) :
    d.exportFrom v now = (d.emptied, .error e) := by rw [exportFrom, h]

theorem importWithStatus_of_commit_error (batches : List (List UInt8))
    (h : d.commit none now = (d.emptied, .error e)) :
    d.importWithStatus batches now = (d.emptied, .error e) := by rw [importWithStatus, h]

/-- If some commit of the document fails, the Lamport times have run out, and every commit, export
and import fails alike. Each leaves the document as it is but for the transaction: that is emptied,
after which there is nothing left to fail. -/
theorem failed_commit_discards (h : d.Reachable) (hfail : (d.commit origin now).2 = .error e) :
    ∃ lamport, d.OutOfRoom lamport ∧ e = .invalidState (.noLamportRoom lamport d.txn.length) ∧
      (∀ origin now, d.commit origin now = (d.emptied, .error e) ∧
        d.emptied.commit origin now = (d.emptied, .ok ())) ∧
      (∀ v now, d.exportFrom v now = (d.emptied, .error e)) ∧
      ∀ batches now, d.importWithStatus batches now = (d.emptied, .error e) ∧
        d.importBatches batches now = (d.emptied, .error e) := by
  obtain ⟨hne, hchange⟩ := commit_error hfail
  obtain ⟨lamport, hout, rfl⟩ := h.coherent.outOfRoom_of_change_error hne hchange
  have hcommit : ∀ origin now, d.commit origin now =
      (d.emptied, .error (.invalidState (.noLamportRoom lamport d.txn.length))) :=
    fun origin now => commit_of_change_error hne (h.coherent.change_of_outOfRoom hout now)
  refine ⟨lamport, hout, rfl, fun origin now => ⟨hcommit origin now, rfl⟩, fun v now => ?_,
    fun batches now => ⟨?_, ?_⟩⟩
  · exact exportFrom_of_commit_error v (hcommit none now)
  · exact importWithStatus_of_commit_error batches (hcommit none now)
  · rw [importBatches_of_commit_error (congrArg Prod.snd (hcommit none now)), hcommit]

/-- A batch of one change, whose single atom has the last Lamport time but one. -/
def late : List UInt8 :=
  [67, 68, 79, 67, 1, 1, 2, 0, 252, 254, 255, 255, 255, 0, 0, 1, 0, 1, 116, 0, 0, 0, 1, 97]

/-- Two characters are recorded after the batch was imported. -/
def exhausted : Document :=
  (ofConfig {} ⟨1⟩).run
    [.importWithStatus [late] 0, .edit (.root "t" .text),
      .edit (.insertText ⟨.root "t" .text, rfl⟩ 0 "xy")]

theorem commit_exhausted : (exhausted.commit none 0).2 =
    .error (.invalidState (.noLamportRoom 4294967295 2)) := by cbv

theorem failed_commit_discards_text :
    exhausted.txn = ⟨[(.root "t" .text, .insertText 0 "xy")], 2⟩ ∧
      exhausted.exportFrom .empty 0 =
        (exhausted.emptied, .error (.invalidState (.noLamportRoom 4294967295 2))) := by
  obtain ⟨_, _, _, _, hexport, _⟩ := failed_commit_discards ⟨{}, ⟨1⟩, _, rfl⟩ commit_exhausted
  exact ⟨by cbv, hexport .empty 0⟩

/-- A failed commit need not keep what is recorded. -/
theorem failed_commit_loses_text :
    ¬ ∀ d : Document, d.Reachable → ∀ origin now e,
      (d.commit origin now).2 = .error e → (d.commit origin now).1.txn = d.txn := by
  intro hkeeps
  have hkept := hkeeps exhausted ⟨{}, ⟨1⟩, _, rfl⟩ none 0 _ commit_exhausted
  have hnil : (exhausted.commit none 0).1.txn.items = [] := commit_items
  rw [hkept] at hnil
  exact (commit_error commit_exhausted).1 hnil

end CausalReplica.Document
