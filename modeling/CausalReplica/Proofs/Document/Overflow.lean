import CausalReplica.Proofs.Document.Run
import CausalReplica.Proofs.Log.WordRange

/-!
# The word range in exports and imports

An export commits what is recorded and cuts changes where the reader's version says. Counters and
Lamport times stay in the word range all the way. The position of an insertion that is cut need not:
positions are taken as they come, up to the last one, so that the rest of an insertion may lie past
it. Then there is nothing to export. An import stops where what is left of a change that is known in
part leaves the range.
-/

namespace CausalReplica.Document

open Outcome (Guarded)

variable {d : Document} {v : VersionVector} {now : Int} {batches : List (List UInt8)}

section Export

theorem exportFrom?_guarded : Guarded (d.exportFrom? v now)
    ((d.commit none now).2 = .ok () → (d.commit none now).1.log.ListingFits v)
    (d.exportFrom v now) := by
  unfold exportFrom? exportFrom
  generalize d.commit none now = committed
  obtain ⟨committed, outcome⟩ := committed
  cases outcome with
  | error e => exact (Guarded.pure _).congr (iff_of_true trivial nofun)
  | ok _ => exact (ChangeLog.changesSince?_guarded.map _).congr (imp_iff_right rfl).symm

/-- When its commit succeeds, an export hands out what the reader misses, unless it has to cut an
insertion whose rest would lie past the last position. In the log that it reads no counter and no
Lamport time is out of the word range, nor was one in the log that the commit sealed a change for.
Each insertion that is handed out has the position of the stored one, or if it was cut lies past it
by exactly the atoms that were cut off. -/
theorem export_stops_iff (h : d.Reachable) (hok : (d.commit none now).2 = .ok ()) :
    let log := (d.commit none now).1.log
    (d.exportFrom? v now = none ↔ ∃ c ∈ log.allChanges, ∃ op ∈ c.ops,
      (op.counter < v.get c.peer ∧ v.get c.peer < op.stop) ∧
      ∃ pos ∈ op.content.insertPos?, Word.top < pos + (v.get c.peer - op.counter)) ∧
    (∀ r, d.exportFrom? v now = some r → ∃ changes, log.changesSince? v = some changes ∧
      r = ((d.commit none now).1, .ok (Batch.encode changes)) ∧
      ∀ c ∈ changes, ∀ op ∈ c.ops,
        ∃ stored ∈ log.changesOf c.peer, ∃ whole ∈ stored.ops, op.EndOf whole) ∧
    (∀ c ∈ d.log.allChanges, c.InWords) ∧ ∀ c ∈ log.allChanges, c.InWords := by
  intro log
  have hcoherent := h.coherent
  have hbefore : d.log.Runs := hcoherent.intact.sound.runs
  have hruns : log.Runs := (hcoherent.commit none now).1.sound.runs
  have hexport : Guarded (d.exportFrom? v now) (log.ListingFits v) (d.exportFrom v now) :=
    exportFrom?_guarded.congr (imp_iff_right hok)
  refine ⟨hexport.eq_none_iff.trans ?_, fun r hr => ?_, fun c hc => ?_, fun c hc => ?_⟩
  · simp only [hruns.listingFits_iff, Change.CutFits, Content.cutFits_iff, not_forall, exists_prop,
      Nat.not_le, and_assoc]
  · obtain ⟨hfits, rfl⟩ := hexport.eq_some_iff.mp hr
    refine ⟨_, ChangeLog.changesSince?_guarded.eq_some hfits,
      Prod.ext exportFrom_fst (exportFrom_of_commit_ok hok), fun c hc op hop => ?_⟩
    exact hruns.exists_endOf hfits hc hop
  · obtain ⟨p, hp⟩ := ChangeLog.mem_allChanges.mp hc
    exact ((hbefore p).mem hp).2.1.inWords
  · obtain ⟨p, hp⟩ := ChangeLog.mem_allChanges.mp hc
    exact ((hruns p).mem hp).2.1.inWords

def rootText (name : String) : Handle .text :=
  ⟨.root name .text, rfl⟩

/-- Two characters are recorded at a position. -/
def typedAt (pos : Nat) : Document :=
  (ofConfig {} ⟨1⟩).run [.edit (.root "t" .text), .edit (.insertText (rootText "t") pos "ab")]

/-- A reader that has the first character. -/
def firstRead : VersionVector := .ofList [(⟨1⟩, 1)]

/-- The second character comes to lie at the last position. -/
theorem export_stops_iff_last_position :
    (typedAt 4294967294).exportFrom? firstRead 0 ≠ none ∧
      (((typedAt 4294967294).commit none 0).1.log.changesSince? firstRead).map
        (·.flatMap fun c => c.ops.map (·.content.insertPos?)) = some [some 4294967295] := by
  have hstored : ((typedAt 4294967294).commit none 0).1.log.allChanges =
      [⟨⟨⟨1⟩, 0⟩, 0, .empty, 0, [⟨0, .root "t" .text, .insertText 4294967294 "ab"⟩]⟩] := by cbv
  have hreachable : (typedAt 4294967294).Reachable := ⟨{}, ⟨1⟩, _, rfl⟩
  have hok : ((typedAt 4294967294).commit none 0).2 = .ok () := by cbv
  obtain ⟨hstops, -⟩ := export_stops_iff (v := firstRead) hreachable hok
  refine ⟨fun hnone => ?_, by cbv⟩
  have hcut := hstops.mp hnone
  rw [hstored] at hcut
  exact absurd hcut (by decide)

/-- One position further, the second character would lie past it. -/
theorem export_position_out_of_range :
    (typedAt 4294967295).Reachable ∧ ((typedAt 4294967295).commit none 0).2 = .ok () ∧
      (typedAt 4294967295).exportFrom? firstRead 0 = none :=
  ⟨⟨{}, ⟨1⟩, _, rfl⟩, by cbv, by cbv⟩

end Export

section Import

theorem importWithStatus?_guarded : Guarded (d.importWithStatus? batches now)
    ((d.commit none now).2 = .ok () → ∀ decoded, decodeAll batches = .ok decoded →
      ChangeLog.EachOffered ChangeLog.RestFits ((d.commit none now).1.log.opening decoded.changes))
    (d.importWithStatus batches now) := by
  unfold importWithStatus? importWithStatus
  generalize d.commit none now = committed
  obtain ⟨committed, outcome⟩ := committed
  cases outcome with
  | error e => exact (Guarded.pure _).congr (iff_of_true trivial nofun)
  | ok _ =>
    cases decodeAll batches with
    | error e => exact (Guarded.pure _).congr (iff_of_true trivial fun _ _ => nofun)
    | ok decoded =>
      refine (ChangeLog.importChanges?_guarded.map (committed.takeIn decoded.error)).congr ?_
      exact ⟨fun hfits _ _ hread => Except.ok.inj hread ▸ hfits, fun h => h rfl decoded rfl⟩

theorem importBatches?_guarded : Guarded (d.importBatches? batches now)
    ((d.commit none now).2 = .ok () → ∀ decoded, decodeAll batches = .ok decoded →
      ChangeLog.EachOffered ChangeLog.RestFits ((d.commit none now).1.log.opening decoded.changes))
    (d.importBatches batches now) :=
  importWithStatus?_guarded.map hideStatus

end Import

end CausalReplica.Document
