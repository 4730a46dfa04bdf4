import CausalReplica.Proofs.Document.Commit
import CausalReplica.Proofs.Log.Acceptance

/-!
# Commits start where the clock stands

A commit depends on all heads of the log, and one of them is as late as anything in it. So the new
change gets the Lamport time that the clock shows, even if imported times jumped ahead, and becomes
the only head. Nothing but a lack of Lamport times keeps a commit from succeeding.
-/

namespace CausalReplica

namespace ChangeLog

variable {log : ChangeLog} {c : Change}

/-- A change that depends on all heads becomes the only one. -/
theorem Sound.frontiers_insert_eq (h : log.Sound)
    (hheads : ∀ x ∈ log.frontiers.ids, x ∈ c.parents) :
    (log.insert c).frontiers = .ofId c.lastId := by
  have hnil : (c.parents.foldl Frontiers.erase log.frontiers).ids = [] := by
    refine List.eq_nil_iff_forall_not_mem.mpr fun x hx => ?_
    obtain ⟨hnot, hin⟩ := (Frontiers.mem_foldl_erase h.frontiers_ascending).mp hx
    exact hnot (hheads x hin)
  change (c.parents.foldl Frontiers.erase log.frontiers).insert c.lastId = _
  unfold Frontiers.insert
  rw [hnil]
  rfl

theorem nextLamport_insert_eq (h : log.nextLamport ≤ c.lamportEnd) :
    (log.insert c).nextLamport = c.lamportEnd := Nat.max_eq_right h

end ChangeLog

namespace Document

variable {d : Document} {c : Change} {e : Error} {origin : Option String} {now : Int}

/-- What is recorded in `d` became the change `c`, which starts where the clock stood and is the
only head of `next`. -/
structure SealsAtClock (d next : Document) (c : Change) : Prop where
  gains : d.log.GainsOnly c next.log
  id_eq : c.id = ⟨d.peer, d.log.nextCounter d.peer⟩
  items_eq : c.ops.map Op.item = d.txn.items
  lamport_eq : c.lamport = d.log.nextLamport
  nextLamport_eq : next.log.nextLamport = d.log.nextLamport + Op.extent d.txn.items
  frontiers_eq : next.log.frontiers = .ofId c.lastId

namespace Coherent

theorem timeAfter_heads (h : Coherent d) :
    d.log.timeAfter (d.log.parentsOf d.peer d.log.frontiers) = d.log.nextLamport :=
  h.intact.sound.timeAfter_eq_nextLamport fun _ hx => List.mem_append_left _ hx

theorem appendable_iff (h : Coherent d) (hne : d.txn.items ≠ []) :
    d.log.Appendable d.peer d.txn.items d.log.frontiers ↔
      d.log.nextLamport + Op.extent d.txn.items ≤ Word.top := by
  rw [← h.timeAfter_heads]
  refine ⟨fun happendable => happendable.times_fit, fun hfit => ?_⟩
  exact
    { nonempty := hne
      atoms_pos := h.atoms_pos
      deps_known := fun x hx => ((h.intact.sound.mem_frontiers x).mp hx).1
      counters_fit := h.length_eq ▸ h.counters_fit
      times_fit := hfit }

theorem change_ok_iff (h : Coherent d) (hne : d.txn.items ≠ []) (now : Int) :
    (∃ c, d.change now = .ok c) ↔ d.log.nextLamport + Op.extent d.txn.items ≤ Word.top := by
  rw [← h.appendable_iff hne]
  constructor
  · rintro ⟨c, hok⟩
    exact (h.intact.sound.of_nextChange_ok hok).1
  · exact fun happendable => ⟨_, h.intact.sound.nextChange_ok_iff.mpr ⟨happendable, rfl⟩⟩

theorem sealsAtClock (h : Coherent d) (hok : d.change now = .ok c) {next : Document}
    (hlog : next.log = d.log.insert c) : d.SealsAtClock next c := by
  have hs := h.intact.sound
  obtain ⟨hadmits, _, hdeps, _, hitems⟩ := ChangeLog.nextChange_admits hok hs
  obtain ⟨_, hc⟩ := hs.of_nextChange_ok hok
  have hlamport : c.lamport = d.log.nextLamport := by
    rw [hc]
    exact h.timeAfter_heads
  have hend : c.lamportEnd = d.log.nextLamport + Op.extent d.txn.items := by
    rw [hadmits.wellFormed.lamportEnd_eq, hlamport, hc]
    exact congrArg (d.log.nextLamport + ·) Op.totalAtoms_place
  refine ⟨?_, by rw [hc]; rfl, hitems, hlamport, ?_, ?_⟩
  · rw [hlog]
    exact hadmits.gainsOnly
  · rw [hlog, ChangeLog.nextLamport_insert_eq (by omega), hend]
  · rw [hlog]
    refine hs.frontiers_insert_eq fun x hx => List.mem_append_left _ ?_
    rwa [hdeps]

/-- If no change can be made of what is recorded, the error tells where the clock stands. -/
theorem change_error (h : Coherent d) (hne : d.txn.items ≠ []) (herror : d.change now = .error e) :
    e = .invalidState (.noLamportRoom d.log.nextLamport (Op.extent d.txn.items)) := by
  obtain ⟨lamport, hout, rfl⟩ := h.outOfRoom_of_change_error hne herror
  rw [h.intact.sound.assignLamport_ok hout.assigned, h.timeAfter_heads, h.length_eq]

end Coherent

/-- A commit of something succeeds exactly when its atoms have room above the clock. The new change
then starts where the clock stood, which moves past it, and its last operation is the only head.
There is no other way to fail. -/
theorem commit_ok_iff (h : d.Reachable) (hne : d.txn.items ≠ []) (origin : Option String)
    (now : Int) :
    ((d.commit origin now).2 = .ok () ↔
      d.log.nextLamport + Op.extent d.txn.items ≤ Word.top) ∧
    ((d.commit origin now).2 = .ok () → ∃ c, d.SealsAtClock (d.commit origin now).1 c) ∧
    ∀ e, (d.commit origin now).2 = .error e →
      e = .invalidState (.noLamportRoom d.log.nextLamport (Op.extent d.txn.items)) := by
  rw [← h.coherent.change_ok_iff hne now]
  rcases d.commit_cases origin now with ⟨hnil, _⟩ | ⟨e, _, hchange, heq⟩ | ⟨c, _, hchange, heq⟩
  · exact absurd hnil hne
  · rw [heq, hchange]
    refine ⟨⟨nofun, nofun⟩, nofun, fun e' he => ?_⟩
    cases he
    exact h.coherent.change_error hne hchange
  · rw [heq, hchange]
    refine ⟨⟨fun _ => ⟨c, rfl⟩, fun _ => rfl⟩, fun _ => ⟨c, ?_⟩, nofun⟩
    exact h.coherent.sealsAtClock hchange rfl

/-- A batch of one change, whose single atom leaves two Lamport times. -/
def ahead : List UInt8 :=
  [67, 68, 79, 67, 1, 1, 2, 0, 252, 252, 255, 255, 255, 0, 0, 1, 0, 1, 116, 0, 0, 0, 1, 97]

/-- After typing and an import of what the second peer typed at the same time, two characters are
typed. -/
def overtaken : Document :=
  (ofConfig {} ⟨1⟩).run
    [.edit (.root "t" .text), .edit (.insertText (.root "t" .text) 0 "ab"),
      .importWithStatus [ahead] 0, .edit (.insertText (.root "t" .text) 0 "xy")]

theorem commit_ok_iff_overtaken :
    overtaken.log.frontiers = ⟨[⟨⟨1⟩, 1⟩, ⟨⟨2⟩, 0⟩]⟩ ∧ (overtaken.commit none 0).2 = .ok () ∧
      ∃ c, overtaken.SealsAtClock (overtaken.commit none 0).1 c ∧ c.lamport = 4294967293 := by
  have hstate : (overtaken.log.frontiers, overtaken.log.nextLamport, overtaken.txn.items) =
      (⟨[⟨⟨1⟩, 1⟩, ⟨⟨2⟩, 0⟩]⟩, 4294967293, [(.root "t" .text, .insertText 0 "xy")]) := by cbv
  obtain ⟨hheads, hrest⟩ := Prod.mk.inj hstate
  obtain ⟨htime, hitems⟩ := Prod.mk.inj hrest
  have hreach : overtaken.Reachable := ⟨{}, ⟨1⟩, _, rfl⟩
  have hne : overtaken.txn.items ≠ [] := by simp [hitems]
  obtain ⟨hiff, hseals, _⟩ := commit_ok_iff hreach hne none 0
  have hok := hiff.mpr (by rw [htime, hitems]; decide)
  obtain ⟨c, hc⟩ := hseals hok
  exact ⟨hheads, hok, c, hc, hc.lamport_eq.trans htime⟩

end Document

end CausalReplica
