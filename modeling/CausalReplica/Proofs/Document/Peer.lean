import CausalReplica.Proofs.Document.Registry

/-!
# Taking another peer's place

A document may become another peer as long as neither its own peer nor the new one has anything in
its log. Changes that still wait to enter the log do not count, so a document can become the peer of
such a change. Then what it commits takes ids that the waiting change has already.
-/

namespace CausalReplica

namespace Change

variable {c r : Change}

/-- Some operation has its place in both changes. -/
def SharesId (c r : Change) : Prop := ∃ x, c.contains x = true ∧ r.contains x = true

theorem sharesId_iff (hc : c.WellFormed) (hr : r.WellFormed) :
    c.SharesId r ↔ r.peer = c.peer ∧ r.start < c.stop ∧ c.start < r.stop := by
  constructor
  · rintro ⟨x, hcx, hrx⟩
    obtain ⟨hcp, hcle, hclt⟩ := contains_iff.mp hcx
    obtain ⟨hrp, hrle, hrlt⟩ := contains_iff.mp hrx
    exact ⟨hrp.symm.trans hcp, by omega, by omega⟩
  · rintro ⟨hp, hrc, hcr⟩
    have hcpos := hc.start_lt_stop
    have hrpos := hr.start_lt_stop
    -- The later of the two starts lies in both.
    refine ⟨⟨c.peer, max c.start r.start⟩, ?_, ?_⟩
    · exact contains_iff.mpr ⟨rfl, by dsimp only; omega⟩
    · exact contains_iff.mpr ⟨hp.symm, by dsimp only; omega⟩

end Change

/-- The change was received or issued: it is stored, or waits for what it depends on. -/
def ChangeLog.Holds (log : ChangeLog) (r : Change) : Prop :=
  r ∈ log.changesOf r.peer ∨ r ∈ log.pending.toList

namespace Document

variable {d next : Document} {p : Peer} {call : Call} {c r : Change} {log : ChangeLog}

theorem exists_setPeer_iff (d : Document) (p : Peer) :
    (∃ next, d.setPeer p = .ok next) ↔
      d.log.changesOf d.peer = [] ∧ d.txn.items = [] ∧ d.log.changesOf p = [] := by
  constructor
  · rintro ⟨next, hok⟩
    obtain ⟨hown, hitems, hfree, _⟩ := setPeer_ok hok
    exact ⟨hown, hitems, hfree⟩
  · rintro ⟨hown, hitems, hfree⟩
    exact ⟨{ d with peer := p }, by simp [setPeer, hown, hitems, hfree]⟩

namespace Seals

variable (hs : d.Seals call c) (h : Coherent d)
include hs

theorem not_contains {x : OpId} (hx : c.contains x = true) : d.log.contains x = false := by
  obtain ⟨hp, hle, _⟩ := Change.contains_iff.mp hx
  rw [Change.peer, hs.id_eq] at hp
  rw [Change.start, hs.id_eq] at hle
  apply Bool.eq_false_iff.mpr
  intro hin
  have hlt := ChangeLog.contains_iff.mp hin
  rw [hp] at hlt
  exact Nat.not_lt.mpr hle hlt

include h

theorem wellFormed : c.WellFormed := by
  have hmem : c ∈ (d.perform call).log.changesOf d.peer := hs.stored.subset (by simp)
  exact (((h.perform call).intact.sound.runs d.peer).mem hmem).2.1

/-- Of all that was held when the committed operations got their ids or before, only what waited can
have one of these. -/
theorem sharesId_iff_of_held (hlog : log.Intact) (hgrow : log.PartOf d.log) (hr : log.Holds r) :
    c.SharesId r ↔
      r ∈ log.pending.toList ∧ r.peer = c.peer ∧ r.start < c.stop ∧ c.start < r.stop := by
  have hwaiting : r ∈ log.pending.toList →
      (c.SharesId r ↔ r.peer = c.peer ∧ r.start < c.stop ∧ c.start < r.stop) := by
    intro hmem
    obtain ⟨m, hm⟩ := PendingChanges.mem_toList.mp hmem
    exact Change.sharesId_iff (hs.wellFormed h) (hlog.waiting_wellFormed m r hm)
  constructor
  · intro hshare
    rcases hr with hstored | hmem
    · obtain ⟨x, hcx, hrx⟩ := hshare
      have hpeer := (Change.contains_iff.mp hrx).1
      have hin : d.log.contains x = true :=
        h.intact.sound.runs.contains_of_mem (hpeer ▸ hgrow.mem hstored) hrx
      exact nomatch (hs.not_contains hcx).symm.trans hin
    · exact ⟨hmem, (hwaiting hmem).mp hshare⟩
  · rintro ⟨hmem, hplace⟩
    exact (hwaiting hmem).mpr hplace

end Seals

/-- A document becomes another peer exactly when nothing is recorded and neither its own peer nor
the new one has a change in its log. Then it holds no change of the new peer unless one waits.
Whatever happens afterwards, a committed change has an id in common with one that was held at the
time or at any time since exactly when that one was waiting, is of the same peer and overlaps it. -/
theorem setPeer_collides_only_with_waiting (h : d.Reachable) :
    ((∃ next, d.setPeer p = .ok next) ↔
      d.log.changesOf d.peer = [] ∧ d.txn.items = [] ∧ d.log.changesOf p = []) ∧
    ∀ next, d.setPeer p = .ok next → next.log = d.log ∧
      ((∀ r, d.log.Holds r → r.peer ≠ p) ↔ ∀ r ∈ d.log.pending.toList, r.peer ≠ p) ∧
      ∀ before after call c, ((next.run before).run after).Seals call c →
        ∀ r, (next.run before).log.Holds r →
          (c.SharesId r ↔ r ∈ (next.run before).log.pending.toList ∧
            r.peer = c.peer ∧ r.start < c.stop ∧ c.start < r.stop) := by
  refine ⟨d.exists_setPeer_iff p, fun next hok => ?_⟩
  have hnext := h.coherent.setPeer hok
  obtain ⟨_, _, hfree, heq⟩ := setPeer_ok hok
  refine ⟨by rw [heq], ⟨fun hnone r hr => hnone r (.inr hr), fun hnone r hr => ?_⟩,
    fun before after call c hs r hr => ?_⟩
  · rcases hr with hstored | hmem
    · rintro rfl
      rw [hfree] at hstored
      exact nomatch hstored
    · exact hnone r hmem
  · have hbefore := hnext.run before
    have hgrow := ((next.run before).run_steps after).intact hbefore.intact
    exact hs.sharesId_iff_of_held (hbefore.run after) hbefore.intact hgrow.2 hr

/-- The change of the second peer that waits in `early`. -/
def sprouted : Change :=
  ⟨⟨⟨2⟩, 0⟩, 5, ⟨[⟨⟨1⟩, 0⟩]⟩, 0, [⟨0, .root "l" .list, .createChild .map⟩]⟩

/-- The second peer, after it recorded something in `early`. -/
def impostor : Document :=
  ({ early with peer := ⟨2⟩ }).run
    [.edit (.root "n" .map), .edit (.setKey ⟨.root "n" .map, rfl⟩ "k" .null)]

theorem early_reachable : early.Reachable := ⟨{}, ⟨3⟩, [.importWithStatus [sprout] 0], rfl⟩

theorem early_setPeer : early.setPeer ⟨2⟩ = .ok { early with peer := ⟨2⟩ } := by cbv

theorem early_waits : sprouted ∈ early.log.pending.toList := by
  have hpending : early.log.pending.toList = [sprouted] := by cbv
  simp [hpending]

theorem impostor_seals :
    ∃ c, impostor.Seals (.commit none 0) c ∧ c.peer = ⟨2⟩ ∧ c.start = 0 ∧ 0 < c.stop := by
  have hcoherent : Coherent impostor := (early_reachable.coherent.setPeer early_setPeer).run _
  have hitems : impostor.txn.items = [(.root "n" .map, .setKey "k" (some .null))] := by cbv
  have hcall : Call.commitOf? (.commit none 0) = some (none, 0) := rfl
  obtain ⟨c, hs, _⟩ := hcoherent.exists_seals (by simp [hitems]) hcall (by cbv)
  have hid : c.id = ⟨⟨2⟩, 0⟩ := hs.id_eq.trans (by cbv)
  have hstart : c.start = 0 := congrArg OpId.counter hid
  exact ⟨c, hs, congrArg OpId.peer hid, hstart, hstart ▸ (hs.wellFormed hcoherent).start_lt_stop⟩

theorem setPeer_collides_only_with_waiting_sprouted :
    early.Reachable ∧ early.setPeer ⟨2⟩ = .ok { early with peer := ⟨2⟩ } ∧
      ∃ c, impostor.Seals (.commit none 0) c ∧ c.SharesId sprouted := by
  obtain ⟨_, hlater⟩ := setPeer_collides_only_with_waiting (p := ⟨2⟩) early_reachable
  obtain ⟨_, _, hcollide⟩ := hlater _ early_setPeer
  obtain ⟨c, hs, hpeer, hstart, hstop⟩ := impostor_seals
  have hplace : c.start < sprouted.stop := by
    rw [hstart]
    decide
  refine ⟨early_reachable, early_setPeer, c, hs, ?_⟩
  exact (hcollide [] _ _ c hs sprouted (.inr early_waits)).mpr
    ⟨early_waits, hpeer.symm, hstop, hplace⟩

/-- Becoming the peer of a waiting change is not refused, and what is committed then has its ids. -/
theorem setPeer_takes_id_of_waiting :
    (¬ ∀ (d next : Document) p, d.Reachable → p ≠ d.peer → d.setPeer p = .ok next →
      ∀ r, d.log.Holds r → r.peer ≠ p) ∧
    ¬ ∀ (d next : Document) p, d.Reachable → p ≠ d.peer → d.setPeer p = .ok next →
      ∀ calls call c, (next.run calls).Seals call c → ∀ r, d.log.Holds r → ¬ c.SharesId r := by
  have hother : (⟨2⟩ : Peer) ≠ early.peer := by
    have hpeer : early.peer = ⟨3⟩ := by cbv
    simp [hpeer]
  constructor
  · intro hnone
    exact hnone early _ ⟨2⟩ early_reachable hother early_setPeer sprouted (.inr early_waits) rfl
  · intro hnone
    obtain ⟨c, hs, hpeer, hstart, hstop⟩ := impostor_seals
    apply hnone early _ ⟨2⟩ early_reachable hother early_setPeer _ _ c hs sprouted
      (.inr early_waits)
    refine ⟨⟨⟨2⟩, 0⟩, ?_, by decide⟩
    exact Change.contains_iff.mpr ⟨hpeer.symm, hstart.le, hstop⟩

end Document

end CausalReplica
