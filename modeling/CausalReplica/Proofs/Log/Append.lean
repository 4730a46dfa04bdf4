import CausalReplica.Log.Basic
import CausalReplica.Proofs.Change.Layout
import CausalReplica.Proofs.Log.Sound

/-!
# Appended changes are admitted

The change that an append records is the next one of its peer, with consecutive operations, and
comes later in Lamport time than its parents. When the dependencies are known and the counters
suffice, an append fails for want of Lamport times only.
-/

namespace CausalReplica

theorem LamportClock.succ_le_of_assign_le {parents : List Nat} {lamport l : Nat}
    (h : assign parents ≤ lamport) (hl : l ∈ parents) (hlt : lamport < Word.top) : l < lamport := by
  have hclamp : min (l + 1) Word.top ≤ lamport := assign_le_iff.mp h l hl
  omega

namespace ChangeLog

variable {log next : ChangeLog} {c : Change} {p : Peer} {deps : Frontiers} {timestamp : Int}
  {items : List (ContainerId × Content)}

theorem parentLamports_ok {ids : List OpId} {ls : List Nat} (h : log.parentLamports ids = .ok ls)
    {id : OpId} (hid : id ∈ ids) : ∃ l ∈ ls, log.lamportOf? id = some l := by
  induction ids generalizing ls with
  | nil => exact absurd hid List.not_mem_nil
  | cons first ids ih =>
    unfold parentLamports at h
    split at h
    · exact nomatch h
    · next l hl =>
      obtain ⟨rest, hrest, rfl⟩ := Outcome.of_map_ok h
      rcases List.mem_cons.mp hid with rfl | hid
      · exact ⟨l, List.mem_cons_self, hl⟩
      · obtain ⟨m, hm, heq⟩ := ih hrest hid
        exact ⟨m, List.mem_cons_of_mem l hm, heq⟩

theorem nextChange_ok (h : log.nextChange p items deps timestamp = .ok c) :
    items ≠ [] ∧ ∃ ls lamport ops stop,
      log.parentLamports (deps.ids ++ (OpId.prev ⟨p, log.nextCounter p⟩).toList) = .ok ls ∧
      lamport = LamportClock.assign ls ∧
      Op.layOut (log.nextCounter p) items = .ok (ops, stop) ∧
      lamport + (stop - log.nextCounter p) ≤ Word.top ∧
      c = { id := ⟨p, log.nextCounter p⟩, lamport, deps, timestamp, ops } := by
  unfold nextChange assignLamport at h
  split at h
  · exact nomatch h
  · next hne =>
    split at h
    · exact nomatch h
    · obtain ⟨lamport, hlam, h⟩ := Outcome.of_bind_ok h
      obtain ⟨ls, hls, rfl⟩ := Outcome.of_map_ok hlam
      obtain ⟨⟨ops, stop⟩, hlay, h⟩ := Outcome.of_bind_ok h
      replace hlay := Outcome.of_mapError_ok hlay
      dsimp only at h
      split at h
      · next hfit =>
        cases h
        exact ⟨by simpa using hne, ls, _, ops, stop, hls, rfl, hlay, hfit, rfl⟩
      · exact nomatch h

theorem vv_le_top (h : log.Runs) (p : Peer) : log.vv.get p ≤ Word.top := by
  rcases Nat.eq_zero_or_pos (log.vv.get p) with hz | hpos
  · omega
  · obtain ⟨c, hc, _, hlt⟩ :=
      (h p).exists_holding (n := log.vv.get p - 1) (Nat.zero_le _) (by omega)
    have := ((h p).mem hc).2.1.stop_le_top
    omega

/-- An appended change is admitted, and has the operations and dependencies it was given. -/
theorem nextChange_admits (h : log.nextChange p items deps timestamp = .ok c) (hs : log.Sound) :
    log.Admits c ∧ c.peer = p ∧ c.deps = deps ∧ c.timestamp = timestamp ∧
      c.ops.map Op.item = items := by
  obtain ⟨hne, ls, lamport, ops, stop, hls, hlam, hlay, hfit, rfl⟩ := nextChange_ok h
  obtain ⟨hcons, hstop, htop, hitems⟩ := Op.layOut_ok hlay (vv_le_top hs.runs p)
  have hops : ops ≠ [] := by
    intro hnil
    rw [hnil] at hitems
    exact hne hitems.symm
  have hpos := Op.totalAtoms_pos hcons hops
  refine ⟨⟨⟨hops, hcons, ?_, ?_⟩, rfl, ?_⟩, rfl, rfl, rfl, hitems⟩
  · change log.nextCounter p + Op.totalAtoms ops ≤ Word.top
    omega
  · change lamport + Op.totalAtoms ops ≤ Word.top
    omega
  · intro d hd
    obtain ⟨l, hl, heq⟩ := parentLamports_ok hls hd
    refine ⟨l, heq, ?_⟩
    change l < lamport
    exact LamportClock.succ_le_of_assign_le (Nat.le_of_eq hlam.symm) hl (by omega)

section Room

theorem exists_parentLamports (h : log.Runs) {ids : List OpId}
    (hids : ∀ id ∈ ids, log.contains id = true) : ∃ ls, log.parentLamports ids = .ok ls := by
  induction ids with
  | nil => exact ⟨[], rfl⟩
  | cons id ids ih =>
    obtain ⟨hid, hrest⟩ := List.forall_mem_cons.mp hids
    obtain ⟨ls, hls⟩ := ih hrest
    obtain ⟨c, hc, hcid⟩ := h.exists_change hid
    rw [parentLamports, h.lamportOf?_of_mem hc hcid, hls]
    exact ⟨_, rfl⟩

theorem exists_assignLamport (h : log.Runs) (p : Peer)
    (hdeps : ∀ id ∈ deps.ids, log.contains id = true) :
    ∃ lamport, log.assignLamport p deps = .ok lamport := by
  have hall : ∀ id ∈ deps.ids ++ (OpId.prev ⟨p, log.nextCounter p⟩).toList,
      log.contains id = true := by
    intro id hid
    rcases List.mem_append.mp hid with hid | hid
    · exact hdeps id hid
    · obtain ⟨hp, hnext⟩ := prev_eq_some_iff.mp (Option.mem_toList.mp hid)
      replace hp : id.peer = p := hp
      replace hnext : log.vv.get p = id.counter + 1 := hnext
      refine contains_iff.mpr ?_
      rw [hp]
      omega
  obtain ⟨ls, hls⟩ := exists_parentLamports h hall
  unfold assignLamport
  rw [hls]
  exact ⟨_, rfl⟩

theorem nextChange_eq {lamport : Nat} (hlamport : log.assignLamport p deps = .ok lamport)
    (hne : items ≠ []) (hpos : ∀ item ∈ items, 0 < item.2.atoms)
    (hfit : log.nextCounter p + Op.extent items ≤ Word.top) :
    ∃ ops, log.nextChange p items deps timestamp =
      if lamport + Op.extent items ≤ Word.top then
        .ok { id := ⟨p, log.nextCounter p⟩, lamport, deps, timestamp, ops }
      else .error (.invalidState (.noLamportRoom lamport (Op.extent items))) := by
  obtain ⟨ops, hops⟩ := Op.exists_layOut hpos hfit
  have hnonempty : ¬(items.isEmpty = true) := by simpa using hne
  have hatoms : ¬((items.any fun item => item.2.atoms = 0) = true) := by
    simp only [List.any_eq_true, decide_eq_true_eq, not_exists, not_and]
    exact fun item hitem => Nat.ne_of_gt (hpos item hitem)
  refine ⟨ops, ?_⟩
  unfold nextChange
  rw [if_neg hnonempty, if_neg hatoms, hlamport]
  dsimp only
  rw [hops]
  change (if lamport + (log.nextCounter p + Op.extent items - log.nextCounter p) ≤ Word.top
    then _ else throw _) = _
  rw [Nat.add_sub_cancel_left]
  rfl

end Room

theorem append_ok (h : log.append p items deps timestamp = .ok (next, c)) :
    log.nextChange p items deps timestamp = .ok c ∧ next = log.insert c := by
  obtain ⟨d, hd, heq⟩ := Outcome.of_map_ok h
  cases heq
  exact ⟨hd, rfl⟩

end ChangeLog

end CausalReplica
