import CausalReplica.Proofs.Batch.RoundTrip
import CausalReplica.Proofs.Batch.Yields
import CausalReplica.Proofs.Outcome

/-!
# Reading bytes of any origin

A record that becomes a change has passed every check, so the change is well-formed and could be
written in turn. What is read from a batch is ordered by peer and counter and gapless for each peer,
so writing it and reading it again changes nothing.
-/

namespace CausalReplica.Batch

variable {r : Record} {rs : List Record} {c : Change} {cs ds : List Change} {d : Decoded}
  {bytes : List UInt8} {p : Peer}

section Records

/-- A record becomes a change if it has operations and their counters and Lamport times fit. -/
theorem toChange_ok (h : r.toChange = .ok c) : ∃ stop,
    r.items ≠ [] ∧ Op.layOut r.id.counter r.items = .ok (c.ops, stop) ∧
      r.lamport + (stop - r.id.counter) ≤ Word.top ∧
      c.id = r.id ∧ c.lamport = r.lamport ∧ c.deps = .ofList r.deps ∧
      c.timestamp = r.timestamp := by
  unfold Record.toChange at h
  split at h
  · exact nomatch h
  · next hitems =>
    obtain ⟨⟨ops, stop⟩, hlay, hrest⟩ := Outcome.of_bind_ok h
    dsimp only at hrest
    split at hrest
    · next hfit =>
      cases hrest
      refine ⟨stop, ?_, Outcome.of_mapError_ok hlay, hfit, rfl, rfl, rfl, rfl⟩
      exact fun hnil => hitems (by rw [hnil]; rfl)
    · exact nomatch hrest

theorem fits_toChange (h : r.toChange = .ok c) (hr : r.Fits) : c.Fits := by
  obtain ⟨stop, hitems, hlay, hlamport, hid, hlam, hdeps, htime⟩ := toChange_ok h
  have hstart : c.start = r.id.counter := congrArg OpId.counter hid
  obtain ⟨hcons, hstop, htop, hitem⟩ := Op.layOut_ok hlay hr.id_fits
  have hmem : ∀ op ∈ c.ops, ItemFits op.item := by
    intro op hop
    exact hr.items_fit op.item (hitem ▸ List.mem_map_of_mem hop)
  refine ⟨⟨?_, hstart ▸ hcons, ?_, ?_⟩, ?_, ?_, htime ▸ hr.timestamp_fits, hmem⟩
  · rintro hnil
    rw [hnil] at hitem
    exact hitems hitem.symm
  · omega
  · omega
  · rw [hdeps]
    exact Ordered.ascending_ofList _
  · rw [hdeps]
    exact fun id hid => hr.deps_fit id (Frontiers.mem_ofList.mp hid)

theorem sized_toChange (h : r.toChange = .ok c) (hr : r.Fits) (hsize : r.Sized) : c.Sized := by
  obtain ⟨stop, -, hlay, -, -, -, hdeps, -⟩ := toChange_ok h
  obtain ⟨-, -, -, hitem⟩ := Op.layOut_ok hlay hr.id_fits
  refine ⟨?_, ?_, fun op hop => ?_⟩
  · rw [hdeps]
    exact Nat.lt_of_le_of_lt (Ordered.length_ofList_le _) hsize.deps_sized
  · have hlen := hsize.items_sized
    rwa [← hitem, List.length_map] at hlen
  · exact hsize.contents_sized op.item (hitem ▸ List.mem_map_of_mem hop)

theorem toChanges_ok (h : toChanges rs = .ok cs) :
    cs.length = rs.length ∧ ∀ c ∈ cs, ∃ r ∈ rs, r.toChange = .ok c := by
  induction rs generalizing cs with
  | nil =>
    cases h
    exact ⟨rfl, fun c hc => nomatch hc⟩
  | cons r rs ih =>
    obtain ⟨c, hc, hrest⟩ := Outcome.of_bind_ok h
    obtain ⟨cs', hcs, hcons⟩ := Outcome.of_bind_ok hrest
    cases hcons
    obtain ⟨hlen, hall⟩ := ih hcs
    refine ⟨by rw [List.length_cons, hlen, List.length_cons], ?_⟩
    rintro d (_ | ⟨_, hd⟩)
    · exact ⟨r, List.mem_cons_self, hc⟩
    · obtain ⟨r', hr', hto⟩ := hall d hd
      exact ⟨r', List.mem_cons_of_mem r hr', hto⟩

/-- What is read was assembled from changes that fit and could be written. -/
theorem decode_ok (h : decode bytes = .ok d) : ∃ cs, d = assemble cs ∧
    (∀ c ∈ cs, c.Fits ∧ c.Sized) ∧ LengthFits cs.length := by
  unfold decode at h
  split at h
  · exact nomatch h
  split at h
  · exact nomatch h
  split at h
  · exact nomatch h
  next rs hbody =>
    obtain ⟨cs, hcs, rfl⟩ := Outcome.of_map_ok h
    obtain ⟨hlen, hall⟩ := toChanges_ok (Outcome.of_mapError_ok hcs)
    unfold decodeBody at hbody
    split at hbody
    · next rs' hread =>
      cases hbody
      obtain ⟨hcount, hrecords⟩ := (yields_list yields_record) _ _ _ hread
      refine ⟨cs, rfl, fun c hc => ?_, hlen ▸ hcount⟩
      obtain ⟨r, hr, hto⟩ := hall c hc
      obtain ⟨hfit, hsize⟩ := hrecords r hr
      exact ⟨fits_toChange hto hfit, sized_toChange hto hfit hsize⟩
    · exact nomatch hbody

end Records

section NormalForm

/-- Nothing is made up or doubled. -/
theorem assemble_subperm (cs : List Change) : (assemble cs).changes.Subperm cs := by
  have hsub : (assemble cs).changes.Sublist ((peers cs).flatMap fun p => inCounterOrder p cs) := by
    rw [assemble_eq]
    exact List.Sublist.flatMap_right _ fun p _ => longestRun_peerRun.beginning.sublist
  have hperm : ((peers cs).flatMap fun p => inCounterOrder p cs).Perm cs :=
    (List.Perm.flatMap_left _ fun p _ => List.mergeSort_perm _ _).trans flatMap_ofPeer_perm
  exact hsub.subperm.trans hperm.subperm

theorem exists_run_assemble (h : ∀ c ∈ cs, c.WellFormed) (p : Peer) :
    ∃ first last, Change.Run p first last (ofPeer p (assemble cs).changes) := by
  refine exists_run_of_chained longestRun_assemble.chained fun c hc => ?_
  obtain ⟨hmem, hp⟩ := mem_ofPeer.mp hc
  exact ⟨hp, h c ((assemble_subperm cs).subset hmem)⟩

theorem ascending_assemble (h : ∀ c ∈ cs, c.WellFormed) :
    Ordered.Ascending ((assemble cs).changes.map Change.id) := by
  have hpeers : Ordered.Ascending (peers cs) := Ordered.ascending_ofList _
  refine List.pairwise_map.mpr ?_
  rw [changes_assemble]
  refine List.pairwise_flatMap.mpr ⟨fun p _ => ?_, hpeers.imp fun hlt c hc d hd => ?_⟩
  · obtain ⟨first, last, hrun⟩ := exists_run_assemble h p
    apply hrun.pairwise.imp_of_mem
    intro c d hc hd hle
    have hlt := (hrun.mem hc).2.1.start_lt_stop
    have hpeer : c.id.peer = d.id.peer := (hrun.mem hc).1.trans (hrun.mem hd).1.symm
    rw [OpId.compare_eq, hpeer, Std.ReflOrd.compare_self]
    exact Nat.compare_eq_lt.mpr (Nat.lt_of_lt_of_le hlt hle)
  · have hc' : c.id.peer = _ := (mem_ofPeer.mp hc).2
    have hd' : d.id.peer = _ := (mem_ofPeer.mp hd).2
    rw [OpId.compare_eq, hc', hd', hlt]
    rfl

/-- Assembled changes are assembled as they are. -/
theorem assemble_changes_assemble (h : ∀ c ∈ cs, c.WellFormed) :
    assemble (assemble cs).changes = ⟨(assemble cs).changes, none⟩ := by
  have hwf : ∀ c ∈ (assemble cs).changes, c.WellFormed :=
    fun c hc => h c ((assemble_subperm cs).subset hc)
  have hruns : ∀ p, ∃ first last run, Change.Run p first last run ∧
      (ofPeer p (assemble cs).changes).Perm run := by
    intro p
    obtain ⟨first, last, hrun⟩ := exists_run_assemble h p
    exact ⟨first, last, _, hrun, List.Perm.refl _⟩
  obtain ⟨ds, hds, hperm⟩ := assemble_perm hruns
  have hsorted := ascending_assemble hwf
  rw [hds] at hsorted ⊢
  have heq : ds = (assemble cs).changes := by
    apply hperm.eq_of_pairwise _ (List.pairwise_map.mp hsorted)
      (List.pairwise_map.mp (ascending_assemble h))
    intro c d _ _ hlt hgt
    exact absurd rfl (Ordered.ne_of_lt (Std.TransCmp.lt_trans hlt hgt))
  rw [heq]

end NormalForm

/-- Whatever bytes are accepted, the changes read from them are well-formed and fit, with ascending
dependencies; they are ordered by peer and counter, and those of one peer start where the one before
stopped. Written and read again they are the same, and no break is reported. -/
theorem decode_sound (h : decode bytes = .ok d) :
    (∀ c ∈ d.changes, c.Fits) ∧ Ordered.Ascending (d.changes.map Change.id) ∧
      (∀ p, ∃ first last, Change.Run p first last (ofPeer p d.changes)) ∧
      decode (encode d.changes) = .ok ⟨d.changes, none⟩ := by
  obtain ⟨cs, rfl, hall, hlen⟩ := decode_ok h
  have hsub := assemble_subperm cs
  have hwf : ∀ c ∈ cs, c.WellFormed := fun c hc => (hall c hc).1.wellFormed
  have hfit : ∀ c ∈ (assemble cs).changes, c.Fits := fun c hc => (hall c (hsub.subset hc)).1
  refine ⟨hfit, ascending_assemble hwf, exists_run_assemble hwf, ?_⟩
  have hlen' : LengthFits (assemble cs).changes.length := Nat.lt_of_le_of_lt hsub.length_le hlen
  rw [decode_encode_of_sized hfit hlen' fun c hc => (hall c (hsub.subset hc)).2,
    assemble_changes_assemble hwf]

/-- A batch of one change with its dependencies in descending order, and with its length, the
Lamport time and the number of operations in longer forms than they need. -/
def untidy : List UInt8 :=
  magic ++ [1, 251, 1, 0] ++ [1, 0] ++ [251, 5, 0] ++ [0] ++ [2, 3, 0, 2, 0] ++ [252, 1, 0, 0, 0] ++
    [0, 1, 109, 2] ++ [4, 0]

def tidy : Change where
  id := ⟨⟨1⟩, 0⟩
  lamport := 5
  deps := ⟨[⟨⟨2⟩, 0⟩, ⟨⟨3⟩, 0⟩]⟩
  timestamp := 0
  ops := [⟨0, .root "m" .map, .createChild .text⟩]

/-- Other bytes are written for the change than those it was read from, and it is read from both. -/
theorem decode_sound_untidy :
    decode untidy = .ok ⟨[tidy], none⟩ ∧ encode [tidy] ≠ untidy ∧
      decode (encode [tidy]) = .ok ⟨[tidy], none⟩ := by
  have hread : decode untidy = .ok ⟨[tidy], none⟩ := by cbv
  exact ⟨hread, by decide, (decode_sound hread).2.2.2⟩

end CausalReplica.Batch
