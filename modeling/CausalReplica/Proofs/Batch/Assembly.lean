import CausalReplica.Proofs.Batch.Encoding
import CausalReplica.Proofs.Batch.Runs
import CausalReplica.Proofs.Change.Layout
import Mathlib.Data.List.Perm.Basic

/-!
# Reading back batches

The records of a batch are read back as they were written. What is made of them is, peer by peer in
ascending order, the run that the changes of the peer are cut to; the break of the first peer that
has one is reported. Changes that make up a run for each peer are therefore all kept.
-/

namespace CausalReplica.Batch

variable {cs ds : List Change} {c : Change} {p : Peer}

theorem toChange_ofChange (h : c.Fits) : (Record.ofChange c).toChange = .ok c := by
  have hwf := h.wellFormed
  have hlay := Op.layOut_map_item hwf.consecutive hwf.counters_fit
  have hdeps : Frontiers.ofList c.deps.ids = c.deps := by
    apply congrArg Frontiers.mk
    apply Ordered.eq_of_mem_iff (Ordered.ascending_ofList _) h.deps_ascending
    exact fun _ => Ordered.mem_ofList
  have hitems : (c.ops.map Op.item).isEmpty = false := by
    rw [List.isEmpty_map]
    exact List.isEmpty_eq_false_iff.mpr hwf.ops_ne_nil
  have hfit : c.lamport + (c.start + Op.totalAtoms c.ops - c.start) ≤ Word.top := by
    have := hwf.lamports_fit
    omega
  unfold Record.toChange
  change (if (c.ops.map Op.item).isEmpty then _ else
    ((Op.layOut c.start (c.ops.map Op.item)).mapError (layoutFault c.peer)) >>= _) = _
  rw [hitems, hlay]
  change (if c.lamport + (c.start + Op.totalAtoms c.ops - c.start) ≤ Word.top then _ else _) = _
  rw [if_pos hfit]
  change Except.ok { c with deps := Frontiers.ofList c.deps.ids } = _
  rw [hdeps]

theorem toChanges_ofChange (h : ∀ c ∈ cs, c.Fits) :
    toChanges (cs.map Record.ofChange) = .ok cs := by
  induction cs with
  | nil => rfl
  | cons c cs ih =>
    have hrest := ih fun d hd => h d (List.mem_cons_of_mem c hd)
    rw [List.map_cons, toChanges, toChange_ofChange (h c List.mem_cons_self), hrest]
    rfl

theorem fits_ofChange (h : c.Fits) : (Record.ofChange c).Fits where
  id_fits := by
    have := h.wellFormed.stop_le_top
    have := h.wellFormed.start_lt_stop
    change c.start ≤ Word.top
    omega
  lamport_fits := Nat.le_of_lt h.wellFormed.lamport_lt_top
  timestamp_fits := h.timestamp_fits
  deps_fit := h.deps_fit
  items_fit := fun item hitem => by
    obtain ⟨op, hop, rfl⟩ := List.mem_map.mp hitem
    exact h.ops_fit op hop

theorem sized_ofChange (h : c.Sized) : (Record.ofChange c).Sized where
  deps_sized := h.deps_sized
  items_sized := by
    change LengthFits (c.ops.map Op.item).length
    rw [List.length_map]
    exact h.ops_sized
  contents_sized := fun item hitem => by
    obtain ⟨op, hop, rfl⟩ := List.mem_map.mp hitem
    exact h.contents_sized op hop

theorem splitHeader_magic (version : UInt8) (body : List UInt8) :
    splitHeader (magic ++ version :: body) = some (version, body) := rfl

theorem decode_of_reads {body : List UInt8} {rs : List Record}
    (h : Reads (decodeList decodeRecord) body rs) :
    decode (magic ++ formatVersion :: body) = ((toChanges rs).mapError .decode).map assemble := by
  have hread : (decodeList decodeRecord).run body = some (rs, []) := by
    have hall := h []
    rw [List.append_nil] at hall
    exact hall
  have hbody : decodeBody body = some rs := by
    unfold decodeBody
    rw [hread]
  unfold decode
  rw [splitHeader_magic]
  dsimp only
  rw [if_neg (fun hne => hne rfl), hbody]

theorem decode_encode_eq (h : ∀ c ∈ cs, c.Fits) (hlen : LengthFits cs.length)
    (hsize : ∀ c ∈ cs, (Record.ofChange c).Sized) : decode (encode cs) = .ok (assemble cs) := by
  have hread : Reads (decodeList decodeRecord) (encodeList encodeRecord (cs.map Record.ofChange))
      (cs.map Record.ofChange) := by
    refine reads_list (fun r hr => ?_) (by rwa [List.length_map])
    obtain ⟨c, hc, rfl⟩ := List.mem_map.mp hr
    exact reads_record (fits_ofChange (h c hc)) (hsize c hc)
  unfold encode
  rw [decode_of_reads hread, toChanges_ofChange h]
  rfl

theorem decode_encode_of_sized (h : ∀ c ∈ cs, c.Fits) (hlen : LengthFits cs.length)
    (hsize : ∀ c ∈ cs, c.Sized) : decode (encode cs) = .ok (assemble cs) :=
  decode_encode_eq h hlen fun c hc => sized_ofChange (hsize c hc)

/-- The lengths can be written when the bytes can be counted. -/
theorem decode_encode (h : ∀ c ∈ cs, c.Fits) (hcount : Countable (encode cs)) :
    decode (encode cs) = .ok (assemble cs) := by
  have hbytes : Countable (encodeList encodeRecord (cs.map Record.ofChange)) := by
    unfold encode at hcount
    exact hcount.right.of_cons
  refine decode_encode_eq h ?_ fun c hc => (hbytes.list_mem (List.mem_map_of_mem hc)).record
  rw [← List.length_map Record.ofChange]
  exact hbytes.list_length encodeRecord_pos

section ByPeer

/-- The peers of the changes, each once. -/
def peers (cs : List Change) : List Peer := Ordered.ofList (cs.map Change.peer)

/-- The changes of one peer, in the order given. -/
def ofPeer (p : Peer) (cs : List Change) : List Change := cs.filter fun c => c.peer = p

theorem mem_peers : p ∈ peers cs ↔ ∃ c ∈ cs, c.peer = p :=
  Ordered.mem_ofList.trans List.mem_map

theorem mem_ofPeer : c ∈ ofPeer p cs ↔ c ∈ cs ∧ c.peer = p := by simp [ofPeer]

theorem ofPeer_eq_nil (h : p ∉ peers cs) : ofPeer p cs = [] := by
  rw [List.eq_nil_iff_forall_not_mem]
  exact fun c hc => h (mem_peers.mpr ⟨c, mem_ofPeer.mp hc⟩)

theorem ofPeer_perm (h : cs.Perm ds) : (ofPeer p cs).Perm (ofPeer p ds) := h.filter _

theorem findD_byPeer : (byPeer cs).findD p [] = ofPeer p cs := by
  have hfold : ∀ (cs : List Change) (m : OrdMap Peer (List Change)),
      (cs.foldl (fun m c => m.insert c.peer (m.findD c.peer [] ++ [c])) m).findD p [] =
        m.findD p [] ++ ofPeer p cs := by
    intro cs
    induction cs with
    | nil => exact fun m => (List.append_nil _).symm
    | cons c cs ih =>
      intro m
      rw [List.foldl_cons, ih]
      by_cases hp : c.peer = p
      · subst hp
        simp [OrdMap.findD, OrdMap.find?_insert_self, ofPeer]
      · simp [OrdMap.findD, OrdMap.find?_insert_of_ne (Ne.symm hp), ofPeer, hp]
  exact hfold cs .empty

theorem keys_byPeer : (byPeer cs).keys = peers cs := by
  have hfold : ∀ (cs : List Change) (m : OrdMap Peer (List Change)),
      (cs.foldl (fun m c => m.insert c.peer (m.findD c.peer [] ++ [c])) m).keys =
        (cs.map Change.peer).foldl (fun acc q => Ordered.insert q acc) m.keys := by
    intro cs
    induction cs with
    | nil => exact fun m => rfl
    | cons c cs ih =>
      intro m
      rw [List.foldl_cons, ih, OrdMap.keys_insert]
      rfl
  exact hfold cs .empty

theorem entries_byPeer : (byPeer cs).entries = (peers cs).map fun p => (p, ofPeer p cs) := by
  have hentries : ∀ e ∈ (byPeer cs).entries, e = (e.1, ofPeer e.1 cs) := by
    intro e he
    rw [← findD_byPeer, OrdMap.findD, OrdMap.mem_entries_iff.mp he, Option.getD_some]
  rw [← keys_byPeer, OrdMap.keys, List.map_map]
  exact (List.map_id _).symm.trans (List.map_congr_left hentries)

/-- Taking the changes peer by peer leaves none out. -/
theorem flatMap_ofPeer_perm : ((peers cs).flatMap fun p => ofPeer p cs).Perm cs := by
  have hfold : ∀ (cs : List Change) (m : OrdMap Peer (List Change)),
      (cs.foldl (fun m c => m.insert c.peer (m.findD c.peer [] ++ [c])) m).values.flatten.Perm
        (m.values.flatten ++ cs) := by
    intro cs
    induction cs with
    | nil => exact fun m => (List.append_nil _).symm ▸ List.Perm.refl _
    | cons c cs ih =>
      intro m
      apply (ih _).trans
      exact (OrdMap.flatten_values_insert_perm.append_right cs).trans List.perm_middle.symm
  have hvalues : (byPeer cs).values = (peers cs).map fun p => ofPeer p cs := by
    rw [OrdMap.values, entries_byPeer, List.map_map]
    rfl
  have hperm := hfold cs .empty
  change (byPeer cs).values.flatten.Perm cs at hperm
  rwa [hvalues] at hperm

end ByPeer

section Assemble

theorem foldr_append (ps : List Peer) (f : Peer → Decoded) :
    ps.foldr (fun p d => (f p).append d) ⟨[], none⟩ =
      ⟨ps.flatMap fun p => (f p).changes, ps.findSome? fun p => (f p).error⟩ := by
  induction ps with
  | nil => rfl
  | cons p ps ih =>
    rw [List.foldr_cons, ih, List.flatMap_cons, List.findSome?_cons, Decoded.append]
    cases (f p).error <;> rfl

theorem assemble_eq (cs : List Change) :
    assemble cs = ⟨(peers cs).flatMap fun p => (peerRun p (ofPeer p cs)).changes,
      (peers cs).findSome? fun p => (peerRun p (ofPeer p cs)).error⟩ := by
  unfold assemble
  rw [entries_byPeer, List.foldr_map]
  exact foldr_append (peers cs) fun p => peerRun p (ofPeer p cs)

theorem peerRun_of_not_mem (h : p ∉ peers cs) : peerRun p (ofPeer p cs) = ⟨[], none⟩ := by
  simp [ofPeer_eq_nil h, peerRun]

theorem mem_ofPeer_of_mem_peerRun (h : c ∈ (peerRun p (ofPeer p cs)).changes) :
    c ∈ cs ∧ c.peer = p :=
  mem_ofPeer.mp (mem_of_mem_peerRun h)

theorem ofPeer_assemble : ofPeer p (assemble cs).changes = (peerRun p (ofPeer p cs)).changes := by
  have hself : ofPeer p (peerRun p (ofPeer p cs)).changes = (peerRun p (ofPeer p cs)).changes :=
    List.filter_eq_self.mpr fun c hc => decide_eq_true (mem_ofPeer_of_mem_peerRun hc).2
  have hother : ∀ {qs : List Peer}, p ∉ qs →
      (qs.flatMap fun q => ofPeer p (peerRun q (ofPeer q cs)).changes) = [] := by
    intro qs hp
    refine List.flatMap_eq_nil_iff.mpr fun q hq => List.eq_nil_iff_forall_not_mem.mpr fun c hc => ?_
    obtain ⟨hmem, hpeer⟩ := mem_ofPeer.mp hc
    exact hp ((hpeer.symm.trans (mem_ofPeer_of_mem_peerRun hmem).2) ▸ hq)
  rw [assemble_eq]
  change List.filter _ (List.flatMap _ _) = _
  rw [List.filter_flatMap]
  change ((peers cs).flatMap fun q => ofPeer p (peerRun q (ofPeer q cs)).changes) = _
  by_cases hp : p ∈ peers cs
  · have hasc : Ordered.Ascending (peers cs) := Ordered.ascending_ofList _
    obtain ⟨before, after, heq⟩ := List.append_of_mem hp
    rw [heq] at hasc ⊢
    obtain ⟨-, hafter, hbefore⟩ := List.pairwise_append.mp hasc
    have hnb : p ∉ before := fun h => Ordered.ne_of_lt (hbefore p h p List.mem_cons_self) rfl
    have hna : p ∉ after := Ordered.head_not_mem hafter
    rw [List.flatMap_append, List.flatMap_cons, hother hnb, hother hna, hself, List.append_nil,
      List.nil_append]
  · rw [hother hp, peerRun_of_not_mem hp]

theorem changes_assemble :
    (assemble cs).changes = (peers cs).flatMap fun p => ofPeer p (assemble cs).changes := by
  conv_lhs => rw [assemble_eq]
  exact List.flatMap_congr fun p _ => ofPeer_assemble.symm

/-- Changes that make up a run for each peer are all kept. -/
theorem assemble_perm (h : ∀ p, ∃ first last run, Change.Run p first last run ∧
    (ofPeer p cs).Perm run) : ∃ ds, assemble cs = ⟨ds, none⟩ ∧ ds.Perm cs := by
  have hrun : ∀ p, (peerRun p (ofPeer p cs)).error = none ∧
      (peerRun p (ofPeer p cs)).changes.Perm (ofPeer p cs) := by
    intro p
    obtain ⟨first, last, run, hrun, hperm⟩ := h p
    rw [peerRun_of_perm hrun hperm]
    exact ⟨rfl, hperm.symm⟩
  refine ⟨(assemble cs).changes, ?_, ?_⟩
  · have herr : (assemble cs).error = none := by
      rw [assemble_eq]
      exact List.findSome?_eq_none_iff.mpr fun p _ => (hrun p).1
    rw [← herr]
  · rw [assemble_eq]
    exact (List.Perm.flatMap_left _ fun p _ => (hrun p).2).trans flatMap_ofPeer_perm

end Assemble

end CausalReplica.Batch
