import CausalReplica.Proofs.Document.Run

/-!
# Recorded operations keep their ids

An operation gets its id when it is recorded, before there is a change that holds it. Until the next
commit nothing moves the counters: edits only record more behind it, and the peer cannot change. So
the commit puts every operation where its id says, and a child is named after the operation that
creates it.
-/

namespace CausalReplica.Document

variable {d mid next last : Document} {container child parent : ContainerId} {content : Content}
  {id : OpId} {kind : Kind} {added more : List (ContainerId × Content)} {call : Call} {c : Change}
  {origin : Option String} {now : Int}

/-- The operations recorded since the last commit, at their counters. -/
def recorded (d : Document) : List Op := Op.place (d.log.nextCounter d.peer) d.txn.items

section Commit

theorem change_ok (h : d.change now = .ok c) :
    c.id = ⟨d.peer, d.log.nextCounter d.peer⟩ ∧ c.deps = d.log.frontiers ∧ c.ops = d.recorded := by
  obtain ⟨_, ls, lamport, ops, stop, _, _, hlay, _, rfl⟩ := ChangeLog.nextChange_ok h
  exact ⟨rfl, rfl, Op.eq_place_of_layOut hlay⟩

/-- What the commit at the beginning of a call puts into the log is there after the call. -/
theorem Coherent.committed_partOf (h : Coherent d) (hcall : call.commitOf? = some (origin, now)) :
    (d.commit origin now).1.log.PartOf (d.perform call).log := by
  rcases d.perform_cases call with ⟨hnone, _⟩ | ⟨origin', now', hsome, hcommit⟩
  · exact nomatch hnone.symm.trans hcall
  · cases hsome.symm.trans hcall
    rcases hcommit with heq | ⟨batches, decoded, hread, heq⟩
    · rw [heq]
      exact .refl _
    · rw [heq, absorb_log]
      exact ((h.commit origin now).1.importChanges (decodeAll_wellFormed hread)).2

/-- The call commits what is recorded in `d` as the change `c`. -/
structure Seals (d : Document) (call : Call) (c : Change) : Prop where
  committed : ∀ origin now, call.commitOf? = some (origin, now) →
    (d.commit origin now).1.log = d.log.insert c
  stored : d.log.changesOf d.peer ++ [c] <+: (d.perform call).log.changesOf d.peer
  id_eq : c.id = ⟨d.peer, d.log.nextCounter d.peer⟩
  deps_eq : c.deps = d.log.frontiers
  items_eq : c.ops.map Op.item = d.txn.items
  consecutive : Op.Consecutive c.start c.ops

theorem Coherent.exists_seals (h : Coherent d) (hne : d.txn.items ≠ [])
    (hcall : call.commitOf? = some (origin, now)) (hok : (d.commit origin now).2 = .ok ()) :
    ∃ c, d.Seals call c ∧ c.ops = d.recorded := by
  have hgrow := h.committed_partOf hcall
  rcases d.commit_cases origin now with ⟨hnil, _⟩ | ⟨_, _, _, heq⟩ | ⟨c, _, hchange, heq⟩
  · exact absurd hnil hne
  · rw [heq] at hok
    exact nomatch hok
  · rw [heq] at hgrow
    obtain ⟨hid, hdeps, hops⟩ := change_ok hchange
    obtain ⟨hadmits, hpeer, _, _, hitems⟩ := ChangeLog.nextChange_admits hchange h.intact.sound
    refine ⟨c, ⟨fun o n hsame => ?_, ?_, hid, hdeps, hitems, hadmits.wellFormed.consecutive⟩, hops⟩
    · cases hcall.symm.trans hsame
      rw [heq]
      rfl
    · have hinsert : (d.log.insert c).changesOf d.peer = d.log.changesOf d.peer ++ [c] := by
        rw [ChangeLog.changesOf_insert, if_pos hpeer.symm]
      exact hinsert ▸ hgrow d.peer

end Commit

/-- A step of a document without a commit. All that an edit does to a document it does in steps of
the first two kinds. -/
inductive Uncommitted : Document → Document → Prop
  | register (d : Document) (id : ContainerId) : Uncommitted d (d.register id)
  | record {d next : Document} {container : ContainerId} {content : Content} {id : OpId}
      (h : d.record container content = .ok (next, id)) : Uncommitted d next
  | call (d : Document) (call : Call) (h : call.commitOf? = none) : Uncommitted d (d.perform call)

/-- `last` comes from `d` without a commit in between. -/
def Leads : Document → Document → Prop := Relation.ReflTransGen Uncommitted

theorem followsEdits_leads : FollowsEdits Leads where
  refl := fun _ => .refl
  trans := .trans
  register := fun d id => .single (.register d id)
  record := fun h _ => .single (.record h)

theorem leads_run {calls : List Call} (h : ∀ call ∈ calls, call.commitOf? = none) :
    Leads d (d.run calls) := by
  induction calls generalizing d with
  | nil => exact .refl
  | cons call calls ih =>
    obtain ⟨hcall, hcalls⟩ := List.forall_mem_cons.mp h
    exact .head (.call d call hcall) (ih hcalls)

/-- The same peer and log, and `more` recorded behind what was recorded. -/
structure Keeps (d next : Document) (more : List (ContainerId × Content)) : Prop where
  peer_eq : next.peer = d.peer
  log_eq : next.log = d.log
  txn_eq : next.txn = ⟨d.txn.items ++ more, d.txn.length + Op.extent more⟩

namespace Keeps

theorem of_txn_eq (hpeer : next.peer = d.peer) (hlog : next.log = d.log) (htxn : next.txn = d.txn) :
    Keeps d next [] :=
  ⟨hpeer, hlog, by simp [htxn]⟩

theorem trans (h : Keeps d mid added) (h' : Keeps mid next more) :
    Keeps d next (added ++ more) where
  peer_eq := h'.peer_eq.trans h.peer_eq
  log_eq := h'.log_eq.trans h.log_eq
  txn_eq := by simp [h'.txn_eq, h.txn_eq, Nat.add_assoc]

theorem of_extends (h : Extends d next added) : Keeps d next added := by
  obtain ⟨⟨registry, rfl⟩, _, _⟩ := h
  exact ⟨rfl, rfl, rfl⟩

theorem of_record (h : d.record container content = .ok (next, id)) :
    Keeps d next [(container, content)] := by
  obtain ⟨_, _, _, registry, rfl, _⟩ := record_spec h
  exact ⟨rfl, rfl, by simp⟩

theorem items_ne_nil (h : Keeps d next more) (hne : d.txn.items ≠ []) : next.txn.items ≠ [] := by
  simp [h.txn_eq, hne]

end Keeps

/-- Once something is recorded, only a commit can change the peer or the log. -/
theorem Uncommitted.exists_keeps (h : Uncommitted d next) (hne : d.txn.items ≠ []) :
    ∃ more, Keeps d next more := by
  cases h with
  | register id => exact ⟨[], .of_txn_eq rfl rfl rfl⟩
  | record hrec => exact ⟨_, .of_record hrec⟩
  | call call hnone =>
    rcases d.perform_cases call with ⟨_, ⟨e, rfl⟩ | ⟨p, hok⟩ | ⟨observers, heq⟩⟩ | ⟨_, _, hsome, _⟩
    · obtain ⟨added, hext⟩ := d.exists_extends_apply e
      exact ⟨added, .of_extends hext⟩
    · exact absurd (setPeer_ok hok).2.1 hne
    · rw [heq]
      exact ⟨[], .of_txn_eq rfl rfl rfl⟩
    · exact nomatch hnone.symm.trans hsome

theorem Leads.exists_keeps (h : Leads d last) (hne : d.txn.items ≠ []) :
    ∃ more, Keeps d last more := by
  induction h with
  | refl => exact ⟨[], .of_txn_eq rfl rfl rfl⟩
  | tail _ step ih =>
    obtain ⟨added, hkeeps⟩ := ih
    obtain ⟨more, hstep⟩ := step.exists_keeps (hkeeps.items_ne_nil hne)
    exact ⟨added ++ more, hkeeps.trans hstep⟩

/-- As long as there is no commit, a recorded operation stands where its id says. -/
theorem mem_recorded (h : d.record container content = .ok (next, id)) (hlead : next.Leads last)
    (hlast : Coherent last) :
    last.txn.items ≠ [] ∧ id.peer = last.peer ∧
      ⟨id.counter, container, content⟩ ∈ last.recorded := by
  obtain ⟨_, rfl, _⟩ := record_spec h
  have hrecord := Keeps.of_record h
  obtain ⟨more, hmore⟩ := hlead.exists_keeps (by simp [hrecord.txn_eq])
  have hall := hrecord.trans hmore
  -- The length is that of the items for the whole list, so it was for the part before.
  have hlen : d.txn.length = Op.extent d.txn.items := by
    have hlength := hlast.length_eq
    simp only [hall.txn_eq, Op.extent_append] at hlength
    omega
  refine ⟨by simp [hall.txn_eq], hall.peer_eq.symm, ?_⟩
  rw [recorded, hall.txn_eq, hall.log_eq, hall.peer_eq, Op.place_append, hlen]
  exact List.mem_append_right _ List.mem_cons_self

theorem insertChildWith_ok {refer : Document → Value → Except Error Document}
    (h : d.insertChildWith parent kind refer = (next, .ok child))
    (hrefer : ∀ {created value next}, refer created value = .ok next → Leads created next) :
    ∃ created id, d.record parent (.createChild kind) = .ok (created, id) ∧
      child = .child id kind ∧ created.Leads next := by
  unfold insertChildWith at h
  split at h
  · exact nomatch (Prod.mk.inj h).2
  · next created id hrec =>
    dsimp only at h
    split at h
    · exact nomatch (Prod.mk.inj h).2
    · next hok =>
      cases h
      exact ⟨created, id, hrec, rfl, hrefer hok⟩

section Sealed

variable (h : Coherent last) (hcall : call.commitOf? = some (origin, now))
  (hok : (last.commit origin now).2 = .ok ())
include h hcall hok

theorem exists_seals_mem (hrec : d.record container content = .ok (next, id))
    (hlead : next.Leads last) :
    ∃ c, last.Seals call c ∧ id.peer = c.peer ∧ ⟨id.counter, container, content⟩ ∈ c.ops := by
  obtain ⟨hne, hpeer, hmem⟩ := mem_recorded hrec hlead h
  obtain ⟨c, hseals, hops⟩ := h.exists_seals hne hcall hok
  refine ⟨c, hseals, ?_, hops ▸ hmem⟩
  rw [hpeer, Change.peer, hseals.id_eq]

theorem exists_seals_created {refer : Document → Value → Except Error Document}
    (hins : d.insertChildWith parent kind refer = (next, .ok child))
    (hrefer : ∀ {created value next}, refer created value = .ok next → Leads created next)
    (hlead : next.Leads last) :
    ∃ c, last.Seals call c ∧ ∃ op ∈ c.ops, op.container = parent ∧
      op.created? c.peer = some child := by
  obtain ⟨created, id, hrec, rfl, hrest⟩ := insertChildWith_ok hins hrefer
  obtain ⟨c, hseals, hpeer, hmem⟩ := exists_seals_mem h hcall hok hrec (hrest.trans hlead)
  refine ⟨c, hseals, _, hmem, rfl, ?_⟩
  change some (ContainerId.child ⟨c.peer, id.counter⟩ kind) = some (.child id kind)
  rw [← hpeer]

end Sealed

/-- When a commit succeeds, explicit or not, it stores what is recorded as one change, in order and
from the next counter of the peer on. Every operation recorded since the last commit is in it under
the id that was handed out, and every child handed out is named by the operation that creates it. -/
theorem ids_recorded (h : last.Reachable) (hcall : call.commitOf? = some (origin, now))
    (hok : (last.commit origin now).2 = .ok ()) :
    (∀ (d next : Document) container content id, d.record container content = .ok (next, id) →
      next.Leads last →
      ∃ c, last.Seals call c ∧ id.peer = c.peer ∧ ⟨id.counter, container, content⟩ ∈ c.ops) ∧
    (∀ (d next : Document) handle pos kind child,
      d.insertListChild handle pos kind = (next, .ok child) →
      next.Leads last →
      ∃ c, last.Seals call c ∧
        ∃ op ∈ c.ops, op.container = handle.id ∧ op.created? c.peer = some child) ∧
    ∀ (d next : Document) handle key kind child,
      d.insertMapChild handle key kind = (next, .ok child) →
      next.Leads last →
      ∃ c, last.Seals call c ∧
        ∃ op ∈ c.ops, op.container = handle.id ∧ op.created? c.peer = some child := by
  refine ⟨fun d next container content id hrec hlead => ?_,
    fun d next handle pos kind child hins hlead => ?_,
    fun d next handle key kind child hins hlead => ?_⟩
  · exact exists_seals_mem h.coherent hcall hok hrec hlead
  · exact exists_seals_created h.coherent hcall hok hins followsEdits_leads.insertValue hlead
  · exact exists_seals_created h.coherent hcall hok hins followsEdits_leads.setKey hlead

/-- A batch in which the first peer types two characters. -/
def greeting : List UInt8 := [67, 68, 79, 67, 1, 1, 1, 0, 0, 0, 0, 1, 0, 1, 116, 0, 0, 0, 2, 97, 98]

/-- The first peer, with a list, after it got back what it had typed. -/
def restored : Document :=
  (ofConfig {} ⟨1⟩).run [.edit (.root "l" .list), .importBatches [greeting] 0]

/-- A child was created in the list and then changed, and a change of peer was refused. -/
def nested : Document :=
  (restored.insertListChild ⟨.root "l" .list, rfl⟩ 0 .map).1.run
    [.setPeer ⟨2⟩, .edit (.setKey ⟨.child ⟨⟨1⟩, 2⟩ .map, rfl⟩ "k" .null)]

theorem ids_recorded_child :
    (restored.insertListChild ⟨.root "l" .list, rfl⟩ 0 .map).2 = .ok (.child ⟨⟨1⟩, 2⟩ .map) ∧
      (nested.commit none 0).2 = .ok () ∧
      ∃ c, nested.Seals (.exportFrom .empty 0) c ∧
        ∃ op ∈ c.ops, op.container = .root "l" .list ∧
          op.created? c.peer = some (.child ⟨⟨1⟩, 2⟩ .map) := by
  have hchild : (restored.insertListChild ⟨.root "l" .list, rfl⟩ 0 .map).2 =
      .ok (.child ⟨⟨1⟩, 2⟩ .map) := by cbv
  have hok : (nested.commit none 0).2 = .ok () := by cbv
  have hreach : nested.Reachable :=
    ⟨{}, ⟨1⟩, [.edit (.root "l" .list), .importBatches [greeting] 0,
      .edit (.insertListChild ⟨.root "l" .list, rfl⟩ 0 .map), .setPeer ⟨2⟩,
      .edit (.setKey ⟨.child ⟨⟨1⟩, 2⟩ .map, rfl⟩ "k" .null)], rfl⟩
  have hcall : Call.commitOf? (.exportFrom .empty 0) = some (none, 0) := rfl
  obtain ⟨_, hlist, _⟩ := ids_recorded hreach hcall hok
  refine ⟨hchild, hok, hlist restored _ _ 0 .map _ (Prod.ext rfl hchild) (leads_run ?_)⟩
  simp [Call.commitOf?]

end CausalReplica.Document
