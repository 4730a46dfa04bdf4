import CausalReplica.Proofs.Batch.Decoding
import CausalReplica.Proofs.Document.Exchange
import CausalReplica.Proofs.Log.Reachable

/-!
# Runs of one document

A document goes through calls, any of which may fail, with any bytes to import. Between calls its
log is intact, and what is recorded takes exactly the counters reserved for it, which continue those
of the log.
-/

namespace CausalReplica.Document

variable {d next last : Document} {container : ContainerId} {content : Content} {id : OpId}
  {p : Peer} {added more : List (ContainerId × Content)} {batches : List (List UInt8)}

/-- What can be asked of a document. -/
inductive Call where
  | edit (e : Edit)
  | setPeer (p : Peer)
  | commit (origin : Option String) (now : Int)
  | exportFrom (v : VersionVector) (now : Int)
  | importWithStatus (batches : List (List UInt8)) (now : Int)
  | importBatches (batches : List (List UInt8)) (now : Int)
  | subscribe (container : Option ContainerId) (once : Bool)
  | unsubscribe (id : Nat)
  | drain

/-- The document after a call, whether or not it succeeds. -/
def perform (d : Document) : Call → Document
  | .edit e => d.apply e
  | .setPeer p => d.orKeep (d.setPeer p)
  | .commit origin now => (d.commit origin now).1
  | .exportFrom v now => (d.exportFrom v now).1
  | .importWithStatus batches now => (d.importWithStatus batches now).1
  | .importBatches batches now => (d.importBatches batches now).1
  | .subscribe container once => (d.subscribe container once).1
  | .unsubscribe id => (d.unsubscribe id).1
  | .drain => d.drain.2

/-- The label and the time of the commit that the call begins with, if it begins with one. -/
def Call.commitOf? : Call → Option (Option String × Int)
  | .commit origin now => some (origin, now)
  | .exportFrom _ now | .importWithStatus _ now | .importBatches _ now => some (none, now)
  | _ => none

/-- Without a commit a call edits, or changes the peer, or concerns the observers only. After a
commit it may absorb changes. -/
theorem perform_cases (d : Document) (call : Call) :
    (call.commitOf? = none ∧ ((∃ e, call = .edit e) ∨ (∃ p, d.setPeer p = .ok (d.perform call)) ∨
      ∃ observers, d.perform call = { d with observers })) ∨
    ∃ origin now, call.commitOf? = some (origin, now) ∧
      (d.perform call = (d.commit origin now).1 ∨
        ∃ batches decoded, decodeAll batches = .ok decoded ∧
          d.perform call = (d.commit origin now).1.absorb decoded.changes) := by
  have himport : ∀ batches now, (d.importWithStatus batches now).1 = (d.commit none now).1 ∨
      ∃ batches' decoded, decodeAll batches' = .ok decoded ∧
        (d.importWithStatus batches now).1 = (d.commit none now).1.absorb decoded.changes :=
    fun batches now => (d.importWithStatus_cases batches now).imp_right fun h => ⟨batches, h⟩
  cases call with
  | edit e => exact .inl ⟨rfl, .inl ⟨e, rfl⟩⟩
  | setPeer p =>
    refine .inl ⟨rfl, .inr ?_⟩
    rw [perform]
    cases hok : d.setPeer p with
    | error e => exact .inr ⟨d.observers, rfl⟩
    | ok next => exact .inl ⟨p, hok⟩
  | commit origin now => exact .inr ⟨origin, now, rfl, .inl rfl⟩
  | exportFrom v now => exact .inr ⟨none, now, rfl, .inl exportFrom_fst⟩
  | importWithStatus batches now => exact .inr ⟨none, now, rfl, himport batches now⟩
  | importBatches batches now =>
    refine .inr ⟨none, now, rfl, ?_⟩
    rw [perform, importBatches_fst]
    exact himport batches now
  | subscribe container once => exact .inl ⟨rfl, .inr (.inr ⟨_, rfl⟩)⟩
  | unsubscribe id => exact .inl ⟨rfl, .inr (.inr ⟨_, rfl⟩)⟩
  | drain => exact .inl ⟨rfl, .inr (.inr ⟨_, rfl⟩)⟩

def run (d : Document) (calls : List Call) : Document := calls.foldl perform d

/-- Some calls lead from a new document to this one. -/
def Reachable (d : Document) : Prop := ∃ config drawn calls, (ofConfig config drawn).run calls = d

section Edits

variable {R : Document → Document → Prop}

/-- What relates a document to those that come from it by learning of containers and recording
operations that have atoms. -/
structure FollowsEdits (R : Document → Document → Prop) : Prop where
  refl : ∀ d, R d d
  trans : ∀ {d next last}, R d next → R next last → R d last
  register : ∀ d id, R d (d.register id)
  record : ∀ {d next container content id}, d.record container content = .ok (next, id) →
    0 < content.atoms → R d next

namespace FollowsEdits

theorem edit (h : FollowsEdits R) (hok : d.edit container content = .ok next)
    (hpos : 0 < content.atoms) : R d next := by
  obtain ⟨⟨recorded, id⟩, hrec, rfl⟩ := Outcome.of_map_ok hok
  exact h.record hrec hpos

theorem insertText (h : FollowsEdits R) {handle : Handle .text} {pos : Nat} {text : String}
    (hok : d.insertText handle pos text = .ok next) : R d next := by
  unfold Document.insertText at hok
  split at hok
  · cases hok
    exact h.refl d
  · next hne =>
    obtain ⟨n, _, hedit⟩ := Outcome.of_bind_ok hok
    refine h.edit hedit (Nat.pos_of_ne_zero fun hzero => hne ?_)
    exact String.isEmpty_iff.mpr (String.length_eq_zero_iff.mp hzero)

theorem deleteRange (h : FollowsEdits R) {pos len : Nat}
    (hok : d.deleteRange container pos len = .ok next) : R d next := by
  unfold Document.deleteRange at hok
  split at hok
  · cases hok
    exact h.refl d
  · next hne =>
    obtain ⟨n, _, hok⟩ := Outcome.of_bind_ok hok
    obtain ⟨m, hm, hedit⟩ := Outcome.of_bind_ok hok
    unfold Measure.narrow at hm
    split at hm
    · cases hm
      exact h.edit hedit (Nat.pos_of_ne_zero hne)
    · exact nomatch hm

theorem insertValue (h : FollowsEdits R) {handle : Handle .list} {pos : Nat} {value : Value}
    (hok : d.insertValue handle pos value = .ok next) : R d next := by
  obtain ⟨n, _, hedit⟩ := Outcome.of_bind_ok hok
  exact h.edit hedit Nat.zero_lt_one

theorem setKey (h : FollowsEdits R) {handle : Handle .map} {key : String} {value : Value}
    (hok : d.setKey handle key value = .ok next) : R d next := h.edit hok Nat.zero_lt_one

theorem insertChildWith (h : FollowsEdits R) {kind : Kind}
    {refer : Document → Value → Except Error Document}
    (hrefer : ∀ {created value next}, refer created value = .ok next → R created next) :
    R d (d.insertChildWith container kind refer).1 := by
  unfold Document.insertChildWith
  split
  · exact h.refl d
  · next created id hrec =>
    have hcreated := h.record hrec Nat.zero_lt_one
    dsimp only
    split
    · exact hcreated
    · next hok => exact h.trans hcreated (hrefer hok)

theorem orKeep (h : FollowsEdits R) {result : Except Error Document}
    (hok : ∀ {next}, result = .ok next → R d next) : R d (d.orKeep result) := by
  cases result with
  | error e => exact h.refl d
  | ok next => exact hok rfl

theorem apply (h : FollowsEdits R) (d : Document) (e : Edit) : R d (d.apply e) := by
  cases e with
  | root name kind => exact h.register d (.root name kind)
  | insertText handle pos text => exact h.orKeep h.insertText
  | deleteText handle pos len => exact h.orKeep h.deleteRange
  | insertValue handle pos value => exact h.orKeep h.insertValue
  | deleteValues handle pos len => exact h.orKeep h.deleteRange
  | insertListChild handle pos kind => exact h.insertChildWith h.insertValue
  | setKey handle key value => exact h.orKeep h.setKey
  | clearKey handle key => exact h.orKeep fun hok => h.edit hok Nat.zero_lt_one
  | insertMapChild handle key kind => exact h.insertChildWith h.setKey

end FollowsEdits

/-- `next` is `d` with the operations `added` recorded behind the earlier ones. -/
structure Extends (d next : Document) (added : List (ContainerId × Content)) : Prop where
  exists_registry : ∃ registry, next =
    { d with
      registry
      txn := ⟨d.txn.items ++ added, d.txn.length + Op.extent added⟩ }
  atoms_pos : ∀ item ∈ added, 0 < item.2.atoms
  counters_fit : added ≠ [] →
    d.log.nextCounter d.peer + (d.txn.length + Op.extent added) ≤ Word.top

namespace Extends

theorem of_register (d : Document) (registry : Registry) :
    Extends d { d with registry } [] where
  exists_registry := ⟨registry, by rw [List.append_nil]; rfl⟩
  atoms_pos := fun _ h => absurd h List.not_mem_nil
  counters_fit := fun h => absurd rfl h

theorem trans (h : Extends d next added) (h' : Extends next last more) :
    Extends d last (added ++ more) := by
  obtain ⟨⟨registry, rfl⟩, hpos, hfit⟩ := h
  obtain ⟨⟨registry', rfl⟩, hpos', hfit'⟩ := h'
  refine ⟨⟨registry', ?_⟩, List.forall_mem_append.mpr ⟨hpos, hpos'⟩, fun hne => ?_⟩
  · rw [Op.extent_append, ← List.append_assoc, ← Nat.add_assoc]
  · rw [Op.extent_append, ← Nat.add_assoc d.txn.length]
    -- The later step speaks of counters only when it records something.
    by_cases hmore : more = []
    · subst hmore
      rw [List.append_nil] at hne
      exact hfit hne
    · exact hfit' hmore

theorem of_record (h : d.record container content = .ok (next, id)) (hpos : 0 < content.atoms) :
    Extends d next [(container, content)] := by
  obtain ⟨_, rfl, hroom, registry, rfl, _⟩ := record_spec h
  have hextent : Op.extent [(container, content)] = content.atoms := by simp
  refine ⟨⟨registry, by rw [hextent]⟩, fun item hitem => ?_, fun _ => ?_⟩
  · rw [List.mem_singleton.mp hitem]
    exact hpos
  · rw [hextent, ← Nat.add_assoc]
    exact hroom

end Extends

theorem exists_extends_apply (d : Document) (e : Edit) : ∃ added, Extends d (d.apply e) added := by
  refine FollowsEdits.apply (R := fun d next => ∃ added, Extends d next added) ?_ d e
  exact
    { refl := fun d => ⟨[], .of_register d d.registry⟩
      trans := fun ⟨_, h⟩ ⟨_, h'⟩ => ⟨_, h.trans h'⟩
      register := fun d id => ⟨[], .of_register d (d.registry.register id)⟩
      record := fun hrec hpos => ⟨_, .of_record hrec hpos⟩ }

end Edits

theorem decodeAll_wellFormed {decoded : Batch.Decoded} (h : decodeAll batches = .ok decoded) :
    ∀ c ∈ decoded.changes, c.WellFormed := by
  induction batches generalizing decoded with
  | nil =>
    cases h
    exact fun _ hc => absurd hc List.not_mem_nil
  | cons bytes batches ih =>
    obtain ⟨first, hfirst, h⟩ := Outcome.of_bind_ok h
    obtain ⟨others, hothers, h⟩ := Outcome.of_bind_ok h
    cases h
    obtain ⟨cs, rfl, hall, _⟩ := Batch.decode_ok hfirst
    refine List.forall_mem_append.mpr ⟨fun c hc => ?_, ih hothers⟩
    exact (hall c ((Batch.assemble_subperm cs).subset hc)).1.wellFormed

/-- The peer changes only while neither it nor the new one has any operations here. -/
theorem setPeer_ok (h : d.setPeer p = .ok next) :
    d.log.changesOf d.peer = [] ∧ d.txn.items = [] ∧ d.log.changesOf p = [] ∧
      next = { d with peer := p } := by
  unfold setPeer at h
  split at h
  · exact nomatch h
  · next hidle =>
    split at h
    · exact nomatch h
    · next hfree =>
      cases h
      simp only [Bool.or_eq_true, Bool.not_eq_true', not_or, Bool.not_eq_false,
        List.isEmpty_iff] at hidle hfree
      exact ⟨hidle.1, hidle.2, hfree, rfl⟩

/-- What holds of a document between calls. -/
structure Coherent (d : Document) : Prop where
  intact : d.log.Intact
  atoms_pos : ∀ item ∈ d.txn.items, 0 < item.2.atoms
  length_eq : d.txn.length = Op.extent d.txn.items
  counters_fit : d.log.nextCounter d.peer + d.txn.length ≤ Word.top

namespace Coherent

theorem of_txn_eq (h : d.log.Intact) (htxn : d.txn = {}) : Coherent d where
  intact := h
  atoms_pos := by
    rw [htxn]
    exact fun _ hitem => absurd hitem List.not_mem_nil
  length_eq := by rw [htxn]; rfl
  counters_fit := by
    rw [htxn]
    exact ChangeLog.vv_le_top h.sound.runs d.peer

theorem ofConfig (config : Config) (drawn : Peer) : Coherent (ofConfig config drawn) :=
  of_txn_eq ChangeLog.intact_empty rfl

theorem txn_eq (h : Coherent d) (hitems : d.txn.items = []) : d.txn = {} := by
  have hlen := h.length_eq
  rw [hitems] at hlen
  calc d.txn = ⟨d.txn.items, d.txn.length⟩ := rfl
    _ = {} := by rw [hitems, hlen]; rfl

theorem extend (h : Coherent d) (hext : Extends d next added) : Coherent next := by
  obtain ⟨⟨registry, rfl⟩, hpos, hfit⟩ := hext
  have hextent : d.txn.length + Op.extent added = Op.extent (d.txn.items ++ added) := by
    rw [Op.extent_append, h.length_eq]
  refine ⟨h.intact, List.forall_mem_append.mpr ⟨h.atoms_pos, hpos⟩, hextent, ?_⟩
  by_cases hne : added = []
  · subst hne
    exact h.counters_fit
  · exact hfit hne

theorem setPeer (h : Coherent d) (hok : d.setPeer p = .ok next) : Coherent next := by
  obtain ⟨_, hitems, _, rfl⟩ := setPeer_ok hok
  -- Nothing is recorded, so only the history of the new peer takes counters.
  exact of_txn_eq h.intact (h.txn_eq hitems)

/-- Nothing is recorded after a commit, whether or not it succeeds. -/
theorem commit (h : Coherent d) (origin : Option String) (now : Int) :
    (d.commit origin now).1.log.Intact ∧ (d.commit origin now).1.txn = {} := by
  rcases d.commit_cases origin now with ⟨hnil, hcommit⟩ | ⟨_, _, _, hcommit⟩ |
    ⟨c, _, hchange, hcommit⟩
  · rw [hcommit]
    exact ⟨h.intact, h.txn_eq hnil⟩
  · rw [hcommit]
    exact ⟨h.intact, rfl⟩
  · rw [hcommit]
    exact ⟨h.intact.insert (ChangeLog.nextChange_admits hchange h.intact.sound).1, rfl⟩

theorem absorb (h : Coherent d) (htxn : d.txn = {}) {cs : List Change}
    (hcs : ∀ c ∈ cs, c.WellFormed) : Coherent (d.absorb cs) := by
  obtain ⟨registry, observers, hannounce⟩ :=
    announce_eq { d with log := (d.log.importChanges cs).1 } d.log.frontiers
      (d.log.importChanges cs).2.1.applied
  unfold Document.absorb
  rw [hannounce]
  exact of_txn_eq (h.intact.importChanges hcs).1 htxn

theorem perform (h : Coherent d) (call : Call) : Coherent (d.perform call) := by
  rcases d.perform_cases call with ⟨_, ⟨e, rfl⟩ | ⟨p, hok⟩ | ⟨observers, heq⟩⟩ |
    ⟨origin, now, _, hcommit⟩
  · obtain ⟨added, hext⟩ := d.exists_extends_apply e
    exact h.extend hext
  · exact h.setPeer hok
  · rw [heq]
    exact ⟨h.intact, h.atoms_pos, h.length_eq, h.counters_fit⟩
  · obtain ⟨hintact, htxn⟩ := h.commit origin now
    have hcommitted : Coherent (d.commit origin now).1 := of_txn_eq hintact htxn
    rcases hcommit with heq | ⟨batches, decoded, hread, heq⟩
    · rw [heq]
      exact hcommitted
    · rw [heq]
      exact hcommitted.absorb htxn (decodeAll_wellFormed hread)

theorem run (h : Coherent d) (calls : List Call) : Coherent (d.run calls) := by
  induction calls generalizing d with
  | nil => exact h
  | cons call calls ih => exact ih (h.perform call)

end Coherent

theorem Reachable.coherent (h : Reachable d) : Coherent d := by
  obtain ⟨config, drawn, calls, rfl⟩ := h
  exact (Coherent.ofConfig config drawn).run calls

/-- What holds of new documents and is kept by every call holds of every document. -/
theorem Reachable.of_perform {P : Document → Prop}
    (hnew : ∀ config drawn, P (Document.ofConfig config drawn))
    (hperform : ∀ {d}, Coherent d → P d → ∀ call, P (d.perform call)) (h : Reachable d) : P d := by
  obtain ⟨config, drawn, calls, rfl⟩ := h
  have hrun : ∀ d, Coherent d → P d → P (d.run calls) := by
    induction calls with
    | nil => exact fun _ _ hp => hp
    | cons call calls ih => exact fun d hd hp => ih _ (hd.perform call) (hperform hd hp call)
  exact hrun _ (.ofConfig config drawn) (hnew config drawn)

theorem commit_steps (d : Document) (origin : Option String) (now : Int) :
    ChangeLog.Steps d.log (d.commit origin now).1.log := by
  rcases d.commit_log origin now with hlog | ⟨c, hc, hlog⟩
  · rw [hlog]
    exact .refl
  · rw [hlog]
    have hstep := ChangeLog.Step.append d.log d.peer d.txn.items d.log.frontiers
      (if d.config.recordTimestamp then now else 0)
    rw [ChangeLog.appended, ChangeLog.append, hc] at hstep
    exact .single hstep

/-- The log of a document changes by appends and imports alone. -/
theorem perform_steps (d : Document) (call : Call) :
    ChangeLog.Steps d.log (d.perform call).log := by
  rcases d.perform_cases call with ⟨_, ⟨e, rfl⟩ | ⟨p, hok⟩ | ⟨observers, heq⟩⟩ |
    ⟨origin, now, _, hcommit⟩
  · obtain ⟨_, ⟨registry, heq⟩, _, _⟩ := d.exists_extends_apply e
    rw [perform, heq]
    exact .refl
  · obtain ⟨_, _, _, heq⟩ := setPeer_ok hok
    rw [heq]
    exact .refl
  · rw [heq]
    exact .refl
  · have hcommitted := d.commit_steps origin now
    rcases hcommit with heq | ⟨batches, decoded, hread, heq⟩
    · rwa [heq]
    · rw [heq, absorb_log]
      exact hcommitted.tail (.importChanges _ _ (decodeAll_wellFormed hread))

theorem run_steps (d : Document) (calls : List Call) :
    ChangeLog.Steps d.log (d.run calls).log := by
  induction calls generalizing d with
  | nil => exact .refl
  | cons call calls ih => exact (d.perform_steps call).trans (ih (d.perform call))

theorem Reachable.steps (h : Reachable d) : ChangeLog.Steps .empty d.log := by
  obtain ⟨config, drawn, calls, rfl⟩ := h
  exact run_steps (ofConfig config drawn) calls

end CausalReplica.Document
