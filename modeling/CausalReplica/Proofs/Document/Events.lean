import CausalReplica.Proofs.Document.Absorb
import CausalReplica.Proofs.Document.Recorded
import CausalReplica.Proofs.Document.Registry
import CausalReplica.Proofs.Observers

/-!
# The events of a document

A call tells of all that it adds to the log: a commit of its one change, an import of all that went
in with it, and a call that begins with a commit of both in turn. So the events that one lasting
subscription receives lead from the heads at its beginning to those at present.
-/

namespace CausalReplica.Document

variable {d next : Document} {call : Call} {calls : List Call} {cs : List Change} {id : Nat}
  {es : List VersionEvent} {origin : Option String} {now : Int}

/-- The deliveries that a call hands out. -/
def handedOut (d : Document) : Call → List Delivery
  | .drain => d.drain.1
  | _ => []

/-- All deliveries that are handed out in the calls or wait after them, in order. -/
def received (d : Document) : List Call → List Delivery
  | [] => d.observers.delivered
  | call :: calls => d.handedOut call ++ (d.perform call).received calls

def Call.subscribes : Call → Bool
  | .subscribe _ _ => true
  | _ => false

/-- What observers are told of a commit. -/
def commitEvent? (d : Document) (origin : Option String) (now : Int) : Option VersionEvent :=
  if d.txn.items.isEmpty then none else (d.change now).toOption.map (d.commitEvent origin)

/-- The events that occur in a call, in order. They are the same whoever observes the document. -/
def eventsOf (d : Document) : Call → List VersionEvent
  | .commit origin now => (d.commitEvent? origin now).toList
  | .exportFrom _ now => (d.commitEvent? none now).toList
  | .importWithStatus batches now | .importBatches batches now =>
    (d.commitEvent? none now).toList ++
      match d.commit none now, decodeAll batches with
      | (committed, .ok ()), .ok decoded => (committed.importEvent? decoded.changes).toList
      | _, _ => []
  | _ => []

section Tells

theorem commit_tells (h : Coherent d) (origin : Option String) (now : Int) :
    d.log.Tells (d.commitEvent? origin now).toList (d.commit origin now).1.log ∧
      (d.commit origin now).1.observers =
        (d.commitEvent? origin now).toList.foldl Observers.emit d.observers := by
  unfold commitEvent?
  rcases d.commit_cases origin now with ⟨hnil, heq⟩ | ⟨e, hne, hchange, heq⟩ |
    ⟨c, hne, hchange, heq⟩
  · rw [heq, hnil]
    exact ⟨.refl d.log, rfl⟩
  · rw [heq, hchange, if_neg (by simpa using hne)]
    exact ⟨.refl d.log, rfl⟩
  · rw [heq, hchange, if_neg (by simpa using hne)]
    obtain ⟨hadmits, _, _, _, hitems⟩ := ChangeLog.nextChange_admits hchange h.intact.sound
    have hsound := (h.intact.insert hadmits).sound
    refine ⟨?_, rfl⟩
    refine .event .of_insert (List.cons_ne_nil c []) ⟨rfl, rfl, ?_, fun x => ?_⟩ hsound (.refl _)
    · exact Ordered.ascending_ofList _
    · rw [commitEvent, Ordered.mem_ofList, ← hitems]
      simp [Op.item]

theorem absorb_tells (h : d.log.Intact) (hcs : ∀ c ∈ cs, c.WellFormed) :
    d.log.Tells (d.importEvent? cs).toList (d.absorb cs).log := by
  obtain ⟨added, hgrow, happlied⟩ := h.importChanges_growsBy hcs
  have hsound := (h.importChanges hcs).1.sound
  rw [absorb_log, importEvent?]
  dsimp only
  rw [happlied]
  generalize (d.log.importChanges cs).1 = next at hgrow hsound
  by_cases hnil : added = []
  · subst hnil
    have hsame : ∀ p, next.changesOf p = d.log.changesOf p :=
      fun p => (hgrow p).trans (List.append_nil _)
    rw [List.map_nil, IdSpan.coalesce_nil]
    exact .silent hgrow (hsound.eq_of_changesOf h.sound hsame).2.2.1
  · have hspans : (IdSpan.coalesce (added.map Change.span)).isEmpty = false := by
      simpa [IdSpan.coalesce_eq_nil_iff] using hnil
    rw [hspans, if_neg Bool.false_ne_true]
    exact .event hgrow hnil (importEvent_announces hgrow hsound.runs) hsound (.refl _)

/-- The commit that an import begins with tells first, then the import itself. -/
theorem importWithStatus_tells (h : Coherent d) (batches : List (List UInt8)) (now : Int) :
    d.log.Tells (d.eventsOf (.importWithStatus batches now))
        (d.importWithStatus batches now).1.log ∧
      (d.importWithStatus batches now).1.observers =
        (d.eventsOf (.importWithStatus batches now)).foldl Observers.emit d.observers := by
  obtain ⟨htells, hobservers⟩ := commit_tells h none now
  have hintact := (h.commit none now).1
  cases hcommit : d.commit none now with
  | mk committed outcome =>
    rw [hcommit] at htells hobservers hintact
    cases hread : decodeAll batches with
    | error e =>
      cases outcome <;> simp only [eventsOf, importWithStatus, hcommit, hread, List.append_nil] <;>
        exact ⟨htells, hobservers⟩
    | ok decoded =>
      cases outcome with
      | error e =>
        simp only [eventsOf, importWithStatus, hcommit, List.append_nil]
        exact ⟨htells, hobservers⟩
      | ok _ =>
        simp only [eventsOf, importWithStatus, hcommit, hread]
        refine ⟨htells.trans (absorb_tells hintact (decodeAll_wellFormed hread)), ?_⟩
        rw [List.foldl_append, ← hobservers]
        exact absorb_observers

end Tells

/-- The events `es` occur in the call, and every subscription that was made before receives those it
wants. -/
structure Emits (d : Document) (call : Call) (es : List VersionEvent) : Prop where
  tells : d.log.Tells es (d.perform call).log
  delivered_eq : d.handedOut call ++ (d.perform call).observers.delivered =
    (es.foldl Observers.emit d.observers).delivered
  numbered : d.observers.Numbered → (d.perform call).observers.Numbered
  nextId_eq : (d.perform call).observers.nextId = d.observers.nextId + [call].countP Call.subscribes
  held_eq : ∀ id < d.observers.nextId, call ≠ .unsubscribe id →
    (d.perform call).observers.held id = (es.foldl Observers.emit d.observers).held id

namespace Emits

theorem of_foldl (htells : d.log.Tells es (d.perform call).log)
    (hobservers : (d.perform call).observers = es.foldl Observers.emit d.observers)
    (hout : d.handedOut call = []) (hold : call.subscribes = false) : Emits d call es where
  tells := htells
  delivered_eq := by rw [hout, hobservers, List.nil_append]
  numbered := fun h => hobservers ▸ h.foldl_emit es
  nextId_eq := by simp [hobservers, Observers.nextId_foldl_emit, hold]
  held_eq := fun _ _ _ => by rw [hobservers]

theorem of_silent (hlog : (d.perform call).log = d.log)
    (hobservers : (d.perform call).observers = d.observers) (hout : d.handedOut call = [])
    (hold : call.subscribes = false) : Emits d call [] :=
  .of_foldl (hlog ▸ .refl _) hobservers hout hold

theorem attends (h : Emits d call es) (ha : d.observers.Attends id) (hne : call ≠ .unsubscribe id) :
    (d.perform call).observers.Attends id where
  lt_nextId := by
    rw [h.nextId_eq]
    exact Nat.lt_add_right _ ha.lt_nextId
  subscribed := (h.held_eq id ha.lt_nextId hne).trans (ha.foldl_emit es).1.subscribed

end Emits

theorem exists_orKeep_setPeer_eq (d : Document) (p : Peer) :
    ∃ peer, d.orKeep (d.setPeer p) = { d with peer } := by
  cases hok : d.setPeer p with
  | error e => exact ⟨d.peer, rfl⟩
  | ok next =>
    obtain ⟨_, _, _, rfl⟩ := setPeer_ok hok
    exact ⟨p, rfl⟩

theorem Coherent.emits (h : Coherent d) (call : Call) : Emits d call (d.eventsOf call) := by
  cases call with
  | edit e =>
    obtain ⟨_, ⟨registry, heq⟩, _, _⟩ := d.exists_extends_apply e
    exact .of_silent (congrArg log heq :) (congrArg observers heq :) rfl rfl
  | setPeer p =>
    obtain ⟨peer, heq⟩ := d.exists_orKeep_setPeer_eq p
    exact .of_silent (congrArg log heq :) (congrArg observers heq :) rfl rfl
  | commit origin now =>
    obtain ⟨htells, hobservers⟩ := commit_tells h origin now
    exact .of_foldl htells hobservers rfl rfl
  | exportFrom v now =>
    obtain ⟨htells, hobservers⟩ := commit_tells h none now
    rw [← exportFrom_fst] at htells hobservers
    exact .of_foldl htells hobservers rfl rfl
  | importWithStatus batches now =>
    obtain ⟨htells, hobservers⟩ := importWithStatus_tells h batches now
    exact .of_foldl htells hobservers rfl rfl
  | importBatches batches now =>
    obtain ⟨htells, hobservers⟩ := importWithStatus_tells h batches now
    rw [← importBatches_fst] at htells hobservers
    exact .of_foldl htells hobservers rfl rfl
  | subscribe container once =>
    exact ⟨.refl _, rfl, fun hn => hn.subscribe, rfl, fun _ hlt _ => Observers.held_subscribe hlt⟩
  | unsubscribe other =>
    refine ⟨.refl _, rfl, fun hn => hn.unsubscribe, rfl, fun id _ hne => ?_⟩
    exact Observers.held_unsubscribe_of_ne fun heq => hne (congrArg Call.unsubscribe heq)
  | drain => exact ⟨.refl _, List.append_nil _, fun hn => hn.drain, rfl, fun _ _ _ => rfl⟩

theorem Coherent.exists_emits (h : Coherent d) (call : Call) : ∃ es, Emits d call es :=
  ⟨_, h.emits call⟩

theorem Reachable.numbered (h : Reachable d) : d.observers.Numbered := by
  refine h.of_perform (P := fun d => d.observers.Numbered) (fun _ _ => .empty) ?_
  intro d hd hnumbered call
  obtain ⟨_, hemits⟩ := hd.exists_emits call
  exact hemits.numbered hnumbered

/-- A lasting subscription receives what the calls tell, behind what it received before. -/
theorem Coherent.run_tells (h : Coherent d) (ha : d.observers.Attends id)
    (hkeep : .unsubscribe id ∉ calls) :
    ∃ es, d.log.Tells es (d.run calls).log ∧
      eventsFor id (d.received calls) = eventsFor id d.observers.delivered ++ es := by
  induction calls generalizing d with
  | nil => exact ⟨[], .refl _, (List.append_nil _).symm⟩
  | cons call calls ih =>
    rw [List.mem_cons, not_or] at hkeep
    obtain ⟨hcall, hcalls⟩ := hkeep
    obtain ⟨es, hemits⟩ := h.exists_emits call
    obtain ⟨fs, htells, hlater⟩ :=
      ih (h.perform call) (hemits.attends ha (Ne.symm hcall)) hcalls
    refine ⟨es ++ fs, hemits.tells.trans htells, ?_⟩
    calc eventsFor id (d.received (call :: calls))
      _ = eventsFor id (d.handedOut call ++ (d.perform call).observers.delivered) ++ fs := by
        rw [received, eventsFor_append, hlater, eventsFor_append, List.append_assoc]
      _ = eventsFor id d.observers.delivered ++ (es ++ fs) := by
        rw [hemits.delivered_eq, (ha.foldl_emit es).2, List.append_assoc]

/-- The events that a lasting subscription to all of a document receives lead from the heads where
it began to the heads after the calls. Each event tells of a larger history than the one before it,
with exactly the containers of the operations that were added, and a call that adds no operation to
the log tells nobody anything. -/
theorem event_chain (h : d.Reachable) (hkeep : .unsubscribe (d.subscribe none false).2 ∉ calls) :
    let subscribed := (d.subscribe none false).1
    let events := eventsFor (d.subscribe none false).2 (subscribed.received calls)
    let final := subscribed.run calls
    d.log.frontiers.Chained events final.log.frontiers ∧ (∀ e ∈ events, final.log.Told e) ∧
      ∀ call, (∀ x, (d.perform call).log.contains x = true → d.log.contains x = true) →
        d.received [call] = d.observers.delivered := by
  intro subscribed events final
  have hsubscribed : Coherent subscribed := h.coherent.perform (.subscribe none false)
  obtain ⟨hattends, hfresh⟩ := h.numbered.attends_subscribe
  obtain ⟨es, htells, hreceived⟩ := hsubscribed.run_tells hattends hkeep
  have hevents : events = es := by
    calc events = eventsFor d.observers.nextId subscribed.observers.delivered ++ es := hreceived
      _ = es := by rw [show subscribed.observers.delivered = d.observers.delivered from rfl, hfresh,
        List.nil_append]
  rw [hevents]
  refine ⟨htells.chained, ?_, fun call hsame => ?_⟩
  · exact htells.told hsubscribed.intact.sound (hsubscribed.run calls).intact.sound.runs (.refl _)
  · obtain ⟨told, hemits⟩ := h.coherent.exists_emits call
    have hnone : told = [] :=
      hemits.tells.eq_nil h.coherent.intact.sound (h.coherent.perform call).intact.sound.runs hsame
    rw [hnone] at hemits
    exact hemits.delivered_eq

/-- Something is recorded, and then the import commits it and wakes the change that waits. The last
call brings nothing new. -/
def overheard : List Call :=
  let handle := ((ofConfig {} ⟨3⟩).root "m" .map).2
  [.edit (.root "m" .map), .edit (.setKey handle "k" .null), .importBatches [greeting] 0, .drain,
    .importWithStatus [sprout] 0]

def committed : VersionEvent where
  before := .empty
  after := ⟨[⟨⟨3⟩, 0⟩]⟩
  isLocal := true
  origin := none
  containers := [.root "m" .map]

def arrived : VersionEvent where
  before := ⟨[⟨⟨3⟩, 0⟩]⟩
  after := ⟨[⟨⟨1⟩, 1⟩, ⟨⟨2⟩, 0⟩, ⟨⟨3⟩, 0⟩]⟩
  isLocal := false
  origin := none
  containers := [.root "l" .list, .root "t" .text]

theorem event_chain_late_arrival :
    early.log.frontiers.Chained [committed, arrived] arrived.after ∧
      ((early.subscribe none false).1.run overheard).log.Told arrived ∧
      early.received [.importWithStatus [sprout] 0] = early.observers.delivered := by
  have hkeep : .unsubscribe (early.subscribe none false).2 ∉ overheard := by simp [overheard]
  have hevents : eventsFor (early.subscribe none false).2
      ((early.subscribe none false).1.received overheard) = [committed, arrived] := by cbv
  have hfinal : ((early.subscribe none false).1.run overheard).log.frontiers = arrived.after := by
    cbv
  have hsame : (early.perform (.importWithStatus [sprout] 0)).log = early.log := by cbv
  obtain ⟨hchain, htold, hquiet⟩ :=
    event_chain (d := early) ⟨{}, ⟨3⟩, [.importWithStatus [sprout] 0], rfl⟩ hkeep
  rw [hevents] at hchain htold
  rw [hfinal] at hchain
  exact ⟨hchain, htold arrived (.tail _ (.head _)), hquiet _ fun x hx => hsame ▸ hx⟩

end CausalReplica.Document
