import CausalReplica.Proofs.Document.Absorb
import CausalReplica.Proofs.Document.Recorded

/-!
# The registry is complete

Recording an operation registers what it creates, and its container is known already. Operations
that enter the log by an import are registered then, however long they waited. So every container
that an operation of the log or of the transaction is about can be looked up.
-/

namespace CausalReplica.Document

variable {d next : Document} {container : ContainerId} {content : Content} {id : OpId} {p : Peer}
  {added : List Change} {cs : List Change} {call : Call}

/-- The registry knows all that recorded operations and those of the log are about. -/
structure Complete (d : Document) : Prop where
  stored : ∀ p, ∀ c ∈ d.log.changesOf p, ∀ op ∈ c.ops, ∀ x ∈ op.containers p,
    d.registry.contains x = true
  recorded : ∀ op ∈ d.recorded, ∀ x ∈ op.containers d.peer, d.registry.contains x = true

theorem recorded_of_items (h : d.txn.items = []) : d.recorded = [] := by
  rw [recorded, h, Op.place_nil]

theorem recorded_of_record (h : d.record container content = .ok (next, id))
    (hlen : d.txn.length = Op.extent d.txn.items) :
    next.recorded = d.recorded ++ [⟨id.counter, container, content⟩] := by
  obtain ⟨_, rfl, _, registry, rfl, _⟩ := record_spec h
  simp [recorded, Op.place_append, hlen]

namespace Complete

theorem ofConfig (config : Config) (drawn : Peer) : Complete (ofConfig config drawn) where
  stored := fun _ _ hc => absurd hc List.not_mem_nil
  recorded := fun _ hop => absurd hop List.not_mem_nil

theorem of_items (h : Complete d) (hlog : next.log = d.log) (hitems : next.txn.items = [])
    (hregistry : next.registry = d.registry) : Complete next where
  stored := by rw [hlog, hregistry]; exact h.stored
  recorded := by rw [recorded_of_items hitems]; exact fun _ hop => absurd hop List.not_mem_nil

theorem register (h : Complete d) (id : ContainerId) : Complete (d.register id) where
  stored := fun p c hc op hop x hx =>
    Registry.contains_register.mpr (.inr (h.stored p c hc op hop x hx))
  recorded := fun op hop x hx => Registry.contains_register.mpr (.inr (h.recorded op hop x hx))

theorem record (h : Complete d) (hd : Coherent d)
    (hrec : d.record container content = .ok (next, id)) : Complete next := by
  have hrecorded := recorded_of_record hrec hd.length_eq
  obtain ⟨hknown, rfl, _, registry, rfl, hregistry⟩ := record_spec hrec
  refine ⟨fun p c hc op hop x hx => (hregistry x).mpr (.inl (h.stored p c hc op hop x hx)), ?_⟩
  rw [hrecorded]
  intro op hop x hx
  rcases List.mem_append.mp hop with hop | hop
  · exact (hregistry x).mpr (.inl (h.recorded op hop x hx))
  · rw [List.mem_singleton.mp hop] at hx
    rcases List.mem_cons.mp hx with rfl | hcreated
    · exact (hregistry _).mpr (.inl hknown)
    · exact (hregistry x).mpr (.inr (Option.mem_toList.mp hcreated))

theorem apply (h : Complete d) (hd : Coherent d) (e : Edit) : Complete (d.apply e) := by
  have hfollows : FollowsEdits fun d next =>
      Coherent d ∧ Complete d → Coherent next ∧ Complete next :=
    { refl := fun _ h => h
      trans := fun h h' hd => h' (h hd)
      register := fun d id ⟨hd, h⟩ =>
        ⟨hd.extend (.of_register d (d.registry.register id)), h.register id⟩
      record := fun hrec hpos ⟨hd, h⟩ => ⟨hd.extend (.of_record hrec hpos), h.record hd hrec⟩ }
  exact (hfollows.apply d e ⟨hd, h⟩).2

/-- What a commit puts into the log was registered when it was recorded. -/
theorem commit (h : Complete d) (origin : Option String) (now : Int) :
    Complete (d.commit origin now).1 := by
  rcases d.commit_cases origin now with ⟨_, heq⟩ | ⟨_, _, _, heq⟩ | ⟨c, _, hchange, heq⟩
  · rw [heq]
    exact h
  · rw [heq]
    exact h.of_items rfl rfl rfl
  · rw [heq]
    obtain ⟨hid, _, hops⟩ := change_ok hchange
    have hpeer : c.peer = d.peer := congrArg OpId.peer hid
    refine ⟨fun p e he op hop x hx => ?_, fun _ hop => absurd hop List.not_mem_nil⟩
    rcases ChangeLog.mem_changesOf_insert.mp he with he | ⟨rfl, rfl⟩
    · exact h.stored p e he op hop x hx
    · exact h.recorded op (hops ▸ hop) x (hpeer ▸ hx)

theorem learn (h : Complete d) (hitems : d.txn.items = []) (hlearn : Learns d next added) :
    Complete next where
  stored := fun p c hc op hop x hx => by
    apply (hlearn.contains_iff x).mpr
    rcases hlearn.grows.mem_changesOf.mp hc with hold | ⟨hnew, rfl⟩
    · exact .inl (h.stored p c hold op hop x hx)
    · exact .inr ⟨c, hnew, op, hop, hx⟩
  recorded := by
    rw [recorded_of_items (hlearn.txn_eq ▸ hitems)]
    exact fun _ hop => absurd hop List.not_mem_nil

theorem perform (h : Complete d) (hd : Coherent d) (call : Call) : Complete (d.perform call) := by
  rcases d.perform_cases call with ⟨_, ⟨e, rfl⟩ | ⟨p, hok⟩ | ⟨observers, heq⟩⟩ |
    ⟨origin, now, _, hcommit⟩
  · exact h.apply hd e
  · obtain ⟨_, hitems, _, heq⟩ := setPeer_ok hok
    rw [heq]
    exact h.of_items rfl hitems rfl
  · rw [heq]
    exact ⟨h.stored, h.recorded⟩
  · have hcommitted := h.commit origin now
    rcases hcommit with heq | ⟨batches, decoded, hread, heq⟩
    · rw [heq]
      exact hcommitted
    · rw [heq]
      obtain ⟨added, hlearn⟩ :=
        absorb_learns (hd.commit origin now).1 (decodeAll_wellFormed hread)
      exact hcommitted.learn commit_items hlearn

end Complete

theorem Reachable.complete (h : Reachable d) : Complete d :=
  h.of_perform Complete.ofConfig fun hd hcomplete call => hcomplete.perform hd call

/-- The container can be looked up. -/
def Resolves (d : Document) (x : ContainerId) : Prop :=
  d.registry.contains x = true ∧ d.registry.get x = .ok x

theorem resolves_of_contains {x : ContainerId} (h : d.registry.contains x = true) : d.Resolves x :=
  ⟨h, if_pos h⟩

theorem resolves_of_containers {op : Op}
    (h : ∀ x ∈ op.containers p, d.registry.contains x = true) :
    d.Resolves op.container ∧
      ∀ kind, op.content = .createChild kind → d.Resolves (.child ⟨p, op.counter⟩ kind) := by
  refine ⟨resolves_of_contains (h _ List.mem_cons_self), fun kind hkind => ?_⟩
  apply resolves_of_contains
  apply h
  simp [Op.containers, Op.created?, hkind]

/-- Whatever led to a document, it can look up the container of every operation of its log and of
its transaction, and every child that one of these creates. -/
theorem registry_complete (h : d.Reachable) :
    (∀ p, ∀ c ∈ d.log.changesOf p, ∀ op ∈ c.ops, d.Resolves op.container ∧
      ∀ kind, op.content = .createChild kind → d.Resolves (.child ⟨p, op.counter⟩ kind)) ∧
    ∀ op ∈ d.recorded, d.Resolves op.container ∧
      ∀ kind, op.content = .createChild kind → d.Resolves (.child ⟨d.peer, op.counter⟩ kind) := by
  have hcomplete := h.complete
  refine ⟨fun p c hc op hop => ?_, fun op hop => ?_⟩
  · exact resolves_of_containers (hcomplete.stored p c hc op hop)
  · exact resolves_of_containers (hcomplete.recorded op hop)

/-- A batch of one change that creates a child and depends on what the first peer types. -/
def sprout : List UInt8 :=
  [67, 68, 79, 67, 1, 1, 2, 0, 5, 0, 1, 1, 0, 1, 0, 1, 108, 1, 4, 2]

def early : Document := (ofConfig {} ⟨3⟩).run [.importWithStatus [sprout] 0]

/-- What the change waited for arrived, and another child was created here. -/
def grown : Document :=
  early.run [.importBatches [greeting] 0, .edit (.root "m" .map),
    .edit (.insertMapChild ⟨.root "m" .map, rfl⟩ "k" .list)]

theorem registry_complete_late_arrival :
    early.registry.contains (.child ⟨⟨2⟩, 0⟩ .map) = false ∧
      grown.Resolves (.child ⟨⟨2⟩, 0⟩ .map) ∧ grown.Resolves (.child ⟨⟨3⟩, 0⟩ .list) := by
  obtain ⟨hstored, hrecorded⟩ := registry_complete (d := grown) ⟨{}, ⟨3⟩,
    [.importWithStatus [sprout] 0, .importBatches [greeting] 0, .edit (.root "m" .map),
      .edit (.insertMapChild ⟨.root "m" .map, rfl⟩ "k" .list)], rfl⟩
  have hlog : grown.log.changesOf ⟨2⟩ = [⟨⟨⟨2⟩, 0⟩, 5, ⟨[⟨⟨1⟩, 0⟩]⟩, 0,
      [⟨0, .root "l" .list, .createChild .map⟩]⟩] := by cbv
  have htxn : grown.peer = ⟨3⟩ ∧ grown.recorded = [⟨0, .root "m" .map, .createChild .list⟩,
      ⟨1, .root "m" .map, .setKey "k" (some (.container (.child ⟨⟨3⟩, 0⟩ .list)))⟩] := by cbv
  rw [htxn.1] at hrecorded
  refine ⟨by cbv, ?_, ?_⟩
  · exact (hstored ⟨2⟩ _ (by rw [hlog]; exact .head _) _ (.head _)).2 .map rfl
  · exact (hrecorded _ (by rw [htxn.2]; exact .head _)).2 .list rfl

end CausalReplica.Document
