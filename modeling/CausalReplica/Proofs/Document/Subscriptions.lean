import CausalReplica.Proofs.Document.Events

/-!
# What each subscription receives

Events occur in the calls of a document, whoever observes it. A subscription receives those it wants
of the events between the call that makes it and the first call that ends it. It is known by its
number, and no other subscription of the document ever has the same.
-/

namespace CausalReplica

/-- A subscription searches the containers that the event names, and these are as the event says. -/
theorem ChangeLog.Told.wants_iff {whole : ChangeLog} {e : VersionEvent} {s : Subscription}
    (h : whole.Told e) :
    s.wants e = true ↔ ∀ k, s.container = some k →
      ∃ x ∈ whole.history e.after, x ∉ whole.history e.before ∧ whole.Targets x k := by
  unfold Subscription.wants
  cases s.container with
  | none => simp
  | some k => simp [h.ascending.inOrder.isOk_search_iff, h.mem_containers]

namespace Document

variable {d : Document} {call : Call} {calls : List Call} {id : Nat}

/-- The events that occur in the calls, in order. -/
def eventsIn (d : Document) : List Call → List VersionEvent
  | [] => []
  | call :: calls => d.eventsOf call ++ (d.perform call).eventsIn calls

/-- The call ends the subscription with the number. -/
def Call.ends (id : Nat) : Call → Bool
  | .unsubscribe other => other = id
  | _ => false

theorem Call.ends_iff : call.ends id = true ↔ call = .unsubscribe id := by
  cases call <;> simp [Call.ends]

theorem Call.any_ends_iff : calls.any (Call.ends id) = true ↔ .unsubscribe id ∈ calls := by
  simp [Call.ends_iff]

theorem Call.takeWhile_ends_eq (h : .unsubscribe id ∉ calls) :
    calls.takeWhile (!·.ends id) = calls := by
  refine List.takeWhile_eq_self_iff.mpr fun call hcall => ?_
  rw [Bool.not_eq_true', ← Bool.not_eq_true, Call.ends_iff]
  exact fun heq => h (heq ▸ hcall)

namespace Coherent

theorem tells_eventsIn (h : Coherent d) (calls : List Call) :
    d.log.Tells (d.eventsIn calls) (d.run calls).log := by
  induction calls generalizing d with
  | nil => exact .refl d.log
  | cons call calls ih => exact (h.emits call).tells.trans (ih (h.perform call))

theorem nextId_run (h : Coherent d) (calls : List Call) :
    (d.run calls).observers.nextId = d.observers.nextId + calls.countP Call.subscribes := by
  induction calls generalizing d with
  | nil => rfl
  | cons call calls ih =>
    calc ((d.perform call).run calls).observers.nextId
      _ = (d.perform call).observers.nextId + calls.countP Call.subscribes := ih (h.perform call)
      _ = d.observers.nextId + (call :: calls).countP Call.subscribes := by
        rw [(h.emits call).nextId_eq, Nat.add_assoc, ← List.countP_append]
        rfl

theorem lt_nextId_perform (h : Coherent d) (hlt : id < d.observers.nextId) (call : Call) :
    id < (d.perform call).observers.nextId := by
  rw [(h.emits call).nextId_eq]
  exact Nat.lt_add_right _ hlt

theorem held_perform (h : Coherent d) (hlt : id < d.observers.nextId)
    (hends : call.ends id = false) :
    (d.perform call).observers.held id =
      (d.observers.held id).filter (·.outlasts (d.eventsOf call)) := by
  have hne : call ≠ .unsubscribe id := fun heq => Bool.eq_false_iff.mp hends (Call.ends_iff.mpr heq)
  rw [(h.emits call).held_eq id hlt hne, Observers.held_foldl_emit]

/-- A subscription is there until a call ends it or it has had the one event that it was for. -/
theorem held_run (h : Coherent d) (hlt : id < d.observers.nextId) (calls : List Call) :
    (d.run calls).observers.held id =
      if calls.any (Call.ends id) then []
      else (d.observers.held id).filter (·.outlasts (d.eventsIn calls)) := by
  induction calls generalizing d with
  | nil => exact (List.filter_eq_self.mpr fun _ _ => rfl).symm
  | cons call calls ih =>
    rw [show d.run (call :: calls) = (d.perform call).run calls from rfl,
      ih (h.perform call) (h.lt_nextId_perform hlt call)]
    cases hends : call.ends id with
    | true =>
      rw [Call.ends_iff.mp hends]
      have hgone : (d.perform (.unsubscribe id)).observers.held id = [] :=
        Observers.held_unsubscribe id
      simp [hgone, Call.ends]
    | false =>
      rw [h.held_perform hlt hends, List.filter_filter]
      simp [hends, eventsIn, Subscription.outlasts_append, Bool.and_comm]

/-- What is handed out under a number is what its one subscription hears before a call ends it. -/
theorem eventsFor_received (h : Coherent d) (hlt : id < d.observers.nextId)
    (hone : (d.observers.held id).length ≤ 1) (calls : List Call) :
    eventsFor id (d.received calls) = eventsFor id d.observers.delivered ++
      (d.observers.held id).flatMap (·.hears (d.eventsIn (calls.takeWhile (!·.ends id)))) := by
  induction calls generalizing d with
  | nil => simp [received, eventsIn]
  | cons call calls ih =>
    have hlater := ih (h.perform call) (h.lt_nextId_perform hlt call)
    rw [received, eventsFor_append]
    cases hends : call.ends id with
    | true =>
      rw [Call.ends_iff.mp hends] at hlater ⊢
      have hgone : (d.perform (.unsubscribe id)).observers.held id = [] :=
        Observers.held_unsubscribe id
      have hquiet : (d.perform (.unsubscribe id)).observers.delivered = d.observers.delivered := rfl
      rw [hlater (by rw [hgone]; exact Nat.zero_le 1), hgone, hquiet]
      simp [handedOut, Call.ends, eventsIn, eventsFor]
    | false =>
      have hheld := h.held_perform hlt hends
      have hone' : ((d.perform call).observers.held id).length ≤ 1 :=
        hheld ▸ Nat.le_trans (List.length_filter_le _ _) hone
      rw [hlater hone', ← List.append_assoc, ← eventsFor_append, (h.emits call).delivered_eq,
        Observers.eventsFor_foldl_emit hone, hheld, List.append_assoc,
        ← Subscription.flatMap_hears_append hone]
      simp [hends, eventsIn]

end Coherent

/-- Whatever else is done before and after, a subscription receives in order the events that it
wants of those that occur until it is ended: all, or those that tell of new operations for its
container, and only the first if it is for one event. It is there as long as it is not ended and
can still receive something. Its number is the number of subscriptions made before it, and none made
after it has the same. -/
theorem subscription_hears_wanted (config : Config) (drawn : Peer) (earlier later : List Call)
    (container : Option ContainerId) (once : Bool) :
    let d := (ofConfig config drawn).run earlier
    let subscribed := (d.subscribe container once).1
    let id := (d.subscribe container once).2
    let final := subscribed.run later
    let subscription : Subscription := ⟨id, container, once⟩
    let wanted := (subscribed.eventsIn (later.takeWhile (!·.ends id))).filter subscription.wants
    (∀ e ∈ subscribed.eventsIn later, subscription.wants e = true ↔ ∀ k, container = some k →
      ∃ x ∈ final.log.history e.after, x ∉ final.log.history e.before ∧ final.log.Targets x k) ∧
    eventsFor id (subscribed.received later) = (if once then wanted.take 1 else wanted) ∧
    ((final.unsubscribe id).2 = true ↔
      .unsubscribe id ∉ later ∧ (once = true → wanted = [])) ∧
    id = earlier.countP Call.subscribes ∧
    ∀ calls other once, id < ((subscribed.run calls).subscribe other once).2 := by
  intro d subscribed id final subscription wanted
  have hd : Reachable d := ⟨config, drawn, earlier, rfl⟩
  have h : Coherent subscribed := hd.coherent.perform (.subscribe container once)
  obtain ⟨hheld, hfresh⟩ : subscribed.observers.held id = [subscription] ∧
      eventsFor id subscribed.observers.delivered = [] := hd.numbered.held_subscribe_self
  have hlt : id < subscribed.observers.nextId := Nat.lt_succ_self _
  refine ⟨fun e he => ?_, ?_, ?_, ?_, fun calls _ _ => ?_⟩
  · have htold := (h.tells_eventsIn later).told h.intact.sound (h.run later).intact.sound.runs
      (.refl _) e he
    exact htold.wants_iff
  · rw [h.eventsFor_received hlt (hheld ▸ Nat.le_refl 1), hfresh, hheld]
    simp [Subscription.hears, subscription, wanted]
  · change (final.observers.unsubscribe id).2 = true ↔ _
    rw [Observers.unsubscribe_snd_iff, h.held_run hlt, hheld]
    by_cases hended : .unsubscribe id ∈ later
    · simp [Call.any_ends_iff.mpr hended, hended]
    · have hends : ¬ later.any (Call.ends id) = true := fun h => hended (Call.any_ends_iff.mp h)
      have hlasts : subscription.outlasts (subscribed.eventsIn later) = true ↔
          (once = true → wanted = []) := by
        simp only [wanted, Call.takeWhile_ends_eq hended]
        exact Subscription.outlasts_iff
      simp [hends, hended, hlasts]
  · have hcount := (Coherent.ofConfig config drawn).nextId_run earlier
    exact hcount.trans (Nat.zero_add _)
  · have hcount := h.nextId_run calls
    change id < (subscribed.run calls).observers.nextId
    omega

end Document

end CausalReplica
