import CausalReplica.Event
import Mathlib.Data.List.Basic

/-!
# What a subscriber receives

Subscriptions are numbered in the order they are made, and no number is used twice. Until it is
ended, a subscription receives every event that it wants once, when it occurs, or only the first of
them if it is for one event; other subscriptions make no difference to it.
-/

namespace CausalReplica

/-- The events among the deliveries that went to one subscriber. -/
def eventsFor (id : Nat) (deliveries : List Delivery) : List VersionEvent :=
  (deliveries.filter (·.subscriber = id)).map (·.event)

@[simp] theorem eventsFor_append (id : Nat) (xs ys : List Delivery) :
    eventsFor id (xs ++ ys) = eventsFor id xs ++ eventsFor id ys := by simp [eventsFor]

namespace Subscription

variable {s : Subscription} {subs : List Subscription} {e : VersionEvent}
  {es fs : List VersionEvent} {id : Nat}

/-- What the subscription receives of the events that occur after it was made. -/
def hears (s : Subscription) (es : List VersionEvent) : List VersionEvent :=
  if s.once then (es.filter s.wants).take 1 else es.filter s.wants

/-- The events leave the subscription in place. -/
def outlasts (s : Subscription) (es : List VersionEvent) : Bool := !(es.any s.wants && s.once)

@[simp] theorem hears_nil : s.hears [] = [] := by simp [hears]

@[simp] theorem outlasts_nil : s.outlasts [] = true := rfl

theorem outlasts_iff : s.outlasts es = true ↔ (s.once = true → es.filter s.wants = []) := by
  cases honce : s.once <;> simp [outlasts, honce]

theorem outlasts_append : s.outlasts (es ++ fs) = (s.outlasts es && s.outlasts fs) := by
  simp [outlasts, Bool.and_or_distrib_right]

theorem hears_append :
    s.hears (es ++ fs) = s.hears es ++ if s.outlasts es then s.hears fs else [] := by
  unfold hears
  cases honce : s.once with
  | false => simp [outlasts, honce]
  | true =>
    -- One wanted event is all that is received, so what follows matters only if there is none.
    cases hwanted : es.filter s.wants with
    | nil =>
      have hlasts : s.outlasts es = true := outlasts_iff.mpr fun _ => hwanted
      simp [hwanted, hlasts]
    | cons e rest =>
      have hends : s.outlasts es = false := by
        rw [← Bool.not_eq_true, outlasts_iff, hwanted]
        exact fun h => List.cons_ne_nil e rest (h honce)
      simp [hwanted, hends]

theorem hears_singleton : s.hears [e] = if s.wants e then [e] else [] := by
  cases honce : s.once <;> cases hwants : s.wants e <;> simp [hears, honce, hwants]

/-- One subscription at most receives what it hears of the events. -/
theorem flatMap_hears_append (h : subs.length ≤ 1) :
    subs.flatMap (·.hears (es ++ fs)) =
      subs.flatMap (·.hears es) ++ (subs.filter (·.outlasts es)).flatMap (·.hears fs) := by
  cases subs with
  | nil => rfl
  | cons s rest =>
    have hrest : rest = [] := List.length_eq_zero_iff.mp (Nat.le_zero.mp (Nat.le_of_succ_le_succ h))
    subst hrest
    cases hlasts : s.outlasts es <;> simp [hears_append, hlasts]

@[simp] theorem hears_lasting : (⟨id, none, false⟩ : Subscription).hears es = es :=
  List.filter_eq_self.mpr fun _ _ => rfl

@[simp] theorem outlasts_lasting : (⟨id, none, false⟩ : Subscription).outlasts es = true := by
  simp [outlasts]

end Subscription

namespace Observers

variable {o : Observers} {id other : Nat} {e : VersionEvent} {es : List VersionEvent}
  {container : Option ContainerId} {once : Bool}

/-- The subscriptions with the number. -/
def held (o : Observers) (id : Nat) : List Subscription := o.subscriptions.filter (·.id = id)

section Held

theorem held_emit : (o.emit e).held id = (o.held id).filter (·.outlasts [e]) := by
  change (o.subscriptions.filter fun s => !(s.wants e && s.once)).filter (·.id = id) = _
  rw [List.filter_comm]
  simp [held, Subscription.outlasts]

theorem eventsFor_emit :
    eventsFor id (o.emit e).delivered =
      eventsFor id o.delivered ++ (o.held id).flatMap (·.hears [e]) := by
  have hnew : eventsFor id ((o.subscriptions.filter (·.wants e)).map fun s => ⟨s.id, e⟩) =
      ((o.held id).filter (·.wants e)).map fun _ => e := by
    rw [eventsFor, List.filter_map, List.map_map]
    change ((o.subscriptions.filter (·.wants e)).filter (·.id = id)).map _ = _
    rw [List.filter_comm]
    rfl
  rw [emit, eventsFor_append, hnew]
  congr 1
  induction o.held id with
  | nil => rfl
  | cons s subs ih => cases hwants : s.wants e <;> simp [Subscription.hears_singleton, hwants, ih]

theorem nextId_foldl_emit : (es.foldl emit o).nextId = o.nextId := by
  induction es generalizing o with
  | nil => rfl
  | cons e es ih => exact ih

theorem held_foldl_emit (es : List VersionEvent) :
    (es.foldl emit o).held id = (o.held id).filter (·.outlasts es) := by
  induction es generalizing o with
  | nil => simp
  | cons e es ih =>
    have hsplit : ∀ s : Subscription, s.outlasts (e :: es) = (s.outlasts [e] && s.outlasts es) :=
      fun s => @Subscription.outlasts_append s [e] es
    rw [List.foldl_cons, ih, held_emit, List.filter_filter]
    simp [hsplit, Bool.and_comm]

theorem eventsFor_foldl_emit (h : (o.held id).length ≤ 1) :
    eventsFor id (es.foldl emit o).delivered =
      eventsFor id o.delivered ++ (o.held id).flatMap (·.hears es) := by
  induction es generalizing o with
  | nil => simp
  | cons e es ih =>
    have hheld : ((o.emit e).held id).length ≤ 1 := by
      rw [held_emit]
      exact Nat.le_trans (List.length_filter_le _ _) h
    rw [List.foldl_cons, ih hheld, eventsFor_emit, held_emit, List.append_assoc,
      ← Subscription.flatMap_hears_append h]
    rfl

theorem held_subscribe (h : id < o.nextId) :
    (o.subscribe container once).1.held id = o.held id := by
  simp [held, subscribe, Nat.ne_of_gt h]

theorem held_unsubscribe (id : Nat) : (o.unsubscribe id).1.held id = [] := by
  simp [held, unsubscribe]

theorem held_unsubscribe_of_ne (h : other ≠ id) :
    (o.unsubscribe other).1.held id = o.held id := by
  change (o.subscriptions.filter (·.id ≠ other)).filter (·.id = id) = o.subscriptions.filter _
  rw [List.filter_filter]
  refine List.filter_congr fun s _ => ?_
  by_cases hid : s.id = id <;> simp [hid, Ne.symm h]

theorem unsubscribe_snd_iff : (o.unsubscribe id).2 = true ↔ o.held id ≠ [] := by
  simp [unsubscribe, held]

end Held

/-- Only numbers that were given out are in use. -/
structure Numbered (o : Observers) : Prop where
  subscriptions_lt : ∀ s ∈ o.subscriptions, s.id < o.nextId
  delivered_lt : ∀ x ∈ o.delivered, x.subscriber < o.nextId

/-- The number stands for one lasting subscription to all events. -/
structure Attends (o : Observers) (id : Nat) : Prop where
  lt_nextId : id < o.nextId
  subscribed : o.subscriptions.filter (·.id = id) = [⟨id, none, false⟩]

namespace Numbered

theorem empty : Numbered {} :=
  ⟨fun _ h => absurd h List.not_mem_nil, fun _ h => absurd h List.not_mem_nil⟩

theorem emit (h : Numbered o) (e : VersionEvent) : Numbered (o.emit e) where
  subscriptions_lt := fun s hs => h.subscriptions_lt s (List.mem_filter.mp hs).1
  delivered_lt := fun x hx => by
    rcases List.mem_append.mp hx with hx | hx
    · exact h.delivered_lt x hx
    · obtain ⟨s, hs, rfl⟩ := List.mem_map.mp hx
      exact h.subscriptions_lt s (List.mem_filter.mp hs).1

theorem foldl_emit (h : Numbered o) (es : List VersionEvent) :
    Numbered (es.foldl Observers.emit o) := by
  induction es generalizing o with
  | nil => exact h
  | cons e es ih => exact ih (h.emit e)

theorem subscribe (h : Numbered o) : Numbered (o.subscribe container once).1 where
  subscriptions_lt := fun s hs => by
    rcases List.mem_append.mp hs with hs | hs
    · exact Nat.lt_succ_of_lt (h.subscriptions_lt s hs)
    · rw [List.mem_singleton.mp hs]
      exact Nat.lt_succ_self _
  delivered_lt := fun x hx => Nat.lt_succ_of_lt (h.delivered_lt x hx)

theorem unsubscribe (h : Numbered o) : Numbered (o.unsubscribe id).1 where
  subscriptions_lt := fun s hs => h.subscriptions_lt s (List.mem_filter.mp hs).1
  delivered_lt := h.delivered_lt

theorem drain (h : Numbered o) : Numbered o.drain.2 where
  subscriptions_lt := h.subscriptions_lt
  delivered_lt := fun _ hx => absurd hx List.not_mem_nil

/-- A new subscription is the only one with its number, and has received nothing yet. -/
theorem held_subscribe_self (h : Numbered o) :
    (o.subscribe container once).1.held o.nextId = [⟨o.nextId, container, once⟩] ∧
      eventsFor o.nextId o.delivered = [] := by
  have hheld : o.held o.nextId = [] :=
    List.filter_eq_nil_iff.mpr fun s hs => by
      simpa using Nat.ne_of_lt (h.subscriptions_lt s hs)
  have hnone : o.delivered.filter (·.subscriber = o.nextId) = [] :=
    List.filter_eq_nil_iff.mpr fun x hx => by
      simpa using Nat.ne_of_lt (h.delivered_lt x hx)
  refine ⟨?_, by simp [eventsFor, hnone]⟩
  change (o.subscriptions ++ [_]).filter _ = _
  rw [List.filter_append, show o.subscriptions.filter (·.id = o.nextId) = [] from hheld]
  simp

theorem attends_subscribe (h : Numbered o) :
    Attends (o.subscribe none false).1 o.nextId ∧ eventsFor o.nextId o.delivered = [] :=
  h.held_subscribe_self.imp_left fun hheld => ⟨Nat.lt_succ_self _, hheld⟩

end Numbered

namespace Attends

theorem foldl_emit (h : Attends o id) (es : List VersionEvent) :
    Attends (es.foldl Observers.emit o) id ∧
      eventsFor id (es.foldl Observers.emit o).delivered = eventsFor id o.delivered ++ es := by
  have hheld : o.held id = [⟨id, none, false⟩] := h.subscribed
  refine ⟨⟨?_, ?_⟩, ?_⟩
  · rw [nextId_foldl_emit]
    exact h.lt_nextId
  · change (es.foldl Observers.emit o).held id = _
    simp [held_foldl_emit, hheld]
  · rw [eventsFor_foldl_emit (by simp [hheld])]
    simp [hheld]

end Attends

end Observers

end CausalReplica
