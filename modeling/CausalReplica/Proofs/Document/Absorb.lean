import CausalReplica.Proofs.Document.Exchange
import CausalReplica.Proofs.Log.Told

/-!
# What an import makes known

The status of an import leads back to the operations that entered the log: to all of them, whether
they came with the import or had waited, and to no others. Their containers, and those that they
create, are registered, and observers are told which containers they touch.
-/

namespace CausalReplica

/-- The containers that an operation of `p` is about: the one it is for and the one it creates. -/
def Op.containers (p : Peer) (op : Op) : List ContainerId := op.container :: (op.created? p).toList

namespace Document

variable {d : Document} {log next : ChangeLog} {added cs : List Change} {p : Peer} {op : Op}
  {ops : List (Peer × Op)} {x : ContainerId}

theorem mem_opsIn (h : log.GrowsBy added next) (hn : next.Runs) :
    (p, op) ∈ opsIn next (IdSpan.coalesce (added.map Change.span)) ↔
      ∃ c ∈ added, c.peer = p ∧ op ∈ c.ops := by
  have hmem : (p, op) ∈ opsIn next (IdSpan.coalesce (added.map Change.span)) ↔
      ∃ s ∈ IdSpan.coalesce (added.map Change.span), ∃ c ∈ next.changesIn s,
        (op ∈ c.ops ∧ s.start < op.stop) ∧ c.peer = p := by
    simp [opsIn, and_assoc]
  rw [hmem]
  constructor
  · rintro ⟨s, hs, c, hc, ⟨hop, _⟩, rfl⟩
    exact ⟨c, h.added_of_mem_changesIn hn hs hc, rfl, hop⟩
  · rintro ⟨c, hc, rfl, hop⟩
    have hstored := h.mem_of_added hc
    have hwf := ((hn c.peer).mem hstored).2.1
    have hcx := hwf.contains_op hop
    obtain ⟨s, hs, hsx⟩ := ChangeLog.exists_mem_coalesce_span.mpr ⟨c, hc, hcx⟩
    refine ⟨s, hs, c, hn.mem_changesIn_of_contains hstored hcx hsx, ⟨hop, ?_⟩, rfl⟩
    exact Nat.lt_of_le_of_lt (IdSpan.contains_iff.mp hsx).2.1 (hwf.op_bounds hop).2.1

theorem exists_mem_opsIn (h : log.GrowsBy added next) (hn : next.Runs) (P : Peer → Op → Prop) :
    (∃ o ∈ opsIn next (IdSpan.coalesce (added.map Change.span)), P o.1 o.2) ↔
      ∃ c ∈ added, ∃ op ∈ c.ops, P c.peer op := by
  constructor
  · rintro ⟨⟨p, op⟩, ho, hP⟩
    obtain ⟨c, hc, rfl, hop⟩ := (mem_opsIn h hn).mp ho
    exact ⟨c, hc, op, hop, hP⟩
  · exact fun ⟨c, hc, op, hop, hP⟩ => ⟨(c.peer, op), (mem_opsIn h hn).mpr ⟨c, hc, rfl, hop⟩, hP⟩

theorem contains_registerAll :
    (d.registerAll ops).registry.contains x = true ↔
      d.registry.contains x = true ∨ ∃ o ∈ ops, x ∈ o.2.containers o.1 := by
  unfold registerAll
  induction ops generalizing d with
  | nil => simp
  | cons o ops ih =>
    rw [List.foldl_cons, ih]
    simp only [List.mem_cons, exists_eq_or_imp, ← or_assoc]
    refine or_congr ?_ Iff.rfl
    cases hcreated : o.2.created? o.1 with
    | none => simp [register, Registry.contains_register, Op.containers, hcreated, or_comm]
    | some child =>
      simp [register, Registry.contains_register, Op.containers, hcreated, or_comm, or_assoc,
        or_left_comm]

/-- In `next` the log and the registry of `d` have taken in the changes `added`. -/
structure Learns (d next : Document) (added : List Change) : Prop where
  peer_eq : next.peer = d.peer
  txn_eq : next.txn = d.txn
  grows : d.log.GrowsBy added next.log
  contains_iff : ∀ x, next.registry.contains x = true ↔
    d.registry.contains x = true ∨ ∃ c ∈ added, ∃ op ∈ c.ops, x ∈ op.containers c.peer

theorem learns_nothing (h : d.log.GrowsBy [] next) : Learns d { d with log := next } [] where
  peer_eq := rfl
  txn_eq := rfl
  grows := h
  contains_iff := fun x => by simp

/-- A document learns all that enters its log in an import, and nothing else. -/
theorem absorb_learns (h : d.log.Intact) (hcs : ∀ c ∈ cs, c.WellFormed) :
    ∃ added, Learns d (d.absorb cs) added := by
  obtain ⟨added, hgrow, happlied⟩ := h.importChanges_growsBy hcs
  have hruns := (h.importChanges hcs).1.sound.runs
  unfold absorb announce
  rw [happlied]
  generalize (d.log.importChanges cs).1 = next at hgrow hruns
  refine ⟨added, ?_⟩
  by_cases hnil : added = []
  · subst hnil
    rw [List.map_nil, IdSpan.coalesce_nil]
    exact learns_nothing hgrow
  · have hspans : (IdSpan.coalesce (added.map Change.span)).isEmpty = false := by
      simpa [IdSpan.coalesce_eq_nil_iff] using hnil
    obtain ⟨registry, hregister⟩ := registerAll_eq { d with log := next }
      (opsIn next (IdSpan.coalesce (added.map Change.span)))
    have hcontains := @contains_registerAll { d with log := next }
      (opsIn next (IdSpan.coalesce (added.map Change.span)))
    rw [hspans, if_neg Bool.false_ne_true]
    dsimp only
    rw [hregister] at hcontains ⊢
    refine ⟨rfl, rfl, hgrow, fun x => ?_⟩
    rw [emit, hcontains]
    exact or_congr Iff.rfl (exists_mem_opsIn hgrow hruns fun p op => x ∈ op.containers p)

section Told

/-- The event of an import in which the spans entered the log. -/
def importEvent (log next : ChangeLog) (applied : List IdSpan) : VersionEvent where
  before := log.frontiers
  after := next.frontiers
  isLocal := false
  origin := none
  containers := Ordered.ofList ((opsIn next applied).map (·.2.container))

/-- What observers are told of an import of changes. -/
def importEvent? (d : Document) (cs : List Change) : Option VersionEvent :=
  let (next, status, _) := d.log.importChanges cs
  if status.applied.isEmpty then none else some (importEvent d.log next status.applied)

theorem absorb_observers :
    (d.absorb cs).observers = (d.importEvent? cs).toList.foldl Observers.emit d.observers := by
  unfold absorb announce importEvent?
  dsimp only
  split
  · rfl
  · obtain ⟨registry, hregister⟩ := registerAll_eq { d with log := (d.log.importChanges cs).1 }
      (opsIn (d.log.importChanges cs).1 (d.log.importChanges cs).2.1.applied)
    rw [hregister]
    rfl

theorem importEvent_announces (h : log.GrowsBy added next) (hn : next.Runs) :
    (importEvent log next (IdSpan.coalesce (added.map Change.span))).Announces log next added := by
  refine ⟨rfl, rfl, Ordered.ascending_ofList _, fun x => ?_⟩
  rw [importEvent, Ordered.mem_ofList, List.mem_map]
  exact exists_mem_opsIn h hn fun _ op => op.container = x

end Told

end Document

end CausalReplica
