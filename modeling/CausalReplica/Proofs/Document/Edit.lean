import CausalReplica.Document.Edit
import CausalReplica.Document.Exchange
import CausalReplica.Proofs.Change.Fits
import CausalReplica.Proofs.Log.Append

/-!
# Edits and commits of one document

Edits only record operations, and a commit either leaves the log as it is or inserts one change of
the document's peer, whose numbers fit their fields when those of the recorded operations do.
-/

namespace CausalReplica.Document

variable {d next : Document} {container : ContainerId} {content : Content} {id : OpId}
  {item : ContainerId × Content}

/-- What can be done to a document through its handles. -/
inductive Edit where
  | root (name : String) (kind : Kind)
  | insertText (h : Handle .text) (pos : Nat) (text : String)
  | deleteText (h : Handle .text) (pos len : Nat)
  | insertValue (h : Handle .list) (pos : Nat) (value : Value)
  | deleteValues (h : Handle .list) (pos len : Nat)
  | insertListChild (h : Handle .list) (pos : Nat) (kind : Kind)
  | setKey (h : Handle .map) (key : String) (value : Value)
  | clearKey (h : Handle .map) (key : String)
  | insertMapChild (h : Handle .map) (key : String) (kind : Kind)

/-- The numbers in handles and values fit their fields. -/
def Edit.Fits : Edit → Prop
  | .root .. => True
  | .insertText h .. => h.id.Fits
  | .deleteText h .. => h.id.Fits
  | .insertValue h _ value => h.id.Fits ∧ value.Fits
  | .deleteValues h .. => h.id.Fits
  | .insertListChild h .. => h.id.Fits
  | .setKey h _ value => h.id.Fits ∧ value.Fits
  | .clearKey h _ => h.id.Fits
  | .insertMapChild h .. => h.id.Fits

/-- The document after a call that leaves it alone when it fails. -/
def orKeep (d : Document) : Except Error Document → Document
  | .ok next => next
  | .error _ => d

def apply (d : Document) : Edit → Document
  | .root name kind => (d.root name kind).1
  | .insertText h pos text => d.orKeep (d.insertText h pos text)
  | .deleteText h pos len => d.orKeep (d.deleteText h pos len)
  | .insertValue h pos value => d.orKeep (d.insertValue h pos value)
  | .deleteValues h pos len => d.orKeep (d.deleteValues h pos len)
  | .insertListChild h pos kind => (d.insertListChild h pos kind).1
  | .setKey h key value => d.orKeep (d.setKey h key value)
  | .clearKey h key => d.orKeep (d.clearKey h key)
  | .insertMapChild h key kind => (d.insertMapChild h key kind).1

/-- `next` differs from `d` in recorded operations and in what is known of containers at most. -/
structure Records (d next : Document) : Prop where
  peer_eq : next.peer = d.peer
  config_eq : next.config = d.config
  log_eq : next.log = d.log
  items_fit : (∀ item ∈ d.txn.items, ItemFits item) → ∀ item ∈ next.txn.items, ItemFits item

namespace Records

theorem refl (d : Document) : Records d d := ⟨rfl, rfl, rfl, fun h => h⟩

theorem trans {last : Document} (h : Records d next) (h' : Records next last) : Records d last :=
  ⟨h'.peer_eq.trans h.peer_eq, h'.config_eq.trans h.config_eq, h'.log_eq.trans h.log_eq,
    fun hitems => h'.items_fit (h.items_fit hitems)⟩

theorem orKeep {result : Except Error Document} (h : ∀ next, result = .ok next → Records d next) :
    Records d (d.orKeep result) := by
  cases result with
  | error e => exact .refl d
  | ok next => exact h next rfl

end Records

/-- A recorded operation takes the counters behind those recorded before. A container that it
creates is registered. -/
theorem record_spec (h : d.record container content = .ok (next, id)) :
    d.registry.contains container = true ∧
      id = ⟨d.peer, d.log.nextCounter d.peer + d.txn.length⟩ ∧
      id.counter + content.atoms ≤ Word.top ∧
      ∃ registry, next =
        { d with
          registry
          txn := ⟨d.txn.items ++ [(container, content)], d.txn.length + content.atoms⟩ } ∧
        ∀ x, registry.contains x = true ↔ d.registry.contains x = true ∨
          Op.created? ⟨id.counter, container, content⟩ d.peer = some x := by
  unfold record at h
  split at h
  · exact nomatch h
  · next hknown =>
    dsimp only at h
    split at h
    · exact nomatch h
    · next hatoms =>
      obtain ⟨_, rfl⟩ := Word.checked_eq_some_iff.mp hatoms
      split at h
      · exact nomatch h
      · next hroom =>
        cases h
        refine ⟨by simpa using hknown, rfl, Nat.le_of_not_lt hroom, ?_⟩
        split
        · next child hchild =>
          refine ⟨_, rfl, fun x => ?_⟩
          rw [hchild, Option.some.injEq, @eq_comm _ child, or_comm]
          exact Registry.contains_register
        · next hnone =>
          refine ⟨_, rfl, fun x => ?_⟩
          simp [hnone]

theorem record_ok (h : d.record container content = .ok (next, id))
    (hfit : ItemFits (container, content)) : Records d next ∧ id.Fits := by
  obtain ⟨_, rfl, hroom, registry, rfl, _⟩ := record_spec h
  refine ⟨⟨rfl, rfl, rfl, fun hitems => ?_⟩, Nat.le_of_add_right_le hroom⟩
  exact List.forall_mem_append.mpr ⟨hitems, fun item hitem => List.mem_singleton.mp hitem ▸ hfit⟩

theorem edit_ok (h : d.edit container content = .ok next)
    (hfit : ItemFits (container, content)) : Records d next := by
  obtain ⟨⟨recorded, id⟩, hrec, rfl⟩ := Outcome.of_map_ok h
  exact (record_ok hrec hfit).1

theorem narrow_ok {what : Measure} {n m : Nat} (h : what.narrow n = .ok m) : m ≤ Word.top := by
  unfold Measure.narrow at h
  split at h
  · next hn =>
    cases h
    exact hn
  · exact nomatch h

theorem insertText_ok {h : Handle .text} {pos : Nat} {text : String}
    (hok : d.insertText h pos text = .ok next) (hfit : h.id.Fits) : Records d next := by
  unfold insertText at hok
  split at hok
  · cases hok
    exact .refl d
  · obtain ⟨n, hn, hedit⟩ := Outcome.of_bind_ok hok
    exact edit_ok hedit ⟨hfit, narrow_ok hn⟩

theorem deleteRange_ok {pos len : Nat} (hok : d.deleteRange container pos len = .ok next)
    (hfit : container.Fits) : Records d next := by
  unfold deleteRange at hok
  split at hok
  · cases hok
    exact .refl d
  · obtain ⟨n, hn, hok⟩ := Outcome.of_bind_ok hok
    obtain ⟨m, hm, hedit⟩ := Outcome.of_bind_ok hok
    exact edit_ok hedit ⟨hfit, narrow_ok hn, narrow_ok hm⟩

theorem insertValue_ok {h : Handle .list} {pos : Nat} {value : Value}
    (hok : d.insertValue h pos value = .ok next) (hfit : h.id.Fits) (hvalue : value.Fits) :
    Records d next := by
  obtain ⟨n, hn, hedit⟩ := Outcome.of_bind_ok hok
  refine edit_ok hedit ⟨hfit, narrow_ok hn, fun v hv => ?_⟩
  rw [List.mem_singleton.mp hv]
  exact hvalue

theorem setKey_ok {h : Handle .map} {key : String} {value : Value}
    (hok : d.setKey h key value = .ok next) (hfit : h.id.Fits) (hvalue : value.Fits) :
    Records d next := by
  refine edit_ok hok ⟨hfit, fun v hv => ?_⟩
  cases hv
  exact hvalue

theorem insertChildWith_records {kind : Kind} {refer : Document → Value → Except Error Document}
    (hfit : container.Fits)
    (hrefer : ∀ created child next, child.Fits →
      refer created (.container child) = .ok next → Records created next) :
    Records d (d.insertChildWith container kind refer).1 := by
  unfold insertChildWith
  split
  · exact .refl d
  · next created id hrec =>
    obtain ⟨hcreated, hid⟩ := record_ok hrec ⟨hfit, trivial⟩
    dsimp only
    split
    · exact hcreated
    · next referred hok => exact hcreated.trans (hrefer created (.child id kind) referred hid hok)

theorem apply_records {e : Edit} (h : e.Fits) : Records d (d.apply e) := by
  cases e with
  | root name kind => exact ⟨rfl, rfl, rfl, fun hitems => hitems⟩
  | insertText handle pos text => exact .orKeep fun next hok => insertText_ok hok h
  | deleteText handle pos len => exact .orKeep fun next hok => deleteRange_ok hok h
  | insertValue handle pos value => exact .orKeep fun next hok => insertValue_ok hok h.1 h.2
  | deleteValues handle pos len => exact .orKeep fun next hok => deleteRange_ok hok h
  | insertListChild handle pos kind =>
    exact insertChildWith_records h fun _ _ _ hchild hok => insertValue_ok hok h hchild
  | setKey handle key value => exact .orKeep fun next hok => setKey_ok hok h.1 h.2
  | clearKey handle key => exact .orKeep fun next hok => edit_ok hok ⟨h, fun _ hv => nomatch hv⟩
  | insertMapChild handle key kind =>
    exact insertChildWith_records h fun _ _ _ hchild hok => setKey_ok hok h hchild

section Commit

variable {origin : Option String} {now : Int}

/-- The document without what is recorded. -/
def emptied (d : Document) : Document := { d with txn := {} }

/-- The change that a commit at the time `now` makes of what is recorded. -/
def change (d : Document) (now : Int) : Except Error Change :=
  d.log.nextChange d.peer d.txn.items d.log.frontiers
    (if d.config.recordTimestamp then now else 0)

/-- What observers are told of a commit that makes the change `c`. -/
def commitEvent (d : Document) (origin : Option String) (c : Change) : VersionEvent where
  before := d.log.frontiers
  after := (d.log.insert c).frontiers
  isLocal := true
  origin := origin
  containers := Ordered.ofList (d.txn.items.map (·.1))

/-- There is nothing to commit, or no change can be made of it, or the change enters the log. -/
theorem commit_cases (d : Document) (origin : Option String) (now : Int) :
    (d.txn.items = [] ∧ d.commit origin now = (d, .ok ())) ∨
    (∃ e, d.txn.items ≠ [] ∧ d.change now = .error e ∧
      d.commit origin now = (d.emptied, .error e)) ∨
    ∃ c, d.txn.items ≠ [] ∧ d.change now = .ok c ∧ d.commit origin now =
      (emit { d.emptied with log := d.log.insert c } (d.commitEvent origin c), .ok ()) := by
  unfold commit
  split
  · next hempty => exact .inl ⟨List.isEmpty_iff.mp hempty, rfl⟩
  · next hempty =>
    have hne : d.txn.items ≠ [] := fun hnil => hempty (List.isEmpty_iff.mpr hnil)
    have happend : d.log.append d.peer d.txn.items d.log.frontiers
        (if d.config.recordTimestamp then now else 0) =
        (d.change now).map fun c => (d.log.insert c, c) := rfl
    dsimp only
    rw [happend]
    cases hchange : d.change now with
    | error e => exact .inr (.inl ⟨e, hne, rfl, rfl⟩)
    | ok c => exact .inr (.inr ⟨c, hne, rfl, rfl⟩)

theorem commit_peer : (d.commit origin now).1.peer = d.peer := by
  rcases d.commit_cases origin now with ⟨_, h⟩ | ⟨_, _, _, h⟩ | ⟨_, _, _, h⟩ <;> rw [h] <;> rfl

theorem commit_config : (d.commit origin now).1.config = d.config := by
  rcases d.commit_cases origin now with ⟨_, h⟩ | ⟨_, _, _, h⟩ | ⟨_, _, _, h⟩ <;> rw [h] <;> rfl

theorem commit_items : (d.commit origin now).1.txn.items = [] := by
  rcases d.commit_cases origin now with ⟨hnil, h⟩ | ⟨_, _, _, h⟩ | ⟨_, _, _, h⟩
  · rw [h, hnil]
  · rw [h]
    rfl
  · rw [h]
    rfl

theorem commit_log (d : Document) (origin : Option String) (now : Int) :
    (d.commit origin now).1.log = d.log ∨
      ∃ c, d.log.nextChange d.peer d.txn.items d.log.frontiers
        (if d.config.recordTimestamp then now else 0) = .ok c ∧
      (d.commit origin now).1.log = d.log.insert c := by
  rcases d.commit_cases origin now with ⟨_, h⟩ | ⟨_, _, _, h⟩ | ⟨c, _, hchange, h⟩
  · exact .inl (congrArg (·.1.log) h)
  · exact .inl (congrArg (·.1.log) h)
  · exact .inr ⟨c, hchange, congrArg (·.1.log) h⟩

theorem commit_pending : (d.commit origin now).1.log.pending = d.log.pending := by
  rcases d.commit_log origin now with h | ⟨c, _, h⟩
  · rw [h]
  · rw [h, ChangeLog.insert_pending]

theorem commit_partOf : d.log.PartOf (d.commit origin now).1.log := by
  rcases d.commit_log origin now with h | ⟨c, _, h⟩
  · rw [h]
    exact .refl _
  · rw [h]
    exact ChangeLog.partOf_insert

theorem commit_change (origin : Option String) (now : Int) (hs : d.log.Sound)
    (hitems : ∀ item ∈ d.txn.items, ItemFits item) (htime : d.config.recordTimestamp = false) :
    (d.commit origin now).1.log = d.log ∨
      ∃ c, c.peer = d.peer ∧ d.log.Admits c ∧ c.Fits ∧
        (d.commit origin now).1.log = d.log.insert c := by
  rcases d.commit_log origin now with h | ⟨c, hc, h⟩
  · exact .inl h
  · obtain ⟨ha, hp, hdeps, hts, hops⟩ := ChangeLog.nextChange_admits hc hs
    rw [htime] at hts
    refine .inr ⟨c, hp, ha, ⟨ha.wellFormed, ?_, fun id hid => ?_, ?_, fun op hop => ?_⟩, h⟩
    · rw [hdeps]
      exact hs.frontiers_ascending
    · rw [hdeps] at hid
      have hin := ChangeLog.contains_iff.mp ((hs.mem_frontiers id).mp hid).1
      have := ChangeLog.vv_le_top hs.runs id.peer
      change id.counter ≤ Word.top
      omega
    · have hzero : c.timestamp = 0 := hts
      rw [hzero]
      exact ⟨by decide, by decide⟩
    · exact hitems op.item (hops ▸ List.mem_map_of_mem hop)

end Commit

end CausalReplica.Document
