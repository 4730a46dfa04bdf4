import CausalReplica.Proofs.Log.Causal

/-!
# Sound logs

What a log keeps beside its changes describes them: the version vector their extent, the frontiers
the operations nothing comes after, the clock the first free Lamport time. Every change comes later
in Lamport time than its parents, so the causal order has no cycles. A change that the log admits
can be inserted and leaves the log sound.
-/

namespace CausalReplica

namespace Frontiers

theorem ascending_foldl_erase {f : Frontiers} {ids : List OpId} (h : Ordered.Ascending f.ids) :
    Ordered.Ascending (ids.foldl erase f).ids := by
  induction ids generalizing f with
  | nil => exact h
  | cons id ids ih => exact ih (ascending_erase h)

theorem mem_foldl_erase {f : Frontiers} {ids : List OpId} {x : OpId}
    (h : Ordered.Ascending f.ids) : x ∈ (ids.foldl erase f).ids ↔ x ∉ ids ∧ x ∈ f.ids := by
  induction ids generalizing f with
  | nil => simp
  | cons id ids ih =>
    rw [List.foldl_cons, ih (f := f.erase id) (ascending_erase h), mem_erase h,
      List.mem_cons, not_or, and_assoc]
    exact and_left_comm

end Frontiers

namespace ChangeLog

structure Sound (log : ChangeLog) : Prop where
  runs : log.Runs
  keys_eq : log.vv.ends.keys = log.changes.keys
  stored_ne_nil : ∀ p, log.changes.find? p ≠ some []
  parent_earlier : ∀ p, ∀ c ∈ log.changesOf p, ∀ d ∈ c.parents,
    ∃ lamport, log.lamportOf? d = some lamport ∧ lamport < c.lamport
  frontiers_ascending : Ordered.Ascending log.frontiers.ids
  mem_frontiers : ∀ x, x ∈ log.frontiers.ids ↔ log.contains x = true ∧ ∀ y, ¬ log.Parent x y
  nextLamport_le_iff : ∀ n, log.nextLamport ≤ n ↔ ∀ p, ∀ c ∈ log.changesOf p, c.lamportEnd ≤ n

/-- `c` is the next change of its peer, and all it depends on is known and earlier. -/
structure Admits (log : ChangeLog) (c : Change) : Prop where
  wellFormed : c.WellFormed
  start_eq : c.start = log.vv.get c.peer
  parent_earlier : ∀ d ∈ c.parents,
    ∃ lamport, log.lamportOf? d = some lamport ∧ lamport < c.lamport

theorem sound_empty : Sound empty where
  runs := fun _ => rfl
  keys_eq := rfl
  stored_ne_nil := fun _ h => nomatch h
  parent_earlier := fun _ _ hc => absurd hc List.not_mem_nil
  frontiers_ascending := .nil
  mem_frontiers := fun x => by
    constructor
    · exact fun hx => absurd hx List.not_mem_nil
    · exact fun h => absurd (contains_iff.mp h.1) (Nat.not_lt_zero _)
  nextLamport_le_iff := fun n => by
    constructor
    · exact fun _ _ _ hc => absurd hc List.not_mem_nil
    · exact fun _ => Nat.zero_le n

section Parents

variable {log : ChangeLog} {x y : OpId}

/-- A parent of an operation lies in its own change or is one of that change's parents. -/
theorem parent_cases (hp : log.Parent y x) :
    ∃ c ∈ log.changesOf x.peer, c.contains x = true ∧
      (y ∈ c.parents ∨ (x.prev = some y ∧ c.contains y = true)) := by
  obtain ⟨c, hc, hx, hy⟩ := hp
  refine ⟨c, hc, hx, ?_⟩
  rcases hy with hy | hy
  · obtain ⟨hpeer, hle, hlt⟩ := Change.contains_iff.mp hx
    obtain ⟨hyp, hyc⟩ := prev_eq_some_iff.mp hy
    by_cases hstart : x.counter = c.start
    · refine .inl (List.mem_append_right _ (Option.mem_toList.mpr ?_))
      exact prev_eq_some_iff.mpr ⟨hyp.trans hpeer, hstart.symm.trans hyc⟩
    · exact .inr ⟨hy, Change.contains_iff.mpr ⟨hyp.trans hpeer, by omega, by omega⟩⟩
  · exact .inl (List.mem_append_left _ hy)

end Parents

namespace Sound

variable {log : ChangeLog} {c : Change} {x y : OpId}

theorem contains_of_parents (h : log.Sound) {p : Peer} (hc : c ∈ log.changesOf p)
    (hx : x ∈ c.parents) : log.contains x = true := by
  obtain ⟨lamport, hl, _⟩ := h.parent_earlier p c hc x hx
  exact h.runs.lamportOf?_eq_some hl

theorem contains_parent (h : log.Sound) (hp : log.Parent y x) : log.contains y = true := by
  obtain ⟨c, hc, hx, hy | ⟨hy, hcy⟩⟩ := parent_cases hp
  · exact h.contains_of_parents hc hy
  · rw [← (prev_eq_some_iff.mp hy).1] at hc
    exact h.runs.contains_of_mem hc hcy

theorem lamport_lt_of_parent (h : log.Sound) (hp : log.Parent y x) :
    ∃ l m, log.lamportOf? y = some l ∧ log.lamportOf? x = some m ∧ l < m := by
  obtain ⟨c, hc, hx, hy | ⟨hy, hcy⟩⟩ := parent_cases hp
  · obtain ⟨l, hl, hlt⟩ := h.parent_earlier _ c hc y hy
    exact ⟨l, _, hl, h.runs.lamportOf?_of_mem hc hx, by omega⟩
  · obtain ⟨hyp, hyc⟩ := prev_eq_some_iff.mp hy
    have hle := (Change.contains_iff.mp hcy).2.1
    exact ⟨_, _, h.runs.lamportOf?_of_mem (hyp ▸ hc) hcy, h.runs.lamportOf?_of_mem hc hx, by omega⟩

theorem lamport_lt_of_before (h : log.Sound) (hb : log.Before y x) :
    ∃ l m, log.lamportOf? y = some l ∧ log.lamportOf? x = some m ∧ l < m := by
  unfold Before at hb
  induction hb with
  | single hp => exact h.lamport_lt_of_parent hp
  | tail _ hp ih =>
    obtain ⟨l, m, hl, hm, hlm⟩ := ih
    obtain ⟨m', n, hm', hn, hmn⟩ := h.lamport_lt_of_parent hp
    rw [hm] at hm'
    cases hm'
    exact ⟨l, n, hl, hn, by omega⟩

theorem contains_of_atOrBefore (h : log.Sound) (hb : log.AtOrBefore y x)
    (hx : log.contains x = true) : log.contains y = true := by
  unfold AtOrBefore at hb
  induction hb using Relation.ReflTransGen.head_induction_on with
  | refl => exact hx
  | head hp _ _ => exact h.contains_parent hp

/-- Nothing comes directly after a head if and only if nothing comes after it at all. -/
theorem mem_frontiers_iff (h : log.Sound) :
    x ∈ log.frontiers.ids ↔ log.contains x = true ∧ ∀ y, ¬ log.Before x y := by
  rw [h.mem_frontiers]
  refine and_congr_right fun _ => ⟨fun hno y hb => ?_, fun hno y hp => hno y (.single hp)⟩
  obtain ⟨z, hz, _⟩ := Relation.TransGen.head'_iff.mp hb
  exact hno z hz

theorem find?_changes_iff (h : log.Sound) {p : Peer} {cs : List Change} :
    log.changes.find? p = some cs ↔ cs ≠ [] ∧ log.changesOf p = cs := by
  unfold changesOf OrdMap.findD
  constructor
  · intro hf
    rw [hf]
    exact ⟨fun hnil => h.stored_ne_nil p (hnil ▸ hf), rfl⟩
  · intro ⟨hne, heq⟩
    cases hf : log.changes.find? p with
    | none =>
      rw [hf] at heq
      exact absurd heq.symm hne
    | some ds =>
      rw [hf] at heq
      exact congrArg some heq

theorem mem_peers (h : log.Sound) (p : Peer) : p ∈ log.vv.ends.keys ↔ log.changesOf p ≠ [] := by
  rw [h.keys_eq, OrdMap.mem_keys_iff, Option.isSome_iff_exists]
  constructor
  · intro ⟨cs, hcs⟩
    obtain ⟨hne, heq⟩ := h.find?_changes_iff.mp hcs
    rwa [heq]
  · intro hne
    exact ⟨_, h.find?_changes_iff.mpr ⟨hne, rfl⟩⟩

theorem vv_pos (h : log.Sound) : ∀ e ∈ log.vv.toList, 0 < e.2 := by
  intro e he
  have hget := VersionVector.get_of_mem (p := e.1) (n := e.2) he
  have hne := (h.mem_peers e.1).mp (List.mem_map.mpr ⟨e, he, rfl⟩)
  have hlt := (h.runs e.1).lt hne
  omega

/-- A part of a history knows all that the history says comes before what it knows. -/
theorem contains_of_partOf {whole : ChangeLog} (h : log.Sound) (hw : whole.Runs)
    (hp : log.PartOf whole) (hb : whole.AtOrBefore y x) (hx : log.contains x = true) :
    log.contains y = true := by
  unfold AtOrBefore at hb
  induction hb using Relation.ReflTransGen.head_induction_on with
  | refl => exact hx
  | head hpar _ ih => exact h.contains_parent (hp.parent_of_contains h.runs hw ih hpar)

theorem nextLamport_le_of_changesOf {other : ChangeLog} (h : log.Sound) (h' : other.Sound)
    (heq : ∀ p, log.changesOf p = other.changesOf p) : log.nextLamport ≤ other.nextLamport := by
  apply (h.nextLamport_le_iff _).mpr
  intro p c hc
  exact (h'.nextLamport_le_iff _).mp (Nat.le_refl _) p c (heq p ▸ hc)

theorem eq_of_changesOf {other : ChangeLog} (h : log.Sound) (h' : other.Sound)
    (heq : ∀ p, log.changesOf p = other.changesOf p) :
    log.changes = other.changes ∧ log.vv = other.vv ∧ log.frontiers = other.frontiers ∧
      log.clock = other.clock := by
  have hget : ∀ p, log.vv.get p = other.vv.get p := by
    intro p
    exact (h.runs p).last_unique (heq p ▸ h'.runs p)
  have hparent : ∀ x y, log.Parent x y ↔ other.Parent x y := by
    intro x y
    unfold Parent
    rw [heq]
  refine ⟨OrdMap.ext_find? fun p => Option.ext fun cs => ?_, ?_, ?_, ?_⟩
  · rw [h.find?_changes_iff, h'.find?_changes_iff, heq]
  · exact VersionVector.eq_of_get h.vv_pos h'.vv_pos hget
  · apply congrArg Frontiers.mk
    apply Ordered.eq_of_mem_iff h.frontiers_ascending h'.frontiers_ascending
    intro x
    rw [h.mem_frontiers, h'.mem_frontiers, contains_iff, contains_iff, hget]
    simp only [hparent]
  · apply congrArg LamportClock.mk
    exact Nat.le_antisymm (h.nextLamport_le_of_changesOf h' heq)
      (h'.nextLamport_le_of_changesOf h fun p => (heq p).symm)

end Sound

section Insert

variable {log : ChangeLog} {c : Change} {x y : OpId}

theorem changesOf_insert (p : Peer) :
    (log.insert c).changesOf p =
      if p = c.peer then log.changesOf p ++ [c] else log.changesOf p := by
  unfold changesOf OrdMap.findD insert
  dsimp only
  split
  · next h =>
    subst h
    rw [OrdMap.find?_insert_self, Option.getD_some]
    rfl
  · next h => rw [OrdMap.find?_insert_of_ne h]

theorem mem_changesOf_insert {p : Peer} {d : Change} :
    d ∈ (log.insert c).changesOf p ↔ d ∈ log.changesOf p ∨ (p = c.peer ∧ d = c) := by
  rw [changesOf_insert]
  split
  · next h => simp [h]
  · next h => simp [h]

theorem partOf_insert : log.PartOf (log.insert c) := by
  intro p
  rw [changesOf_insert]
  split
  · exact List.prefix_append _ _
  · exact List.prefix_rfl

theorem get_vv_insert (p : Peer) :
    (log.insert c).vv.get p = if p = c.peer then c.stop else log.vv.get p := by
  rw [insert_vv, VersionVector.get_setEnd]

namespace Admits

theorem runs_insert (ha : log.Admits c) (h : log.Runs) : (log.insert c).Runs := by
  intro p
  rw [changesOf_insert, get_vv_insert]
  split
  · next hp =>
    subst hp
    exact Change.Run.snoc (ha.start_eq ▸ h c.peer) rfl ha.wellFormed
  · exact h p

theorem contains_insert (ha : log.Admits c) :
    (log.insert c).contains x = true ↔ log.contains x = true ∨ c.contains x = true := by
  have hstart := ha.start_eq
  have hlt := ha.wellFormed.start_lt_stop
  rw [contains_iff, contains_iff, get_vv_insert, Change.contains_iff]
  split
  · next hp =>
    rw [hp, eq_self, true_and]
    omega
  · next hp => simp [hp]

theorem not_contains (ha : log.Admits c) (hx : c.contains x = true) : log.contains x = false := by
  obtain ⟨hp, hle, _⟩ := Change.contains_iff.mp hx
  have := ha.start_eq
  rw [Bool.eq_false_iff]
  intro hlog
  have := contains_iff.mp hlog
  rw [hp] at this
  omega

theorem contains_parents (ha : log.Admits c) (h : log.Runs) (hx : x ∈ c.parents) :
    log.contains x = true := by
  obtain ⟨lamport, hl, _⟩ := ha.parent_earlier x hx
  exact h.lamportOf?_eq_some hl

theorem parent_insert (ha : log.Admits c) :
    (log.insert c).Parent x y ↔
      log.Parent x y ∨ (c.contains y = true ∧ (y.prev = some x ∨ x ∈ c.deps.ids)) := by
  constructor
  · rintro ⟨d, hd, hy, hx⟩
    rcases mem_changesOf_insert.mp hd with hd | ⟨_, rfl⟩
    · exact .inl ⟨d, hd, hy, hx⟩
    · exact .inr ⟨hy, hx⟩
  · rintro (hp | ⟨hy, hx⟩)
    · exact partOf_insert.parent hp
    · have hpeer := (Change.contains_iff.mp hy).1
      exact ⟨c, mem_changesOf_insert.mpr (.inr ⟨hpeer, rfl⟩), hy, hx⟩

theorem parent_of_mem_parents (ha : log.Admits c) (hx : x ∈ c.parents) :
    (log.insert c).Parent x c.id := by
  have hid := ha.wellFormed.contains_id
  apply ha.parent_insert.mpr
  rcases List.mem_append.mp hx with hdep | hprev
  · exact .inr ⟨hid, .inr hdep⟩
  · exact .inr ⟨hid, .inl (Option.mem_toList.mp hprev)⟩

/-- What the new change makes a parent of something, other than its own operations, is one of its
parents. -/
theorem mem_parents_of_parent_insert (ha : log.Admits c) (hin : log.contains x = true)
    (hp : (log.insert c).Parent x y) : log.Parent x y ∨ x ∈ c.parents := by
  rcases ha.parent_insert.mp hp with hp | ⟨hcy, hprev | hdep⟩
  · exact .inl hp
  · obtain ⟨hyp, hyc⟩ := prev_eq_some_iff.mp hprev
    obtain ⟨hpeer, hle, _⟩ := Change.contains_iff.mp hcy
    have hlt := contains_iff.mp hin
    rw [hyp, hpeer, ← ha.start_eq] at hlt
    refine .inr (List.mem_append_right _ (Option.mem_toList.mpr ?_))
    exact prev_eq_some_iff.mpr ⟨hyp.trans hpeer, by change c.start = _; omega⟩
  · exact .inr (List.mem_append_left _ hdep)

theorem not_parent_lastId (ha : log.Admits c) (h : log.Sound) :
    ¬ (log.insert c).Parent c.lastId y := by
  intro hp
  have hnew : log.contains c.lastId ≠ true := by
    rw [ha.not_contains ha.wellFormed.contains_lastId]
    exact Bool.false_ne_true
  rcases ha.parent_insert.mp hp with hp | ⟨hcy, hprev | hdep⟩
  · exact hnew (h.contains_parent hp)
  · obtain ⟨_, hyc⟩ := prev_eq_some_iff.mp hprev
    have hys := (Change.contains_iff.mp hcy).2.2
    replace hyc : y.counter = c.stop - 1 + 1 := hyc
    omega
  · exact hnew (ha.contains_parents h.runs (List.mem_append_left _ hdep))

/-- Every operation of the new change but the last has the next one after it. -/
theorem eq_lastId_of_not_parent (ha : log.Admits c) (hx : c.contains x = true)
    (hno : ∀ y, ¬ (log.insert c).Parent x y) : x = c.lastId := by
  obtain ⟨hp, hle, hxs⟩ := Change.contains_iff.mp hx
  by_cases heq : x.counter + 1 = c.stop
  · obtain ⟨q, n⟩ := x
    unfold Change.lastId
    rw [← heq]
    exact congrArg (OpId.mk · n) hp
  · have hnext : c.contains ⟨x.peer, x.counter + 1⟩ = true :=
      Change.contains_iff.mpr ⟨hp, Nat.le_succ_of_le hle, Nat.lt_of_le_of_ne hxs heq⟩
    have hprev : OpId.prev ⟨x.peer, x.counter + 1⟩ = some x := prev_eq_some_iff.mpr ⟨rfl, rfl⟩
    exact absurd (ha.parent_insert.mpr (.inr ⟨hnext, .inl hprev⟩)) (hno _)

theorem mem_frontiers_insert (ha : log.Admits c) (h : log.Sound) :
    x ∈ (log.insert c).frontiers.ids ↔
      (log.insert c).contains x = true ∧ ∀ y, ¬ (log.insert c).Parent x y := by
  have hmem : x ∈ (log.insert c).frontiers.ids ↔
      x = c.lastId ∨ (x ∉ c.parents ∧ x ∈ log.frontiers.ids) := by
    change x ∈ ((c.parents.foldl Frontiers.erase log.frontiers).insert c.lastId).ids ↔ _
    rw [Frontiers.mem_insert, Frontiers.mem_foldl_erase h.frontiers_ascending]
  rw [hmem]
  constructor
  · intro hx
    rcases hx with rfl | ⟨hnot, hx⟩
    · exact ⟨ha.contains_insert.mpr (.inr ha.wellFormed.contains_lastId),
        fun y => ha.not_parent_lastId h⟩
    · obtain ⟨hin, hno⟩ := (h.mem_frontiers x).mp hx
      refine ⟨ha.contains_insert.mpr (.inl hin), fun y hy => ?_⟩
      exact (ha.mem_parents_of_parent_insert hin hy).elim (hno y) hnot
  · intro ⟨hin, hno⟩
    rcases ha.contains_insert.mp hin with hold | hnew
    · refine .inr ⟨fun hpar => hno c.id (ha.parent_of_mem_parents hpar), ?_⟩
      apply (h.mem_frontiers x).mpr
      exact ⟨hold, fun y hp => hno y (ha.parent_insert.mpr (.inl hp))⟩
    · exact .inl (ha.eq_lastId_of_not_parent hnew hno)

theorem nextLamport_insert_le_iff (h : log.Sound) (n : Nat) :
    (log.insert c).nextLamport ≤ n ↔
      ∀ p, ∀ d ∈ (log.insert c).changesOf p, d.lamportEnd ≤ n := by
  have hnext : (log.insert c).nextLamport = max log.nextLamport c.lamportEnd := rfl
  rw [hnext, Nat.max_le, h.nextLamport_le_iff]
  constructor
  · rintro ⟨hold, hc⟩ p d hd
    rcases mem_changesOf_insert.mp hd with hd | ⟨_, rfl⟩
    · exact hold p d hd
    · exact hc
  · intro hall
    exact ⟨fun p d hd => hall p d (mem_changesOf_insert.mpr (.inl hd)),
      hall c.peer c (mem_changesOf_insert.mpr (.inr ⟨rfl, rfl⟩))⟩

theorem keys_insert (ha : log.Admits c) (h : log.Sound) :
    (log.insert c).vv.ends.keys = (log.insert c).changes.keys := by
  have hlt := ha.wellFormed.start_lt_stop
  have hset : (log.insert c).vv.ends = log.vv.ends.insert c.peer c.stop := by
    rw [insert_vv]
    unfold VersionVector.setEnd
    split
    · omega
    · next n hn => rw [hn]
  rw [hset, OrdMap.keys_insert, h.keys_eq]
  exact OrdMap.keys_insert.symm

theorem parent_earlier_insert (ha : log.Admits c) (h : log.Sound) {p : Peer} {d : Change}
    (hd : d ∈ (log.insert c).changesOf p) (hx : x ∈ d.parents) :
    ∃ lamport, (log.insert c).lamportOf? x = some lamport ∧ lamport < d.lamport := by
  have hold : ∃ lamport, log.lamportOf? x = some lamport ∧ lamport < d.lamport := by
    rcases mem_changesOf_insert.mp hd with hd | ⟨_, rfl⟩
    · exact h.parent_earlier p d hd x hx
    · exact ha.parent_earlier x hx
  obtain ⟨lamport, hl, hlt⟩ := hold
  refine ⟨lamport, ?_, hlt⟩
  rw [← hl]
  exact (partOf_insert.lamportOf? h.runs (ha.runs_insert h.runs)
    (h.runs.lamportOf?_eq_some hl)).symm

theorem sound_insert (ha : log.Admits c) (h : log.Sound) : (log.insert c).Sound where
  runs := ha.runs_insert h.runs
  keys_eq := ha.keys_insert h
  stored_ne_nil := fun p hp => by
    by_cases hpc : p = c.peer
    · subst hpc
      have : some (log.changesOf c.peer ++ [c]) = some [] := OrdMap.find?_insert_self.symm.trans hp
      exact absurd (Option.some.inj this)
        (List.append_ne_nil_of_right_ne_nil _ (List.cons_ne_nil _ _))
    · exact h.stored_ne_nil p ((OrdMap.find?_insert_of_ne hpc).symm.trans hp)
  parent_earlier := fun _ _ hd _ hx => ha.parent_earlier_insert h hd hx
  frontiers_ascending :=
    Frontiers.ascending_insert (Frontiers.ascending_foldl_erase h.frontiers_ascending)
  mem_frontiers := fun _ => ha.mem_frontiers_insert h
  nextLamport_le_iff := nextLamport_insert_le_iff h

end Admits

end Insert

end ChangeLog

end CausalReplica
