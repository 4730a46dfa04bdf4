import CausalReplica.Log.History
import CausalReplica.Proofs.Log.Sound

/-!
# Causal histories are computed

In a sound log the closure of known operations holds exactly what is at or before one of them, and
the heads of a version vector are those of its last operations that come before no other. So the
frontiers that the log keeps are the heads of its own version vector, and the log passes its check.
-/

namespace CausalReplica.ChangeLog

variable {log : ChangeLog} {v : VersionVector} {x y : OpId}

/-- What comes right before an operation of `v` is in `v` or on the stack. -/
def ClosedUpTo (log : ChangeLog) (v : VersionVector) (stack : List OpId) : Prop :=
  ∀ x y, v.includes x = true → log.Parent y x → v.includes y = true ∨ y ∈ stack

/-- `x` is in `v`, or on the stack, or comes before what is on the stack. -/
def Reached (log : ChangeLog) (v : VersionVector) (stack : List OpId) (x : OpId) : Prop :=
  v.includes x = true ∨ ∃ r ∈ stack, log.AtOrBefore x r

theorem ClosedUpTo.reached {stack : List OpId} (h : log.ClosedUpTo v stack)
    (hb : log.AtOrBefore y x) (hx : v.includes x = true) : log.Reached v stack y := by
  unfold AtOrBefore at hb
  induction hb using Relation.ReflTransGen.head_induction_on with
  | refl => exact .inl hx
  | head hp _ ih =>
    rcases ih with hz | ⟨r, hr, hzr⟩
    · rcases h _ _ hz hp with hy | hy
      · exact .inl hy
      · exact .inr ⟨_, hy, .refl⟩
    · exact .inr ⟨r, hr, .head hp hzr⟩

theorem includes_setEnd {p : Peer} {n : Nat} :
    (v.setEnd p (n + 1)).includes x = true ↔
      if x.peer = p then x.counter ≤ n else v.includes x = true := by
  rw [VersionVector.includes_iff, VersionVector.get_setEnd, VersionVector.includes_iff]
  split
  · exact Nat.lt_succ_iff
  · exact Iff.rfl

theorem includes_setEnd_self {id : OpId} :
    (v.setEnd id.peer (id.counter + 1)).includes id = true :=
  includes_setEnd.mpr ((if_pos rfl).mpr (Nat.le_refl _))

theorem includes_setEnd_of_includes {id : OpId} (hnew : v.get id.peer ≤ id.counter)
    (hx : v.includes x = true) : (v.setEnd id.peer (id.counter + 1)).includes x = true := by
  rw [includes_setEnd]
  split
  · next hp =>
    have hlt := VersionVector.includes_iff.mp hx
    rw [hp] at hlt
    omega
  · exact hx

/-- The dependencies that join the stack with an operation `id` not yet in `v`. -/
def depsUpTo (log : ChangeLog) (v : VersionVector) (id : OpId) : List OpId :=
  ((log.changesIn ⟨id.peer, v.get id.peer, id.counter + 1⟩).flatMap (·.deps.ids)).reverse

section Advance

variable {id : OpId} {rest : List OpId}

theorem mem_depsUpTo (h : log.Runs) :
    y ∈ log.depsUpTo v id ↔ ∃ c ∈ log.changesOf id.peer,
      v.get id.peer < c.stop ∧ c.start ≤ id.counter ∧ y ∈ c.deps.ids := by
  unfold depsUpTo
  rw [List.mem_reverse, List.mem_flatMap]
  constructor
  · intro hy
    obtain ⟨c, hc, hy⟩ := hy
    obtain ⟨hmem, hstop, hstart⟩ := (mem_changesIn h).mp hc
    exact ⟨c, hmem, hstop, Nat.lt_succ_iff.mp hstart, hy⟩
  · intro hy
    obtain ⟨c, hmem, hstop, hstart, hy⟩ := hy
    exact ⟨c, (mem_changesIn h).mpr ⟨hmem, hstop, Nat.lt_succ_iff.mpr hstart⟩, hy⟩

/-- A dependency that joins the stack comes right before an operation up to `id`. -/
theorem before_of_mem_depsUpTo (h : log.Sound) (hknown : log.contains id = true)
    (hnew : v.get id.peer ≤ id.counter) (hy : y ∈ log.depsUpTo v id) :
    log.contains y = true ∧ log.AtOrBefore y id := by
  obtain ⟨c, hc, hstop, hstart, hdep⟩ := (mem_depsUpTo h.runs).mp hy
  obtain ⟨hpeer, hwf, _⟩ := (h.runs id.peer).mem hc
  have hlt := hwf.start_lt_stop
  refine ⟨h.contains_of_parents hc (List.mem_append_left _ hdep), ?_⟩
  have hz : c.contains ⟨id.peer, max c.start (v.get id.peer)⟩ = true :=
    Change.contains_iff.mpr ⟨hpeer.symm, Nat.le_max_left _ _, Nat.max_lt.mpr ⟨hlt, hstop⟩⟩
  have hparent : log.Parent y ⟨id.peer, max c.start (v.get id.peer)⟩ := ⟨c, hc, hz, .inr hdep⟩
  exact .head hparent (h.runs.atOrBefore_of_le rfl (Nat.max_le.mpr ⟨hstart, hnew⟩) hknown)

theorem ClosedUpTo.advance (hclosed : log.ClosedUpTo v (id :: rest)) (h : log.Runs)
    (hnew : v.get id.peer ≤ id.counter) :
    log.ClosedUpTo (v.setEnd id.peer (id.counter + 1)) (log.depsUpTo v id ++ rest) := by
  intro x y hx hp
  by_cases hold : v.includes x = true
  · rcases hclosed x y hold hp with hy | hy
    · exact .inl (includes_setEnd_of_includes hnew hy)
    · rcases List.mem_cons.mp hy with rfl | hy
      · exact .inl includes_setEnd_self
      · exact .inr (List.mem_append_right _ hy)
  · rw [includes_setEnd] at hx
    split at hx
    · next hpeer =>
      rw [VersionVector.includes_iff, hpeer] at hold
      obtain ⟨c, hc, hcx, hy⟩ := hp
      obtain ⟨_, hstart, hstop⟩ := Change.contains_iff.mp hcx
      rcases hy with hprev | hdep
      · obtain ⟨hyp, hyc⟩ := prev_eq_some_iff.mp hprev
        refine .inl (includes_setEnd.mpr ?_)
        rw [if_pos (hyp.trans hpeer)]
        omega
      · rw [hpeer] at hc
        refine .inr (List.mem_append_left _ ((mem_depsUpTo h).mpr ⟨c, hc, ?_, ?_, hdep⟩))
        · omega
        · omega
    · exact absurd hx hold

theorem ClosedUpTo.skip (hclosed : log.ClosedUpTo v (id :: rest)) (hin : v.includes id = true) :
    log.ClosedUpTo v rest := by
  intro x y hx hp
  rcases hclosed x y hx hp with hy | hy
  · exact .inl hy
  · rcases List.mem_cons.mp hy with rfl | hy
    · exact .inl hin
    · exact .inr hy

theorem ClosedUpTo.reached_skip_iff (hclosed : log.ClosedUpTo v (id :: rest))
    (hin : v.includes id = true) : log.Reached v rest x ↔ log.Reached v (id :: rest) x := by
  constructor
  · intro hx
    rcases hx with hx | ⟨r, hr, hxr⟩
    · exact .inl hx
    · exact .inr ⟨r, List.mem_cons_of_mem id hr, hxr⟩
  · intro hx
    rcases hx with hx | ⟨r, hr, hxr⟩
    · exact .inl hx
    · rcases List.mem_cons.mp hr with rfl | hr
      · exact (hclosed.skip hin).reached hxr hin
      · exact .inr ⟨r, hr, hxr⟩

/-- Taking in the top of the stack, and its dependencies onto the stack, reaches nothing else. -/
theorem ClosedUpTo.reached_advance_iff (hclosed : log.ClosedUpTo v (id :: rest)) (h : log.Sound)
    (hknown : log.contains id = true) (hnew : v.get id.peer ≤ id.counter) :
    log.Reached (v.setEnd id.peer (id.counter + 1)) (log.depsUpTo v id ++ rest) x ↔
      log.Reached v (id :: rest) x := by
  constructor
  · intro hx
    rcases hx with hx | ⟨r, hr, hxr⟩
    · rw [includes_setEnd] at hx
      split at hx
      · next hp => exact .inr ⟨id, List.mem_cons_self, h.runs.atOrBefore_of_le hp hx hknown⟩
      · exact .inl hx
    · rcases List.mem_append.mp hr with hr | hr
      · have hrid := (before_of_mem_depsUpTo h hknown hnew hr).2
        exact .inr ⟨id, List.mem_cons_self, hxr.trans hrid⟩
      · exact .inr ⟨r, List.mem_cons_of_mem id hr, hxr⟩
  · intro hx
    rcases hx with hx | ⟨r, hr, hxr⟩
    · exact .inl (includes_setEnd_of_includes hnew hx)
    · rcases List.mem_cons.mp hr with rfl | hr
      · exact (hclosed.advance h.runs hnew).reached hxr includes_setEnd_self
      · exact .inr ⟨r, List.mem_append_right _ hr, hxr⟩

end Advance

/-- A vector of known operations takes in another known one and those of its peer before it. -/
theorem contains_of_includes_setEnd {id : OpId}
    (hv : ∀ x, v.includes x = true → log.contains x = true) (hid : log.contains id = true)
    (hx : (v.setEnd id.peer (id.counter + 1)).includes x = true) : log.contains x = true := by
  rw [includes_setEnd] at hx
  split at hx
  · next hp =>
    have hlt := contains_iff.mp hid
    exact contains_iff.mpr (by rw [hp]; omega)
  · exact hv x hx

theorem closureFrom_spec (h : log.Sound) {stack : List OpId}
    (hv : ∀ x, v.includes x = true → log.contains x = true)
    (hstack : ∀ id ∈ stack, log.contains id = true) (hclosed : log.ClosedUpTo v stack) :
    ∃ w, log.closureFrom v stack = .ok w ∧
      ∀ x, w.includes x = true ↔ log.Reached v stack x := by
  induction v, stack using closureFrom.induct log with
  | case1 v =>
    refine ⟨v, by rw [closureFrom], fun x => ⟨.inl, fun hx => ?_⟩⟩
    rcases hx with hx | ⟨r, hr, _⟩
    · exact hx
    · exact absurd hr List.not_mem_nil
  | case2 v id rest hin ih =>
    have hin' : v.includes id = true := VersionVector.includes_iff.mpr hin
    obtain ⟨w, hw, hmem⟩ := ih hv (fun r hr => hstack r (List.mem_cons_of_mem id hr))
      (hclosed.skip hin')
    refine ⟨w, ?_, fun x => (hmem x).trans (hclosed.reached_skip_iff hin')⟩
    rw [closureFrom, dif_pos hin, hw]
  | case3 v id rest hout hknown _ ih =>
    have hnew : v.get id.peer ≤ id.counter := Nat.le_of_not_lt hout
    have hv' : ∀ x, (v.setEnd id.peer (id.counter + 1)).includes x = true →
        log.contains x = true := fun x => contains_of_includes_setEnd hv hknown
    have hstack' : ∀ r ∈ log.depsUpTo v id ++ rest, log.contains r = true := by
      intro r hr
      rcases List.mem_append.mp hr with hr | hr
      · exact (before_of_mem_depsUpTo h hknown hnew hr).1
      · exact hstack r (List.mem_cons_of_mem id hr)
    obtain ⟨w, hw, hmem⟩ := ih hv' hstack' (hclosed.advance h.runs hnew)
    refine ⟨w, ?_, fun x => (hmem x).trans (hclosed.reached_advance_iff h hknown hnew)⟩
    rw [closureFrom, dif_neg hout, dif_pos hknown]
    exact hw
  | case4 v id rest _ hunknown =>
    exact absurd (hstack id List.mem_cons_self) hunknown

/-- Of the unknown operations on the stack, the one nearest the top is reported: what joins the
stack above it is known. -/
theorem closureFrom_of_unknown (h : log.Sound) {stack : List OpId} {r : OpId}
    (hv : ∀ x, v.includes x = true → log.contains x = true)
    (hr : stack.find? (fun id => !log.contains id) = some r) :
    log.closureFrom v stack = .error (.notFound (.op r)) := by
  induction v, stack using closureFrom.induct log with
  | case1 v => exact nomatch hr
  | case2 v id rest hin ih =>
    have hknown := hv id (VersionVector.includes_iff.mpr hin)
    rw [closureFrom, dif_pos hin]
    exact ih hv (by simpa [hknown] using hr)
  | case3 v id rest hout hknown _ ih =>
    have hdeps : (log.depsUpTo v id).find? (fun id => !log.contains id) = none := by
      apply List.find?_eq_none.mpr
      intro y hy
      simp [(before_of_mem_depsUpTo h hknown (Nat.le_of_not_lt hout) hy).1]
    have hrest : rest.find? (fun id => !log.contains id) = some r := by simpa [hknown] using hr
    rw [closureFrom, dif_neg hout, dif_pos hknown]
    refine ih (fun x => contains_of_includes_setEnd hv hknown) ?_
    change (log.depsUpTo v id ++ rest).find? _ = some r
    rw [List.find?_append, hdeps, hrest]
    rfl
  | case4 v id rest hout hunknown =>
    rw [List.find?_cons_of_pos (by simpa using hunknown)] at hr
    cases hr
    rw [closureFrom, dif_neg hout, dif_neg hunknown]

theorem closure_spec (h : log.Sound) {roots : List OpId}
    (hroots : ∀ r ∈ roots, log.contains r = true) :
    ∃ w, log.closure roots = .ok w ∧
      ∀ x, w.includes x = true ↔ ∃ r ∈ roots, log.AtOrBefore x r := by
  have hempty : ∀ x, VersionVector.empty.includes x = true → False :=
    fun _ => VersionVector.not_includes_empty
  have hstack : ∀ r ∈ roots.reverse, log.contains r = true := by
    intro r hr
    exact hroots r (List.mem_reverse.mp hr)
  obtain ⟨w, hw, hmem⟩ := closureFrom_spec h (fun x hx => (hempty x hx).elim) hstack
    fun x _ hx => (hempty x hx).elim
  refine ⟨w, hw, fun x => (hmem x).trans ?_⟩
  constructor
  · rintro (hx | ⟨r, hr, hxr⟩)
    · exact (hempty x hx).elim
    · exact ⟨r, List.mem_reverse.mp hr, hxr⟩
  · rintro ⟨r, hr, hxr⟩
    exact .inr ⟨r, List.mem_reverse.mpr hr, hxr⟩

theorem strictParents_spec (h : log.Sound) {ids : List OpId}
    (hids : ∀ id ∈ ids, log.contains id = true) :
    ∃ ps, log.strictParents ids = .ok ps ∧ ∀ y, y ∈ ps ↔ ∃ x ∈ ids, log.Parent y x := by
  induction ids with
  | nil => exact ⟨[], rfl, by simp⟩
  | cons id ids ih =>
    obtain ⟨ps, hps, hmem⟩ := ih fun x hx => hids x (List.mem_cons_of_mem id hx)
    obtain ⟨c, hc, hcid⟩ := h.runs.exists_change (hids id List.mem_cons_self)
    have hget : log.get id = .ok c := by
      unfold get
      rw [h.runs.find?_of_mem hc hcid]
    refine ⟨c.deps.ids ++ id.prev.toList ++ ps, ?_, fun y => ?_⟩
    · unfold strictParents
      rw [hget, hps]
      rfl
    · rw [List.mem_append, List.mem_append, hmem, Option.mem_toList]
      simp only [List.mem_cons, exists_eq_or_imp, h.runs.parent_iff hc hcid]
      exact or_congr_left or_comm

theorem mem_lastIds (hpos : ∀ e ∈ v.toList, 0 < e.2) :
    x ∈ lastIds v ↔ v.get x.peer = x.counter + 1 := by
  constructor
  · intro hx
    obtain ⟨⟨p, n⟩, he, rfl⟩ := List.mem_map.mp hx
    have hn : 0 < n := hpos _ he
    have hget := VersionVector.get_of_mem he
    change v.get p = lastCounter n + 1
    unfold lastCounter
    rw [if_neg (by omega)]
    omega
  · intro hx
    refine List.mem_map.mpr ⟨(x.peer, v.get x.peer), VersionVector.mem_of_get_pos (by omega), ?_⟩
    obtain ⟨p, n⟩ := x
    dsimp only at hx ⊢
    unfold lastCounter
    rw [hx, if_neg (by omega), Nat.add_sub_cancel]

/-- The closure of the parents of some operations holds what comes before one of them. -/
theorem closure_strictParents_spec (h : log.Sound) {ids : List OpId}
    (hknown : ∀ x ∈ ids, log.contains x = true) :
    ∃ ps w, log.strictParents ids = .ok ps ∧ log.closure ps = .ok w ∧
      ∀ x, w.includes x = true ↔ ∃ y ∈ ids, log.Before x y := by
  obtain ⟨ps, hps, hmem⟩ := strictParents_spec h hknown
  have hparents : ∀ y ∈ ps, log.contains y = true := by
    intro y hy
    obtain ⟨x, _, hp⟩ := (hmem y).mp hy
    exact h.contains_parent hp
  obtain ⟨w, hw, hwmem⟩ := closure_spec h hparents
  refine ⟨ps, w, hps, hw, fun x => (hwmem x).trans ?_⟩
  constructor
  · intro hx
    obtain ⟨r, hr, hxr⟩ := hx
    obtain ⟨y, hy, hp⟩ := (hmem r).mp hr
    exact ⟨y, hy, Relation.TransGen.tail'_iff.mpr ⟨r, hxr, hp⟩⟩
  · intro hx
    obtain ⟨y, hy, hxy⟩ := hx
    obtain ⟨r, hxr, hp⟩ := Relation.TransGen.tail'_iff.mp hxy
    exact ⟨r, (hmem r).mpr ⟨y, hy, hp⟩, hxr⟩

theorem contains_of_mem_lastIds (hv : ∀ p, v.get p ≤ log.vv.get p) (hpos : ∀ e ∈ v.toList, 0 < e.2)
    (hx : x ∈ lastIds v) : log.contains x = true := by
  have hlast := (mem_lastIds hpos).mp hx
  have hle := hv x.peer
  exact contains_iff.mpr (by omega)

/-- The heads of a known vector are looked for among its last operations. -/
theorem vectorToFrontiers_of_le (hv : ∀ p, v.get p ≤ log.vv.get p) :
    log.vectorToFrontiers v = log.headsAmong (lastIds v) := by
  have hnone : log.firstUnknown v = none := by
    apply List.find?_eq_none.mpr
    intro e he
    have hget := VersionVector.get_of_mem (p := e.1) (n := e.2) he
    have := hv e.1
    simp only [decide_eq_true_eq]
    omega
  unfold vectorToFrontiers
  rw [hnone]

theorem vectorToFrontiers_spec (h : log.Sound) (hv : ∀ p, v.get p ≤ log.vv.get p)
    (hpos : ∀ e ∈ v.toList, 0 < e.2) :
    ∃ f, log.vectorToFrontiers v = .ok f ∧ Ordered.Ascending f.ids ∧
      ∀ x, x ∈ f.ids ↔ v.get x.peer = x.counter + 1 ∧
        ∀ y, v.get y.peer = y.counter + 1 → ¬ log.Before x y := by
  have hknown : ∀ x ∈ lastIds v, log.contains x = true :=
    fun x hx => contains_of_mem_lastIds hv hpos hx
  obtain ⟨ps, w, hps, hw, hbefore⟩ := closure_strictParents_spec h hknown
  refine ⟨.ofList ((lastIds v).filter fun id => !w.includes id), ?_,
    Ordered.ascending_ofList _, fun x => ?_⟩
  · rw [vectorToFrontiers_of_le hv]
    unfold headsAmong
    rw [hps]
    change (do
      let ancestors ← log.closure ps
      return Frontiers.ofList ((lastIds v).filter fun id => !ancestors.includes id)) = _
    rw [hw]
    rfl
  · rw [Frontiers.mem_ofList, List.mem_filter, mem_lastIds hpos, Bool.not_eq_true',
      ← Bool.not_eq_true, hbefore]
    refine and_congr_right fun _ => ⟨fun hno y hy hxy => ?_, fun hno hex => ?_⟩
    · exact hno ⟨y, (mem_lastIds hpos).mpr hy, hxy⟩
    · obtain ⟨y, hy, hxy⟩ := hex
      exact hno y ((mem_lastIds hpos).mp hy) hxy

namespace Sound

theorem exists_lastId (h : log.Sound) (hv : ∀ p, v.get p ≤ log.vv.get p)
    (hpos : ∀ e ∈ v.toList, 0 < e.2) (hx : v.includes x = true) :
    ∃ z ∈ lastIds v, log.AtOrBefore x z := by
  have hlt := VersionVector.includes_iff.mp hx
  have hle := hv x.peer
  refine ⟨⟨x.peer, v.get x.peer - 1⟩, (mem_lastIds hpos).mpr ?_, ?_⟩
  · change v.get x.peer = v.get x.peer - 1 + 1
    omega
  · refine h.runs.atOrBefore_of_le (y := ⟨x.peer, v.get x.peer - 1⟩) rfl ?_ (contains_iff.mpr ?_)
    · change x.counter ≤ v.get x.peer - 1
      omega
    · change v.get x.peer - 1 < log.vv.get x.peer
      omega

/-- The heads of a vector are the operations it includes that come before no other of them. -/
theorem vectorToFrontiers_heads (h : log.Sound) (hv : ∀ p, v.get p ≤ log.vv.get p)
    (hpos : ∀ e ∈ v.toList, 0 < e.2) :
    ∃ f, log.vectorToFrontiers v = .ok f ∧ Ordered.Ascending f.ids ∧
      ∀ x, x ∈ f.ids ↔ v.includes x = true ∧ ∀ y, v.includes y = true → ¬ log.Before x y := by
  obtain ⟨f, hf, hasc, hmem⟩ := vectorToFrontiers_spec h hv hpos
  refine ⟨f, hf, hasc, fun x => ?_⟩
  rw [hmem, VersionVector.includes_iff]
  constructor
  · rintro ⟨hlast, hno⟩
    refine ⟨by omega, fun y hy hxy => ?_⟩
    -- What comes after `x` is at or before the last operation of its peer.
    obtain ⟨z, hz, hyz⟩ := h.exists_lastId hv hpos hy
    exact hno z ((mem_lastIds hpos).mp hz) (hxy.trans_left hyz)
  · rintro ⟨hin, hno⟩
    refine ⟨?_, fun y hy => hno y (VersionVector.includes_iff.mpr (by omega))⟩
    have hle := hv x.peer
    by_cases hlast : v.get x.peer = x.counter + 1
    · exact hlast
    · have hnext : v.includes ⟨x.peer, x.counter + 1⟩ = true := by
        apply VersionVector.includes_iff.mpr
        change x.counter + 1 < v.get x.peer
        omega
      have hknown : log.contains ⟨x.peer, x.counter + 1⟩ = true :=
        VersionVector.get_le_iff.mp hv _ hnext
      obtain ⟨c, hc, hcx⟩ := h.runs.exists_change hknown
      exact absurd (.single ⟨c, hc, hcx, .inl rfl⟩) (hno _ hnext)

theorem vectorToFrontiers_vv (h : log.Sound) :
    log.vectorToFrontiers log.vv = .ok log.frontiers := by
  obtain ⟨f, hf, hasc, hmem⟩ := vectorToFrontiers_heads h (fun _ => Nat.le_refl _) h.vv_pos
  suffices heq : f.ids = log.frontiers.ids by
    rw [hf]
    exact congrArg (fun ids => Except.ok (Frontiers.mk ids)) heq
  refine Ordered.eq_of_mem_iff hasc h.frontiers_ascending fun x => ?_
  rw [hmem, h.mem_frontiers_iff]
  refine and_congr_right fun _ => ⟨fun hno y hxy => ?_, fun hno y _ => hno y⟩
  exact hno y (h.runs.contains_of_before hxy) hxy

theorem expected_le (h : log.Sound) {p : Peer} {c : Change} (hc : c ∈ log.changesOf p) :
    LamportClock.assign (c.parents.filterMap log.lamportOf?) ≤ c.lamport := by
  apply LamportClock.assign_le_iff.mpr
  intro l hl
  obtain ⟨d, hd, hdl⟩ := List.mem_filterMap.mp hl
  obtain ⟨l', hl', hlt⟩ := h.parent_earlier p c hc d hd
  rw [hdl] at hl'
  cases hl'
  have : Word.clamp (l + 1) ≤ l + 1 := Nat.min_le_left _ _
  omega

theorem validateRun_ok (h : log.Sound) {p : Peer} {first last : Nat} {cs : List Change}
    (hrun : Change.Run p first last cs) (hcs : ∀ c ∈ cs, c ∈ log.changesOf p) :
    log.validateRun p first cs = .ok last := by
  induction cs generalizing first with
  | nil => exact congrArg Except.ok hrun
  | cons c cs ih =>
    obtain ⟨_, hstart, _, hrest⟩ := hrun
    have hc := hcs c List.mem_cons_self
    have hparents : c.parents.find? (fun id => !log.contains id) = none := by
      apply List.find?_eq_none.mpr
      intro d hd
      simp [h.contains_of_parents hc hd]
    unfold validateRun
    rw [if_neg (by simpa using hstart), hparents]
    dsimp only
    rw [if_neg (Nat.not_lt.mpr (h.expected_le hc))]
    exact ih hrest fun d hd => hcs d (List.mem_cons_of_mem c hd)

theorem validatePeers_ok (h : log.Sound) {entries : List (Peer × List Change)}
    (hentries : ∀ e ∈ entries, e.2 = log.changesOf e.1) :
    log.validatePeers entries = .ok () := by
  induction entries with
  | nil => rfl
  | cons e entries ih =>
    obtain ⟨p, cs⟩ := e
    have hcs : cs = log.changesOf p := hentries _ List.mem_cons_self
    have hrun := h.validateRun_ok (hcs ▸ h.runs p) fun c hc => hcs ▸ hc
    unfold validatePeers
    rw [hrun]
    change (if log.vv.get p = log.vv.get p then _ else _) = _
    rw [if_pos rfl]
    exact ih fun e he => hentries e (List.mem_cons_of_mem _ he)

theorem validate_ok (h : log.Sound) : log.validate = .ok () := by
  have hstored : ∀ e ∈ log.changes.entries, e.2 = log.changesOf e.1 := by
    intro e he
    unfold changesOf OrdMap.findD
    rw [OrdMap.mem_entries_iff.mp he, Option.getD_some]
  have hpeers := h.validatePeers_ok hstored
  have hsize : log.vv.size = log.changes.size := by
    have := congrArg List.length h.keys_eq
    unfold OrdMap.keys at this
    rwa [List.length_map, List.length_map] at this
  unfold validate
  rw [hpeers, hsize, h.vectorToFrontiers_vv]
  simp [bind, Except.bind, pure, Except.pure]

end Sound

end CausalReplica.ChangeLog
