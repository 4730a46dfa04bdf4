import CausalReplica.Proofs.Log.Heads
import CausalReplica.Proofs.Log.Network
import Mathlib

/-!
# Comparing with the heads of another replica

Heads that a replica has, or had, stand for a history. Another replica of the same network that
knows all these heads computes that history and compares it with its own. Where some of them are
unknown, it compares with what they imply at least, so it may call a later history concurrent, but
never the other way round.
-/

namespace CausalReplica.ChangeLog

variable {log whole : ChangeLog} {f : Frontiers} {w : VersionVector} {x r : OpId} {o : CausalOrder}

def ops (log : ChangeLog) : Set OpId := { x | log.contains x = true }

/-- The heads and all that comes before them. -/
def history (log : ChangeLog) (f : Frontiers) : Set OpId := { x | ∃ r ∈ f.ids, log.AtOrBefore x r }

/-- What the log knows of the history of `f`: the history of the heads it knows and, in place of
any other head, that of the last operation it knows of the same peer. -/
def implied (log : ChangeLog) (f : Frontiers) : Set OpId :=
  { x | ∃ r ∈ f.ids, (log.contains r = true ∧ log.AtOrBefore x r) ∨
    (log.contains r = false ∧ 0 < log.vv.get r.peer ∧
      log.AtOrBefore x ⟨r.peer, log.vv.get r.peer - 1⟩) }

theorem vv_le_of_not_contains (h : log.contains r = false) : log.vv.get r.peer ≤ r.counter := by
  apply Nat.le_of_not_lt
  intro hlt
  rw [contains_iff.mpr hlt] at h
  exact nomatch h

theorem PartOf.atOrBefore_iff (h : log.PartOf whole) (hl : log.Sound) (hw : whole.Runs)
    (hr : log.contains r = true) : log.AtOrBefore x r ↔ whole.AtOrBefore x r := by
  constructor
  · exact Relation.ReflTransGen.mono (fun _ _ => h.parent) x r
  · intro hb
    unfold AtOrBefore at hb
    induction hb using Relation.ReflTransGen.head_induction_on with
    | refl => exact .refl
    | head hp _ ih =>
      exact .head (h.parent_of_contains hl.runs hw (hl.contains_of_atOrBefore ih hr) hp) ih

theorem PartOf.history_eq (h : log.PartOf whole) (hl : log.Sound) (hw : whole.Runs)
    (hf : ∀ r ∈ f.ids, log.contains r = true) : log.history f = whole.history f := by
  ext x
  apply exists_congr
  intro r
  exact and_congr_right fun hr => h.atOrBefore_iff hl hw (hf r hr)

section Compare

theorem includesAll_vv_iff {s : Set OpId} (hw : ∀ x, w.includes x = true ↔ x ∈ s) :
    w.includesAll log.vv = true ↔ log.ops ⊆ s := by
  rw [VersionVector.includesAll_iff, VersionVector.get_le_iff]
  simp only [hw]
  exact Iff.rfl

namespace Sound

theorem history_subset (h : log.Sound) (hf : ∀ r ∈ f.ids, log.contains r = true) :
    log.history f ⊆ log.ops := by
  rintro x ⟨r, hr, hxr⟩
  exact h.contains_of_atOrBefore hxr (hf r hr)

theorem ops_subset_history (h : log.Sound) : log.ops ⊆ log.history log.frontiers :=
  fun _ hx => h.exists_head hx

end Sound

/-- The last operation that the log knows of the peer of an unknown head. -/
def standIn? (log : ChangeLog) (id : OpId) : Option OpId :=
  match log.vv.get id.peer with
  | 0 => none
  | n + 1 => some ⟨id.peer, min id.counter n⟩

theorem standIn?_eq_some_iff (hr : log.contains r = false) :
    log.standIn? r = some x ↔ 0 < log.vv.get r.peer ∧ x = ⟨r.peer, log.vv.get r.peer - 1⟩ := by
  have hle := vv_le_of_not_contains hr
  unfold standIn?
  split
  · next hz => simp [hz]
  · next n hn =>
    rw [hn] at hle ⊢
    rw [Nat.min_eq_right (Nat.le_of_succ_le hle), Option.some.injEq]
    exact ⟨fun h => ⟨Nat.succ_pos n, h.symm⟩, fun h => h.2.symm⟩

theorem compareWithFrontiers_of_ne (h : f ≠ log.frontiers) :
    log.compareWithFrontiers f =
      let known := f.ids.filter log.contains
      let unseen := f.ids.filter (!log.contains ·)
      if unseen.isEmpty then (log.closure known).map log.vv.compare
      else (log.closure (known ++ unseen.filterMap log.standIn?)).map fun v =>
        if v.includesAll log.vv then .less else .concurrent := by
  unfold compareWithFrontiers
  rw [if_neg h, List.partition_eq_filter_filter]
  rfl

theorem compareWithFrontiers_of_known (h : log.Sound) (hf : ∀ r ∈ f.ids, log.contains r = true) :
    ∃ o, log.compareWithFrontiers f = .ok o ∧
      ((o = .equal ∧ log.ops ⊆ log.history f) ∨ (o = .greater ∧ ¬ log.ops ⊆ log.history f)) := by
  by_cases hown : f = log.frontiers
  · refine ⟨.equal, if_pos hown, .inl ⟨rfl, ?_⟩⟩
    rw [hown]
    exact h.ops_subset_history
  · obtain ⟨w, hw, hmem⟩ := closure_spec h hf
    have hall : f.ids.filter log.contains = f.ids := List.filter_eq_self.mpr hf
    have hnone : f.ids.filter (!log.contains ·) = [] := by
      apply List.filter_eq_nil_iff.mpr
      intro r hr
      simp [hf r hr]
    have hback : log.vv.includesAll w = true := by
      rw [VersionVector.includesAll_iff, VersionVector.get_le_iff]
      exact fun x hx => h.history_subset hf ((hmem x).mp hx)
    refine ⟨log.vv.compare w, ?_, ?_⟩
    · rw [compareWithFrontiers_of_ne hown, hall, hnone]
      dsimp only
      rw [hw]
      rfl
    · rw [VersionVector.compare_eq, hback, ← includesAll_vv_iff (s := log.history f) hmem]
      cases w.includesAll log.vv
      · exact .inr ⟨rfl, Bool.false_ne_true⟩
      · exact .inl ⟨rfl, rfl⟩

theorem mem_implied_iff : x ∈ log.implied f ↔
    ∃ r ∈ f.ids.filter log.contains ++ (f.ids.filter (!log.contains ·)).filterMap log.standIn?,
      log.AtOrBefore x r := by
  simp only [List.mem_append, List.mem_filterMap, List.mem_filter, Bool.not_eq_true']
  constructor
  · rintro ⟨r, hr, ⟨hin, hxr⟩ | ⟨hout, hpos, hxr⟩⟩
    · exact ⟨r, .inl ⟨hr, hin⟩, hxr⟩
    · exact ⟨_, .inr ⟨r, ⟨hr, hout⟩, (standIn?_eq_some_iff hout).mpr ⟨hpos, rfl⟩⟩, hxr⟩
  · rintro ⟨z, ⟨hz, hin⟩ | ⟨r, ⟨hr, hout⟩, hz⟩, hxz⟩
    · exact ⟨z, hz, .inl ⟨hin, hxz⟩⟩
    · obtain ⟨hpos, rfl⟩ := (standIn?_eq_some_iff hout).mp hz
      exact ⟨r, hr, .inr ⟨hout, hpos, hxz⟩⟩

theorem compareWithFrontiers_of_unseen (h : log.Sound)
    (hf : ∃ r ∈ f.ids, log.contains r = false) :
    ∃ o, log.compareWithFrontiers f = .ok o ∧
      ((o = .less ∧ log.ops ⊆ log.implied f) ∨ (o = .concurrent ∧ ¬ log.ops ⊆ log.implied f)) := by
  obtain ⟨r, hr, hout⟩ := hf
  have hother : f ≠ log.frontiers := by
    rintro rfl
    rw [((h.mem_frontiers r).mp hr).1] at hout
    exact nomatch hout
  have hsome : (f.ids.filter (!log.contains ·)).isEmpty = false := by
    apply List.isEmpty_eq_false_iff_exists_mem.mpr
    exact ⟨r, List.mem_filter.mpr ⟨hr, by simp [hout]⟩⟩
  have hroots : ∀ z ∈ f.ids.filter log.contains ++
      (f.ids.filter (!log.contains ·)).filterMap log.standIn?, log.contains z = true := by
    intro z hz
    rcases List.mem_append.mp hz with hz | hz
    · exact (List.mem_filter.mp hz).2
    · obtain ⟨r, hr, hz⟩ := List.mem_filterMap.mp hz
      have hout : log.contains r = false := by simpa using (List.mem_filter.mp hr).2
      obtain ⟨hpos, rfl⟩ := (standIn?_eq_some_iff hout).mp hz
      exact contains_iff.mpr (Nat.sub_one_lt_of_lt hpos)
  obtain ⟨w, hw, hmem⟩ := closure_spec h hroots
  refine ⟨if w.includesAll log.vv then .less else .concurrent, ?_, ?_⟩
  · rw [compareWithFrontiers_of_ne hother]
    dsimp only
    rw [hsome, hw]
    rfl
  · rw [← includesAll_vv_iff fun x => (hmem x).trans mem_implied_iff.symm]
    split
    · next hle => exact .inl ⟨rfl, hle⟩
    · next hle => exact .inr ⟨rfl, hle⟩

end Compare

/-- What heads imply for a part of the history lies in their history. -/
theorem PartOf.implied_subset (h : log.PartOf whole) (hl : log.Sound) (hw : whole.Sound)
    (hf : ∀ r ∈ f.ids, whole.contains r = true) : log.implied f ⊆ whole.history f := by
  rintro x ⟨r, hr, ⟨hin, hxr⟩ | ⟨hout, hpos, hxr⟩⟩
  · exact ⟨r, hr, (h.atOrBefore_iff hl hw.runs hin).mp hxr⟩
  · have hlast : log.contains ⟨r.peer, log.vv.get r.peer - 1⟩ = true :=
      contains_iff.mpr (Nat.sub_one_lt_of_lt hpos)
    have hle : log.vv.get r.peer - 1 ≤ r.counter := by
      have := vv_le_of_not_contains hout
      omega
    have hpeer : whole.AtOrBefore ⟨r.peer, log.vv.get r.peer - 1⟩ r :=
      hw.runs.atOrBefore_of_le rfl hle (hf r hr)
    exact ⟨r, hr, ((h.atOrBefore_iff hl hw.runs hlast).mp hxr).trans hpeer⟩

namespace Network

variable {ι : Type u} {owner : Peer → ι} {net past : Network ι} {i j : ι} [DecidableEq ι]

/-- A replica compares itself with heads that some replica knows or knew before. It always has an
answer, which tells the history of these heads from its own as far as it knows them, and never puts
one behind the other wrongly. -/
theorem comparison_sound (hpast : Steps owner initial past) (hnet : Steps owner past net)
    (hf : ∀ r ∈ f.ids, (past.logs j).contains r = true) :
    let log := net.logs i
    let history := (past.logs j).history f
    ∃ o, log.compareWithFrontiers f = .ok o ∧
      (o = .equal ↔ log.ops = history) ∧ (o = .greater ↔ history ⊂ log.ops) ∧
      (o = .less → log.ops ⊂ history) ∧
      ((∀ r ∈ f.ids, log.contains r = true) →
        (o = .concurrent ↔ ¬ log.ops ⊆ history ∧ ¬ history ⊆ log.ops)) ∧
      ((∃ r ∈ f.ids, log.contains r = false) →
        (o = .less ∨ o = .concurrent) ∧ (log.ops ⊆ log.implied f → o = .less)) := by
  intro log history
  obtain ⟨early, hearly, _⟩ := hpast.tracks tracks_initial
  obtain ⟨whole, hwhole, hgrow⟩ := hnet.tracks hearly
  have hw := hwhole.share.sound
  have hsource : (past.logs j).ReplicaOf whole := (hearly.share.replica j).mono hgrow
  have hlog : log.ReplicaOf whole := hwhole.share.replica i
  have hhistory : history = whole.history f :=
    hsource.partOf.history_eq hsource.sound hw.runs hf
  by_cases hknown : ∀ r ∈ f.ids, log.contains r = true
  · have heq : history = log.history f :=
      hhistory.trans (hlog.partOf.history_eq hlog.sound hw.runs hknown).symm
    have hsub : history ⊆ log.ops := heq ▸ hlog.sound.history_subset hknown
    have hseen : ¬ ∃ r ∈ f.ids, log.contains r = false := by
      rintro ⟨r, hr, hout⟩
      rw [hknown r hr] at hout
      exact nomatch hout
    obtain ⟨o, ho, hanswer⟩ := compareWithFrontiers_of_known hlog.sound hknown
    rw [← heq] at hanswer
    rcases hanswer with ⟨rfl, hle⟩ | ⟨rfl, hle⟩
    · exact ⟨_, ho, iff_of_true rfl (hle.antisymm hsub), iff_of_false nofun fun h => h.2 hle, nofun,
        fun _ => iff_of_false nofun fun h => h.1 hle, fun h => absurd h hseen⟩
    · exact ⟨_, ho, iff_of_false nofun fun h => hle h.subset, iff_of_true rfl ⟨hsub, hle⟩, nofun,
        fun _ => iff_of_false nofun fun h => h.2 hsub, fun h => absurd h hseen⟩
  · have hunseen : ∃ r ∈ f.ids, log.contains r = false := by simpa using hknown
    have hnot : ¬ history ⊆ log.ops := by
      obtain ⟨r, hr, hout⟩ := hunseen
      intro hle
      have hin : log.contains r = true := hle ⟨r, hr, .refl⟩
      rw [hin] at hout
      exact nomatch hout
    obtain ⟨o, ho, hanswer⟩ := compareWithFrontiers_of_unseen hlog.sound hunseen
    have hfwhole : ∀ r ∈ f.ids, whole.contains r = true := fun r hr =>
      hsource.partOf.contains hsource.sound.runs hw.runs (hf r hr)
    have himplied : log.implied f ⊆ history :=
      hhistory ▸ hlog.partOf.implied_subset hlog.sound hw hfwhole
    rcases hanswer with ⟨rfl, hle⟩ | ⟨rfl, hle⟩
    · exact ⟨_, ho, iff_of_false nofun fun h => hnot h.superset,
        iff_of_false nofun fun h => hnot h.subset, fun _ => ⟨hle.trans himplied, hnot⟩,
        fun h => absurd h hknown, fun _ => ⟨.inl rfl, fun _ => rfl⟩⟩
    · exact ⟨_, ho, iff_of_false nofun fun h => hnot h.superset,
        iff_of_false nofun fun h => hnot h.subset, nofun,
        fun h => absurd h hknown, fun _ => ⟨.inr rfl, fun h => absurd h hle⟩⟩

/-- A log with the first change of a peer. -/
def early : ChangeLog := empty.appended ⟨1⟩ [(.root "t" .text, .insertText 0 "ab")] .empty 0

/-- The log of the same peer with a second change. -/
def ahead : ChangeLog := early.appended ⟨1⟩ [(.root "t" .text, .insertText 2 "c")] .empty 0

/-- Another log, which imported the first. -/
def behind : ChangeLog := (empty.importChanges (early.changesSince .empty)).1

theorem comparison_sound_unseen_head :
    behind.compareWithFrontiers ahead.frontiers = .ok .less ∧
      behind.ops ⊂ ahead.history ahead.frontiers := by
  let owner : Peer → Bool := fun p => p.number == 1
  let one := initial.put (owner ⟨1⟩) early
  let two := { one with sent := one.sent ++ (one.logs true).changesSince .empty }
  let three := two.put false ((two.logs false).importChanges two.sent).1
  let net := three.put (owner ⟨1⟩)
    ((three.logs (owner ⟨1⟩)).appended ⟨1⟩ [(.root "t" .text, .insertText 2 "c")] .empty 0)
  have first : Step owner initial one := .append initial ⟨1⟩ ..
  have third : Step owner two three := .deliver two false two.sent fun _ hc => hc
  have last : Step owner three net := .append three ⟨1⟩ ..
  have steps : Steps owner initial net :=
    (((Relation.ReflTransGen.single first).tail (.send one true .empty)).tail third).tail last
  obtain ⟨_, tracks, _⟩ := steps.tracks tracks_initial
  have known : ∀ r ∈ ahead.frontiers.ids, (net.logs true).contains r = true := fun r hr =>
    (((tracks.share.replica true).sound.mem_frontiers r).mp hr).1
  have answer : behind.compareWithFrontiers ahead.frontiers = .ok .less := by cbv
  obtain ⟨o, ho, _, _, hless, _⟩ := comparison_sound (i := false) steps .refl known
  have heq : Except.ok o = Except.ok (ε := Error) CausalOrder.less := ho.symm.trans answer
  cases heq
  exact ⟨answer, hless rfl⟩

end Network

end CausalReplica.ChangeLog
