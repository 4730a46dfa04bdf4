import CausalReplica.Proofs.Id.Coalesce
import CausalReplica.Proofs.Log.Import

/-!
# What an import adds

The changes that enter the log in an import are put behind the earlier ones of their peers. The
status names exactly their operations, none of which was known.
-/

namespace CausalReplica.ChangeLog

variable {log mid next : ChangeLog} {added more queue : List Change} {c : Change} {p : Peer}
  {x : OpId}

/-- `next` holds the changes of `log` and, each behind the earlier ones of its peer, `added`. -/
def GrowsBy (log : ChangeLog) (added : List Change) (next : ChangeLog) : Prop :=
  ∀ p, next.changesOf p = log.changesOf p ++ added.filter (·.peer = p)

namespace GrowsBy

theorem refl (log : ChangeLog) : log.GrowsBy [] log := fun _ => (List.append_nil _).symm

theorem of_insert : log.GrowsBy [c] (log.insert c) := by
  intro p
  rw [changesOf_insert]
  by_cases hp : p = c.peer
  · simp [hp]
  · simp [hp, Ne.symm hp]

theorem trans (h : log.GrowsBy added mid) (h' : mid.GrowsBy more next) :
    log.GrowsBy (added ++ more) next := by
  intro p
  rw [h' p, h p, List.filter_append, List.append_assoc]

theorem partOf (h : log.GrowsBy added next) : log.PartOf next :=
  fun p => ⟨_, (h p).symm⟩

theorem mem_changesOf (h : log.GrowsBy added next) :
    c ∈ next.changesOf p ↔ c ∈ log.changesOf p ∨ (c ∈ added ∧ c.peer = p) := by
  simp [h p]

theorem mem_of_added (h : log.GrowsBy added next) (hc : c ∈ added) :
    c ∈ next.changesOf c.peer :=
  h.mem_changesOf.mpr (.inr ⟨hc, rfl⟩)

theorem contains_iff (h : log.GrowsBy added next) (hl : log.Runs) (hn : next.Runs) :
    next.contains x = true ↔ log.contains x = true ∨ ∃ c ∈ added, c.contains x = true := by
  constructor
  · intro hx
    obtain ⟨c, hc, hcx⟩ := hn.exists_change hx
    rcases h.mem_changesOf.mp hc with hc | ⟨hc, _⟩
    · exact .inl (hl.contains_of_mem hc hcx)
    · exact .inr ⟨c, hc, hcx⟩
  · rintro (hx | ⟨c, hc, hcx⟩)
    · exact h.partOf.contains hl hn hx
    · have hpeer := (Change.contains_iff.mp hcx).1
      exact hn.contains_of_mem (h.mem_changesOf.mpr (.inr ⟨hc, hpeer.symm⟩)) hcx

theorem not_contains (h : log.GrowsBy added next) (hl : log.Runs) (hn : next.Runs)
    (hc : c ∈ added) (hcx : c.contains x = true) : log.contains x = false := by
  obtain ⟨hpeer, hle, _⟩ := Change.contains_iff.mp hcx
  have hrest := (hl x.peer).of_append (h x.peer ▸ hn x.peer)
  have hstart := (hrest.mem (List.mem_filter.mpr ⟨hc, by simp [hpeer]⟩)).2.2.1
  rw [Bool.eq_false_iff]
  intro hx
  have := ChangeLog.contains_iff.mp hx
  omega

end GrowsBy

/-- A pass names the changes that enter the log by their spans. -/
theorem Intact.settle_growsBy (h : log.Intact) (hq : ∀ c ∈ queue, c.WellFormed) :
    ∃ added, log.GrowsBy added (log.settle queue).log ∧
      (log.settle queue).applied = added.map Change.span := by
  induction log, queue using settle.induct with
  | case1 log =>
    rw [settle_nil]
    exact ⟨[], .refl log, rfl⟩
  | case2 log c rest next span ho freed ih =>
    obtain ⟨ha, rfl, rfl⟩ := offer_added h.sound (hq c List.mem_cons_self) ho
    obtain ⟨hfreed, hint⟩ := (h.insert ha).release
      fun id => id.peer = (c.sliceFrom (log.nextCounter c.peer)).span.peer &&
        id.counter < (c.sliceFrom (log.nextCounter c.peer)).span.stop
    have hqueue : ∀ d ∈ rest ++ freed.1, d.WellFormed :=
      List.forall_mem_append.mpr ⟨fun d hd => hq d (List.mem_cons_of_mem c hd), hfreed⟩
    obtain ⟨added, hgrow, happlied⟩ := ih hint hqueue
    rw [settle_added ho]
    exact ⟨_ :: added, GrowsBy.of_insert.trans hgrow, congrArg (_ :: ·) happlied⟩
  | case3 log c rest ho ih =>
    rw [settle_known ho]
    exact ih h fun d hd => hq d (List.mem_cons_of_mem c hd)
  | case4 log c rest m d ho ih =>
    have hd := offer_blocked (hq c List.mem_cons_self) ho
    rw [settle_blocked ho]
    exact ih (h.withPending_add hd) fun x hx => hq x (List.mem_cons_of_mem c hx)
  | case5 log c rest e ho ih =>
    rw [settle_refused ho]
    exact ih h fun d hd => hq d (List.mem_cons_of_mem c hd)

theorem Intact.importChanges_growsBy (h : log.Intact) {cs : List Change}
    (hcs : ∀ c ∈ cs, c.WellFormed) :
    ∃ added, log.GrowsBy added (log.importChanges cs).1 ∧
      (log.importChanges cs).2.1.applied = IdSpan.coalesce (added.map Change.span) := by
  obtain ⟨hfreed, hint⟩ := h.release log.vv.includes
  have hqueue : ∀ c ∈ cs.mergeSort Change.causalKeyLe ++ (log.release log.vv.includes).1,
      c.WellFormed :=
    List.forall_mem_append.mpr ⟨fun c hc => hcs c (List.mem_mergeSort.mp hc), hfreed⟩
  obtain ⟨added, hgrow, happlied⟩ := hint.settle_growsBy hqueue
  exact ⟨added, hgrow, congrArg IdSpan.coalesce happlied⟩

section Status

/-- The status names the operations of the added changes, no more and no less. -/
theorem exists_mem_coalesce_span :
    (∃ s ∈ IdSpan.coalesce (added.map Change.span), s.contains x = true) ↔
      ∃ c ∈ added, c.contains x = true := by
  rw [IdSpan.exists_mem_coalesce]
  constructor
  · rintro ⟨_, hs, hsx⟩
    obtain ⟨c, hc, rfl⟩ := List.mem_map.mp hs
    exact ⟨c, hc, hsx⟩
  · exact fun ⟨c, hc, hcx⟩ => ⟨c.span, List.mem_map_of_mem hc, hcx⟩

theorem Runs.mem_changesIn_of_contains (h : log.Runs) {s : IdSpan} (hc : c ∈ log.changesOf c.peer)
    (hcx : c.contains x = true) (hsx : s.contains x = true) : c ∈ log.changesIn s := by
  obtain ⟨hcp, hcle, hclt⟩ := Change.contains_iff.mp hcx
  obtain ⟨hsp, hsle, hslt⟩ := IdSpan.contains_iff.mp hsx
  exact (mem_changesIn h).mpr ⟨by rwa [← hsp, hcp], by omega, by omega⟩

/-- Nothing but the added changes overlaps a span of the status. -/
theorem GrowsBy.added_of_mem_changesIn (h : log.GrowsBy added next) (hn : next.Runs) {s : IdSpan}
    (hs : s ∈ IdSpan.coalesce (added.map Change.span)) (hc : c ∈ next.changesIn s) : c ∈ added := by
  obtain ⟨hmem, hstop, hstart⟩ := (mem_changesIn hn).mp hc
  obtain ⟨hpeer, hwf, _⟩ := (hn s.peer).mem hmem
  have hlt := hwf.start_lt_stop
  have hnonempty : s.start < s.stop := by
    refine IdSpan.coalesce_start_lt_stop (fun t ht => ?_) s hs
    obtain ⟨d, hd, rfl⟩ := List.mem_map.mp ht
    exact ((hn d.peer).mem (h.mem_of_added hd)).2.1.start_lt_stop
  -- The change and the span share an id, which only the change holds.
  have hsx : s.contains ⟨s.peer, max s.start c.start⟩ = true :=
    IdSpan.contains_iff.mpr ⟨rfl, Nat.le_max_left _ _, Nat.max_lt.mpr ⟨hnonempty, hstart⟩⟩
  have hcx : c.contains ⟨s.peer, max s.start c.start⟩ = true :=
    Change.contains_iff.mpr ⟨hpeer.symm, Nat.le_max_right _ _, Nat.max_lt.mpr ⟨hstop, hlt⟩⟩
  obtain ⟨d, hd, hdx⟩ := exists_mem_coalesce_span.mp ⟨s, hs, hsx⟩
  have hdmem : d ∈ next.changesOf s.peer :=
    h.mem_changesOf.mpr (.inr ⟨hd, (Change.contains_iff.mp hdx).1.symm⟩)
  have heq : c = d := hn.eq_of_contains hmem hdmem hcx hdx
  rwa [heq]

end Status

end CausalReplica.ChangeLog
