import CausalReplica.Proofs.Log.Reachable
import CausalReplica.Proofs.Log.WordRange
import Mathlib

/-!
# Changes whose ranges do not fit

The counters or the Lamport times of an oversized change leave the word range. Its end is held at
the top of that range, so a change whose counters run out shows it only by its Lamport times. These
are refused unless the Lamport time is the first counter itself: then the change passes for one that
ends with the counters. Any other oversized change is refused whenever it comes up, or waits, but it
does not enter the log.
-/

namespace CausalReplica

namespace Change

variable {c : Change} {k : Nat}

/-- The operations follow each other, but take more counters or Lamport times than there are. -/
structure Oversized (c : Change) : Prop where
  contiguous : Op.Contiguous c.start c.ops
  start_le_top : c.start ≤ Word.top
  lamport_le_top : c.lamport ≤ Word.top
  exceeds : Word.top < c.start + Op.totalAtoms c.ops ∨ Word.top < c.lamport + Op.totalAtoms c.ops

/-- The counters run out where the Lamport times do, so the range cut off there looks like a whole
one. -/
def Disguised (c : Change) : Prop :=
  Word.top < c.start + Op.totalAtoms c.ops ∧ c.lamport = c.start

instance (c : Change) : Decidable c.Disguised := inferInstanceAs (Decidable (_ ∧ _))

/-- The change is well-formed, or shows that its range does not fit. -/
def Undisguised (c : Change) : Prop := c.WellFormed ∨ (c.Oversized ∧ ¬ c.Disguised)

namespace Oversized

variable (h : c.Oversized)
include h

theorem not_wellFormed : ¬ c.WellFormed := by
  intro hwf
  have := hwf.counters_fit
  have := hwf.lamports_fit
  have := h.exceeds
  omega

theorem stop_eq_min : c.stop = min (c.start + Op.totalAtoms c.ops) Word.top := by
  have hne : c.ops ≠ [] := by
    intro hnil
    have hexceeds := h.exceeds
    have hstart := h.start_le_top
    have hlamport := h.lamport_le_top
    rw [hnil] at hexceeds
    simp only [Op.totalAtoms] at hexceeds
    omega
  exact stop_eq_of_getLast? (h.contiguous.getLast?_stop hne)

/-- The Lamport times run out before the counters are held at the top, unless the counters run out
first. -/
theorem top_lt_lamportEnd_iff : Word.top < c.lamportEnd ↔
    (Word.top < c.start + Op.totalAtoms c.ops → c.start < c.lamport) := by
  have hexceeds := h.exceeds
  have hstart := h.start_le_top
  rw [lamportEnd, length, h.stop_eq_min]
  omega

/-- Where a cut leaves a range that fits, its Lamport time is below its first counter, unless the
change is disguised: either it was below before, or it was reduced in the cut. -/
theorem lamportOf_lt (hd : ¬ c.Disguised) (hle : c.start ≤ k) (hlt : k < c.stop)
    (hfit : c.lamportOf k + (c.stop - k) ≤ Word.top) : c.lamportOf k < k := by
  have hlamport := h.lamport_le_top
  have hexceeds := h.exceeds
  have hstart := h.start_le_top
  rw [h.stop_eq_min] at hlt hfit
  unfold Disguised at hd
  simp only [lamportOf, Word.wrap, Word.top, UInt32.size] at hlamport hexceeds hd hlt hfit ⊢
  omega

end Oversized

theorem lamport_sliceFrom_of_le_top (hl : c.lamport ≤ Word.top) :
    (c.sliceFrom k).lamport = c.lamportOf k := by
  by_cases hk : k ≤ c.start
  · rw [sliceFrom_of_le hk, lamportOf, Nat.sub_eq_zero_of_le hk]
    exact (Word.wrap_of_le hl).symm
  · rw [sliceFrom_of_lt (Nat.lt_of_not_le hk)]

end Change

namespace ChangeLog

variable {log next : ChangeLog} {c : Change} {rest queue : List Change} {x : OpId} {n : Nat}

section Offer

namespace Sound

/-- Lamport times grow at least as fast as counters. -/
theorem counter_le_lamport (h : log.Sound) (hx : log.contains x = true) :
    ∃ lamport, log.lamportOf? x = some lamport ∧ x.counter ≤ lamport := by
  obtain ⟨p, n⟩ := x
  induction n with
  | zero =>
    obtain ⟨c, hc, hcx⟩ := h.runs.exists_change hx
    exact ⟨_, h.runs.lamportOf?_of_mem hc hcx, Nat.zero_le _⟩
  | succ n ih =>
    have hbelow : n + 1 < log.vv.get p := contains_iff.mp hx
    obtain ⟨l, hl, hle⟩ := ih (contains_iff.mpr (Nat.lt_of_succ_lt hbelow))
    obtain ⟨c, hc, hcx⟩ := h.runs.exists_change hx
    obtain ⟨l', m, hl', hm, hlt⟩ := h.lamport_lt_of_parent ⟨c, hc, hcx, .inl rfl⟩
    have heq : l = l' := Option.some.inj (hl.symm.trans hl')
    dsimp only at hle
    exact ⟨m, hm, by dsimp only; omega⟩

/-- The Lamport time expected of a peer's next change is no less than its first counter. -/
theorem start_le_assign (h : log.Sound) (hstart : c.start = log.vv.get c.peer) :
    c.start ≤ LamportClock.assign (c.parents.filterMap log.lamportOf?) := by
  rcases Nat.eq_zero_or_pos c.start with hzero | hpos
  · omega
  · have htop := vv_le_top h.runs c.peer
    have hprev : c.id.prev = some ⟨c.peer, c.start - 1⟩ :=
      prev_eq_some_iff.mpr ⟨rfl, (Nat.sub_add_cancel hpos).symm⟩
    have hknown : log.contains ⟨c.peer, c.start - 1⟩ = true :=
      contains_iff.mpr (by dsimp only; omega)
    obtain ⟨l, hl, hle⟩ := h.counter_le_lamport hknown
    have hmem : l ∈ c.parents.filterMap log.lamportOf? :=
      List.mem_filterMap.mpr ⟨_, mem_parents.mpr (.inr hprev), hl⟩
    have hassign : min (l + 1) Word.top ≤ _ :=
      LamportClock.assign_le_iff.mp (Nat.le_refl _) l hmem
    dsimp only at hle
    omega

end Sound

/-- What the log says of the rest of an oversized change that it knows in part or could take next:
the range does not fit, or the Lamport time, which a cut may have reduced, comes too early. -/
theorem offer_oversized (h : log.Sound) (hc : c.Oversized) (hd : ¬ c.Disguised)
    (hle : c.start ≤ log.nextCounter c.peer) (hlt : log.nextCounter c.peer < c.stop)
    (hdeps : ∀ x ∈ (c.sliceFrom (log.nextCounter c.peer)).deps.ids, log.contains x = true) :
    let known := log.nextCounter c.peer
    if Word.top < c.lamportOf known + (c.stop - known) then
      log.offer c = .refused (.invalidState (.lamportOverflow ⟨c.peer, known⟩))
    else ∃ expected, c.lamportOf known < expected ∧
      log.offer c = .refused (.invalidLamport ⟨c.peer, known⟩ (c.lamportOf known) expected) := by
  intro known
  have hoffer : log.offer c = log.offerNext (c.sliceFrom known) := by
    unfold offer
    rw [if_neg (Nat.not_le_of_lt hlt), if_neg (Nat.not_lt_of_le hle)]
  have hid : (c.sliceFrom known).id = ⟨c.peer, known⟩ := Change.id_sliceFrom hle
  have hlamport : (c.sliceFrom known).lamport = c.lamportOf known :=
    Change.lamport_sliceFrom_of_le_top hc.lamport_le_top
  have hend : (c.sliceFrom known).lamportEnd = c.lamportOf known + (c.stop - known) := by
    rw [Change.lamportEnd, Change.length, hlamport, Change.stop_sliceFrom hlt,
      Change.start_sliceFrom, Nat.max_eq_right hle]
  rw [hoffer, ← hend, ← hid, ← hlamport]
  split
  · next hover =>
    have hcheck : (c.sliceFrom known).checkedLamportEnd = none := Word.checked_eq_none_iff.mpr hover
    rw [offerNext, hcheck]
  · next hfit =>
    have hcheck : (c.sliceFrom known).checkedLamportEnd = some (c.sliceFrom known).lamportEnd :=
      Word.checked_eq_some_iff.mpr ⟨Nat.le_of_not_lt hfit, rfl⟩
    have hnone : ((c.sliceFrom known).deps.ids.find? fun id => !log.contains id) = none := by
      refine List.find?_eq_none.mpr fun x hx => ?_
      simp [hdeps x hx]
    have hearly : (c.sliceFrom known).lamport < LamportClock.assign
        ((c.sliceFrom known).parents.filterMap log.lamportOf?) := by
      have hlow : c.lamportOf known < known :=
        hc.lamportOf_lt hd hle hlt (hend ▸ Nat.le_of_not_lt hfit)
      have hstart : (c.sliceFrom known).start = known := congrArg OpId.counter hid
      have hassign := h.start_le_assign (c := c.sliceFrom known) (by
        rw [hstart, Change.peer_sliceFrom]
        rfl)
      omega
    refine ⟨_, hearly, ?_⟩
    rw [offerNext, hcheck, hnone]
    exact if_pos hearly

theorem offer_oversized_ne_added {span : IdSpan} (h : log.Sound) (hc : c.Oversized)
    (hd : ¬ c.Disguised) : log.offer c ≠ .added next span := by
  intro ho
  obtain ⟨hle, hlt, hnext⟩ := offer_added_cases ho
  obtain ⟨_, hdeps, _⟩ := offerNext_added hnext
  have hrefused := offer_oversized h hc hd hle hlt hdeps
  dsimp only at hrefused
  split at hrefused
  · exact nomatch ho.symm.trans hrefused
  · obtain ⟨_, _, hrefused⟩ := hrefused
    exact nomatch ho.symm.trans hrefused

end Offer

section Acts

variable {P : Change → Prop} {s s' : ChangeLog × List Change}

/-- What can happen to a log and the changes still to be offered to it: an append, or changes that
arrive, while there are none; else the offer of the next one. -/
inductive Act (P : Change → Prop) : ChangeLog × List Change → ChangeLog × List Change → Prop
  | append (log : ChangeLog) (p : Peer) (items : List (ContainerId × Content)) (deps : Frontiers)
      (timestamp : Int) : Act P (log, []) (log.appended p items deps timestamp, [])
  | receive (log : ChangeLog) (cs : List Change) (h : ∀ c ∈ cs, P c) :
      Act P (log, []) ((log.release log.vv.includes).2,
        cs.mergeSort Change.causalKeyLe ++ (log.release log.vv.includes).1)
  | offer {s s' : ChangeLog × List Change} (h : PassStep s s') : Act P s s'

def Acts (P : Change → Prop) : ChangeLog × List Change → ChangeLog × List Change → Prop :=
  Relation.ReflTransGen (Act P)

theorem acts_importChanges {cs : List Change} (h : ∀ c ∈ cs, P c) :
    Acts P (log, []) ((log.importChanges cs).1, []) := by
  have hpass := passes_settle (log.release log.vv.includes).2
    (cs.mergeSort Change.causalKeyLe ++ (log.release log.vv.includes).1)
  exact .head (.receive log cs h) (Relation.ReflTransGen.mono (fun _ _ => .offer) _ _ hpass)

theorem Act.holding (hs : Act P s s') (hP : Screens P) (h : Holding P s) : Holding P s' := by
  cases hs with
  | append log p items deps timestamp =>
    unfold appended
    split
    · next next c hok =>
      obtain ⟨hc, rfl⟩ := append_ok hok
      exact ⟨(nextChange_admits hc h.sound).1.sound_insert h.sound, h.waiting, h.queued⟩
    · exact h
  | receive log cs hcs =>
    obtain ⟨hfreed, hleft⟩ := PendingChanges.forall_release h.waiting log.vv.includes
    refine ⟨h.sound.withPending _, hleft, List.forall_mem_append.mpr ⟨fun c hc => ?_, hfreed⟩⟩
    exact hcs c (List.mem_mergeSort.mp hc)
  | offer hstep => exact (hstep.holding hP h).1

theorem Acts.holding (hs : Acts P (empty, []) s) (hP : Screens P) : Holding P s := by
  unfold Acts at hs
  induction hs with
  | refl =>
    exact ⟨sound_empty, fun _ _ hc => absurd hc List.not_mem_nil,
      fun _ hc => absurd hc List.not_mem_nil⟩
  | tail _ step ih => exact step.holding hP ih

theorem screens_undisguised : Screens Change.Undisguised := by
  intro log next c span h hc ho
  rcases hc with hwf | ⟨hover, hd⟩
  · exact (offer_added h hwf ho).1
  · exact absurd ho (offer_oversized_ne_added h hover hd)

end Acts

/-- Among changes that are well-formed, or oversized without a disguise, an oversized change does
nothing to a log whenever it comes up: at most it is put to wait. If it is next or known in part and
nothing it depends on is missing, it is refused, and the import goes on as without it. If the cut
reduces no Lamport time, the reason given is the range, except where the counters run out and the
Lamport time is no larger than the first counter. No sum leaves the word range unless the cut moves
the Lamport time or a position out of it. -/
theorem oversized_never_enters (h : Acts Change.Undisguised (empty, []) (log, c :: rest))
    (hc : c.Oversized) :
    let known := log.nextCounter c.peer
    (∀ s, PassStep (log, c :: rest) s → s.1 = { log with pending := s.1.pending }) ∧
    (c.start ≤ known → known < c.stop → (∀ x ∈ c.deps.ids, log.contains x = true) →
      (∃ e, log.settle (c :: rest) = (log.settle rest).refuse e ∧
        (e = .invalidState (.lamportOverflow ⟨c.peer, known⟩) ∨
          ∃ expected, e = .invalidLamport ⟨c.peer, known⟩ (c.lamportOf known) expected) ∧
        (c.lamport + (known - c.start) ≤ Word.top →
          (e = .invalidState (.lamportOverflow ⟨c.peer, known⟩) ↔
            (Word.top < c.start + Op.totalAtoms c.ops → c.start < c.lamport)))) ∧
      Outcome.Guarded (log.offer? c)
        (c.start = known ∨ (c.lamport + (known - c.start) ≤ Word.top ∧ c.CutFits known))
        (log.offer c) ∧
      ∀ x ∈ (c.sliceFrom known).parents, ∀ d, log.find? x = some d →
        d.lamportOf? x.counter = some (d.lamportOf x.counter)) := by
  intro known
  have hholding := h.holding screens_undisguised
  have hs : log.Sound := hholding.sound
  have hd : ¬ c.Disguised := by
    rcases hholding.queued c List.mem_cons_self with hwf | ⟨_, hd⟩
    · exact absurd hwf hc.not_wellFormed
    · exact hd
  refine ⟨fun s hstep => ?_, fun hle hlt hdeps => ⟨?_, offer?_guarded.congr (restFits_iff hle hlt),
    fun x _ d hd => hs.runs.lamportOf?_of_find? hd⟩⟩
  · cases hstep with
    | added ho => exact absurd ho (offer_oversized_ne_added hs hc hd)
    | known => rfl
    | blocked => rfl
    | refused => rfl
  · have hrest : ∀ x ∈ (c.sliceFrom known).deps.ids, log.contains x = true := by
      intro x hx
      rcases Nat.lt_or_eq_of_le hle with hpart | hnext
      · exact contains_deps_sliceFrom hpart hx
      · rw [Change.sliceFrom_of_le (Nat.le_of_eq hnext.symm)] at hx
        exact hdeps x hx
    have hrefused := offer_oversized hs hc hd hle hlt hrest
    -- Without a reduction the range of what is left ends where the whole does.
    have hend : c.lamport + (known - c.start) ≤ Word.top →
        c.lamportOf known + (c.stop - known) = c.lamportEnd := by
      intro hexact
      rw [Change.lamportOf, Word.wrap_of_le hexact, Change.lamportEnd, Change.length]
      omega
    dsimp only at hrefused
    split at hrefused
    · next hover =>
      refine ⟨_, settle_refused hrefused, .inl rfl, fun hexact => iff_of_true rfl ?_⟩
      exact hc.top_lt_lamportEnd_iff.mp (hend hexact ▸ hover)
    · next hfit =>
      obtain ⟨expected, _, hrefused⟩ := hrefused
      have hearly : Error.invalidLamport ⟨c.peer, known⟩ (c.lamportOf known) expected ≠
          .invalidState (.lamportOverflow ⟨c.peer, known⟩) := Error.noConfusion
      refine ⟨_, settle_refused hrefused, .inr ⟨expected, rfl⟩, fun hexact => ?_⟩
      refine iff_of_false hearly fun hrange => ?_
      exact hfit (hend hexact ▸ hc.top_lt_lamportEnd_iff.mpr hrange)

def deletion (len : Nat) : Change :=
  ⟨⟨⟨1⟩, 0⟩, 1, .empty, 0, [⟨0, .root "t" .text, .delete 0 len⟩]⟩

/-- A log with a first deletion, into which a longer one is to be imported. -/
def begun : ChangeLog :=
  (empty.importChanges [deletion 1]).1

/-- The rest of the longer deletion runs out of Lamport times. -/
theorem oversized_never_enters_rest :
    begun.settle [deletion 4294967295] =
        (begun.settle []).refuse (.invalidState (.lamportOverflow ⟨⟨1⟩, 1⟩)) ∧
      begun.offer? (deletion 4294967295) = some (begun.offer (deletion 4294967295)) := by
  have hover : (deletion 4294967295).Oversized := ⟨by decide, by decide, by decide, by decide⟩
  have hfirst : Acts Change.Undisguised (empty, []) (begun, []) :=
    acts_importChanges (List.forall_mem_singleton.mpr (.inl (by decide)))
  have hsecond : ∀ c ∈ [deletion 4294967295], c.Undisguised :=
    List.forall_mem_singleton.mpr (.inr ⟨hover, by decide⟩)
  have hacts := hfirst.tail (.receive _ _ hsecond)
  have hrelease : begun.release begun.vv.includes = ([], begun) := by cbv
  rw [hrelease, List.append_nil, List.mergeSort_singleton] at hacts
  have hknown : begun.nextCounter (deletion 4294967295).peer = 1 := by cbv
  obtain ⟨_, hoffer⟩ := oversized_never_enters hacts hover
  rw [hknown] at hoffer
  obtain ⟨⟨e, hsettle, _, hrange⟩, hexact, _⟩ := hoffer (by decide) (by decide) (by decide)
  rw [(hrange (by decide)).mpr (by decide)] at hsettle
  exact ⟨hsettle, hexact.eq_some (.inr ⟨by decide, by decide⟩)⟩

/-- The second deletion of this change starts at the last counter. -/
def disguised : Change :=
  ⟨⟨⟨1⟩, 0⟩, 0, .empty, 0,
    [⟨0, .root "t" .text, .delete 0 4294967295⟩, ⟨4294967295, .root "t" .text, .delete 0 1⟩]⟩

/-- It passes for a change that ends there. -/
theorem disguised_enters :
    disguised.Oversized ∧ (empty.importChanges [disguised]).1.contains ⟨⟨1⟩, 0⟩ = true ∧
      (empty.importChanges [disguised]).2.2 = none :=
  ⟨⟨by decide, by decide, by decide, by decide⟩, by cbv, by cbv⟩

end ChangeLog

end CausalReplica
