import CausalReplica.Proofs.Change.Atom
import CausalReplica.Proofs.Log.Import
import CausalReplica.Proofs.Log.Issued

/-!
# Staying in the word range

Where a log forms sums without looking at the word range, it stops when one leaves it. The ends of
stored changes and the Lamport times of their operations never do. What is left of a change that is
cut may: the position of an insertion lies past that of the whole by the atoms that are cut off, and
of a change that is not stored the Lamport time may run out too.
-/

namespace CausalReplica

open Outcome (Guarded)

namespace Change

variable {c : Change} {op : Op} {k : Nat}

/-- The ends of the change and of its operations, and the Lamport times of its atoms, are words. -/
structure InWords (c : Change) : Prop where
  lamportEnd : c.checkedLamportEnd = some c.lamportEnd
  stop : ∀ op ∈ c.ops, Word.checked (op.counter + op.content.atoms) = some op.stop
  lamportOf : ∀ n, c.start ≤ n → n < c.stop → c.lamportOf? n = some (c.lamportOf n)

theorem WellFormed.inWords (h : c.WellFormed) : c.InWords where
  lamportEnd := if_pos h.lamportEnd_le_top
  stop op hop := by
    have hend := Nat.le_trans (h.consecutive.mem hop).2 h.counters_fit
    rw [Op.stop_eq hend]
    exact if_pos hend
  lamportOf n hle hlt := by
    have hend := h.lamportEnd_le_top
    unfold Change.lamportEnd length at hend
    exact (lamportOf?_guarded hle).eq_some (by omega)

theorem exists_whole_of_mem_sliceFrom (hop : op ∈ (c.sliceFrom k).ops) :
    ∃ whole ∈ c.ops, op = whole ∨
      (whole.counter < k ∧ k < whole.stop ∧ op = whole.suffixFrom k) := by
  by_cases hle : k ≤ c.start
  · rw [sliceFrom_of_le hle] at hop
    exact ⟨op, hop, .inl rfl⟩
  · rw [sliceFrom_of_lt (Nat.lt_of_not_le hle)] at hop
    obtain ⟨whole, hwhole, rfl⟩ := List.mem_map.mp hop
    obtain ⟨hmem, hstop⟩ := List.mem_filter.mp hwhole
    refine ⟨whole, hmem, ?_⟩
    by_cases hcut : whole.counter < k
    · exact .inr ⟨hcut, by simpa using hstop, if_pos hcut⟩
    · exact .inl (if_neg hcut)

end Change

namespace Op

/-- The operation is `whole`, or what is left of it past the first atoms. If it inserts, then at the
position of `whole` and past it by the number of these atoms. -/
structure EndOf (op whole : Op) : Prop where
  eq_or_cut : op = whole ∨ (whole.counter < op.counter ∧ op.counter < whole.stop ∧
    whole.suffixFrom? op.counter = some op)
  insertPos?_eq : op.content.insertPos? =
    whole.content.insertPos?.map (· + (op.counter - whole.counter))

theorem EndOf.refl (op : Op) : op.EndOf op where
  eq_or_cut := .inl rfl
  insertPos?_eq := by simp

theorem EndOf.of_cut {whole : Op} {k : Nat} (hlt : whole.counter < k) (hstop : k < whole.stop)
    (hcut : whole.content.CutFits (k - whole.counter)) : (whole.suffixFrom k).EndOf whole where
  eq_or_cut := .inr ⟨hlt, hstop, (Content.suffix?_guarded.map _).eq_some hcut⟩
  insertPos?_eq := by
    refine Content.insertPos?_suffix.trans (Option.map_congr fun pos hpos => ?_)
    exact Word.wrap_of_le (Content.cutFits_iff.mp hcut pos hpos)

end Op

namespace ChangeLog

variable {log : ChangeLog} {v : VersionVector} {c : Change} {op : Op} {queue rest : List Change}

section Listing

/-- All that `v` does not cover can be cut off the stored changes within the word range. -/
def ListingFits (log : ChangeLog) (v : VersionVector) : Prop :=
  ∀ span ∈ log.vv.missingFrom v, ∀ c ∈ log.changesIn span, c.SliceFits span.start

theorem changesSince?_guarded :
    Guarded (log.changesSince? v) (log.ListingFits v) (log.changesSince v) :=
  (Guarded.mapM fun _ _ => Guarded.mapM fun _ _ => Change.sliceFrom?_guarded).bind_pure

/-- Only positions can leave the range. -/
theorem Runs.listingFits_iff (h : log.Runs) :
    log.ListingFits v ↔ ∀ c ∈ log.allChanges, c.CutFits (v.get c.peer) := by
  unfold ListingFits
  simp only [mem_changesIn h]
  constructor
  · intro hfits c hc op hop hlt hstop
    obtain ⟨p, hp⟩ := mem_allChanges.mp hc
    obtain ⟨rfl, hwf, _, hle⟩ := (h p).mem hp
    have hcut : v.get c.peer < c.stop := Nat.lt_of_lt_of_le hstop (hwf.op_bounds hop).2.2
    have hspan : ⟨c.peer, v.get c.peer, log.vv.get c.peer⟩ ∈ log.vv.missingFrom v :=
      VersionVector.mem_missingFrom.mpr ⟨rfl, Nat.lt_of_lt_of_le hcut hle, rfl⟩
    have hin := hfits _ hspan c ⟨hp, hcut, Nat.lt_of_lt_of_le hwf.start_lt_stop hle⟩
    exact (hwf.sliceFits_iff hcut).mp hin op hop hlt hstop
  · rintro hfits span hspan c ⟨hc, hstop, -⟩
    obtain ⟨hpeer, hwf, _⟩ := (h span.peer).mem hc
    obtain ⟨hstart, _⟩ := VersionVector.mem_missingFrom.mp hspan
    refine (hwf.sliceFits_iff hstop).mpr ?_
    rw [hstart, ← hpeer]
    exact hfits c (mem_allChanges.mpr ⟨span.peer, hc⟩)

theorem Runs.exists_endOf (h : log.Runs) (hfits : log.ListingFits v)
    (hc : c ∈ log.changesSince v) (hop : op ∈ c.ops) :
    ∃ stored ∈ log.changesOf c.peer, ∃ whole ∈ stored.ops, op.EndOf whole := by
  obtain ⟨stored, hstored, hstop, heq⟩ := (mem_changesSince h).mp hc
  have hpeer := ((h c.peer).mem hstored).1
  rw [heq] at hop
  obtain ⟨whole, hwhole, rfl | ⟨hlt, hreach, rfl⟩⟩ := Change.exists_whole_of_mem_sliceFrom hop
  · exact ⟨stored, hstored, op, hwhole, .refl op⟩
  · have hall := mem_allChanges.mpr ⟨c.peer, hstored⟩
    have hfit := h.listingFits_iff.mp hfits stored hall whole hwhole
    rw [hpeer] at hfit
    exact ⟨stored, hstored, whole, hwhole, .of_cut hlt hreach (hfit hlt hreach)⟩

end Listing

section Offering

theorem Runs.lamportOf?_of_find? {x : OpId} (h : log.Runs) (hx : log.find? x = some c) :
    c.lamportOf? x.counter = some (c.lamportOf x.counter) := by
  obtain ⟨hfirst, hcx⟩ := Option.filter_eq_some_iff.mp hx
  obtain ⟨_, hle, hlt⟩ := Change.contains_iff.mp hcx
  exact ((h x.peer).mem (Ordered.mem_of_firstFailing? hfirst)).2.1.inWords.lamportOf _ hle hlt

/-- The rest of the change, where its beginning is known, is in the word range. -/
def RestFits (log : ChangeLog) (c : Change) : Prop :=
  log.nextCounter c.peer < c.stop → c.SliceFits (log.nextCounter c.peer)

theorem offer?_guarded : Guarded (log.offer? c) (log.RestFits c) (log.offer c) := by
  unfold offer? offer RestFits
  dsimp only
  split
  · next hknown =>
    exact (Guarded.pure _).congr
      (iff_of_true trivial fun hnew => absurd hknown (Nat.not_le_of_lt hnew))
  · next hnew =>
    split
    · next hgap =>
      exact (Guarded.pure _).congr
        (iff_of_true trivial fun _ hcut => absurd hgap (Nat.lt_asymm hcut))
    · exact (Change.sliceFrom?_guarded.map _).congr (imp_iff_right (Nat.lt_of_not_le hnew)).symm

variable {next : ChangeLog} {d : Change} {m : OpId} {span : IdSpan} {e : Error}
variable {s s' : ChangeLog × List Change} {P : ChangeLog → Change → Prop}

/-- What is offered next, or in part, is in the word range unless its beginning is cut off and the
Lamport time or a position leaves that range. -/
theorem restFits_iff (hle : c.start ≤ log.nextCounter c.peer)
    (hlt : log.nextCounter c.peer < c.stop) :
    let known := log.nextCounter c.peer
    log.RestFits c ↔
      c.start = known ∨ (c.lamport + (known - c.start) ≤ Word.top ∧ c.CutFits known) := by
  intro known
  refine (imp_iff_right hlt).trans ?_
  rcases Nat.lt_or_eq_of_le hle with hpart | hnext
  · exact (imp_iff_right hpart).trans (or_iff_right (Nat.ne_of_lt hpart)).symm
  · exact iff_of_true (fun hpart => absurd hpart (Nat.not_lt.mpr (Nat.le_of_eq hnext.symm)))
      (.inl hnext)

theorem settle?_nil : log.settle? [] = some ⟨log, [], none⟩ := by rw [settle?]

theorem settle?_of_offer?_none (h : log.offer? c = none) : log.settle? (c :: rest) = none := by
  rw [settle?]
  split <;> simp_all

theorem settle?_added (h : log.offer? c = some (.added next span)) :
    log.settle? (c :: rest) =
      ((next.freedBy span).2.settle? (rest ++ (next.freedBy span).1)).map (·.apply span) := by
  rw [settle?]
  split <;> simp_all [freedBy]

theorem settle?_known (h : log.offer? c = some .known) :
    log.settle? (c :: rest) = log.settle? rest := by
  rw [settle?]
  split <;> simp_all

theorem settle?_blocked (h : log.offer? c = some (.blocked m d)) :
    log.settle? (c :: rest) = { log with pending := log.pending.add m d }.settle? rest := by
  rw [settle?]
  split <;> simp_all

theorem settle?_refused (h : log.offer? c = some (.refused e)) :
    log.settle? (c :: rest) = (log.settle? rest).map (·.refuse e) := by
  rw [settle?]
  split <;> simp_all

/-- Something holds of every change that a pass comes to offer. -/
def EachOffered (P : ChangeLog → Change → Prop) (s : ChangeLog × List Change) : Prop :=
  ∀ l d later, Passes s (l, d :: later) → P l d

theorem eachOffered_nil : EachOffered P (log, []) := by
  intro l d later hpasses
  rcases hpasses.cases_head with heq | ⟨_, hstep, -⟩
  · cases heq
  · cases hstep

theorem eachOffered_cons (hstep : PassStep (log, c :: rest) s) :
    EachOffered P (log, c :: rest) ↔ P log c ∧ EachOffered P s := by
  constructor
  · exact fun h => ⟨h _ _ _ .refl, fun l d later hs => h l d later (.head hstep hs)⟩
  · rintro ⟨hc, hs⟩ l d later hpasses
    rcases hpasses.cases_head with heq | ⟨s', hstep', hs'⟩
    · cases heq
      exact hc
    · exact hs l d later ((exists_unique_passStep (List.cons_ne_nil _ _)).unique hstep hstep' ▸ hs')

theorem settle?_guarded_of_step (hstep : PassStep (log, c :: rest) s)
    (hs : log.offer? c = some (log.offer c) →
      Guarded (log.settle? (c :: rest)) (EachOffered RestFits s) (log.settle (c :: rest))) :
    Guarded (log.settle? (c :: rest)) (EachOffered RestFits (log, c :: rest))
      (log.settle (c :: rest)) := by
  refine Guarded.congr ?_ (eachOffered_cons hstep).symm
  by_cases hfits : log.RestFits c
  · exact (hs (offer?_guarded.eq_some hfits)).congr (and_iff_right hfits).symm
  · exact ⟨fun h => absurd h.1 hfits,
      fun _ => settle?_of_offer?_none (offer?_guarded.eq_none hfits)⟩

theorem settle?_guarded :
    Guarded (log.settle? queue) (EachOffered RestFits (log, queue)) (log.settle queue) := by
  induction log, queue using settle.induct with
  | case1 log =>
    rw [settle?_nil, settle_nil]
    exact (Guarded.pure _).congr (iff_of_true trivial eachOffered_nil)
  | case2 log c rest next span ho freed ih =>
    refine settle?_guarded_of_step (.added ho) fun ho' => ?_
    rw [settle?_added (ho'.trans (congrArg some ho)), settle_added ho]
    exact ih.map _
  | case3 log c rest ho ih =>
    refine settle?_guarded_of_step (.known ho) fun ho' => ?_
    rw [settle?_known (ho'.trans (congrArg some ho)), settle_known ho]
    exact ih
  | case4 log c rest m d ho ih =>
    refine settle?_guarded_of_step (.blocked ho) fun ho' => ?_
    rw [settle?_blocked (ho'.trans (congrArg some ho)), settle_blocked ho]
    exact ih
  | case5 log c rest e ho ih =>
    refine settle?_guarded_of_step (.refused ho) fun ho' => ?_
    rw [settle?_refused (ho'.trans (congrArg some ho)), settle_refused ho]
    exact ih.map _

theorem importChanges?_guarded {changes : List Change} : Guarded (log.importChanges? changes)
    (EachOffered RestFits (log.opening changes)) (log.importChanges changes) :=
  settle?_guarded.map Pass.result

end Offering

end ChangeLog

end CausalReplica
