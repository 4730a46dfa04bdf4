import CausalReplica.Batch.Basic
import CausalReplica.Proofs.Change.Run
import Mathlib.Data.List.Chain

/-!
# Cutting one peer's changes to a run

The changes of one peer are sorted by their first counters, and the longest beginning of the sorted
list is kept in which each change starts where the one before it stopped. Either that is the whole
list, or it ends with a change and the next one starts elsewhere.
-/

namespace CausalReplica.Batch

variable {xs run more : List Change} {b c : Change} {p : Peer}

/-- The second change starts where the first one stops. -/
def Follows (b c : Change) : Prop := b.stop = c.start

def Chained (cs : List Change) : Prop := cs.IsChain Follows

/-- `run` is the longest chained beginning of `xs`. -/
structure LongestRun (run xs : List Change) : Prop where
  beginning : run <+: xs
  chained : Chained run
  longest : ∀ more, more <+: xs → Chained more → more <+: run

/-- `run` ends with `b`, and `xs` goes on after it with `c`, which does not follow `b`. -/
structure Breaks (xs run : List Change) (b c : Change) : Prop where
  last : run.getLast? = some b
  next : ∃ after, xs = run ++ c :: after
  gap : ¬Follows b c

namespace Breaks

theorem cons (h : Breaks xs run b c) (d : Change) : Breaks (d :: xs) (d :: run) b c where
  last := by simp [List.getLast?_cons, h.last]
  next := by simpa using h.next
  gap := h.gap

theorem not_chained (h : Breaks xs run b c) : ¬Chained xs := by
  intro hchain
  obtain ⟨after, rfl⟩ := h.next
  exact h.gap ((List.isChain_append.mp hchain).2.2 b h.last c rfl)

theorem ne (h : Breaks xs run b c) : run ≠ xs := by
  rintro rfl
  obtain ⟨after, hnext⟩ := h.next
  simp at hnext

theorem unique {b' c' : Change} (h : Breaks xs run b c) (h' : Breaks xs run b' c') :
    b = b' ∧ c = c' := by
  obtain ⟨after, hnext⟩ := h.next
  obtain ⟨after', hnext'⟩ := h'.next
  have htail : c :: after = c' :: after' := List.append_cancel_left (hnext.symm.trans hnext')
  exact ⟨Option.some.inj (h.last.symm.trans h'.last), (List.cons.inj htail).1⟩

theorem beginning (h : Breaks xs run b c) : run <+: xs := by
  obtain ⟨after, rfl⟩ := h.next
  exact List.prefix_append run (c :: after)

/-- What is chained stops at the break. -/
theorem longestRun (h : Breaks xs run b c) (hchain : Chained run) : LongestRun run xs := by
  refine ⟨h.beginning, hchain, fun more hmore hchained => ?_⟩
  rcases List.prefix_or_prefix_of_prefix hmore h.beginning with hle | hle
  · exact hle
  obtain ⟨tail, rfl⟩ := hle
  cases tail with
  | nil => simp
  | cons d tail =>
    obtain ⟨rest, hrest⟩ := hmore
    obtain ⟨after, rfl⟩ := h.next
    have hd : d = c := by simp_all
    subst hd
    exact absurd hchained (not_chained ⟨h.last, ⟨tail, rfl⟩, h.gap⟩)

end Breaks

theorem LongestRun.of_chained (h : Chained xs) : LongestRun xs xs :=
  ⟨List.prefix_refl xs, h, fun _ hmore _ => hmore⟩

theorem LongestRun.eq_of_chained (h : LongestRun run xs) (hchain : Chained xs) : run = xs :=
  h.beginning.eq_of_length_le (h.longest xs (List.prefix_refl xs) hchain).length_le

/-- The changes after `b` are kept up to the first that does not follow the one before it. -/
theorem runFrom_spec (b : Change) (cs : List Change) :
    Chained (b :: (runFrom b.stop cs).1) ∧
      (runFrom b.stop cs = (cs, none) ∨
        ∃ d c, Breaks (b :: cs) (b :: (runFrom b.stop cs).1) d c ∧
          (runFrom b.stop cs).2 = some (d.stop, c.start)) := by
  induction cs generalizing b with
  | nil => exact ⟨List.isChain_singleton b, .inl rfl⟩
  | cons c cs ih =>
    by_cases hc : c.start = b.stop
    · have hrun : runFrom b.stop (c :: cs) =
          (c :: (runFrom c.stop cs).1, (runFrom c.stop cs).2) := if_pos hc
      obtain ⟨hchain, hrest⟩ := ih c
      rw [hrun]
      refine ⟨List.isChain_cons_cons.mpr ⟨hc.symm, hchain⟩, hrest.imp (fun hall => ?_) ?_⟩
      · rw [hall]
      · rintro ⟨d, e, hbreak, hgap⟩
        exact ⟨d, e, hbreak.cons b, hgap⟩
    · have hrun : runFrom b.stop (c :: cs) = ([], some (b.stop, c.start)) := if_neg hc
      rw [hrun]
      exact ⟨List.isChain_singleton b, .inr ⟨b, c, ⟨rfl, ⟨cs, rfl⟩, Ne.symm hc⟩, rfl⟩⟩

/-- All changes of the peer are kept, or those before a break, and the break is reported. -/
theorem peerRun_spec (p : Peer) (cs : List Change) :
    Chained (peerRun p cs).changes ∧
      (peerRun p cs = ⟨cs.mergeSort startsByCounter, none⟩ ∨
        ∃ b c, Breaks (cs.mergeSort startsByCounter) (peerRun p cs).changes b c ∧
          (peerRun p cs).error = some (.corruptVersion p b.stop c.start)) := by
  unfold peerRun
  cases cs.mergeSort startsByCounter with
  | nil => exact ⟨List.isChain_nil, .inl rfl⟩
  | cons c cs =>
    have hfirst : runFrom c.start (c :: cs) = (c :: (runFrom c.stop cs).1, (runFrom c.stop cs).2) :=
      if_pos rfl
    obtain ⟨hchain, hrest⟩ := runFrom_spec c cs
    dsimp only
    rw [hfirst]
    refine ⟨hchain, hrest.imp (fun hall => ?_) ?_⟩
    · rw [hall]
      rfl
    · rintro ⟨b, d, hbreak, hgap⟩
      exact ⟨b, d, hbreak, by rw [hgap]; rfl⟩

section Sorted

variable {cs ds : List Change}

theorem longestRun_peerRun : LongestRun (peerRun p cs).changes (cs.mergeSort startsByCounter) := by
  obtain ⟨hchain, hall | ⟨b, c, hbreak, -⟩⟩ := peerRun_spec p cs
  · rw [hall] at hchain ⊢
    exact .of_chained hchain
  · exact hbreak.longestRun hchain

theorem peerRun_error_eq_none_iff :
    (peerRun p cs).error = none ↔ (peerRun p cs).changes = cs.mergeSort startsByCounter := by
  obtain ⟨-, hall | ⟨b, c, hbreak, herr⟩⟩ := peerRun_spec p cs
  · simp [hall]
  · simp [herr, hbreak.ne]

theorem peerRun_error_eq_some_iff {e : Error} :
    (peerRun p cs).error = some e ↔
      ∃ b c, Breaks (cs.mergeSort startsByCounter) (peerRun p cs).changes b c ∧
        e = .corruptVersion p b.stop c.start := by
  constructor
  · intro he
    obtain ⟨-, hall | ⟨b, c, hbreak, herr⟩⟩ := peerRun_spec p cs
    · simp [hall] at he
    · exact ⟨b, c, hbreak, Option.some.inj (he.symm.trans herr)⟩
  · rintro ⟨b, c, hbreak, rfl⟩
    obtain ⟨-, hall | ⟨b', c', hbreak', herr⟩⟩ := peerRun_spec p cs
    · exact absurd (congrArg Decoded.changes hall) hbreak.ne
    · obtain ⟨rfl, rfl⟩ := hbreak.unique hbreak'
      exact herr

theorem mem_of_mem_peerRun (h : c ∈ (peerRun p cs).changes) : c ∈ cs :=
  List.mem_mergeSort.mp (longestRun_peerRun.beginning.mem h)

theorem startsByCounter_trans (a b c : Change) (hab : startsByCounter a b = true)
    (hbc : startsByCounter b c = true) : startsByCounter a c = true := by
  simp only [startsByCounter, decide_eq_true_eq] at hab hbc ⊢
  omega

theorem startsByCounter_total (a b : Change) :
    (startsByCounter a b || startsByCounter b a) = true := by
  simp only [startsByCounter, Bool.or_eq_true, decide_eq_true_eq]
  omega

theorem sorted_mergeSort :
    (cs.mergeSort startsByCounter).Pairwise fun c d => startsByCounter c d = true :=
  List.pairwise_mergeSort startsByCounter_trans startsByCounter_total cs

end Sorted

section WellFormed

variable {first last : Nat} {cs ds : List Change}

theorem chained_of_run (h : Change.Run p first last cs) : Chained cs := by
  induction cs generalizing first with
  | nil => exact List.isChain_nil
  | cons c cs ih =>
    obtain ⟨-, -, -, hrest⟩ := h
    cases cs with
    | nil => exact List.isChain_singleton c
    | cons d cs => exact List.isChain_cons_cons.mpr ⟨hrest.2.1.symm, ih hrest⟩

/-- Chained changes of a peer make up a run. -/
theorem exists_run_of_chained (h : Chained cs) (hwf : ∀ c ∈ cs, c.peer = p ∧ c.WellFormed) :
    ∃ first last, Change.Run p first last cs := by
  induction cs with
  | nil => exact ⟨0, 0, rfl⟩
  | cons c cs ih =>
    obtain ⟨hp, hc⟩ := hwf c List.mem_cons_self
    cases cs with
    | nil => exact ⟨c.start, c.stop, hp, rfl, hc, rfl⟩
    | cons d cs =>
      obtain ⟨hfollows, htail⟩ := List.isChain_cons_cons.mp h
      obtain ⟨first, last, hrun⟩ := ih htail fun e he => hwf e (List.mem_cons_of_mem c he)
      refine ⟨c.start, last, hp, rfl, hc, ?_⟩
      rwa [show c.stop = first from hfollows.trans hrun.2.1]

/-- The changes of a run are sorted into it, whatever order they come in. -/
theorem mergeSort_of_run (h : Change.Run p first last ds) (hperm : cs.Perm ds) :
    cs.mergeSort startsByCounter = ds := by
  have hrun : ds.Pairwise fun c d => startsByCounter c d = true := by
    apply h.pairwise.imp_of_mem
    intro c d hc _ hle
    have := (h.mem hc).2.1.start_lt_stop
    simp only [startsByCounter, decide_eq_true_eq]
    omega
  apply List.Perm.eq_of_pairwise _ sorted_mergeSort hrun ((List.mergeSort_perm _ _).trans hperm)
  intro c d hc hd hcd hdc
  simp only [startsByCounter, decide_eq_true_eq] at hcd hdc
  have hc' := hperm.mem_iff.mp (List.mem_mergeSort.mp hc)
  exact h.eq_of_start hc' hd (Nat.le_antisymm hcd hdc)

theorem peerRun_of_perm (h : Change.Run p first last ds) (hperm : cs.Perm ds) :
    peerRun p cs = ⟨ds, none⟩ := by
  obtain ⟨-, hall | ⟨b, c, hbreak, -⟩⟩ := peerRun_spec p cs
  · rw [hall, mergeSort_of_run h hperm]
  · rw [mergeSort_of_run h hperm] at hbreak
    exact absurd (chained_of_run h) hbreak.not_chained

end WellFormed

end CausalReplica.Batch
