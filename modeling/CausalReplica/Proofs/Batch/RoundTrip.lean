import CausalReplica.Proofs.Batch.Assembly
import Mathlib

/-!
# What comes back of written changes

Whatever changes are written, of each peer the longest chained beginning of its changes comes back,
in the order of their counters. It does not depend on the other peers. The break reported is that of
the lowest peer of which something is missing.
-/

namespace CausalReplica.Batch

variable {cs : List Change} {p : Peer}

/-- The changes of one peer sorted by their first counters. -/
def inCounterOrder (p : Peer) (cs : List Change) : List Change :=
  (ofPeer p cs).mergeSort startsByCounter

theorem longestRun_assemble :
    LongestRun (ofPeer p (assemble cs).changes) (inCounterOrder p cs) := by
  rw [ofPeer_assemble]
  exact longestRun_peerRun

theorem peerRun_complete_iff :
    (peerRun p (ofPeer p cs)).error = none ↔
      ofPeer p (assemble cs).changes = inCounterOrder p cs := by
  rw [ofPeer_assemble]
  exact peerRun_error_eq_none_iff

theorem peerRun_broken_iff {e : Error} :
    (peerRun p (ofPeer p cs)).error = some e ↔
      ∃ b c, Breaks (inCounterOrder p cs) (ofPeer p (assemble cs).changes) b c ∧
        e = .corruptVersion p b.stop c.start := by
  rw [ofPeer_assemble]
  exact peerRun_error_eq_some_iff

section Complete

theorem assemble_error_eq_none_iff :
    (assemble cs).error = none ↔ ∀ p, ofPeer p (assemble cs).changes = inCounterOrder p cs := by
  conv_lhs => rw [assemble_eq]
  rw [List.findSome?_eq_none_iff]
  constructor
  · intro h p
    by_cases hp : p ∈ peers cs
    · exact peerRun_complete_iff.mp (h p hp)
    · exact peerRun_complete_iff.mp (by rw [peerRun_of_not_mem hp])
  · exact fun h p _ => peerRun_complete_iff.mpr (h p)

theorem perm_of_complete (h : ∀ p, ofPeer p (assemble cs).changes = inCounterOrder p cs) :
    (assemble cs).changes.Perm cs := by
  rw [changes_assemble]
  refine (List.Perm.flatMap_left _ fun p _ => ?_).trans flatMap_ofPeer_perm
  rw [h p]
  exact List.mergeSort_perm _ _

theorem complete_of_perm (h : (assemble cs).changes.Perm cs) (p : Peer) :
    ofPeer p (assemble cs).changes = inCounterOrder p cs := by
  apply longestRun_assemble.beginning.eq_of_length
  rw [(ofPeer_perm h).length_eq]
  exact (List.mergeSort_perm _ _).length_eq.symm

/-- A break is reported exactly when something is missing. -/
theorem assemble_error_eq_none_iff_perm :
    (assemble cs).error = none ↔ (assemble cs).changes.Perm cs :=
  assemble_error_eq_none_iff.trans ⟨perm_of_complete, complete_of_perm⟩

end Complete

/-- The break reported is that of the lowest peer that has one. -/
theorem assemble_error_eq_some_iff {e : Error} :
    (assemble cs).error = some e ↔ ∃ p b c,
      (∀ q, compare q p = .lt → ofPeer q (assemble cs).changes = inCounterOrder q cs) ∧
        Breaks (inCounterOrder p cs) (ofPeer p (assemble cs).changes) b c ∧
        e = .corruptVersion p b.stop c.start := by
  have hasc : Ordered.Ascending (peers cs) := Ordered.ascending_ofList _
  conv_lhs => rw [assemble_eq]
  constructor
  · intro he
    obtain ⟨before, p, after, heq, herr, hbefore⟩ := List.findSome?_eq_some_iff.mp he
    obtain ⟨b, c, hbreak⟩ := peerRun_broken_iff.mp herr
    refine ⟨p, b, c, fun q hq => peerRun_complete_iff.mp ?_, hbreak⟩
    by_cases hmem : q ∈ peers cs
    · rw [heq] at hasc hmem
      rcases List.mem_append.mp hmem with hin | hin
      · exact hbefore q hin
      · exact absurd hin (Ordered.not_mem_of_lt_head (List.pairwise_append.mp hasc).2.1 hq)
    · rw [peerRun_of_not_mem hmem]
  · rintro ⟨p, b, c, hlower, hbreak⟩
    have herr := peerRun_broken_iff.mpr ⟨b, c, hbreak⟩
    have hp : p ∈ peers cs := by
      by_contra hp
      simp [peerRun_of_not_mem hp] at herr
    obtain ⟨before, after, heq⟩ := List.append_of_mem hp
    refine List.findSome?_eq_some_iff.mpr ⟨before, p, after, heq, herr, fun q hq => ?_⟩
    rw [heq] at hasc
    have hlt := (List.pairwise_append.mp hasc).2.2 q hq p List.mem_cons_self
    exact peerRun_complete_iff.mpr (hlower q hlt)

theorem changes_assemble_ofPeer :
    (assemble (ofPeer p cs)).changes = ofPeer p (assemble cs).changes := by
  have hidem : ofPeer p (ofPeer p cs) = ofPeer p cs := by simp [ofPeer, List.filter_filter]
  have hown : ofPeer p (assemble (ofPeer p cs)).changes = (assemble (ofPeer p cs)).changes := by
    refine List.filter_eq_self.mpr fun c hc => ?_
    rw [changes_assemble] at hc
    obtain ⟨q, -, hq⟩ := List.mem_flatMap.mp hc
    rw [ofPeer_assemble] at hq
    exact decide_eq_true (mem_ofPeer.mp (mem_ofPeer_of_mem_peerRun hq).1).2
  rw [← hown, ofPeer_assemble, ofPeer_assemble, hidem]

/-- Changes of any number and content are written and read back as follows. The changes of a peer
come back in the order of their counters, up to the first that does not start where the one before
it stopped; the peers come in ascending order. No break is reported if and only if all changes come
back, and else the break of the lowest peer that lost a change. What comes back of a peer is what
comes back of its changes alone, and changes without a break at any peer come back whole. -/
theorem round_trip (hfit : ∀ c ∈ cs, c.Fits) (hsize : ∀ c ∈ cs, c.Sized)
    (hlen : LengthFits cs.length) : ∃ d, decode (encode cs) = .ok d ∧
      (d.changes = (peers cs).flatMap fun p => ofPeer p d.changes) ∧
      (∀ p, LongestRun (ofPeer p d.changes) (inCounterOrder p cs)) ∧
      (d.error = none ↔ d.changes.Perm cs) ∧
      (∀ e, d.error = some e ↔ ∃ p b c,
        (∀ q, compare q p = .lt → ofPeer q d.changes = inCounterOrder q cs) ∧
          Breaks (inCounterOrder p cs) (ofPeer p d.changes) b c ∧
          e = .corruptVersion p b.stop c.start) ∧
      (∀ p, ∃ error, decode (encode (ofPeer p cs)) = .ok ⟨ofPeer p d.changes, error⟩) ∧
      ((∀ p, Chained (inCounterOrder p cs)) → d.error = none ∧ d.changes.Perm cs) := by
  refine ⟨assemble cs, decode_encode_of_sized hfit hlen hsize, changes_assemble,
    fun p => longestRun_assemble, assemble_error_eq_none_iff_perm,
    fun e => assemble_error_eq_some_iff, fun p => ⟨(assemble (ofPeer p cs)).error, ?_⟩, fun h => ?_⟩
  · have hlen' : LengthFits (ofPeer p cs).length :=
      Nat.lt_of_le_of_lt (List.length_filter_le _ cs) hlen
    rw [← changes_assemble_ofPeer]
    exact decode_encode_of_sized (fun c hc => hfit c (mem_ofPeer.mp hc).1) hlen'
      fun c hc => hsize c (mem_ofPeer.mp hc).1
  · have hall : ∀ p, ofPeer p (assemble cs).changes = inCounterOrder p cs :=
      fun p => longestRun_assemble.eq_of_chained (h p)
    exact ⟨assemble_error_eq_none_iff.mpr hall, perm_of_complete hall⟩

/-- A reference to a child of peer 2 and a number, at the counters 0 and 1 of peer 1. -/
def pairInserted : Change where
  id := ⟨⟨1⟩, 0⟩
  lamport := 1
  deps := ⟨[⟨⟨2⟩, 0⟩]⟩
  timestamp := -5
  ops := [⟨0, .root "list" .list, .insertValues 0 [.container (.child ⟨⟨2⟩, 0⟩ .map), .int (-300)]⟩]

/-- A key of that child, at counter 3 of peer 1. -/
def keySet : Change where
  id := ⟨⟨1⟩, 3⟩
  lamport := 4
  deps := ⟨[]⟩
  timestamp := 0
  ops := [⟨3, .child ⟨⟨2⟩, 0⟩ .map, .setKey "k" (some (.text "v"))⟩]

def mapCreated : Change where
  id := ⟨⟨2⟩, 0⟩
  lamport := 0
  deps := ⟨[]⟩
  timestamp := 0
  ops := [⟨0, .root "map" .map, .createChild .map⟩]

/-- Counter 2 of peer 1 is missing. -/
def gapped : List Change := [keySet, mapCreated, pairInserted]

/-- The change behind the gap is lost, and neither the one before it nor that of the other peer. -/
theorem round_trip_gap :
    ((∀ c ∈ gapped, c.Fits) ∧ (∀ c ∈ gapped, c.Sized) ∧ LengthFits gapped.length) ∧
      decode (encode gapped) = .ok ⟨[pairInserted, mapCreated], some (.corruptVersion ⟨1⟩ 2 3)⟩ ∧
      LongestRun [pairInserted] (inCounterOrder ⟨1⟩ gapped) ∧
      ∃ error, decode (encode [mapCreated]) = .ok ⟨[mapCreated], error⟩ := by
  have hfit : ∀ c ∈ gapped, c.Fits := by decide
  have hsize : ∀ c ∈ gapped, c.Sized := by decide
  have hlen : LengthFits gapped.length := by decide
  have hread : decode (encode gapped) =
      .ok ⟨[pairInserted, mapCreated], some (.corruptVersion ⟨1⟩ 2 3)⟩ := by cbv
  obtain ⟨d, hd, -, hrun, -, -, hown, -⟩ := round_trip hfit hsize hlen
  cases hread.symm.trans hd
  exact ⟨⟨hfit, hsize, hlen⟩, hread, hrun ⟨1⟩, hown ⟨2⟩⟩

end CausalReplica.Batch
