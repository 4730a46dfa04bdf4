import CausalReplica.Proofs.Id.Coalesce
import CausalReplica.Version.Vector
import Mathlib.Order.Bounds.Basic

/-!
# Version vectors as a lattice

A version vector stands for the function that gives each peer its number, zero where it has no
entry. The comparison of vectors is the pointwise order of these functions, merging is their maximum
and intersecting their minimum. Stored zeros make no difference to any of this, so the laws of a
lattice hold up to vectors that compare as equal. What one vector has over another is listed as one
span for each peer, and these spans are what a merge adds.
-/

namespace CausalReplica

/-- The operations of the span by counter. -/
def IdSpan.ids (s : IdSpan) : List OpId := (List.range' s.start s.length).map (OpId.mk s.peer)

theorem IdSpan.mem_ids {s : IdSpan} {x : OpId} : x ∈ s.ids ↔ s.contains x = true := by
  rw [contains_iff]
  simp only [ids, List.mem_map, List.mem_range'_1, length]
  constructor
  · rintro ⟨n, hn, rfl⟩
    exact ⟨rfl, hn.1, by dsimp only; omega⟩
  · rintro ⟨hp, hle, hlt⟩
    exact ⟨x.counter, by omega, OpId.ext hp.symm rfl⟩

theorem IdSpan.ascending_ids (s : IdSpan) : Ordered.Ascending s.ids := by
  have hcounters : (List.range' s.start s.length).Pairwise (· < ·) := List.pairwise_lt_range'
  refine List.pairwise_map.mpr (hcounters.imp fun hlt => ?_)
  rw [OpId.compare_eq, Std.ReflOrd.compare_self]
  exact Nat.compare_eq_lt.mpr hlt

namespace VersionVector

variable {u v w : VersionVector} {p : Peer} {x : OpId}

section Order

/-- What `w` knows is known to `v`, in the order of what is known. -/
instance : Preorder VersionVector where
  le v w := ∀ p, v.get p ≤ w.get p
  le_refl _ _ := Nat.le_refl _
  le_trans _ _ _ h h' p := Nat.le_trans (h p) (h' p)

theorem le_iff : v ≤ w ↔ ∀ p, v.get p ≤ w.get p := Iff.rfl

theorem not_le_iff : ¬ v ≤ w ↔ ∃ p, w.get p < v.get p := by
  simp only [le_iff, not_forall, Nat.not_le]

theorem includesAll_iff_le : v.includesAll w = true ↔ w ≤ v := includesAll_iff

/-- The answer of a comparison by the two questions which side is below the other. -/
theorem compare_eq_iff {o : CausalOrder} :
    v.compare w = o ↔ (o.isLe = true ↔ v ≤ w) ∧ (o.isGe = true ↔ w ≤ v) := by
  rw [← includesAll_iff_le, ← includesAll_iff_le, ← isLe_compare, ← isGe_compare,
    ← Bool.eq_iff_iff, ← Bool.eq_iff_iff]
  constructor
  · rintro rfl
    exact ⟨rfl, rfl⟩
  · intro ⟨hle, hge⟩
    exact (CausalOrder.eq_of_isLe_of_isGe hle hge).symm

/-- The comparison as one walk over the peers, which ends as soon as each side is known to have
something that the other lacks. -/
def scan (v w : VersionVector) (less greater : Bool) : List Peer → CausalOrder
  | [] => .ofFlags less greater
  | p :: ps =>
    let less := less || v.get p < w.get p
    let greater := greater || w.get p < v.get p
    if less && greater then .concurrent else v.scan w less greater ps

theorem scan_eq (v w : VersionVector) (less greater : Bool) (ps : List Peer) :
    v.scan w less greater ps = .ofFlags (less || ps.any fun p => v.get p < w.get p)
      (greater || ps.any fun p => w.get p < v.get p) := by
  induction ps generalizing less greater with
  | nil => simp [scan]
  | cons p ps ih =>
    rw [scan, List.any_cons, List.any_cons, ← Bool.or_assoc, ← Bool.or_assoc]
    split
    · next hboth =>
      obtain ⟨hless, hgreater⟩ := Bool.and_eq_true_iff.mp hboth
      rw [hless, hgreater]
      rfl
    · exact ih _ _

theorem compare_eq_scan (v w : VersionVector) :
    v.compare w = v.scan w false false (v.ends.keys ++ w.ends.keys) := by
  rw [scan_eq, Bool.false_or, Bool.false_or]
  rfl

/-- The comparison, made in one walk, has one answer for each case of the pointwise order. -/
structure ComparesPointwise (v w : VersionVector) : Prop where
  eq_scan : v.compare w = v.scan w false false (v.ends.keys ++ w.ends.keys)
  equal_iff : v.compare w = .equal ↔ ∀ p, v.get p = w.get p
  less_iff : v.compare w = .less ↔ (∀ p, v.get p ≤ w.get p) ∧ ∃ p, v.get p < w.get p
  greater_iff : v.compare w = .greater ↔ (∀ p, w.get p ≤ v.get p) ∧ ∃ p, w.get p < v.get p
  concurrent_iff : v.compare w = .concurrent ↔
    (∃ p, v.get p < w.get p) ∧ ∃ p, w.get p < v.get p
  swap_eq : w.compare v = (v.compare w).reverse
  includesAll_iff : v.includesAll w = true ↔ ∀ p, w.get p ≤ v.get p
  isGe_eq : (v.compare w).isGe = v.includesAll w
  isLe_eq : (v.compare w).isLe = w.includesAll v

theorem compare_eq_equal_iff : v.compare w = .equal ↔ ∀ p, v.get p = w.get p := by
  rw [compare_eq_iff]
  simp only [CausalOrder.isLe, CausalOrder.isGe, le_iff, Nat.le_antisymm_iff, forall_and]
  simp

theorem comparesPointwise (v w : VersionVector) : v.ComparesPointwise w where
  eq_scan := compare_eq_scan v w
  equal_iff := compare_eq_equal_iff
  less_iff := by
    rw [← not_le_iff, ← le_iff, compare_eq_iff]
    simp [CausalOrder.isLe, CausalOrder.isGe]
  greater_iff := by
    rw [← not_le_iff, ← le_iff, compare_eq_iff, and_comm]
    simp [CausalOrder.isLe, CausalOrder.isGe]
  concurrent_iff := by
    rw [← not_le_iff, ← not_le_iff, compare_eq_iff, and_comm]
    simp [CausalOrder.isLe, CausalOrder.isGe]
  swap_eq := by rw [compare_eq, compare_eq, CausalOrder.reverse_ofFlags]
  includesAll_iff := includesAll_iff
  isGe_eq := isGe_compare v w
  isLe_eq := isLe_compare v w

end Order

section Bounds

theorem isLUB_merge (v w : VersionVector) : IsLUB {v, w} (v.merge w) := by
  constructor
  · rintro u (rfl | rfl) p
    · exact get_merge .. ▸ Nat.le_max_left ..
    · exact get_merge .. ▸ Nat.le_max_right ..
  · intro u hu p
    rw [get_merge]
    exact Nat.max_le.mpr ⟨hu (.inl rfl) p, hu (.inr rfl) p⟩

theorem isGLB_intersection (v w : VersionVector) : IsGLB {v, w} (v.intersection w) := by
  constructor
  · rintro u (rfl | rfl) p
    · exact get_intersection .. ▸ Nat.min_le_left ..
    · exact get_intersection .. ▸ Nat.min_le_right ..
  · intro u hu p
    rw [get_intersection]
    exact Nat.le_min.mpr ⟨hu (.inl rfl) p, hu (.inr rfl) p⟩

/-- The laws of a lattice, for vectors that compare as equal. -/
structure LatticeLaws (u v w : VersionVector) : Prop where
  merge_comm : (u.merge v).compare (v.merge u) = .equal
  merge_assoc : ((u.merge v).merge w).compare (u.merge (v.merge w)) = .equal
  merge_self : (u.merge u).compare u = .equal
  intersection_comm : (u.intersection v).compare (v.intersection u) = .equal
  intersection_assoc :
    ((u.intersection v).intersection w).compare (u.intersection (v.intersection w)) = .equal
  intersection_self : (u.intersection u).compare u = .equal
  merge_intersection : (u.merge (u.intersection v)).compare u = .equal
  intersection_merge : (u.intersection (u.merge v)).compare u = .equal

/-- Every law holds because it holds of maximum and minimum at each peer. -/
theorem latticeLaws (u v w : VersionVector) : LatticeLaws u v w := by
  constructor <;> refine compare_eq_equal_iff.mpr fun p => ?_ <;>
    simp only [get_merge, get_intersection] <;> omega

end Bounds

section Missing

theorem missingFrom_pairwise_peer :
    (v.missingFrom w).Pairwise fun s t => Ord.compare s.peer t.peer = .lt := by
  refine List.pairwise_filterMap.mpr (v.ends.ascending.imp ?_)
  rintro ⟨p, n⟩ ⟨q, m⟩ hlt s hs t ht
  dsimp only at hs ht hlt
  split at hs
  · split at ht
    · cases hs
      cases ht
      exact hlt
    · exact nomatch ht
  · exact nomatch hs

theorem exists_mem_missingFrom : (∃ s ∈ v.missingFrom w, s.contains x = true) ↔
    v.includes x = true ∧ w.includes x = false := by
  rw [← Bool.not_eq_true, includes_iff, includes_iff, Nat.not_lt]
  constructor
  · rintro ⟨s, hs, hx⟩
    obtain ⟨hstart, _, hstop⟩ := mem_missingFrom.mp hs
    obtain ⟨hp, hle, hlt⟩ := IdSpan.contains_iff.mp hx
    rw [hp, ← hstart, ← hstop]
    exact ⟨hlt, hle⟩
  · intro ⟨hlt, hle⟩
    exact ⟨⟨x.peer, w.get x.peer, v.get x.peer⟩,
      mem_missingFrom.mpr ⟨rfl, Nat.lt_of_le_of_lt hle hlt, rfl⟩,
      IdSpan.contains_iff.mpr ⟨rfl, hle, hlt⟩⟩

theorem mem_missingIds : x ∈ (v.missingFrom w).flatMap IdSpan.ids ↔
    v.includes x = true ∧ w.includes x = false := by
  simp only [List.mem_flatMap, IdSpan.mem_ids]
  exact exists_mem_missingFrom

/-- The spans are by peer and the operations in each by counter, so none comes twice. -/
theorem ascending_missingIds (v w : VersionVector) :
    Ordered.Ascending ((v.missingFrom w).flatMap IdSpan.ids) := by
  refine List.pairwise_flatMap.mpr ⟨fun s _ => s.ascending_ids, ?_⟩
  refine missingFrom_pairwise_peer.imp fun hlt x hx y hy => ?_
  have hx := (IdSpan.contains_iff.mp (IdSpan.mem_ids.mp hx)).1
  have hy := (IdSpan.contains_iff.mp (IdSpan.mem_ids.mp hy)).1
  rw [OpId.compare_eq, hx, hy, hlt]
  rfl

/-- The vector with each span added to what is known of its peer. -/
def extendBy (v : VersionVector) (spans : List IdSpan) : VersionVector :=
  spans.foldl (fun v s => v.setEnd s.peer s.stop) v

/-- Adding what is missing is merging, entry by entry: an entry is raised if it names more than `w`
has, and the entries of other peers do not change that. -/
theorem extendBy_missingFrom (v w : VersionVector) : w.extendBy (v.missingFrom w) = w.merge v := by
  have hdistinct : v.toList.Pairwise fun a b => a.1 ≠ b.1 :=
    v.ends.ascending.imp Ordered.ne_of_lt
  suffices h : ∀ (es : List (Peer × Nat)) (u : VersionVector), (es.Pairwise fun a b => a.1 ≠ b.1) →
      (∀ e ∈ es, u.get e.1 = w.get e.1) →
      u.extendBy (es.filterMap fun e =>
          if w.get e.1 < e.2 then some ⟨e.1, w.get e.1, e.2⟩ else none) = u.raiseAll es from
    h _ w hdistinct fun _ _ => rfl
  intro es
  induction es with
  | nil => exact fun _ _ _ => rfl
  | cons e es ih =>
    intro u hpair hsame
    obtain ⟨p, n⟩ := e
    obtain ⟨hne, hpair⟩ := List.pairwise_cons.mp hpair
    have hget : u.get p = w.get p := hsame (p, n) List.mem_cons_self
    have hrest : ∀ f ∈ es, (u.raise p n).get f.1 = w.get f.1 := by
      intro f hf
      rw [get_raise, if_neg (hne f hf).symm]
      exact hsame f (List.mem_cons_of_mem _ hf)
    change _ = (u.raise p n).raiseAll es
    rw [← ih _ hpair hrest]
    rw [raise, hget, List.filterMap_cons]
    by_cases hlt : w.get p < n
    · simp only [if_pos hlt]
      rfl
    · simp only [if_neg hlt]

theorem includes_merge : (w.merge v).includes x = true ↔
    w.includes x = true ∨ ∃ s ∈ v.missingFrom w, s.contains x = true := by
  rw [exists_mem_missingFrom, ← Bool.not_eq_true, includes_iff, includes_iff, includes_iff,
    get_merge]
  omega

/-- The spans that `v` has over `w`, which `w` needs to include `v`. -/
structure ListsMissing (v w : VersionVector) : Prop where
  /-- By peer, and one for each at most. -/
  pairwise_peer : (v.missingFrom w).Pairwise fun s t => Ord.compare s.peer t.peer = .lt
  /-- By peer and counter, and each once. -/
  ascending_ids : Ordered.Ascending ((v.missingFrom w).flatMap IdSpan.ids)
  mem_ids : ∀ x, x ∈ (v.missingFrom w).flatMap IdSpan.ids ↔
    v.includes x = true ∧ w.includes x = false
  extend_eq : w.extendBy (v.missingFrom w) = w.merge v
  includes_merge : ∀ x, (w.merge v).includes x = true ↔
    w.includes x = true ∨ ∃ s ∈ v.missingFrom w, s.contains x = true

theorem listsMissing (v w : VersionVector) : v.ListsMissing w where
  pairwise_peer := missingFrom_pairwise_peer
  ascending_ids := ascending_missingIds v w
  mem_ids := fun _ => mem_missingIds
  extend_eq := extendBy_missingFrom v w
  includes_merge := fun _ => includes_merge

end Missing

/-- Version vectors, with any zeros stored, are compared by the numbers they give to the peers.
Merging makes the least vector that includes both, intersecting the greatest that both include, and
the laws of a lattice hold up to vectors that compare as equal. What one vector has over another is
listed once and by peer, and added to the other it makes their merge. -/
theorem pointwise_lattice (u v w : VersionVector) :
    u.ComparesPointwise v ∧ IsLUB {u, v} (u.merge v) ∧ IsGLB {u, v} (u.intersection v) ∧
      LatticeLaws u v w ∧ u.ListsMissing v :=
  ⟨comparesPointwise u v, isLUB_merge u v, isGLB_intersection u v, latticeLaws u v w,
    listsMissing u v⟩

end VersionVector

end CausalReplica
