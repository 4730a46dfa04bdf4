import CausalReplica.Json.Values
import CausalReplica.Proofs.Version.Lattice
import Mathlib

/-!
# Equal and the same

Version vectors that compare as equal, and frontiers that hold the same ids, are equal as values as
long as no vector stores a zero and no frontiers are out of order. Every operation keeps it so. A
document may hold a vector with zeros or frontiers in any order, and these are read as they are, so
whether equality means sameness is decided by what is read.
-/

namespace CausalReplica

variable {docs : Json → Prop}

namespace VersionVector

variable {v w : VersionVector} {p : Peer}

/-- The vectors that come from nothing, from lists of entries and from `docs` by any operations. A
map is taken over by its list of entries. -/
inductive Made (docs : Json → Prop) : VersionVector → Prop
  | empty : Made docs .empty
  | ofList (entries : List (Peer × Nat)) : Made docs (.ofList entries)
  | read {j : Json} {v : VersionVector} (hj : docs j) (h : ofJson? j = some v) : Made docs v
  | setEnd {v : VersionVector} (h : Made docs v) (p : Peer) (n : Nat) : Made docs (v.setEnd p n)
  | extendToInclude {v w : VersionVector} (h : Made docs v) (id : OpId)
      (hw : v.extendToInclude? id = some w) : Made docs w
  | merge {v w : VersionVector} (h : Made docs v) (h' : Made docs w) : Made docs (v.merge w)
  | intersection {v w : VersionVector} (h : Made docs v) (h' : Made docs w) :
      Made docs (v.intersection w)

/-- Zeros come from documents only. -/
theorem Made.pos (hdocs : ∀ j v, docs j → ofJson? j = some v → ∀ e ∈ v.toList, 0 < e.2)
    (h : Made docs v) : ∀ e ∈ v.toList, 0 < e.2 := by
  induction h with
  | empty => exact fun _ he => absurd he List.not_mem_nil
  | ofList entries => exact raiseAll_pos fun _ he => absurd he List.not_mem_nil
  | read hj h => exact hdocs _ _ hj h
  | setEnd _ p n ih => exact setEnd_pos ih
  | extendToInclude _ id hw ih =>
    obtain ⟨_, _, rfl⟩ := Option.map_eq_some_iff.mp hw
    exact raise_pos ih
  | merge _ _ ih _ => exact merge_pos ih
  | intersection => exact intersection_pos _ _

theorem eq_iff_of_pos (hv : ∀ e ∈ v.toList, 0 < e.2) (hw : ∀ e ∈ w.toList, 0 < e.2) :
    v = w ↔ v.compare w = .equal := by
  rw [compare_eq_equal_iff]
  constructor
  · rintro rfl p
    rfl
  · exact eq_of_get hv hw

/-- Beside the order, equality sees which zeros are stored. -/
theorem eq_iff : v = w ↔
    v.compare w = .equal ∧ ∀ p, (p, 0) ∈ v.toList ↔ (p, 0) ∈ w.toList := by
  rw [compare_eq_equal_iff]
  constructor
  · rintro rfl
    exact ⟨fun _ => rfl, fun _ => Iff.rfl⟩
  · intro ⟨hget, hzero⟩
    suffices hends : v.ends = w.ends by
      cases v
      exact congrArg mk hends
    have hmem : ∀ {a b : VersionVector} {p : Peer} {n : Nat}, (∀ p, a.get p = b.get p) →
        (p, n + 1) ∈ a.toList → (p, n + 1) ∈ b.toList := by
      intro a b p n hab ha
      have hb : b.get p = n + 1 := (hab p).symm.trans (get_of_mem ha)
      rw [← hb]
      exact mem_of_get_pos (hb ▸ Nat.succ_pos n)
    apply OrdMap.ext_find?
    intro p
    apply Option.ext
    intro n
    rw [← OrdMap.mem_entries_iff, ← OrdMap.mem_entries_iff]
    cases n with
    | zero => exact hzero p
    | succ n => exact ⟨hmem hget, hmem fun p => (hget p).symm⟩

/-- The vector without the zeros that it stores. -/
def withoutZeros (v : VersionVector) : VersionVector := ofList v.toList

theorem get_withoutZeros (v : VersionVector) (p : Peer) : v.withoutZeros.get p = v.get p :=
  (get_merge empty v p).trans (Nat.zero_max _)

theorem withoutZeros_pos (v : VersionVector) : ∀ e ∈ v.withoutZeros.toList, 0 < e.2 :=
  raiseAll_pos fun _ he => absurd he List.not_mem_nil

theorem withoutZeros_eq_self (h : ∀ e ∈ v.toList, 0 < e.2) : v.withoutZeros = v :=
  eq_of_get v.withoutZeros_pos h v.get_withoutZeros

/-- A vector that is read with a zero is told apart from itself without it, so equality means the
same as the comparison only if there is none. -/
theorem made_eq_iff_compare :
    (∀ v w, Made docs v → Made docs w → (v = w ↔ v.compare w = .equal)) ↔
      ∀ j v, docs j → ofJson? j = some v → ∀ e ∈ v.toList, 0 < e.2 := by
  constructor
  · intro hsame j v hj hread
    have heq : v.withoutZeros = v := (hsame _ _ (.ofList _) (.read hj hread)).mpr
      (compare_eq_equal_iff.mpr v.get_withoutZeros)
    exact heq ▸ v.withoutZeros_pos
  · exact fun hdocs v w hv hw => eq_iff_of_pos (hv.pos hdocs) (hw.pos hdocs)

end VersionVector

namespace Frontiers

variable {f g : Frontiers}

/-- The frontiers that come from ids and from `docs` by any operations. -/
inductive Made (docs : Json → Prop) : Frontiers → Prop
  | empty : Made docs .empty
  | ofId (id : OpId) : Made docs (.ofId id)
  | ofList (ids : List OpId) : Made docs (.ofList ids)
  | read {j : Json} {f : Frontiers} (hj : docs j) (h : ofJson? j = some f) : Made docs f
  | insert {f : Frontiers} (h : Made docs f) (id : OpId) : Made docs (f.insert id)
  | erase {f : Frontiers} (h : Made docs f) (id : OpId) : Made docs (f.erase id)

theorem Made.ascending
    (hdocs : ∀ j f, docs j → ofJson? j = some f → Ordered.Ascending f.ids) (h : Made docs f) :
    Ordered.Ascending f.ids := by
  induction h with
  | empty => exact .nil
  | ofId id => exact List.pairwise_singleton _ _
  | ofList ids => exact Ordered.ascending_ofList ids
  | read hj h => exact hdocs _ _ hj h
  | insert _ id ih => exact ascending_insert ih
  | erase _ id ih => exact ascending_erase ih

theorem Made.inOrder (hdocs : ∀ j f, docs j → ofJson? j = some f → Ordered.InOrder f.ids)
    (h : Made docs f) : Ordered.InOrder f.ids := by
  induction h with
  | empty => exact .nil
  | ofId id => exact List.pairwise_singleton _ _
  | ofList ids => exact (Ordered.ascending_ofList ids).inOrder
  | read hj h => exact hdocs _ _ hj h
  | insert _ id ih => exact inOrder_insert ih
  | erase f id ih => exact List.Pairwise.sublist (erase_sublist _ id) ih

theorem eq_iff_of_ascending (hf : Ordered.Ascending f.ids) (hg : Ordered.Ascending g.ids) :
    f = g ↔ ∀ x, x ∈ f.ids ↔ x ∈ g.ids := by
  constructor
  · rintro rfl x
    exact Iff.rfl
  · intro h
    cases f
    exact congrArg mk (Ordered.eq_of_mem_iff hf hg h)

theorem made_eq_iff_mem :
    (∀ f g, Made docs f → Made docs g → (f = g ↔ ∀ x, x ∈ f.ids ↔ x ∈ g.ids)) ↔
      ∀ j f, docs j → ofJson? j = some f → Ordered.Ascending f.ids := by
  constructor
  · intro hsame j f hj hread
    have heq : ofList f.ids = f :=
      (hsame _ _ (.ofList _) (.read hj hread)).mpr fun _ => mem_ofList
    exact heq ▸ Ordered.ascending_ofList f.ids
  · exact fun hdocs f g hf hg => eq_iff_of_ascending (hf.ascending hdocs) (hg.ascending hdocs)

theorem exists_search_of_contains {x : OpId} (h : f.contains x = true) :
    ∃ i, Ordered.search x f.ids = .ok i ∧ f.erase x = ⟨f.ids.eraseIdx i⟩ := by
  unfold contains at h
  cases hx : Ordered.search x f.ids with
  | error i =>
    rw [hx] at h
    exact nomatch h
  | ok i =>
    refine ⟨i, rfl, ?_⟩
    unfold erase
    rw [hx]

/-- If looking up finds every id, also after some are taken out, the ids are in order. -/
theorem inOrder_of_contains (hall : ∀ f, Made docs f → ∀ x ∈ f.ids, f.contains x = true)
    (h : Made docs f) : Ordered.InOrder f.ids := by
  induction hlen : f.ids.length generalizing f with
  | zero => exact List.length_eq_zero_iff.mp hlen ▸ .nil
  | succ n ih =>
    refine List.pairwise_iff_getElem.mpr fun i j hi hj hij => ?_
    by_contra hgt
    -- Were a pair out of order, each lookup would have to take out one of the two, since what is
    -- left is in order.
    have herased : ∀ x ∈ f.ids, ∃ k, Ordered.search x f.ids = .ok k ∧ (k = i ∨ k = j) := by
      intro x hx
      obtain ⟨k, hk, herase⟩ := exists_search_of_contains (hall f h x hx)
      refine ⟨k, hk, ?_⟩
      by_contra hother
      have hklt := (List.getElem?_eq_some_iff.mp (Ordered.getElem?_of_search hk)).1
      have hrest : Ordered.InOrder (f.ids.eraseIdx k) := by
        have := ih (h.erase x) (by rw [herase, List.length_eraseIdx, if_pos hklt, hlen]; rfl)
        rwa [herase] at this
      exact hgt (Ordered.pairwise_of_eraseIdx hrest hij hj (fun e => hother (.inl e))
        fun e => hother (.inr e))
    have hne : f.ids[i] ≠ f.ids[j] := fun heq => hgt (heq ▸ Std.ReflOrd.isLE_rfl)
    have hat : ∀ {k l : Nat} (hk : k < f.ids.length), Ordered.search f.ids[k] f.ids = .ok l →
        f.ids[l]? = some f.ids[k] := fun _ => Ordered.getElem?_of_search
    obtain ⟨k, hk, rfl | rfl⟩ := herased f.ids[i] (List.getElem_mem _)
    · obtain ⟨l, hl, rfl | rfl⟩ := herased f.ids[j] (List.getElem_mem _)
      · exact hne (Option.some.inj ((List.getElem?_eq_getElem hi).symm.trans (hat hj hl)))
      · have hlt := Std.OrientedCmp.lt_of_not_isLE hgt
        have := Ordered.search_mono (by rw [hlt]; rfl) hl hk
        omega
    · exact hne (Option.some.inj ((List.getElem?_eq_getElem hj).symm.trans (hat hi hk))).symm

theorem made_contains_iff_mem :
    (∀ f, Made docs f → ∀ x, f.contains x = true ↔ x ∈ f.ids) ↔
      ∀ j f, docs j → ofJson? j = some f → Ordered.InOrder f.ids := by
  constructor
  · intro hall j f hj hread
    exact inOrder_of_contains (fun g hg x hx => (hall g hg x).mpr hx) (.read hj hread)
  · exact fun hdocs f hf x => contains_iff_mem (hf.inOrder hdocs)

end Frontiers

/-- Equality of the vectors that can be made with the help of some documents means that they compare
as equal exactly when no vector in these documents stores a zero. In general it also means that the
same zeros are stored. Equality of frontiers means that they hold the same ids exactly when all
frontiers in the documents are ascending. Looking an id up finds whether it is one of them exactly
when they are in order, where ids may be repeated. In any order, only what is there is found. -/
theorem equality_decided_by_documents (docs : Json → Prop) :
    ((∀ v w, VersionVector.Made docs v → VersionVector.Made docs w →
        (v = w ↔ v.compare w = .equal)) ↔
      ∀ j v, docs j → VersionVector.ofJson? j = some v → ∀ e ∈ v.toList, 0 < e.2) ∧
    (∀ v w : VersionVector, v = w ↔
      v.compare w = .equal ∧ ∀ p, (p, 0) ∈ v.toList ↔ (p, 0) ∈ w.toList) ∧
    ((∀ f g, Frontiers.Made docs f → Frontiers.Made docs g →
        (f = g ↔ ∀ x, x ∈ f.ids ↔ x ∈ g.ids)) ↔
      ∀ j f, docs j → Frontiers.ofJson? j = some f → Ordered.Ascending f.ids) ∧
    ((∀ f, Frontiers.Made docs f → ∀ x, f.contains x = true ↔ x ∈ f.ids) ↔
      ∀ j f, docs j → Frontiers.ofJson? j = some f → Ordered.InOrder f.ids) ∧
    ∀ (f : Frontiers) (x : OpId), f.contains x = true → x ∈ f.ids :=
  ⟨VersionVector.made_eq_iff_compare, fun _ _ => VersionVector.eq_iff, Frontiers.made_eq_iff_mem,
    Frontiers.made_contains_iff_mem, fun _ _ => Ordered.mem_of_isOk_search⟩

/-- Two ids in descending order. -/
def descending : Frontiers :=
  ⟨[⟨⟨2⟩, 0⟩, ⟨⟨1⟩, 0⟩]⟩

theorem ofJson?_descending : Frontiers.ofJson? descending.toJson = some descending := by cbv

/-- A vector that is read with a zero for its only peer is not equal to the empty one. Two ids that
are read in descending order are not equal to the same ids in a sorted list, and the first of them
is not found. -/
theorem read_unnormalized_differs :
    (¬ ∀ v w, VersionVector.Made (fun _ => True) v → VersionVector.Made (fun _ => True) w →
      (v = w ↔ v.compare w = .equal)) ∧
    (¬ ∀ f g, Frontiers.Made (fun _ => True) f → Frontiers.Made (fun _ => True) g →
      (f = g ↔ ∀ x, x ∈ f.ids ↔ x ∈ g.ids)) ∧
    ¬ ∀ f, Frontiers.Made (fun _ => True) f → ∀ x, f.contains x = true ↔ x ∈ f.ids := by
  refine ⟨fun h => ?_, fun h => ?_, fun h => ?_⟩
  · let zero : VersionVector := ⟨⟨[(⟨1⟩, 0)], List.pairwise_singleton _ _⟩⟩
    have hread : VersionVector.ofJson? (.object [(some "1", .int 0)]) = some zero := by cbv
    exact absurd ((h zero .empty (.read trivial hread) .empty).mpr (by decide)) (by decide)
  · have hsame := (h _ _ (.read trivial ofJson?_descending) (.ofList descending.ids)).mpr
      fun _ => Frontiers.mem_ofList.symm
    exact absurd hsame (by decide)
  · have hfound := (h _ (.read trivial ofJson?_descending) ⟨⟨2⟩, 0⟩).mpr List.mem_cons_self
    exact absurd hfound (by decide)

/-- The second one is found. -/
example : descending.contains ⟨⟨1⟩, 0⟩ = true ∧ descending.insert ⟨⟨1⟩, 0⟩ = descending := by
  decide

end CausalReplica
