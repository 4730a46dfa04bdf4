import CausalReplica.Id
import CausalReplica.Ordered.Search

/-!
# Frontiers

The heads of a history: operations that are no ancestor of another known one. Every operation here
keeps ascending ids ascending, so that equal sets of heads are equal lists. Ids are searched for by
halving, which goes wrong where frontiers are given in another order.
-/

namespace CausalReplica

structure Frontiers where
  ids : List OpId := []
  deriving DecidableEq, Repr, Inhabited

namespace Frontiers

open Ordered (Ascending InOrder)

def empty : Frontiers := ⟨[]⟩

def ofId (id : OpId) : Frontiers := ⟨[id]⟩

def ofList (ids : List OpId) : Frontiers := ⟨Ordered.ofList ids⟩

def insert (f : Frontiers) (id : OpId) : Frontiers :=
  match Ordered.search id f.ids with
  | .ok _ => f
  | .error place => ⟨f.ids.take place ++ id :: f.ids.drop place⟩

def erase (f : Frontiers) (id : OpId) : Frontiers :=
  match Ordered.search id f.ids with
  | .ok place => ⟨f.ids.eraseIdx place⟩
  | .error _ => f

def contains (f : Frontiers) (id : OpId) : Bool := (Ordered.search id f.ids).isOk

def size (f : Frontiers) : Nat := f.ids.length

def isEmpty (f : Frontiers) : Bool := f.ids.isEmpty

variable {f : Frontiers} {id x : OpId}

theorem mem_ofList {ids : List OpId} : x ∈ (ofList ids).ids ↔ x ∈ ids :=
  Ordered.mem_ofList

theorem mem_insert : x ∈ (f.insert id).ids ↔ x = id ∨ x ∈ f.ids := by
  unfold insert
  split
  · next place h =>
    have hid : id ∈ f.ids := List.mem_of_getElem? (Ordered.getElem?_of_search h)
    exact ⟨.inr, fun hx => hx.elim (fun heq => heq ▸ hid) fun hx => hx⟩
  · next place h =>
    rw [List.mem_append, List.mem_cons, or_left_comm, ← List.mem_append, List.take_append_drop]

theorem ascending_insert (h : Ascending f.ids) : Ascending (f.insert id).ids := by
  unfold insert
  split
  · exact h
  · next place hplace =>
    obtain ⟨hbefore, hafter⟩ := h.inOrder.of_search_error hplace
    exact Ordered.pairwise_between h hbefore hafter

theorem inOrder_insert (h : InOrder f.ids) : InOrder (f.insert id).ids := by
  unfold insert
  split
  · exact h
  · next place hplace =>
    obtain ⟨hbefore, hafter⟩ := h.of_search_error hplace
    refine Ordered.pairwise_between h (fun y hy => ?_) fun y hy => ?_
    · rw [hbefore y hy]
      rfl
    · rw [hafter y hy]
      rfl

theorem erase_sublist (f : Frontiers) (id : OpId) : (f.erase id).ids.Sublist f.ids := by
  unfold erase
  split
  · exact List.eraseIdx_sublist ..
  · exact List.Sublist.refl _

theorem ascending_erase (h : Ascending f.ids) : Ascending (f.erase id).ids :=
  List.Pairwise.sublist (erase_sublist f id) h

theorem contains_iff_mem (h : InOrder f.ids) : f.contains id = true ↔ id ∈ f.ids :=
  h.isOk_search_iff

theorem mem_erase (h : Ascending f.ids) : x ∈ (f.erase id).ids ↔ x ≠ id ∧ x ∈ f.ids := by
  have hfound := h.inOrder.isOk_search_iff (x := id)
  unfold erase
  split
  · next place hplace =>
    have hat := Ordered.getElem?_of_search hplace
    rw [List.mem_eraseIdx_iff_getElem?]
    constructor
    · rintro ⟨i, hne, hi⟩
      refine ⟨?_, List.mem_of_getElem? hi⟩
      rintro rfl
      have hnodup : f.ids.Nodup := List.Pairwise.imp Ordered.ne_of_lt h
      have hlt := (List.getElem?_eq_some_iff.mp hi).1
      exact hne ((List.getElem?_inj hlt hnodup).mp (hi.trans hat.symm))
    · rintro ⟨hne, hx⟩
      obtain ⟨i, hi⟩ := List.mem_iff_getElem?.mp hx
      refine ⟨i, ?_, hi⟩
      rintro rfl
      exact hne (Option.some.inj (hi.symm.trans hat))
  · next place hplace =>
    rw [hplace] at hfound
    refine ⟨fun hx => ⟨?_, hx⟩, And.right⟩
    rintro rfl
    exact nomatch hfound.mpr hx

end Frontiers

end CausalReplica
