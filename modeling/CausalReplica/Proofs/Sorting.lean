import CausalReplica.Log.Basic

/-!
# Sorting by a key

Lists of the same elements, among which the key tells any two apart, are the same when sorted.
-/

namespace CausalReplica

open Std (TransCmp OrientedCmp)

section Comparison

variable {α : Type u} (cmp : α → α → Ordering) [TransCmp cmp]

theorem isLE_trans (a b c : α) (hab : (cmp a b).isLE) (hbc : (cmp b c).isLE) : (cmp a c).isLE :=
  TransCmp.isLE_trans hab hbc

theorem isLE_total (a b : α) : ((cmp a b).isLE || (cmp b a).isLE) = true := by
  have hswap : cmp b a = (cmp a b).swap := OrientedCmp.eq_swap
  rw [hswap]
  cases cmp a b <;> rfl

theorem mergeSort_eq_of_perm {xs ys : List α} (hperm : xs.Perm ys)
    (hkey : ∀ a ∈ xs, ∀ b ∈ xs, cmp a b = .eq → a = b) :
    xs.mergeSort (fun a b => (cmp a b).isLE) = ys.mergeSort fun a b => (cmp a b).isLE := by
  have hsorted : (xs.mergeSort fun a b => (cmp a b).isLE).Perm
      (ys.mergeSort fun a b => (cmp a b).isLE) :=
    (List.mergeSort_perm xs _).trans (hperm.trans (List.mergeSort_perm ys _).symm)
  have hpairwise := List.pairwise_mergeSort (isLE_trans cmp) (isLE_total cmp)
  refine hsorted.eq_of_pairwise ?_ (hpairwise xs) (hpairwise ys)
  intro a b ha hb hab hba
  have hb' := hperm.mem_iff.mpr (List.mem_mergeSort.mp hb)
  exact hkey a (List.mem_mergeSort.mp ha) b hb' (OrientedCmp.isLE_antisymm hab hba)

end Comparison

/-- A list can be cut in one way only into a part without and a part with a property. -/
theorem append_inj_of_separated {α : Type u} {q : α → Bool} {xs xs' ys ys' : List α}
    (h : xs ++ ys = xs' ++ ys') (hxs : ∀ a ∈ xs, ¬ q a = true) (hys : ∀ a ∈ ys, q a = true)
    (hxs' : ∀ a ∈ xs', ¬ q a = true) (hys' : ∀ a ∈ ys', q a = true) : xs = xs' ∧ ys = ys' := by
  have hfilter := congrArg (List.filter q) h
  rw [List.filter_append, List.filter_append, List.filter_eq_nil_iff.mpr hxs,
    List.filter_eq_nil_iff.mpr hxs', List.filter_eq_self.mpr hys, List.filter_eq_self.mpr hys',
    List.nil_append, List.nil_append] at hfilter
  subst hfilter
  exact ⟨List.append_cancel_right h, rfl⟩

section Stable

variable {α : Type u} {le : α → α → Bool}
  (htrans : ∀ a b c, le a b = true → le b c = true → le a c = true)
  (htotal : ∀ a b, (le a b || le b a) = true)

include htrans htotal

/-- The first element of a list comes, when sorted, between what is below it and all the rest. -/
theorem exists_split_mergeSort_cons (x : α) (xs : List α) :
    ∃ low high, (x :: xs).mergeSort le = low ++ x :: high ∧ xs.mergeSort le = low ++ high ∧
      (∀ a ∈ low, ¬ le x a = true) ∧ ∀ a ∈ high, le x a = true := by
  obtain ⟨low, high, hsort, hrest, hlow⟩ := List.mergeSort_cons htrans htotal x xs
  have hsorted := List.pairwise_mergeSort htrans htotal (x :: xs)
  rw [hsort] at hsorted
  obtain ⟨_, htail, _⟩ := List.pairwise_append.mp hsorted
  refine ⟨low, high, hsort, hrest, fun a ha => ?_, (List.pairwise_cons.mp htail).1⟩
  simpa using hlow a ha

/-- A sort leaves the same order among the elements with a property as a sort of just these. -/
theorem filter_mergeSort (p : α → Bool) (xs : List α) :
    (xs.mergeSort le).filter p = (xs.filter p).mergeSort le := by
  induction xs with
  | nil => simp
  | cons x xs ih =>
    obtain ⟨low, high, hsort, hrest, hlow, hhigh⟩ :=
      exists_split_mergeSort_cons htrans htotal x xs
    rw [hrest, List.filter_append] at ih
    rw [hsort, List.filter_append]
    by_cases hx : p x = true
    · obtain ⟨low', high', hsort', hrest', hlow', hhigh'⟩ :=
        exists_split_mergeSort_cons htrans htotal x (xs.filter p)
      rw [hrest'] at ih
      obtain ⟨hl, hh⟩ := append_inj_of_separated ih (fun a ha => hlow a (List.mem_filter.mp ha).1)
        (fun a ha => hhigh a (List.mem_filter.mp ha).1) hlow' hhigh'
      rw [List.filter_cons_of_pos hx, List.filter_cons_of_pos hx, hsort', hl, hh]
    · rw [List.filter_cons_of_neg hx, List.filter_cons_of_neg hx, ih]

end Stable

namespace Change

theorem causalKeyLe_trans (a b c : Change) (hab : a.causalKeyLe b = true)
    (hbc : b.causalKeyLe c = true) : a.causalKeyLe c = true :=
  isLE_trans (compareLex (compareOn lamport) (compareLex (compareOn peer) (compareOn start)))
    a b c hab hbc

theorem causalKeyLe_total (a b : Change) : (a.causalKeyLe b || b.causalKeyLe a) = true :=
  isLE_total (compareLex (compareOn lamport) (compareLex (compareOn peer) (compareOn start))) a b

/-- Changes named by their first operations are sorted alike, however they come. -/
theorem mergeSort_eq_of_perm {xs ys : List Change} (hperm : xs.Perm ys)
    (hkey : ∀ c ∈ xs, ∀ d ∈ xs, c.id = d.id → c = d) :
    xs.mergeSort causalKeyLe = ys.mergeSort causalKeyLe := by
  apply CausalReplica.mergeSort_eq_of_perm
    (compareLex (compareOn lamport) (compareLex (compareOn peer) (compareOn start))) hperm
  intro c hc d hd h
  obtain ⟨_, h⟩ := Ordering.then_eq_eq.mp h
  obtain ⟨hp, hstart⟩ := Ordering.then_eq_eq.mp h
  have hpeer : c.id.peer = d.id.peer := Std.LawfulEqOrd.eq_of_compare hp
  have hcounter : c.id.counter = d.id.counter := Std.LawfulEqOrd.eq_of_compare hstart
  exact hkey c hc d hd (OpId.ext hpeer hcounter)

/-- Sorted changes do not go back in Lamport time, so what is earlier comes before. -/
theorem mem_before_of_mergeSort {xs before after : List Change} {c d : Change}
    (hsplit : xs.mergeSort causalKeyLe = before ++ c :: after)
    (hd : d ∈ xs.mergeSort causalKeyLe) (hlt : d.lamport < c.lamport) : d ∈ before := by
  have hsorted := List.pairwise_mergeSort causalKeyLe_trans causalKeyLe_total xs
  rw [hsplit] at hsorted hd
  obtain ⟨_, htail, _⟩ := List.pairwise_append.mp hsorted
  rcases List.mem_append.mp hd with hd | hd
  · exact hd
  · rcases List.mem_cons.mp hd with rfl | hd
    · exact absurd hlt (Nat.lt_irrefl _)
    · have hkey := (List.pairwise_cons.mp htail).1 d hd
      have hle : (compare c.lamport d.lamport).isLE := Ordering.isLE_left_of_isLE_then hkey
      exact absurd (Nat.isLE_compare.mp hle) (Nat.not_le_of_lt hlt)

end Change

end CausalReplica
