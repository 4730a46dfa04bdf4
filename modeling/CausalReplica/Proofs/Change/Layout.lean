import CausalReplica.Proofs.Change.Slice
import CausalReplica.Proofs.Outcome
import Mathlib.Algebra.Ring.Nat

/-!
# Laying out gives consecutive operations

Laying out succeeds exactly when every operation has atoms and the counters suffice, and then the
operations are consecutive, in the order given.
-/

namespace CausalReplica.Op

def item (op : Op) : ContainerId × Content := (op.container, op.content)

theorem layOut_cons_ok {counter : Nat} {container : ContainerId} {content : Content}
    {rest : List (ContainerId × Content)} {ops : List Op} {stop : Nat}
    (h : layOut counter ((container, content) :: rest) = .ok (ops, stop)) :
    0 < content.atoms ∧ counter + content.atoms ≤ Word.top ∧
      ∃ tail, layOut (counter + content.atoms) rest = .ok (tail, stop) ∧
        ops = ⟨counter, container, content⟩ :: tail := by
  unfold layOut at h
  cases ha : content.checkedAtoms with
  | none =>
    rw [ha] at h
    exact nomatch h
  | some atoms =>
    obtain ⟨_, rfl⟩ := Word.checked_eq_some_iff.mp ha
    rw [ha] at h
    split at h
    · exact nomatch h
    · exact nomatch h
    · next hpos heq =>
      cases heq
      cases hn : Word.checked (counter + content.atoms) with
      | none =>
        rw [hn] at h
        exact nomatch h
      | some next =>
        obtain ⟨hfit, rfl⟩ := Word.checked_eq_some_iff.mp hn
        rw [hn] at h
        obtain ⟨laid, hrest, hlaid⟩ := Outcome.of_bind_ok h
        cases hlaid
        exact ⟨Nat.pos_of_ne_zero hpos, hfit, laid.1, hrest, rfl⟩

theorem layOut_ok {counter stop : Nat} {items : List (ContainerId × Content)} {ops : List Op}
    (h : layOut counter items = .ok (ops, stop)) (hfit : counter ≤ Word.top) :
    Consecutive counter ops ∧ counter + totalAtoms ops = stop ∧ stop ≤ Word.top ∧
      ops.map item = items := by
  induction items generalizing counter ops with
  | nil =>
    cases h
    exact ⟨trivial, rfl, hfit, rfl⟩
  | cons first items ih =>
    obtain ⟨container, content⟩ := first
    obtain ⟨hpos, hnext, tail, htail, rfl⟩ := layOut_cons_ok h
    obtain ⟨hcons, hstop, htop, hitems⟩ := ih htail hnext
    refine ⟨⟨rfl, hpos, hcons⟩, ?_, htop, ?_⟩
    · rw [totalAtoms_cons, ← hstop, Nat.add_assoc]
    · rw [List.map_cons, hitems]
      rfl

section Success

variable {counter : Nat} {container : ContainerId} {content : Content}
  {items rest : List (ContainerId × Content)}

theorem layOut_cons (hpos : 0 < content.atoms) (hfit : counter + content.atoms ≤ Word.top) :
    layOut counter ((container, content) :: rest) =
      (layOut (counter + content.atoms) rest).map fun laid =>
        (⟨counter, container, content⟩ :: laid.1, laid.2) := by
  have hatoms : content.checkedAtoms = some content.atoms :=
    Word.checked_eq_some_iff.mpr ⟨by omega, rfl⟩
  have hnext : Word.checked (counter + content.atoms) = some (counter + content.atoms) :=
    Word.checked_eq_some_iff.mpr ⟨hfit, rfl⟩
  rw [layOut, hatoms]
  split
  · next heq => exact nomatch heq
  · next heq =>
    have := Option.some.inj heq
    omega
  · next heq =>
    rw [← Option.some.inj heq, hnext]
    rfl

/-- Consecutive operations are the layout of what they consist of. -/
theorem layOut_map_item {ops : List Op} (h : Consecutive counter ops)
    (hfit : counter + totalAtoms ops ≤ Word.top) :
    layOut counter (ops.map item) = .ok (ops, counter + totalAtoms ops) := by
  induction ops generalizing counter with
  | nil => rfl
  | cons op ops ih =>
    obtain ⟨rfl, hpos, hrest⟩ := h
    rw [totalAtoms_cons, ← Nat.add_assoc] at hfit ⊢
    rw [List.map_cons, item, layOut_cons hpos (by omega), ih hrest hfit]
    rfl

/-- The number of counters that the operations take. -/
def extent (items : List (ContainerId × Content)) : Nat := (items.map fun item => item.2.atoms).sum

@[simp] theorem extent_nil : extent [] = 0 := rfl

@[simp] theorem extent_cons (item : ContainerId × Content) (items : List (ContainerId × Content)) :
    extent (item :: items) = item.2.atoms + extent items := by simp [extent]

@[simp] theorem extent_append (items rest : List (ContainerId × Content)) :
    extent (items ++ rest) = extent items + extent rest := by simp [extent]

theorem exists_layOut (hpos : ∀ item ∈ items, 0 < item.2.atoms)
    (hfit : counter + extent items ≤ Word.top) :
    ∃ ops, layOut counter items = .ok (ops, counter + extent items) := by
  induction items generalizing counter with
  | nil => exact ⟨[], rfl⟩
  | cons first items ih =>
    obtain ⟨container, content⟩ := first
    obtain ⟨hfirst, hrest⟩ := List.forall_mem_cons.mp hpos
    rw [extent_cons, ← Nat.add_assoc] at hfit ⊢
    obtain ⟨ops, hops⟩ := ih hrest hfit
    refine ⟨⟨counter, container, content⟩ :: ops, ?_⟩
    rw [layOut_cons hfirst (Nat.le_trans (Nat.le_add_right _ _) hfit), hops]
    rfl

/-- Only operations with atoms are laid out, and they take as many counters as they have atoms. -/
theorem extent_of_layOut {ops : List Op} {stop : Nat} (h : layOut counter items = .ok (ops, stop)) :
    (∀ item ∈ items, 0 < item.2.atoms) ∧ stop = counter + extent items := by
  induction items generalizing counter ops with
  | nil =>
    cases h
    exact ⟨fun _ hitem => absurd hitem List.not_mem_nil, rfl⟩
  | cons first items ih =>
    obtain ⟨hpos, _, tail, htail, _⟩ := layOut_cons_ok h
    obtain ⟨hrest, hstop⟩ := ih htail
    refine ⟨List.forall_mem_cons.mpr ⟨hpos, hrest⟩, ?_⟩
    rw [hstop, extent_cons, Nat.add_assoc]

end Success

section Place

variable {counter : Nat} {items rest : List (ContainerId × Content)}

/-- The operations that these items make, one after the other from `counter` on. -/
def place (counter : Nat) : List (ContainerId × Content) → List Op
  | [] => []
  | item :: items => ⟨counter, item.1, item.2⟩ :: place (counter + item.2.atoms) items

@[simp] theorem place_nil : place counter [] = [] := rfl

@[simp] theorem place_cons (item : ContainerId × Content) :
    place counter (item :: items) =
      ⟨counter, item.1, item.2⟩ :: place (counter + item.2.atoms) items := rfl

theorem place_append : place counter (items ++ rest) =
    place counter items ++ place (counter + extent items) rest := by
  induction items generalizing counter with
  | nil => rfl
  | cons first items ih => simp [ih, Nat.add_assoc]

theorem totalAtoms_place : totalAtoms (place counter items) = extent items := by
  induction items generalizing counter with
  | nil => rfl
  | cons first items ih => rw [place_cons, totalAtoms_cons, ih, extent_cons]

/-- Whenever laying out succeeds, it gives the operations their places. -/
theorem eq_place_of_layOut {ops : List Op} {stop : Nat}
    (h : layOut counter items = .ok (ops, stop)) : ops = place counter items := by
  induction items generalizing counter ops with
  | nil =>
    cases h
    rfl
  | cons first items ih =>
    obtain ⟨_, _, tail, htail, rfl⟩ := layOut_cons_ok h
    rw [place_cons, ← ih htail]

end Place

end CausalReplica.Op
