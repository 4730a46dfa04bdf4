import CausalReplica.Change.Basic
import CausalReplica.Ordered.Map
import CausalReplica.Version.Vector

/-!
# Pending changes

A change whose dependencies are not all known waits under the first operation it misses. When
operations arrive, the changes filed under them are taken out again.
-/

namespace CausalReplica

structure PendingChanges where
  byMissing : OrdMap OpId (List Change)
  deriving DecidableEq, Inhabited

namespace PendingChanges

def empty : PendingChanges := ⟨.empty⟩

/-- Every waiting change, by the operation it waits for. -/
def toList (b : PendingChanges) : List Change := b.byMissing.values.flatten

def size (b : PendingChanges) : Nat := b.toList.length

/-- Files `c` under `missing`, unless a change with the same id and end is already there. -/
def add (b : PendingChanges) (missing : OpId) (c : Change) : PendingChanges :=
  let waiting := b.byMissing.findD missing []
  if waiting.any fun w => w.id = c.id && w.stop = c.stop then b
  else ⟨b.byMissing.insert missing (waiting ++ [c])⟩

/-- Takes out the changes that wait for an operation with the property `p`. -/
def release (b : PendingChanges) (p : OpId → Bool) : List Change × PendingChanges :=
  ((b.byMissing.filterKeys p).values.flatten, ⟨b.byMissing.filterKeys fun id => !p id⟩)

def spans (b : PendingChanges) : List IdSpan := IdSpan.coalesce (b.toList.map Change.span)

theorem release_size (b : PendingChanges) (p : OpId → Bool) :
    (b.release p).1.length + (b.release p).2.size = b.size := by
  simp only [release, size, toList, OrdMap.values, OrdMap.filterKeys]
  induction b.byMissing.entries with
  | nil => rfl
  | cons e es ih =>
    cases h : p e.1 <;> simp [h] at ih ⊢ <;> omega

theorem size_add_le (b : PendingChanges) (missing : OpId) (c : Change) :
    (b.add missing c).size ≤ b.size + 1 := by
  unfold add
  dsimp only
  split
  · exact Nat.le_succ _
  · exact Nat.le_of_eq OrdMap.flatten_values_insert_perm.length_eq

end PendingChanges

end CausalReplica
