/-!
# Counting in words

Counters, Lamport times, positions and lengths are natural numbers that travel in 32-bit words.
A sum that leaves the word range is refused (`checked`), held at the top (`clamp`) or reduced
(`wrap`); each use says which.

Some functions form a sum without looking at the range, and stop where it is left. These come in two
forms: one whose name ends in a question mark and that has no result there, and one that goes on
with the reduced sum. Where the first has a result, the second has the same.
-/

namespace CausalReplica.Word

/-- The largest word. -/
def top : Nat := UInt32.size - 1

/-- The number, if it fits a word. -/
def checked (n : Nat) : Option Nat := if n ≤ top then some n else none

/-- The number, or the largest word above it. -/
def clamp (n : Nat) : Nat := min n top

/-- The number modulo the word range. -/
def wrap (n : Nat) : Nat := n % UInt32.size

theorem checked_eq_some_iff {n m : Nat} : checked n = some m ↔ n ≤ top ∧ m = n := by
  grind [checked]

theorem checked_eq_none_iff {n : Nat} : checked n = none ↔ top < n := by
  grind [checked]

theorem clamp_of_le {n : Nat} (h : n ≤ top) : clamp n = n := Nat.min_eq_left h

theorem wrap_of_le {n : Nat} (h : n ≤ top) : wrap n = n :=
  Nat.mod_eq_of_lt (Nat.lt_of_le_pred (by decide) h)

theorem wrap_le_top (n : Nat) : wrap n ≤ top :=
  Nat.le_pred_of_lt (Nat.mod_lt n (by decide))

end CausalReplica.Word
