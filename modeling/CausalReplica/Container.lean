import CausalReplica.Id

/-!
# Containers

A container holds the content of one structure. The application names root containers; a container
created at run time is named by the operation that created it. Roots come before all others.
-/

namespace CausalReplica

open Std (TransOrd LawfulEqOrd TransCmp LawfulEqCmp)

/-- What a container holds, in the order of the kinds. -/
inductive Kind where
  | text
  | list
  | map
  deriving DecidableEq, Repr, Inhabited

namespace Kind

def name : Kind → String
  | .text => "Text"
  | .list => "List"
  | .map => "Map"

def ofName? : String → Option Kind
  | "Text" => some .text
  | "List" => some .list
  | "Map" => some .map
  | _ => none

def rank : Kind → Nat
  | .text => 0
  | .list => 1
  | .map => 2

def ofRank? : Nat → Option Kind
  | 0 => some .text
  | 1 => some .list
  | 2 => some .map
  | _ => none

instance : Ord Kind := ⟨compareOn rank⟩

instance : TransOrd Kind := inferInstanceAs (TransCmp (compareOn rank))

instance : LawfulEqOrd Kind where
  compare_self {a} := by cases a <;> rfl
  eq_of_compare {a b} h := by cases a <;> cases b <;> first | rfl | exact nomatch h

theorem ofName?_name (k : Kind) : ofName? k.name = some k := by cases k <;> rfl

theorem ofRank?_rank (k : Kind) : ofRank? k.rank = some k := by cases k <;> rfl

end Kind

inductive ContainerId where
  /-- A container the application names. -/
  | root (name : String) (kind : Kind)
  /-- The container created by the operation `id`. -/
  | child (id : OpId) (kind : Kind)
  deriving DecidableEq, Repr, Inhabited

namespace ContainerId

def kind : ContainerId → Kind
  | .root _ kind | .child _ kind => kind

def isRoot : ContainerId → Bool
  | .root .. => true
  | .child .. => false

/-- Roots go by name, then kind; children by creating operation, then kind. -/
def order : ContainerId → ContainerId → Ordering
  | .root n k, .root m l => (compare n m).then (compare k l)
  | .root .., .child .. => .lt
  | .child .., .root .. => .gt
  | .child a k, .child b l => (compare a b).then (compare k l)

instance : Ord ContainerId := ⟨order⟩

theorem compare_root (n m : String) (k l : Kind) :
    compare (root n k) (root m l) = (compare n m).then (compare k l) := rfl

theorem compare_child (a b : OpId) (k l : Kind) :
    compare (child a k) (child b l) = (compare a b).then (compare k l) := rfl

theorem compare_swap (a b : ContainerId) : compare a b = (compare b a).swap := by
  cases a <;> cases b
  · rw [compare_root, compare_root, Ordering.swap_then, ← Std.OrientedOrd.eq_swap,
      ← Std.OrientedOrd.eq_swap]
  · rfl
  · rfl
  · rw [compare_child, compare_child, Ordering.swap_then, ← Std.OrientedOrd.eq_swap,
      ← Std.OrientedOrd.eq_swap]

theorem isLE_then_trans {α : Type u} {β : Type v} [Ord α] [Ord β] [TransOrd α] [TransOrd β]
    {a b c : α} {x y z : β} (h : ((compare a b).then (compare x y)).isLE)
    (k : ((compare b c).then (compare y z)).isLE) :
    ((compare a c).then (compare x z)).isLE :=
  have trans :
      TransCmp (compareLex (compareOn Prod.fst) (compareOn Prod.snd) : α × β → α × β → _) :=
    inferInstance
  trans.isLE_trans (a := (a, x)) (b := (b, y)) (c := (c, z)) h k

instance : TransOrd ContainerId where
  eq_swap := compare_swap _ _
  isLE_trans {a b c} hab hbc := by
    cases a <;> cases b <;> cases c
    case root.root.root => exact isLE_then_trans hab hbc
    case child.child.child => exact isLE_then_trans hab hbc
    case root.root.child => rfl
    case root.child.root => exact absurd hbc Bool.false_ne_true
    case root.child.child => rfl
    case child.root.root => exact absurd hab Bool.false_ne_true
    case child.root.child => exact absurd hab Bool.false_ne_true
    case child.child.root => exact absurd hbc Bool.false_ne_true

instance : LawfulEqOrd ContainerId where
  compare_self := Std.ReflOrd.compare_self
  eq_of_compare {a b} h := by
    cases a <;> cases b
    · rw [compare_root, Ordering.then_eq_eq] at h
      rw [LawfulEqOrd.eq_of_compare h.1, LawfulEqOrd.eq_of_compare h.2]
    · exact nomatch (h : Ordering.lt = .eq)
    · exact nomatch (h : Ordering.gt = .eq)
    · rw [compare_child, Ordering.then_eq_eq] at h
      rw [LawfulEqOrd.eq_of_compare h.1, LawfulEqOrd.eq_of_compare h.2]

/-- A root's name; for a child its counter, kind and peer, as in `3:List@7`. -/
def toText : ContainerId → String
  | .root name _ => name
  | .child id kind => Nat.repr id.counter ++ ":" ++ kind.name ++ "@" ++ id.peer.toText

end ContainerId

end CausalReplica
