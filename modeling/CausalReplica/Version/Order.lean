/-!
# Causal order

How two summaries of a history stand to each other.
-/

namespace CausalReplica

inductive CausalOrder where
  | equal
  /-- The left side causally precedes the right side. -/
  | less
  | greater
  /-- Neither side includes the other. -/
  | concurrent
  deriving DecidableEq, Repr

namespace CausalOrder

/-- The order of two sides, given whether something is only on the right and only on the left. -/
def ofFlags : Bool → Bool → CausalOrder
  | false, false => .equal
  | true, false => .less
  | false, true => .greater
  | true, true => .concurrent

def reverse : CausalOrder → CausalOrder
  | .less => .greater
  | .greater => .less
  | order => order

def toOrdering? : CausalOrder → Option Ordering
  | .equal => some .eq
  | .less => some .lt
  | .greater => some .gt
  | .concurrent => none

def isLt (o : CausalOrder) : Bool := o = .less

def isLe (o : CausalOrder) : Bool := o = .less || o = .equal

def isGt (o : CausalOrder) : Bool := o = .greater

def isGe (o : CausalOrder) : Bool := o = .greater || o = .equal

theorem reverse_ofFlags (l g : Bool) : (ofFlags l g).reverse = ofFlags g l := by
  cases l <;> cases g <;> rfl

@[simp] theorem isLe_ofFlags (l g : Bool) : (ofFlags l g).isLe = !g := by
  cases l <;> cases g <;> rfl

@[simp] theorem isGe_ofFlags (l g : Bool) : (ofFlags l g).isGe = !l := by
  cases l <;> cases g <;> rfl

@[simp] theorem isLe_reverse (o : CausalOrder) : o.reverse.isLe = o.isGe := by cases o <;> rfl

@[simp] theorem isGe_reverse (o : CausalOrder) : o.reverse.isGe = o.isLe := by cases o <;> rfl

theorem eq_of_isLe_of_isGe {o o' : CausalOrder} (hle : o.isLe = o'.isLe) (hge : o.isGe = o'.isGe) :
    o = o' := by
  revert hle hge
  cases o <;> cases o' <;> decide

end CausalOrder

end CausalReplica
