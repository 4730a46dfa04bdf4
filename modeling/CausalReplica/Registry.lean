import CausalReplica.Id.Reader
import CausalReplica.Ordered.List

/-!
# The registry of containers

Every container a document knows about, in order. A container is looked up by its id or by its
text: the text of a child names that child, and any other text the root of that name.
-/

namespace CausalReplica

/-- A container of the given kind, as it is handed to a caller for editing. -/
structure Handle (kind : Kind) where
  id : ContainerId
  kind_eq : id.kind = kind
  deriving DecidableEq

def Handle.root (name : String) (kind : Kind) : Handle kind := ⟨.root name kind, rfl⟩

/-- The container as one of the wanted kind. -/
def ContainerId.narrow (id : ContainerId) (wanted : Kind) : Except Error (Handle wanted) :=
  if h : id.kind = wanted then .ok ⟨id, h⟩ else .error (.invalidState (.wrongKind id wanted))

structure Registry where
  known : List ContainerId
  ascending : Ordered.Ascending known
  deriving DecidableEq

namespace Registry

def empty : Registry := ⟨[], .nil⟩

instance : Inhabited Registry := ⟨empty⟩

def register (r : Registry) (id : ContainerId) : Registry :=
  ⟨Ordered.insert id r.known, Ordered.ascending_insert r.ascending⟩

def contains (r : Registry) (id : ContainerId) : Bool := Ordered.contains id r.known

def size (r : Registry) : Nat := r.known.length

def get (r : Registry) (id : ContainerId) : Except Error ContainerId :=
  if r.contains id then .ok id else .error (.notFound (.container id.toText))

/-- The roots of this name, one for each kind it is used by. -/
def rootsNamed (r : Registry) (name : String) : List ContainerId :=
  r.known.filter fun
    | .root n _ => n = name
    | .child .. => false

def resolve (r : Registry) (text : String) : Except Error ContainerId :=
  match ContainerId.read text with
  | .ok id => r.get id
  | .error _ =>
    match r.rootsNamed text with
    | [] => .error (.notFound (.container text))
    | [id] => .ok id
    | _ :: _ :: _ => .error (.invalidState (.ambiguousRoot text))

theorem contains_iff_mem {r : Registry} {id : ContainerId} :
    r.contains id = true ↔ id ∈ r.known :=
  Ordered.contains_iff_mem r.ascending

theorem mem_register {r : Registry} {id x : ContainerId} :
    x ∈ (r.register id).known ↔ x = id ∨ x ∈ r.known :=
  Ordered.mem_insert

theorem contains_register {r : Registry} {id x : ContainerId} :
    (r.register id).contains x = true ↔ x = id ∨ r.contains x = true := by
  rw [contains_iff_mem, contains_iff_mem, mem_register]

end Registry

end CausalReplica
