import CausalReplica.Log.Basic

/-!
# Causal histories

The history of some operations holds them and everything they depend on, directly or not. It is
closed under each peer's own order, so a version vector describes it. Heads are compared by their
histories.

The invariants of a log are checked with them: each peer's changes are consecutive from counter
zero, every parent is known and earlier in Lamport time, and version vector and frontiers describe
the changes. The first violation is reported, peer by peer.
-/

namespace CausalReplica

namespace ChangeLog

/-- How many operations of the log `v` does not cover. -/
def uncovered (log : ChangeLog) (v : VersionVector) : Nat :=
  log.vv.toList.foldr (fun (p, n) total => n - v.get p + total) 0

theorem uncovered_setEnd_lt {log : ChangeLog} {v : VersionVector} {id : OpId}
    (unknown : ¬ id.counter < v.get id.peer) (known : log.contains id = true) :
    log.uncovered (v.setEnd id.peer (id.counter + 1)) < log.uncovered v := by
  have hlt : id.counter < log.vv.get id.peer := by
    simpa [contains, VersionVector.includes] using known
  have hmem := VersionVector.mem_of_get_pos (v := log.vv) (p := id.peer) (by omega)
  unfold uncovered
  generalize log.vv.get id.peer = n at hlt hmem
  generalize log.vv.toList = entries at hmem
  have hle : ∀ xs : List (Peer × Nat),
      xs.foldr (fun (p, n) total => n - (v.setEnd id.peer (id.counter + 1)).get p + total) 0 ≤
        xs.foldr (fun (p, n) total => n - v.get p + total) 0 := by
    intro xs
    induction xs with
    | nil => exact Nat.le_refl 0
    | cons x xs ih =>
      simp only [List.foldr_cons, VersionVector.get_setEnd] at ih ⊢
      split
      · next h => rw [h]; omega
      · omega
  induction entries with
  | nil => exact absurd hmem List.not_mem_nil
  | cons x xs ih =>
    rcases List.mem_cons.mp hmem with rfl | hmem
    · have := hle xs
      simp only [List.foldr_cons, VersionVector.get_setEnd] at this ⊢
      simp only [ite_true]
      omega
    · have := ih hmem
      have hx := hle [x]
      simp only [List.foldr_cons, List.foldr_nil, Nat.add_zero] at this hx ⊢
      omega

/-- Extends `v`, whose members' dependencies are covered by `v` and the stack together, until the
stack is empty. The top of the stack comes first. -/
def closureFrom (log : ChangeLog) (v : VersionVector) (stack : List OpId) :
    Except Error VersionVector :=
  match stack with
  | [] => .ok v
  | id :: rest =>
    if _ : id.counter < v.get id.peer then log.closureFrom v rest
    else if _ : log.contains id = true then
      let passed := log.changesIn ⟨id.peer, v.get id.peer, id.counter + 1⟩
      log.closureFrom (v.setEnd id.peer (id.counter + 1))
        ((passed.flatMap (·.deps.ids)).reverse ++ rest)
    else .error (.notFound (.op id))
termination_by (log.uncovered v, stack.length)
decreasing_by
  · exact Prod.Lex.right _ (Nat.lt_succ_self _)
  · exact Prod.Lex.left _ _ (uncovered_setEnd_lt ‹_› ‹_›)

/-- The version vector of the history of `roots`. -/
def closure (log : ChangeLog) (roots : List OpId) : Except Error VersionVector :=
  log.closureFrom .empty roots.reverse

def frontiersToVector (log : ChangeLog) (f : Frontiers) : Except Error VersionVector :=
  log.closure f.ids

/-- The order of the histories of two sets of heads. -/
def compareFrontiers (log : ChangeLog) (f g : Frontiers) : Except Error CausalOrder :=
  if f = g then .ok .equal
  else do
    let v ← log.frontiersToVector f
    let w ← log.frontiersToVector g
    return v.compare w

/-- The order of the log's own history and that of `other`, which may name operations the log does
not hold. An unknown head still implies every operation of its peer that the log holds. When what
is implied covers the log, `other` is ahead; otherwise the unknown part could go either way. -/
def compareWithFrontiers (log : ChangeLog) (other : Frontiers) : Except Error CausalOrder :=
  if other = log.frontiers then .ok .equal
  else
    let (known, unseen) := other.ids.partition log.contains
    if unseen.isEmpty then (log.closure known).map log.vv.compare
    else
      let implied := unseen.filterMap fun id =>
        match log.vv.get id.peer with
        | 0 => none
        | n + 1 => some ⟨id.peer, min id.counter n⟩
      (log.closure (known ++ implied)).map fun v =>
        if v.includesAll log.vv then .less else .concurrent

/-- The parents of every listed operation. -/
def strictParents (log : ChangeLog) : List OpId → Except Error (List OpId)
  | [] => .ok []
  | id :: ids => do
    let c ← log.get id
    let rest ← log.strictParents ids
    return c.deps.ids ++ id.prev.toList ++ rest

/-- Of the listed operations, those that are no ancestor of another. -/
def headsAmong (log : ChangeLog) (ids : List OpId) : Except Error Frontiers := do
  let ancestors ← log.closure (← log.strictParents ids)
  return .ofList (ids.filter fun id => !ancestors.includes id)

/-- The first entry that names an operation the log does not hold. -/
def firstUnknown (log : ChangeLog) (v : VersionVector) : Option (Peer × Nat) :=
  v.toList.find? fun (p, n) => log.vv.get p < n

/-- The counter before `n`, which has none before zero and wraps there. -/
def lastCounter (n : Nat) : Nat := if n = 0 then Word.top else n - 1

def lastCounter? (n : Nat) : Option Nat := if n = 0 then none else some (n - 1)

/-- The last operation of each peer. -/
def lastIds (v : VersionVector) : List OpId := v.toList.map fun (p, n) => ⟨p, lastCounter n⟩

def lastIds? (v : VersionVector) : Option (List OpId) :=
  v.toList.mapM fun (p, n) => (lastCounter? n).map (OpId.mk p)

/-- The heads of the history that `v` describes. -/
def vectorToFrontiers (log : ChangeLog) (v : VersionVector) : Except Error Frontiers :=
  match log.firstUnknown v with
  | some (p, n) => .error (.notFound (.version ⟨p, n - 1⟩))
  | none => log.headsAmong (lastIds v)

def vectorToFrontiers? (log : ChangeLog) (v : VersionVector) : Option (Except Error Frontiers) :=
  match log.firstUnknown v with
  | some (p, n) => some (.error (.notFound (.version ⟨p, n - 1⟩)))
  | none => (lastIds? v).map log.headsAmong

/-- The heads of the history that two sets of heads share. -/
def commonAncestor (log : ChangeLog) (f g : Frontiers) : Except Error Frontiers := do
  let v ← log.frontiersToVector f
  let w ← log.frontiersToVector g
  log.vectorToFrontiers (v.intersection w)

/-- Checks one peer's changes from the counter `expected` on; returns where they end. -/
def validateRun (log : ChangeLog) (p : Peer) (expected : Nat) : List Change → Except Error Nat
  | [] => .ok expected
  | c :: cs =>
    if c.start ≠ expected then .error (.corruptVersion p expected c.start)
    else
      match c.parents.find? fun id => !log.contains id with
      | some missing => .error (.danglingDependency missing)
      | none =>
        let earliest := LamportClock.assign (c.parents.filterMap log.lamportOf?)
        if c.lamport < earliest then .error (.invalidLamport c.id c.lamport earliest)
        else log.validateRun p c.stop cs

def validatePeers (log : ChangeLog) : List (Peer × List Change) → Except Error Unit
  | [] => .ok ()
  | (p, cs) :: rest => do
    let stop ← log.validateRun p 0 cs
    if log.vv.get p = stop then log.validatePeers rest
    else throw (.invalidState (.vectorDisagrees p))

def validate (log : ChangeLog) : Except Error Unit := do
  log.validatePeers log.changes.entries
  if log.vv.size ≠ log.changes.size then throw (.invalidState .vectorListsUnknownPeers)
  if (← log.vectorToFrontiers log.vv) ≠ log.frontiers then
    throw (.invalidState .frontiersAreNotHeads)

end ChangeLog

end CausalReplica
