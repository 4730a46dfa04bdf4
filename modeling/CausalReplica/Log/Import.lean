import CausalReplica.Log.Basic

/-!
# Importing foreign changes

Changes arrive in any order, repeatedly, and with their dependencies missing. Each is put into the
log, found to be known, buffered under what it misses, or refused. A change that enters the log
releases the buffered changes that wait for it, and the pass goes on until nothing is left to try.
-/

namespace CausalReplica

structure ImportStatus where
  /-- The operations that entered the log. -/
  applied : List IdSpan
  /-- The operations that wait in the buffer after the call. -/
  pending : List IdSpan
  deriving DecidableEq, Repr, Inhabited

def ImportStatus.isNoop (s : ImportStatus) : Bool := s.applied.isEmpty

namespace ChangeLog

inductive Offer where
  /-- The change, or the part of it that was unknown, is in the log now. -/
  | added (log : ChangeLog) (span : IdSpan)
  | known
  | blocked (missing : OpId) (c : Change)
  | refused (error : Error)

/-- Puts `c`, which starts where its peer's history ends, into the log if it is valid there. -/
def offerNext (log : ChangeLog) (c : Change) : Offer :=
  match c.checkedLamportEnd with
  | none => .refused (.invalidState (.lamportOverflow c.id))
  | some _ =>
    match c.deps.ids.find? fun id => !log.contains id with
    | some missing => .blocked missing c
    | none =>
      let expected := LamportClock.assign (c.parents.filterMap log.lamportOf?)
      if c.lamport < expected then .refused (.invalidLamport c.id c.lamport expected)
      else .added (log.insert c) c.span

/-- Offers a change to the log. Of a change known in part, only the rest is considered. -/
def offer (log : ChangeLog) (c : Change) : Offer :=
  let knownEnd := log.nextCounter c.peer
  if c.stop ≤ knownEnd then .known
  else if knownEnd < c.start then .blocked ⟨c.peer, c.start - 1⟩ c
  else log.offerNext (c.sliceFrom knownEnd)

def offer? (log : ChangeLog) (c : Change) : Option Offer :=
  let knownEnd := log.nextCounter c.peer
  if c.stop ≤ knownEnd then some .known
  else if knownEnd < c.start then some (.blocked ⟨c.peer, c.start - 1⟩ c)
  else (c.sliceFrom? knownEnd).map log.offerNext

theorem offerNext_pending {log next : ChangeLog} {c : Change} {span : IdSpan}
    (h : log.offerNext c = .added next span) : next.pending = log.pending := by
  unfold offerNext at h
  split at h
  · exact nomatch h
  · split at h
    · exact nomatch h
    · dsimp only at h
      split at h
      · exact nomatch h
      · cases h; rfl

theorem offer_pending {log next : ChangeLog} {c : Change} {span : IdSpan}
    (h : log.offer c = .added next span) : next.pending = log.pending := by
  unfold offer at h
  dsimp only at h
  split at h
  · exact nomatch h
  · split at h
    · exact nomatch h
    · exact offerNext_pending h

theorem offer?_pending {log next : ChangeLog} {c : Change} {span : IdSpan}
    (h : log.offer? c = some (.added next span)) : next.pending = log.pending := by
  unfold offer? at h
  dsimp only at h
  split at h
  · exact nomatch h
  · split at h
    · exact nomatch h
    · obtain ⟨rest, -, hrest⟩ := Option.map_eq_some_iff.mp h
      exact offerNext_pending hrest

/-- What a pass over a queue of changes comes to. -/
structure Pass where
  log : ChangeLog
  applied : List IdSpan
  firstError : Option Error

namespace Pass

def apply (pass : Pass) (span : IdSpan) : Pass := { pass with applied := span :: pass.applied }

/-- An earlier error takes the place of a later one. -/
def refuse (pass : Pass) (error : Error) : Pass := { pass with firstError := some error }

end Pass

/-- Takes the buffered changes that wait for an operation with the property `p`. -/
def release (log : ChangeLog) (p : OpId → Bool) : List Change × ChangeLog :=
  let (changes, pending) := log.pending.release p
  (changes, { log with pending })

section Settling

variable {log next : ChangeLog} {c d : Change} {rest : List Change} {missing : OpId}

/-- What is left to do before a change is offered and after: waiting changes count, and filing one
takes it out of the queue. -/
def Smaller (left all : ChangeLog × List Change) : Prop :=
  Prod.Lex (· < ·) (· < ·) (left.2.length + left.1.pending.size, left.2.length)
    (all.2.length + all.1.pending.size, all.2.length)

theorem smaller_rest : Smaller (log, rest) (log, c :: rest) := by
  refine Prod.Lex.left _ _ ?_
  simp only [List.length_cons]
  omega

theorem smaller_freed {p : OpId → Bool} (kept : next.pending = log.pending) :
    Smaller ((next.release p).2, rest ++ (next.release p).1) (log, c :: rest) := by
  have hsize := PendingChanges.release_size next.pending p
  rw [kept] at hsize
  refine Prod.Lex.left _ _ ?_
  simp only [release, List.length_append, List.length_cons, kept]
  omega

theorem smaller_filed :
    Smaller ({ log with pending := log.pending.add missing d }, rest) (log, c :: rest) := by
  have hsize := PendingChanges.size_add_le log.pending missing d
  have hle : rest.length + (log.pending.add missing d).size ≤
      (c :: rest).length + log.pending.size := by
    simp only [List.length_cons]
    omega
  rcases Nat.lt_or_eq_of_le hle with hlt | heq
  · exact Prod.Lex.left _ _ hlt
  · unfold Smaller
    dsimp only
    rw [heq]
    exact Prod.Lex.right _ (Nat.lt_succ_self _)

end Settling

/-- Offers the queued changes one by one, and after them those they release. -/
def settle (log : ChangeLog) (queue : List Change) : Pass :=
  match queue with
  | [] => ⟨log, [], none⟩
  | c :: rest =>
    match _ : log.offer c with
    | .added next span =>
      let freed := next.release fun id => id.peer = span.peer && id.counter < span.stop
      (freed.2.settle (rest ++ freed.1)).apply span
    | .known => log.settle rest
    | .blocked missing c => ({ log with pending := log.pending.add missing c }).settle rest
    | .refused error => (log.settle rest).refuse error
termination_by (queue.length + log.pending.size, queue.length)
decreasing_by
  · exact smaller_freed (offer_pending ‹_›)
  · exact smaller_rest
  · exact smaller_filed
  · exact smaller_rest

def settle? (log : ChangeLog) (queue : List Change) : Option Pass :=
  match queue with
  | [] => some ⟨log, [], none⟩
  | c :: rest =>
    match _ : log.offer? c with
    | none => none
    | some (.added next span) =>
      let freed := next.release fun id => id.peer = span.peer && id.counter < span.stop
      (freed.2.settle? (rest ++ freed.1)).map (·.apply span)
    | some .known => log.settle? rest
    | some (.blocked missing c) =>
      ({ log with pending := log.pending.add missing c }).settle? rest
    | some (.refused error) => (log.settle? rest).map (·.refuse error)
termination_by (queue.length + log.pending.size, queue.length)
decreasing_by
  · exact smaller_freed (offer?_pending ‹_›)
  · exact smaller_rest
  · exact smaller_filed
  · exact smaller_rest

/-- What an import returns after its pass. -/
def Pass.result (pass : Pass) : ChangeLog × ImportStatus × Option Error :=
  (pass.log, ⟨IdSpan.coalesce pass.applied, pass.log.pending.spans⟩, pass.firstError)

/-- Offers the changes in causal order, along with the buffered ones that miss nothing any more.
A refused change is skipped, and the first refusal is returned beside the status of all else. -/
def importChanges (log : ChangeLog) (changes : List Change) :
    ChangeLog × ImportStatus × Option Error :=
  let (released, log) := log.release log.vv.includes
  (log.settle (changes.mergeSort Change.causalKeyLe ++ released)).result

def importChanges? (log : ChangeLog) (changes : List Change) :
    Option (ChangeLog × ImportStatus × Option Error) :=
  let (released, log) := log.release log.vv.includes
  (log.settle? (changes.mergeSort Change.causalKeyLe ++ released)).map Pass.result

def pendingSpans (log : ChangeLog) : List IdSpan := log.pending.spans

end ChangeLog

end CausalReplica
