import CausalReplica.Id
import CausalReplica.Ordered.Map
import CausalReplica.Version.Order
import CausalReplica.Word

/-!
# Version vectors

A version vector says for each peer how many of its operations are known: `n` stands for the
counters below `n`. A peer without an entry stands at zero. No operation stores a zero, but a
vector may be given with zeros, and these count for equality and size.
-/

namespace CausalReplica

structure VersionVector where
  ends : OrdMap Peer Nat
  deriving DecidableEq, Inhabited

namespace VersionVector

def empty : VersionVector := ⟨.empty⟩

/-- How many operations of `p` are known. -/
def get (v : VersionVector) (p : Peer) : Nat := v.ends.findD p 0

def toList (v : VersionVector) : List (Peer × Nat) := v.ends.entries

def size (v : VersionVector) : Nat := v.ends.size

def isEmpty (v : VersionVector) : Bool := v.ends.isEmpty

def includes (v : VersionVector) (id : OpId) : Bool := id.counter < v.get id.peer

/-- Every operation known to `w` is known to `v`. -/
def includesAll (v w : VersionVector) : Bool := w.toList.all fun (p, n) => n ≤ v.get p

/-- Makes `n` the number of known operations of `p`. -/
def setEnd (v : VersionVector) (p : Peer) (n : Nat) : VersionVector :=
  match n with
  | 0 => ⟨v.ends.erase p⟩
  | n + 1 => ⟨v.ends.insert p (n + 1)⟩

/-- Makes `n` the number of known operations of `p` if that adds to them. -/
def raise (v : VersionVector) (p : Peer) (n : Nat) : VersionVector :=
  if v.get p < n then v.setEnd p n else v

/-- Raises the entry of the peer so that `id` is included. Nothing lies past the last counter of
the word range, so that counter cannot be included. -/
def extendToInclude? (v : VersionVector) (id : OpId) : Option VersionVector :=
  (Word.checked (id.counter + 1)).map (v.raise id.peer)

def raiseAll (v : VersionVector) (entries : List (Peer × Nat)) : VersionVector :=
  entries.foldl (fun v (p, n) => v.raise p n) v

/-- For each peer the largest of its entries. -/
def ofList (entries : List (Peer × Nat)) : VersionVector := empty.raiseAll entries

def merge (v w : VersionVector) : VersionVector := v.raiseAll w.toList

def intersection (v w : VersionVector) : VersionVector :=
  ofList (v.toList.map fun (p, n) => (p, min n (w.get p)))

/-- The operations known to `v` and not to `w`, one span for each peer, by peer. -/
def missingFrom (v w : VersionVector) : List IdSpan :=
  v.toList.filterMap fun (p, n) => if w.get p < n then some ⟨p, w.get p, n⟩ else none

def compare (v w : VersionVector) : CausalOrder :=
  let peers := v.ends.keys ++ w.ends.keys
  .ofFlags (peers.any fun p => v.get p < w.get p) (peers.any fun p => w.get p < v.get p)

theorem get_of_mem {v : VersionVector} {p : Peer} {n : Nat} (h : (p, n) ∈ v.toList) :
    v.get p = n := by
  simp [get, OrdMap.findD, OrdMap.mem_entries_iff.mp h]

theorem mem_of_get_pos {v : VersionVector} {p : Peer} (h : 0 < v.get p) :
    (p, v.get p) ∈ v.toList := by
  refine OrdMap.mem_entries_iff.mpr ?_
  unfold get OrdMap.findD at *
  cases hf : v.ends.find? p with
  | none => simp [hf] at h
  | some n => rfl

theorem get_setEnd (v : VersionVector) (p q : Peer) (n : Nat) :
    (v.setEnd p n).get q = if q = p then n else v.get q := by
  unfold setEnd get OrdMap.findD
  split
  · split
    · next h => subst h; simp [OrdMap.find?_erase_self]
    · next h => simp [OrdMap.find?_erase_of_ne h]
  · split
    · next h => subst h; simp [OrdMap.find?_insert_self]
    · next h => simp [OrdMap.find?_insert_of_ne h]

theorem get_raise (v : VersionVector) (p q : Peer) (n : Nat) :
    (v.raise p n).get q = if q = p then max (v.get q) n else v.get q := by
  unfold raise
  split
  · rw [get_setEnd]
    grind
  · grind

theorem eq_of_get {v w : VersionVector} (hv : ∀ e ∈ v.toList, 0 < e.2)
    (hw : ∀ e ∈ w.toList, 0 < e.2) (h : ∀ p, v.get p = w.get p) : v = w := by
  have hmem : ∀ {u : VersionVector}, (∀ e ∈ u.toList, 0 < e.2) →
      ∀ p n, u.ends.find? p = some n ↔ 0 < n ∧ u.get p = n := by
    intro u hu p n
    rw [← OrdMap.mem_entries_iff]
    constructor
    · intro he
      exact ⟨hu _ he, get_of_mem he⟩
    · intro ⟨hpos, hget⟩
      subst hget
      exact mem_of_get_pos hpos
  suffices hends : v.ends = w.ends by
    cases v
    exact congrArg mk hends
  apply OrdMap.ext_find?
  intro p
  apply Option.ext
  intro n
  rw [hmem hv, hmem hw, h]

theorem includes_iff {v : VersionVector} {id : OpId} :
    v.includes id = true ↔ id.counter < v.get id.peer := by
  simp [includes]

theorem not_includes_empty {id : OpId} : ¬ empty.includes id = true :=
  fun h => Nat.not_lt_zero _ (includes_iff.mp h)

theorem get_le_iff {v w : VersionVector} :
    (∀ p, v.get p ≤ w.get p) ↔ ∀ x, v.includes x = true → w.includes x = true := by
  constructor
  · intro h x hx
    exact includes_iff.mpr (Nat.lt_of_lt_of_le (includes_iff.mp hx) (h x.peer))
  · intro h p
    apply Nat.le_of_not_lt
    intro hlt
    exact Nat.lt_irrefl _ (includes_iff.mp (h ⟨p, w.get p⟩ (includes_iff.mpr hlt)))

theorem includesAll_iff {v w : VersionVector} :
    v.includesAll w = true ↔ ∀ p, w.get p ≤ v.get p := by
  simp only [includesAll, List.all_eq_true, decide_eq_true_eq]
  constructor
  · intro h p
    by_cases hp : 0 < w.get p
    · exact h _ (mem_of_get_pos hp)
    · omega
  · rintro h ⟨p, n⟩ hm
    simpa [get_of_mem hm] using h p

theorem compare_eq (v w : VersionVector) :
    v.compare w = .ofFlags (!v.includesAll w) (!w.includesAll v) := by
  have hflag : ∀ a b : VersionVector, ∀ peers : List Peer, (∀ p ∈ b.ends.keys, p ∈ peers) →
      (peers.any fun p => a.get p < b.get p) = !a.includesAll b := by
    intro a b peers hpeers
    rw [Bool.eq_iff_iff, Bool.not_eq_true', ← Bool.not_eq_true, includesAll_iff, List.any_eq_true]
    simp only [decide_eq_true_eq]
    constructor
    · rintro ⟨p, _, hlt⟩ hle
      exact Nat.not_le_of_lt hlt (hle p)
    · intro hno
      obtain ⟨p, hp⟩ := Classical.not_forall.mp hno
      have hlt : a.get p < b.get p := Nat.lt_of_not_le hp
      have hmem := mem_of_get_pos (Nat.zero_lt_of_lt hlt)
      exact ⟨p, hpeers p (List.mem_map.mpr ⟨_, hmem, rfl⟩), hlt⟩
  unfold compare
  dsimp only
  rw [hflag v w _ fun _ => List.mem_append_right _, hflag w v _ fun _ => List.mem_append_left _]

@[simp] theorem isLe_compare (v w : VersionVector) : (v.compare w).isLe = w.includesAll v := by
  simp [compare_eq]

@[simp] theorem isGe_compare (v w : VersionVector) : (v.compare w).isGe = v.includesAll w := by
  simp [compare_eq]

theorem get_raiseAll_le_iff {v : VersionVector} {entries : List (Peer × Nat)} {p : Peer} {n : Nat} :
    (v.raiseAll entries).get p ≤ n ↔ v.get p ≤ n ∧ ∀ m, (p, m) ∈ entries → m ≤ n := by
  unfold raiseAll
  induction entries generalizing v with
  | nil => simp
  | cons e es ih =>
    obtain ⟨q, k⟩ := e
    simp only [List.foldl_cons, ih, get_raise, List.mem_cons, Prod.mk.injEq]
    grind

theorem get_merge (v w : VersionVector) (p : Peer) :
    (v.merge w).get p = max (v.get p) (w.get p) := by
  refine Nat.le_antisymm ?_ ?_
  · refine get_raiseAll_le_iff.mpr ⟨Nat.le_max_left .., fun m hm => ?_⟩
    rw [get_of_mem hm]
    exact Nat.le_max_right ..
  · obtain ⟨hv, hw⟩ := get_raiseAll_le_iff.mp (Nat.le_refl ((v.merge w).get p))
    refine Nat.max_le.mpr ⟨hv, ?_⟩
    by_cases hp : 0 < w.get p
    · exact hw _ (mem_of_get_pos hp)
    · omega

theorem setEnd_pos {v : VersionVector} {p : Peer} {n : Nat} (h : ∀ e ∈ v.toList, 0 < e.2) :
    ∀ e ∈ (v.setEnd p n).toList, 0 < e.2 := by
  intro e he
  cases n with
  | zero => exact h e ((OrdMap.drop_sublist v.ends.entries).subset he)
  | succ n =>
    rcases OrdMap.mem_put he with rfl | he
    · exact Nat.succ_pos n
    · exact h e he

theorem raise_pos {v : VersionVector} {p : Peer} {n : Nat} (h : ∀ e ∈ v.toList, 0 < e.2) :
    ∀ e ∈ (v.raise p n).toList, 0 < e.2 := by
  unfold raise
  split
  · exact setEnd_pos h
  · exact h

theorem raiseAll_pos {v : VersionVector} {entries : List (Peer × Nat)}
    (h : ∀ e ∈ v.toList, 0 < e.2) : ∀ e ∈ (v.raiseAll entries).toList, 0 < e.2 := by
  unfold raiseAll
  induction entries generalizing v with
  | nil => exact h
  | cons e entries ih => exact ih (raise_pos h)

theorem merge_pos {v w : VersionVector} (h : ∀ e ∈ v.toList, 0 < e.2) :
    ∀ e ∈ (v.merge w).toList, 0 < e.2 := raiseAll_pos h

theorem intersection_pos (v w : VersionVector) : ∀ e ∈ (v.intersection w).toList, 0 < e.2 :=
  raiseAll_pos fun _ he => absurd he List.not_mem_nil

theorem get_intersection (v w : VersionVector) (p : Peer) :
    (v.intersection w).get p = min (v.get p) (w.get p) := by
  refine Nat.le_antisymm ?_ ?_
  · refine get_raiseAll_le_iff.mpr ⟨Nat.zero_le _, fun m hm => ?_⟩
    obtain ⟨⟨q, n⟩, hq, he⟩ := List.mem_map.mp hm
    cases he
    exact Nat.le_of_eq (congrArg (min · (w.get p)) (get_of_mem hq).symm)
  · by_cases hp : 0 < v.get p
    · refine (get_raiseAll_le_iff.mp (Nat.le_refl ((v.intersection w).get p))).2 _ ?_
      exact List.mem_map.mpr ⟨_, mem_of_get_pos hp, rfl⟩
    · omega

theorem includes_intersection {v w : VersionVector} {x : OpId} :
    (v.intersection w).includes x = true ↔ v.includes x = true ∧ w.includes x = true := by
  rw [includes_iff, includes_iff, includes_iff, get_intersection]
  exact Nat.lt_min

theorem mem_missingFrom {v w : VersionVector} {s : IdSpan} :
    s ∈ v.missingFrom w ↔ s.start = w.get s.peer ∧ s.start < s.stop ∧ s.stop = v.get s.peer := by
  simp only [missingFrom, List.mem_filterMap]
  constructor
  · rintro ⟨⟨p, n⟩, hm, he⟩
    split at he
    · cases he
      exact ⟨rfl, by assumption, (get_of_mem hm).symm⟩
    · exact nomatch he
  · rintro ⟨hs, hlt, ht⟩
    refine ⟨(s.peer, v.get s.peer), mem_of_get_pos (by omega), ?_⟩
    cases s
    simp_all

end VersionVector

end CausalReplica
