import CausalReplica.Change.Basic

/-!
# Well-formed changes and their slices

The operations of a well-formed change fill a run of counters, and counters and Lamport times stay
in the word range. Every slice of such a change is one again: it keeps the end and the Lamport
times, and its operations fill the counters that are left.
-/

namespace CausalReplica

namespace Op

/-- The operations take consecutive counters from `counter` on, each at least one. -/
def Consecutive : Nat → List Op → Prop
  | _, [] => True
  | counter, op :: ops =>
    op.counter = counter ∧ 0 < op.content.atoms ∧ Consecutive (counter + op.content.atoms) ops

instance decidableConsecutive :
    (counter : Nat) → (ops : List Op) → Decidable (Consecutive counter ops)
  | _, [] => isTrue trivial
  | counter, op :: ops =>
    have := decidableConsecutive (counter + op.content.atoms) ops
    inferInstanceAs (Decidable (_ ∧ _ ∧ _))

def totalAtoms : List Op → Nat
  | [] => 0
  | op :: ops => op.content.atoms + totalAtoms ops

theorem totalAtoms_cons (op : Op) (ops : List Op) :
    totalAtoms (op :: ops) = op.content.atoms + totalAtoms ops := rfl

theorem stop_eq_min {op : Op} : op.stop = min (op.counter + op.content.atoms) Word.top := by
  unfold stop atoms Word.clamp
  omega

theorem stop_eq {op : Op} (h : op.counter + op.content.atoms ≤ Word.top) :
    op.stop = op.counter + op.content.atoms :=
  stop_eq_min.trans (Nat.min_eq_left h)

theorem stop_suffixFrom {op : Op} {k : Nat} (hle : op.counter ≤ k) (hlt : k < op.stop) :
    (op.suffixFrom k).stop = op.stop := by
  rw [stop_eq_min] at hlt
  have hatoms : (op.suffixFrom k).content.atoms = op.content.atoms - (k - op.counter) :=
    Content.atoms_suffix (by omega)
  have hcounter : (op.suffixFrom k).counter = k := rfl
  rw [stop_eq_min, stop_eq_min, hatoms, hcounter]
  omega

/-- The operations take up consecutive counters from `counter` on, if any. -/
def Contiguous : Nat → List Op → Prop
  | _, [] => True
  | counter, op :: ops => op.counter = counter ∧ Contiguous (counter + op.content.atoms) ops

instance decidableContiguous :
    (counter : Nat) → (ops : List Op) → Decidable (Contiguous counter ops)
  | _, [] => isTrue trivial
  | counter, op :: ops =>
    have := decidableContiguous (counter + op.content.atoms) ops
    inferInstanceAs (Decidable (_ ∧ _))

theorem Consecutive.contiguous {counter : Nat} {ops : List Op} (h : Consecutive counter ops) :
    Contiguous counter ops := by
  induction ops generalizing counter with
  | nil => trivial
  | cons op ops ih => exact ⟨h.1, ih h.2.2⟩

/-- The end of contiguous operations is where their counters say, or the top of the word range. -/
theorem Contiguous.getLast?_stop {counter : Nat} {ops : List Op} (h : Contiguous counter ops)
    (hne : ops ≠ []) :
    ops.getLast?.map Op.stop = some (min (counter + totalAtoms ops) Word.top) := by
  induction ops generalizing counter with
  | nil => exact absurd rfl hne
  | cons op ops ih =>
    obtain ⟨rfl, hrest⟩ := h
    cases ops with
    | nil =>
      rw [List.getLast?_singleton, Option.map_some, stop_eq_min]
      rfl
    | cons next ops =>
      rw [List.getLast?_cons_cons, ih hrest (List.cons_ne_nil _ _), totalAtoms_cons op,
        Nat.add_assoc]

theorem totalAtoms_pos {counter : Nat} {ops : List Op} (h : Consecutive counter ops)
    (hne : ops ≠ []) : 0 < totalAtoms ops := by
  cases ops with
  | nil => exact absurd rfl hne
  | cons op ops =>
    have := h.2.1
    rw [totalAtoms_cons]
    omega

/-- The operations that reach past `counter`, the first of them cut there. -/
def sliceOps (counter : Nat) (ops : List Op) : List Op :=
  (ops.filter fun op => counter < op.stop).map fun op =>
    if op.counter < counter then op.suffixFrom counter else op

theorem sliceOps_cons_of_le {counter : Nat} {op : Op} {ops : List Op} (h : op.stop ≤ counter) :
    sliceOps counter (op :: ops) = sliceOps counter ops := by
  unfold sliceOps
  rw [List.filter_cons_of_neg (by simp only [decide_eq_true_eq]; omega)]

theorem sliceOps_cons_of_lt {counter : Nat} {op : Op} {ops : List Op} (h : counter < op.stop) :
    sliceOps counter (op :: ops) =
      (if op.counter < counter then op.suffixFrom counter else op) :: sliceOps counter ops := by
  unfold sliceOps
  rw [List.filter_cons_of_pos (by simpa using h), List.map_cons]

/-- A slice ends with the last operation, whole or cut. -/
theorem getLast?_sliceOps {counter : Nat} {op : Op} {ops : List Op} (h : ops.getLast? = some op)
    (hlt : counter < op.stop) : (sliceOps counter ops).getLast?.map Op.stop = some op.stop := by
  obtain ⟨before, rfl⟩ := List.getLast?_eq_some_iff.mp h
  have hlast :
      sliceOps counter [op] = [if op.counter < counter then op.suffixFrom counter else op] :=
    sliceOps_cons_of_lt hlt
  have happend : sliceOps counter (before ++ [op]) =
      sliceOps counter before ++ sliceOps counter [op] := by
    unfold sliceOps
    rw [List.filter_append, List.map_append]
  rw [happend, hlast, List.getLast?_concat, Option.map_some]
  split
  · next hcut => rw [stop_suffixFrom (Nat.le_of_lt hcut) hlt]
  · rfl

theorem sliceOps_of_le {counter first : Nat} {ops : List Op} (h : Consecutive first ops)
    (hfit : first + totalAtoms ops ≤ Word.top) (hle : counter ≤ first) :
    sliceOps counter ops = ops := by
  induction ops generalizing first with
  | nil => rfl
  | cons op ops ih =>
    obtain ⟨hc, hpos, hrest⟩ := h
    rw [totalAtoms_cons] at hfit
    have hstop : op.stop = op.counter + op.content.atoms := stop_eq (by omega)
    rw [sliceOps_cons_of_lt (by omega), if_neg (by omega), ih hrest (by omega) (by omega)]

/-- Slicing keeps the run of counters from the cut on. -/
theorem consecutive_sliceOps {counter first : Nat} {ops : List Op} (h : Consecutive first ops)
    (hfit : first + totalAtoms ops ≤ Word.top) (hle : first ≤ counter)
    (hlt : counter < first + totalAtoms ops) :
    Consecutive counter (sliceOps counter ops) ∧
      counter + totalAtoms (sliceOps counter ops) = first + totalAtoms ops := by
  induction ops generalizing first with
  | nil =>
    simp only [totalAtoms] at hlt
    omega
  | cons op ops ih =>
    obtain ⟨hc, hpos, hrest⟩ := h
    rw [totalAtoms_cons] at hfit hlt ⊢
    have hstop : op.stop = op.counter + op.content.atoms := stop_eq (by omega)
    by_cases hskip : op.stop ≤ counter
    · rw [sliceOps_cons_of_le hskip]
      have := ih hrest (by omega) (by omega) (by omega)
      exact ⟨this.1, by omega⟩
    · -- The cut falls into this operation, so all later ones stay whole.
      have htail := sliceOps_of_le hrest (by omega) (by omega : counter ≤ first + op.content.atoms)
      rw [sliceOps_cons_of_lt (by omega), htail, totalAtoms_cons]
      by_cases hcut : op.counter < counter
      · rw [if_pos hcut]
        have hatoms : (op.suffixFrom counter).content.atoms =
            op.content.atoms - (counter - op.counter) :=
          Content.atoms_suffix (by omega)
        refine ⟨⟨rfl, by omega, ?_⟩, by omega⟩
        rw [hatoms, show counter + (op.content.atoms - (counter - op.counter)) =
          first + op.content.atoms by omega]
        exact hrest
      · rw [if_neg hcut]
        have heq : counter = first := by omega
        subst heq
        exact ⟨⟨hc, hpos, hrest⟩, by omega⟩

end Op

namespace Change

structure WellFormed (c : Change) : Prop where
  ops_ne_nil : c.ops ≠ []
  consecutive : Op.Consecutive c.start c.ops
  counters_fit : c.start + Op.totalAtoms c.ops ≤ Word.top
  lamports_fit : c.lamport + Op.totalAtoms c.ops ≤ Word.top

instance (c : Change) : Decidable c.WellFormed :=
  decidable_of_iff (c.ops ≠ [] ∧ Op.Consecutive c.start c.ops ∧
      c.start + Op.totalAtoms c.ops ≤ Word.top ∧ c.lamport + Op.totalAtoms c.ops ≤ Word.top)
    ⟨fun ⟨h, i, j, k⟩ => ⟨h, i, j, k⟩, fun ⟨h, i, j, k⟩ => ⟨h, i, j, k⟩⟩

theorem contains_iff {c : Change} {id : OpId} :
    c.contains id = true ↔ id.peer = c.peer ∧ c.start ≤ id.counter ∧ id.counter < c.stop := by
  unfold contains IdSpan.contains span
  simp only [Bool.and_eq_true, decide_eq_true_eq, and_assoc]

theorem stop_eq_of_getLast? {c : Change} {n : Nat} (h : c.ops.getLast?.map Op.stop = some n) :
    c.stop = n := by
  obtain ⟨op, hop, rfl⟩ := Option.map_eq_some_iff.mp h
  unfold stop
  rw [hop]

namespace WellFormed

variable {c : Change}

theorem stop_eq (h : c.WellFormed) : c.stop = c.start + Op.totalAtoms c.ops := by
  exact (stop_eq_of_getLast? (h.consecutive.contiguous.getLast?_stop h.ops_ne_nil)).trans
    (Nat.min_eq_left h.counters_fit)

theorem start_lt_stop (h : c.WellFormed) : c.start < c.stop := by
  have := Op.totalAtoms_pos h.consecutive h.ops_ne_nil
  rw [h.stop_eq]
  omega

theorem stop_le_top (h : c.WellFormed) : c.stop ≤ Word.top := h.stop_eq ▸ h.counters_fit

theorem lamportEnd_eq (h : c.WellFormed) : c.lamportEnd = c.lamport + Op.totalAtoms c.ops := by
  unfold lamportEnd length
  rw [h.stop_eq]
  omega

theorem lamportEnd_le_top (h : c.WellFormed) : c.lamportEnd ≤ Word.top :=
  h.lamportEnd_eq ▸ h.lamports_fit

theorem lamport_lt_top (h : c.WellFormed) : c.lamport < Word.top := by
  have := Op.totalAtoms_pos h.consecutive h.ops_ne_nil
  have := h.lamports_fit
  omega

theorem lamportOf_eq (h : c.WellFormed) {counter : Nat} (hlt : counter < c.stop) :
    c.lamportOf counter = c.lamport + (counter - c.start) := by
  have := h.lamports_fit
  have := h.stop_eq
  have := h.start_lt_stop
  exact Word.wrap_of_le (by omega)

theorem contains_id (h : c.WellFormed) : c.contains c.id = true :=
  contains_iff.mpr ⟨rfl, Nat.le_refl _, h.start_lt_stop⟩

theorem contains_lastId (h : c.WellFormed) : c.contains c.lastId = true := by
  have hlt := h.start_lt_stop
  exact contains_iff.mpr ⟨rfl, Nat.le_sub_one_of_lt hlt, Nat.sub_one_lt_of_lt hlt⟩

end WellFormed

section Slice

variable {c : Change} {k : Nat}

theorem sliceFrom_of_le (hk : k ≤ c.start) : c.sliceFrom k = c := if_pos hk

theorem sliceFrom_of_lt (hk : c.start < k) :
    c.sliceFrom k =
      { id := ⟨c.peer, k⟩, lamport := c.lamportOf k, deps := .ofId ⟨c.peer, k - 1⟩,
        timestamp := c.timestamp, ops := Op.sliceOps k c.ops } :=
  if_neg (by omega)

theorem peer_sliceFrom : (c.sliceFrom k).peer = c.peer := by
  unfold sliceFrom
  split <;> rfl

theorem timestamp_sliceFrom : (c.sliceFrom k).timestamp = c.timestamp := by
  unfold sliceFrom
  split <;> rfl

theorem start_sliceFrom : (c.sliceFrom k).start = max c.start k := by
  by_cases hk : k ≤ c.start
  · rw [sliceFrom_of_le hk, Nat.max_eq_left hk]
  · rw [sliceFrom_of_lt (by omega), Nat.max_eq_right (by omega)]
    rfl

theorem id_sliceFrom (hle : c.start ≤ k) : (c.sliceFrom k).id = ⟨c.peer, k⟩ := by
  change OpId.mk (c.sliceFrom k).peer (c.sliceFrom k).start = _
  rw [peer_sliceFrom, start_sliceFrom, Nat.max_eq_right hle]

theorem stop_sliceFrom (hk : k < c.stop) : (c.sliceFrom k).stop = c.stop := by
  by_cases hle : k ≤ c.start
  · rw [sliceFrom_of_le hle]
  · rw [sliceFrom_of_lt (Nat.lt_of_not_le hle)]
    apply stop_eq_of_getLast?
    unfold stop at hk ⊢
    split at hk
    · next op hop => exact Op.getLast?_sliceOps hop hk
    · exact absurd (Nat.le_of_lt hk) hle

theorem WellFormed.sliceFrom (h : c.WellFormed) (hk : k < c.stop) :
    (c.sliceFrom k).WellFormed := by
  by_cases hle : k ≤ c.start
  · rwa [sliceFrom_of_le hle]
  · have hstop := h.stop_eq
    obtain ⟨hcons, htotal⟩ :=
      Op.consecutive_sliceOps h.consecutive h.counters_fit (by omega : c.start ≤ k) (by omega)
    have hfit := h.counters_fit
    have hlam := h.lamports_fit
    have hk' := h.lamportOf_eq hk
    rw [sliceFrom_of_lt (by omega)]
    refine ⟨fun hnil => ?_, hcons, ?_, ?_⟩
    · replace hnil : Op.sliceOps k c.ops = [] := hnil
      rw [hnil] at htotal
      simp only [Op.totalAtoms] at htotal hstop
      omega
    · change k + Op.totalAtoms (Op.sliceOps k c.ops) ≤ Word.top
      omega
    · change c.lamportOf k + Op.totalAtoms (Op.sliceOps k c.ops) ≤ Word.top
      omega

theorem WellFormed.lamport_sliceFrom (h : c.WellFormed) (hk : k < c.stop) :
    (c.sliceFrom k).lamport = c.lamport + (k - c.start) := by
  by_cases hle : k ≤ c.start
  · rw [sliceFrom_of_le hle]
    omega
  · rw [sliceFrom_of_lt (by omega)]
    exact h.lamportOf_eq hk

theorem deps_sliceFrom (hk : c.start < k) : (c.sliceFrom k).deps.ids = [⟨c.peer, k - 1⟩] := by
  rw [sliceFrom_of_lt hk]
  rfl

end Slice

end Change

end CausalReplica
