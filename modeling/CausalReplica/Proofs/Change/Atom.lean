import CausalReplica.Proofs.Change.Slice
import CausalReplica.Proofs.Outcome

/-!
# Atoms

Each counter of a well-formed change stands for one atom, in the container of its operation. Slicing
keeps the atoms from the cut on, unless the cut moves a position out of the word range.
-/

namespace CausalReplica

open Outcome (Guarded)

/-- What an operation does at one counter. -/
inductive Atom where
  | char (pos : Nat) (c : Char)
  | value (pos : Nat) (v : Value)
  | deletion (pos : Nat)
  | key (key : String) (value : Option Value)
  | child (kind : Kind)
  deriving DecidableEq, Repr

namespace Content

/-- The atom at `offset`. Inserted atoms come to lie one after the other, while each deleted one
makes room for the next. -/
def atom? (offset : Nat) : Content → Option Atom
  | .insertText pos text => text.toList[offset]?.map (.char (pos + offset))
  | .insertValues pos values => values[offset]?.map (.value (pos + offset))
  | .delete pos len => if offset < len then some (.deletion pos) else none
  | .setKey key value => if offset = 0 then some (.key key value) else none
  | .createChild kind => if offset = 0 then some (.child kind) else none

/-- The position of what is left when `offset` atoms are cut off is in the word range. -/
def CutFits (offset : Nat) : Content → Prop
  | .insertText pos _ => pos + offset ≤ Word.top
  | .insertValues pos _ => pos + offset ≤ Word.top
  | _ => True

instance (offset : Nat) : (content : Content) → Decidable (content.CutFits offset)
  | .insertText .. => inferInstanceAs (Decidable (_ ≤ _))
  | .insertValues .. => inferInstanceAs (Decidable (_ ≤ _))
  | .delete .. | .setKey .. | .createChild _ => isTrue trivial

variable {content : Content} {k n : Nat}

/-- The position at which an insertion begins. -/
def insertPos? : Content → Option Nat
  | .insertText pos _ | .insertValues pos _ => some pos
  | _ => none

theorem cutFits_iff : content.CutFits k ↔ ∀ pos ∈ content.insertPos?, pos + k ≤ Word.top := by
  cases content <;> simp [CutFits, insertPos?]

theorem insertPos?_suffix :
    (content.suffix k).insertPos? = content.insertPos?.map fun pos => Word.wrap (pos + k) := by
  cases content <;> rfl

theorem suffix?_guarded :
    Guarded (content.suffix? k) (content.CutFits k) (content.suffix k) := by
  cases content with
  | insertText pos text =>
    refine ⟨fun h => ?_, fun h => congrArg (Option.map _) (if_neg h)⟩
    have hmoved : Word.checked (pos + k) = some (pos + k) := if_pos h
    rw [suffix?, hmoved, suffix, Word.wrap_of_le h, Option.map_some]
  | insertValues pos values =>
    refine ⟨fun h => ?_, fun h => congrArg (Option.map _) (if_neg h)⟩
    have hmoved : Word.checked (pos + k) = some (pos + k) := if_pos h
    rw [suffix?, hmoved, suffix, Word.wrap_of_le h, Option.map_some]
  | delete pos len => exact .pure _
  | setKey key value => exact .pure _
  | createChild kind => exact .pure _

theorem exists_atom (h : n < content.atoms) : ∃ a, content.atom? n = some a := by
  cases content with
  | insertText pos text =>
    have hn : n < text.toList.length := by rwa [String.length_toList]
    exact ⟨_, congrArg (Option.map _) (List.getElem?_eq_getElem hn)⟩
  | insertValues pos values => exact ⟨_, congrArg (Option.map _) (List.getElem?_eq_getElem h)⟩
  | delete pos len => exact ⟨_, if_pos h⟩
  | setKey key value => exact ⟨_, if_pos (Nat.lt_one_iff.mp h)⟩
  | createChild kind => exact ⟨_, if_pos (Nat.lt_one_iff.mp h)⟩

theorem atom?_suffix (h : content.CutFits k) (hk : k < content.atoms) :
    (content.suffix k).atom? n = content.atom? (k + n) := by
  cases content with
  | insertText pos text =>
    change (String.ofList (text.toList.drop k)).toList[n]?.map
      (Atom.char (Word.wrap (pos + k) + n)) = _
    rw [Word.wrap_of_le h, String.toList_ofList, List.getElem?_drop, Nat.add_assoc]
    rfl
  | insertValues pos values =>
    change (values.drop k)[n]?.map (Atom.value (Word.wrap (pos + k) + n)) = _
    rw [Word.wrap_of_le h, List.getElem?_drop, Nat.add_assoc]
    rfl
  | delete pos len =>
    exact ite_congr (propext (by omega)) (fun _ => rfl) fun _ => rfl
  | setKey key value =>
    rw [Nat.lt_one_iff.mp hk, Nat.zero_add]
    rfl
  | createChild kind =>
    rw [Nat.lt_one_iff.mp hk, Nat.zero_add]
    rfl

end Content

namespace Op

variable {counter k n : Nat} {op : Op} {ops : List Op}

/-- The atom at the counter `n`, with its container. -/
def atomAt (n : Nat) : List Op → Option (ContainerId × Atom)
  | [] => none
  | op :: ops =>
    if op.counter ≤ n ∧ n < op.stop then
      (op.content.atom? (n - op.counter)).map (op.container, ·)
    else atomAt n ops

theorem Consecutive.mem (h : Consecutive counter ops) (hop : op ∈ ops) :
    counter ≤ op.counter ∧ op.counter + op.content.atoms ≤ counter + totalAtoms ops := by
  induction ops generalizing counter with
  | nil => exact absurd hop List.not_mem_nil
  | cons first ops ih =>
    obtain ⟨hc, _, hrest⟩ := h
    rw [totalAtoms_cons]
    rcases List.mem_cons.mp hop with rfl | hop
    · omega
    · have := ih hrest hop
      omega

theorem Consecutive.atoms_pos (h : Consecutive counter ops) (hop : op ∈ ops) :
    0 < op.content.atoms := by
  induction ops generalizing counter with
  | nil => exact absurd hop List.not_mem_nil
  | cons first ops ih =>
    obtain ⟨_, hpos, hrest⟩ := h
    rcases List.mem_cons.mp hop with rfl | hop
    · exact hpos
    · exact ih hrest hop

theorem exists_atomAt (h : Consecutive counter ops) (hfit : counter + totalAtoms ops ≤ Word.top)
    (hle : counter ≤ n) (hlt : n < counter + totalAtoms ops) :
    ∃ a, atomAt n ops = some a := by
  induction ops generalizing counter with
  | nil =>
    simp only [totalAtoms] at hlt
    omega
  | cons op ops ih =>
    obtain ⟨hc, _, hrest⟩ := h
    rw [totalAtoms_cons] at hfit hlt
    have hstop : op.stop = op.counter + op.content.atoms := stop_eq (by omega)
    unfold atomAt
    by_cases hn : n < op.stop
    · obtain ⟨a, ha⟩ := Content.exists_atom (show n - op.counter < op.content.atoms by omega)
      rw [if_pos ⟨by omega, hn⟩, ha]
      exact ⟨_, rfl⟩
    · rw [if_neg fun hin => hn hin.2]
      exact ih hrest (by omega) (by omega) (by omega)

theorem atomAt_sliceOps (hfit : ∀ op ∈ ops, op.counter + op.content.atoms ≤ Word.top)
    (hcut : ∀ op ∈ ops, op.counter < k → k < op.stop → op.content.CutFits (k - op.counter))
    (hn : k ≤ n) : atomAt n (sliceOps k ops) = atomAt n ops := by
  induction ops with
  | nil => rfl
  | cons op ops ih =>
    have htail := ih (fun o ho => hfit o (List.mem_cons_of_mem op ho))
      fun o ho => hcut o (List.mem_cons_of_mem op ho)
    have hop := hfit op List.mem_cons_self
    by_cases hskip : op.stop ≤ k
    · rw [sliceOps_cons_of_le hskip, htail, atomAt, if_neg (by omega)]
    · rw [sliceOps_cons_of_lt (by omega)]
      by_cases hin : op.counter < k
      · have hstop : op.stop = op.counter + op.content.atoms := stop_eq hop
        have hsame : (op.suffixFrom k).stop = op.stop := stop_suffixFrom (by omega) (by omega)
        have hatom : (op.content.suffix (k - op.counter)).atom? (n - k) =
            op.content.atom? (n - op.counter) := by
          rw [Content.atom?_suffix (hcut op List.mem_cons_self hin (by omega)) (by omega)]
          congr 1
          omega
        rw [if_pos hin, atomAt, atomAt, htail, hsame]
        refine ite_congr (propext ?_) (fun _ => ?_) fun _ => rfl
        · change k ≤ n ∧ _ ↔ _
          omega
        · exact congrArg (Option.map _) hatom
      · rw [if_neg hin, atomAt, atomAt, htail]

end Op

namespace Change

variable {c : Change} {k n : Nat}

/-- The atom of the change at the counter `n`, with its container. -/
def atom? (c : Change) (n : Nat) : Option (ContainerId × Atom) := Op.atomAt n c.ops

/-- Cutting the change at `k` leaves the positions in the word range. -/
def CutFits (c : Change) (k : Nat) : Prop :=
  ∀ op ∈ c.ops, op.counter < k → k < op.stop → op.content.CutFits (k - op.counter)

instance (c : Change) (k : Nat) : Decidable (c.CutFits k) :=
  inferInstanceAs (Decidable (∀ op ∈ c.ops, _ → _ → _))

/-- What is left of the change from `k` on has its Lamport time and positions in the word range. -/
def SliceFits (c : Change) (k : Nat) : Prop :=
  c.start < k → c.lamport + (k - c.start) ≤ Word.top ∧ c.CutFits k

theorem lamportOf?_guarded (hk : c.start ≤ k) :
    Guarded (c.lamportOf? k) (c.lamport + (k - c.start) ≤ Word.top) (c.lamportOf k) := by
  unfold lamportOf? lamportOf
  rw [if_neg (Nat.not_lt_of_le hk)]
  exact ⟨fun h => (if_pos h).trans (congrArg some (Word.wrap_of_le h).symm), fun h => if_neg h⟩

theorem sliceFrom?_guarded : Guarded (c.sliceFrom? k) (c.SliceFits k) (c.sliceFrom k) := by
  by_cases hk : k ≤ c.start
  · unfold sliceFrom?
    rw [if_pos hk, sliceFrom_of_le hk]
    exact (Guarded.pure c).congr (iff_of_true trivial fun hlt => absurd hk (Nat.not_le_of_lt hlt))
  · have hlt := Nat.lt_of_not_le hk
    have hop : ∀ op ∈ c.ops.filter fun op => k < op.stop,
        Guarded (if op.counter < k then op.suffixFrom? k else some op)
          (op.counter < k → op.content.CutFits (k - op.counter))
          (if op.counter < k then op.suffixFrom k else op) := by
      intro op _
      split
      · next hcut => exact (Content.suffix?_guarded.map _).congr (imp_iff_right hcut).symm
      · next hwhole => exact (Guarded.pure op).congr (iff_of_true trivial fun h => absurd h hwhole)
    have hlamport := lamportOf?_guarded (Nat.le_of_lt hlt)
    rw [sliceFrom_of_lt hlt]
    unfold sliceFrom?
    rw [if_neg hk]
    refine ((Guarded.mapM hop).bind hlamport.bind_pure).congr ?_
    simp only [List.mem_filter, decide_eq_true_eq, SliceFits, CutFits, hlt, forall_const]
    constructor
    · exact fun ⟨hcut, hfit⟩ => ⟨hfit, fun op hop hin hout => hcut op ⟨hop, hout⟩ hin⟩
    · exact fun ⟨hfit, hcut⟩ => ⟨fun op hop hin => hcut op hop.1 hin hop.2, hfit⟩

theorem WellFormed.op_bounds (h : c.WellFormed) {op : Op} (hop : op ∈ c.ops) :
    c.start ≤ op.counter ∧ op.counter < op.stop ∧ op.stop ≤ c.stop := by
  obtain ⟨hle, hend⟩ := h.consecutive.mem hop
  have hpos := h.consecutive.atoms_pos hop
  rw [Op.stop_eq (Nat.le_trans hend h.counters_fit), h.stop_eq]
  omega

theorem WellFormed.contains_op (h : c.WellFormed) {op : Op} (hop : op ∈ c.ops) :
    c.contains ⟨c.peer, op.counter⟩ = true := by
  obtain ⟨hle, hlt, hstop⟩ := h.op_bounds hop
  exact contains_iff.mpr ⟨rfl, hle, Nat.lt_of_lt_of_le hlt hstop⟩

/-- A slice of a well-formed change has its Lamport time in the word range in any case. -/
theorem WellFormed.sliceFits_iff (h : c.WellFormed) (hk : k < c.stop) :
    c.SliceFits k ↔ c.CutFits k := by
  have hend := h.lamportEnd_le_top
  unfold lamportEnd length at hend
  constructor
  · intro hfits op hop hin hout
    exact (hfits (Nat.lt_of_le_of_lt (h.op_bounds hop).1 hin)).2 op hop hin hout
  · exact fun hcut hlt => ⟨by omega, hcut⟩

theorem WellFormed.exists_atom (h : c.WellFormed) (hle : c.start ≤ n) (hlt : n < c.stop) :
    ∃ a, c.atom? n = some a :=
  Op.exists_atomAt h.consecutive h.counters_fit hle (h.stop_eq ▸ hlt)

/-- A slice has the atoms of the change from the cut on. -/
theorem WellFormed.atom?_sliceFrom (h : c.WellFormed) (hcut : c.CutFits k) (hn : k ≤ n) :
    (c.sliceFrom k).atom? n = c.atom? n := by
  by_cases hle : k ≤ c.start
  · rw [sliceFrom_of_le hle]
  · rw [sliceFrom_of_lt (Nat.lt_of_not_le hle)]
    refine Op.atomAt_sliceOps (fun op hop => ?_) hcut hn
    exact Nat.le_trans (h.consecutive.mem hop).2 h.counters_fit

end Change

end CausalReplica
