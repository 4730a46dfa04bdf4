import CausalReplica.Proofs.Change.Atom

/-!
# What a slice keeps

A well-formed change is a row of atoms, one at each of its counters. A slice is the end of that row:
the same atoms at the same counters, Lamport times and positions. So it makes no difference in how
many cuts a slice was taken.
-/

namespace CausalReplica

namespace Content

variable {content : Content} {j k n : Nat}

def elements : Content → List Atom
  | .insertText pos text => text.toList.mapIdx fun i c => .char (pos + i) c
  | .insertValues pos values => values.mapIdx fun i v => .value (pos + i) v
  | .delete pos len => List.replicate len (.deletion pos)
  | .setKey key value => [.key key value]
  | .createChild kind => [.child kind]

theorem getElem?_elements : content.elements[n]? = content.atom? n := by
  cases content with
  | insertText pos text => exact List.getElem?_mapIdx
  | insertValues pos values => exact List.getElem?_mapIdx
  | delete pos len => exact List.getElem?_replicate
  | setKey key value => cases n <;> rfl
  | createChild kind => cases n <;> rfl

theorem length_elements : content.elements.length = content.atoms := by
  cases content with
  | insertText pos text => exact List.length_mapIdx.trans String.length_toList
  | insertValues pos values => exact List.length_mapIdx
  | delete pos len => exact List.length_replicate
  | setKey key value => rfl
  | createChild kind => rfl

theorem elements_suffix (h : content.CutFits k) (hk : k < content.atoms) :
    (content.suffix k).elements = content.elements.drop k := by
  apply List.ext_getElem?
  intro n
  rw [List.getElem?_drop, getElem?_elements, getElem?_elements, atom?_suffix h hk]

theorem suffix_suffix : (content.suffix j).suffix k = content.suffix (j + k) := by
  have hpos : ∀ pos, Word.wrap (Word.wrap (pos + j) + k) = Word.wrap (pos + (j + k)) := by
    intro pos
    rw [Word.wrap, Word.wrap, Word.wrap, Nat.mod_add_mod, Nat.add_assoc]
  cases content with
  | insertText pos text =>
    simp only [suffix, hpos, String.toList_ofList, List.drop_drop]
  | insertValues pos values =>
    simp only [suffix, hpos, List.drop_drop]
  | delete pos len =>
    simp only [suffix, Nat.sub_sub]
  | setKey key value => rfl
  | createChild kind => rfl

end Content

namespace Op

variable {op : Op} {ops : List Op} {j k n : Nat}

/-- The atoms of the operation, each at its counter and in the container. -/
def numbered (op : Op) : List (Nat × ContainerId × Atom) :=
  (op.content.elements.zipIdx op.counter).map fun (a, n) => (n, op.container, a)

theorem filter_zipIdx {α : Type} {l : List α} :
    (l.zipIdx n).filter (fun x => k ≤ x.2) = (l.drop (k - n)).zipIdx (max k n) := by
  induction l generalizing n with
  | nil => rw [List.drop_nil, List.zipIdx_nil, List.zipIdx_nil, List.filter_nil]
  | cons x l ih =>
    rw [List.zipIdx_cons]
    by_cases hn : k ≤ n
    · have hall : ∀ y ∈ l.zipIdx (n + 1), k ≤ y.2 := by
        intro y hy
        have := List.le_snd_of_mem_zipIdx hy
        omega
      rw [List.filter_cons_of_pos (by simpa using hn),
        List.filter_eq_self.mpr (by simpa using hall), Nat.sub_eq_zero_of_le hn,
        Nat.max_eq_right hn, List.drop_zero, List.zipIdx_cons]
    · rw [List.filter_cons_of_neg (by simpa using hn), ih, Nat.max_eq_left (by omega),
        Nat.max_eq_left (by omega), show k - n = k - (n + 1) + 1 by omega, List.drop_succ_cons]

theorem filter_numbered : op.numbered.filter (fun a => k ≤ a.1) =
    ((op.content.elements.drop (k - op.counter)).zipIdx (max k op.counter)).map
      fun (a, n) => (n, op.container, a) := by
  rw [← filter_zipIdx, numbered, List.filter_map]
  rfl

theorem numbered_sliceOps (hfit : ∀ op ∈ ops, op.counter + op.content.atoms ≤ Word.top)
    (hcut : ∀ op ∈ ops, op.counter < k → k < op.stop → op.content.CutFits (k - op.counter)) :
    (sliceOps k ops).flatMap numbered = (ops.flatMap numbered).filter fun a => k ≤ a.1 := by
  induction ops with
  | nil => rfl
  | cons op ops ih =>
    have htail := ih (fun o ho => hfit o (List.mem_cons_of_mem op ho))
      fun o ho => hcut o (List.mem_cons_of_mem op ho)
    have hstop : op.stop = op.counter + op.content.atoms := stop_eq (hfit op List.mem_cons_self)
    rw [List.flatMap_cons, List.filter_append, ← htail, filter_numbered]
    by_cases hskip : op.stop ≤ k
    · rw [sliceOps_cons_of_le hskip, List.drop_of_length_le]
      · rfl
      · rw [Content.length_elements]
        omega
    · rw [sliceOps_cons_of_lt (by omega), List.flatMap_cons]
      congr 1
      by_cases hin : op.counter < k
      · have hcontent := Content.elements_suffix (hcut op List.mem_cons_self hin (by omega))
          (by omega : k - op.counter < op.content.atoms)
        rw [if_pos hin, Nat.max_eq_left (by omega), ← hcontent]
        rfl
      · rw [if_neg hin, Nat.max_eq_right (by omega), Nat.sub_eq_zero_of_le (by omega),
          List.drop_zero]
        rfl

theorem Consecutive.counters_numbered (h : Consecutive n ops) :
    (ops.flatMap numbered).map (·.1) = List.range' n (totalAtoms ops) := by
  induction ops generalizing n with
  | nil => rfl
  | cons op ops ih =>
    obtain ⟨rfl, _, hrest⟩ := h
    have hop : op.numbered.map (·.1) = List.range' op.counter op.content.atoms := by
      rw [numbered, List.map_map, ← Content.length_elements]
      exact List.zipIdx_map_snd ..
    rw [List.flatMap_cons, List.map_append, hop, ih hrest, totalAtoms_cons, List.range'_append_1]

theorem suffixFrom_suffixFrom (hj : op.counter ≤ j) (hk : j ≤ k) :
    (op.suffixFrom j).suffixFrom k = op.suffixFrom k := by
  unfold suffixFrom
  rw [Content.suffix_suffix, show j - op.counter + (k - j) = k - op.counter by omega]

theorem sliceOps_sliceOps (hjk : j < k) : sliceOps k (sliceOps j ops) = sliceOps k ops := by
  induction ops with
  | nil => rfl
  | cons op ops ih =>
    by_cases hj : op.stop ≤ j
    · rw [sliceOps_cons_of_le hj, sliceOps_cons_of_le (by omega), ih]
    · rw [sliceOps_cons_of_lt (by omega)]
      by_cases hin : op.counter < j
      · -- The first cut falls into the operation, so what is left of it starts below the second.
        have hstop : (op.suffixFrom j).stop = op.stop := stop_suffixFrom (by omega) (by omega)
        rw [if_pos hin]
        by_cases hk : op.stop ≤ k
        · rw [sliceOps_cons_of_le (by omega), sliceOps_cons_of_le hk, ih]
        · have hcounter : (op.suffixFrom j).counter < k := hjk
          rw [sliceOps_cons_of_lt (by omega), sliceOps_cons_of_lt (by omega), if_pos hcounter,
            if_pos (by omega), suffixFrom_suffixFrom (by omega) (by omega), ih]
      · rw [if_neg hin]
        by_cases hk : op.stop ≤ k
        · rw [sliceOps_cons_of_le hk, sliceOps_cons_of_le hk, ih]
        · rw [sliceOps_cons_of_lt (by omega), sliceOps_cons_of_lt (by omega), ih]

end Op

/-- An atom at its place in a change. -/
structure PlacedAtom where
  counter : Nat
  lamport : Nat
  container : ContainerId
  atom : Atom
  deriving DecidableEq, Repr

namespace Change

variable {c : Change} {j k : Nat}

def atoms (c : Change) : List PlacedAtom :=
  (c.ops.flatMap Op.numbered).map fun (n, container, atom) =>
    ⟨n, c.lamport + (n - c.start), container, atom⟩

/-- No insertion reaches past the last position of the word range. -/
def InsertsFit (c : Change) : Prop :=
  ∀ op ∈ c.ops, ∀ pos ∈ op.content.insertPos?, pos + op.content.atoms ≤ Word.top

instance (c : Change) : Decidable c.InsertsFit :=
  inferInstanceAs (Decidable (∀ op ∈ c.ops, _))

theorem InsertsFit.cutFits (h : c.InsertsFit) (hc : c.WellFormed) (k : Nat) : c.CutFits k := by
  intro op hop hlt hk
  have hstop := Op.stop_eq (Nat.le_trans (hc.consecutive.mem hop).2 hc.counters_fit)
  refine Content.cutFits_iff.mpr fun pos hpos => ?_
  have := h op hop pos hpos
  omega

theorem WellFormed.counters_atoms (h : c.WellFormed) :
    c.atoms.map (·.counter) = List.range' c.start c.length := by
  have hlength : c.length = Op.totalAtoms c.ops := by
    rw [length, h.stop_eq, Nat.add_sub_cancel_left]
  rw [atoms, List.map_map, hlength, ← h.consecutive.counters_numbered]
  rfl

theorem WellFormed.atoms_sliceFrom (h : c.WellFormed) (hcut : c.CutFits k) (hle : c.start ≤ k)
    (hlt : k < c.stop) : (c.sliceFrom k).atoms = c.atoms.filter fun a => k ≤ a.counter := by
  have hops : (c.sliceFrom k).ops.flatMap Op.numbered =
      (c.ops.flatMap Op.numbered).filter fun a => k ≤ a.1 := by
    by_cases hstart : k ≤ c.start
    · rw [sliceFrom_of_le hstart]
      refine (List.filter_eq_self.mpr fun a ha => ?_).symm
      have hmem := List.mem_map_of_mem (f := (·.1)) ha
      rw [h.consecutive.counters_numbered, List.mem_range'_1] at hmem
      simp only [decide_eq_true_eq]
      omega
    · rw [sliceFrom_of_lt (by omega)]
      refine Op.numbered_sliceOps (fun op hop => ?_) hcut
      exact Nat.le_trans (h.consecutive.mem hop).2 h.counters_fit
  rw [atoms, atoms, hops, h.lamport_sliceFrom hlt, start_sliceFrom, Nat.max_eq_right hle,
    List.filter_map]
  refine List.map_congr_left fun a ha => ?_
  have hka : k ≤ a.1 := by simpa using (List.mem_filter.mp ha).2
  dsimp only
  rw [show c.lamport + (k - c.start) + (a.1 - k) = c.lamport + (a.1 - c.start) by omega]

theorem sliceFrom_sliceFrom : (c.sliceFrom j).sliceFrom k = c.sliceFrom (max j k) := by
  by_cases hj : j ≤ c.start
  · rw [sliceFrom_of_le hj]
    by_cases hk : k ≤ c.start
    · rw [sliceFrom_of_le hk, sliceFrom_of_le (Nat.max_le.mpr ⟨hj, hk⟩)]
    · rw [Nat.max_eq_right (by omega)]
  · have hstart : (c.sliceFrom j).start = j := by
      rw [start_sliceFrom, Nat.max_eq_right (by omega)]
    by_cases hk : k ≤ j
    · have hle : k ≤ (c.sliceFrom j).start := by omega
      rw [sliceFrom_of_le hle, Nat.max_eq_left hk]
    · have hlamport : (c.sliceFrom j).lamportOf k = c.lamportOf k := by
        rw [lamportOf, hstart, sliceFrom_of_lt (by omega)]
        change Word.wrap (Word.wrap (c.lamport + (j - c.start)) + (k - j)) =
          Word.wrap (c.lamport + (k - c.start))
        rw [Word.wrap, Word.wrap, Word.wrap, Nat.mod_add_mod]
        congr 1
        omega
      rw [Nat.max_eq_right (by omega), sliceFrom_of_lt (c := c.sliceFrom j) (by omega), hlamport,
        peer_sliceFrom, timestamp_sliceFrom, sliceFrom_of_lt (k := k) (by omega),
        sliceFrom_of_lt (k := j) (by omega), Op.sliceOps_sliceOps (by omega)]

/-- A slice of a well-formed change is one up to the same end, and consists of exactly the atoms of
the change from the cut on, which are all there at their Lamport times and positions. Unless it is
the whole change, its one dependency is the operation before it. Slices of slices are slices. -/
theorem WellFormed.sliceFrom_keeps_atoms (h : c.WellFormed) (hfit : c.InsertsFit) :
    c.atoms.map (·.counter) = List.range' c.start c.length ∧
    (∀ k, c.start ≤ k → k < c.stop →
      (c.sliceFrom k).WellFormed ∧ (c.sliceFrom k).id = ⟨c.peer, k⟩ ∧
      (c.sliceFrom k).stop = c.stop ∧
      (c.sliceFrom k).atoms = c.atoms.filter (fun a => k ≤ a.counter) ∧
      (c.start < k → (c.sliceFrom k).deps.ids = [⟨c.peer, k - 1⟩])) ∧
    ∀ j k, (c.sliceFrom j).sliceFrom k = c.sliceFrom (max j k) := by
  refine ⟨h.counters_atoms, fun k hle hlt => ?_, fun j k => sliceFrom_sliceFrom⟩
  exact ⟨h.sliceFrom hlt, id_sliceFrom hle, stop_sliceFrom hlt,
    h.atoms_sliceFrom (hfit.cutFits h k) hle hlt, deps_sliceFrom⟩

theorem sliceFrom_keeps_atoms_mixed :
    let t : ContainerId := .root "t" .text
    let l : ContainerId := .root "l" .list
    let c : Change := ⟨⟨⟨1⟩, 2⟩, 7, .empty, 0,
      [⟨2, t, .insertText 4 "aé"⟩, ⟨4, t, .delete 1 2⟩, ⟨6, l, .insertValues 0 [.null, .int 3]⟩,
        ⟨8, l, .createChild .map⟩]⟩
    (c.sliceFrom 3).atoms =
        [⟨3, 8, t, .char 5 'é'⟩, ⟨4, 9, t, .deletion 1⟩, ⟨5, 10, t, .deletion 1⟩,
          ⟨6, 11, l, .value 0 .null⟩, ⟨7, 12, l, .value 1 (.int 3)⟩, ⟨8, 13, l, .child .map⟩] ∧
      (c.sliceFrom 3).deps.ids = [⟨⟨1⟩, 2⟩] ∧
      (c.sliceFrom 3).sliceFrom 7 = c.sliceFrom 7 := by
  intro t l c
  obtain ⟨_, hslice, hcompose⟩ :=
    WellFormed.sliceFrom_keeps_atoms (c := c) (by decide) (by decide)
  obtain ⟨_, _, _, hatoms, hdeps⟩ := hslice 3 (by decide) (by decide)
  refine ⟨?_, hdeps (by decide), hcompose 3 7⟩
  rw [hatoms]
  decide

end Change

end CausalReplica
