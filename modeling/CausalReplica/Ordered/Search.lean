import CausalReplica.Ordered.List

/-!
# Searching by halving

A test that holds for the elements of a list up to some place, and for none after it, cuts the list
in two. Halving finds that place without testing every element, and with it an element of a list
that is in order. In a list that is out of order halving may miss what is there.
-/

namespace CausalReplica.Ordered

variable {α : Type u} {p q : α → Bool} {xs : List α}

/-- Halves the window of `size` places from `base` on until one place is left. An element that
passes the test becomes the first of the window. There are fewer rounds than places. -/
def halve (p : α → Bool) (xs : List α) (rounds base size : Nat) : Nat :=
  match rounds with
  | 0 => base
  | rounds + 1 =>
    if size ≤ 1 then base
    else
      match xs[base + size / 2]?.any p with
      | true => halve p xs rounds (base + size / 2) (size - size / 2)
      | false => halve p xs rounds base (size - size / 2)

/-- The place at which halving ends. -/
def halved (p : α → Bool) (xs : List α) : Nat := halve p xs xs.length 0 xs.length

/-- The place at which the test cuts the list: that of the first element that fails it. -/
def partitionPoint (p : α → Bool) (xs : List α) : Nat :=
  if xs[halved p xs]?.any p then halved p xs + 1 else halved p xs

/-- The element at the cut. -/
def firstFailing? (p : α → Bool) (xs : List α) : Option α := xs[partitionPoint p xs]?

/-- The place at which `p` cuts the list, and that at which `q` does, unless it comes before. -/
def cuts (p q : α → Bool) (xs : List α) : Nat × Nat :=
  (partitionPoint p xs, max (partitionPoint q xs) (partitionPoint p xs))

/-- The place of `x` in a list that is in order, or else the place at which it belongs. -/
def search [Ord α] (x : α) (xs : List α) : Except Nat Nat :=
  let place := halved (fun y => (compare y x).isLE) xs
  match xs[place]? with
  | none => .error place
  | some y =>
    match compare y x with
    | .lt => .error (place + 1)
    | .eq => .ok place
    | .gt => .error place

/-- What comes before an element that passes the test passes it too. -/
def Partitioned (p : α → Bool) (xs : List α) : Prop :=
  xs.Pairwise fun x y => p y = true → p x = true

theorem mem_of_firstFailing? {x : α} (h : firstFailing? p xs = some x) : x ∈ xs :=
  List.mem_of_getElem? h

theorem le_halve {rounds base size : Nat} : base ≤ halve p xs rounds base size := by
  fun_induction halve p xs rounds base size with
  | case1 => exact Nat.le_refl _
  | case2 => exact Nat.le_refl _
  | case3 base size rounds hsize htest ih => omega
  | case4 base size rounds hsize htest ih => exact ih

theorem halve_lt {rounds base size : Nat} (hsize : 0 < size) :
    halve p xs rounds base size < base + size := by
  fun_induction halve p xs rounds base size with
  | case1 => omega
  | case2 => omega
  | case3 base size rounds hlarge htest ih => have := ih (by omega); omega
  | case4 base size rounds hlarge htest ih => have := ih (by omega); omega

/-- Of a weaker test more elements pass, and halving ends no earlier. -/
theorem halve_mono (hpq : ∀ x, p x = true → q x = true) {rounds base size : Nat} :
    halve p xs rounds base size ≤ halve q xs rounds base size := by
  have hany : ∀ {o : Option α}, o.any p = true → o.any q = true := by
    intro o ho
    cases o with
    | none => exact ho
    | some x => exact hpq x ho
  induction rounds generalizing base size with
  | zero => exact Nat.le_refl _
  | succ rounds ih =>
    unfold halve
    split
    · exact Nat.le_refl _
    · next hsize =>
      cases hp : xs[base + size / 2]?.any p <;> cases hq : xs[base + size / 2]?.any q
      · exact ih
      · have hlt := @halve_lt _ p xs rounds base (size - size / 2) (by omega)
        have hle := @le_halve _ q xs rounds (base + size / 2) (size - size / 2)
        dsimp only
        omega
      · exact nomatch (hany hp).symm.trans hq
      · exact ih

theorem halved_mono (hpq : ∀ x, p x = true → q x = true) : halved p xs ≤ halved q xs :=
  halve_mono hpq

theorem halve_eq {rounds base size n : Nat} (hrounds : size ≤ rounds + 1) (hbase : base ≤ n - 1)
    (hn : n - 1 < base + size) (hlen : base + size ≤ xs.length)
    (hp : ∀ i (h : i < xs.length), p xs[i] = true ↔ i < n) :
    halve p xs rounds base size = n - 1 := by
  have any_at : ∀ i (h : i < xs.length), xs[i]?.any p = true ↔ i < n := by
    intro i h
    rw [List.getElem?_eq_getElem h, Option.any_some, hp i h]
  fun_induction halve p xs rounds base size with
  | case1 base size => omega
  | case2 base size rounds hsize => omega
  | case3 base size rounds hsize htest ih =>
    have := (any_at _ (by omega)).mp htest
    exact ih (by omega) (by omega) (by omega) (by omega)
  | case4 base size rounds hsize htest ih =>
    have := mt (any_at _ (by omega)).mpr (Bool.eq_false_iff.mp htest)
    exact ih (by omega) (by omega) (by omega) (by omega)

theorem halved_eq_of_iff {n : Nat} (hn : n ≤ xs.length)
    (hp : ∀ i (h : i < xs.length), p xs[i] = true ↔ i < n) : halved p xs = n - 1 := by
  rcases xs.eq_nil_or_concat with rfl | ⟨init, last, rfl⟩
  · simp at hn
    subst hn
    rfl
  · have hpos : 0 < (init.concat last).length := by simp
    exact halve_eq (by omega) (by omega) (by omega) (by omega) hp

theorem partitionPoint_eq_of_iff {n : Nat} (hn : n ≤ xs.length)
    (hp : ∀ i (h : i < xs.length), p xs[i] = true ↔ i < n) : partitionPoint p xs = n := by
  unfold partitionPoint
  rw [halved_eq_of_iff hn hp]
  by_cases hlt : n - 1 < xs.length
  · simp only [List.getElem?_eq_getElem hlt, Option.any_some, hp _ hlt]
    split <;> omega
  · simp only [List.getElem?_eq_none (Nat.le_of_not_lt hlt), Option.any_none, Bool.false_eq_true,
      if_false]
    omega

namespace Partitioned

theorem drop (h : Partitioned p xs) (n : Nat) : Partitioned p (xs.drop n) :=
  List.Pairwise.drop h

/-- The elements that pass the test are those before the first that fails it. -/
theorem getElem_iff (h : Partitioned p xs) {i : Nat} (hi : i < xs.length) :
    p xs[i] = true ↔ i < xs.findIdx fun x => !p x := by
  constructor
  · intro hpi
    apply Nat.lt_of_not_le
    intro hle
    have hcut : (xs.findIdx fun x => !p x) < xs.length := Nat.lt_of_le_of_lt hle hi
    have hfails := List.findIdx_getElem (w := hcut)
    rcases Nat.lt_or_eq_of_le hle with hlt | heq
    · rw [List.pairwise_iff_getElem.mp h _ i hcut hi hlt hpi] at hfails
      exact nomatch hfails
    · simp only [heq, hpi] at hfails
      exact nomatch hfails
  · intro hlt
    simpa using List.not_of_lt_findIdx hlt

/-- On a list that the test cuts in two, halving ends where looking from the front would. -/
theorem partitionPoint_eq (h : Partitioned p xs) :
    partitionPoint p xs = xs.findIdx fun x => !p x :=
  partitionPoint_eq_of_iff List.findIdx_le_length fun _ => h.getElem_iff

theorem partitionPoint_le (h : Partitioned p xs) : partitionPoint p xs ≤ xs.length :=
  h.partitionPoint_eq ▸ List.findIdx_le_length

theorem partitionPoint_drop (h : Partitioned p xs) (n : Nat) :
    partitionPoint p (xs.drop n) = partitionPoint p xs - n := by
  have hle := h.partitionPoint_le
  apply partitionPoint_eq_of_iff
  · rw [List.length_drop]
    omega
  · intro i hi
    rw [List.length_drop] at hi
    rw [List.getElem_drop, h.getElem_iff, ← h.partitionPoint_eq]
    omega

theorem firstFailing?_eq (h : Partitioned p xs) : firstFailing? p xs = xs.find? fun x => !p x := by
  rw [firstFailing?, h.partitionPoint_eq, List.find?_eq_getElem?_findIdx]

theorem take_partitionPoint (h : Partitioned p xs) :
    xs.take (partitionPoint p xs) = xs.takeWhile p := by
  rw [h.partitionPoint_eq, List.takeWhile_eq_take_findIdx_not]

theorem drop_partitionPoint (h : Partitioned p xs) :
    xs.drop (partitionPoint p xs) = xs.dropWhile p := by
  rw [h.partitionPoint_eq, List.dropWhile_eq_drop_findIdx_not]

theorem cuts_le (hp : Partitioned p xs) (hq : Partitioned q xs) :
    (cuts p q xs).1 ≤ (cuts p q xs).2 ∧ (cuts p q xs).2 ≤ xs.length :=
  ⟨Nat.le_max_right _ _, Nat.max_le.mpr ⟨hq.partitionPoint_le, hp.partitionPoint_le⟩⟩

/-- What lies between two cuts is what two scans would pick. -/
theorem extract_cuts (hp : Partitioned p xs) (hq : Partitioned q xs) :
    xs.extract (cuts p q xs).1 (cuts p q xs).2 = (xs.dropWhile p).takeWhile q := by
  rw [← hp.drop_partitionPoint, ← (hq.drop _).take_partitionPoint, hq.partitionPoint_drop,
    List.extract_eq_take_drop]
  congr 1
  unfold cuts
  omega

end Partitioned

theorem pairwise_between {R : α → α → Prop} {x : α} {i : Nat} (h : xs.Pairwise R)
    (hbefore : ∀ y ∈ xs.take i, R y x) (hafter : ∀ y ∈ xs.drop i, R x y) :
    (xs.take i ++ x :: xs.drop i).Pairwise R := by
  rw [← List.take_append_drop i xs, List.pairwise_append] at h
  obtain ⟨htake, hdrop, hcross⟩ := h
  refine List.pairwise_append.mpr ⟨htake, List.pairwise_cons.mpr ⟨hafter, hdrop⟩, ?_⟩
  intro y hy z hz
  rcases List.mem_cons.mp hz with rfl | hz
  · exact hbefore y hy
  · exact hcross y hy z hz

/-- Two elements are still in their order when another one is taken out. -/
theorem pairwise_of_eraseIdx {R : α → α → Prop} {i j k : Nat} (h : (xs.eraseIdx k).Pairwise R)
    (hij : i < j) (hj : j < xs.length) (hik : k ≠ i) (hjk : k ≠ j) : R xs[i] xs[j] := by
  have hstays : ∀ n (hn : n < xs.length), k ≠ n → ∃ m, ∃ hm : m < (xs.eraseIdx k).length,
      (xs.eraseIdx k)[m] = xs[n] ∧ m = if n < k then n else n - 1 := by
    intro n hn hkn
    have hlen := List.length_eraseIdx (l := xs) (i := k)
    by_cases hlt : n < k
    · refine ⟨n, by split at hlen <;> omega, ?_, (if_pos hlt).symm⟩
      exact List.getElem_eraseIdx_of_lt _ hlt
    · refine ⟨n - 1, by split at hlen <;> omega, ?_, (if_neg hlt).symm⟩
      rw [List.getElem_eraseIdx_of_ge _ (by omega)]
      simp only [Nat.sub_add_cancel (show 1 ≤ n by omega)]
  obtain ⟨i', hi', higet, hieq⟩ := hstays i (Nat.lt_trans hij hj) hik
  obtain ⟨j', hj', hjget, hjeq⟩ := hstays j hj hjk
  rw [← higet, ← hjget]
  refine List.pairwise_iff_getElem.mp h i' j' hi' hj' ?_
  split at hieq <;> split at hjeq <;> omega

section Search

open Std (TransOrd LawfulEqOrd TransCmp OrientedCmp ReflOrd)

variable [Ord α] {x : α} {i : Nat}

/-- No element is above a later one. -/
def InOrder (xs : List α) : Prop := xs.Pairwise fun x y => (compare x y).isLE = true

theorem Ascending.inOrder (h : Ascending xs) : InOrder xs :=
  List.Pairwise.imp (fun hlt => by rw [hlt]; rfl) h

theorem getElem?_of_search [LawfulEqOrd α] (h : search x xs = .ok i) : xs[i]? = some x := by
  unfold search at h
  dsimp only at h
  split at h
  · cases h
  · next y hy =>
    split at h
    · cases h
    · next heq =>
      cases h
      rw [hy, LawfulEqOrd.eq_of_compare heq]
    · cases h

theorem halved_of_search (h : search x xs = .ok i) :
    halved (fun y => (compare y x).isLE) xs = i := by
  unfold search at h
  dsimp only at h
  split at h
  · cases h
  · split at h <;> cases h
    rfl

/-- What is larger is not found earlier, in whatever order the list is. -/
theorem search_mono [TransOrd α] {y : α} {j : Nat} (hxy : (compare x y).isLE = true)
    (hx : search x xs = .ok i) (hy : search y xs = .ok j) : i ≤ j := by
  rw [← halved_of_search hx, ← halved_of_search hy]
  exact halved_mono fun z hz => TransCmp.isLE_trans hz hxy

theorem mem_of_isOk_search [LawfulEqOrd α] (h : (search x xs).isOk = true) : x ∈ xs := by
  cases hx : search x xs with
  | ok i => exact List.mem_of_getElem? (getElem?_of_search hx)
  | error i =>
    rw [hx] at h
    exact nomatch h

namespace InOrder

variable [TransOrd α]

theorem partitioned (h : InOrder xs) (x : α) : Partitioned (fun y => (compare y x).isLE) xs := by
  refine List.Pairwise.imp ?_ h
  intro y z hyz hz
  exact TransCmp.isLE_trans hyz hz

/-- The search ends at the last element that is not above `x`. -/
theorem exists_cut (h : InOrder xs) (x : α) : ∃ n ≤ xs.length,
    halved (fun y => (compare y x).isLE) xs = n - 1 ∧
      ∀ i (hi : i < xs.length), (compare xs[i] x).isLE = true ↔ i < n := by
  have hcut := fun i (hi : i < xs.length) => (h.partitioned x).getElem_iff hi
  exact ⟨_, List.findIdx_le_length, halved_eq_of_iff List.findIdx_le_length hcut, hcut⟩

variable [LawfulEqOrd α]

theorem isOk_search_iff (h : InOrder xs) : (search x xs).isOk = true ↔ x ∈ xs := by
  refine ⟨mem_of_isOk_search, fun hx => ?_⟩
  obtain ⟨n, hlen, hhalved, hcut⟩ := h.exists_cut x
  obtain ⟨i, hi, heq⟩ := List.mem_iff_getElem.mp hx
  have hpast : i < n := (hcut i hi).mp (heq ▸ ReflOrd.isLE_rfl)
  have hlast : n - 1 < xs.length := by omega
  have hle : (compare xs[n - 1] x).isLE = true := (hcut _ hlast).mpr (by omega)
  have hge : (compare x xs[n - 1]).isLE = true := by
    rcases Nat.lt_or_eq_of_le (Nat.le_sub_one_of_lt hpast) with hlt | hsame
    · exact heq ▸ List.pairwise_iff_getElem.mp h i _ hi hlast hlt
    · simp only [← hsame, heq]
      exact ReflOrd.isLE_rfl
  unfold search
  dsimp only
  rw [hhalved, List.getElem?_eq_getElem hlast]
  dsimp only
  rw [OrientedCmp.isLE_antisymm hle hge]
  rfl

/-- What is not there belongs between the elements below it and those above it. -/
theorem of_search_error (h : InOrder xs) (hx : search x xs = .error i) :
    (∀ y ∈ xs.take i, compare y x = .lt) ∧ ∀ y ∈ xs.drop i, compare x y = .lt := by
  obtain ⟨n, hlen, hhalved, hcut⟩ := h.exists_cut x
  have hnot : x ∉ xs := by
    rw [← h.isOk_search_iff, hx]
    exact nofun
  have hn : i = n := by
    unfold search at hx
    dsimp only at hx
    rw [hhalved] at hx
    split at hx
    · next hnone =>
      have := List.getElem?_eq_none_iff.mp hnone
      cases hx
      omega
    · next y hy =>
      obtain ⟨hlast, heq⟩ := List.getElem?_eq_some_iff.mp hy
      have hle := hcut _ hlast
      rw [heq] at hle
      split at hx
      · next hlt =>
        have := hle.mp (by rw [hlt]; rfl)
        cases hx
        omega
      · cases hx
      · next hgt =>
        have := mt hle.mpr (by rw [hgt]; exact nofun)
        cases hx
        omega
  subst hn
  constructor
  · intro y hy
    obtain ⟨j, hj, rfl⟩ := List.mem_iff_getElem.mp hy
    rw [List.length_take] at hj
    rw [List.getElem_take]
    have hle := (hcut j (by omega)).mpr (by omega)
    rcases Ordering.isLE_iff_eq_lt_or_eq_eq.mp hle with hlt | heq
    · exact hlt
    · exact absurd (LawfulEqOrd.eq_of_compare heq ▸ List.getElem_mem _) hnot
  · intro y hy
    obtain ⟨j, hj, rfl⟩ := List.mem_iff_getElem.mp hy
    rw [List.length_drop] at hj
    rw [List.getElem_drop]
    exact OrientedCmp.lt_of_not_isLE (mt (hcut _ (by omega)).mp (by omega))

end InOrder

end Search

end CausalReplica.Ordered
