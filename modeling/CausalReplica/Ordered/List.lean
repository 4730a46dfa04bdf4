/-!
# Ascending lists

A finite set is kept as the list of its elements in strictly ascending order, so two lists hold
the same elements only if they are equal. The operations walk the list and stop at the first
element that is not below the one sought.
-/

namespace CausalReplica.Ordered

open Std (TransOrd LawfulEqOrd TransCmp OrientedCmp)

variable {α : Type u} [Ord α]

/-- Each element is strictly below every later one. -/
def Ascending (xs : List α) : Prop := xs.Pairwise fun x y => compare x y = .lt

def insert (x : α) : List α → List α
  | [] => [x]
  | y :: ys =>
    match compare x y with
    | .lt => x :: y :: ys
    | .eq => y :: ys
    | .gt => y :: insert x ys

def contains (x : α) : List α → Bool
  | [] => false
  | y :: ys =>
    match compare x y with
    | .lt => false
    | .eq => true
    | .gt => contains x ys

/-- The ascending list of the elements of `xs`, each once. -/
def ofList (xs : List α) : List α := xs.foldl (fun acc x => insert x acc) []

theorem mem_insert [LawfulEqOrd α] {x z : α} {xs : List α} :
    z ∈ insert x xs ↔ z = x ∨ z ∈ xs := by
  induction xs with
  | nil => simp [insert]
  | cons y ys ih =>
    unfold insert
    split
    · simp
    · next h => simp [LawfulEqOrd.eq_of_compare h]
    · simp only [List.mem_cons, ih]
      grind

theorem ascending_insert [TransOrd α] [LawfulEqOrd α] {x : α} {xs : List α} (h : Ascending xs) :
    Ascending (insert x xs) := by
  induction xs with
  | nil => simp [insert, Ascending]
  | cons y ys ih =>
    have hy := List.pairwise_cons.mp h
    unfold insert
    split
    · next hlt =>
      refine List.pairwise_cons.mpr ⟨fun z hz => ?_, h⟩
      rcases List.mem_cons.mp hz with rfl | hz
      · exact hlt
      · exact TransCmp.lt_trans hlt (hy.1 z hz)
    · exact h
    · next hgt =>
      refine List.pairwise_cons.mpr ⟨fun z hz => ?_, ih hy.2⟩
      rcases mem_insert.mp hz with rfl | hz
      · exact OrientedCmp.lt_of_gt hgt
      · exact hy.1 z hz

theorem mem_ofList [LawfulEqOrd α] {z : α} {xs : List α} : z ∈ ofList xs ↔ z ∈ xs := by
  suffices h : ∀ acc : List α, z ∈ xs.foldl (fun acc x => insert x acc) acc ↔ z ∈ acc ∨ z ∈ xs by
    simpa [ofList] using h []
  induction xs with
  | nil => simp
  | cons x xs ih => intro acc; simp only [List.foldl_cons, ih, mem_insert, List.mem_cons]; grind

theorem ascending_ofList [TransOrd α] [LawfulEqOrd α] (xs : List α) : Ascending (ofList xs) := by
  suffices h : ∀ acc : List α, Ascending acc →
      Ascending (xs.foldl (fun acc x => insert x acc) acc) from h [] List.Pairwise.nil
  induction xs with
  | nil => exact fun _ h => h
  | cons x xs ih => exact fun acc h => ih _ (ascending_insert h)

theorem length_insert_le (x : α) (xs : List α) : (insert x xs).length ≤ xs.length + 1 := by
  induction xs with
  | nil => exact Nat.le_refl 1
  | cons y ys ih =>
    unfold insert
    split
    · exact Nat.le_refl _
    · exact Nat.le_succ _
    · exact Nat.succ_le_succ ih

theorem length_ofList_le (xs : List α) : (ofList xs).length ≤ xs.length := by
  suffices h : ∀ acc : List α,
      (xs.foldl (fun acc x => insert x acc) acc).length ≤ acc.length + xs.length by
    simpa [ofList] using h []
  induction xs with
  | nil => exact fun acc => Nat.le_refl _
  | cons x xs ih =>
    intro acc
    have hrest := ih (insert x acc)
    have hfirst := length_insert_le x acc
    rw [List.foldl_cons, List.length_cons]
    omega

theorem ne_of_lt [LawfulEqOrd α] {x y : α} (h : compare x y = .lt) : x ≠ y := by
  rintro rfl
  exact nomatch h.symm.trans Std.ReflCmp.compare_self

theorem ne_of_gt [LawfulEqOrd α] {x y : α} (h : compare x y = .gt) : x ≠ y := by
  rintro rfl
  exact nomatch h.symm.trans Std.ReflCmp.compare_self

theorem not_mem_of_lt_head [TransOrd α] [LawfulEqOrd α] {x y : α} {ys : List α}
    (h : Ascending (y :: ys)) (hlt : compare x y = .lt) : x ∉ y :: ys := by
  intro hx
  rcases List.mem_cons.mp hx with e | hx
  · exact ne_of_lt hlt e
  · exact ne_of_lt (TransCmp.lt_trans hlt ((List.pairwise_cons.mp h).1 x hx)) rfl

theorem head_not_mem [LawfulEqOrd α] {y : α} {ys : List α} (h : Ascending (y :: ys)) : y ∉ ys :=
  fun hy => ne_of_lt ((List.pairwise_cons.mp h).1 y hy) rfl

theorem contains_iff_mem [TransOrd α] [LawfulEqOrd α] {x : α} {xs : List α} (h : Ascending xs) :
    contains x xs = true ↔ x ∈ xs := by
  induction xs with
  | nil => simp [contains]
  | cons y ys ih =>
    unfold contains
    split
    · next hlt => simp [not_mem_of_lt_head h hlt]
    · next heq => simp [LawfulEqOrd.eq_of_compare heq]
    · next hgt => simp [ih (List.pairwise_cons.mp h).2, ne_of_gt hgt]

theorem eq_of_mem_iff [TransOrd α] [LawfulEqOrd α] {xs ys : List α} (hx : Ascending xs)
    (hy : Ascending ys) (h : ∀ z, z ∈ xs ↔ z ∈ ys) : xs = ys := by
  induction xs generalizing ys with
  | nil =>
    cases ys with
    | nil => rfl
    | cons y ys => exact absurd ((h y).mpr List.mem_cons_self) List.not_mem_nil
  | cons x xs ih =>
    cases ys with
    | nil => exact absurd ((h x).mp List.mem_cons_self) List.not_mem_nil
    | cons y ys =>
      have px := List.pairwise_cons.mp hx
      have py := List.pairwise_cons.mp hy
      have e : x = y := by
        rcases List.mem_cons.mp ((h x).mp List.mem_cons_self) with e | hxy
        · exact e
        · rcases List.mem_cons.mp ((h y).mpr List.mem_cons_self) with e | hyx
          · exact e.symm
          · exact absurd rfl (ne_of_lt (TransCmp.lt_trans (px.1 y hyx) (py.1 x hxy)))
      subst e
      have nx := head_not_mem hx
      have ny := head_not_mem hy
      refine congrArg (x :: ·) (ih px.2 py.2 fun z => ?_)
      have := h z
      grind

end CausalReplica.Ordered
