import CausalReplica.Ordered.List

/-!
# Maps with ascending keys

A finite map is the list of its entries with strictly ascending keys, so maps that answer every
look-up alike are equal, and every traversal goes by ascending key.
-/

namespace CausalReplica

open Std (TransOrd LawfulEqOrd TransCmp OrientedCmp)

structure OrdMap (κ : Type u) (ν : Type v) [Ord κ] where
  entries : List (κ × ν)
  ascending : entries.Pairwise fun a b => compare a.1 b.1 = .lt

namespace OrdMap

variable {κ : Type u} {ν : Type v} [Ord κ]

instance [DecidableEq κ] [DecidableEq ν] : DecidableEq (OrdMap κ ν)
  | ⟨xs, _⟩, ⟨ys, _⟩ => if h : xs = ys then isTrue (by subst h; rfl) else isFalse (by simp [h])

def empty : OrdMap κ ν := ⟨[], .nil⟩

instance : EmptyCollection (OrdMap κ ν) := ⟨empty⟩

instance : Inhabited (OrdMap κ ν) := ⟨empty⟩

def size (m : OrdMap κ ν) : Nat := m.entries.length

def isEmpty (m : OrdMap κ ν) : Bool := m.entries.isEmpty

def keys (m : OrdMap κ ν) : List κ := m.entries.map (·.1)

def values (m : OrdMap κ ν) : List ν := m.entries.map (·.2)

/-- The value under `k` in a list of entries with ascending keys. -/
def lookup (k : κ) : List (κ × ν) → Option ν
  | [] => none
  | (k₁, v₁) :: rest =>
    match compare k k₁ with
    | .lt => none
    | .eq => some v₁
    | .gt => lookup k rest

/-- Puts `v` under `k`, in place of what stood there. -/
def put (k : κ) (v : ν) : List (κ × ν) → List (κ × ν)
  | [] => [(k, v)]
  | (k₁, v₁) :: rest =>
    match compare k k₁ with
    | .lt => (k, v) :: (k₁, v₁) :: rest
    | .eq => (k, v) :: rest
    | .gt => (k₁, v₁) :: put k v rest

def drop (k : κ) : List (κ × ν) → List (κ × ν)
  | [] => []
  | (k₁, v₁) :: rest =>
    match compare k k₁ with
    | .lt => (k₁, v₁) :: rest
    | .eq => rest
    | .gt => (k₁, v₁) :: drop k rest

theorem mem_put [LawfulEqOrd κ] {k : κ} {v : ν} {e : κ × ν} {xs : List (κ × ν)} :
    e ∈ put k v xs → e = (k, v) ∨ e ∈ xs := by
  induction xs with
  | nil => simp [put]
  | cons x xs ih =>
    unfold put
    split <;> grind

theorem ascending_put [TransOrd κ] [LawfulEqOrd κ] {k : κ} {v : ν} {xs : List (κ × ν)}
    (h : xs.Pairwise fun a b => compare a.1 b.1 = .lt) :
    (put k v xs).Pairwise fun a b => compare a.1 b.1 = .lt := by
  induction xs with
  | nil => simp [put]
  | cons x xs ih =>
    have hx := List.pairwise_cons.mp h
    unfold put
    split
    · next hlt =>
      refine List.pairwise_cons.mpr ⟨fun e he => ?_, h⟩
      rcases List.mem_cons.mp he with rfl | he
      · exact hlt
      · exact TransCmp.lt_trans hlt (hx.1 e he)
    · next heq =>
      refine List.pairwise_cons.mpr ⟨fun e he => ?_, hx.2⟩
      rw [LawfulEqOrd.eq_of_compare heq]
      exact hx.1 e he
    · next hgt =>
      refine List.pairwise_cons.mpr ⟨fun e he => ?_, ih hx.2⟩
      rcases mem_put he with rfl | he
      · exact OrientedCmp.lt_of_gt hgt
      · exact hx.1 e he

theorem drop_sublist {k : κ} (xs : List (κ × ν)) : (drop k xs).Sublist xs := by
  induction xs with
  | nil => exact .slnil
  | cons x xs ih =>
    unfold drop
    split
    · exact List.Sublist.refl _
    · exact List.sublist_cons_self _ xs
    · exact ih.cons_cons _

def find? (m : OrdMap κ ν) (k : κ) : Option ν := lookup k m.entries

def findD (m : OrdMap κ ν) (k : κ) (default : ν) : ν := (m.find? k).getD default

def insert [TransOrd κ] [LawfulEqOrd κ] (m : OrdMap κ ν) (k : κ) (v : ν) : OrdMap κ ν :=
  ⟨put k v m.entries, ascending_put m.ascending⟩

def erase (m : OrdMap κ ν) (k : κ) : OrdMap κ ν :=
  ⟨drop k m.entries, m.ascending.sublist (drop_sublist m.entries)⟩

def filterKeys (p : κ → Bool) (m : OrdMap κ ν) : OrdMap κ ν :=
  ⟨m.entries.filter (p ·.1), m.ascending.sublist List.filter_sublist⟩

def mapValues {ω : Type w} (f : ν → ω) (m : OrdMap κ ν) : OrdMap κ ω :=
  ⟨m.entries.map fun e => (e.1, f e.2), List.pairwise_map.mpr m.ascending⟩

theorem lookup_eq_some_iff [TransOrd κ] [LawfulEqOrd κ] {k : κ} {v : ν} {xs : List (κ × ν)}
    (h : xs.Pairwise fun a b => compare a.1 b.1 = .lt) :
    lookup k xs = some v ↔ (k, v) ∈ xs := by
  induction xs with
  | nil => simp [lookup]
  | cons x xs ih =>
    have hx := List.pairwise_cons.mp h
    unfold lookup
    split
    · next hlt =>
      have hne := Ordered.ne_of_lt hlt
      have : (k, v) ∉ xs := fun hm => Ordered.ne_of_lt (TransCmp.lt_trans hlt (hx.1 _ hm)) rfl
      grind
    · next heq =>
      have he := LawfulEqOrd.eq_of_compare heq
      have : (k, v) ∉ xs := fun hm => Ordered.ne_of_lt (hx.1 _ hm) he.symm
      grind
    · next hgt =>
      have hne := Ordered.ne_of_gt hgt
      have := ih hx.2
      grind

theorem mem_entries_iff [TransOrd κ] [LawfulEqOrd κ] {m : OrdMap κ ν} {k : κ} {v : ν} :
    (k, v) ∈ m.entries ↔ m.find? k = some v :=
  (lookup_eq_some_iff m.ascending).symm

theorem mem_keys_iff [TransOrd κ] [LawfulEqOrd κ] {m : OrdMap κ ν} {k : κ} :
    k ∈ m.keys ↔ (m.find? k).isSome := by
  simp [keys, Option.isSome_iff_exists, ← mem_entries_iff]

theorem ext_find? [TransOrd κ] [LawfulEqOrd κ] {m n : OrdMap κ ν}
    (h : ∀ k, m.find? k = n.find? k) : m = n := by
  obtain ⟨xs, hx⟩ := m
  obtain ⟨ys, hy⟩ := n
  have hm : ∀ k v, (k, v) ∈ xs ↔ (k, v) ∈ ys := fun k v => by
    rw [← lookup_eq_some_iff hx, ← lookup_eq_some_iff hy]
    exact iff_of_eq (congrArg (· = some v) (h k))
  suffices xs = ys by subst this; rfl
  clear h
  induction xs generalizing ys with
  | nil =>
    cases ys with
    | nil => rfl
    | cons y ys => exact absurd ((hm y.1 y.2).mpr List.mem_cons_self) List.not_mem_nil
  | cons x xs ih =>
    cases ys with
    | nil => exact absurd ((hm x.1 x.2).mp List.mem_cons_self) List.not_mem_nil
    | cons y ys =>
      have px := List.pairwise_cons.mp hx
      have py := List.pairwise_cons.mp hy
      have e : x = y := by
        rcases List.mem_cons.mp ((hm x.1 x.2).mp List.mem_cons_self) with e | hxy
        · exact e
        · rcases List.mem_cons.mp ((hm y.1 y.2).mpr List.mem_cons_self) with e | hyx
          · exact e.symm
          · exact absurd rfl (Ordered.ne_of_lt (TransCmp.lt_trans (px.1 _ hyx) (py.1 _ hxy)))
      subst e
      have nx : x ∉ xs := fun hm => Ordered.ne_of_lt (px.1 x hm) rfl
      have ny : x ∉ ys := fun hm => Ordered.ne_of_lt (py.1 x hm) rfl
      refine congrArg (x :: ·) (ih px.2 ys py.2 fun k v => ?_)
      have := hm k v
      grind

theorem lookup_put [TransOrd κ] [LawfulEqOrd κ] {k j : κ} {v : ν} {xs : List (κ × ν)} :
    lookup j (put k v xs) = if compare j k = .eq then some v else lookup j xs := by
  induction xs with
  | nil =>
    simp only [put, lookup]
    cases h : compare j k <;> simp
  | cons x xs ih =>
    unfold put
    split
    · next hlt =>
      cases h : compare j k with
      | lt => simp [lookup, h, TransCmp.lt_trans h hlt]
      | eq => simp [lookup, h]
      | gt => simp [lookup, h]
    · next heq =>
      have e := LawfulEqOrd.eq_of_compare heq
      cases h : compare j k with
      | lt => simp [lookup, h, ← e]
      | eq => simp [lookup, h]
      | gt => simp [lookup, h, ← e]
    · next hgt =>
      cases h : compare j k with
      | eq =>
        have e := LawfulEqOrd.eq_of_compare h
        subst e
        simp [lookup, ih, hgt]
      | _ => simp [lookup, ih, h]

theorem find?_insert [TransOrd κ] [LawfulEqOrd κ] {m : OrdMap κ ν} {k j : κ} {v : ν} :
    (m.insert k v).find? j = if compare j k = .eq then some v else m.find? j :=
  lookup_put

theorem find?_insert_self [TransOrd κ] [LawfulEqOrd κ] {m : OrdMap κ ν} {k : κ} {v : ν} :
    (m.insert k v).find? k = some v := by
  rw [find?_insert, if_pos Std.ReflCmp.compare_self]

theorem find?_insert_of_ne [TransOrd κ] [LawfulEqOrd κ] {m : OrdMap κ ν} {k j : κ} {v : ν}
    (h : j ≠ k) : (m.insert k v).find? j = m.find? j := by
  rw [find?_insert, if_neg fun e => h (LawfulEqOrd.eq_of_compare e)]

theorem mem_drop [TransOrd κ] [LawfulEqOrd κ] {k : κ} {e : κ × ν} {xs : List (κ × ν)}
    (h : xs.Pairwise fun a b => compare a.1 b.1 = .lt) :
    e ∈ drop k xs ↔ e.1 ≠ k ∧ e ∈ xs := by
  induction xs with
  | nil => simp [drop]
  | cons x xs ih =>
    have hx := List.pairwise_cons.mp h
    unfold drop
    split
    · next hlt =>
      have hne := Ordered.ne_of_lt hlt
      have : e ∈ xs → e.1 ≠ k := fun hm he =>
        Ordered.ne_of_lt (TransCmp.lt_trans hlt (hx.1 _ hm)) he.symm
      grind
    · next heq =>
      have he := LawfulEqOrd.eq_of_compare heq
      have : e ∈ xs → e.1 ≠ k := fun hm hk => Ordered.ne_of_lt (hx.1 _ hm) (he ▸ hk.symm)
      grind
    · next hgt =>
      have hne := Ordered.ne_of_gt hgt
      have := ih hx.2
      grind

theorem find?_erase_self [TransOrd κ] [LawfulEqOrd κ] {m : OrdMap κ ν} {k : κ} :
    (m.erase k).find? k = none := by
  apply Option.eq_none_iff_forall_not_mem.mpr
  intro v hv
  exact ((mem_drop m.ascending).mp (mem_entries_iff.mpr hv)).1 rfl

theorem find?_erase_of_ne [TransOrd κ] [LawfulEqOrd κ] {m : OrdMap κ ν} {k j : κ}
    (h : j ≠ k) : (m.erase k).find? j = m.find? j := by
  apply Option.ext
  intro v
  rw [← mem_entries_iff, ← mem_entries_iff]
  exact (mem_drop m.ascending).trans (and_iff_right h)

theorem find?_filterKeys [TransOrd κ] [LawfulEqOrd κ] {m : OrdMap κ ν} {p : κ → Bool} {k : κ} :
    (m.filterKeys p).find? k = if p k then m.find? k else none := by
  apply Option.ext
  intro v
  have hmem : (k, v) ∈ (m.filterKeys p).entries ↔ (k, v) ∈ m.entries ∧ p k = true :=
    List.mem_filter
  rw [← mem_entries_iff, hmem, mem_entries_iff]
  cases hp : p k <;> simp

theorem findD_filterKeys [TransOrd κ] [LawfulEqOrd κ] {m : OrdMap κ ν} {p : κ → Bool} {k : κ}
    {default : ν} :
    (m.filterKeys p).findD k default = if p k then m.findD k default else default := by
  unfold findD
  rw [find?_filterKeys]
  split <;> rfl

section MapValues

variable {ω : Type w} {f : ν → ω} {m : OrdMap κ ν} {k : κ}

theorem values_mapValues : (m.mapValues f).values = m.values.map f := by
  simp [values, mapValues]

theorem find?_mapValues : (m.mapValues f).find? k = (m.find? k).map f := by
  suffices h : ∀ xs : List (κ × ν), lookup k (xs.map fun e => (e.1, f e.2)) = (lookup k xs).map f
    from h m.entries
  intro xs
  induction xs with
  | nil => rfl
  | cons x xs ih =>
    simp only [List.map_cons, lookup]
    cases compare k x.1 with
    | lt => rfl
    | eq => rfl
    | gt => exact ih

theorem findD_mapValues {v : ν} : (m.mapValues f).findD k (f v) = f (m.findD k v) := by
  unfold findD
  rw [find?_mapValues]
  cases m.find? k <;> rfl

theorem mapValues_insert [TransOrd κ] [LawfulEqOrd κ] {v : ν} :
    (m.insert k v).mapValues f = (m.mapValues f).insert k (f v) := by
  apply ext_find?
  intro j
  rw [find?_mapValues, find?_insert, find?_insert, find?_mapValues]
  split <;> rfl

theorem mapValues_filterKeys [TransOrd κ] [LawfulEqOrd κ] {p : κ → Bool} :
    (m.filterKeys p).mapValues f = (m.mapValues f).filterKeys p := by
  apply ext_find?
  intro j
  rw [find?_mapValues, find?_filterKeys, find?_filterKeys, find?_mapValues]
  split <;> rfl

theorem mapValues_mapValues {α : Type x} {g : ω → α} :
    (m.mapValues f).mapValues g = m.mapValues (g ∘ f) := by
  simp [mapValues]

theorem mapValues_id {f : ν → ν} (h : ∀ v, f v = v) : m.mapValues f = m := by
  simp [mapValues, h]

end MapValues

theorem mem_flatten_values [TransOrd κ] [LawfulEqOrd κ] {α : Type w} {m : OrdMap κ (List α)}
    {a : α} : a ∈ m.values.flatten ↔ ∃ k, a ∈ m.findD k [] := by
  unfold findD
  constructor
  · intro ha
    obtain ⟨as, has, hmem⟩ := List.mem_flatten.mp ha
    obtain ⟨⟨k, bs⟩, he, rfl⟩ := List.mem_map.mp has
    exact ⟨k, by rwa [mem_entries_iff.mp he]⟩
  · intro ⟨k, ha⟩
    cases hf : m.find? k with
    | none =>
      rw [hf] at ha
      exact absurd ha List.not_mem_nil
    | some as =>
      rw [hf] at ha
      exact List.mem_flatten.mpr ⟨as, List.mem_map.mpr ⟨(k, as), mem_entries_iff.mpr hf, rfl⟩, ha⟩

/-- Stored lists without repetitions that share no element are no repetition of each other. -/
theorem nodup_flatten_values [TransOrd κ] [LawfulEqOrd κ] {α : Type w} {m : OrdMap κ (List α)}
    (hnodup : ∀ k, (m.findD k []).Nodup)
    (hkey : ∀ j k a, a ∈ m.findD j [] → a ∈ m.findD k [] → j = k) : m.values.flatten.Nodup := by
  have hfind : ∀ e ∈ m.entries, m.findD e.1 [] = e.2 := by
    intro e he
    unfold findD
    rw [mem_entries_iff.mp he, Option.getD_some]
  apply List.pairwise_flatten.mpr
  constructor
  · intro as has
    obtain ⟨e, he, rfl⟩ := List.mem_map.mp has
    exact hfind e he ▸ hnodup e.1
  · apply List.pairwise_map.mpr
    apply m.ascending.imp_of_mem
    intro e f he hf hlt a ha b hb hab
    subst hab
    exact Ordered.ne_of_lt hlt (hkey e.1 f.1 a (hfind e he ▸ ha) (hfind f hf ▸ hb))

/-- The keys with nothing stored under them can be left out. -/
theorem exists_filled [TransOrd κ] [LawfulEqOrd κ] {α : Type w} (m : OrdMap κ (List α)) :
    ∃ filled : OrdMap κ (List α), filled.values.flatten = m.values.flatten ∧
      ∀ k as, filled.find? k = some as ↔ as ≠ [] ∧ m.findD k [] = as := by
  refine ⟨⟨m.entries.filter (!·.2.isEmpty), m.ascending.sublist List.filter_sublist⟩, ?_, ?_⟩
  · unfold values
    dsimp only
    induction m.entries with
    | nil => rfl
    | cons e es ih =>
      obtain ⟨k, as⟩ := e
      cases as <;> simp [ih]
  · intro k as
    rw [← mem_entries_iff]
    simp only [List.mem_filter, mem_entries_iff, findD]
    cases m.find? k with
    | none => grind
    | some bs => grind

theorem flatten_values_congr [TransOrd κ] [LawfulEqOrd κ] {α : Type w} {m n : OrdMap κ (List α)}
    (h : ∀ k, m.findD k [] = n.findD k []) : m.values.flatten = n.values.flatten := by
  obtain ⟨m', hm, hmfind⟩ := exists_filled m
  obtain ⟨n', hn, hnfind⟩ := exists_filled n
  have heq : m' = n' := by
    apply ext_find?
    intro k
    apply Option.ext
    intro as
    rw [hmfind, hnfind, h]
  rw [← hm, ← hn, heq]

/-- A condition on the keys separates the stored elements. -/
theorem flatten_values_filterKeys_perm {α : Type w} {m : OrdMap κ (List α)} {p : κ → Bool} :
    ((m.filterKeys p).values.flatten ++ (m.filterKeys fun k => !p k).values.flatten).Perm
      m.values.flatten := by
  rw [← List.flatten_append]
  apply List.Perm.flatten
  rw [values, values, values, ← List.map_append]
  exact (List.filter_append_perm (fun e => p e.1) m.entries).map _

/-- Adding an element to the list under a key adds just that element. -/
theorem flatten_put_perm {α : Type w} {k : κ} {a : α} {xs : List (κ × List α)} :
    ((put k ((lookup k xs).getD [] ++ [a]) xs).map (·.2)).flatten.Perm
      (a :: (xs.map (·.2)).flatten) := by
  induction xs with
  | nil => exact List.Perm.refl _
  | cons x xs ih =>
    unfold put lookup
    cases compare k x.1 with
    | lt => exact List.Perm.refl _
    | eq =>
      simp only [Option.getD_some, List.map_cons, List.flatten_cons, List.append_assoc]
      exact List.perm_middle
    | gt =>
      simp only [List.map_cons, List.flatten_cons]
      exact (ih.append_left x.2).trans List.perm_middle

theorem flatten_values_insert_perm [TransOrd κ] [LawfulEqOrd κ] {α : Type w}
    {m : OrdMap κ (List α)} {k : κ} {a : α} :
    (m.insert k (m.findD k [] ++ [a])).values.flatten.Perm (a :: m.values.flatten) :=
  flatten_put_perm

theorem keys_put {k : κ} {v : ν} {xs : List (κ × ν)} (h : LawfulEqOrd κ) :
    (put k v xs).map (·.1) = Ordered.insert k (xs.map (·.1)) := by
  induction xs with
  | nil => rfl
  | cons x xs ih =>
    cases hcmp : compare k x.1 with
    | lt => simp [put, Ordered.insert, hcmp]
    | eq => simp [put, Ordered.insert, h.eq_of_compare hcmp]
    | gt => simp [put, Ordered.insert, hcmp, ih]

theorem keys_insert [TransOrd κ] [LawfulEqOrd κ] {m : OrdMap κ ν} {k : κ} {v : ν} :
    (m.insert k v).keys = Ordered.insert k m.keys :=
  keys_put inferInstance

theorem put_of_forall_lt [TransOrd κ] {k : κ} {v : ν} {xs : List (κ × ν)}
    (h : ∀ e ∈ xs, compare e.1 k = .lt) : put k v xs = xs ++ [(k, v)] := by
  induction xs with
  | nil => rfl
  | cons x xs ih =>
    obtain ⟨hx, hxs⟩ := List.forall_mem_cons.mp h
    have hgt : compare k x.1 = .gt := OrientedCmp.gt_of_lt hx
    simp [put, hgt, ih hxs]

theorem entries_foldl_insert [TransOrd κ] [LawfulEqOrd κ] {m : OrdMap κ ν} {xs : List (κ × ν)}
    (h : (m.entries ++ xs).Pairwise fun a b => compare a.1 b.1 = .lt) :
    (xs.foldl (fun m e => m.insert e.1 e.2) m).entries = m.entries ++ xs := by
  induction xs generalizing m with
  | nil => exact (List.append_nil _).symm
  | cons e xs ih =>
    have hlast : (m.insert e.1 e.2).entries = m.entries ++ [e] :=
      put_of_forall_lt fun d hd => (List.pairwise_append.mp h).2.2 d hd e List.mem_cons_self
    rw [List.foldl_cons, ih, hlast, List.append_assoc]
    · rfl
    · rw [hlast, List.append_assoc]
      exact h

theorem foldl_insert_entries [TransOrd κ] [LawfulEqOrd κ] (m : OrdMap κ ν) :
    m.entries.foldl (fun m e => m.insert e.1 e.2) .empty = m :=
  ext_find? fun k => congrArg (lookup k) (entries_foldl_insert (m := .empty) m.ascending)

end OrdMap

end CausalReplica
