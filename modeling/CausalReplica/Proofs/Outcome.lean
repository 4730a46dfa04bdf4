/-!
# Outcomes of computations made of steps

When a computation made of steps succeeds, so did each of its steps. A computation that may stop
without a result has one exactly if some condition holds, and its steps add to that condition.
-/

namespace CausalReplica.Outcome

variable {ε ε' α β : Type _}

theorem of_bind_ok {x : Except ε α} {f : α → Except ε β} {b : β} (h : (x >>= f) = .ok b) :
    ∃ a, x = .ok a ∧ f a = .ok b := by
  cases x with
  | error e => exact nomatch h
  | ok a => exact ⟨a, rfl, h⟩

theorem of_map_ok {x : Except ε α} {f : α → β} {b : β} (h : x.map f = .ok b) :
    ∃ a, x = .ok a ∧ f a = b := by
  cases x with
  | error e => exact nomatch h
  | ok a => exact ⟨a, rfl, Except.ok.inj h⟩

theorem of_mapError_ok {x : Except ε α} {f : ε → ε'} {a : α} (h : x.mapError f = .ok a) :
    x = .ok a := by
  cases x with
  | error e => exact nomatch h
  | ok b => exact congrArg Except.ok (Except.ok.inj h)

/-- The outcome is `a` if the condition holds, and there is none if it does not. -/
structure Guarded (o : Option α) (P : Prop) (a : α) : Prop where
  eq_some : P → o = some a
  eq_none : ¬ P → o = none

namespace Guarded

variable {α β : Type u} {o : Option α} {P Q : Prop} {a r : α} {b : β}

theorem eq_some_iff (h : Guarded o P a) : o = some r ↔ P ∧ r = a := by
  by_cases hP : P
  · rw [h.eq_some hP, Option.some.injEq, and_iff_right hP]
    exact eq_comm
  · rw [h.eq_none hP]
    exact iff_of_false nofun fun hr => hP hr.1

theorem eq_none_iff (h : Guarded o P a) : o = none ↔ ¬ P := by
  refine ⟨fun hnone hP => ?_, h.eq_none⟩
  rw [h.eq_some hP] at hnone
  exact nomatch hnone

theorem pure (a : α) : Guarded (some a) True a where
  eq_some _ := rfl
  eq_none hP := absurd trivial hP

theorem congr (h : Guarded o P a) (hPQ : P ↔ Q) : Guarded o Q a :=
  ⟨fun hQ => h.eq_some (hPQ.mpr hQ), fun hQ => h.eq_none (mt hPQ.mp hQ)⟩

theorem map (h : Guarded o P a) (f : α → β) : Guarded (o.map f) P (f a) where
  eq_some hP := by rw [h.eq_some hP, Option.map_some]
  eq_none hP := by rw [h.eq_none hP, Option.map_none]

theorem bind (h : Guarded o P a) (hg : Guarded (g a) Q b) : Guarded (o >>= g) (P ∧ Q) b where
  eq_some hPQ := by
    rw [h.eq_some hPQ.1]
    exact hg.eq_some hPQ.2
  eq_none hPQ := by
    by_cases hP : P
    · rw [h.eq_some hP]
      exact hg.eq_none fun hQ => hPQ ⟨hP, hQ⟩
    · rw [h.eq_none hP]
      rfl

theorem bind_pure (h : Guarded o P a) {f : α → β} :
    Guarded (o >>= fun x => Pure.pure (f x)) P (f a) where
  eq_some hP := by
    rw [h.eq_some hP]
    rfl
  eq_none hP := by
    rw [h.eq_none hP]
    rfl

theorem mapM {P : α → Prop} {f : α → β} {g : α → Option β} {xs : List α}
    (h : ∀ x ∈ xs, Guarded (g x) (P x) (f x)) :
    Guarded (xs.mapM g) (∀ x ∈ xs, P x) (xs.map f) := by
  induction xs with
  | nil => exact (pure []).congr (iff_of_true trivial fun _ hx => absurd hx List.not_mem_nil)
  | cons x xs ih =>
    have htail := ih fun y hy => h y (List.mem_cons_of_mem x hy)
    rw [List.mapM_cons]
    exact ((h x List.mem_cons_self).bind htail.bind_pure).congr List.forall_mem_cons.symm

end Guarded

end CausalReplica.Outcome
