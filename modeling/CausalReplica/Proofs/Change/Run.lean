import CausalReplica.Ordered.Search
import CausalReplica.Proofs.Change.Slice

/-!
# Runs of changes

A run holds the changes of one peer from one counter up to another, each starting where the one
before it stopped. The counter decides which change of a run an operation lies in, and two runs that
begin alike and end at the same counter are equal.
-/

namespace CausalReplica.Change

/-- The changes of `p` fill the counters from `first` up to `last`, one after the other. -/
def Run (p : Peer) (first last : Nat) : List Change → Prop
  | [] => first = last
  | c :: cs => c.peer = p ∧ c.start = first ∧ c.WellFormed ∧ Run p c.stop last cs

namespace Run

variable {p : Peer} {first mid last n : Nat} {c : Change} {cs ds : List Change}

theorem append_iff :
    Run p first last (cs ++ ds) ↔ ∃ mid, Run p first mid cs ∧ Run p mid last ds := by
  induction cs generalizing first with
  | nil => simp [Run]
  | cons c cs ih => simp [Run, ih, and_assoc]

theorem snoc (h : Run p first c.start cs) (hp : c.peer = p) (hc : c.WellFormed) :
    Run p first c.stop (cs ++ [c]) :=
  append_iff.mpr ⟨c.start, h, hp, rfl, hc, rfl⟩

theorem le (h : Run p first last cs) : first ≤ last := by
  induction cs generalizing first with
  | nil => exact Nat.le_of_eq h
  | cons c cs ih =>
    have hlt := h.2.2.1.start_lt_stop
    have hle := ih h.2.2.2
    have := h.2.1
    omega

theorem lt (h : Run p first last cs) (hne : cs ≠ []) : first < last := by
  cases cs with
  | nil => exact absurd rfl hne
  | cons c cs =>
    obtain ⟨_, hfirst, hwf, hrest⟩ := h
    have := hwf.start_lt_stop
    have := hrest.le
    omega

theorem eq_nil (h : Run p first first cs) : cs = [] := by
  by_cases hne : cs = []
  · exact hne
  · exact absurd (h.lt hne) (Nat.lt_irrefl _)

theorem last_unique {last' : Nat} (h : Run p first last cs) (h' : Run p first last' cs) :
    last = last' := by
  induction cs generalizing first with
  | nil => exact h.symm.trans h'
  | cons c cs ih => exact ih h.2.2.2 h'.2.2.2

theorem mem (h : Run p first last cs) (hc : c ∈ cs) :
    c.peer = p ∧ c.WellFormed ∧ first ≤ c.start ∧ c.stop ≤ last := by
  obtain ⟨before, after, rfl⟩ := List.append_of_mem hc
  obtain ⟨mid, hbefore, hp, hstart, hwf, hafter⟩ := append_iff.mp h
  exact ⟨hp, hwf, hstart ▸ hbefore.le, hafter.le⟩

/-- The first change that stops past a counter is the one that holds it. -/
theorem find?_of_mem (h : Run p first last cs) (hc : c ∈ cs) (hle : c.start ≤ n)
    (hlt : n < c.stop) : cs.find? (fun d => n < d.stop) = some c := by
  induction cs generalizing first with
  | nil => exact absurd hc List.not_mem_nil
  | cons d cs ih =>
    obtain ⟨_, _, _, hrest⟩ := h
    rcases List.mem_cons.mp hc with rfl | hc
    · rw [List.find?_cons_of_pos (by simpa using hlt)]
    · have := (hrest.mem hc).2.2.1
      rw [List.find?_cons_of_neg (by simp only [decide_eq_true_eq]; omega)]
      exact ih hrest hc

theorem exists_holding (h : Run p first last cs) (hle : first ≤ n) (hlt : n < last) :
    ∃ c ∈ cs, c.start ≤ n ∧ n < c.stop := by
  induction cs generalizing first with
  | nil =>
    have : first = last := h
    omega
  | cons c cs ih =>
    obtain ⟨_, hstart, _, hrest⟩ := h
    by_cases hn : n < c.stop
    · exact ⟨c, List.mem_cons_self, by omega, hn⟩
    · obtain ⟨d, hd, hdn⟩ := ih hrest (by omega)
      exact ⟨d, List.mem_cons_of_mem c hd, hdn⟩

theorem eq_of_holding (h : Run p first last cs) {d : Change} (hc : c ∈ cs) (hd : d ∈ cs)
    (hcn : c.start ≤ n ∧ n < c.stop) (hdn : d.start ≤ n ∧ n < d.stop) : c = d := by
  have hfc := h.find?_of_mem hc hcn.1 hcn.2
  have hfd := h.find?_of_mem hd hdn.1 hdn.2
  rw [hfc] at hfd
  exact Option.some.inj hfd

theorem of_append (h : Run p first mid cs) (h' : Run p first last (cs ++ ds)) :
    Run p mid last ds := by
  obtain ⟨mid', hcs, hds⟩ := append_iff.mp h'
  rwa [h.last_unique hcs]

/-- A counter at which a beginning of the run stops lies inside none of its changes. -/
theorem stop_le_or_le_start (h : Run p first last ds) (hpre : cs <+: ds)
    (hcs : Run p first mid cs) (hc : c ∈ ds) : (c ∈ cs ∧ c.stop ≤ mid) ∨ mid ≤ c.start := by
  obtain ⟨rest, rfl⟩ := hpre
  rcases List.mem_append.mp hc with hc | hc
  · exact .inl ⟨hc, (hcs.mem hc).2.2.2⟩
  · exact .inr ((hcs.of_append h).mem hc).2.2.1

/-- The change that starts where a beginning of the run stops comes next. -/
theorem prefix_snoc (h : Run p first last ds) (hpre : cs <+: ds)
    (hcs : Run p first c.start cs) (hc : c ∈ ds) : cs ++ [c] <+: ds := by
  obtain ⟨rest, rfl⟩ := hpre
  have hrest := hcs.of_append h
  have hwf := (h.mem hc).2.1.start_lt_stop
  have hmem : c ∈ rest := by
    rcases List.mem_append.mp hc with hc | hc
    · have := (hcs.mem hc).2.2.2
      omega
    · exact hc
  cases rest with
  | nil => exact absurd hmem List.not_mem_nil
  | cons d rest =>
    obtain ⟨_, hstart, hd, hafter⟩ := hrest
    have hdc : d = c := by
      rcases List.mem_cons.mp hmem with heq | hmem
      · exact heq.symm
      · have := (hafter.mem hmem).2.2.1
        have := hd.start_lt_stop
        omega
    subst hdc
    exact ⟨rest, by rw [List.append_assoc]; rfl⟩

theorem eq_of_prefix (hcs : Run p first last cs) (hds : Run p first last ds) (hpre : cs <+: ds) :
    cs = ds := by
  obtain ⟨rest, rfl⟩ := hpre
  rw [(hcs.of_append hds).eq_nil, List.append_nil]

theorem eq_of_common {es : List Change} (hcs : Run p first last cs) (hds : Run p first last ds)
    (hc : cs <+: es) (hd : ds <+: es) : cs = ds := by
  rcases List.prefix_or_prefix_of_prefix hc hd with hpre | hpre
  · exact hcs.eq_of_prefix hds hpre
  · exact (hds.eq_of_prefix hcs hpre).symm

theorem eq_of_start (h : Run p first last cs) {d : Change} (hc : c ∈ cs) (hd : d ∈ cs)
    (heq : c.start = d.start) : c = d :=
  have hc' := (h.mem hc).2.1.start_lt_stop
  have hd' := (h.mem hd).2.1.start_lt_stop
  h.eq_of_holding hc hd ⟨Nat.le_refl _, hc'⟩ ⟨Nat.le_of_eq heq.symm, heq ▸ hd'⟩

theorem pairwise (h : Run p first last cs) : cs.Pairwise fun c d => c.stop ≤ d.start := by
  induction cs generalizing first with
  | nil => exact .nil
  | cons c cs ih =>
    exact List.pairwise_cons.mpr ⟨fun d hd => (h.2.2.2.mem hd).2.2.1, ih h.2.2.2⟩

/-- The changes that stop at a counter or below come before all others. -/
theorem partitioned_stop (h : Run p first last cs) (n : Nat) :
    Ordered.Partitioned (fun c => c.stop ≤ n) cs := by
  apply h.pairwise.imp_of_mem
  intro c d _ hd hle hdn
  have hlt := (h.mem hd).2.1.start_lt_stop
  rw [decide_eq_true_eq] at hdn ⊢
  omega

/-- The changes that start below a counter come before all others. -/
theorem partitioned_start (h : Run p first last cs) (n : Nat) :
    Ordered.Partitioned (fun c => c.start < n) cs := by
  apply h.pairwise.imp_of_mem
  intro c d hc _ hle hdn
  have hlt := (h.mem hc).2.1.start_lt_stop
  rw [decide_eq_true_eq] at hdn ⊢
  omega

theorem nodup (h : Run p first last cs) : cs.Nodup := by
  apply h.pairwise.imp_of_mem
  intro c d hc _ hle heq
  subst heq
  have := (h.mem hc).2.1.start_lt_stop
  omega

theorem takeWhile (h : Run p first last cs) (q : Change → Bool) :
    ∃ mid, Run p first mid (cs.takeWhile q) := by
  rw [← List.takeWhile_append_dropWhile (p := q) (l := cs)] at h
  obtain ⟨mid, htake, _⟩ := append_iff.mp h
  exact ⟨mid, htake⟩

theorem dropWhile (h : Run p first last cs) (q : Change → Bool) :
    ∃ mid, Run p mid last (cs.dropWhile q) := by
  rw [← List.takeWhile_append_dropWhile (p := q) (l := cs)] at h
  obtain ⟨mid, _, hdrop⟩ := append_iff.mp h
  exact ⟨mid, hdrop⟩

/-- Cutting off what lies below `n` leaves a run, when every change reaches past `n`. -/
theorem map_sliceFrom (h : Run p first last cs) (hn : ∀ c ∈ cs, n < c.stop) :
    ∃ first', Run p first' last (cs.map (·.sliceFrom n)) := by
  cases cs with
  | nil => exact ⟨last, rfl⟩
  | cons c cs =>
    obtain ⟨hp, _, hwf, hrest⟩ := h
    have hc := hn c List.mem_cons_self
    have hkeep : cs.map (·.sliceFrom n) = cs := by
      apply (List.map_congr_left _).trans (List.map_id cs)
      intro d hd
      have := (hrest.mem hd).2.2.1
      exact sliceFrom_of_le (by omega)
    refine ⟨(c.sliceFrom n).start, peer_sliceFrom.trans hp, rfl, hwf.sliceFrom hc, ?_⟩
    rw [stop_sliceFrom hc]
    exact hkeep.symm ▸ hrest

theorem mem_dropWhile (h : Run p first last cs) :
    c ∈ cs.dropWhile (fun d => d.stop ≤ n) ↔ c ∈ cs ∧ n < c.stop := by
  induction cs generalizing first with
  | nil => simp
  | cons d cs ih =>
    by_cases hd : d.stop ≤ n
    · rw [List.dropWhile_cons_of_pos (by simpa using hd), ih h.2.2.2, List.mem_cons]
      constructor
      · exact fun ⟨hc, hn⟩ => ⟨.inr hc, hn⟩
      · rintro ⟨rfl | hc, hn⟩
        · omega
        · exact ⟨hc, hn⟩
    · rw [List.dropWhile_cons_of_neg (by simpa using hd)]
      refine ⟨fun hc => ⟨hc, ?_⟩, And.left⟩
      rcases List.mem_cons.mp hc with rfl | hc
      · omega
      · have hle := (h.2.2.2.mem hc).2.2.1
        have hlt := (h.2.2.2.mem hc).2.1.start_lt_stop
        omega

theorem mem_takeWhile (h : Run p first last cs) :
    c ∈ cs.takeWhile (fun d => d.start < n) ↔ c ∈ cs ∧ c.start < n := by
  induction cs generalizing first with
  | nil => simp
  | cons d cs ih =>
    by_cases hd : d.start < n
    · rw [List.takeWhile_cons_of_pos (by simpa using hd), List.mem_cons, ih h.2.2.2, List.mem_cons]
      constructor
      · rintro (rfl | ⟨hc, hn⟩)
        · exact ⟨.inl rfl, hd⟩
        · exact ⟨.inr hc, hn⟩
      · rintro ⟨rfl | hc, hn⟩
        · exact .inl rfl
        · exact .inr ⟨hc, hn⟩
    · rw [List.takeWhile_cons_of_neg (by simpa using hd)]
      refine ⟨fun hc => absurd hc List.not_mem_nil, fun ⟨hc, hn⟩ => ?_⟩
      rcases List.mem_cons.mp hc with rfl | hc
      · exact absurd hn hd
      · have hle := (h.2.2.2.mem hc).2.2.1
        have hlt := h.2.2.1.start_lt_stop
        omega

/-- The changes that stop past `n` and start below `m`, picked by two scans. -/
theorem mem_between (h : Run p first last cs) {m : Nat} :
    c ∈ (cs.dropWhile fun d => d.stop ≤ n).takeWhile (fun d => d.start < m) ↔
      c ∈ cs ∧ n < c.stop ∧ c.start < m := by
  obtain ⟨mid, hdrop⟩ := h.dropWhile fun d => d.stop ≤ n
  rw [hdrop.mem_takeWhile, h.mem_dropWhile, and_assoc]

end Run

end CausalReplica.Change
