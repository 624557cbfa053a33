import Mathlib
import Equilibria.Proofs.PivotSearch

/-!
# Runs of the search

The search goes on as long as there is a tableau on its stack.  Its numbers may come from any domain of
computation and be rounded and compared in whatever way; a step may leave the finite numbers.  That it
ends is a matter of the bases alone:

* `Tableau.Based` — as many different columns as there are rows, which a pivot step keeps;
* `Search.Run` — the search as it goes, without a bound, and what it has put on the stack so far;
* `Search.Moment.Sound`, `Search.Run.sound` — what holds at every moment of it;
* `Search.Run.le_choose` — no more tableaux are put on the stack than there are choices of columns;
* `Search.Run.explore` — the bounded search is a whole run, so that its bound is never met;
* `Polytope.vertices_run` — the whole statement.

Two tableaux with the same basis may hold different numbers after rounding.  The second one is not put
on the stack, whatever it holds.
-/

namespace Equilibria

/-! ### Bases -/

namespace Tableau

variable {α : Type} [Scalar α] {d k : ℕ} {t next : Tableau α}

/-- A basis of `k` different columns out of `d + k`. -/
structure Based (d k : ℕ) (t : Tableau α) : Prop where
  length : t.basis.length = k
  nodup : t.basis.Nodup
  lt : ∀ c ∈ t.basis, c < d + k

theorem based_origin (p : Polytope α) : (origin p).Based p.dimension p.numConstraints := by
  have hbasis : (origin p).basis = (List.range p.numConstraints).map (p.dimension + ·) := by
    apply List.ext_getElem
    · simp [basis, origin, Polytope.numConstraints]
    · intro r hr hr'
      simp [basis, origin]
  rw [← List.range'_eq_map_range] at hbasis
  refine ⟨?_, ?_, fun c hc => ?_⟩
  · rw [hbasis, List.length_range']
  · rw [hbasis]
    exact List.nodup_range'
  · rw [hbasis, List.mem_range'_1] at hc
    exact hc.2

/-- **A pivot step keeps the columns different**, whatever its numbers are. -/
theorem Based.pivot (h : t.Based d k) {row col : ℕ} (hcol : col < d + k) (hbasis : col ∉ t.basis)
    (hpivot : t.pivot row col = .ok next) : next.Based d k := by
  have hnext : next.basis = t.basis.set row col := by
    unfold Tableau.pivot at hpivot
    dsimp only at hpivot
    split_ifs at hpivot
    rw [← Except.ok.inj hpivot, basis_pivotRows]
  refine ⟨?_, ?_, fun c hc => ?_⟩
  · rw [hnext, List.length_set, h.length]
  · rw [hnext]
    exact h.nodup.set hbasis
  · rw [hnext] at hc
    cases List.mem_or_eq_of_mem_set hc with
    | inl hmem => exact h.lt c hmem
    | inr heq => exact heq ▸ hcol

/-- The ratio test allows a row once at most. -/
theorem length_leavingRows_le (t : Tableau α) (col : ℕ) : (t.leavingRows col).length ≤ t.length := by
  have hfold : ∀ (entries : List (TableauRow α × ℕ)) (least : LeastRatio α),
      (entries.foldl (fun least entry =>
        let c := entry.1.coefficients.getD col 0
        if Scalar.isStrictlyPositive c then least.add (entry.1.rhs / c) entry.2 else least)
        least).rows.length ≤ least.rows.length + entries.length := by
    intro entries
    induction entries with
    | nil => exact fun least => le_rfl
    | cons entry entries ih =>
      intro least
      have hadd : ∀ ratio : α, (least.add ratio entry.2).rows.length ≤ least.rows.length + 1 := by
        intro ratio
        unfold LeastRatio.add
        split
        · simp
        · split_ifs <;> simp
      refine (ih _).trans ?_
      rw [List.length_cons]
      dsimp only
      split_ifs
      · have := hadd (entry.1.rhs / entry.1.coefficients.getD col 0)
        omega
      · omega
  have h := hfold t.zipIdx ⟨none, []⟩
  rwa [List.length_zipIdx, List.length_nil, Nat.zero_add] at h

omit [Scalar α] in
/-- Different bases are no more than there are choices of columns. -/
theorem length_le_choose {ts : List (Tableau α)} (hbased : ∀ t ∈ ts, t.Based d k)
    (hnodup : (ts.map key).Nodup) : ts.length ≤ (d + k).choose k := by
  have hinj : Set.InjOn List.toFinset {key | key ∈ ts.map Tableau.key} := by
    rintro _ ha _ hb hab
    obtain ⟨t, ht, rfl⟩ := List.mem_map.mp ha
    obtain ⟨u, hu, rfl⟩ := List.mem_map.mp hb
    exact ascending_eq_of_toFinset_eq (hbased t ht).nodup (hbased u hu).nodup hab
  have hmaps : ∀ key ∈ (ts.map Tableau.key).toFinset,
      key.toFinset ∈ (Finset.range (d + k)).powersetCard k := by
    intro key hkey
    obtain ⟨t, ht, rfl⟩ := List.mem_map.mp (List.mem_toFinset.mp hkey)
    have hperm : t.key.toFinset = t.basis.toFinset := List.toFinset_eq_of_perm _ _ (perm_ascending _)
    rw [hperm, Finset.mem_powersetCard, List.toFinset_card_of_nodup (hbased t ht).nodup]
    exact ⟨fun c hc => Finset.mem_range.mpr ((hbased t ht).lt c (List.mem_toFinset.mp hc)),
      (hbased t ht).length⟩
  calc ts.length = (ts.map Tableau.key).toFinset.card := by
        rw [List.toFinset_card_of_nodup hnodup, List.length_map]
    _ ≤ ((Finset.range (d + k)).powersetCard k).card :=
      Finset.card_le_card_of_injOn List.toFinset hmaps (by simpa [Set.InjOn] using hinj)
    _ = (d + k).choose k := by rw [Finset.card_powersetCard, Finset.card_range]

end Tableau

namespace Search

variable {α : Type} [Scalar α] {p : Polytope α} {t : Tableau α} {s : Search α}

theorem length_moves_le {d k : ℕ} (h : t.Based d k) : (moves (d + k) t).length ≤ d * k := by
  have hcolumns : ((List.range (d + k)).filter fun c => !t.basis.contains c).length = d := by
    have hset : ((List.range (d + k)).filter fun c => !t.basis.contains c).toFinset =
        Finset.range (d + k) \ t.basis.toFinset := by
      ext c
      simp
    have hsub : t.basis.toFinset ⊆ Finset.range (d + k) :=
      fun c hc => Finset.mem_range.mpr (h.lt c (List.mem_toFinset.mp hc))
    rw [← List.toFinset_card_of_nodup (List.nodup_range.filter _), hset,
      Finset.card_sdiff_of_subset hsub, Finset.card_range, List.toFinset_card_of_nodup h.nodup,
      h.length, Nat.add_sub_cancel]
  rw [moves, List.length_flatMap]
  refine (List.sum_le_card_nsmul _ k fun n hn => ?_).trans ?_
  · obtain ⟨c, -, rfl⟩ := List.mem_map.mp hn
    rw [List.length_map, ← h.length, Tableau.basis, List.length_map]
    exact t.length_leavingRows_le c
  · rw [List.length_map, hcolumns, smul_eq_mul]

/-! ### The search as it goes -/

/-- What a search holds between two actions. -/
structure Moment (α : Type) where
  /-- The search itself. -/
  search : Search α
  /-- What the steps from the tableau taken last give that are still to be made. -/
  pending : List (Except Failure (Tableau α))

/-- What the steps from a tableau give, in their order. -/
def outcomes (width : ℕ) (t : Tableau α) : List (Except Failure (Tableau α)) :=
  (moves width t).map fun m => t.pivot m.1 m.2

/-- **The search as it goes**, one action after the other and without a bound: how many there were,
which tableaux were put on the stack, the latest first, and what the search holds. -/
inductive Run (p : Polytope α) : ℕ → List (Tableau α) → Moment α → Prop where
  | start : Run p 0 [Tableau.origin p] ⟨Search.start p, []⟩
  /-- The next tableau is taken from the stack and its point noted. -/
  | take {n : ℕ} {log rest : List (Tableau α)} {s : Search α} {t : Tableau α}
      (h : Run p n log ⟨s, []⟩) (hstack : s.stack = t :: rest) :
      Run p (n + 1) log
        ⟨note { s with stack := rest } (t.point p.dimension), outcomes (p.dimension + p.numConstraints) t⟩
  /-- A step is made that leaves the stack as it is. -/
  | pass {n : ℕ} {log : List (Tableau α)} {s : Search α} {next : Tableau α}
      {pending : List (Except Failure (Tableau α))} (h : Run p n log ⟨s, .ok next :: pending⟩)
      (hstack : (s.push next).stack = s.stack) : Run p (n + 1) log ⟨s.push next, pending⟩
  /-- A step is made that puts a tableau on the stack. -/
  | push {n : ℕ} {log : List (Tableau α)} {s : Search α} {next : Tableau α}
      {pending : List (Except Failure (Tableau α))} (h : Run p n log ⟨s, .ok next :: pending⟩)
      (hstack : (s.push next).stack = next :: s.stack) :
      Run p (n + 1) (next :: log) ⟨s.push next, pending⟩

/-- How a search ends: with an empty stack, or with a step that leaves the finite numbers. -/
inductive Moment.Ends : Moment α → Except Failure (Search α) → Prop where
  | done {s : Search α} (hstack : s.stack = []) : Ends ⟨s, []⟩ (.ok s)
  | failed {s : Search α} {e : Failure} {pending : List (Except Failure (Tableau α))} :
      Ends ⟨s, .error e :: pending⟩ (.error e)

/-- **What holds at every moment.**  The bases noted are those of the tableaux put on the stack, each
once, and every action is one of a tableau that was put there. -/
structure Moment.Sound (p : Polytope α) (n : ℕ) (log : List (Tableau α)) (m : Moment α) : Prop where
  based : ∀ t ∈ log, t.Based p.dimension p.numConstraints
  stack : m.search.stack ⊆ log
  pending : ∀ next, .ok next ∈ m.pending → next.Based p.dimension p.numConstraints
  visited : m.search.visited = log.map Tableau.key
  nodup : (log.map Tableau.key).Nodup
  actions : n + m.pending.length + m.search.stack.length * (1 + p.dimension * p.numConstraints) ≤
    log.length * (1 + p.dimension * p.numConstraints)

variable {n : ℕ} {log : List (Tableau α)} {m : Moment α}

theorem sound_start (p : Polytope α) :
    Moment.Sound p 0 [Tableau.origin p] ⟨Search.start p, []⟩ where
  based := List.forall_mem_singleton.mpr (Tableau.based_origin p)
  stack := List.Subset.refl _
  pending := fun next hnext => absurd hnext List.not_mem_nil
  visited := rfl
  nodup := List.nodup_singleton _
  actions := by simp [Search.start]

theorem Moment.Sound.take {rest : List (Tableau α)} (h : Moment.Sound p n log ⟨s, []⟩)
    (hstack : s.stack = t :: rest) : Moment.Sound p (n + 1) log
      ⟨note { s with stack := rest } (t.point p.dimension),
        outcomes (p.dimension + p.numConstraints) t⟩ := by
  obtain ⟨hrest, hvisited⟩ := note_fields { s with stack := rest } (t.point p.dimension)
  have hsub : t :: rest ⊆ log := hstack ▸ h.stack
  have hbased := h.based t (hsub List.mem_cons_self)
  refine ⟨h.based, ?_, fun next hnext => ?_, hvisited.trans h.visited, h.nodup, ?_⟩
  · rw [hrest]
    exact fun u hu => hsub (List.mem_cons_of_mem t hu)
  · obtain ⟨⟨row, col⟩, hm, hpivot⟩ := List.mem_map.mp hnext
    obtain ⟨hcol, hbasis, -⟩ := mem_moves.mp hm
    exact hbased.pivot hcol hbasis hpivot
  · have hactions := h.actions
    have hmoves := length_moves_le hbased
    simp only [hstack, List.length_cons, List.length_nil, Nat.add_mul, Nat.one_mul] at hactions
    simp only [hrest, outcomes, List.length_map]
    omega

omit [Scalar α] in
theorem Moment.Sound.pass {next : Tableau α} {pending : List (Except Failure (Tableau α))}
    (h : Moment.Sound p n log ⟨s, .ok next :: pending⟩) (hstack : (s.push next).stack = s.stack) :
    Moment.Sound p (n + 1) log ⟨s.push next, pending⟩ := by
  have hsame : s.push next = s := by
    obtain ⟨-, hpush⟩ | ⟨-, hpush⟩ := s.push_cases next
    · exact hpush
    · rw [hpush] at hstack
      exact absurd hstack (List.cons_ne_self _ _)
  rw [hsame]
  refine ⟨h.based, h.stack, fun u hu => h.pending u (List.mem_cons_of_mem _ hu), h.visited, h.nodup, ?_⟩
  have hactions := h.actions
  simp only [List.length_cons] at hactions ⊢
  omega

omit [Scalar α] in
theorem Moment.Sound.push {next : Tableau α} {pending : List (Except Failure (Tableau α))}
    (h : Moment.Sound p n log ⟨s, .ok next :: pending⟩)
    (hstack : (s.push next).stack = next :: s.stack) :
    Moment.Sound p (n + 1) (next :: log) ⟨s.push next, pending⟩ := by
  obtain ⟨-, hpush⟩ | ⟨hnew, hpush⟩ := s.push_cases next
  · rw [hpush] at hstack
    exact absurd hstack.symm (List.cons_ne_self _ _)
  rw [hpush]
  have hnew' : next.key ∉ log.map Tableau.key := h.visited ▸ hnew
  refine ⟨List.forall_mem_cons.mpr ⟨h.pending next List.mem_cons_self, h.based⟩,
    List.cons_subset_cons next h.stack, fun u hu => h.pending u (List.mem_cons_of_mem _ hu),
    congrArg (next.key :: ·) h.visited, List.nodup_cons.mpr ⟨hnew', h.nodup⟩, ?_⟩
  have hactions := h.actions
  simp only [List.length_cons, Nat.add_mul, Nat.one_mul] at hactions ⊢
  omega

theorem Run.sound (h : Run p n log m) : Moment.Sound p n log m := by
  induction h with
  | start => exact sound_start p
  | take _ hstack ih => exact ih.take hstack
  | pass _ hstack ih => exact ih.pass hstack
  | push _ hstack ih => exact ih.push hstack

/-- **A run is short**: it puts no more tableaux on the stack than there are bases, and its actions are
those of these tableaux. -/
theorem Run.le_choose (h : Run p n log m) :
    log.length ≤ (p.dimension + p.numConstraints).choose p.numConstraints ∧
      n ≤ (p.dimension + p.numConstraints).choose p.numConstraints *
        (1 + p.dimension * p.numConstraints) := by
  have hsound := h.sound
  have hlength := Tableau.length_le_choose hsound.based hsound.nodup
  refine ⟨hlength, ?_⟩
  calc n ≤ log.length * (1 + p.dimension * p.numConstraints) := by
        have hactions := hsound.actions
        omega
    _ ≤ _ := Nat.mul_le_mul_right _ hlength

/-! ### The bounded search -/

/-- The steps from a tableau are part of a run. -/
theorem Run.foldlM_step (ms : List (ℕ × ℕ)) (h : Run p n log ⟨s, ms.map fun m => t.pivot m.1 m.2⟩) :
    (∃ n' log' s', Run p n' log' ⟨s', []⟩ ∧ ms.foldlM (step t) s = .ok s' ∧
      log'.length + s.stack.length = log.length + s'.stack.length) ∨
    ∃ n' log' m e, Run p n' log' m ∧ m.Ends (.error e) ∧ ms.foldlM (step t) s = .error e := by
  induction ms generalizing n log s with
  | nil => exact Or.inl ⟨n, log, s, h, rfl, rfl⟩
  | cons m ms ih =>
    cases hpivot : t.pivot m.1 m.2 with
    | error e =>
      refine Or.inr ⟨n, log, _, e, h, ?_, ?_⟩
      · rw [List.map_cons, hpivot]
        exact .failed
      · rw [List.foldlM_cons, step, hpivot]
        rfl
    | ok next =>
      have hstep : (m :: ms).foldlM (step t) s = ms.foldlM (step t) (s.push next) := by
        rw [List.foldlM_cons, step, hpivot]
        rfl
      rw [List.map_cons, hpivot] at h
      rw [hstep]
      obtain ⟨-, hpush⟩ | ⟨-, hpush⟩ := s.push_cases next
      · have hrest := ih (h.pass (congrArg Search.stack hpush))
        rwa [hpush] at hrest ⊢
      · have hstack : (s.push next).stack = next :: s.stack := congrArg Search.stack hpush
        refine (ih (h.push hstack)).imp_left ?_
        rintro ⟨n', log', s', hrun, hfold, hcount⟩
        rw [hstack, List.length_cons, List.length_cons] at hcount
        exact ⟨n', log', s', hrun, hfold, by omega⟩

/-- **The bounded search is a whole run.**  Every tableau that was put on the stack and is there no more
was taken within the bound. -/
theorem Run.explore (fuel : ℕ) (h : Run p n log ⟨s, []⟩)
    (hfuel : 2 ^ (p.dimension + p.numConstraints) + s.stack.length ≤ log.length + fuel) :
    ∃ n' log' m result, Run p n' log' m ∧ m.Ends result ∧
      Search.explore (p.dimension + p.numConstraints) p.dimension fuel s = result := by
  induction fuel generalizing n log s with
  | zero =>
    have hle := h.le_choose.1.trans (Nat.choose_le_two_pow _ _)
    have hempty : s.stack = [] := List.eq_nil_of_length_eq_zero (by omega)
    exact ⟨n, log, _, _, h, .done hempty, rfl⟩
  | succ fuel ih =>
    cases hstack : s.stack with
    | nil =>
      refine ⟨n, log, _, _, h, .done hstack, ?_⟩
      simp only [Search.explore, hstack]
    | cons t rest =>
      have htaken := note_fields { s with stack := rest } (t.point p.dimension)
      simp only [Search.explore, hstack]
      obtain ⟨n', log', s', hrun, hfold, hcount⟩ | ⟨n', log', m, e, hrun, hend, hfold⟩ :=
        (h.take hstack).foldlM_step
      · have hexpand : expand (p.dimension + p.numConstraints)
            (note { s with stack := rest } (t.point p.dimension)) t = .ok s' := hfold
        rw [hexpand]
        refine ih hrun ?_
        rw [htaken.1] at hcount
        rw [hstack, List.length_cons] at hfuel
        dsimp only at hcount
        omega
      · have hexpand : expand (p.dimension + p.numConstraints)
            (note { s with stack := rest } (t.point p.dimension)) t = .error e := hfold
        rw [hexpand]
        exact ⟨n', log', m, _, hrun, hend, rfl⟩

end Search

/-- **The search for bases ends**, in any domain of computation. -/
theorem Polytope.vertices_run {α : Type} [Scalar α] (p : Polytope α) :
    (∀ n log m, Search.Run p n log m →
      (∀ t ∈ log, t.basis.length = p.numConstraints ∧ t.basis.Nodup ∧
        ∀ c ∈ t.basis, c < p.dimension + p.numConstraints) ∧
      m.search.visited = log.map Tableau.key ∧ m.search.visited.Nodup ∧
      log.length ≤ (p.dimension + p.numConstraints).choose p.numConstraints ∧
      n ≤ (p.dimension + p.numConstraints).choose p.numConstraints *
        (1 + p.dimension * p.numConstraints)) ∧
    ∃ n log m result, Search.Run p n log m ∧ m.Ends result ∧
      p.vertices = result.map fun s => ⟨s.found.reverse, log.length⟩ := by
  refine ⟨fun n log m h => ?_, ?_⟩
  · have hsound := h.sound
    refine ⟨fun t ht => ?_, hsound.visited, hsound.visited ▸ hsound.nodup, h.le_choose⟩
    have hbased := hsound.based t ht
    exact ⟨hbased.length, hbased.nodup, hbased.lt⟩
  · obtain ⟨n, log, m, result, hrun, hend, hexplore⟩ :=
      Search.Run.start.explore (p := p) (2 ^ (p.dimension + p.numConstraints)) (by
        rw [Nat.add_comm]
        exact le_rfl)
    refine ⟨n, log, m, result, hrun, hend, ?_⟩
    have hsame : Search.explore (p.dimension + p.numConstraints) p.dimension
        (Nat.pow 2 (p.dimension + p.numConstraints)) (Search.start p) = result := hexplore
    simp only [vertices, hsame]
    cases hend with
    | done hstack =>
      have hvisited := congrArg List.length hrun.sound.visited
      rw [List.length_map] at hvisited
      simp only [Except.map, hvisited]
    | failed => rfl

end Equilibria
