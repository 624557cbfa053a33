import Mathlib
import Equilibria.Polytope.Search
import Equilibria.Proofs.AscendingLists

/-!
# The search for bases

`Search.explore` takes tableaux from a stack until it is empty.  What holds all along is
`Search.Tracks`: the bases seen are those of the tableaux taken and of those that wait, each once,
and the points found are those of the tableaux taken.  A step that is made keeps this
(`Tracks.push`, `Tracks.foldlM_step`, `Tracks.take`), and `Tracks.explore` is the whole run: it ends
with an empty stack before its bound is met, because a basis is a set of columns and no basis is
seen twice.

The numbers may come from any domain of computation.  All that is asked of the tableaux is a
property `good` that the steps keep and that makes a basis a set of columns.
-/

namespace Equilibria

namespace Search

variable {α : Type} [Scalar α]

/-- The points that the search notes of some tableaux, the latest first. -/
def notes (dimension : ℕ) : List (Tableau α) → List (List α)
  | [] => []
  | t :: ts =>
    let found := notes dimension ts
    if found.any fun known => samePoint known (t.point dimension) then found
    else t.point dimension :: found

/-- **The invariant of the search.**  Each tableau was put on the stack once, with its basis noted,
and `done` are those taken from it, the latest first. -/
structure Tracks (good : Tableau α → Prop) (dimension : ℕ) (done : List (Tableau α))
    (s : Search α) : Prop where
  good : ∀ t ∈ done ++ s.stack, good t
  visited : ((done ++ s.stack).map Tableau.key).Perm s.visited
  nodup : s.visited.Nodup
  found : s.found = notes dimension done

/-- Whether every step from some tableaux ends in a basis that was seen. -/
def Closed (width : ℕ) (done : List (Tableau α)) (s : Search α) : Prop :=
  ∀ t ∈ done, ∀ m ∈ moves width t, ∀ next, t.pivot m.1 m.2 = .ok next → next.key ∈ s.visited

variable {good : Tableau α → Prop} {width dimension : ℕ} {done : List (Tableau α)} {s : Search α}

/-! ### Single actions -/

theorem mem_moves {t : Tableau α} {row col : ℕ} :
    (row, col) ∈ moves width t ↔ col < width ∧ col ∉ t.basis ∧ row ∈ t.leavingRows col := by
  simp only [moves, List.mem_flatMap, List.mem_filter, List.mem_range, List.mem_map,
    Prod.mk.injEq, Bool.not_eq_true', ← Bool.not_eq_true, List.contains_iff_mem]
  constructor
  · rintro ⟨c, ⟨hc, hbasis⟩, r, hr, rfl, rfl⟩
    exact ⟨hc, hbasis, hr⟩
  · rintro ⟨hc, hbasis, hr⟩
    exact ⟨col, ⟨hc, hbasis⟩, row, hr, rfl, rfl⟩

omit [Scalar α] in
/-- A tableau is put on the stack unless its basis was seen. -/
theorem push_cases (s : Search α) (t : Tableau α) :
    (t.key ∈ s.visited ∧ s.push t = s) ∨ (t.key ∉ s.visited ∧
      s.push t = { s with stack := t :: s.stack, visited := t.key :: s.visited }) := by
  by_cases hseen : t.key ∈ s.visited
  · exact Or.inl ⟨hseen, if_pos (List.contains_iff_mem.mpr hseen)⟩
  · exact Or.inr ⟨hseen, if_neg (mt List.contains_iff_mem.mp hseen)⟩

/-- Noting a point touches nothing but the points. -/
theorem note_fields (s : Search α) (x : List α) :
    (note s x).stack = s.stack ∧ (note s x).visited = s.visited := by
  unfold note
  split_ifs
  · exact ⟨rfl, rfl⟩
  · exact ⟨rfl, rfl⟩

/-! ### The whole search -/

theorem Tracks.push (h : Tracks good dimension done s) {next : Tableau α} (hnext : good next) :
    Tracks good dimension done (s.push next) ∧ s.visited ⊆ (s.push next).visited ∧
      next.key ∈ (s.push next).visited := by
  obtain ⟨hseen, hpush⟩ | ⟨hnew, hpush⟩ := s.push_cases next
  · rw [hpush]
    exact ⟨h, List.Subset.refl _, hseen⟩
  · rw [hpush]
    refine ⟨⟨?_, ?_, ?_, h.found⟩, List.subset_cons_self _ _, List.mem_cons_self⟩
    · intro t ht
      rcases List.mem_cons.mp (List.perm_middle.mem_iff.mp ht) with rfl | ht
      · exact hnext
      · exact h.good t ht
    · exact (List.perm_middle.map Tableau.key).trans (h.visited.cons next.key)
    · exact List.nodup_cons.mpr ⟨hnew, h.nodup⟩

/-- All steps of a list are made, and their bases are seen after them. -/
theorem Tracks.foldlM_step (h : Tracks good dimension done s) (t : Tableau α)
    (ms : List (ℕ × ℕ)) (hmoves : ∀ m ∈ ms, ∃ next, t.pivot m.1 m.2 = .ok next ∧ good next) :
    ∃ s', ms.foldlM (step t) s = .ok s' ∧ Tracks good dimension done s' ∧
      s.visited ⊆ s'.visited ∧
      ∀ m ∈ ms, ∀ next, t.pivot m.1 m.2 = .ok next → next.key ∈ s'.visited := by
  induction ms generalizing s with
  | nil => exact ⟨s, rfl, h, List.Subset.refl _, fun m hm => absurd hm List.not_mem_nil⟩
  | cons m ms ih =>
    obtain ⟨next, hpivot, hgood⟩ := hmoves m List.mem_cons_self
    obtain ⟨hpush, hsub, hkey⟩ := h.push hgood
    obtain ⟨s', hfold, htracks, hsub', hkeys⟩ :=
      ih hpush fun m' hm' => hmoves m' (List.mem_cons_of_mem _ hm')
    have hstep : step t s m = .ok (s.push next) := by simp only [step, hpivot]
    refine ⟨s', ?_, htracks, List.Subset.trans hsub hsub', ?_⟩
    · rw [List.foldlM_cons, hstep]
      exact hfold
    · intro m' hm' next' hpivot'
      rcases List.mem_cons.mp hm' with rfl | hm'
      · rw [hpivot] at hpivot'
        obtain rfl : next = next' := Except.ok.inj hpivot'
        exact hsub' hkey
      · exact hkeys m' hm' next' hpivot'

/-- Taking a tableau from the stack notes its point. -/
theorem Tracks.take {t : Tableau α} {rest : List (Tableau α)} (h : Tracks good dimension done s)
    (hstack : s.stack = t :: rest) :
    Tracks good dimension (t :: done) (note { s with stack := rest } (t.point dimension)) ∧
      (note { s with stack := rest } (t.point dimension)).visited = s.visited := by
  have hperm : ((t :: done) ++ rest).Perm (done ++ s.stack) := by
    rw [hstack]
    exact List.perm_middle.symm
  have hfound : (note { s with stack := rest } (t.point dimension)).found =
      notes dimension (t :: done) := by
    simp only [Search.note, notes, h.found]
    split_ifs
    · rfl
    · rfl
  have hfields := note_fields { s with stack := rest } (t.point dimension)
  refine ⟨⟨?_, ?_, ?_, hfound⟩, hfields.2⟩
  · rw [hfields.1]
    exact fun t' ht' => h.good t' (hperm.mem_iff.mp ht')
  · rw [hfields.1, hfields.2]
    exact (hperm.map Tableau.key).trans h.visited
  · rw [hfields.2]
    exact h.nodup

theorem Tracks.length_visited (h : Tracks good dimension done s) :
    s.visited.length = done.length + s.stack.length := by
  rw [← h.visited.length_eq, List.length_map, List.length_append]

/-- A search sees at most as many bases as there are sets of columns. -/
theorem Tracks.length_le (h : Tracks good dimension done s)
    (hbasis : ∀ t, good t → t.basis.Nodup ∧ ∀ c ∈ t.basis, c < width) :
    done.length + s.stack.length ≤ 2 ^ width := by
  rw [← h.length_visited]
  apply length_le_two_pow h.nodup
  intro key hkey
  obtain ⟨t, ht, rfl⟩ := List.mem_map.mp (h.visited.mem_iff.mpr hkey)
  exact ⟨t.basis, (hbasis t (h.good t ht)).1, (hbasis t (h.good t ht)).2, rfl⟩

/-- **The search ends with an empty stack** and has then made every step from every tableau. -/
theorem Tracks.explore (hbasis : ∀ t, good t → t.basis.Nodup ∧ ∀ c ∈ t.basis, c < width)
    (hmoves : ∀ t, good t → ∀ m ∈ moves width t, ∃ next, t.pivot m.1 m.2 = .ok next ∧ good next)
    (n : ℕ) (h : Tracks good dimension done s) (hclosed : Closed width done s)
    (hfuel : 2 ^ width ≤ done.length + n) :
    ∃ s' done', explore width dimension n s = .ok s' ∧ s'.stack = [] ∧
      Tracks good dimension done' s' ∧ Closed width done' s' ∧ s.visited ⊆ s'.visited := by
  induction n generalizing done s with
  | zero =>
    have hlength := h.length_le hbasis
    have hempty : s.stack = [] := List.eq_nil_of_length_eq_zero (by omega)
    exact ⟨s, done, rfl, hempty, h, hclosed, List.Subset.refl _⟩
  | succ n ih =>
    cases hstack : s.stack with
    | nil =>
      refine ⟨s, done, ?_, hstack, h, hclosed, List.Subset.refl _⟩
      simp only [Search.explore, hstack]
    | cons t rest =>
      obtain ⟨hnoted, hvisited⟩ := h.take hstack
      have hgood : good t := h.good t (by rw [hstack]; simp)
      obtain ⟨s₁, hexpand, htracks, hsub, hkeys⟩ :=
        hnoted.foldlM_step t (moves width t) (hmoves t hgood)
      rw [hvisited] at hsub
      have hclosed₁ : Closed width (t :: done) s₁ := by
        intro u hu m hm next hpivot
        rcases List.mem_cons.mp hu with rfl | hu
        · exact hkeys m hm next hpivot
        · exact hsub (hclosed u hu m hm next hpivot)
      obtain ⟨s', done', hexplore, hend⟩ :=
        ih htracks hclosed₁ (by rw [List.length_cons]; omega)
      refine ⟨s', done', ?_, hend.1, hend.2.1, hend.2.2.1, List.Subset.trans hsub hend.2.2.2⟩
      have hexpand' : expand width (Search.note { s with stack := rest } (t.point dimension)) t =
          .ok s₁ := hexpand
      simp only [Search.explore, hstack, hexpand']
      exact hexplore

end Search

end Equilibria
