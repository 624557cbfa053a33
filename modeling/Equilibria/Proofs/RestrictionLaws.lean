import Mathlib
import Equilibria.Proofs.Restriction

/-!
# Laws of restriction

A game may be restricted again and again, and to all that it has:

* `composed`, `Game.inWhole_composed` — what two restrictions keep, one after the other, and its
  profiles;
* `Game.restrict_restrict` — they make the same game as one restriction, labels and strides included;
* `Game.Valid.restrict_all` — a game restricted to all its strategies in order is the game itself.
-/

namespace Equilibria

namespace Game

variable {kept own : List (List ℕ)} {s : List ℕ}

/-! ### Two restrictions -/

/-- What is kept of what is kept, in the numbers of the whole game. -/
def composed (kept own : List (List ℕ)) : List (List ℕ) :=
  List.zipWith (fun keep own => own.map fun a => keep.getD a 0) kept own

/-- Whether only strategies that are kept are kept again. -/
abbrev Within (kept own : List (List ℕ)) : Prop :=
  List.Forall₂ (fun keep own => ∀ a ∈ own, a < keep.length) kept own

theorem map_length_composed (h : Within kept own) :
    (composed kept own).map List.length = own.map List.length := by
  induction h with
  | nil => rfl
  | cons _ _ ih =>
    rw [composed, List.zipWith_cons_cons, List.map_cons, List.map_cons, List.length_map]
    exact congrArg _ ih

/-- Profiles are taken to the whole game in one step or in two. -/
theorem inWhole_composed (h : Within kept own) (hs : s ∈ profiles (own.map List.length)) :
    inWhole own s ∈ profiles (kept.map List.length) ∧
      inWhole (composed kept own) s = inWhole kept (inWhole own s) := by
  rw [mem_profiles] at hs ⊢
  induction h generalizing s with
  | nil =>
    cases hs
    exact ⟨List.Forall₂.nil, rfl⟩
  | @cons keep own kept owns hwithin _ ih =>
    cases hs with
    | @cons d _ ds _ hd hds =>
      obtain ⟨hmem, heq⟩ := ih hds
      have hplace : own.getD d 0 < keep.length := by
        rw [List.getD_eq_getElem _ _ hd]
        exact hwithin _ (List.getElem_mem hd)
      refine ⟨List.Forall₂.cons hplace hmem, ?_⟩
      have hhead : (own.map fun a => keep.getD a 0).getD d 0 = keep.getD (own.getD d 0) 0 := by
        rw [List.getD_eq_getElem _ _ (by rwa [List.length_map]), List.getElem_map,
          List.getD_eq_getElem own _ hd]
      exact congrArg₂ List.cons hhead heq

theorem keepStrategies_keepStrategies (p : Player) {keep own : List ℕ}
    (h : ∀ a ∈ own, a < keep.length) :
    keepStrategies (keepStrategies p keep) own =
      keepStrategies p (own.map fun a => keep.getD a 0) := by
  simp only [keepStrategies, List.map_map]
  congr 1
  refine List.map_congr_left fun a ha => ?_
  rw [List.getD_eq_getElem _ _ (by rw [List.length_map]; exact h a ha), List.getElem_map,
    Function.comp_apply, List.getD_eq_getElem keep _ (h a ha)]

theorem players_composed (players : List Player) (h : Within kept own) :
    List.zipWith keepStrategies (List.zipWith keepStrategies players kept) own =
      List.zipWith keepStrategies players (composed kept own) := by
  induction h generalizing players with
  | nil => simp [composed]
  | cons hwithin _ ih =>
    cases players with
    | nil => rfl
    | cons p players => exact congrArg₂ List.cons (keepStrategies_keepStrategies p hwithin) (ih players)

/-- **Two restrictions are one.** -/
theorem restrict_restrict (g : Game) (h : Within kept own) :
    (g.restrict kept).restrict own = g.restrict (composed kept own) := by
  have hcounts := map_length_composed h
  have hrows : ((g.restrict kept).restrict own).payoffs = (g.restrict (composed kept own)).payoffs := by
    rw [rows_restrict, g.rows_restrict (composed kept own), hcounts]
    refine List.map_congr_left fun s hs => ?_
    obtain ⟨hmem, heq⟩ := inWhole_composed h hs
    rw [g.row_restrict hmem, heq]
  have hplayers := players_composed g.players h
  unfold restrict at hrows ⊢
  simp only [Game.mk.injEq, true_and]
  exact ⟨hplayers, hrows, congrArg (stridesFrom 1) hcounts.symm⟩

/-! ### All strategies -/

theorem keepStrategies_range (p : Player) :
    keepStrategies p (List.range p.strategies.length) = p := by
  rw [keepStrategies, map_getD_range]

/-- **A game restricted to all its strategies is the game itself.** -/
theorem Valid.restrict_all {g : Game} (hg : g.Valid) : g.restrict (g.counts.map List.range) = g := by
  have hcounts : (g.counts.map List.range).map List.length = g.counts := by
    simp [Function.comp_def]
  have hrows : (g.restrict (g.counts.map List.range)).payoffs = g.payoffs := by
    rw [rows_restrict, hcounts]
    conv_rhs => rw [hg.payoffs_eq]
    exact List.map_congr_left fun s hs => by rw [inWhole_range hs]
  have hplayers : List.zipWith keepStrategies g.players (g.counts.map List.range) = g.players := by
    rw [counts, List.map_map, List.zipWith_map_right, List.zipWith_self]
    conv_rhs => rw [← List.map_id g.players]
    exact List.map_congr_left fun p _ => keepStrategies_range p
  have hstrides : stridesFrom 1 ((g.counts.map List.range).map List.length) = g.strides := by
    rw [hcounts, hg.strides_eq]
  have hparts : g.restrict (g.counts.map List.range) =
      ⟨g.title, List.zipWith keepStrategies g.players (g.counts.map List.range),
        (g.restrict (g.counts.map List.range)).payoffs,
        stridesFrom 1 ((g.counts.map List.range).map List.length)⟩ := rfl
  rw [hparts, hrows, hplayers, hstrides]

end Game

end Equilibria
