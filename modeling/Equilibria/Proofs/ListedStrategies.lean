import Mathlib
import Equilibria.Proofs.RestrictionLaws

/-!
# Restriction to listed strategies

A game may be restricted to lists of its strategies in any order, with repetitions, and to empty ones:

* `Game.Listing.composed` — lists of places in lists are lists again;
* `Game.label_restrict` — the labels are those of the listed strategies;
* `Game.restrict?_restrict` — a second restriction is one to the lists composed;
* `Game.Valid.restrict_listed` — all the laws of restriction for a valid game.

Lists with repetitions have more profiles than the game, so that even a small game may be restricted
beyond what a word can count.  Such a restriction is aborted, and nothing is said of its result.
-/

namespace Equilibria

namespace Game

variable {g : Game} {counts s : List ℕ} {kept own : List (List ℕ)}

/-! ### Lists of strategies -/

/-- Lists of places in lists are within them. -/
theorem Listing.within (h : Listing (kept.map List.length) own) : Within kept own := by
  have hlength : own.length = kept.length := by rw [h.length, List.length_map]
  refine List.forall₂_iff_get.mpr ⟨hlength.symm, fun q hq hq' a ha => ?_⟩
  have hlt := h.lt q (by rwa [List.length_map])
  rw [getD_map_length, List.getD_eq_getElem _ _ hq', List.getD_eq_getElem _ _ hq] at hlt
  exact hlt a ha

/-- What is listed of what is listed is a list of strategies. -/
theorem Listing.composed (h : Listing counts kept) (h' : Listing (kept.map List.length) own) :
    Listing counts (composed kept own) := by
  have hlength : own.length = kept.length := by rw [h'.length, List.length_map]
  refine ⟨?_, fun q hq a ha => ?_⟩
  · rw [Game.composed, List.length_zipWith, hlength, min_self, h.length]
  · have hkept : q < kept.length := by rwa [h.length]
    have hown : q < own.length := by rwa [hlength]
    rw [Game.composed, List.getD_eq_getElem _ _ (by simpa using ⟨hkept, hown⟩),
      List.getElem_zipWith] at ha
    obtain ⟨b, hb, rfl⟩ := List.mem_map.mp ha
    have hplace := h'.lt q (by rwa [List.length_map]) b (by rwa [List.getD_eq_getElem _ _ hown])
    rw [getD_map_length, List.getD_eq_getElem _ _ hkept] at hplace
    rw [List.getD_eq_getElem _ _ hplace]
    refine h.lt q hq _ ?_
    rw [List.getD_eq_getElem _ _ hkept]
    exact List.getElem_mem _

/-! ### The laws -/

/-- The label of a player's strategy. -/
def label (g : Game) (q i : ℕ) : Option String := g.players[q]?.bind fun player => player.strategies[i]?

/-- **Labels follow the lists.** -/
theorem label_restrict (h : Listing g.counts kept) {q i : ℕ} (hq : q < g.numPlayers)
    (hi : i < (kept.getD q []).length) :
    (g.restrict kept).label q i = g.label q ((kept.getD q []).getD i 0) := by
  have hplayers : q < g.players.length := hq
  have hcounts : q < g.counts.length := by rwa [length_counts]
  have hkept : q < kept.length := by rwa [h.length]
  have hplace := h.lt q hcounts
  rw [List.getD_eq_getElem g.counts _ hcounts] at hplace
  simp only [counts, List.getElem_map] at hplace
  rw [List.getD_eq_getElem _ _ hkept] at hi hplace ⊢
  have hat := hplace _ (List.getElem_mem hi)
  have hplayer : (g.restrict kept).players[q]? = some (keepStrategies g.players[q] kept[q]) := by
    rw [restrict, List.getElem?_zipWith, List.getElem?_eq_getElem hplayers,
      List.getElem?_eq_getElem hkept]
  rw [label, label, hplayer, List.getElem?_eq_getElem hplayers, List.getD_eq_getElem _ _ hi,
    Option.bind_some, Option.bind_some, List.getElem?_eq_getElem hat, keepStrategies,
    List.getElem?_map, List.getElem?_eq_getElem hi, Option.map_some, List.getD_eq_getElem _ _ hat]

/-- **Restricting what a restriction gives is one restriction**, whether it is aborted or not. -/
theorem restrict?_restrict (g : Game) (h : Within kept own) :
    (g.restrict kept).restrict? own = g.restrict? (composed kept own) := by
  unfold restrict?
  rw [map_length_composed h, g.restrict_restrict h]

/-- **The laws of restriction.**  Strategies may be listed in any order, with repetitions or not at
all.  A restriction is aborted just if its number of profiles leaves the word.  Otherwise payoffs and
labels are those of the listed strategies, a second restriction is one to the lists composed, and all
strategies in order are the game itself. -/
theorem Valid.restrict_listed (hg : g.Valid) (hkept : Listing g.counts kept) :
    (FitsWord (kept.map List.length) → ∃ g', g.restrict? kept = .ok g') ∧
    (¬FitsWord (kept.map List.length) → g.restrict? kept = .error .sizeOverflow) ∧
    (∀ g', g.restrict? kept = .ok g' →
      g'.counts = kept.map List.length ∧
      (∀ s ∈ profiles g'.counts, inWhole kept s ∈ profiles g.counts ∧
        g'.profileIndex? s = some (g'.profileIndex s) ∧
        ∀ p, g'.payoff p s = g.payoff p (inWhole kept s)) ∧
      (∀ q < g.numPlayers, ∀ i < (kept.getD q []).length,
        g'.label q i = g.label q ((kept.getD q []).getD i 0)) ∧
      ∀ own, Listing g'.counts own →
        Listing g.counts (composed kept own) ∧ g'.restrict? own = g.restrict? (composed kept own)) ∧
    g.restrict? (g.counts.map List.range) = .ok g := by
  refine ⟨fun hfits => ⟨_, restrict?_eq_ok_iff.mpr ⟨hfits, rfl⟩⟩, restrict?_eq_error, ?_, ?_⟩
  · intro g' hr
    obtain ⟨hfits, rfl⟩ := restrict?_eq_ok_iff.mp hr
    have hbuilt := build_restrict hg.built hkept hfits
    have hcounts := counts_restrict hkept
    refine ⟨hcounts, fun s hs => ⟨?_, profileIndex?_eq_some hbuilt hs, fun p => ?_⟩,
      fun q hq i hi => label_restrict hkept hq hi, fun own hown => ?_⟩
    · exact hkept.inWhole_mem (hcounts ▸ hs)
    · exact g.payoff_restrict (hcounts ▸ hs) p
    · rw [hcounts] at hown
      exact ⟨hkept.composed hown, g.restrict?_restrict hown.within⟩
  · have hall : (g.counts.map List.range).map List.length = g.counts := by simp [Function.comp_def]
    exact restrict?_eq_ok_iff.mpr ⟨by rw [hall]; exact hg.fitsWord, hg.restrict_all⟩

/-- The first player's strategies in the other order, the second player's last one twice. -/
theorem restrict_listed_dilemma :
    dilemma.Valid ∧ Listing dilemma.counts [[1, 0], [1, 1]] ∧
      ∃ g', dilemma.restrict? [[1, 0], [1, 1]] = .ok g' ∧
        (∀ p, g'.payoff p [1, 0] = dilemma.payoff p [0, 1]) ∧ g'.label 0 1 = some "silent" ∧
        g'.restrict? [[1], [0]] = dilemma.restrict? [[0], [1]] := by
  have hkept : Listing dilemma.counts [[1, 0], [1, 1]] := ⟨by decide, by decide⟩
  obtain ⟨hgives, -, hlaws, -⟩ := valid_dilemma.restrict_listed hkept
  have hfits : FitsWord ([[1, 0], [1, 1]].map (List.length (α := ℕ))) :=
    (tableSize?_eq_some_iff.mp (rfl : tableSize? [2, 2] = some 4)).1
  obtain ⟨g', hr⟩ := hgives hfits
  obtain ⟨hcounts, hpayoff, hlabel, hagain⟩ := hlaws g' hr
  have hcounts' : g'.counts = [2, 2] := hcounts
  refine ⟨valid_dilemma, hkept, g', hr, fun p => ?_, ?_, ?_⟩
  · exact (hpayoff [1, 0] (by rw [hcounts']; decide)).2.2 p
  · rw [hlabel 0 (by decide) 1 (by decide)]
    rfl
  · refine (hagain [[1], [0]] ?_).2
    rw [hcounts']
    exact ⟨rfl, by decide⟩

end Game

end Equilibria
