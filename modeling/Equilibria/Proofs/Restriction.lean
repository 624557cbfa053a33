import Mathlib
import Equilibria.Dominance
import Equilibria.Proofs.PureProfiles

/-!
# Restricted games

A game in which every player is left with some strategies, and its profiles as profiles of the
whole game:

* `Game.Listing`, `Selection` — lists of strategies, and lists of strategies that can be kept;
* `Game.Listing.inWhole_mem`, `exists_inWhole` — the profiles of what is kept are those profiles of the
  whole game that use kept strategies only;
* `Game.row_restrict` — the restricted game looks up the rows of the whole one;
* `Game.payoff_restrict` — it pays what the whole game pays;
* `Game.restrict?_eq_ok_iff`, `Game.build_restrict` — when a restriction is not aborted, and that its
  result might have been built;
* `Game.Valid.restrict` — a restricted game is valid.
-/

namespace Equilibria

/-! ### Profiles place by place -/

theorem mem_profiles_iff_getD {counts s : List ℕ} : s ∈ profiles counts ↔
    s.length = counts.length ∧ ∀ k < counts.length, s.getD k 0 < counts.getD k 0 := by
  constructor
  · intro hs
    exact ⟨length_of_mem_profiles hs, fun k hk => getD_lt_of_mem_profiles hs hk⟩
  · rintro ⟨hlength, hlt⟩
    rw [mem_profiles, List.forall₂_iff_get]
    refine ⟨hlength, fun k hk hk' => ?_⟩
    have h := hlt k hk'
    rwa [List.getD_eq_getElem _ _ hk, List.getD_eq_getElem _ _ hk'] at h

theorem set_mem_profiles {counts s : List ℕ} (hs : s ∈ profiles counts) {p a : ℕ}
    (ha : a < counts.getD p 0) : s.set p a ∈ profiles counts := by
  rw [mem_profiles_iff_getD] at hs ⊢
  refine ⟨by rw [List.length_set, hs.1], fun k hk => ?_⟩
  have hk' : k < s.length := by rwa [hs.1]
  by_cases hp : p < s.length
  · rw [getD_set 0 hp]
    split_ifs with hkp
    · rwa [hkp]
    · exact hs.2 k hk
  · rw [List.set_eq_of_length_le (not_lt.mp hp)]
    exact hs.2 k hk

/-! ### Kept strategies -/

/-- For every player a list of strategies, in any order and perhaps with repetitions. -/
structure Game.Listing (counts : List ℕ) (kept : List (List ℕ)) : Prop where
  length : kept.length = counts.length
  lt : ∀ q < counts.length, ∀ a ∈ kept.getD q [], a < counts.getD q 0

/-- For every player some strategies that are different, at least one. -/
structure Selection (counts : List ℕ) (kept : List (List ℕ)) : Prop where
  length : kept.length = counts.length
  nonempty : ∀ q < counts.length, kept.getD q [] ≠ []
  nodup : ∀ q < counts.length, (kept.getD q []).Nodup
  lt : ∀ q < counts.length, ∀ a ∈ kept.getD q [], a < counts.getD q 0

variable {counts : List ℕ} {kept : List (List ℕ)} {s t : List ℕ}

theorem length_inWhole (hs : s.length = kept.length) :
    (Game.inWhole kept s).length = kept.length := by
  unfold Game.inWhole
  rw [List.length_zipWith, hs, min_self]

theorem getD_inWhole (hs : s.length = kept.length) {k : ℕ} (hk : k < kept.length) :
    (Game.inWhole kept s).getD k 0 = (kept.getD k []).getD (s.getD k 0) 0 := by
  have hks : k < s.length := by rwa [hs]
  unfold Game.inWhole
  rw [List.getD_eq_getElem _ _ (by simpa using ⟨hks, hk⟩), List.getElem_zipWith,
    List.getD_eq_getElem kept _ hk, List.getD_eq_getElem s _ hks]

theorem length_of_mem_profiles_map (hs : s ∈ profiles (kept.map List.length)) :
    s.length = kept.length := by
  rw [length_of_mem_profiles hs, List.length_map]

/-- A profile of what is kept uses kept strategies. -/
theorem getD_inWhole_mem (hs : s ∈ profiles (kept.map List.length)) {k : ℕ} (hk : k < kept.length) :
    (Game.inWhole kept s).getD k 0 ∈ kept.getD k [] := by
  have hlt := getD_lt_of_mem_profiles hs (by rwa [List.length_map])
  rw [getD_map_length] at hlt
  rw [getD_inWhole (length_of_mem_profiles_map hs) hk, List.getD_eq_getElem _ _ hlt]
  exact List.getElem_mem _

/-- The places of a profile's strategies among those that are kept. -/
def placesIn (kept : List (List ℕ)) (t : List ℕ) : List ℕ :=
  (List.range kept.length).map fun k => (kept.getD k []).idxOf (t.getD k 0)

theorem length_placesIn (kept : List (List ℕ)) (t : List ℕ) :
    (placesIn kept t).length = kept.length := by
  simp [placesIn]

theorem getD_placesIn (t : List ℕ) {k : ℕ} (hk : k < kept.length) :
    (placesIn kept t).getD k 0 = (kept.getD k []).idxOf (t.getD k 0) := by
  simp [placesIn, List.getD_eq_getElem?_getD, hk]

/-- Every profile of kept strategies is one of what is kept. -/
theorem exists_inWhole (hlength : t.length = kept.length)
    (ht : ∀ k < kept.length, t.getD k 0 ∈ kept.getD k []) :
    ∃ s ∈ profiles (kept.map List.length), Game.inWhole kept s = t := by
  have hs := length_placesIn kept t
  have hplace : ∀ k < kept.length, (placesIn kept t).getD k 0 < (kept.getD k []).length := by
    intro k hk
    rw [getD_placesIn t hk]
    exact List.idxOf_lt_length_iff.mpr (ht k hk)
  refine ⟨placesIn kept t, mem_profiles_iff_getD.mpr ⟨by rw [hs, List.length_map], ?_⟩, ?_⟩
  · intro k hk
    rw [List.length_map] at hk
    rw [getD_map_length]
    exact hplace k hk
  · refine ext_getD (by rw [length_inWhole hs, hlength]) fun k hk => ?_
    rw [length_inWhole hs] at hk
    have hlt := hplace k hk
    rw [getD_placesIn t hk] at hlt
    rw [getD_inWhole hs hk, getD_placesIn t hk, List.getD_eq_getElem _ _ hlt]
    exact List.getElem_idxOf _

theorem inWhole_set (hs : s.length = kept.length) {p : ℕ} (hp : p < kept.length) (i : ℕ) :
    Game.inWhole kept (s.set p i) = (Game.inWhole kept s).set p ((kept.getD p []).getD i 0) := by
  have hset : (s.set p i).length = kept.length := by rw [List.length_set, hs]
  refine ext_getD (by rw [length_inWhole hset, List.length_set, length_inWhole hs]) fun k hk => ?_
  rw [length_inWhole hset] at hk
  rw [getD_inWhole hset hk, getD_set 0 (by rwa [hs]), getD_set 0 (by rwa [length_inWhole hs]),
    getD_inWhole hs hk]
  split_ifs with hkp
  · rw [hkp]
  · rfl

theorem getD_map_range (counts : List ℕ) {q : ℕ} (hq : q < counts.length) :
    (counts.map List.range).getD q [] = List.range (counts.getD q 0) := by
  simp [List.getD_eq_getElem?_getD, hq]

theorem inWhole_range {counts s : List ℕ} (hs : s ∈ profiles counts) :
    Game.inWhole (counts.map List.range) s = s := by
  have hlength : s.length = (counts.map List.range).length := by
    rw [length_of_mem_profiles hs, List.length_map]
  refine ext_getD (by rw [length_inWhole hlength, hlength]) fun q hq => ?_
  rw [length_inWhole hlength] at hq
  have hq' : q < counts.length := by rwa [List.length_map] at hq
  have hlt := getD_lt_of_mem_profiles hs hq'
  rw [getD_inWhole hlength hq, getD_map_range counts hq', List.getD_eq_getElem _ _ (by simpa using hlt),
    List.getElem_range]

theorem Game.Listing.inWhole_mem (h : Game.Listing counts kept)
    (hs : s ∈ profiles (kept.map List.length)) : Game.inWhole kept s ∈ profiles counts := by
  rw [mem_profiles_iff_getD, length_inWhole (length_of_mem_profiles_map hs)]
  refine ⟨h.length, fun k hk => h.lt k hk _ (getD_inWhole_mem hs ?_)⟩
  rwa [h.length]

namespace Selection

theorem listing (h : Selection counts kept) : Game.Listing counts kept := ⟨h.length, h.lt⟩

theorem inWhole_mem (h : Selection counts kept) (hs : s ∈ profiles (kept.map List.length)) :
    Game.inWhole kept s ∈ profiles counts :=
  h.listing.inWhole_mem hs

theorem length_getD_le (h : Selection counts kept) {q : ℕ} (hq : q < counts.length) :
    (kept.getD q []).length ≤ counts.getD q 0 := by
  have hsub : kept.getD q [] ⊆ List.range (counts.getD q 0) :=
    fun a ha => List.mem_range.mpr (h.lt q hq a ha)
  calc (kept.getD q []).length ≤ (List.range (counts.getD q 0)).length :=
        (List.subperm_of_subset (h.nodup q hq) hsub).length_le
    _ = counts.getD q 0 := List.length_range

theorem prod_le (h : Selection counts kept) : (kept.map List.length).prod ≤ counts.prod := by
  apply List.Forall₂.prod_le_prod'
  rw [List.forall₂_iff_get]
  refine ⟨by rw [List.length_map, h.length], fun q hq hq' => ?_⟩
  have hle := h.length_getD_le hq'
  rwa [← getD_map_length, List.getD_eq_getElem _ _ hq, List.getD_eq_getElem _ _ hq'] at hle

theorem pos_of_mem (h : Selection counts kept) : ∀ n ∈ kept.map List.length, 0 < n := by
  rw [List.forall_mem_map]
  intro keep hkeep
  obtain ⟨q, hq, rfl⟩ := List.getElem_of_mem hkeep
  have hne := h.nonempty q (by rwa [← h.length])
  rw [List.getD_eq_getElem _ _ hq] at hne
  exact List.length_pos_iff.mpr hne

/-- What is kept of a game can be counted as the game can. -/
theorem fitsWord (h : Selection counts kept) (hlt : counts.prod < UInt64.size) :
    FitsWord (kept.map List.length) :=
  fitsWord_of_prod_lt h.pos_of_mem (h.prod_le.trans_lt hlt)

end Selection

/-! ### The restricted game -/

namespace Game

variable {g : Game}

theorem counts_restrict (h : Listing g.counts kept) :
    (g.restrict kept).counts = kept.map List.length := by
  have hlength : g.players.length = kept.length := by rw [h.length, length_counts, numPlayers]
  apply List.ext_getElem
  · simp [counts, restrict, hlength]
  · intro q hq hq'
    simp [counts, restrict, keepStrategies]

theorem rows_restrict (g : Game) (kept : List (List ℕ)) :
    (g.restrict kept).payoffs = (profiles (kept.map List.length)).map fun s =>
      g.payoffs.getD (g.profileIndex (inWhole kept s)) [] := by
  show (successive _ (tableSize (kept.map List.length)) _).map _ = _
  rw [tableSize_eq, successive_eq_profiles]

/-- **A profile of what is kept has the row of its profile in the whole game.** -/
theorem row_restrict (g : Game) (hs : s ∈ profiles (kept.map List.length)) :
    (g.restrict kept).payoffs.getD ((g.restrict kept).profileIndex s) [] =
      g.payoffs.getD (g.profileIndex (inWhole kept s)) [] := by
  have hnumber : (g.restrict kept).profileIndex s = flatIndex (kept.map List.length) s :=
    profileIndex_of_strides rfl hs
  rw [hnumber, g.rows_restrict, List.getD_eq_getElem?_getD, List.getElem?_map,
    getElem?_flatIndex hs]
  rfl

/-- **A restricted game pays what the whole game pays.** -/
theorem payoff_restrict (g : Game) (hs : s ∈ profiles (kept.map List.length)) (p : ℕ) :
    (g.restrict kept).payoff p s = g.payoff p (inWhole kept s) := by
  show ((g.restrict kept).payoffs.getD ((g.restrict kept).profileIndex s) []).getD p 0 = _
  rw [g.row_restrict hs]
  rfl

/-- **When a restriction is not aborted, and what it gives.** -/
theorem restrict?_eq_ok_iff {g' : Game} :
    g.restrict? kept = .ok g' ↔ FitsWord (kept.map List.length) ∧ g.restrict kept = g' := by
  unfold restrict?
  cases hsize : tableSize? (kept.map List.length) with
  | none => simp [tableSize?_eq_none_iff.mp hsize]
  | some size => simp [(tableSize?_eq_some_iff.mp hsize).1]

theorem restrict?_eq_error (h : ¬FitsWord (kept.map List.length)) :
    g.restrict? kept = .error .sizeOverflow := by
  rw [restrict?, tableSize?_eq_none_iff.mpr h]

/-- A restriction has as many players as the game. -/
theorem numPlayers_restrict (h : Listing g.counts kept) :
    (g.restrict kept).numPlayers = g.numPlayers := by
  rw [← length_counts, counts_restrict h, List.length_map, h.length, length_counts]

/-- **A restriction that is not aborted might have been built.** -/
theorem build_restrict (hbuilt : build g.title g.players g.payoffs = .ok g)
    (h : Listing g.counts kept) (hfits : FitsWord (kept.map List.length)) :
    build (g.restrict kept).title (g.restrict kept).players (g.restrict kept).payoffs =
      .ok (g.restrict kept) := by
  obtain ⟨-, -, hwidths, -⟩ := build_eq_ok_iff.mp hbuilt
  rw [build_eq_ok_iff, counts_restrict h, numPlayers_restrict h]
  refine ⟨hfits, ?_, ?_, rfl⟩
  · rw [g.rows_restrict, List.length_map, length_profiles]
  · rw [g.rows_restrict, List.forall_mem_map]
    intro s hs
    have hindex := profileIndex_lt hbuilt (h.inWhole_mem hs)
    rw [List.getD_eq_getElem _ _ hindex]
    exact hwidths _ (List.getElem_mem _)

/-- **A restricted game is a valid game.** -/
theorem Valid.restrict (hvalid : g.Valid) (h : Selection g.counts kept) :
    (g.restrict kept).Valid := by
  have hcounts := counts_restrict h.listing
  have hplayers := numPlayers_restrict h.listing
  refine ⟨build_restrict hvalid.built h.listing (h.fitsWord hvalid.prod_lt),
    validate_eq_ok_iff.mpr ⟨?_, ?_⟩⟩
  · rw [← List.length_pos_iff]
    show 0 < (g.restrict kept).numPlayers
    rw [hplayers]
    exact hvalid.numPlayers_pos
  · intro player hplayer
    obtain ⟨q, hq, rfl⟩ := List.getElem_of_mem hplayer
    have hq' : q < g.counts.length := by
      rw [length_counts, ← hplayers]
      exact hq
    have hpos : 0 < (g.restrict kept).counts.getD q 0 := by
      rw [hcounts, getD_map_length]
      exact List.length_pos_iff.mpr (h.nonempty q hq')
    rw [counts, List.getD_eq_getElem _ _ (by simpa using hq), List.getElem_map] at hpos
    exact List.length_pos_iff.mp hpos

end Game

end Equilibria
