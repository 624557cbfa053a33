import Mathlib
import Equilibria.Approximation.Polymatrix
import Equilibria.Proofs.ComplementarySolutions
import Equilibria.Proofs.GroupedLists
import Equilibria.Proofs.PairValues

/-!
# The problem of a linearized game

The complementarity problem of a game linearized at a profile, entry by entry.  A player's strategy and
a player's payoff level each have a row and a column:

* `place`, `getD_flatten`, `sum_range_place` — where the entries of lists stand that are put one after
  another;
* `Polymatrix.term`, `Polymatrix.cost`, `Polymatrix.one_le_cost` — the entries of the terms, and what a
  strategy costs against another player's strategy, at least one;
* `Polymatrix.square_lcp` — the problem has the shape it needs;
* `Polymatrix.sum_strategy`, `Polymatrix.sum_level` — what the rows say of any values.
-/

namespace Equilibria

open Finset (range)

/-! ### Lists put one after another -/

section

variable {counts : List ℕ} {β : Type}

/-- The place of entry `a` of list `p` when lists of the given lengths are put one after another. -/
def place (counts : List ℕ) (p a : ℕ) : ℕ := (counts.take p).sum + a

theorem place_zero (counts : List ℕ) (a : ℕ) : place counts 0 a = a := Nat.zero_add a

theorem place_succ (n : ℕ) (ns : List ℕ) (p a : ℕ) :
    place (n :: ns) (p + 1) a = n + place ns p a := by
  rw [place, List.take_succ_cons, List.sum_cons, Nat.add_assoc]
  rfl

theorem place_lt {p a : ℕ} (ha : a < counts.getD p 0) : place counts p a < counts.sum := by
  induction counts generalizing p with
  | nil => exact absurd ha (Nat.not_lt_zero a)
  | cons n ns ih =>
    rw [List.sum_cons]
    cases p with
    | zero =>
      rw [place_zero]
      exact Nat.lt_add_right _ ha
    | succ p =>
      rw [place_succ]
      exact Nat.add_lt_add_left (ih ha) n

theorem exists_place {i : ℕ} (hi : i < counts.sum) :
    ∃ p < counts.length, ∃ a < counts.getD p 0, place counts p a = i := by
  induction counts generalizing i with
  | nil => exact absurd hi (Nat.not_lt_zero i)
  | cons n ns ih =>
    by_cases hin : i < n
    · exact ⟨0, Nat.succ_pos _, i, hin, place_zero _ _⟩
    · obtain ⟨j, rfl⟩ := Nat.exists_eq_add_of_le (not_lt.mp hin)
      rw [List.sum_cons] at hi
      obtain ⟨p, hp, a, ha, rfl⟩ := ih (Nat.lt_of_add_lt_add_left hi)
      exact ⟨p + 1, Nat.succ_lt_succ hp, a, ha, place_succ _ _ _ _⟩

/-- A sum over all places is a sum over the lists and their entries. -/
theorem sum_range_place (counts : List ℕ) (f : ℕ → ℚ) : ∑ i ∈ range counts.sum, f i =
    ∑ p ∈ range counts.length, ∑ a ∈ range (counts.getD p 0), f (place counts p a) := by
  induction counts generalizing f with
  | nil => rfl
  | cons n ns ih =>
    rw [List.sum_cons, Finset.sum_range_add, List.length_cons, Finset.sum_range_succ', ih, add_comm]
    congr 1
    · refine Finset.sum_congr rfl fun p _ => Finset.sum_congr rfl fun a _ => ?_
      rw [place_succ]
    · refine Finset.sum_congr rfl fun a _ => ?_
      rw [place_zero]

theorem getD_flatten (d : β) {rows : List (List β)} (hcounts : rows.map List.length = counts)
    {p a : ℕ} (ha : a < counts.getD p 0) :
    rows.flatten.getD (place counts p a) d = (rows.getD p []).getD a d := by
  subst hcounts
  induction rows generalizing p with
  | nil => exact absurd ha (Nat.not_lt_zero a)
  | cons row rows ih =>
    rw [List.flatten_cons, List.map_cons]
    cases p with
    | zero =>
      rw [place_zero]
      exact List.getD_append _ _ _ _ ha
    | succ p =>
      rw [place_succ, List.getD_append_right _ _ _ _ (Nat.le_add_right _ _), Nat.add_sub_cancel_left]
      exact ih ha

theorem length_flatten_of_map {rows : List (List β)} (hcounts : rows.map List.length = counts) :
    rows.flatten.length = counts.sum := by
  rw [List.length_flatten, hcounts]

theorem map_length_portions {z : List β} (hz : counts.sum ≤ z.length) :
    (Seed.portions counts z).map List.length = counts := by
  induction counts generalizing z with
  | nil => rfl
  | cons n ns ih =>
    rw [List.sum_cons] at hz
    rw [Seed.portions, List.map_cons, List.length_take, ih (by rw [List.length_drop]; omega),
      min_eq_left (by omega)]

/-- The portions put one after another again. -/
theorem flatten_portions (counts : List ℕ) (z : List β) :
    (Seed.portions counts z).flatten = z.take counts.sum := by
  induction counts generalizing z with
  | nil => rfl
  | cons n ns ih => rw [Seed.portions, List.flatten_cons, ih, List.sum_cons, List.take_add]

/-- Lists put one after another are the portions again. -/
theorem portions_flatten {rows : List (List β)} (hcounts : rows.map List.length = counts)
    (rest : List β) : Seed.portions counts (rows.flatten ++ rest) = rows := by
  subst hcounts
  induction rows with
  | nil => rfl
  | cons row rows ih =>
    rw [List.map_cons, Seed.portions, List.flatten_cons, List.append_assoc, List.take_left,
      List.drop_left, ih]

end

namespace Polymatrix

/-! ### Sizes -/

section

variable {α : Type} (t : Payoffs α)

theorem map_count_players : (players t).map t.count = t.counts := map_getD_range t.counts 0

/-- Something for each strategy, player by player. -/
theorem map_length_players {β : Type} (f : ℕ → ℕ → β) :
    ((players t).map fun p => (List.range (t.count p)).map (f p)).map List.length = t.counts := by
  rw [List.map_map, ← map_count_players t]
  refine List.map_congr_left fun p _ => ?_
  show ((List.range (t.count p)).map _).length = t.count p
  rw [List.length_map, List.length_range]

theorem size_lcp [Scalar α] (x : MixedProfile α) :
    (lcp t x).size = t.counts.sum + t.numPlayers := by
  rw [lcp, Lcp.size, List.length_append, List.length_map,
    length_flatten_of_map (map_length_players t _), List.length_map, players, List.length_range]

end

variable (t : Payoffs ℚ) (x : MixedProfile ℚ) (p q : ℕ)

/-! ### Terms and costs -/

theorem map_length_block : (block t x p q).map List.length =
    List.replicate (t.count p) (t.count q) := by
  have hpairs := t.map_length_pairValues x p q
  have hlength : (t.pairValues x p q).length = (t.strategyValues x p).length := by
    rw [t.length_strategyValues, ← List.length_map List.length, hpairs, List.length_replicate]
  rw [← hpairs, block, List.map_zipWith]
  apply List.ext_getElem
  · simp [hlength]
  · intro i hi hi'
    simp

/-- An entry of the term of a pair of players. -/
def term (a b : ℕ) : ℚ := ((block t x p q).getD a []).getD b 0

/-- The ceiling above all entries. -/
def top : ℚ := ceiling ((players t).map (blocksOf t x))

/-- What a strategy costs a player against a strategy of another one. -/
def cost (a b : ℕ) : ℚ := if q = p then 0 else top t x - term t x p q a b

/-- The largest entry is one that none exceeds. -/
theorem le_foldl_largest (entries : List ℚ) (found : Option ℚ) :
    (∀ b, found = some b → b ≤ (entries.foldl largest? found).getD 0) ∧
      ∀ v ∈ entries, v ≤ (entries.foldl largest? found).getD 0 := by
  induction entries generalizing found with
  | nil =>
    refine ⟨fun b hb => ?_, fun v hv => absurd hv List.not_mem_nil⟩
    rw [hb]
    exact le_rfl
  | cons v entries ih =>
    obtain ⟨b, hb, hv, hfound⟩ : ∃ b, largest? found v = some b ∧ v ≤ b ∧ ∀ c, found = some c → c ≤ b := by
      cases found with
      | none => exact ⟨v, if_pos le_rfl, le_rfl, fun c hc => by cases hc⟩
      | some c =>
        by_cases hlt : c < v
        · exact ⟨v, if_pos hlt, le_rfl, fun e he => Option.some.inj he ▸ hlt.le⟩
        · exact ⟨c, if_neg hlt, not_lt.mp hlt, fun e he => (Option.some.inj he).ge⟩
    obtain ⟨hbest, hrest⟩ := ih (largest? found v)
    rw [List.foldl_cons]
    refine ⟨fun c hc => (hfound c hc).trans (hbest b hb), ?_⟩
    rw [List.forall_mem_cons]
    exact ⟨hv.trans (hbest b hb), hrest⟩

variable {t x p q} {a b : ℕ}

theorem length_getD_block (ha : a < t.count p) :
    ((block t x p q).getD a []).length = t.count q := by
  have hshape := getD_map_length (block t x p q) a
  rw [map_length_block, List.getD_replicate _ ha] at hshape
  exact hshape.symm

theorem term_mem (ha : a < t.count p) (hb : b < t.count q) :
    term t x p q a b ∈ (block t x p q).flatten := by
  have hlength : a < (block t x p q).length := by
    rw [← List.length_map List.length, map_length_block, List.length_replicate]
    exact ha
  have hrow := length_getD_block (x := x) (q := q) ha
  rw [term, List.getD_eq_getElem _ _ (by rwa [hrow])]
  refine List.mem_flatten.mpr ⟨_, ?_, List.getElem_mem _⟩
  rw [List.getD_eq_getElem _ _ hlength]
  exact List.getElem_mem hlength

/-- **A strategy costs at least one** against a strategy of any other player. -/
theorem one_le_cost (hp : p < t.numPlayers) (hq : q < t.numPlayers) (hne : q ≠ p)
    (ha : a < t.count p) (hb : b < t.count q) : 1 ≤ cost t x p q a b := by
  have hblock : some (block t x p q) ∈ ((players t).map (blocksOf t x)).flatten := by
    refine List.mem_flatten.mpr ⟨blocksOf t x p, List.mem_map_of_mem (List.mem_range.mpr hp), ?_⟩
    exact List.mem_map.mpr ⟨q, List.mem_range.mpr hq, if_neg hne⟩
  have hentry : term t x p q a b ∈
      ((((players t).map (blocksOf t x)).flatten.map fun b => (b.getD []).flatten).flatten) :=
    List.mem_flatten.mpr ⟨_, List.mem_map.mpr ⟨_, hblock, rfl⟩, term_mem ha hb⟩
  have hle := (le_foldl_largest _ none).2 _ hentry
  have htop : top t x = (List.foldl largest? none
      (((players t).map (blocksOf t x)).flatten.map fun b => (b.getD []).flatten).flatten).getD 0 + 1 :=
    rfl
  rw [cost, if_neg hne, htop]
  linarith

/-! ### The rows -/

variable (t x)

/-- The rows of the strategies, player by player. -/
def strategyRows : List (List (List ℚ)) :=
  (players t).map fun p => (List.range (t.count p)).map fun a =>
    strategyRow t (top t x) (((players t).map (blocksOf t x)).getD p []) p a

theorem lcp_eq : lcp t x = ⟨(strategyRows t x).flatten ++ (players t).map (levelRow t),
    (strategyRows t x).flatten.map (fun _ => 0) ++ (players t).map fun _ => -1⟩ := rfl

theorem map_length_strategyRows : (strategyRows t x).map List.length = t.counts :=
  map_length_players t _

theorem length_flatten_strategyRows : (strategyRows t x).flatten.length = t.counts.sum :=
  length_flatten_of_map (map_length_strategyRows t x)

variable {t}

theorem getD_map_players {β : Type} (d : β) (f : ℕ → β) (hp : p < t.numPlayers) :
    ((players t).map f).getD p d = f p := by
  rw [List.getD_eq_getElem _ _ (by simpa [players] using hp), List.getElem_map]
  simp [players]

theorem row_strategy (hp : p < t.numPlayers) (ha : a < t.count p) :
    (lcp t x).matrix.getD (place t.counts p a) [] = strategyRow t (top t x) (blocksOf t x p) p a := by
  have hlt : place t.counts p a < (strategyRows t x).flatten.length := by
    rw [length_flatten_strategyRows]
    exact place_lt ha
  rw [lcp_eq, List.getD_append _ _ _ _ hlt, getD_flatten _ (map_length_strategyRows t x) ha,
    strategyRows, getD_map_players _ _ hp, getD_map_players _ _ hp,
    List.getD_eq_getElem _ _ (by simpa using ha), List.getElem_map, List.getElem_range]

theorem row_level (hp : p < t.numPlayers) :
    (lcp t x).matrix.getD (t.counts.sum + p) [] = levelRow t p := by
  rw [lcp_eq, List.getD_append_right _ _ _ _ (by rw [length_flatten_strategyRows]; omega),
    length_flatten_strategyRows, Nat.add_sub_cancel_left, getD_map_players _ _ hp]

/-- The costs of a player's strategy against each player, as they stand in its row. -/
theorem getD_costs (hq : q < t.numPlayers) :
    (((blocksOf t x p).zipIdx.map (costs (top t x) t.counts a)).getD q []) =
      costs (top t x) t.counts a (if q = p then none else some (block t x p q), q) := by
  have hlt : q < (blocksOf t x p).length := by
    rw [blocksOf, List.length_map, players, List.length_range]
    exact hq
  rw [List.getD_eq_getElem _ _ (by simpa using hlt), List.getElem_map, List.getElem_zipIdx]
  simp [blocksOf, players]

theorem length_costs (ha : a < t.count p) :
    (costs (top t x) t.counts a (if q = p then none else some (block t x p q), q)).length =
      t.count q := by
  by_cases hqp : q = p
  · rw [if_pos hqp]
    exact List.length_replicate
  · rw [if_neg hqp]
    show (((block t x p q).getD a []).map _).length = t.count q
    rw [List.length_map, length_getD_block ha]

theorem entry_costs (ha : a < t.count p) (hb : b < t.count q) :
    (costs (top t x) t.counts a (if q = p then none else some (block t x p q), q)).getD b 0 =
      cost t x p q a b := by
  unfold cost
  by_cases hqp : q = p
  · rw [if_pos hqp, if_pos hqp]
    exact List.getD_replicate _ hb
  · rw [if_neg hqp, if_neg hqp]
    have hlt : b < ((block t x p q).getD a []).length := by rwa [length_getD_block ha]
    show (((block t x p q).getD a []).map fun v => top t x - v).getD b 0 = _
    rw [List.getD_eq_getElem _ _ (by rwa [List.length_map]), List.getElem_map, term,
      List.getD_eq_getElem _ _ hlt]

theorem map_length_costs (ha : a < t.count p) :
    ((blocksOf t x p).zipIdx.map (costs (top t x) t.counts a)).map List.length = t.counts := by
  have hlength : (blocksOf t x p).length = t.counts.length := by
    rw [blocksOf, List.length_map, players, List.length_range]
    rfl
  apply List.ext_getElem
  · simp [hlength]
  · intro q hq hq'
    have hcosts := getD_costs x (p := p) (a := a) (show q < t.numPlayers from hq')
    rw [List.getD_eq_getElem _ _ (by simpa using hq)] at hcosts
    rw [List.getElem_map, hcosts, length_costs x ha, Payoffs.count, List.getD_eq_getElem _ _ hq']

theorem length_strategyRow (ha : a < t.count p) :
    (strategyRow t (top t x) (blocksOf t x p) p a).length = (lcp t x).size := by
  rw [strategyRow, List.length_append, length_flatten_of_map (map_length_costs x ha), List.length_map,
    players, List.length_range, size_lcp]

theorem map_length_levelBlocks (t : Payoffs ℚ) (p : ℕ) :
    ((players t).map fun q => List.replicate (t.count q) (if q = p then (1 : ℚ) else 0)).map
      List.length = t.counts := by
  rw [List.map_map]
  refine Eq.trans ?_ (map_count_players t)
  exact List.map_congr_left fun q _ => List.length_replicate

theorem length_levelRow (p : ℕ) : (levelRow t p).length = (lcp t x).size := by
  rw [levelRow, List.length_append, length_flatten_of_map (map_length_levelBlocks t p), List.length_map,
    players, List.length_range, size_lcp]

/-- **The problem has the shape it needs.** -/
theorem square_lcp (t : Payoffs ℚ) (x : MixedProfile ℚ) : (lcp t x).Square where
  rows := by
    rw [size_lcp, lcp_eq]
    show ((strategyRows t x).flatten ++ (players t).map (levelRow t)).length = _
    rw [List.length_append, length_flatten_strategyRows, List.length_map, players, List.length_range]
  rectangular := by
    intro row hrow
    rw [lcp_eq] at hrow
    cases List.mem_append.mp hrow with
    | inl hstrategy =>
      obtain ⟨rows, hrows, hrow⟩ := List.mem_flatten.mp hstrategy
      obtain ⟨p, hp, rfl⟩ := List.mem_map.mp hrows
      obtain ⟨a, ha, rfl⟩ := List.mem_map.mp hrow
      rw [getD_map_players _ _ (List.mem_range.mp hp)]
      exact length_strategyRow x (List.mem_range.mp ha)
    | inr hlevel =>
      obtain ⟨p, -, rfl⟩ := List.mem_map.mp hlevel
      exact length_levelRow x p

/-! ### The entries -/

theorem coefficient_strategy_strategy (hp : p < t.numPlayers) (ha : a < t.count p)
    (hq : q < t.numPlayers) (hb : b < t.count q) :
    (lcp t x).coefficient (place t.counts p a) (place t.counts q b) = cost t x p q a b := by
  have hlt : place t.counts q b <
      ((blocksOf t x p).zipIdx.map (costs (top t x) t.counts a)).flatten.length := by
    rw [length_flatten_of_map (map_length_costs x ha)]
    exact place_lt hb
  rw [Lcp.coefficient, row_strategy x hp ha, strategyRow, List.getD_append _ _ _ _ hlt,
    getD_flatten _ (map_length_costs x ha) hb, getD_costs x hq, entry_costs x ha hb]

theorem coefficient_strategy_level (hp : p < t.numPlayers) (ha : a < t.count p)
    (hq : q < t.numPlayers) :
    (lcp t x).coefficient (place t.counts p a) (t.counts.sum + q) = if q = p then -1 else 0 := by
  have hlength := length_flatten_of_map (map_length_costs x ha)
  rw [Lcp.coefficient, row_strategy x hp ha, strategyRow,
    List.getD_append_right _ _ _ _ (by rw [hlength]; omega), hlength, Nat.add_sub_cancel_left,
    getD_map_players _ _ hq]

theorem coefficient_level_strategy (hp : p < t.numPlayers) (hq : q < t.numPlayers)
    (hb : b < t.count q) :
    (lcp t x).coefficient (t.counts.sum + p) (place t.counts q b) = if q = p then 1 else 0 := by
  have hlength := length_flatten_of_map (map_length_levelBlocks t p)
  rw [Lcp.coefficient, row_level x hp, levelRow,
    List.getD_append _ _ _ _ (by rw [hlength]; exact place_lt hb),
    getD_flatten _ (map_length_levelBlocks t p) hb, getD_map_players _ _ hq]
  exact List.getD_replicate _ hb

theorem coefficient_level_level (hp : p < t.numPlayers) (hq : q < t.numPlayers) :
    (lcp t x).coefficient (t.counts.sum + p) (t.counts.sum + q) = 0 := by
  have hlength := length_flatten_of_map (map_length_levelBlocks t p)
  rw [Lcp.coefficient, row_level x hp, levelRow,
    List.getD_append_right _ _ _ _ (by rw [hlength]; omega), hlength, Nat.add_sub_cancel_left,
    getD_map_players _ _ hq]

theorem constant_strategy (ha : a < t.count p) :
    (lcp t x).constant (place t.counts p a) = 0 := by
  have hlt : place t.counts p a < (strategyRows t x).flatten.length := by
    rw [length_flatten_strategyRows]
    exact place_lt ha
  rw [Lcp.constant, lcp_eq, List.getD_append _ _ _ _ (by rwa [List.length_map]),
    List.getD_eq_getElem _ _ (by rwa [List.length_map]), List.getElem_map]

theorem constant_level (hp : p < t.numPlayers) :
    (lcp t x).constant (t.counts.sum + p) = -1 := by
  have hlength := length_flatten_strategyRows t x
  rw [Lcp.constant, lcp_eq,
    List.getD_append_right _ _ _ _ (by rw [List.length_map, hlength]; omega), List.length_map, hlength,
    Nat.add_sub_cancel_left, getD_map_players _ _ hp]

/-! ### What the rows say -/

/-- The sum over all columns, first those of strategies and then those of levels. -/
theorem sum_columns (f : ℕ → ℚ) : ∑ i ∈ range (lcp t x).size, f i =
    ∑ q ∈ range t.numPlayers, ∑ b ∈ range (t.count q), f (place t.counts q b) +
      ∑ q ∈ range t.numPlayers, f (t.counts.sum + q) := by
  rw [size_lcp, Finset.sum_range_add, sum_range_place]
  rfl

/-- **The row of a strategy**: its costs less the level. -/
theorem sum_strategy (hp : p < t.numPlayers) (ha : a < t.count p) (f : ℕ → ℚ) :
    ∑ i ∈ range (lcp t x).size, (lcp t x).coefficient (place t.counts p a) i * f i =
      ∑ q ∈ range t.numPlayers, ∑ b ∈ range (t.count q), cost t x p q a b * f (place t.counts q b) -
        f (t.counts.sum + p) := by
  have hlevels : ∑ q ∈ range t.numPlayers, (lcp t x).coefficient (place t.counts p a)
      (t.counts.sum + q) * f (t.counts.sum + q) = -f (t.counts.sum + p) := by
    rw [Finset.sum_eq_single_of_mem p (Finset.mem_range.mpr hp),
      coefficient_strategy_level x hp ha hp, if_pos rfl, neg_one_mul]
    intro q hq hne
    rw [coefficient_strategy_level x hp ha (Finset.mem_range.mp hq), if_neg hne, zero_mul]
  rw [sum_columns, hlevels, ← sub_eq_add_neg]
  congr 1
  refine Finset.sum_congr rfl fun q hq => Finset.sum_congr rfl fun b hb => ?_
  rw [coefficient_strategy_strategy x hp ha (Finset.mem_range.mp hq) (Finset.mem_range.mp hb)]

/-- **The row of a level**: the player's weights. -/
theorem sum_level (hp : p < t.numPlayers) (f : ℕ → ℚ) :
    ∑ i ∈ range (lcp t x).size, (lcp t x).coefficient (t.counts.sum + p) i * f i =
      ∑ b ∈ range (t.count p), f (place t.counts p b) := by
  have hlevels : ∑ q ∈ range t.numPlayers, (lcp t x).coefficient (t.counts.sum + p)
      (t.counts.sum + q) * f (t.counts.sum + q) = 0 := by
    refine Finset.sum_eq_zero fun q hq => ?_
    rw [coefficient_level_level x hp (Finset.mem_range.mp hq), zero_mul]
  rw [sum_columns, hlevels, add_zero, Finset.sum_eq_single_of_mem p (Finset.mem_range.mpr hp)]
  · refine Finset.sum_congr rfl fun b hb => ?_
    rw [coefficient_level_strategy x hp hp (Finset.mem_range.mp hb), if_pos rfl, one_mul]
  · intro q hq hne
    refine Finset.sum_eq_zero fun b hb => ?_
    rw [coefficient_level_strategy x hp (Finset.mem_range.mp hq) (Finset.mem_range.mp hb), if_neg hne,
      zero_mul]

end Polymatrix

end Equilibria
