import Mathlib
import Equilibria.Proofs.CarriedOutcomes

/-!
# Games that differ in scale, in order or in the seats of the players

Three changes to a game of two players that leave what is enumerated for it as it is, or carry it
along:

* `Game.rescale` — every player's payoffs times a positive number, plus what depends on the other
  player's strategy only;
* `Game.reorder` — every player's strategies in another order;
* `Game.exchange` — the players in the other order;
* `Bimatrix.isEquilibrium_rescale` — what is added is the same for all mixtures of a player, so that
  the comparison of two of them is scaled and nothing else;
* `Game.carries_rescale`, `Game.sound_reorder`, `Game.carries_exchange` — the changed game
  corresponds to the game;
* `Solution.find_symmetries` — hence the outcomes correspond.

The polytopes of the changed game are others, with other shifts and other paths through their bases.
What connects the two runs is the extreme equilibria alone.
-/

namespace Equilibria

open Matrix

namespace Bimatrix

variable {δ κ : Type*} [Fintype δ] [Fintype κ] {A : Matrix δ κ ℚ} {B : Matrix κ δ ℚ} {x x' : δ → ℚ}
  {y : κ → ℚ}

/-! ### Payoffs on another scale -/

/-- A player's payoffs times a number, plus what depends on the other player's strategy only. -/
def rescale (A : Matrix δ κ ℚ) (a : ℚ) (f : κ → ℚ) : Matrix δ κ ℚ :=
  Matrix.of fun i j => a * A i j + f j

theorem dotProduct_rescale (a : ℚ) (f : κ → ℚ) (hx : x ∈ stdSimplex ℚ δ) (y : κ → ℚ) :
    x ⬝ᵥ rescale A a f *ᵥ y = a * (x ⬝ᵥ A *ᵥ y) + f ⬝ᵥ y := by
  have hrow : rescale A a f *ᵥ y = a • A *ᵥ y + fun _ => f ⬝ᵥ y := by
    funext i
    show ∑ j, (a * A i j + f j) * y j = a * ∑ j, A i j * y j + ∑ j, f j * y j
    rw [Finset.mul_sum, ← Finset.sum_add_distrib]
    exact Finset.sum_congr rfl fun j _ => by ring
  have hconst : x ⬝ᵥ (fun _ => f ⬝ᵥ y) = f ⬝ᵥ y := by
    show ∑ i, x i * (f ⬝ᵥ y) = f ⬝ᵥ y
    rw [← Finset.sum_mul, hx.2, one_mul]
  rw [hrow, dotProduct_add, hconst, dotProduct_smul, smul_eq_mul]

/-- **Mixtures compare as before.** -/
theorem rescale_le_iff {a : ℚ} (ha : 0 < a) (f : κ → ℚ) (hx : x ∈ stdSimplex ℚ δ)
    (hx' : x' ∈ stdSimplex ℚ δ) :
    x' ⬝ᵥ rescale A a f *ᵥ y ≤ x ⬝ᵥ rescale A a f *ᵥ y ↔ x' ⬝ᵥ A *ᵥ y ≤ x ⬝ᵥ A *ᵥ y := by
  rw [dotProduct_rescale a f hx, dotProduct_rescale a f hx', add_le_add_iff_right,
    mul_le_mul_iff_right₀ ha]

/-- **Equilibria do not depend on the scale of the payoffs.** -/
theorem isEquilibrium_rescale {a b : ℚ} (ha : 0 < a) (hb : 0 < b) (f : κ → ℚ) (e : δ → ℚ) :
    IsEquilibrium (rescale A a f) (rescale B b e) x y ↔ IsEquilibrium A B x y := by
  constructor
  · intro h
    exact ⟨h.first_mem, h.second_mem,
      fun x' hx' => (rescale_le_iff ha f h.first_mem hx').mp (h.first_best x' hx'),
      fun y' hy' => (rescale_le_iff hb e h.second_mem hy').mp (h.second_best y' hy')⟩
  · intro h
    exact ⟨h.first_mem, h.second_mem,
      fun x' hx' => (rescale_le_iff ha f h.first_mem hx').mpr (h.first_best x' hx'),
      fun y' hy' => (rescale_le_iff hb e h.second_mem hy').mpr (h.second_best y' hy')⟩

end Bimatrix

namespace Game

variable {g : Game}

/-! ### Games from payoffs -/

/-- The game of two players in which the payoffs are computed from the pure profile. -/
def tabulate (title : String) (players : List Player) (u : Fin 2 → List ℕ → ℚ) : Game where
  title := title
  players := players
  payoffs := (profiles (players.map fun p => p.strategies.length)).map fun s =>
    List.ofFn fun p => u p s
  strides := stridesFrom 1 (players.map fun p => p.strategies.length)

section Tabulate

variable {title : String} {players : List Player} {u : Fin 2 → List ℕ → ℚ}

theorem valid_tabulate (hlength : players.length = 2) (hsome : ∀ p ∈ players, p.strategies ≠ [])
    (hprod : (players.map fun p => p.strategies.length).prod < UInt64.size) :
    (tabulate title players u).Valid := by
  refine ⟨build_eq_ok_iff.mpr ⟨?_, ?_, ?_, rfl⟩, validate_eq_ok_iff.mpr ⟨?_, hsome⟩⟩
  · exact fitsWord_of_prod_lt
      (List.forall_mem_map.mpr fun p hp => List.length_pos_iff.mpr (hsome p hp)) hprod
  · show (List.map _ (profiles _)).length = _
    rw [List.length_map, length_profiles]
    rfl
  · intro row hrow
    obtain ⟨s, -, rfl⟩ := List.mem_map.mp hrow
    exact List.length_ofFn.trans hlength.symm
  · exact List.length_pos_iff.mp (hlength ▸ Nat.two_pos)

theorem payoff_tabulate (hvalid : (tabulate title players u).Valid) {s : List ℕ}
    (hs : s ∈ profiles (players.map fun p => p.strategies.length)) (p : Fin 2) :
    (tabulate title players u).payoff p s = u p s := by
  have hrow := List.map_inj_left.mp hvalid.payoffs_eq s hs
  show ((tabulate title players u).payoffs.getD _ []).getD p 0 = _
  rw [← hrow]
  exact Reduction.getD_ofFn _ p

end Tabulate

/-- The extreme equilibria of a game are those of its matrices. -/
theorem extreme_iff_of_payoffs {m n : ℕ} (h₀ : g.numStrategies 0 = m) (h₁ : g.numStrategies 1 = n)
    {A : Matrix (Fin m) (Fin n) ℚ} {B : Matrix (Fin n) (Fin m) ℚ}
    (hA : ∀ i j, g.payoff 0 [i.val, j.val] = A i j) (hB : ∀ i j, g.payoff 1 [i.val, j.val] = B j i)
    {z : MixedProfile ℚ} : g.Extreme z ↔ ∃ x y, z = pairProfile x y ∧ Bimatrix.IsExtreme A B x y := by
  subst h₀ h₁
  obtain rfl : g.rowPayoffs = A := Matrix.ext fun i j => hA i j
  obtain rfl : g.columnPayoffs = B := Matrix.ext fun j i => hB i j
  exact Iff.rfl

/-! ### The three changes -/

/-- **The game on another scale**: player `p` gets `a p` times the payoff and, on top of that, what
`f p` gives for the strategy of the other player. -/
def rescale (g : Game) (a : Fin 2 → ℚ) (f : Fin 2 → ℕ → ℚ) : Game :=
  tabulate g.title g.players fun p s => a p * g.payoff p s + f p (s.getD (1 - p) 0)

/-- **The game with every player's strategies in another order**, as what is left of the game when
nothing is removed. -/
def reorder (g : Game) (orders : List (List ℕ)) : Reduction := ⟨g.restrict orders, orders, g.counts⟩

/-- **The game with the players in the other order.** -/
def exchange (g : Game) : Game :=
  tabulate g.title g.players.reverse fun p s => g.payoff (1 - p) s.reverse

end Game

/-- The profile with the players in the other order. -/
def MixedProfile.exchange (z : MixedProfile ℚ) : MixedProfile ℚ := ⟨z.probs.reverse⟩

namespace Game

variable {g : Game} (h : g.Valid) (htwo : g.numPlayers = 2)

include h htwo

theorem valid_rescale (a : Fin 2 → ℚ) (f : Fin 2 → ℕ → ℚ) : (g.rescale a f).Valid :=
  valid_tabulate htwo (validate_eq_ok_iff.mp h.accepted).2 h.prod_lt

theorem payoff_rescale (a : Fin 2 → ℚ) (f : Fin 2 → ℕ → ℚ) {s : List ℕ}
    (hs : s ∈ profiles g.counts) (p : Fin 2) :
    (g.rescale a f).payoff p s = a p * g.payoff p s + f p (s.getD (1 - p) 0) :=
  payoff_tabulate (valid_rescale h htwo a f) hs p

/-- **A game on another scale has the same extreme equilibria.** -/
theorem extreme_rescale_iff {a : Fin 2 → ℚ} (ha : ∀ p, 0 < a p) (f : Fin 2 → ℕ → ℚ)
    {z : MixedProfile ℚ} : (g.rescale a f).Extreme z ↔ g.Extreme z := by
  have hpays : ∀ (p : Fin 2) (i : Fin (g.numStrategies 0)) (j : Fin (g.numStrategies 1)),
      (g.rescale a f).payoff p [i.val, j.val] =
        a p * g.payoff p [i.val, j.val] + f p ([i.val, j.val].getD (1 - p) 0) := by
    intro p i j
    refine payoff_rescale h htwo a f ?_ p
    rw [counts_eq htwo]
    exact pair_mem_profiles.mpr ⟨i.isLt, j.isLt⟩
  have hmatrices : (g.rescale a f).Extreme z ↔ ∃ x y, z = pairProfile x y ∧
      Bimatrix.IsExtreme (Bimatrix.rescale g.rowPayoffs (a 0) fun j => f 0 j)
        (Bimatrix.rescale g.columnPayoffs (a 1) fun i => f 1 i) x y :=
    extreme_iff_of_payoffs rfl rfl (hpays 0) (hpays 1)
  rw [hmatrices]
  refine exists₂_congr fun x y => and_congr_right fun _ => ?_
  exact Bimatrix.isExtreme_congr fun _ _ => Bimatrix.isEquilibrium_rescale (ha 0) (ha 1) _ _

theorem carries_rescale {a : Fin 2 → ℚ} (ha : ∀ p, 0 < a p) (f : Fin 2 → ℕ → ℚ) :
    (g.rescale a f).Carries g 1 id where
  extreme_iff z := by simp only [extreme_rescale_iff h htwo ha f, id_eq, exists_eq_right]
  player_iff _ _ _ _ _ := Iff.rfl

omit htwo in
theorem sound_reorder {orders : List (List ℕ)}
    (horders : List.Forall₂ (fun order n => order.Perm (List.range n)) orders g.counts) :
    Reduction.Sound g (g.reorder orders) := by
  have hselection := Reduction.selection_of_perm h horders
  have hshape := counts_restrict hselection.listing
  refine Reduction.sound_of_perm h (h.restrict hselection) rfl horders hshape fun s hs p => ?_
  exact g.payoff_restrict (hshape ▸ hs) p

theorem valid_exchange : g.exchange.Valid := by
  refine valid_tabulate (by rw [List.length_reverse]; exact htwo) (fun p hp => ?_) ?_
  · exact (validate_eq_ok_iff.mp h.accepted).2 p (List.mem_reverse.mp hp)
  · rw [List.map_reverse, (List.reverse_perm _).prod_eq]
    exact h.prod_lt

omit h in
theorem counts_exchange : g.exchange.counts = [g.numStrategies 1, g.numStrategies 0] := by
  show g.players.reverse.map (fun p => p.strategies.length) = _
  rw [List.map_reverse]
  exact congrArg List.reverse (counts_eq htwo)

theorem payoff_exchange {s : List ℕ} (hs : s ∈ profiles g.exchange.counts) (p : Fin 2) :
    g.exchange.payoff p s = g.payoff (1 - p) s.reverse :=
  payoff_tabulate (valid_exchange h htwo) hs p

/-- **The extreme equilibria of the exchanged game are the exchanged ones.** -/
theorem extreme_exchange_iff {z : MixedProfile ℚ} : g.exchange.Extreme z ↔
    ∃ y x, z = pairProfile y x ∧ Bimatrix.IsExtreme g.columnPayoffs g.rowPayoffs y x := by
  have hpays : ∀ (p : Fin 2) (j : Fin (g.numStrategies 1)) (i : Fin (g.numStrategies 0)),
      g.exchange.payoff p [j.val, i.val] = g.payoff (1 - p) [i.val, j.val] := by
    intro p j i
    refine payoff_exchange h htwo ?_ p
    rw [counts_exchange htwo]
    exact pair_mem_profiles.mpr ⟨j.isLt, i.isLt⟩
  refine extreme_iff_of_payoffs ?_ ?_ (hpays 0) (hpays 1)
  · rw [numStrategies, counts_exchange htwo]
    rfl
  · rw [numStrategies, counts_exchange htwo]
    rfl

theorem carries_exchange :
    g.exchange.Carries g (Equiv.swap 0 1) MixedProfile.exchange where
  extreme_iff z := by
    constructor
    · rintro ⟨x, y, rfl, hxy⟩
      exact ⟨pairProfile y x, (extreme_exchange_iff h htwo).mpr ⟨y, x, rfl, hxy.swap⟩, rfl⟩
    · rintro ⟨w, hw, rfl⟩
      obtain ⟨y, x, rfl, hyx⟩ := (extreme_exchange_iff h htwo).mp hw
      exact ⟨x, y, rfl, hyx.swap⟩
  player_iff z w hz hw := by
    obtain ⟨y, x, rfl, -⟩ := (extreme_exchange_iff h htwo).mp hz
    obtain ⟨y', x', rfl, -⟩ := (extreme_exchange_iff h htwo).mp hw
    exact Fin.forall_fin_two.mpr ⟨Iff.rfl, Iff.rfl⟩

end Game

/-- **What is enumerated does not depend on the scale of the payoffs, and follows the strategies and
the players.**  The profiles, their cliques and the maximal subsets stay as they are when each
player's payoffs are multiplied by a positive number and changed by what depends on the other
player's strategy only; they are carried along when strategies are put in another order and when the
players are exchanged. -/
theorem Solution.find_symmetries (g : Game) (h : g.Valid) (htwo : g.numPlayers = 2)
    (a : Fin 2 → ℚ) (ha : ∀ p, 0 < a p) (f : Fin 2 → ℕ → ℚ) (orders : List (List ℕ))
    (horders : List.Forall₂ (fun order n => order.Perm (List.range n)) orders g.counts) :
    ∃ s : Solution ℚ, find Polytope.vertices g = .ok s ∧
      (∃ t, find Polytope.vertices (g.rescale a f) = .ok t ∧ t.CarriedTo id s) ∧
      (∃ t, find Polytope.vertices (g.reorder orders).game = .ok t ∧
        t.CarriedTo (g.reorder orders).expand s) ∧
      ∃ t, find Polytope.vertices g.exchange = .ok t ∧ t.CarriedTo MixedProfile.exchange s := by
  have hsound := Game.sound_reorder h horders
  obtain ⟨s, -, -, hfind, -⟩ := exists_enumerates h htwo
  refine ⟨s, hfind, ?_, ?_, ?_⟩
  · exact (Game.carries_rescale h htwo ha f).find (Game.valid_rescale h htwo a f) htwo h htwo hfind
  · exact (hsound.carries h htwo).find hsound.valid (hsound.players_left htwo) h htwo hfind
  · refine (Game.carries_exchange h htwo).find (Game.valid_exchange h htwo) ?_ h htwo hfind
    rw [← Game.length_counts, Game.counts_exchange htwo]
    rfl

/-- The dilemma on other scales, with the first player's strategies turned over, and with the players
exchanged. -/
theorem Solution.find_symmetries_dilemma :
    Game.dilemma.Valid ∧ Game.dilemma.numPlayers = 2 ∧ (∀ p, 0 < (![2, 1 / 3] : Fin 2 → ℚ) p) ∧
      List.Forall₂ (fun order n => order.Perm (List.range n)) [[1, 0], [0, 1]] Game.dilemma.counts ∧
      ∃ s : Solution ℚ, find Polytope.vertices Game.dilemma = .ok s ∧
        (∃ t, find Polytope.vertices (Game.dilemma.rescale ![2, 1 / 3] fun p j => p - 4 * j) = .ok t ∧
          t.CarriedTo id s) ∧
        (∃ t, find Polytope.vertices (Game.dilemma.reorder [[1, 0], [0, 1]]).game = .ok t ∧
          t.CarriedTo (Game.dilemma.reorder [[1, 0], [0, 1]]).expand s) ∧
        ∃ t, find Polytope.vertices Game.dilemma.exchange = .ok t ∧
          t.CarriedTo MixedProfile.exchange s :=
  have hpos : ∀ p, 0 < (![2, 1 / 3] : Fin 2 → ℚ) p := by decide +kernel
  have horders : List.Forall₂ (fun order n => order.Perm (List.range n)) [[1, 0], [0, 1]]
      Game.dilemma.counts := .cons (.swap 0 1 []) (.cons (.refl _) .nil)
  ⟨Game.valid_dilemma, rfl, hpos, horders,
    find_symmetries Game.dilemma Game.valid_dilemma rfl _ hpos _ _ horders⟩

end Equilibria
