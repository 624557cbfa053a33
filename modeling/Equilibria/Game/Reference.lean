import Equilibria.Game.Basic

/-!
# Games with known equilibria

Small games by name: the standard examples, some with ties among best responses, some with
dominated strategies, some for three players or one.

Main definitions:

* `Reference.matrices` — a game from two matrices of integers;
* `Reference.table` — a game from payoffs that are computed from the pure profile;
* `Reference.find?` — a game by its name.
-/

namespace Equilibria

namespace Reference

/-- A matrix of integers as rationals. -/
def rationals (m : List (List Int)) : List (List Rat) := m.map fun row => row.map Rational.ofInt

/-- A game of two players from the matrix of each. -/
def matrices (title : String) (a b : List (List Int)) : Except GameFault Game :=
  Game.bimatrix title (rationals a) (rationals b)

/-- A game from the payoffs at each pure profile. -/
def table (title : String) (counts : List Nat) (payoffs : List Nat → List Int) :
    Except GameFault Game :=
  Game.build title
    (counts.mapIdx fun p n => Player.numbered ("Player " ++ toString (p + 1)) n)
    ((successive counts (tableSize counts) (zeroDigits counts)).map fun s =>
      (payoffs s).map Rational.ofInt)

/-- One if a statement holds, zero otherwise. -/
def indicator (b : Bool) : Int := if b then 1 else 0

/-- Both get one when they choose alike: two pure equilibria and a mixed one. -/
def coordination : Except GameFault Game :=
  matrices "Coordination" [[1, 0], [0, 1]] [[1, 0], [0, 1]]

/-- Cooperation is strictly dominated for both. -/
def prisonersDilemma : Except GameFault Game :=
  matrices "Prisoner's dilemma" [[3, 0], [5, 1]] [[3, 5], [0, 1]]

/-- Zero-sum, with the uniform equilibrium only. -/
def matchingPennies : Except GameFault Game :=
  matrices "Matching pennies" [[1, -1], [-1, 1]] [[-1, 1], [1, -1]]

/-- Zero-sum, with the uniform equilibrium only. -/
def rockPaperScissors : Except GameFault Game :=
  matrices "Rock, paper, scissors"
    [[0, -1, 1], [1, 0, -1], [-1, 1, 0]] [[0, 1, -1], [-1, 0, 1], [1, -1, 0]]

/-- Two pure equilibria and a mixed one. -/
def battleOfSexes : Except GameFault Game :=
  matrices "Battle of the sexes" [[2, 0], [0, 1]] [[1, 0], [0, 2]]

/-- A cycle of best responses, with the uniform equilibrium only. -/
def shapley : Except GameFault Game :=
  matrices "Shapley" [[1, 0, 0], [0, 1, 0], [0, 0, 1]] [[0, 1, 0], [0, 0, 1], [1, 0, 0]]

/-- The second player is indifferent everywhere, so that the equilibria form one segment. -/
def indifferentColumn : Except GameFault Game :=
  matrices "Indifferent column" [[1, 1], [0, 0]] [[1, 1], [1, 1]]

/-- The second player is indifferent against the first row: an isolated equilibrium and a segment. -/
def degenerateThreeByTwo : Except GameFault Game :=
  matrices "Degenerate 3x2" [[3, 3], [2, 5], [0, 6]] [[3, 3], [2, 6], [3, 1]]

/-- The first player has one strategy, and the second prefers the second one. -/
def singleRow : Except GameFault Game := matrices "Single row" [[0, 0, 0]] [[0, 2, 1]]

/-- Three rounds of elimination leave one profile. -/
def iteratedDominance : Except GameFault Game :=
  matrices "Iterated dominance" [[1, 1, 0], [0, 0, 2]] [[0, 2, 1], [3, 1, 0]]

/-- Everyone gets one when all three choose alike. -/
def threePlayerMatching : Except GameFault Game :=
  table "Three-player matching" [2, 2, 2] fun s =>
    List.replicate 3 (indicator (s.all fun x => x = s.getD 0 0))

/-- The first player's second strategy strictly dominates; the others want to choose alike. -/
def threePlayerDominance : Except GameFault Game :=
  table "Three-player dominance" [2, 2, 2] fun s =>
    let matched := indicator (s.getD 1 0 = s.getD 2 0)
    [(s.getD 0 0 : Int), matched, matched]

/-- The payoffs of `threePlayerCycle`, the last player's strategy varying fastest. -/
def cyclePayoffs : List (List Int) :=
  [[4, 0, 2], [1, 0, 1], [-4, -4, 0], [4, 2, -4], [-1, -2, 4], [3, 2, 5], [0, -1, -3], [3, -2, -1]]

/-- The linearized best responses alternate between two pure profiles. -/
def threePlayerCycle : Except GameFault Game :=
  table "Three-player cycle" [2, 2, 2] fun s =>
    cyclePayoffs.getD (4 * s.getD 0 0 + 2 * s.getD 1 0 + s.getD 2 0) []

/-- A row that is dominated weakly but not strictly. -/
def weakDominance : Except GameFault Game :=
  matrices "Weak dominance" [[1, 1], [1, 0]] [[1, 0], [0, 1]]

/-- One player with three strategies. -/
def solitaire : Except GameFault Game :=
  table "Solitaire" [3] fun s => [([1, 3, 2] : List Int).getD (s.getD 0 0) 0]

/-- The games by name. -/
def catalogue : List (String × Except GameFault Game) :=
  [("coordination", coordination), ("prisoners_dilemma", prisonersDilemma),
    ("matching_pennies", matchingPennies), ("rock_paper_scissors", rockPaperScissors),
    ("battle_of_sexes", battleOfSexes), ("shapley", shapley),
    ("indifferent_column", indifferentColumn),
    ("degenerate_three_by_two", degenerateThreeByTwo), ("single_row", singleRow),
    ("iterated_dominance", iteratedDominance), ("three_player_matching", threePlayerMatching),
    ("three_player_dominance", threePlayerDominance), ("three_player_cycle", threePlayerCycle),
    ("weak_dominance", weakDominance), ("solitaire", solitaire)]

/-- The game of a name. -/
def find? (name : String) : Option Game :=
  match catalogue.lookup name with
  | some (.ok g) => some g
  | _ => none

end Reference

end Equilibria
