import Equilibria.Failure

/-!
# Finite games in strategic form

A game gives every player a finite list of strategies and every choice of one strategy per player a
row of payoffs, one per player.  The rows stand in one table in mixed radix order, the first
player's strategy varying fastest; the stride of a player is the distance of two rows that differ
by one in that player's strategy.

Main definitions:

* `Player`, `Game` — players with their strategies, and the table;
* `Game.build`, `Game.bimatrix` — games from a table and from two matrices, shapes checked;
* `Game.validate` — the conditions under which a game can be solved;
* `Game.profileIndex`, `Game.decode` — from a pure profile to its row and back;
* `advance`, `successive` — the counter that runs through the profiles in the order of the table;
* `Game.payoff`, `Game.matrix` — payoffs looked up;
* `Game.restrict` — the game in which only some strategies are left.

Sizes and indices are machine words, and a run is aborted when one leaves the word: `tableSize?`,
`Game.profileIndex?` and `Game.restrict?` are the same as without a question mark as long as all
that is computed on the way stays below `2 ^ 64`, and nothing otherwise.
-/

namespace Equilibria

/-! ### Words and counters -/

/-- A size, if a machine word of 64 bits holds it. -/
def word? (n : Nat) : Option Nat := if n < UInt64.size then some n else none

/-- The number of rows for the given strategy counts. -/
def tableSize (counts : List Nat) : Nat := counts.foldl (fun size n => size * n) 1

/-- The number of rows, multiplied up from the first count on.  A product that leaves the word is not
made up for by a zero that comes later. -/
def tableSize? (counts : List Nat) : Option Nat := counts.foldlM (fun size n => word? (size * n)) 1

/-- The strides of players with the given strategy counts, the first of them being `stride`. -/
def stridesFrom (stride : Nat) : List Nat → List Nat
  | [] => []
  | n :: ns => stride :: stridesFrom (stride * n) ns

/-- Adds one to a number in mixed radix, first digit fastest.  The largest number becomes zero. -/
def advance : List Nat → List Nat → List Nat
  | d :: ds, n :: ns => if d + 1 < n then (d + 1) :: ds else 0 :: advance ds ns
  | ds, [] => ds
  | [], _ => []

/-- The `n` numbers in mixed radix that come one after another, starting with `digits`. -/
def successive (radix : List Nat) : Nat → List Nat → List (List Nat)
  | 0, _ => []
  | n + 1, digits => digits :: successive radix n (advance digits radix)

/-- The zero of a mixed radix. -/
def zeroDigits (radix : List Nat) : List Nat := List.replicate radix.length 0

/-! ### Players and games -/

/-- A player: a name and a label for every strategy. -/
structure Player where
  /-- The name. -/
  name : String
  /-- The labels of the strategies. -/
  strategies : List String
  deriving Repr, DecidableEq

/-- A player with `n` strategies labelled by their numbers from one on. -/
def Player.numbered (name : String) (n : Nat) : Player :=
  ⟨name, (List.range n).map fun s => toString (s + 1)⟩

/-- A game. -/
structure Game where
  /-- The title. -/
  title : String
  /-- The players in order. -/
  players : List Player
  /-- One row per pure profile, one entry per player in each. -/
  payoffs : List (List Rat)
  /-- The distance of rows that differ by one in a player's strategy. -/
  strides : List Nat
  deriving Repr, DecidableEq

namespace Game

/-- The number of players. -/
def numPlayers (g : Game) : Nat := g.players.length

/-- The number of strategies of every player. -/
def counts (g : Game) : List Nat := g.players.map fun p => p.strategies.length

/-- The number of strategies of a player. -/
def numStrategies (g : Game) (player : Nat) : Nat := g.counts.getD player 0

/-- The number of rows in the table. -/
def numProfiles (g : Game) : Nat := g.payoffs.length

/-- A game from its table, if there is a row for every pure profile and an entry for every player
in each row.  A player without strategies is accepted here and refused by `validate`. -/
def build (title : String) (players : List Player) (payoffs : List (List Rat)) :
    Except GameFault Game :=
  let counts := players.map fun p => p.strategies.length
  match tableSize? counts with
  | none => .error .sizeOverflow
  | some size =>
    if payoffs.length ≠ size then .error (.rowCount size payoffs.length)
    else
      match payoffs.find? fun row => row.length ≠ players.length with
      | some row => .error (.rowWidth row.length players.length)
      | none => .ok ⟨title, players, payoffs, stridesFrom 1 counts⟩

/-- The entry of a matrix, zero outside of it. -/
def entry (m : List (List Rat)) (row column : Nat) : Rat := (m.getD row []).getD column 0

/-- A game of two players from the matrix of each, both with a row per strategy of the first player
and a column per strategy of the second. -/
def bimatrix (title : String) (a b : List (List Rat)) : Except GameFault Game :=
  let rows := a.length
  let columns := (a.getD 0 []).length
  if b.length ≠ rows ∨ ¬(a ++ b).all fun row => row.length = columns then
    .error .matrixShape
  else
    build title [Player.numbered "Player 1" rows, Player.numbered "Player 2" columns]
      ((List.range columns).flatMap fun c => (List.range rows).map fun r => [entry a r c, entry b r c])

/-- Checks that there are players and that each can choose something. -/
def validate (g : Game) : Except GameFault Unit :=
  if g.players.isEmpty then .error .noPlayers
  else
    match g.players.find? fun p => p.strategies.isEmpty with
    | some p => .error (.noStrategies p.name)
    | none => .ok ()

/-! ### Profiles and rows -/

/-- The row of a pure profile. -/
def profileIndex (g : Game) (strategies : List Nat) : Nat :=
  (List.zipWith (fun s stride => s * stride) strategies g.strides).foldl (· + ·) 0

/-- Adds a product to an index, both in a word. -/
def addProduct? (index : Nat) (factors : Nat × Nat) : Option Nat := do
  let product ← word? (factors.1 * factors.2)
  word? (index + product)

/-- The row of a pure profile, added up in a word. -/
def profileIndex? (g : Game) (strategies : List Nat) : Option Nat :=
  (strategies.zip g.strides).foldlM addProduct? 0

/-- The digits of an index in mixed radix. -/
def digitsOfIndex (index : Nat) : List Nat → List Nat
  | [] => []
  | n :: ns => index % n :: digitsOfIndex (index / n) ns

/-- The pure profile of a row. -/
def decode (g : Game) (index : Nat) : List Nat := digitsOfIndex index g.counts

/-- The payoff of a player in a row. -/
def payoffAt (g : Game) (index player : Nat) : Rat := entry g.payoffs index player

/-- The payoff of a player at a pure profile. -/
def payoff (g : Game) (player : Nat) (strategies : List Nat) : Rat :=
  g.payoffAt (g.profileIndex strategies) player

/-- The payoffs of a player in a game of two, a row per strategy of the first player. -/
def matrix (g : Game) (player : Nat) : List (List Rat) :=
  (List.range (g.numStrategies 0)).map fun r =>
    (List.range (g.numStrategies 1)).map fun c => g.payoff player [r, c]

/-! ### Restriction -/

/-- The kept strategies of a player, in the order in which they are listed. -/
def keepStrategies (p : Player) (kept : List Nat) : Player :=
  ⟨p.name, kept.map fun s => p.strategies.getD s ""⟩

/-- The profile of the whole game that a profile of kept strategies stands for. -/
def inWhole (kept : List (List Nat)) (strategies : List Nat) : List Nat :=
  List.zipWith (fun s keep => keep.getD s 0) strategies kept

/-- The game in which every player is left with the listed strategies, in the order listed. -/
def restrict (g : Game) (kept : List (List Nat)) : Game :=
  let counts := kept.map List.length
  { title := g.title
    players := List.zipWith keepStrategies g.players kept
    payoffs := (successive counts (tableSize counts) (zeroDigits counts)).map fun strategies =>
      g.payoffs.getD (g.profileIndex (inWhole kept strategies)) []
    strides := stridesFrom 1 counts }

/-- The restricted game, if its number of rows can be multiplied up in a word. -/
def restrict? (g : Game) (kept : List (List Nat)) : Except GameFault Game :=
  match tableSize? (kept.map List.length) with
  | none => .error .sizeOverflow
  | some _ => .ok (g.restrict kept)

end Game

end Equilibria
