import Equilibria.Profile

/-!
# Random starting profiles

A seed of 64 bits is spread over a key of eight words by a permuted congruential generator, and the
key drives a ChaCha keystream of twelve rounds.  Two words of the keystream, the lower one first,
make a draw: a weight between 0.05 and one for each strategy in turn.

Main definitions:

* `Seed.key` — the words of the key;
* `Keystream.block`, `Keystream.words` — the keystream;
* `Seed.weight` — the weight of a draw;
* `Seed.profile` — the starting profile of a seed.

The largest draw is below one, so no draw is ever repeated.
-/

namespace Equilibria

/-! ### The key of a seed -/

namespace Seed

/-- The next state of the generator. -/
def nextState (s : UInt64) : UInt64 := s * 6364136223846793005 + 11634580027462260723

/-- A word with its bits turned to the right. -/
def rotateRight (w n : UInt32) : UInt32 := (w >>> n) ||| (w <<< ((32 - n) % 32))

/-- The word that a state gives out. -/
def output (s : UInt64) : UInt32 :=
  rotateRight ((((s >>> 18) ^^^ s) >>> 27).toUInt32) ((s >>> 59).toUInt32)

/-- The next words of the generator. -/
def keyFrom : Nat → UInt64 → List UInt32
  | 0, _ => []
  | n + 1, s =>
    let next := nextState s
    output next :: keyFrom n next

/-- The key of a seed. -/
def key (seed : Nat) : List UInt32 := keyFrom 8 (UInt64.ofNat seed)

end Seed

/-! ### The keystream -/

namespace Keystream

/-- The state: sixteen words. -/
abbrev State := List UInt32

/-- The word at a place. -/
def get (s : State) (i : Nat) : UInt32 := s.getD i 0

/-- A word with its bits turned to the left. -/
def rotateLeft (w n : UInt32) : UInt32 := (w <<< n) ||| (w >>> (32 - n))

/-- Adds one word to another and turns the sum into a third. -/
def mix (a b d : Nat) (n : UInt32) (s : State) : State :=
  let sum := get s a + get s b
  (s.set a sum).set d (rotateLeft (get s d ^^^ sum) n)

/-- A quarter round on four places. -/
def quarterRound (a b c d : Nat) (s : State) : State :=
  mix c d b 7 (mix a b d 8 (mix c d b 12 (mix a b d 16 s)))

/-- A round on the columns and one on the diagonals. -/
def doubleRound (s : State) : State :=
  let columns :=
    quarterRound 3 7 11 15 (quarterRound 2 6 10 14 (quarterRound 1 5 9 13 (quarterRound 0 4 8 12 s)))
  quarterRound 3 4 9 14
    (quarterRound 2 7 8 13 (quarterRound 1 6 11 12 (quarterRound 0 5 10 15 columns)))

/-- The double rounds of a block. -/
def rounds : Nat → State → State
  | 0, s => s
  | n + 1, s => rounds n (doubleRound s)

/-- The state before the rounds: four constant words, the key, a counter of two words and two zero
words. -/
def initial (key : List UInt32) (counter : Nat) : State :=
  [0x61707865, 0x3320646e, 0x79622d32, 0x6b206574] ++ key ++
    [UInt32.ofNat (counter % UInt32.size), UInt32.ofNat (counter / UInt32.size), 0, 0]

/-- The words of a block. -/
def block (key : List UInt32) (counter : Nat) : List UInt32 :=
  let s := initial key counter
  List.zipWith (fun a b => a + b) (rounds 6 s) s

/-- The first words of the keystream, at least the given number of them. -/
def words (key : List UInt32) (count : Nat) : List UInt32 :=
  (List.range (count / 16 + 1)).flatMap (block key)

end Keystream

/-! ### Weights -/

namespace Seed

/-- The double in the unit interval whose bits are the upper 52 of a draw. -/
def unitInterval (low high : UInt32) : Float :=
  let bits : UInt64 := low.toUInt64 ||| (high.toUInt64 <<< 32)
  Float.ofBits (((1023 : UInt64) <<< 52) ||| (bits >>> 12)) - 1.0

/-- The weight of a draw. -/
def weight (low high : UInt32) : Float := unitInterval low high * (1.0 - 0.05) + 0.05

/-- The weights of the draws in a list of words. -/
def weights : List UInt32 → List Double
  | low :: high :: rest => .number (weight low high) :: weights rest
  | _ => []

/-- Cuts a list into portions of the given sizes. -/
def portions {β : Type} : List Nat → List β → List (List β)
  | [], _ => []
  | n :: ns, bs => bs.take n :: portions ns (bs.drop n)

/-- The starting profile of a seed for players with the given numbers of strategies. -/
def profile (seed : Nat) (counts : List Nat) : MixedProfile Double :=
  let draws := counts.foldl (fun total n => total + n) 0
  MixedProfile.ofWeights (portions counts (weights (Keystream.words (key seed) (2 * draws))))

end Seed

end Equilibria
