import Equilibria.Game.Basic
import Equilibria.Json.Record

/-!
# Games as JSON documents

A document is an object with a title, which may be missing, the players with the labels of their
strategies, and the payoff table.  A payoff is a number or a text; a text is read exactly, in any
form in which a rational may be written.

Main definitions:

* `Player.toJson`, `Player.ofJson?` — a player as a value;
* `Game.toJson`, `Game.toDocument` — the document of a game, every payoff a text;
* `Game.ofJson`, `Game.ofDocument` — the game of a document.
-/

namespace Equilibria

/-! ### Players -/

/-- A player as a value. -/
def Player.toJson (p : Player) : Json :=
  .record [("name", .ofText p.name), ("strategies", .ofList .ofText p.strategies)]

/-- Reads a player. -/
def Player.ofJson? (j : Json) : Option Player :=
  match Json.fieldsOf? false ["name", "strategies"] j with
  | some [name, strategies] =>
    match Json.required Json.toText? name, Json.required (Json.toList? Json.toText?) strategies with
    | some name, some strategies => some ⟨name, strategies⟩
    | _, _ => none
  | _ => none

namespace Game

/-! ### Writing -/

/-- The document of a game as a value. -/
def toJson (g : Game) : Json :=
  .record
    [("title", .ofText g.title), ("players", .ofList Player.toJson g.players),
      ("payoffs", .ofList (.ofList fun v => .ofText (Rational.text v)) g.payoffs)]

/-- The document of a game, indented. -/
def toDocument (g : Game) : String := String.ofList g.toJson.pretty

/-! ### Reading -/

/-- A payoff: the rational that a number or a text denotes, if it denotes one.  Other values, and
numbers beyond all doubles, are not of the form of a payoff. -/
def payoffOfJson? : Json → Option (Option Rat)
  | .number n =>
    match n.toInteger?, n.toDouble? with
    | none, none => none
    | _, _ => some n.toRational?
  | .string (some s) => some (Rational.read? s)
  | _ => none

/-- A document as it stands, before the payoffs are known to be numbers. -/
structure Draft where
  /-- The title. -/
  title : String
  /-- The players. -/
  players : List Player
  /-- The payoffs; nothing where a text is no number. -/
  payoffs : List (List (Option Rat))

/-- Reads the form of a document. -/
def draft? (j : Json) : Option Draft :=
  match Json.fieldsOf? false ["title", "players", "payoffs"] j with
  | some [title, players, payoffs] =>
    match Json.orDefault "" Json.toText? title,
        Json.required (Json.toList? Player.ofJson?) players,
        Json.required (Json.toList? (Json.toList? payoffOfJson?)) payoffs with
    | some title, some players, some payoffs => some ⟨title, players, payoffs⟩
    | _, _, _ => none
  | _ => none

/-- All entries of a table, or the number of the first row in which one is missing. -/
def tableOf (index : Nat) : List (List (Option Rat)) → Except SettingFault (List (List Rat))
  | [] => .ok []
  | row :: rows =>
    match row.mapM id with
    | none => .error (.payoffEntry index)
    | some values =>
      match tableOf (index + 1) rows with
      | .ok table => .ok (values :: table)
      | .error e => .error e

/-- The game of a drafted document. -/
def Draft.game (d : Draft) : Except SettingFault Game :=
  match tableOf 0 d.payoffs with
  | .error e => .error e
  | .ok table =>
    match build d.title d.players table with
    | .ok g => .ok g
    | .error e => .error (.payoffTable e)

/-- The game of a document given as a value. -/
def ofJson (j : Json) : Except SettingFault Game :=
  match draft? j with
  | some d => d.game
  | none => .error .malformed

/-- The game of a document. -/
def ofDocument (s : String) : Except SettingFault Game :=
  match Json.parse? s with
  | some j => ofJson j
  | none => .error .malformed

end Game

end Equilibria
