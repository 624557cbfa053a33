import Mathlib
import Equilibria.Game.Document
import Equilibria.Proofs.JsonText
import Equilibria.Proofs.ReadRationals

/-!
# Games are read back from their documents

* `Json.fieldsOf?_record` — a record of different names is read back field by field;
* `Json.toList?_ofList` — a list is read back item by item;
* `Game.draft?_toJson` — the value of a game has the form of a document, with every payoff known;
* `Game.ofDocument_toDocument` — the document of a game gives the game again.

Nothing is asked of the game but that its table was accepted: any characters may stand in its texts,
and there may be no players or players without strategies.
-/

namespace Equilibria

/-! ### Records and lists -/

theorem mapM_map_eq_some {α β γ : Type} {f : β → Option γ} {g : α → β} {h : α → γ} {l : List α}
    (hread : ∀ a ∈ l, f (g a) = some (h a)) : (l.map g).mapM f = some (l.map h) := by
  induction l with
  | nil => rfl
  | cons a l ih =>
    rw [List.map_cons, List.mapM_cons, hread a List.mem_cons_self,
      ih fun b hb => hread b (List.mem_cons_of_mem a hb)]
    rfl

namespace Json

theorem toText?_ofText (s : String) : toText? (ofText s) = some s :=
  congrArg some String.ofList_toList

theorem toList?_ofList {β γ : Type} {f : Json → Option γ} {g : β → Json} {h : β → γ} {bs : List β}
    (hread : ∀ b ∈ bs, f (g b) = some (h b)) : toList? f (ofList g bs) = some (bs.map h) :=
  mapM_map_eq_some hread

theorem keyed?_record (fields : List (String × Json)) :
    keyed? (fields.map fun f => (some f.1.toList, f.2)) = some fields := by
  have hread := mapM_map_eq_some (l := fields)
    (f := fun f : Key × Json => f.1.map fun k => (String.ofList k, f.2))
    (g := fun f => (some f.1.toList, f.2)) (h := id) fun f _ => by
      rw [Option.map_some, String.ofList_toList]
      rfl
  rwa [List.map_id] at hread

theorem valuesOf_of_mem {fields : List (String × Json)} {f : String × Json}
    (hnames : (fields.map Prod.fst).Nodup) (hf : f ∈ fields) : valuesOf f.1 fields = [f.2] := by
  induction fields with
  | nil => exact absurd hf List.not_mem_nil
  | cons f' fields ih =>
    rw [List.map_cons, List.nodup_cons] at hnames
    obtain ⟨hfresh, hnames⟩ := hnames
    rcases List.mem_cons.mp hf with rfl | hf
    · have hrest : fields.filter (fun f' => f'.1 = f.1) = [] :=
        List.filter_eq_nil_iff.mpr fun f' hf' heq =>
          hfresh (List.mem_map.mpr ⟨f', hf', of_decide_eq_true heq⟩)
      simp [valuesOf, hrest]
    · have hne : f'.1 ≠ f.1 := fun heq => hfresh (heq ▸ List.mem_map_of_mem hf)
      have hskip : valuesOf f.1 (f' :: fields) = valuesOf f.1 fields := by
        simp [valuesOf, hne]
      rw [hskip, ih hnames hf]

/-- **A record of different names is read back field by field.** -/
theorem fieldsOf?_record {short : Bool} {names : List String} {fields : List (String × Json)}
    (hnames : fields.map Prod.fst = names) (hnodup : names.Nodup) :
    fieldsOf? short names (record fields) = some (fields.map fun f => some f.2) := by
  subst hnames
  have hsingle : ∀ f ∈ fields, single? f.1 fields = some (some f.2) := by
    intro f hf
    rw [single?, valuesOf_of_mem hnodup hf]
  rw [record, fieldsOf?, keyed?_record]
  exact mapM_map_eq_some hsingle

theorem Textual.ofText (s : String) : Textual (ofText s) := .string _

theorem Textual.ofList {β : Type} {f : β → Json} {bs : List β} (h : ∀ b ∈ bs, Textual (f b)) :
    Textual (Json.ofList f bs) :=
  .array _ fun _ hv => by
    obtain ⟨b, hb, rfl⟩ := List.mem_map.mp hv
    exact h b hb

theorem Textual.record {fields : List (String × Json)} (h : ∀ f ∈ fields, Textual f.2) :
    Textual (Json.record fields) := by
  have hobject := Textual.object (fields.map fun f => (f.1.toList, f.2)) fun f hf => by
    obtain ⟨f', hf', rfl⟩ := List.mem_map.mp hf
    exact h f' hf'
  rwa [List.map_map] at hobject

end Json

/-! ### Players and payoffs -/

theorem Player.textual_toJson (p : Player) : Json.Textual p.toJson := by
  refine Json.Textual.record fun f hf => ?_
  rcases List.mem_pair.mp hf with rfl | rfl
  · exact Json.Textual.ofText _
  · exact Json.Textual.ofList fun s _ => Json.Textual.ofText s

theorem Player.ofJson?_toJson (p : Player) : Player.ofJson? p.toJson = some p := by
  have hfields : Json.fieldsOf? false ["name", "strategies"] p.toJson =
      some [some (.ofText p.name), some (.ofList .ofText p.strategies)] :=
    Json.fieldsOf?_record rfl (by decide)
  have hlabels : Json.toList? Json.toText? (.ofList .ofText p.strategies) =
      some (p.strategies.map id) := Json.toList?_ofList fun s _ => Json.toText?_ofText s
  rw [List.map_id] at hlabels
  rw [Player.ofJson?, hfields]
  simp only [Json.required, Option.bind_some, Json.toText?_ofText, hlabels]

namespace Game

theorem payoffOfJson?_text (v : ℚ) :
    payoffOfJson? (.ofText (Rational.text v)) = some (some v) := by
  show some (Rational.read? (String.ofList (Rational.chars v)).toList) = _
  rw [String.toList_ofList, Rational.read?_chars]

theorem tableOf_map_some (index : ℕ) (table : List (List ℚ)) :
    tableOf index (table.map fun row => row.map some) = .ok table := by
  induction table generalizing index with
  | nil => rfl
  | cons row table ih =>
    have hrow : (row.map some).mapM id = some (row.map id) := mapM_map_eq_some fun _ _ => rfl
    rw [List.map_id] at hrow
    rw [List.map_cons, tableOf, hrow]
    simp only [ih]

/-! ### Games -/

theorem textual_toJson (g : Game) : Json.Textual g.toJson := by
  refine Json.Textual.record fun f hf => ?_
  simp only [List.mem_cons, List.not_mem_nil, or_false] at hf
  rcases hf with rfl | rfl | rfl
  · exact Json.Textual.ofText _
  · exact Json.Textual.ofList fun p _ => p.textual_toJson
  · exact Json.Textual.ofList fun row _ => Json.Textual.ofList fun v _ => Json.Textual.ofText _

/-- **The value of a game has the form of a document, with every payoff known.** -/
theorem draft?_toJson (g : Game) :
    draft? g.toJson = some ⟨g.title, g.players, g.payoffs.map fun row => row.map some⟩ := by
  have hfields : Json.fieldsOf? false ["title", "players", "payoffs"] g.toJson =
      some [some (.ofText g.title), some (.ofList Player.toJson g.players),
        some (.ofList (.ofList fun v => .ofText (Rational.text v)) g.payoffs)] :=
    Json.fieldsOf?_record rfl (by decide)
  have hplayers : Json.toList? Player.ofJson? (.ofList Player.toJson g.players) =
      some (g.players.map id) := Json.toList?_ofList fun p _ => p.ofJson?_toJson
  have hpayoffs : Json.toList? (Json.toList? payoffOfJson?)
      (.ofList (.ofList fun v => .ofText (Rational.text v)) g.payoffs) =
      some (g.payoffs.map fun row => row.map some) :=
    Json.toList?_ofList fun row _ => Json.toList?_ofList fun v _ => payoffOfJson?_text v
  rw [List.map_id] at hplayers
  rw [draft?, hfields]
  simp only [Json.orDefault, Json.required, Option.bind_some, Json.toText?_ofText, hplayers,
    hpayoffs]

theorem parts_of_build {title : String} {players : List Player} {payoffs : List (List ℚ)}
    {g : Game} (hg : build title players payoffs = .ok g) :
    g.title = title ∧ g.players = players ∧ g.payoffs = payoffs := by
  unfold build at hg
  dsimp only at hg
  split at hg
  · exact absurd hg (by simp)
  · split_ifs at hg
    split at hg
    · exact absurd hg (by simp)
    · obtain rfl := Except.ok.inj hg
      exact ⟨rfl, rfl, rfl⟩

/-- **The document of a game gives the game again.** -/
theorem ofDocument_toDocument {title : String} {players : List Player} {payoffs : List (List ℚ)}
    {g : Game} (hg : build title players payoffs = .ok g) : ofDocument g.toDocument = .ok g := by
  obtain ⟨rfl, rfl, rfl⟩ := parts_of_build hg
  rw [ofDocument, toDocument, Json.parse?_pretty g.textual_toJson]
  show ofJson g.toJson = .ok g
  rw [ofJson, draft?_toJson]
  show Draft.game _ = _
  rw [Draft.game, tableOf_map_some]
  simp only [hg]

/-- The texts hold a quotation mark, a backslash and two control characters. -/
theorem ofDocument_toDocument_controls :
    build "\"x\"" [⟨"\\", ["\n", "\x01"]⟩] [[-1 / 2], [3]] =
        .ok ⟨"\"x\"", [⟨"\\", ["\n", "\x01"]⟩], [[-1 / 2], [3]], [1]⟩ ∧
      ofDocument (toDocument ⟨"\"x\"", [⟨"\\", ["\n", "\x01"]⟩], [[-1 / 2], [3]], [1]⟩) =
        .ok ⟨"\"x\"", [⟨"\\", ["\n", "\x01"]⟩], [[-1 / 2], [3]], [1]⟩ := by
  have hbuild : build "\"x\"" [⟨"\\", ["\n", "\x01"]⟩] [[-1 / 2], [3]] =
      .ok ⟨"\"x\"", [⟨"\\", ["\n", "\x01"]⟩], [[-1 / 2], [3]], [1]⟩ := rfl
  exact ⟨hbuild, ofDocument_toDocument hbuild⟩

end Game

end Equilibria
