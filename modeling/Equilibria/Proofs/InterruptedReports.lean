import Mathlib
import Equilibria.Proofs.PureProfiles
import Equilibria.Solve

/-!
# Reports that are broken off

A renderer may refuse a row.  The solve then ends, with the rows before it taken and none after it
offered:

* `StatefulRenderer`, `Solver.watch` — any renderer with a state of its own, and a solve of which
  every row offered is noted;
* `Watching.Follows` — a computation that tells its renderer what a list says and then ends in a
  given way, with the rules `Follows.pure`, `Follows.throw`, `Follows.bind`, `Follows.forM`;
* `Solver.scripted_solve` — what a solve would tell is settled before it tells anything: the list and
  the ending depend on the game and the settings only, and an ending in failure has no list;
* `run_notices` — told a list, a renderer takes all rows of it, or all before one that it refuses;
* `Solver.watch_interrupted` — hence a solve that fails by itself has offered no row, and one whose
  renderer refuses a row has offered the rows of an undisturbed solve up to that one.

The renderer may be anything that decides by its state and what it is told, since a solve learns
nothing from it but a refusal.
-/

namespace Equilibria

/-! ### Renderers that may refuse -/

/-- A renderer with a state of its own.  It takes a row or gives the reason why not. -/
structure StatefulRenderer (σ : Type) where
  /-- Is offered a profile under a label. -/
  take : String → AnyProfile → σ → Except String Unit × σ
  /-- Is told the number of an iteration. -/
  progress : Nat → σ → σ

/-- A row that was offered to a renderer, and what came of it. -/
structure Offer where
  /-- The label. -/
  label : String
  /-- The profile. -/
  profile : AnyProfile
  /-- Whether the row was taken, and if not, why. -/
  outcome : Except String Unit

/-- What a row shows, whatever came of it. -/
def Offer.row (o : Offer) : String × AnyProfile := (o.label, o.profile)

/-- A row that was taken. -/
def Offer.taken (row : String × AnyProfile) : Offer := ⟨row.1, row.2, .ok ()⟩

/-- Computations with a renderer's state and the rows offered to it. -/
abbrev Watching (σ : Type) := ExceptT Failure (StateM (σ × List Offer))

/-- Notes every row that is offered.  A refusal is a failure to render. -/
def StatefulRenderer.watched {σ : Type} (d : StatefulRenderer σ) : Renderer (Watching σ) where
  render label x := ExceptT.mk fun st =>
    let answer := d.take label x st.1
    (answer.1.mapError Failure.render, answer.2, st.2 ++ [⟨label, x, answer.1⟩])
  progress k := ExceptT.mk fun st => (.ok (), d.progress k st.1, st.2)

/-- How a solve ends that starts with a renderer in a given state, and the rows it has offered. -/
def Solver.watch {σ : Type} (ask : String → ProgramOutcome) (s : Settings) (g : Game)
    (d : StatefulRenderer σ) (state : σ) : Except Failure SolveReport × List Offer :=
  let run := (Solver.solve ask s g d.watched).run.run (state, [])
  (run.1, run.2.2)

/-- Whether a renderer never refuses. -/
def StatefulRenderer.Willing {σ : Type} (d : StatefulRenderer σ) : Prop :=
  ∀ label x state, (d.take label x state).1 = .ok ()

/-! ### Computations that follow a script -/

/-- What a renderer is told. -/
inductive Notice where
  /-- A profile under a label. -/
  | row (label : String) (x : AnyProfile)
  /-- The number of an iteration. -/
  | progress (k : Nat)

/-- The rows among what a renderer is told. -/
def rowsOf (notices : List Notice) : List (String × AnyProfile) :=
  notices.filterMap fun n =>
    match n with
    | .row label x => some (label, x)
    | .progress _ => none

/-- Tells a renderer. -/
def Renderer.tell {m : Type → Type} (renderer : Renderer m) : Notice → m Unit
  | .row label x => renderer.render label x
  | .progress k => renderer.progress k

namespace Watching

variable {σ α β : Type} {d : StatefulRenderer σ} {p : Watching σ α} {notices notices' : List Notice}

/-- Tells a renderer all that a list says and then ends in a given way. -/
def Follows (d : StatefulRenderer σ) (p : Watching σ α) (notices : List Notice)
    (ending : Except Failure α) : Prop :=
  p = notices.forM d.watched.tell >>= fun _ => MonadExcept.ofExcept ending

theorem Follows.pure (a : α) : Follows d (pure a) [] (.ok a) := rfl

theorem Follows.throw (e : Failure) : Follows d (throw e : Watching σ α) [] (.error e) := rfl

theorem Follows.tell (n : Notice) : Follows d (d.watched.tell n) [n] (.ok ()) := by
  unfold Follows
  simp [MonadExcept.ofExcept]

theorem Follows.render (label : String) (x : AnyProfile) :
    Follows d (d.watched.render label x) [.row label x] (.ok ()) :=
  Follows.tell (.row label x)

theorem Follows.progress (k : ℕ) : Follows d (d.watched.progress k) [.progress k] (.ok ()) :=
  Follows.tell (.progress k)

/-- One computation after another. -/
theorem Follows.bind {f : α → Watching σ β} {a : α} {ending : Except Failure β}
    (h : Follows d p notices (.ok a)) (h' : Follows d (f a) notices' ending) :
    Follows d (p >>= f) (notices ++ notices') ending := by
  unfold Follows at h h' ⊢
  rw [h, List.forM_eq_forM, List.forM_append, bind_assoc, bind_assoc]
  refine bind_congr fun _ => ?_
  show Pure.pure a >>= f = _
  rw [pure_bind, h']
  rfl

/-- Nothing comes after a failure. -/
theorem Follows.bind_error {f : α → Watching σ β} {e : Failure}
    (h : Follows d p notices (.error e)) : Follows d (p >>= f) notices (.error e) := by
  unfold Follows at h ⊢
  rw [h, bind_assoc]
  rfl

theorem Follows.forM {xs : List α} {f : α → Watching σ PUnit} {noticesOf : α → List Notice}
    (h : ∀ x, Follows d (f x) (noticesOf x) (.ok ⟨⟩)) :
    Follows d (xs.forM f) (xs.flatMap noticesOf) (.ok ⟨⟩) := by
  induction xs with
  | nil => exact Follows.pure _
  | cons x xs ih =>
    rw [List.flatMap_cons]
    exact (h x).bind ih

end Watching

/-! ### What a solve tells -/

/-- A computation that tells every renderer the same and ends in the same way, unless it is refused a
row.  If it ends in failure, it has told nothing. -/
def Scripted {α : Type} (p : (σ : Type) → StatefulRenderer σ → Watching σ α) : Prop :=
  ∃ (notices : List Notice) (ending : Except Failure α),
    (∀ σ d, Watching.Follows d (p σ d) notices ending) ∧ ∀ e, ending = .error e → notices = []

theorem Scripted.of_ok {α : Type} {p : (σ : Type) → StatefulRenderer σ → Watching σ α}
    (notices : List Notice) (a : α) (h : ∀ σ d, Watching.Follows d (p σ d) notices (.ok a)) :
    Scripted p :=
  ⟨notices, .ok a, h, fun _ he => nomatch he⟩

theorem Scripted.of_error {α : Type} {p : (σ : Type) → StatefulRenderer σ → Watching σ α}
    {e : Failure} (h : ∀ σ d, Watching.Follows d (p σ d) [] (.error e)) : Scripted p :=
  ⟨[], .error e, h, fun _ _ => rfl⟩

namespace Solver

open Watching

section Enumeration

variable {α : Type} [Scalar α] (wrap : MixedProfile α → AnyProfile) (r : Reduction)
  {solution : Solution α}

/-- What is told of the equilibria. -/
def equilibriumNotices (solution : Solution α) : List Notice :=
  solution.equilibria.flatMap fun e => [.row "" (wrap (r.expand e.profile))]

/-- What is told of the members of every component. -/
def cliqueNotices (solution : Solution α) : List Notice :=
  solution.cliques.zipIdx.flatMap fun entry => entry.1.flatMap fun i =>
    [.row ("convex-" ++ toString (entry.2 + 1)) (wrap (r.expand (solution.profiles.getD i ⟨[]⟩)))]

theorem follows_reportCliques {σ : Type} (d : StatefulRenderer σ) (solution : Solution α) :
    Follows d (reportCliques wrap r d.watched solution) (cliqueNotices wrap r solution) (.ok ⟨⟩) :=
  Follows.forM fun _ => Follows.forM fun _ => Follows.render _ _

theorem follows_findWith {σ : Type} (d : StatefulRenderer σ) {enumerator : VertexEnumerator α}
    (hfind : Solution.find enumerator r.game = .ok solution) :
    Follows d (Solution.findWith enumerator r.game fun e =>
        d.watched.render "" (wrap (r.expand e.profile)))
      (equilibriumNotices wrap r solution) (.ok solution) := by
  rw [Solution.findWith, hfind, ← List.append_nil (equilibriumNotices wrap r solution)]
  refine Follows.bind (a := ⟨⟩) ?_ (Follows.pure solution)
  exact Follows.forM fun e => Follows.render "" (wrap (r.expand e.profile))

/-- An enumeration fails before its first row. -/
theorem scripted_enumerate (enumerator : VertexEnumerator α) (s : Settings) :
    Scripted fun _ d => enumerate wrap enumerator s r d.watched := by
  cases hfind : Solution.find enumerator r.game with
  | error e =>
    refine Scripted.of_error fun σ d => Follows.bind_error (e := e) ?_
    rw [Solution.findWith, hfind]
    exact Follows.throw e
  | ok solution =>
    cases hcliques : s.reportCliques with
    | true =>
      refine Scripted.of_ok (equilibriumNotices wrap r solution ++ (cliqueNotices wrap r solution ++ []))
        (.enumeration solution.size (some solution.cliques.length))
        fun σ d => (follows_findWith wrap r d hfind).bind ?_
      rw [hcliques]
      exact (follows_reportCliques wrap r d solution).bind (Follows.pure _)
    | false =>
      refine Scripted.of_ok (equilibriumNotices wrap r solution ++ []) (.enumeration solution.size none)
        fun σ d => (follows_findWith wrap r d hfind).bind ?_
      rw [hcliques]
      exact Follows.pure _

end Enumeration

/-! ### Approximation -/

/-- The iterations, whatever is told of each. -/
theorem exists_follows_run (p : Iteration.Parameters Double) (t : Payoffs Double)
    (noticesOf : ℕ → MixedProfile Double → List Notice) (left made : ℕ) (x : MixedProfile Double)
    (best : Iteration.Ranked Double) (step : Double) :
    ∃ notices outcome, ∀ (σ : Type) (d : StatefulRenderer σ) (tell : ℕ → MixedProfile Double →
        Watching σ Unit), (∀ k z, Follows d (tell k z) (noticesOf k z) (.ok ())) →
      Follows d (Iteration.run p t tell left made x best step) notices (.ok outcome) := by
  induction left generalizing made x best step with
  | zero => exact ⟨[], _, fun σ d tell _ => Follows.pure _⟩
  | succ left ih =>
    by_cases hsmall : (Iteration.next p t x).1 < p.tolerance
    · refine ⟨noticesOf (made + 1) (Iteration.next p t x).2 ++ [],
        ⟨(Iteration.next p t x).2, .converged, made + 1, (Iteration.next p t x).1,
          (Iteration.rank t (Iteration.next p t x).2).regret⟩,
        fun σ d tell htell => (htell _ _).bind ?_⟩
      rw [if_pos hsmall]
      exact Follows.pure _
    · obtain ⟨notices, outcome, hrest⟩ := ih (made + 1) (Iteration.next p t x).2
        (best.lesser (Iteration.rank t (Iteration.next p t x).2)) (Iteration.next p t x).1
      refine ⟨noticesOf (made + 1) (Iteration.next p t x).2 ++ notices, outcome,
        fun σ d tell htell => (htell _ _).bind ?_⟩
      rw [if_neg hsmall]
      exact hrest σ d tell htell

/-- What is told of an iterate. -/
def iterateNotices (s : Settings) (r : Reduction) (k : ℕ) (x : MixedProfile Double) : List Notice :=
  .progress k ::
    if s.verbose then [.row ("iterate-" ++ toString k) (.floating (r.expand x))] else []

theorem follows_tellIterate {σ : Type} (d : StatefulRenderer σ) (s : Settings) (r : Reduction) (k : ℕ)
    (x : MixedProfile Double) :
    Follows d (tellIterate s r d.watched k x) (iterateNotices s r k x) (.ok ()) := by
  refine (Follows.progress k).bind ?_
  cases s.verbose with
  | true => exact Follows.render _ _
  | false => exact Follows.pure _

/-- An approximation fails before its first iteration. -/
theorem scripted_approximate (s : Settings) (r : Reduction) :
    Scripted fun _ d => approximate s r d.watched := by
  cases hobstacle : ApproximateEquilibrium.obstacle s.forApproximation r.game
    (ApproximateEquilibrium.start s.forApproximation r.game) with
  | error e =>
    refine Scripted.of_error fun σ d => Follows.bind_error (e := e) ?_
    rw [ApproximateEquilibrium.findWith, ApproximateEquilibrium.findFrom, hobstacle]
    exact Follows.throw e
  | ok u =>
    obtain ⟨notices, outcome, hrun⟩ := exists_follows_run
      (ApproximateEquilibrium.parameters s.forApproximation) (Payoffs.ofGame r.game)
      (iterateNotices s r) s.forApproximation.iterationCap 0
      (ApproximateEquilibrium.start s.forApproximation r.game)
      (Iteration.rank (Payoffs.ofGame r.game)
        (ApproximateEquilibrium.start s.forApproximation r.game)) 0
    refine Scripted.of_ok (notices ++ ([.row (if outcome.isConverged then "" else "unconverged")
      (.floating (r.expand outcome.profile))] ++ []))
      (.approximation { outcome with profile := r.expand outcome.profile }) fun σ d => ?_
    refine Follows.bind (a := outcome) ?_ ((Follows.render _ _).bind (Follows.pure _))
    rw [ApproximateEquilibrium.findWith, ApproximateEquilibrium.findFrom, hobstacle]
    exact hrun σ d _ (follows_tellIterate d s r)

/-- **What a solve tells its renderer is settled beforehand**, and a failure of its own comes before
the first row. -/
theorem scripted_solve (ask : String → ProgramOutcome) (s : Settings) (g : Game) :
    Scripted fun _ d => solve ask s g d.watched := by
  cases hreduce : reduce s g with
  | error e =>
    simp only [solve, hreduce]
    exact Scripted.of_error fun σ d => Follows.throw e
  | ok r =>
    simp only [solve, hreduce]
    cases Method.ofSettings s with
    | exact => exact scripted_enumerate .exact r Polytope.vertices s
    | floating => exact scripted_enumerate .floating r Polytope.vertices s
    | delegated => exact scripted_enumerate .exact r (Delegate.vertices ⟨s.program, ask⟩) s
    | approximation => exact scripted_approximate s r

end Solver

/-! ### Rows taken and refused -/

/-- What comes of offering rows: all are taken, or all before one that is refused. -/
inductive Offered : List (String × AnyProfile) → Except Failure Unit → List Offer → Prop
  /-- All are taken. -/
  | all (rows : List (String × AnyProfile)) : Offered rows (.ok ()) (rows.map Offer.taken)
  /-- One is refused, and those after it are not offered. -/
  | refused (before after : List (String × AnyProfile)) (row : String × AnyProfile)
      (reason : String) :
      Offered (before ++ row :: after) (.error (.render reason))
        (before.map Offer.taken ++ [⟨row.1, row.2, .error reason⟩])

theorem Offered.cons {rows : List (String × AnyProfile)} {outcome : Except Failure Unit}
    {offers : List Offer} (h : Offered rows outcome offers) (row : String × AnyProfile) :
    Offered (row :: rows) outcome (Offer.taken row :: offers) := by
  cases h with
  | all => exact Offered.all (row :: rows)
  | refused before after refused reason => exact Offered.refused (row :: before) after refused reason

/-- Of rows that are all taken in the end, none was refused. -/
theorem Offered.eq_all {rows : List (String × AnyProfile)} {outcome : Except Failure Unit}
    {offers : List Offer} (h : Offered rows outcome offers) (htaken : ∀ o ∈ offers, o.outcome = .ok ()) :
    outcome = .ok () ∧ offers = rows.map Offer.taken := by
  cases h with
  | all => exact ⟨rfl, rfl⟩
  | refused before after row reason =>
    exact nomatch htaken ⟨row.1, row.2, .error reason⟩ (by simp)

/-- The only refusal comes after the rows that were taken. -/
theorem refused_eq {before : List (String × AnyProfile)} {row : String × AnyProfile}
    {refusal reason : String} {k : ℕ} {o : Offer}
    (hk : (before.map Offer.taken ++ [⟨row.1, row.2, .error refusal⟩])[k]? = some o)
    (hrefused : o.outcome = .error reason) :
    k = (before.map Offer.taken).length ∧ o = ⟨row.1, row.2, .error refusal⟩ ∧ reason = refusal := by
  rcases lt_or_ge k (before.map Offer.taken).length with hlt | hge
  · rw [List.getElem?_append_left hlt] at hk
    obtain ⟨earlier, -, rfl⟩ := List.mem_map.mp (List.mem_of_getElem? hk)
    exact nomatch hrefused
  · rw [List.getElem?_append_right hge, List.getElem?_singleton] at hk
    split at hk
    · next hzero =>
      obtain rfl := Option.some.inj hk
      exact ⟨by omega, rfl, (Except.error.inj hrefused).symm⟩
    · exact nomatch hk

variable {σ τ : Type} {d : StatefulRenderer σ}

/-- **Told a list, a renderer takes all rows of it, or all before one that it refuses.** -/
theorem run_notices (d : StatefulRenderer σ) (notices : List Notice) (state : σ)
    (offers : List Offer) : ∃ outcome state' more,
      (notices.forM d.watched.tell).run.run (state, offers) = (outcome, state', offers ++ more) ∧
        Offered (rowsOf notices) outcome more ∧ (d.Willing → outcome = .ok ()) := by
  induction notices generalizing state offers with
  | nil =>
    refine ⟨.ok (), state, [], ?_, Offered.all [], fun _ => rfl⟩
    rw [List.append_nil]
    rfl
  | cons n notices ih =>
    cases n with
    | progress k => exact ih (d.progress k state) offers
    | row label x =>
      have hrun : ((Notice.row label x :: notices).forM d.watched.tell).run.run (state, offers) =
          (ExceptT.bindCont (fun _ => notices.forM d.watched.tell)
            ((d.take label x state).1.mapError Failure.render)).run
              ((d.take label x state).2, offers ++ [⟨label, x, (d.take label x state).1⟩]) := rfl
      rw [hrun]
      cases hanswer : (d.take label x state).1 with
      | error reason =>
        refine ⟨_, _, _, rfl, Offered.refused [] (rowsOf notices) (label, x) reason, fun hwilling => ?_⟩
        exact nomatch hanswer.symm.trans (hwilling label x state)
      | ok u =>
        obtain ⟨outcome, state', more, hrest, hoffered, hwilling⟩ := ih (d.take label x state).2
          (offers ++ [Offer.taken (label, x)])
        have hmore : offers ++ [Offer.taken (label, x)] ++ more =
            offers ++ Offer.taken (label, x) :: more := List.append_assoc _ _ _
        refine ⟨outcome, state', Offer.taken (label, x) :: more, ?_, hoffered.cons (label, x), hwilling⟩
        rw [← hmore]
        exact hrest

/-- A computation that follows a list ends as it should, unless a row is refused. -/
theorem Watching.Follows.run_eq {α : Type} {p : Watching σ α} {notices : List Notice}
    {ending : Except Failure α} {outcome : Except Failure PUnit} {start finish : σ × List Offer}
    (h : Follows d p notices ending)
    (hrun : (notices.forM d.watched.tell).run.run start = (outcome, finish)) :
    p.run.run start = (outcome.bind fun _ => ending, finish) := by
  unfold Follows at h
  rw [h]
  show (ExceptT.bindCont (fun _ : PUnit => (MonadExcept.ofExcept ending : Watching σ α))
    ((notices.forM d.watched.tell).run.run start).1).run
      ((notices.forM d.watched.tell).run.run start).2 = _
  rw [hrun]
  cases outcome with
  | error e => rfl
  | ok u =>
    cases ending with
    | error e => rfl
    | ok a => rfl

namespace Solver

/-- Whether a run goes as another one, in which every row is taken, until a row is refused. -/
structure SameUntilRefused (run whole : Except Failure SolveReport × List Offer) : Prop where
  /-- The other run is undisturbed. -/
  taken : ∀ o ∈ whole.2, o.outcome = .ok ()
  /-- A failure of the solve itself comes before the first row. -/
  early : ∀ e, run.1 = .error e → (∀ reason, e ≠ .render reason) → run.2 = []
  /-- A refusal ends the run.  The rows before it are the first ones of the other run. -/
  refused : ∀ k o reason, run.2[k]? = some o → o.outcome = .error reason →
    run.1 = .error (.render reason) ∧ run.2 = whole.2.take k ++ [o] ∧
      whole.2[k]? = some (Offer.taken o.row)
  /-- Without a refusal the two runs are the same. -/
  undisturbed : (∀ o ∈ run.2, o.outcome = .ok ()) → run = whole

/-- What a solve offers, and how it ends. -/
theorem exists_watch (ask : String → ProgramOutcome) (s : Settings) (g : Game) :
    ∃ (rows : List (String × AnyProfile)) (ending : Except Failure SolveReport),
      (∀ e, ending = .error e → rows = []) ∧
      ∀ {σ : Type} (d : StatefulRenderer σ) (state : σ), ∃ outcome offers,
        watch ask s g d state = (outcome.bind fun _ => ending, offers) ∧
          Offered rows outcome offers ∧ (d.Willing → outcome = .ok ()) := by
  obtain ⟨notices, ending, hfollows, hearly⟩ := scripted_solve ask s g
  refine ⟨rowsOf notices, ending, fun e he => by rw [hearly e he]; rfl, fun {σ} d state => ?_⟩
  obtain ⟨outcome, state', offers, hrun, hoffered, hwilling⟩ := run_notices d notices state []
  refine ⟨outcome, offers, ?_, hoffered, hwilling⟩
  rw [watch, (hfollows σ d).run_eq hrun, List.nil_append]

/-- **A solve stops at the first row that is refused.**  Before it fails by itself it has offered no
row; a refusal ends it, and until then it has offered the rows of an undisturbed solve of the same
game, in their order. -/
theorem watch_interrupted {σ τ : Type} (ask : String → ProgramOutcome) (s : Settings) (g : Game)
    (d : StatefulRenderer σ) (state : σ) (d' : StatefulRenderer τ) (state' : τ)
    (hwilling : d'.Willing) :
    SameUntilRefused (watch ask s g d state) (watch ask s g d' state') := by
  obtain ⟨rows, ending, hearly, hwatch⟩ := exists_watch ask s g
  obtain ⟨outcome, offers, hrun, hoffered, -⟩ := hwatch d state
  obtain ⟨outcome', offers', hwhole, hoffered', hok⟩ := hwatch d' state'
  rw [hok hwilling] at hwhole hoffered'
  cases hoffered' with
  | all =>
    rw [hrun, hwhole]
    refine ⟨?_, ?_, ?_, ?_⟩
    · rw [List.forall_mem_map]
      exact fun _ _ => rfl
    · intro e he hnot
      cases hoffered with
      | all => rw [hearly e he, List.map_nil]
      | refused before after row reason => exact absurd (Except.error.inj he).symm (hnot reason)
    · intro k o reason hk hrefused
      cases hoffered with
      | all =>
        obtain ⟨row, -, rfl⟩ := List.mem_map.mp (List.mem_of_getElem? hk)
        exact nomatch hrefused
      | refused before after row refusal =>
        obtain ⟨rfl, rfl, rfl⟩ := refused_eq hk hrefused
        refine ⟨rfl, ?_, ?_⟩
        · rw [List.map_append, List.take_left]
        · rw [List.map_append, List.map_cons, List.getElem?_append_right le_rfl, Nat.sub_self]
          rfl
    · intro htaken
      obtain ⟨rfl, rfl⟩ := hoffered.eq_all htaken
      rfl

/-- A renderer that takes a given number of rows and refuses the next one. -/
def limited : StatefulRenderer ℕ where
  take _ _ left := if left = 0 then (.error "no room", 0) else (.ok (), left - 1)
  progress _ left := left

/-- A renderer that takes every row. -/
def unlimited : StatefulRenderer Unit where
  take _ _ state := (.ok (), state)
  progress _ state := state

/-- In the prisoners' dilemma the equilibrium and the one member of its component are two rows.  With
room for one, the second is refused. -/
theorem watch_interrupted_dilemma :
    let cliques : Settings := { Settings.standard with reportCliques := true }
    let ask : String → ProgramOutcome := fun _ => .notStarted "not found"
    unlimited.Willing ∧
      SameUntilRefused (watch ask cliques Game.dilemma limited 1)
        (watch ask cliques Game.dilemma unlimited ()) ∧
      (watch ask cliques Game.dilemma limited 1).2.map (fun o => (o.label, o.outcome.toBool)) =
        [("", true), ("convex-1", false)] :=
  have hwilling : unlimited.Willing := fun _ _ _ => rfl
  ⟨hwilling, watch_interrupted _ _ Game.dilemma limited 1 unlimited () hwilling, by decide +kernel⟩

end Solver

end Equilibria
