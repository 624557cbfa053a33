import Mathlib
import Equilibria.Delegate
import Equilibria.Proofs.VertexOrder

/-!
# Vertices from any source

It does not matter who lists the vertices of the two polytopes, nor in which order:

* `Polytope.exists_hRepresentation` — an exact polytope can always be handed to a program;
* `Delegate.distinct_spec` — of points of one length, every one is kept once;
* `Delegate.ListsVertices` — a program whose output is read as the vertices of a polytope;
* `Delegate.exists_vertices` — asking it gives every vertex once;
* `Solution.find_interchangeable` — sources of the same vertices give the same outcome, up to order.
-/

namespace Equilibria

/-! ### What a program is asked -/

namespace Representation

theorem exists_inequality (row : List ℚ) : ∃ ws, inequality row = .ok ws := by
  induction row with
  | nil => exact ⟨[], rfl⟩
  | cons c cs ih =>
    obtain ⟨ws, hws⟩ := ih
    exact ⟨Rational.text (-c) :: ws, by simp only [inequality, Scalar.toRational?, hws]⟩

theorem exists_inequalities (rows : List (List ℚ)) : ∃ ls, inequalities rows = .ok ls := by
  induction rows with
  | nil => exact ⟨[], rfl⟩
  | cons row rows ih =>
    obtain ⟨ws, hws⟩ := exists_inequality row
    obtain ⟨ls, hls⟩ := ih
    exact ⟨line ("1" :: ws) :: ls, by simp only [inequalities, hws, hls]⟩

end Representation

/-- **An exact polytope can always be handed to a program.** -/
theorem Polytope.exists_hRepresentation (r : Polytope ℚ) : ∃ input, r.hRepresentation = .ok input := by
  obtain ⟨ls, hls⟩ := Representation.exists_inequalities r.constraints
  unfold hRepresentation
  rw [hls]
  exact ⟨_, rfl⟩

namespace Delegate

/-! ### What it answers -/

/-- Keeps one more point unless it is known. -/
def keep (kept : List (List ℚ)) (point : List ℚ) : List (List ℚ) :=
  if kept.any fun k => Search.samePoint k point then kept else point :: kept

theorem distinct_eq (points : List (List ℚ)) : distinct points = (points.foldl keep []).reverse := rfl

/-- What is kept of points of one length: every one, and none twice. -/
structure Keeps (n : ℕ) (points kept : List (List ℚ)) : Prop where
  nodup : kept.Nodup
  mem : ∀ v, v ∈ kept ↔ v ∈ points
  length : ∀ v ∈ points, v.length = n

theorem Keeps.keep {n : ℕ} {points kept : List (List ℚ)} (h : Keeps n points kept) {point : List ℚ}
    (hpoint : point.length = n) : Keeps n (points ++ [point]) (keep kept point) := by
  have hknown : (kept.any fun k => Search.samePoint k point) = true ↔ point ∈ kept :=
    Search.any_samePoint_iff fun v hv => (h.length v ((h.mem v).mp hv)).trans hpoint.symm
  have hlength : ∀ v ∈ points ++ [point], v.length = n :=
    List.forall_mem_append.mpr ⟨h.length, List.forall_mem_singleton.mpr hpoint⟩
  unfold Delegate.keep
  split_ifs with hmem
  · rw [hknown] at hmem
    refine ⟨h.nodup, fun v => ?_, hlength⟩
    rw [List.mem_append, ← h.mem, List.mem_singleton, iff_self_or]
    rintro rfl
    exact hmem
  · rw [hknown] at hmem
    refine ⟨List.nodup_cons.mpr ⟨hmem, h.nodup⟩, fun v => ?_, hlength⟩
    rw [List.mem_cons, List.mem_append, ← h.mem, List.mem_singleton, or_comm]

/-- **Of points of one length, every one is kept once.** -/
theorem distinct_spec {n : ℕ} {points : List (List ℚ)} (hlength : ∀ v ∈ points, v.length = n) :
    (distinct points).Nodup ∧ ∀ v, v ∈ distinct points ↔ v ∈ points := by
  have hkeeps : Keeps n points (points.foldl keep []) := by
    induction points using List.reverseRecOn with
    | nil => exact ⟨List.nodup_nil, fun _ => Iff.rfl, hlength⟩
    | append_singleton points point ih =>
      obtain ⟨hbefore, hpoint⟩ := List.forall_mem_append.mp hlength
      rw [List.foldl_append]
      exact (ih hbefore).keep (hpoint point (List.mem_singleton_self _))
  rw [distinct_eq]
  exact ⟨List.nodup_reverse.mpr hkeeps.nodup, fun v => List.mem_reverse.trans (hkeeps.mem v)⟩

/-- Asked for a polytope the program ends well, and what it writes is read as a list of the vertices
of the polytope, in any order and with any repetitions. -/
def ListsVertices (d : Delegate) (r : Polytope ℚ) : Prop :=
  ∀ input, r.hRepresentation = .ok input →
    ∃ output complaint text vs, d.ask input = .exited 0 output complaint ∧
      Utf8.decode output = .ok text ∧ Representation.parseVertices text r.dimension = .ok vs ∧
      ∀ v, v ∈ vs ↔ ∃ z ∈ r.body.extremePoints ℚ, v = List.ofFn z

variable {d : Delegate} {r : Polytope ℚ}

/-- **Asking the program gives every vertex once.** -/
theorem exists_vertices (h : d.ListsVertices r) :
    ∃ vs : VertexSet ℚ, d.vertices r = .ok vs ∧ vs.points.Nodup ∧
      ∀ v, v ∈ vs.points ↔ ∃ z ∈ r.body.extremePoints ℚ, v = List.ofFn z := by
  obtain ⟨input, hinput⟩ := r.exists_hRepresentation
  obtain ⟨output, complaint, text, vs, hask, htext, hparse, hmem⟩ := h input hinput
  have hlength : ∀ v ∈ vs, v.length = r.dimension := by
    intro v hv
    obtain ⟨z, -, rfl⟩ := (hmem v).mp hv
    exact List.length_ofFn
  obtain ⟨hnodup, hsame⟩ := distinct_spec hlength
  have hexact : vs.map (fun v => v.map (Scalar.ofRational : ℚ → ℚ)) = vs :=
    (List.map_congr_left fun v _ => List.map_id v).trans (List.map_id vs)
  refine ⟨⟨distinct vs, 0⟩, ?_, hnodup, fun v => (hsame v).trans (hmem v)⟩
  have hanswer : d.answer input = .ok text := by
    simp only [answer, hask, htext, ne_eq, not_true_eq_false, if_false]
  simp only [vertices, hinput, hanswer, hparse, hexact]

/-- A program that lists the vertices does what the native enumeration does. -/
theorem ListsVertices.sameVertices (h : d.ListsVertices r) (hr : r.Positive) :
    r.SameVertices Polytope.vertices d.vertices := by
  obtain ⟨vs, hvs, hnodup, hmem⟩ := Polytope.mem_vertices hr
  obtain ⟨ws, hws, hnodup', hmem'⟩ := exists_vertices h
  exact ⟨vs, ws, hvs, hws, hnodup, hnodup', fun v => (hmem v).trans (hmem' v).symm⟩

end Delegate

/-! ### Solutions -/

/-- **Sources of the same vertices give the same outcome**, up to the order of what it lists: any two
enumerators that list the same points of both polytopes, and in particular the native one and a
program that lists the vertices. -/
theorem Solution.find_interchangeable (g : Game) (h : g.Valid) (htwo : g.numPlayers = 2) :
    (∀ e e' : VertexEnumerator ℚ, (Polytope.first g).SameVertices e e' →
      (Polytope.second g).SameVertices e e' →
        ∃ s t : Solution ℚ, find e g = .ok s ∧ find e' g = .ok t ∧ s.SameUpToOrder t) ∧
    ∀ d : Delegate, d.ListsVertices (Polytope.first g) → d.ListsVertices (Polytope.second g) →
      ∃ s t : Solution ℚ, find Polytope.vertices g = .ok s ∧ find d.vertices g = .ok t ∧ s.SameUpToOrder t := by
  have h₀ : 0 < g.numStrategies 0 := Game.numStrategies_pos h.accepted (by omega)
  have h₁ : 0 < g.numStrategies 1 := Game.numStrategies_pos h.accepted (by omega)
  have hpair := Polytope.pair_eq htwo
  refine ⟨fun e e' => find_of_sameVertices h.accepted hpair, fun d hfirst hsecond => ?_⟩
  exact find_of_sameVertices h.accepted hpair
    (hfirst.sameVertices (Polytope.positive_first h₁))
    (hsecond.sameVertices (Polytope.positive_second h₀))

/-- What a program may write for either polytope of the dilemma: the vertices in an order of its own,
the origin twice. -/
def Delegate.dilemmaText : String :=
  "begin\n4 3 rational\n1 0 0\n1 1/6 0\n1 0 1/2\n1 0 0\nend\n"

/-- A program that writes this text. -/
def Delegate.dilemmaLister : Delegate :=
  ⟨"lister", fun _ => .exited 0 (dilemmaText.toList.map fun c => UInt8.ofNat c.toNat) ""⟩

theorem Delegate.listsVertices_dilemmaLister {r : Polytope ℚ} (hr : r.Positive)
    (hdimension : r.dimension = 2)
    (hpoints : r.vertices.toOption.map VertexSet.points = some [[0, 0], [0, 1 / 2], [1 / 6, 0]]) :
    dilemmaLister.ListsVertices r := by
  intro input _
  obtain ⟨vs, hvs, -, hmem⟩ := Polytope.mem_vertices hr
  rw [hvs] at hpoints
  have hlisted : vs.points = [[0, 0], [0, 1 / 2], [1 / 6, 0]] := Option.some.inj hpoints
  refine ⟨_, _, dilemmaText, [[0, 0], [1 / 6, 0], [0, 1 / 2], [0, 0]], rfl, by decide +kernel, ?_,
    fun v => ?_⟩
  · rw [hdimension]
    decide +kernel
  · rw [← hmem, hlisted]
    simp only [List.mem_cons, List.not_mem_nil, or_false]
    tauto

theorem Solution.find_interchangeable_dilemma :
    Game.dilemma.Valid ∧ Game.dilemma.numPlayers = 2 ∧
      (∃ s t : Solution ℚ, find Delegate.dilemmaLister.vertices Game.dilemma = .ok s ∧
        find Polytope.vertices Game.dilemma = .ok t ∧ s.SameUpToOrder t) ∧
      ∃ s t : Solution ℚ, find Polytope.vertices Game.dilemma = .ok s ∧
        find Delegate.dilemmaLister.vertices Game.dilemma = .ok t ∧ s.SameUpToOrder t := by
  have hfirst : Delegate.dilemmaLister.ListsVertices (Polytope.first Game.dilemma) :=
    Delegate.listsVertices_dilemmaLister (Polytope.positive_first (by decide)) rfl (by decide +kernel)
  have hsecond : Delegate.dilemmaLister.ListsVertices (Polytope.second Game.dilemma) :=
    Delegate.listsVertices_dilemmaLister (Polytope.positive_second (by decide)) rfl (by decide +kernel)
  obtain ⟨hany, hprogram⟩ := find_interchangeable Game.dilemma Game.valid_dilemma rfl
  exact ⟨Game.valid_dilemma, rfl,
    hany _ _ (hfirst.sameVertices (Polytope.positive_first (by decide))).symm
      (hsecond.sameVertices (Polytope.positive_second (by decide))).symm,
    hprogram _ hfirst hsecond⟩

end Equilibria
