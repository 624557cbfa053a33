import Mathlib
import Equilibria.Proofs.ExtremeEquilibria
import Equilibria.Proofs.MaximalSubsets

/-!
# The order of the vertices does not matter

A solution numbers the vertices in the order in which they are listed, and the equilibria in the
order in which they are found.  Read by the points that the numbers stand for, it depends on the
sets of points only:

* `Solution.located`, `Solution.locatedCliques`, `Solution.locatedSubsets` — the outcome read so;
* `Solution.SameUpToOrder` — two outcomes that are the same when read so;
* `Solution.mem_located` — every two listed points that match are an equilibrium;
* `Solution.sameUpToOrder_ofVertices` — lists of the same points give the same outcome;
* `Solution.find_of_sameVertices` — and so do enumerators that list the same points.
-/

namespace Equilibria

namespace Solution

open Components

variable {α : Type}

/-! ### Outcomes by points -/

/-- The point of the vertex of a number. -/
def pointAt (vs : List (Vertex α)) (i : ℕ) : List α := (vs.map Vertex.point).getD i []

/-- The equilibria, each by the points of its vertices and its profile. -/
def located (s : Solution α) : List ((List α × List α) × MixedProfile α) :=
  s.equilibria.map fun e => (named (pointAt s.first) (pointAt s.second) e.vertices, e.profile)

/-- The connected components, each by the points of its equilibria in no order. -/
def locatedCliques (s : Solution α) : List (Multiset (List α × List α)) :=
  (s.cliques.map (List.map (nameAt (pointAt s.first) (pointAt s.second) s.vertexPairs))).map
    Multiset.ofList

/-- The maximal Nash subsets, each by the points of its vertices and equilibria in no order. -/
def locatedSubsets (s : Solution α) : List (Piece (List α) (List α)) :=
  s.maximalNashSubsets.map (pieceOf (pointAt s.first) (pointAt s.second) s.vertexPairs)

/-- Two outcomes that differ in the order of what they list, and in the numbers that follow it. -/
structure SameUpToOrder (s t : Solution α) : Prop where
  equilibria : s.located.Perm t.located
  cliques : s.locatedCliques.Perm t.locatedCliques
  subsets : s.locatedSubsets.Perm t.locatedSubsets

/-! ### Outcomes of lists of points -/

theorem map_named_vertexPairs (s : Solution α) :
    s.vertexPairs.map (named (pointAt s.first) (pointAt s.second)) = s.located.map Prod.fst := by
  rw [vertexPairs, located, List.map_map, List.map_map]
  rfl

variable [Scalar α] {p q : Polytope α} {ps qs ps' qs' : VertexSet α} {v w : List α}

theorem pointAt_eq {r : Polytope α} {points : List (List α)} {i : ℕ} (h : points[i]? = some v) :
    pointAt (points.map r.vertex) i = v := by
  have hpoint : (points.map r.vertex).map Vertex.point = points := by
    rw [List.map_map]
    exact List.map_id _
  rw [pointAt, hpoint, List.getD_eq_getElem?_getD, h]
  rfl

theorem mem_vertexPairs {a : ℕ × ℕ} (ha : a ∈ (ofVertices p q ps qs).vertexPairs) :
    ∃ v w, ps.points[a.1]? = some v ∧ qs.points[a.2]? = some w ∧
      matching p.numLabels (p.vertex v) (q.vertex w) = true := by
  obtain ⟨e, he, rfl⟩ := List.mem_map.mp ha
  obtain ⟨v, w, hv, hw, hmatch, -⟩ := mem_ofVertices.mp he
  exact ⟨v, w, hv, hw, hmatch⟩

/-- **Every two listed points that match are an equilibrium.** -/
theorem mem_located {z : MixedProfile α} :
    ((v, w), z) ∈ (ofVertices p q ps qs).located ↔ v ∈ ps.points ∧ w ∈ qs.points ∧
      matching p.numLabels (p.vertex v) (q.vertex w) = true ∧ z = MixedProfile.ofWeights [v, w] := by
  rw [located, List.mem_map]
  constructor
  · rintro ⟨e, he, heq⟩
    obtain ⟨v', w', hv, hw, hmatch, hprofile⟩ := mem_ofVertices.mp he
    obtain ⟨hpair, rfl⟩ := Prod.mk.inj heq
    obtain ⟨hfirst, hsecond⟩ := Prod.mk.inj hpair
    obtain rfl : v' = v := (pointAt_eq hv).symm.trans hfirst
    obtain rfl : w' = w := (pointAt_eq hw).symm.trans hsecond
    exact ⟨List.mem_of_getElem? hv, List.mem_of_getElem? hw, hmatch, hprofile⟩
  · rintro ⟨hv, hw, hmatch, rfl⟩
    obtain ⟨i, hi⟩ := List.getElem?_of_mem hv
    obtain ⟨j, hj⟩ := List.getElem?_of_mem hw
    exact ⟨⟨MixedProfile.ofWeights [v, w], (i, j)⟩, mem_ofVertices.mpr ⟨v, w, hi, hj, hmatch, rfl⟩,
      Prod.ext (Prod.ext (pointAt_eq hi) (pointAt_eq hj)) rfl⟩

theorem nodup_vertexPairs : (ofVertices p q ps qs).vertexPairs.Nodup := nodup_pairUp _ _ _

theorem apart_ofVertices (hps : ps.points.Nodup) (hqs : qs.points.Nodup) :
    Apart (ofVertices p q ps qs).vertexPairs (pointAt (ofVertices p q ps qs).first)
      (pointAt (ofVertices p q ps qs).second) where
  first := by
    intro a ha b hb heq
    obtain ⟨v, -, hv, -⟩ := mem_vertexPairs ha
    obtain ⟨v', -, hv', -⟩ := mem_vertexPairs hb
    obtain rfl : v = v' := (pointAt_eq hv).symm.trans (heq.trans (pointAt_eq hv'))
    exact (List.getElem?_inj (List.getElem?_eq_some_iff.mp hv).1 hps).mp (hv.trans hv'.symm)
  second := by
    intro a ha b hb heq
    obtain ⟨-, w, -, hw, -⟩ := mem_vertexPairs ha
    obtain ⟨-, w', -, hw', -⟩ := mem_vertexPairs hb
    obtain rfl : w = w' := (pointAt_eq hw).symm.trans (heq.trans (pointAt_eq hw'))
    exact (List.getElem?_inj (List.getElem?_eq_some_iff.mp hw).1 hqs).mp (hw.trans hw'.symm)

theorem nodup_located (hps : ps.points.Nodup) (hqs : qs.points.Nodup) :
    (ofVertices p q ps qs).located.Nodup := by
  refine List.Nodup.of_map Prod.fst ?_
  rw [← map_named_vertexPairs, List.nodup_map_iff_inj_on nodup_vertexPairs]
  exact fun a ha b hb => (apart_ofVertices hps hqs).named_inj ha hb

/-- **Lists of the same points give the same outcome.** -/
theorem sameUpToOrder_ofVertices (hps : ps.points.Nodup) (hqs : qs.points.Nodup)
    (hps' : ps'.points.Nodup) (hqs' : qs'.points.Nodup)
    (hfirst : ∀ v, v ∈ ps.points ↔ v ∈ ps'.points) (hsecond : ∀ w, w ∈ qs.points ↔ w ∈ qs'.points) :
    (ofVertices p q ps qs).SameUpToOrder (ofVertices p q ps' qs') := by
  set s := ofVertices p q ps qs
  set t := ofVertices p q ps' qs'
  have hlocated : s.located.Perm t.located := by
    rw [List.perm_ext_iff_of_nodup (nodup_located hps hqs) (nodup_located hps' hqs')]
    rintro ⟨⟨v, w⟩, z⟩
    rw [mem_located, mem_located, hfirst, hsecond]
  have hpairs : ∀ z, z ∈ s.vertexPairs.map (named (pointAt s.first) (pointAt s.second)) ↔
      z ∈ t.vertexPairs.map (named (pointAt t.first) (pointAt t.second)) := by
    intro z
    rw [map_named_vertexPairs, map_named_vertexPairs]
    exact (hlocated.map Prod.fst).mem_iff
  have hset : {z | z ∈ s.vertexPairs.map (named (pointAt s.first) (pointAt s.second))} =
      {z | z ∈ t.vertexPairs.map (named (pointAt t.first) (pointAt t.second))} := Set.ext hpairs
  have hs : Apart s.vertexPairs (pointAt s.first) (pointAt s.second) := apart_ofVertices hps hqs
  have ht : Apart t.vertexPairs (pointAt t.first) (pointAt t.second) := apart_ofVertices hps' hqs'
  refine ⟨hlocated, ?_, ?_⟩
  · have hclasses := ht.classes_named nodup_vertexPairs
    rw [← hset] at hclasses
    exact (hs.classes_named nodup_vertexPairs).perm hclasses hpairs
  · refine (List.perm_ext_iff_of_nodup hs.nodup_pieces ht.nodup_pieces).mpr fun T => ?_
    rw [hs.mem_pieces_iff nodup_vertexPairs, ht.mem_pieces_iff nodup_vertexPairs, hset]

end Solution

/-! ### Enumerators -/

/-- Two enumerators list the same points of a polytope, each of the two every point once. -/
def Polytope.SameVertices {α : Type} (r : Polytope α) (e e' : VertexEnumerator α) : Prop :=
  ∃ vs ws, e r = .ok vs ∧ e' r = .ok ws ∧ vs.points.Nodup ∧ ws.points.Nodup ∧
    ∀ v, v ∈ vs.points ↔ v ∈ ws.points

theorem Polytope.SameVertices.symm {α : Type} {r : Polytope α} {e e' : VertexEnumerator α}
    (h : r.SameVertices e e') : r.SameVertices e' e := by
  obtain ⟨vs, ws, hvs, hws, hnodup, hnodup', hmem⟩ := h
  exact ⟨ws, vs, hws, hvs, hnodup', hnodup, fun v => (hmem v).symm⟩

/-- **Enumerators that list the same points give the same outcome.** -/
theorem Solution.find_of_sameVertices {α : Type} [Scalar α] {g : Game} {p q : Polytope α}
    {e e' : VertexEnumerator α} (hvalid : g.validate = .ok ()) (hpair : Polytope.pair g = .ok (p, q))
    (hp : p.SameVertices e e') (hq : q.SameVertices e e') :
    ∃ s t, find e g = .ok s ∧ find e' g = .ok t ∧ s.SameUpToOrder t := by
  obtain ⟨ps, ps', hps, hps', hnodup₁, hnodup₁', hfirst⟩ := hp
  obtain ⟨qs, qs', hqs, hqs', hnodup₂, hnodup₂', hsecond⟩ := hq
  refine ⟨ofVertices p q ps qs, ofVertices p q ps' qs', ?_, ?_,
    sameUpToOrder_ofVertices hnodup₁ hnodup₂ hnodup₁' hnodup₂' hfirst hsecond⟩
  · simp only [find, hvalid, hpair, hps, hqs]
  · simp only [find, hvalid, hpair, hps', hqs']

end Equilibria
