import Mathlib
import Equilibria.Proofs.LinkedPairs

/-!
# Subsets and components by name

The maximal subsets and the components of pairs are made from numbers of vertices and numbers of
pairs.  Under names that keep the vertices apart, what they are depends on the set of named pairs
only, not on the order in which the pairs are listed:

* `exists_common` — a closed set is what some vertices are paired with;
* `mem_first_iff`, `mem_second_iff` — a subset cannot be enlarged on either side;
* `Piece.IsMaximal` — two sets of names that are all paired with each other and cannot be enlarged;
* `mem_pieces_iff`, `nodup_pieces` — the named subsets are exactly these, each once;
* `classes_named` — the named components are the classes of chains in which two successive pairs
  share a name.
-/

namespace Equilibria

namespace Components

variable {pairs : List (ℕ × ℕ)} {set : List ℕ} {S S' : NashSubset} {v w : ℕ}

/-! ### Subsets cannot be enlarged -/

/-- **A closed set is what some vertices are paired with.** -/
theorem exists_common (hset : set ∈ closedSets pairs) :
    ∃ vs : List ℕ, ∀ w, w ∈ set ↔ ∀ v ∈ vs, (v, w) ∈ pairs := by
  refine forall_mem_closedSets (P := fun set => ∃ vs : List ℕ, ∀ w, w ∈ set ↔
    ∀ v ∈ vs, (v, w) ∈ pairs) (fun e he => ⟨[e.1], fun w => ?_⟩) ?_ set hset
  · rw [List.forall_mem_singleton]
    exact mem_neighbourhood_iff he
  · rintro set ⟨vs, hvs⟩ other ⟨us, hus⟩ -
    exact ⟨vs ++ us, fun w => by rw [mem_meet, hvs, hus, List.forall_mem_append]⟩

theorem mem_first_iff (hS : S ∈ maximalNashSubsets pairs) :
    v ∈ S.first ↔ ∀ w ∈ S.second, (v, w) ∈ pairs := by
  obtain ⟨w, hw⟩ := List.exists_mem_of_ne_nil _ (ne_nil_of_subset hS).2
  refine ⟨fun hv w hw => mem_pairs_of_subset hS hv hw, fun hall => ?_⟩
  obtain ⟨second, -, rfl⟩ := List.mem_map.mp hS
  obtain ⟨ws, hws⟩ := exists_neighbourhood (hall w hw)
  exact mem_subsetOf_first.mpr ⟨ws, hws, fun n hn => (mem_neighbourhood_iff hws).mpr (hall n hn)⟩

theorem mem_second_iff (hS : S ∈ maximalNashSubsets pairs) :
    w ∈ S.second ↔ ∀ v ∈ S.first, (v, w) ∈ pairs := by
  refine ⟨fun hw v hv => mem_pairs_of_subset hS hv hw, fun hall => ?_⟩
  obtain ⟨second, hsecond, rfl⟩ := List.mem_map.mp hS
  obtain ⟨vs, hvs⟩ := exists_common hsecond
  refine (hvs w).mpr fun v hv => hall v ((mem_first_iff hS).mpr fun n hn => ?_)
  exact (hvs n).mp hn v hv

/-! ### Every member once, in order -/

theorem nodup_first (hS : S ∈ maximalNashSubsets pairs) : S.first.Nodup := by
  obtain ⟨second, -, rfl⟩ := List.mem_map.mp hS
  refine (perm_ascending _).nodup_iff.mpr ?_
  exact (nodup_keys pairs).sublist (List.filter_sublist.map _)

theorem pairwise_first (hS : S ∈ maximalNashSubsets pairs) : S.first.Pairwise (· < ·) := by
  have hsorted : S.first.Pairwise (· ≤ ·) := by
    obtain ⟨second, -, rfl⟩ := List.mem_map.mp hS
    exact pairwise_ascending _
  exact (hsorted.and (nodup_first hS)).imp fun h => lt_of_le_of_ne h.1 h.2

theorem pairwise_second (hS : S ∈ maximalNashSubsets pairs) : S.second.Pairwise (· < ·) := by
  obtain ⟨second, hsecond, rfl⟩ := List.mem_map.mp hS
  exact (closing_closedSets pairs).1.family.sorted second hsecond

theorem nodup_second (hS : S ∈ maximalNashSubsets pairs) : S.second.Nodup :=
  (pairwise_second hS).imp ne_of_lt

theorem pairwise_equilibria (hS : S ∈ maximalNashSubsets pairs) :
    S.equilibria.Pairwise (· < ·) := by
  obtain ⟨second, -, rfl⟩ := List.mem_map.mp hS
  have hplaces : (pairs.zipIdx.map Prod.snd).Pairwise (· < ·) := by
    rw [List.zipIdx_map_snd]
    exact List.pairwise_lt_range'
  exact hplaces.sublist (List.filter_sublist.map _)

theorem nodup_equilibria (hS : S ∈ maximalNashSubsets pairs) : S.equilibria.Nodup :=
  (pairwise_equilibria hS).imp ne_of_lt

/-- A subset is known by its second side. -/
theorem eq_of_second (hS : S ∈ maximalNashSubsets pairs) (hS' : S' ∈ maximalNashSubsets pairs)
    (hsame : ∀ w, w ∈ S.second ↔ w ∈ S'.second) : S = S' := by
  have heq := (pairwise_second hS).eq_of_mem_iff (pairwise_second hS') hsame
  obtain ⟨second, -, rfl⟩ := List.mem_map.mp hS
  obtain ⟨second', -, rfl⟩ := List.mem_map.mp hS'
  exact congrArg (subsetOf pairs) heq

theorem nodup_maximalNashSubsets (pairs : List (ℕ × ℕ)) : (maximalNashSubsets pairs).Nodup :=
  (closing_closedSets pairs).1.family.nodup.map fun _ _ heq => congrArg NashSubset.second heq

/-! ### Names -/

section Names

variable {γ δ : Type} (f : ℕ → γ) (g : ℕ → δ)

/-- A pair of vertices by their names. -/
def named (a : ℕ × ℕ) : γ × δ := (f a.1, g a.2)

/-- The names of the pair of a number. -/
def nameAt (pairs : List (ℕ × ℕ)) (i : ℕ) : γ × δ := named f g (pairs.getD i (0, 0))

/-- A subset by the names of its vertices and of its pairs, in no order. -/
@[ext]
structure Piece (γ δ : Type) where
  /-- The names on the first side. -/
  first : Multiset γ
  /-- The names on the second side. -/
  second : Multiset δ
  /-- The named pairs. -/
  pairs : Multiset (γ × δ)

/-- A subset by names. -/
def pieceOf (pairs : List (ℕ × ℕ)) (S : NashSubset) : Piece γ δ :=
  ⟨S.first.map f, S.second.map g, S.equilibria.map (nameAt f g pairs)⟩

/-- Two sets that are all paired with each other and cannot be enlarged, with their pairs. -/
structure Piece.IsMaximal (P : Set (γ × δ)) (T : Piece γ δ) : Prop where
  nodup_first : T.first.Nodup
  nodup_second : T.second.Nodup
  nodup_pairs : T.pairs.Nodup
  first_nonempty : ∃ x, x ∈ T.first
  second_nonempty : ∃ y, y ∈ T.second
  mem_first : ∀ x, x ∈ T.first ↔ ∀ y ∈ T.second, (x, y) ∈ P
  mem_second : ∀ y, y ∈ T.second ↔ ∀ x ∈ T.first, (x, y) ∈ P
  mem_pairs : ∀ z, z ∈ T.pairs ↔ z.1 ∈ T.first ∧ z.2 ∈ T.second

/-- A maximal piece inside another is all of it. -/
theorem Piece.IsMaximal.eq_of_subset {P : Set (γ × δ)} {T T' : Piece γ δ} (h : T.IsMaximal P)
    (h' : T'.IsMaximal P) (hfirst : ∀ x ∈ T.first, x ∈ T'.first)
    (hsecond : ∀ y ∈ T.second, y ∈ T'.second) : T = T' := by
  have hfirst' : ∀ x, x ∈ T.first ↔ x ∈ T'.first := fun x =>
    ⟨hfirst x, fun hx => (h.mem_first x).mpr fun y hy => (h'.mem_first x).mp hx y (hsecond y hy)⟩
  have hsecond' : ∀ y, y ∈ T.second ↔ y ∈ T'.second := fun y =>
    ⟨hsecond y, fun hy => (h.mem_second y).mpr fun x hx => (h'.mem_second y).mp hy x (hfirst x hx)⟩
  apply Piece.ext
  · exact (h.nodup_first.ext h'.nodup_first).mpr hfirst'
  · exact (h.nodup_second.ext h'.nodup_second).mpr hsecond'
  · refine (h.nodup_pairs.ext h'.nodup_pairs).mpr fun z => ?_
    rw [h.mem_pairs, h'.mem_pairs, hfirst', hsecond']

/-- The names keep the vertices of the pairs apart. -/
structure Apart (pairs : List (ℕ × ℕ)) (f : ℕ → γ) (g : ℕ → δ) : Prop where
  first : ∀ a ∈ pairs, ∀ b ∈ pairs, f a.1 = f b.1 → a.1 = b.1
  second : ∀ a ∈ pairs, ∀ b ∈ pairs, g a.2 = g b.2 → a.2 = b.2

variable {f g}

theorem Apart.named_inj (h : Apart pairs f g) {a b : ℕ × ℕ} (ha : a ∈ pairs) (hb : b ∈ pairs)
    (heq : named f g a = named f g b) : a = b := by
  obtain ⟨hfirst, hsecond⟩ := Prod.mk.inj heq
  exact Prod.ext (h.first a ha b hb hfirst) (h.second a ha b hb hsecond)

/-- Vertices of pairs are paired when their names are. -/
theorem Apart.mem_named_iff (h : Apart pairs f g) {a b : ℕ × ℕ} (ha : a ∈ pairs) (hb : b ∈ pairs) :
    (f a.1, g b.2) ∈ pairs.map (named f g) ↔ (a.1, b.2) ∈ pairs := by
  refine ⟨fun hmem => ?_, fun hmem => List.mem_map.mpr ⟨_, hmem, rfl⟩⟩
  obtain ⟨c, hc, heq⟩ := List.mem_map.mp hmem
  obtain ⟨hfirst, hsecond⟩ := Prod.mk.inj heq
  rw [← h.first c hc a ha hfirst, ← h.second c hc b hb hsecond]
  exact hc

theorem nameAt_eq {i : ℕ} {a : ℕ × ℕ} (ha : pairs[i]? = some a) :
    nameAt f g pairs i = named f g a := by
  rw [nameAt, List.getD_eq_getElem?_getD, ha]
  rfl

theorem nameAt_of_lt {i : ℕ} (hi : i < pairs.length) :
    nameAt f g pairs i = named f g pairs[i] := nameAt_eq (List.getElem?_eq_getElem hi)

theorem map_nameAt (f : ℕ → γ) (g : ℕ → δ) (pairs : List (ℕ × ℕ)) :
    (List.range pairs.length).map (nameAt f g pairs) = pairs.map (named f g) := by
  have hpairs := congrArg (List.map (named f g)) (map_getD_range pairs (0, 0))
  rwa [List.map_map] at hpairs

theorem Apart.nameAt_inj (h : Apart pairs f g) (hpairs : pairs.Nodup) {i j : ℕ}
    (hi : i < pairs.length) (hj : j < pairs.length)
    (heq : nameAt f g pairs i = nameAt f g pairs j) : i = j := by
  rw [nameAt_of_lt hi, nameAt_of_lt hj] at heq
  exact hpairs.getElem_inj_iff.mp (h.named_inj (List.getElem_mem hi) (List.getElem_mem hj) heq)

/-! ### Named subsets -/

/-- The vertices of a subset are vertices of pairs. -/
theorem exists_pair (hS : S ∈ maximalNashSubsets pairs) :
    (∀ v ∈ S.first, ∃ a ∈ pairs, a.1 = v) ∧ ∀ w ∈ S.second, ∃ a ∈ pairs, a.2 = w := by
  obtain ⟨hfirst, hsecond⟩ := ne_nil_of_subset hS
  obtain ⟨v₀, hv₀⟩ := List.exists_mem_of_ne_nil _ hfirst
  obtain ⟨w₀, hw₀⟩ := List.exists_mem_of_ne_nil _ hsecond
  exact ⟨fun v hv => ⟨_, mem_pairs_of_subset hS hv hw₀, rfl⟩,
    fun w hw => ⟨_, mem_pairs_of_subset hS hv₀ hw, rfl⟩⟩

/-- What the names of a subset's second side are all paired with is on its first side. -/
theorem Apart.exists_first (h : Apart pairs f g) (hS : S ∈ maximalNashSubsets pairs) {x : γ}
    (hx : ∀ w ∈ S.second, (x, g w) ∈ pairs.map (named f g)) : ∃ v ∈ S.first, f v = x := by
  obtain ⟨w₀, hw₀⟩ := List.exists_mem_of_ne_nil _ (ne_nil_of_subset hS).2
  obtain ⟨a, ha, heq⟩ := List.mem_map.mp (hx w₀ hw₀)
  obtain rfl : f a.1 = x := congrArg Prod.fst heq
  refine ⟨a.1, (mem_first_iff hS).mpr fun w hw => ?_, rfl⟩
  obtain ⟨b, hb, rfl⟩ := (exists_pair hS).2 w hw
  exact (h.mem_named_iff ha hb).mp (hx b.2 hw)

theorem Apart.exists_second (h : Apart pairs f g) (hS : S ∈ maximalNashSubsets pairs) {y : δ}
    (hy : ∀ v ∈ S.first, (f v, y) ∈ pairs.map (named f g)) : ∃ w ∈ S.second, g w = y := by
  obtain ⟨v₀, hv₀⟩ := List.exists_mem_of_ne_nil _ (ne_nil_of_subset hS).1
  obtain ⟨b, hb, heq⟩ := List.mem_map.mp (hy v₀ hv₀)
  obtain rfl : g b.2 = y := congrArg Prod.snd heq
  refine ⟨b.2, (mem_second_iff hS).mpr fun v hv => ?_, rfl⟩
  obtain ⟨a, ha, rfl⟩ := (exists_pair hS).1 v hv
  exact (h.mem_named_iff ha hb).mp (hy a.1 hv)

theorem Apart.nodup_names (h : Apart pairs f g) (hS : S ∈ maximalNashSubsets pairs) :
    (S.first.map f).Nodup ∧ (S.second.map g).Nodup := by
  obtain ⟨hleft, hright⟩ := exists_pair hS
  rw [List.nodup_map_iff_inj_on (nodup_first hS), List.nodup_map_iff_inj_on (nodup_second hS)]
  constructor
  · intro v hv v' hv' heq
    obtain ⟨a, ha, rfl⟩ := hleft v hv
    obtain ⟨b, hb, rfl⟩ := hleft v' hv'
    exact h.first a ha b hb heq
  · intro w hw w' hw' heq
    obtain ⟨a, ha, rfl⟩ := hright w hw
    obtain ⟨b, hb, rfl⟩ := hright w' hw'
    exact h.second a ha b hb heq

theorem Apart.nodup_named_pairs (h : Apart pairs f g) (hpairs : pairs.Nodup)
    (hS : S ∈ maximalNashSubsets pairs) : (S.equilibria.map (nameAt f g pairs)).Nodup := by
  have hlt : ∀ i ∈ S.equilibria, i < pairs.length := fun i hi => by
    obtain ⟨a, ha, -⟩ := (mem_equilibria_of_subset hS).mp hi
    exact (List.getElem?_eq_some_iff.mp ha).1
  rw [List.nodup_map_iff_inj_on (nodup_equilibria hS)]
  exact fun i hi j hj => h.nameAt_inj hpairs (hlt i hi) (hlt j hj)

theorem mem_named_pairs_iff (hS : S ∈ maximalNashSubsets pairs) {z : γ × δ} :
    z ∈ S.equilibria.map (nameAt f g pairs) ↔ z.1 ∈ S.first.map f ∧ z.2 ∈ S.second.map g := by
  constructor
  · intro hz
    obtain ⟨i, hi, rfl⟩ := List.mem_map.mp hz
    obtain ⟨a, ha, hfirst, hsecond⟩ := (mem_equilibria_of_subset hS).mp hi
    rw [nameAt_eq ha]
    exact ⟨List.mem_map_of_mem hfirst, List.mem_map_of_mem hsecond⟩
  · rintro ⟨hfirst, hsecond⟩
    obtain ⟨v, hv, hvx⟩ := List.mem_map.mp hfirst
    obtain ⟨w, hw, hwy⟩ := List.mem_map.mp hsecond
    obtain ⟨i, hi⟩ := List.getElem?_of_mem (mem_pairs_of_subset hS hv hw)
    refine List.mem_map.mpr ⟨i, (mem_equilibria_of_subset hS).mpr ⟨(v, w), hi, hv, hw⟩, ?_⟩
    rw [nameAt_eq hi]
    exact Prod.ext hvx hwy

/-- **A named subset is maximal.** -/
theorem Apart.isMaximal_pieceOf (h : Apart pairs f g) (hpairs : pairs.Nodup)
    (hS : S ∈ maximalNashSubsets pairs) :
    (pieceOf f g pairs S).IsMaximal {z | z ∈ pairs.map (named f g)} where
  nodup_first := Multiset.coe_nodup.mpr (h.nodup_names hS).1
  nodup_second := Multiset.coe_nodup.mpr (h.nodup_names hS).2
  nodup_pairs := Multiset.coe_nodup.mpr (h.nodup_named_pairs hpairs hS)
  first_nonempty := by
    obtain ⟨v, hv⟩ := List.exists_mem_of_ne_nil _ (ne_nil_of_subset hS).1
    exact ⟨f v, List.mem_map_of_mem hv⟩
  second_nonempty := by
    obtain ⟨w, hw⟩ := List.exists_mem_of_ne_nil _ (ne_nil_of_subset hS).2
    exact ⟨g w, List.mem_map_of_mem hw⟩
  mem_first := by
    intro x
    show x ∈ S.first.map f ↔ ∀ y ∈ S.second.map g, (x, y) ∈ pairs.map (named f g)
    rw [List.forall_mem_map]
    constructor
    · intro hx w hw
      obtain ⟨v, hv, rfl⟩ := List.mem_map.mp hx
      exact List.mem_map_of_mem (mem_pairs_of_subset hS hv hw)
    · intro hall
      exact List.mem_map.mpr (h.exists_first hS hall)
  mem_second := by
    intro y
    show y ∈ S.second.map g ↔ ∀ x ∈ S.first.map f, (x, y) ∈ pairs.map (named f g)
    rw [List.forall_mem_map]
    constructor
    · intro hy v hv
      obtain ⟨w, hw, rfl⟩ := List.mem_map.mp hy
      exact List.mem_map_of_mem (mem_pairs_of_subset hS hv hw)
    · intro hall
      exact List.mem_map.mpr (h.exists_second hS hall)
  mem_pairs := fun z => mem_named_pairs_iff hS

/-- **The named subsets are the maximal pieces.** -/
theorem Apart.mem_pieces_iff (h : Apart pairs f g) (hpairs : pairs.Nodup) {T : Piece γ δ} :
    T ∈ (maximalNashSubsets pairs).map (pieceOf f g pairs) ↔
      T.IsMaximal {z | z ∈ pairs.map (named f g)} := by
  constructor
  · intro hT
    obtain ⟨S, hS, rfl⟩ := List.mem_map.mp hT
    exact h.isMaximal_pieceOf hpairs hS
  · intro hT
    -- the vertices whose names are in the piece are inside a subset, and that one is no larger
    obtain ⟨x, hx⟩ := hT.first_nonempty
    obtain ⟨y, hy⟩ := hT.second_nonempty
    have hpair : ∀ x ∈ T.first, ∀ y ∈ T.second, ∃ a ∈ pairs, f a.1 = x ∧ g a.2 = y := by
      intro x hx y hy
      obtain ⟨a, ha, heq⟩ := List.mem_map.mp ((hT.mem_first x).mp hx y hy)
      exact ⟨a, ha, congrArg Prod.fst heq, congrArg Prod.snd heq⟩
    obtain ⟨a, ha, hax, hay⟩ := hpair x hx y hy
    obtain ⟨S, hS, hfirst, hsecond⟩ := exists_subset
      (V := {v | ∃ a ∈ pairs, a.1 = v ∧ f v ∈ T.first})
      (W := {w | ∃ a ∈ pairs, a.2 = w ∧ g w ∈ T.second})
      ⟨a.1, a, ha, rfl, hax ▸ hx⟩ ⟨a.2, a, ha, rfl, hay ▸ hy⟩ (by
        rintro v ⟨a, ha, rfl, hv⟩ w ⟨b, hb, rfl, hw⟩
        exact (h.mem_named_iff ha hb).mp ((hT.mem_first _).mp hv _ hw))
    refine List.mem_map.mpr ⟨S, hS, (hT.eq_of_subset (h.isMaximal_pieceOf hpairs hS) ?_ ?_).symm⟩
    · intro x hx
      obtain ⟨a, ha, rfl, -⟩ := hpair x hx y hy
      exact List.mem_map_of_mem (hfirst a.1 ⟨a, ha, rfl, hx⟩)
    · intro y hy
      obtain ⟨a, ha, -, rfl⟩ := hpair x hx y hy
      exact List.mem_map_of_mem (hsecond a.2 ⟨a, ha, rfl, hy⟩)

theorem Apart.nodup_pieces (h : Apart pairs f g) :
    ((maximalNashSubsets pairs).map (pieceOf f g pairs)).Nodup := by
  refine (List.nodup_map_iff_inj_on (nodup_maximalNashSubsets pairs)).mpr fun S hS S' hS' heq => ?_
  have hperm : (S.second.map g).Perm (S'.second.map g) :=
    Multiset.coe_eq_coe.mp (congrArg Piece.second heq)
  have hsub : ∀ {S S' : NashSubset}, S ∈ maximalNashSubsets pairs → S' ∈ maximalNashSubsets pairs →
      (S.second.map g).Perm (S'.second.map g) → ∀ w ∈ S.second, w ∈ S'.second := by
    intro S S' hS hS' hperm w hw
    obtain ⟨w', hw', hname⟩ := List.mem_map.mp (hperm.subset (List.mem_map_of_mem hw))
    obtain ⟨a, ha, rfl⟩ := (exists_pair hS).2 w hw
    obtain ⟨b, hb, rfl⟩ := (exists_pair hS').2 w' hw'
    rwa [← h.second b hb a ha hname]
  exact eq_of_second hS hS' fun w => ⟨hsub hS hS' hperm w, hsub hS' hS hperm.symm w⟩

/-! ### Named components -/

/-- Whether two of the named pairs share a name. -/
def Shares (P : Set (γ × δ)) (z z' : γ × δ) : Prop :=
  z ∈ P ∧ z' ∈ P ∧ (z.1 = z'.1 ∨ z.2 = z'.2)

/-- **The named components** are the classes of chains in which two successive pairs share a name. -/
theorem Apart.classes_named (h : Apart pairs f g) (hpairs : pairs.Nodup) :
    Classes (Relation.ReflTransGen (Shares {z | z ∈ pairs.map (named f g)}))
      (pairs.map (named f g)) ((build pairs).map (List.map (nameAt f g pairs))) := by
  have hinj : ∀ i j, i < pairs.length → j < pairs.length →
      nameAt f g pairs i = nameAt f g pairs j → i = j := fun i j => h.nameAt_inj hpairs
  have hmem : ∀ i, i < pairs.length → nameAt f g pairs i ∈ pairs.map (named f g) := by
    intro i hi
    rw [nameAt_of_lt hi]
    exact List.mem_map_of_mem (List.getElem_mem hi)
  have hstep : ∀ i j, i < pairs.length → j < pairs.length →
      (Shares {z | z ∈ pairs.map (named f g)} (nameAt f g pairs i) (nameAt f g pairs j) ↔
        Adjacent pairs i j) := by
    intro i j hi hj
    have ha := List.getElem_mem hi
    have hb := List.getElem_mem hj
    have hshared : (f pairs[i].1 = f pairs[j].1 ∨ g pairs[i].2 = g pairs[j].2) ↔
        (pairs[i].1 = pairs[j].1 ∨ pairs[i].2 = pairs[j].2) :=
      or_congr ⟨h.first _ ha _ hb, congrArg f⟩ ⟨h.second _ ha _ hb, congrArg g⟩
    constructor
    · rintro ⟨-, -, hsame⟩
      rw [nameAt_of_lt hi, nameAt_of_lt hj] at hsame
      exact ⟨_, _, List.getElem?_eq_getElem hi, List.getElem?_eq_getElem hj, hshared.mp hsame⟩
    · rintro ⟨a, b, hai, hbj, hsame⟩
      obtain rfl := Option.some.inj ((List.getElem?_eq_getElem hi).symm.trans hai)
      obtain rfl := Option.some.inj ((List.getElem?_eq_getElem hj).symm.trans hbj)
      refine ⟨hmem i hi, hmem j hj, ?_⟩
      rw [nameAt_of_lt hi, nameAt_of_lt hj]
      exact hshared.mpr hsame
  have hsource : ∀ z z', Shares {z | z ∈ pairs.map (named f g)} z z' →
      ∃ i, i < pairs.length ∧ nameAt f g pairs i = z := by
    rintro z z' ⟨hz, -⟩
    obtain ⟨a, ha, rfl⟩ := List.mem_map.mp hz
    obtain ⟨i, hi, rfl⟩ := List.mem_iff_getElem.mp ha
    exact ⟨i, hi, nameAt_of_lt hi⟩
  have hchain : ∀ i ∈ List.range pairs.length, ∀ j ∈ List.range pairs.length,
      (Relation.ReflTransGen (Shares {z | z ∈ pairs.map (named f g)}) (nameAt f g pairs i)
        (nameAt f g pairs j) ↔ Linked pairs i j) := fun i hi j hj =>
    reflTransGen_map_iff (P := fun i => i < pairs.length) hinj hstep
      (fun i j hij => ⟨hij.symm.lt_length, hij.lt_length⟩) hsource (List.mem_range.mp hi)
      (List.mem_range.mp hj)
  rw [← map_nameAt] at hchain ⊢
  exact (classes_build pairs).map
    (fun i hi j hj => hinj i j (List.mem_range.mp hi) (List.mem_range.mp hj)) hchain

end Names

end Components

end Equilibria
