import Mathlib
import Equilibria.Proofs.Bicliques
import Equilibria.Proofs.DisjointClasses
import Equilibria.Proofs.GroupedLists

/-!
# The components of shared vertices

`Components.build` goes through the pairs once, joining each with the first pair at either of its
vertices.  Whatever the pairs are:

* `Adjacent`, `Linked` — pairs that share a component, and chains of such pairs;
* `Linking.Of`, `Linking.Of.add` — the invariant of the pass, and one pair of it: the classes are
  chains, and the pairs so far are joined at their vertices;
* `root_linked_eq_iff` — the classes are those of the chains;
* `build_eq` — the components, each with its members in order, by their first members;
* `mem_iff_linked`, `exists_mem_build` — a component holds exactly what is linked with a member, and
  every pair is in one;
* `classes_build` — so that the components group the pairs;
* `pairwise_build` — components come in the order of their first members, and each is in order;
* `exists_component_of_subset` — a maximal subset lies in a single component.
-/

namespace Equilibria

namespace Components

variable {pairs : List (ℕ × ℕ)} {i j k : ℕ} {a : ℕ × ℕ} {s s' : DisjointSets}

/-! ### Chains of shared vertices -/

/-- Whether two pairs share their first or their second vertex. -/
def Adjacent (pairs : List (ℕ × ℕ)) (i j : ℕ) : Prop :=
  ∃ a b, pairs[i]? = some a ∧ pairs[j]? = some b ∧ (a.1 = b.1 ∨ a.2 = b.2)

/-- Whether a chain of pairs that share vertices leads from one to the other. -/
def Linked (pairs : List (ℕ × ℕ)) : ℕ → ℕ → Prop := Relation.ReflTransGen (Adjacent pairs)

theorem Adjacent.symm (h : Adjacent pairs i j) : Adjacent pairs j i := by
  obtain ⟨a, b, ha, hb, hshared⟩ := h
  exact ⟨b, a, hb, ha, hshared.imp Eq.symm Eq.symm⟩

theorem Adjacent.lt_length (h : Adjacent pairs i j) : j < pairs.length := by
  obtain ⟨_, b, -, hb, -⟩ := h
  exact (List.getElem?_eq_some_iff.mp hb).1

theorem Adjacent.linked (h : Adjacent pairs i j) : Linked pairs i j := Relation.ReflTransGen.single h

theorem Linked.refl (pairs : List (ℕ × ℕ)) (i : ℕ) : Linked pairs i i := Relation.ReflTransGen.refl

theorem Linked.trans (h : Linked pairs i j) (h' : Linked pairs j k) : Linked pairs i k :=
  Relation.ReflTransGen.trans h h'

instance (pairs : List (ℕ × ℕ)) : Std.Symm (Adjacent pairs) := ⟨fun _ _ => Adjacent.symm⟩

theorem Linked.symm (h : Linked pairs i j) : Linked pairs j i :=
  Relation.ReflTransGen.stdSymm.symm i j h

theorem Linked.lt_length (h : Linked pairs i j) (hi : i < pairs.length) : j < pairs.length := by
  rcases Relation.ReflTransGen.cases_tail h with heq | ⟨_, -, hstep⟩
  · rwa [heq]
  · exact hstep.lt_length

/-! ### The pass over the pairs -/

/-- Classes that are made of chains. -/
structure Sound (pairs : List (ℕ × ℕ)) (s : DisjointSets) : Prop where
  descending : s.Descending
  length : s.parents.length = pairs.length
  linked : ∀ i j, s.root i = s.root j → Linked pairs i j

/-- Whether classes only grow. -/
def Coarser (s s' : DisjointSets) : Prop := ∀ i j, s.root i = s.root j → s'.root i = s'.root j

/-- What is known of the vertices of one player after the first `k` pairs: every vertex seen comes
from a pair, and every pair so far is in the class of the one noted at its vertex. -/
structure Seen (key : ℕ × ℕ → ℕ) (pairs : List (ℕ × ℕ)) (k : ℕ) (s : DisjointSets)
    (seen : List (ℕ × ℕ)) : Prop where
  from_pair : ∀ v e, seen.lookup v = some e → ∃ b, pairs[e]? = some b ∧ key b = v
  joined : ∀ i b, i < k → pairs[i]? = some b → ∃ e, seen.lookup (key b) = some e ∧ s.root e = s.root i

theorem Seen.coarser {key : ℕ × ℕ → ℕ} {seen : List (ℕ × ℕ)} (h : Seen key pairs k s seen)
    (hcoarser : Coarser s s') : Seen key pairs k s' seen := by
  refine ⟨h.from_pair, fun i b hi hb => ?_⟩
  obtain ⟨e, hlookup, hroot⟩ := h.joined i b hi hb
  exact ⟨e, hlookup, hcoarser _ _ hroot⟩

/-- **One vertex of one pair**: the classes stay sound and only grow, and the pair is joined. -/
theorem Seen.link {key : ℕ × ℕ → ℕ} {seen : List (ℕ × ℕ)} (h : Seen key pairs k s seen)
    (hsound : Sound pairs s) (hkey : ∀ a b, key a = key b → a.1 = b.1 ∨ a.2 = b.2)
    (ha : pairs[k]? = some a) :
    Sound pairs (link s seen (key a) k).1 ∧ Coarser s (link s seen (key a) k).1 ∧
      Seen key pairs (k + 1) (link s seen (key a) k).1 (link s seen (key a) k).2 := by
  cases hlookup : seen.lookup (key a) with
  | none =>
    -- the first pair at its vertex is noted, and no class changes
    have hlink : Components.link s seen (key a) k = (s, (key a, k) :: seen) := by
      simp only [Components.link, hlookup]
    rw [hlink]
    refine ⟨hsound, fun i j => id, ?_, ?_⟩
    · intro v e he
      rw [lookup_cons] at he
      split_ifs at he with hv
      · obtain rfl : k = e := Option.some.inj he
        exact ⟨a, ha, hv.symm⟩
      · exact h.from_pair v e he
    · intro i b hi hb
      rw [lookup_cons]
      rcases Nat.lt_succ_iff_lt_or_eq.mp hi with hlt | rfl
      · obtain ⟨e, he, hroot⟩ := h.joined i b hlt hb
        have hne : key b ≠ key a := fun heq => by simp [heq, hlookup] at he
        exact ⟨e, by rwa [if_neg hne], hroot⟩
      · obtain rfl : a = b := Option.some.inj (ha.symm.trans hb)
        exact ⟨i, if_pos rfl, rfl⟩
  | some e =>
    -- the pair noted shares the vertex, so joining the two adds only chains
    have hlink : Components.link s seen (key a) k = (s.union e k, seen) := by
      simp only [Components.link, hlookup]
    obtain ⟨b, hb, hsame⟩ := h.from_pair _ _ hlookup
    have hedge : Adjacent pairs e k := ⟨b, a, hb, ha, hkey _ _ hsame⟩
    have he : e < s.parents.length := by
      rw [hsound.length]
      exact hedge.symm.lt_length
    have hk : k < s.parents.length := by
      rw [hsound.length]
      exact hedge.lt_length
    obtain ⟨hdescending, hlength, -⟩ := hsound.descending.union he hk
    have hroots := hsound.descending.root_union_eq_iff he hk
    have hcoarser : Coarser s (s.union e k) := fun i j hij => (hroots i j).mpr (Or.inl hij)
    rw [hlink]
    refine ⟨⟨hdescending, hlength.trans hsound.length, fun i j hij => ?_⟩, hcoarser, h.from_pair, ?_⟩
    · rcases (hroots i j).mp hij with hij | ⟨hi, hj⟩ | ⟨hi, hj⟩
      · exact hsound.linked i j hij
      · exact (hsound.linked i e hi).trans (hedge.linked.trans (hsound.linked k j hj.symm))
      · exact (hsound.linked i k hi).trans (hedge.symm.linked.trans (hsound.linked e j hj.symm))
    · intro i c hi hc
      rcases Nat.lt_succ_iff_lt_or_eq.mp hi with hlt | rfl
      · obtain ⟨e', he', hroot⟩ := h.joined i c hlt hc
        exact ⟨e', he', hcoarser _ _ hroot⟩
      · obtain rfl : a = c := Option.some.inj (ha.symm.trans hc)
        exact ⟨e, hlookup, (hroots e i).mpr (Or.inr (Or.inl ⟨rfl, rfl⟩))⟩

/-- **The invariant of the pass**, after the first `k` pairs. -/
structure Linking.Of (pairs : List (ℕ × ℕ)) (k : ℕ) (l : Linking) : Prop where
  sound : Sound pairs l.sets
  first : Seen Prod.fst pairs k l.sets l.firstSeen
  second : Seen Prod.snd pairs k l.sets l.secondSeen

theorem Linking.Of.add {l : Linking} (h : Linking.Of pairs k l) (ha : pairs[k]? = some a) :
    Linking.Of pairs (k + 1) (l.add (a, k)) := by
  obtain ⟨hsound, hcoarser, hfirst⟩ := h.first.link h.sound (fun _ _ => Or.inl) ha
  obtain ⟨hsound', hcoarser', hsecond⟩ :=
    (h.second.coarser hcoarser).link hsound (fun _ _ => Or.inr) ha
  exact ⟨hsound', hfirst.coarser hcoarser', hsecond⟩

theorem Linking.Of.foldl {rest : List (ℕ × ℕ)} {l : Linking} (h : Linking.Of pairs k l)
    (hrest : ∀ j b, rest[j]? = some b → pairs[k + j]? = some b) :
    Linking.Of pairs (k + rest.length) ((rest.zipIdx k).foldl Linking.add l) := by
  induction rest generalizing k l with
  | nil => exact h
  | cons a rest ih =>
    rw [List.zipIdx_cons, List.foldl_cons, List.length_cons, Nat.add_comm rest.length, ← Nat.add_assoc]
    refine ih (h.add (hrest 0 a rfl)) fun j b hb => ?_
    rw [Nat.add_assoc, Nat.add_comm 1 j]
    exact hrest (j + 1) b hb

/-- The whole pass. -/
theorem linking_of_pairs (pairs : List (ℕ × ℕ)) : Linking.Of pairs pairs.length
    (pairs.zipIdx.foldl Linking.add ⟨DisjointSets.singletons pairs.length, [], []⟩) := by
  have hempty : ∀ key : ℕ × ℕ → ℕ, Seen key pairs 0 (DisjointSets.singletons pairs.length) [] :=
    fun key => ⟨fun v e he => absurd he (by simp), fun i b hi _ => absurd hi (Nat.not_lt_zero i)⟩
  have hstart : Linking.Of pairs 0 ⟨DisjointSets.singletons pairs.length, [], []⟩ := by
    refine ⟨⟨DisjointSets.descending_singletons _, List.length_range, fun i j hij => ?_⟩,
      hempty _, hempty _⟩
    rw [DisjointSets.root_of_fixed (DisjointSets.parent_singletons _ _),
      DisjointSets.root_of_fixed (DisjointSets.parent_singletons _ _)] at hij
    rw [hij]
    exact Linked.refl pairs j
  have hwhole : ∀ j b, pairs[j]? = some b → pairs[0 + j]? = some b :=
    fun j b hb => by rwa [Nat.zero_add]
  have hrun := hstart.foldl hwhole
  rwa [Nat.zero_add] at hrun

theorem descending_linked (pairs : List (ℕ × ℕ)) : (linked pairs).Descending :=
  (linking_of_pairs pairs).sound.descending

/-- **The classes are those of the chains.** -/
theorem root_linked_eq_iff : (linked pairs).root i = (linked pairs).root j ↔ Linked pairs i j := by
  obtain ⟨hsound, hfirst, hsecond⟩ := linking_of_pairs pairs
  have hedge : ∀ i j, Adjacent pairs i j → (linked pairs).root i = (linked pairs).root j := by
    rintro i j ⟨a, b, ha, hb, hshared⟩
    have hi := (List.getElem?_eq_some_iff.mp ha).1
    have hj := (List.getElem?_eq_some_iff.mp hb).1
    have hjoin : ∀ (key : ℕ × ℕ → ℕ) (seen : List (ℕ × ℕ)),
        Seen key pairs pairs.length (linked pairs) seen → key a = key b →
          (linked pairs).root i = (linked pairs).root j := by
      intro key seen hseen hsame
      obtain ⟨e, he, hroot⟩ := hseen.joined i a hi ha
      obtain ⟨e', he', hroot'⟩ := hseen.joined j b hj hb
      obtain rfl : e = e' := Option.some.inj (he.symm.trans (hsame ▸ he'))
      exact hroot.symm.trans hroot'
    rcases hshared with hsame | hsame
    · exact hjoin _ _ hfirst hsame
    · exact hjoin _ _ hsecond hsame
  constructor
  · exact hsound.linked i j
  · intro h
    induction h with
    | refl => rfl
    | tail _ hstep ih => exact ih.trans (hedge _ _ hstep)

/-! ### Grouping by roots -/

/-- The roots among the numbers below `k`, in order. -/
def rootsBelow (s : DisjointSets) (k : ℕ) : List ℕ := (List.range k).filter fun r => s.root r = r

/-- The numbers below `k` with a root, in order. -/
def membersBelow (s : DisjointSets) (k r : ℕ) : List ℕ := (List.range k).filter fun i => s.root i = r

theorem mem_rootsBelow {r : ℕ} : r ∈ rootsBelow s k ↔ r < k ∧ s.root r = r := by
  rw [rootsBelow, List.mem_filter, List.mem_range, decide_eq_true_eq]

theorem mem_membersBelow {r : ℕ} : i ∈ membersBelow s k r ↔ i < k ∧ s.root i = r := by
  rw [membersBelow, List.mem_filter, List.mem_range, decide_eq_true_eq]

theorem nodup_rootsBelow (s : DisjointSets) (k : ℕ) : (rootsBelow s k).Nodup :=
  List.nodup_range.filter _

theorem rootsBelow_succ (s : DisjointSets) (k : ℕ) :
    rootsBelow s (k + 1) = if s.root k = k then rootsBelow s k ++ [k] else rootsBelow s k := by
  unfold rootsBelow
  rw [List.range_succ, List.filter_append, List.filter_singleton]
  by_cases hroot : s.root k = k <;> simp [hroot]

theorem membersBelow_succ (s : DisjointSets) (k r : ℕ) :
    membersBelow s (k + 1) r =
      if r = s.root k then membersBelow s k r ++ [k] else membersBelow s k r := by
  unfold membersBelow
  rw [List.range_succ, List.filter_append, List.filter_singleton]
  by_cases hroot : s.root k = r
  · simp [hroot]
  · simp [hroot, Ne.symm hroot]

/-- Putting a number into its group, where the groups are given by their roots. -/
theorem addToGroup_map {roots : List ℕ} (hnodup : roots.Nodup) (members : ℕ → List ℕ) (r i : ℕ) :
    addToGroup r i (roots.map fun q => (q, members q)) =
      if r ∈ roots then roots.map fun q => (q, if q = r then members q ++ [i] else members q)
      else roots.map (fun q => (q, members q)) ++ [(r, [i])] := by
  induction roots with
  | nil => rfl
  | cons q roots ih =>
    obtain ⟨hq, hnodup'⟩ := List.nodup_cons.mp hnodup
    rw [List.map_cons, addToGroup, ih hnodup']
    by_cases hqr : q = r
    · subst hqr
      have hothers : ∀ p ∈ roots, (p, members p) = (p, if p = q then members p ++ [i] else members p) := by
        intro p hp
        rw [if_neg fun heq : p = q => hq (heq ▸ hp)]
      simp [List.map_congr_left hothers]
    · have hmem : r ∈ q :: roots ↔ r ∈ roots := by simp [Ne.symm hqr]
      rw [if_neg hqr]
      simp only [hmem, List.map_cons, if_neg hqr]
      split_ifs <;> rfl

/-- **The grouping pass**: the numbers so far, by their roots in the order of these. -/
theorem foldl_place (h : s.Descending) (k : ℕ) :
    ∃ s', (List.range k).foldl place (s, []) =
        (s', (rootsBelow s k).map fun r => (r, membersBelow s k r)) ∧
      DisjointSets.Compressed s s' := by
  induction k with
  | zero => exact ⟨s, rfl, h, rfl, fun y => rfl⟩
  | succ k ih =>
    obtain ⟨s', hfold, hcompressed⟩ := ih
    obtain ⟨hfound, hcompressed'⟩ := hcompressed.descending.find k
    refine ⟨(s'.find k).2, ?_, hcompressed'.descending, hcompressed'.length.trans hcompressed.length,
      fun y => (hcompressed'.root y).trans (hcompressed.root y)⟩
    rw [List.range_succ, List.foldl_append, hfold, List.foldl_cons, List.foldl_nil, place, hfound,
      hcompressed.root, addToGroup_map (nodup_rootsBelow s k)]
    congr 1
    have hother : ∀ r, r ≠ s.root k → membersBelow s (k + 1) r = membersBelow s k r :=
      fun r hr => by rw [membersBelow_succ, if_neg hr]
    rw [rootsBelow_succ]
    by_cases hroot : s.root k = k
    · -- `k` is the least member of its class and opens a group
      have hnew : k ∉ rootsBelow s k := fun hmem => lt_irrefl k (mem_rootsBelow.mp hmem).1
      have hempty : membersBelow s k k = [] := by
        refine List.eq_nil_iff_forall_not_mem.mpr fun i hi => ?_
        obtain ⟨hlt, heq⟩ := mem_membersBelow.mp hi
        exact absurd (s.root_le i) (by omega)
      rw [hroot, if_neg hnew, if_pos rfl, List.map_append]
      congr 1
      · refine List.map_congr_left fun r hr => ?_
        rw [hother r fun heq => hnew (by rwa [heq, hroot] at hr)]
      · rw [List.map_singleton, membersBelow_succ, hroot, if_pos rfl, hempty, List.nil_append]
    · -- the root of `k` came before it, so that its group is there
      have hmem : s.root k ∈ rootsBelow s k :=
        mem_rootsBelow.mpr ⟨lt_of_le_of_ne (s.root_le k) hroot, h.root_root k⟩
      rw [if_pos hmem, if_neg hroot]
      exact List.map_congr_left fun r _ => by rw [membersBelow_succ]

/-- **The components**, by their first members, each with its members in order. -/
theorem build_eq (pairs : List (ℕ × ℕ)) : build pairs =
    (rootsBelow (linked pairs) pairs.length).map (membersBelow (linked pairs) pairs.length) := by
  obtain ⟨s', hfold, -⟩ := foldl_place (descending_linked pairs) pairs.length
  rw [build, hfold, List.map_map]
  rfl

/-! ### What components are -/

variable {K K' : List ℕ}

theorem exists_mem_build (hi : i < pairs.length) : ∃ K ∈ build pairs, i ∈ K := by
  have hroot : (linked pairs).root i ∈ rootsBelow (linked pairs) pairs.length :=
    mem_rootsBelow.mpr
      ⟨((linked pairs).root_le i).trans_lt hi, (descending_linked pairs).root_root i⟩
  rw [build_eq]
  exact ⟨_, List.mem_map_of_mem hroot, mem_membersBelow.mpr ⟨hi, rfl⟩⟩

theorem lt_length_of_mem (hK : K ∈ build pairs) (hi : i ∈ K) : i < pairs.length := by
  rw [build_eq] at hK
  obtain ⟨r, -, rfl⟩ := List.mem_map.mp hK
  exact (mem_membersBelow.mp hi).1

/-- **A component holds exactly what is linked with one of its members.** -/
theorem mem_iff_linked (hK : K ∈ build pairs) (hi : i ∈ K) : j ∈ K ↔ Linked pairs i j := by
  have hlt := lt_length_of_mem hK hi
  rw [build_eq] at hK
  obtain ⟨r, -, rfl⟩ := List.mem_map.mp hK
  rw [mem_membersBelow, ← (mem_membersBelow.mp hi).2, ← root_linked_eq_iff]
  constructor
  · rintro ⟨-, hroot⟩
    exact hroot.symm
  · intro hroot
    exact ⟨(root_linked_eq_iff.mp hroot).lt_length hlt, hroot.symm⟩

/-- Two pairs are in one component when a chain links them. -/
theorem exists_component_iff (hi : i < pairs.length) :
    (∃ K ∈ build pairs, i ∈ K ∧ j ∈ K) ↔ Linked pairs i j := by
  constructor
  · rintro ⟨K, hK, hiK, hjK⟩
    exact (mem_iff_linked hK hiK).mp hjK
  · intro hlinked
    obtain ⟨K, hK, hiK⟩ := exists_mem_build hi
    exact ⟨K, hK, hiK, (mem_iff_linked hK hiK).mpr hlinked⟩

/-- A pair is in one component only. -/
theorem eq_of_mem_of_mem (hK : K ∈ build pairs) (hK' : K' ∈ build pairs) (hi : i ∈ K)
    (hi' : i ∈ K') : K = K' := by
  rw [build_eq] at hK hK'
  obtain ⟨r, -, rfl⟩ := List.mem_map.mp hK
  obtain ⟨r', -, rfl⟩ := List.mem_map.mp hK'
  rw [← (mem_membersBelow.mp hi).2, ← (mem_membersBelow.mp hi').2]

/-- **The components are the classes of linked pairs.** -/
theorem classes_build (pairs : List (ℕ × ℕ)) :
    Classes (Linked pairs) (List.range pairs.length) (build pairs) where
  nodup := by
    rw [build_eq, List.nodup_flatten, List.forall_mem_map]
    refine ⟨fun r _ => List.nodup_range.filter _, List.pairwise_map.mpr ?_⟩
    refine (nodup_rootsBelow (linked pairs) pairs.length).imp fun hne i hi hi' => hne ?_
    rw [← (mem_membersBelow.mp hi).2, ← (mem_membersBelow.mp hi').2]
  nonempty := by
    rw [build_eq, List.forall_mem_map]
    intro r hr
    exact List.ne_nil_of_mem (mem_membersBelow.mpr (mem_rootsBelow.mp hr))
  mem_flatten := by
    intro i
    rw [List.mem_flatten, List.mem_range]
    constructor
    · rintro ⟨K, hK, hi⟩
      exact lt_length_of_mem hK hi
    · exact exists_mem_build
  related := by
    intro K hK i hi j
    rw [mem_iff_linked hK hi, List.mem_range, iff_and_self]
    exact fun h => h.lt_length (lt_length_of_mem hK hi)

/-- **Components in order**: every one is ascending, and they come in the order of their least
members. -/
theorem pairwise_build (pairs : List (ℕ × ℕ)) : (∀ K ∈ build pairs, K.Pairwise (· < ·)) ∧
    (build pairs).Pairwise fun K K' => ∀ i ∈ K.head?, ∀ j ∈ K'.head?, i < j := by
  have hrange : (List.range pairs.length).Pairwise (· < ·) := List.pairwise_lt_range
  rw [build_eq, List.forall_mem_map, List.pairwise_map]
  refine ⟨fun r _ => hrange.filter _, ?_⟩
  -- the least member of a component is its root
  have hhead : ∀ r ∈ rootsBelow (linked pairs) pairs.length,
      ∀ i ∈ (membersBelow (linked pairs) pairs.length r).head?, i = r := by
    intro r hr i hi
    obtain ⟨rest, hcons⟩ := List.head?_eq_some_iff.mp hi
    have hmem : i ∈ membersBelow (linked pairs) pairs.length r := by
      rw [hcons]
      exact List.mem_cons_self
    have hroot : r ∈ membersBelow (linked pairs) pairs.length r :=
      mem_membersBelow.mpr (mem_rootsBelow.mp hr)
    have hsorted : (membersBelow (linked pairs) pairs.length r).Pairwise (· < ·) := hrange.filter _
    have hle : r ≤ i := (mem_membersBelow.mp hmem).2 ▸ (linked pairs).root_le i
    rw [hcons] at hroot hsorted
    cases List.mem_cons.mp hroot with
    | inl heq => exact heq.symm
    | inr hrest => exact absurd ((List.pairwise_cons.mp hsorted).1 r hrest) (by omega)
  have hroots : (rootsBelow (linked pairs) pairs.length).Pairwise (· < ·) := hrange.filter _
  refine hroots.imp_of_mem fun hr hr' hlt i hi j hj => ?_
  rw [hhead _ hr i hi, hhead _ hr' j hj]
  exact hlt

/-! ### Subsets inside components -/

variable {S : NashSubset}

theorem mem_equilibria_of_subset (hS : S ∈ maximalNashSubsets pairs) :
    i ∈ S.equilibria ↔ ∃ a, pairs[i]? = some a ∧ a.1 ∈ S.first ∧ a.2 ∈ S.second := by
  obtain ⟨second, -, rfl⟩ := List.mem_map.mp hS
  simp only [subsetOf, List.mem_map, List.mem_filter, Bool.and_eq_true, List.contains_iff_mem]
  constructor
  · rintro ⟨⟨a, i⟩, ⟨hmem, hfirst, hsecond⟩, rfl⟩
    exact ⟨a, List.mem_zipIdx_iff_getElem?.mp hmem, hfirst, hsecond⟩
  · rintro ⟨a, ha, hfirst, hsecond⟩
    exact ⟨(a, i), ⟨List.mem_zipIdx_iff_getElem?.mpr ha, hfirst, hsecond⟩, rfl⟩

theorem equilibria_ne_nil_of_subset (hS : S ∈ maximalNashSubsets pairs) : S.equilibria ≠ [] := by
  obtain ⟨hfirst, hsecond⟩ := ne_nil_of_subset hS
  obtain ⟨v, hv⟩ := List.exists_mem_of_ne_nil _ hfirst
  obtain ⟨w, hw⟩ := List.exists_mem_of_ne_nil _ hsecond
  obtain ⟨i, hi⟩ := List.getElem?_of_mem (mem_pairs_of_subset hS hv hw)
  exact List.ne_nil_of_mem ((mem_equilibria_of_subset hS).mpr ⟨(v, w), hi, hv, hw⟩)

/-- All members of a subset are linked. -/
theorem linked_of_subset (hS : S ∈ maximalNashSubsets pairs) (hi : i ∈ S.equilibria)
    (hj : j ∈ S.equilibria) : Linked pairs i j := by
  obtain ⟨a, ha, hfirst, hsecond⟩ := (mem_equilibria_of_subset hS).mp hi
  obtain ⟨b, hb, hfirst', hsecond'⟩ := (mem_equilibria_of_subset hS).mp hj
  obtain ⟨k, hk⟩ := List.getElem?_of_mem (mem_pairs_of_subset hS hfirst hsecond')
  have hleft : Adjacent pairs i k := ⟨a, _, ha, hk, Or.inl rfl⟩
  have hright : Adjacent pairs k j := ⟨_, b, hk, hb, Or.inr rfl⟩
  exact hleft.linked.trans hright.linked

/-- **A maximal subset lies in a single component.** -/
theorem exists_component_of_subset (hS : S ∈ maximalNashSubsets pairs) :
    ∃ K ∈ build pairs, S.equilibria ⊆ K ∧
      ∀ K' ∈ build pairs, ∀ i ∈ S.equilibria, i ∈ K' → K' = K := by
  obtain ⟨i, hi⟩ := List.exists_mem_of_ne_nil _ (equilibria_ne_nil_of_subset hS)
  obtain ⟨a, ha, -⟩ := (mem_equilibria_of_subset hS).mp hi
  obtain ⟨K, hK, hiK⟩ := exists_mem_build (List.getElem?_eq_some_iff.mp ha).1
  have hsub : S.equilibria ⊆ K :=
    fun j hj => (mem_iff_linked hK hiK).mpr (linked_of_subset hS hi hj)
  exact ⟨K, hK, hsub, fun K' hK' j hj hj' => eq_of_mem_of_mem hK' hK hj' (hsub hj)⟩

end Components

end Equilibria
