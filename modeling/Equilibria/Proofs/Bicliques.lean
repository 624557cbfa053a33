import Mathlib
import Equilibria.Components
import Equilibria.Proofs.AscendingLists

/-!
# Maximal complete sets of pairs

`Components.maximalNashSubsets` closes the neighbourhoods of the first player's vertices under
intersection.  Whatever the pairs are:

* `Hoods.addNeighbour`, `mem_neighbourhood_iff` — the neighbourhoods are what their name says;
* `Closing`, `Closing.step`, `Closes.closing` — the invariant of the closure, one place of it and the
  whole run;
* `Closing.closes` — the run ends before its bound because all sets are different;
* `mem_pairs_of_subset` — every pair inside a subset is one of the pairs;
* `exists_subset` — vertices that are all paired with each other are inside one subset;
* `ne_nil_of_subset` — no subset is empty.
-/

namespace Equilibria

namespace Components

/-! ### Neighbourhoods -/

/-- What is known of the neighbourhoods after some pairs. -/
structure Hoods (pairs : List (ℕ × ℕ)) (ns : List (ℕ × List ℕ)) : Prop where
  sorted : ∀ e ∈ ns, e.2.Pairwise (· < ·)
  sound : ∀ e ∈ ns, ∀ w ∈ e.2, (e.1, w) ∈ pairs
  complete : ∀ v w, (v, w) ∈ pairs → ∃ ws, ns.lookup v = some ws ∧ w ∈ ws

theorem mem_addNeighbour {x y : ℕ} {ns : List (ℕ × List ℕ)} {e : ℕ × List ℕ}
    (he : e ∈ addNeighbour x y ns) :
    e ∈ ns ∨ e = (x, [y]) ∨ ∃ ws, (x, ws) ∈ ns ∧ e = (x, insertMember y ws) := by
  induction ns with
  | nil => exact Or.inr (Or.inl (List.mem_singleton.mp he))
  | cons n ns ih =>
    obtain ⟨v, ys⟩ := n
    by_cases hv : v = x
    · rw [addNeighbour, if_pos hv] at he
      rcases List.mem_cons.mp he with rfl | he
      · exact Or.inr (Or.inr ⟨ys, by simp [hv], by rw [hv]⟩)
      · exact Or.inl (List.mem_cons_of_mem _ he)
    · rw [addNeighbour, if_neg hv] at he
      rcases List.mem_cons.mp he with rfl | he
      · exact Or.inl List.mem_cons_self
      · rcases ih he with h | h | ⟨ws, hws, h⟩
        · exact Or.inl (List.mem_cons_of_mem _ h)
        · exact Or.inr (Or.inl h)
        · exact Or.inr (Or.inr ⟨ws, List.mem_cons_of_mem _ hws, h⟩)

theorem lookup_cons {α : Type} (v u : ℕ) (w : α) (ns : List (ℕ × α)) :
    ((u, w) :: ns).lookup v = if v = u then some w else ns.lookup v := by
  rw [List.lookup_cons]
  by_cases hv : v = u
  · simp [hv]
  · simp [beq_eq_false_iff_ne.mpr hv, hv]

theorem lookup_addNeighbour (x y v : ℕ) (ns : List (ℕ × List ℕ)) :
    (addNeighbour x y ns).lookup v =
      if v = x then some (insertMember y ((ns.lookup x).getD [])) else ns.lookup v := by
  induction ns with
  | nil => exact lookup_cons v x [y] []
  | cons n ns ih =>
    obtain ⟨u, ys⟩ := n
    by_cases hu : u = x
    · subst hu
      rw [addNeighbour, if_pos rfl, lookup_cons, lookup_cons, lookup_cons, if_pos rfl]
      split_ifs
      · rfl
      · rfl
    · rw [addNeighbour, if_neg hu, lookup_cons, lookup_cons, lookup_cons, ih, if_neg (Ne.symm hu)]
      by_cases hv : v = u
      · rw [if_pos hv, if_pos hv, if_neg (hv ▸ hu)]
      · rw [if_neg hv, if_neg hv]

theorem mem_of_lookup {v : ℕ} {ws : List ℕ} {ns : List (ℕ × List ℕ)}
    (h : ns.lookup v = some ws) : (v, ws) ∈ ns := by
  induction ns with
  | nil => exact absurd h (by simp)
  | cons n ns ih =>
    obtain ⟨u, ys⟩ := n
    rw [lookup_cons] at h
    split_ifs at h with hv
    · obtain rfl : ys = ws := Option.some.inj h
      rw [hv]
      exact List.mem_cons_self
    · exact List.mem_cons_of_mem _ (ih h)

theorem Hoods.addNeighbour {pairs : List (ℕ × ℕ)} {ns : List (ℕ × List ℕ)} (h : Hoods pairs ns)
    (x y : ℕ) : Hoods (pairs ++ [(x, y)]) (addNeighbour x y ns) where
  sorted := by
    intro e he
    rcases mem_addNeighbour he with he | rfl | ⟨ws, hws, rfl⟩
    · exact h.sorted e he
    · exact List.pairwise_singleton _ _
    · exact pairwise_insertMember y (h.sorted _ hws)
  sound := by
    intro e he w hw
    rcases mem_addNeighbour he with he | rfl | ⟨ws, hws, rfl⟩
    · exact List.mem_append_left _ (h.sound e he w hw)
    · obtain rfl : w = y := List.mem_singleton.mp hw
      exact List.mem_append_right _ (List.mem_singleton_self _)
    · rcases mem_insertMember.mp hw with rfl | hw
      · exact List.mem_append_right _ (List.mem_singleton_self _)
      · exact List.mem_append_left _ (h.sound _ hws w hw)
  complete := by
    intro v w hvw
    rw [lookup_addNeighbour]
    rcases List.mem_append.mp hvw with hvw | hvw
    · obtain ⟨ws, hlookup, hw⟩ := h.complete v w hvw
      split_ifs with hv
      · subst hv
        exact ⟨_, rfl, by rw [hlookup]; exact mem_insertMember.mpr (Or.inr hw)⟩
      · exact ⟨ws, hlookup, hw⟩
    · obtain ⟨rfl, rfl⟩ : v = x ∧ w = y := by simpa using hvw
      rw [if_pos rfl]
      exact ⟨_, rfl, mem_insertMember.mpr (Or.inl rfl)⟩

theorem hoods_neighbourhoods (pairs : List (ℕ × ℕ)) : Hoods pairs (neighbourhoods pairs) := by
  have hfold : ∀ (rest before : List (ℕ × ℕ)) (ns : List (ℕ × List ℕ)), Hoods before ns →
      Hoods (before ++ rest) (rest.foldl (fun ns xy => addNeighbour xy.1 xy.2 ns) ns) := by
    intro rest
    induction rest with
    | nil =>
      intro before ns h
      rwa [List.append_nil]
    | cons xy rest ih =>
      intro before ns h
      have hnext := ih _ _ (h.addNeighbour xy.1 xy.2)
      rwa [List.append_assoc] at hnext
  refine hfold pairs [] [] ⟨?_, ?_, ?_⟩
  · exact fun e he => absurd he List.not_mem_nil
  · exact fun e he => absurd he List.not_mem_nil
  · exact fun v w hvw => absurd hvw List.not_mem_nil

theorem keys_addNeighbour (x y : ℕ) (ns : List (ℕ × List ℕ)) :
    (addNeighbour x y ns).map Prod.fst =
      if x ∈ ns.map Prod.fst then ns.map Prod.fst else ns.map Prod.fst ++ [x] := by
  induction ns with
  | nil => rfl
  | cons n ns ih =>
    obtain ⟨u, ys⟩ := n
    by_cases hu : u = x
    · simp [addNeighbour, hu]
    · rw [addNeighbour, if_neg hu, List.map_cons, List.map_cons, ih]
      have hmem : x ∈ u :: ns.map Prod.fst ↔ x ∈ ns.map Prod.fst := by simp [Ne.symm hu]
      simp only [hmem]
      split_ifs
      · rfl
      · rfl

/-- Every vertex has one neighbourhood. -/
theorem nodup_keys (pairs : List (ℕ × ℕ)) : ((neighbourhoods pairs).map Prod.fst).Nodup := by
  induction pairs using List.reverseRecOn with
  | nil => exact List.nodup_nil
  | append_singleton pairs xy ih =>
    rw [neighbourhoods, List.foldl_append]
    show ((addNeighbour xy.1 xy.2 (neighbourhoods pairs)).map Prod.fst).Nodup
    rw [keys_addNeighbour]
    split_ifs with hold
    · exact ih
    · exact ih.append (List.nodup_singleton _) (List.disjoint_singleton.mpr hold)

theorem lookup_of_mem {v : ℕ} {ws : List ℕ} {ns : List (ℕ × List ℕ)}
    (hkeys : (ns.map Prod.fst).Nodup) (h : (v, ws) ∈ ns) : ns.lookup v = some ws := by
  induction ns with
  | nil => exact absurd h List.not_mem_nil
  | cons n ns ih =>
    obtain ⟨u, ys⟩ := n
    rw [List.map_cons, List.nodup_cons] at hkeys
    rw [lookup_cons]
    rcases List.mem_cons.mp h with heq | hmem
    · obtain ⟨rfl, rfl⟩ := Prod.mk.inj heq
      exact if_pos rfl
    · have hne : v ≠ u := fun heq => hkeys.1 (List.mem_map.mpr ⟨_, hmem, heq⟩)
      rw [if_neg hne, ih hkeys.2 hmem]

/-- **A neighbourhood is what its name says.** -/
theorem mem_neighbourhood_iff {pairs : List (ℕ × ℕ)} {v w : ℕ} {ws : List ℕ}
    (h : (v, ws) ∈ neighbourhoods pairs) : w ∈ ws ↔ (v, w) ∈ pairs := by
  constructor
  · exact (hoods_neighbourhoods pairs).sound _ h w
  · intro hpair
    obtain ⟨ws', hlookup, hw⟩ := (hoods_neighbourhoods pairs).complete v w hpair
    rwa [Option.some.inj ((lookup_of_mem (nodup_keys pairs) h).symm.trans hlookup)]

theorem exists_neighbourhood {pairs : List (ℕ × ℕ)} {v w : ℕ} (h : (v, w) ∈ pairs) :
    ∃ ws, (v, ws) ∈ neighbourhoods pairs := by
  obtain ⟨ws, hlookup, -⟩ := (hoods_neighbourhoods pairs).complete v w h
  exact ⟨ws, mem_of_lookup hlookup⟩

/-! ### The closure under intersection -/

theorem mem_meet {w : ℕ} {ms ns : List ℕ} : w ∈ meet ms ns ↔ w ∈ ms ∧ w ∈ ns := by
  rw [meet, List.mem_filter, List.contains_iff_mem]

/-- Sets that are different, each an ascending list of members of `ground`. -/
structure Family (ground : List ℕ) (sets : List (List ℕ)) : Prop where
  nodup : sets.Nodup
  sorted : ∀ set ∈ sets, set.Pairwise (· < ·)
  within : ∀ set ∈ sets, set ⊆ ground

variable {ground set : List ℕ} {before sets : List (List ℕ)}

theorem Family.addNew (h : Family ground sets) (hsorted : set.Pairwise (· < ·))
    (hwithin : set ⊆ ground) :
    Family ground (addNew sets set) ∧ sets <+: addNew sets set ∧ set ∈ addNew sets set := by
  by_cases hmem : set ∈ sets
  · have hsame : Components.addNew sets set = sets := if_pos (List.contains_iff_mem.mpr hmem)
    rw [hsame]
    exact ⟨h, List.prefix_rfl, hmem⟩
  · have hadd : Components.addNew sets set = sets ++ [set] := if_neg (mt List.contains_iff_mem.mp hmem)
    rw [hadd]
    refine ⟨⟨?_, ?_, ?_⟩, List.prefix_append _ _, List.mem_append_right _ (List.mem_singleton_self _)⟩
    · rw [List.nodup_append]
      exact ⟨h.nodup, List.nodup_singleton _, fun a ha b hb hab =>
        hmem (List.mem_singleton.mp hb ▸ hab ▸ ha)⟩
    · rw [List.forall_mem_append]
      exact ⟨h.sorted, by simpa using hsorted⟩
    · rw [List.forall_mem_append]
      exact ⟨h.within, by simpa using hwithin⟩

theorem Family.foldl_addNew (h : Family ground sets) (more : List (List ℕ))
    (hsorted : ∀ set ∈ more, set.Pairwise (· < ·)) (hwithin : ∀ set ∈ more, set ⊆ ground) :
    Family ground (more.foldl Components.addNew sets) ∧ sets <+: more.foldl Components.addNew sets ∧
      ∀ set ∈ more, set ∈ more.foldl Components.addNew sets := by
  induction more generalizing sets with
  | nil => exact ⟨h, List.prefix_rfl, fun set hset => absurd hset List.not_mem_nil⟩
  | cons new more ih =>
    obtain ⟨hnew, hextends, hmem⟩ := h.addNew (hsorted new List.mem_cons_self)
      (hwithin new List.mem_cons_self)
    obtain ⟨hall, hextends', hmore⟩ := ih hnew
      (fun set hset => hsorted set (List.mem_cons_of_mem _ hset))
      fun set hset => hwithin set (List.mem_cons_of_mem _ hset)
    refine ⟨hall, hextends.trans hextends', fun set hset => ?_⟩
    rcases List.mem_cons.mp hset with rfl | hset
    · exact hextends'.subset hmem
    · exact hmore set hset

theorem Family.addMeets (h : Family ground sets) (hset : set ∈ sets) (before : List (List ℕ)) :
    Family ground (addMeets set before sets) ∧ sets <+: addMeets set before sets ∧
      ∀ other ∈ before, meet set other ≠ [] → meet set other ∈ addMeets set before sets := by
  induction before generalizing sets with
  | nil => exact ⟨h, List.prefix_rfl, fun other hother => absurd hother List.not_mem_nil⟩
  | cons first before ih =>
    have hstep : ∃ next, Components.addMeets set (first :: before) sets =
        Components.addMeets set before next ∧ Family ground next ∧ sets <+: next ∧
          (meet set first ≠ [] → meet set first ∈ next) := by
      by_cases hempty : (meet set first).isEmpty = true
      · refine ⟨sets, ?_, h, List.prefix_rfl, fun hne => absurd (List.isEmpty_iff.mp hempty) hne⟩
        unfold Components.addMeets
        rw [List.foldl_cons]
        show List.foldl _ (if (meet set first).isEmpty = true then _ else _) _ = _
        rw [if_pos hempty]
      · have hsorted : (meet set first).Pairwise (· < ·) :=
          (h.sorted set hset).sublist List.filter_sublist
        have hwithin : meet set first ⊆ ground := fun w hw => h.within set hset (mem_meet.mp hw).1
        obtain ⟨hnext, hextends, hmem⟩ := h.addNew hsorted hwithin
        refine ⟨_, ?_, hnext, hextends, fun _ => hmem⟩
        unfold Components.addMeets
        rw [List.foldl_cons]
        show List.foldl _ (if (meet set first).isEmpty = true then _ else _) _ = _
        rw [if_neg hempty]
    obtain ⟨next, heq, hnext, hextends, hmem⟩ := hstep
    obtain ⟨hall, hextends', hmore⟩ := ih hnext (hextends.subset hset)
    rw [heq]
    refine ⟨hall, hextends.trans hextends', fun other hother hne => ?_⟩
    rcases List.mem_cons.mp hother with rfl | hother
    · exact hextends'.subset (hmem hne)
    · exact hmore other hother hne

theorem Family.length_le (h : Family ground sets) : sets.length ≤ 2 ^ ground.length := by
  calc sets.length ≤ 2 ^ ground.toFinset.card := by
        refine length_le_two_pow_card h.nodup ?_ ?_
        · intro set hset n hn
          exact List.mem_toFinset.mpr (h.within set hset (List.mem_toFinset.mp hn))
        · intro a ha b hb hab
          refine (h.sorted a ha).eq_of_mem_iff (h.sorted b hb) fun n => ?_
          rw [← List.mem_toFinset, hab, List.mem_toFinset]
    _ ≤ 2 ^ ground.length := Nat.pow_le_pow_right (by omega) (List.toFinset_card_le ground)

/-- **The invariant of the closure**: the sets below the cursor are closed under intersection. -/
structure Closing (ground : List ℕ) (cursor : ℕ) (sets : List (List ℕ)) : Prop where
  family : Family ground sets
  closed : ∀ i j a b, i < j → j < cursor → sets[i]? = some a → sets[j]? = some b →
    meet b a ≠ [] → meet b a ∈ sets

theorem Closing.step {cursor : ℕ} (h : Closing ground cursor sets)
    (hset : sets[cursor]? = some set) :
    Closing ground (cursor + 1) (addMeets set (sets.take cursor) sets) ∧
      sets <+: addMeets set (sets.take cursor) sets := by
  obtain ⟨hfamily, hextends, hmeets⟩ :=
    h.family.addMeets (List.mem_of_getElem? hset) (sets.take cursor)
  have hcursor : cursor < sets.length := (List.getElem?_eq_some_iff.mp hset).1
  have hold : ∀ k < sets.length,
      (Components.addMeets set (sets.take cursor) sets)[k]? = sets[k]? := by
    intro k hk
    obtain ⟨more, hmore⟩ := hextends
    rw [← hmore, List.getElem?_append_left hk]
  refine ⟨⟨hfamily, fun i j a b hij hj ha hb hne => ?_⟩, hextends⟩
  rw [hold i (by omega)] at ha
  rw [hold j (by omega)] at hb
  rcases Nat.lt_or_ge j cursor with hlt | hge
  · exact hextends.subset (h.closed i j a b hij hlt ha hb hne)
  · obtain rfl : j = cursor := by omega
    obtain rfl : set = b := Option.some.inj (hset.symm.trans hb)
    refine hmeets a ?_ hne
    refine List.mem_of_getElem? (i := i) ?_
    rw [List.getElem?_take_of_lt hij, ha]

/-- The closure without a bound: it goes on as long as there is a set at the cursor. -/
inductive Closes : ℕ → List (List ℕ) → List (List ℕ) → Prop
  | done {cursor : ℕ} {sets : List (List ℕ)} (hend : sets[cursor]? = none) : Closes cursor sets sets
  | step {cursor : ℕ} {sets closed : List (List ℕ)} {set : List ℕ} (hset : sets[cursor]? = some set)
      (h : Closes (cursor + 1) (addMeets set (sets.take cursor) sets) closed) :
      Closes cursor sets closed

/-- **The closure reaches its end** before its bound, since there are only so many sets. -/
theorem Closing.closes {cursor : ℕ} (h : Closing ground cursor sets) (n : ℕ)
    (hfuel : 2 ^ ground.length ≤ cursor + n) : Closes cursor sets (closeFrom cursor n sets) := by
  induction n generalizing cursor sets with
  | zero => exact .done (List.getElem?_eq_none_iff.mpr (h.family.length_le.trans hfuel))
  | succ n ih =>
    rw [closeFrom]
    cases hset : sets[cursor]? with
    | none => exact .done hset
    | some set => exact .step hset (ih (h.step hset).1 (by omega))

/-- **At its end** all sets are closed under intersection. -/
theorem Closes.closing {cursor : ℕ} {closed : List (List ℕ)} (hrun : Closes cursor sets closed)
    (h : Closing ground cursor sets) :
    Closing ground closed.length closed ∧ sets <+: closed := by
  induction hrun with
  | done hend =>
    have hle := List.getElem?_eq_none_iff.mp hend
    exact ⟨⟨h.family, fun i j a b hij hj => h.closed i j a b hij (hj.trans_le hle)⟩, List.prefix_rfl⟩
  | step hset _ ih =>
    obtain ⟨hstep, hextends⟩ := h.step hset
    obtain ⟨hclosed, hextends'⟩ := ih hstep
    exact ⟨hclosed, hextends.trans hextends'⟩

/-- Two sets with a common member have their intersection among the sets. -/
theorem Closing.exists_meet (h : Closing ground sets.length sets) {a b : List ℕ} (ha : a ∈ sets)
    (hb : b ∈ sets) {w : ℕ} (hwa : w ∈ a) (hwb : w ∈ b) :
    ∃ c ∈ sets, ∀ n, n ∈ c ↔ n ∈ a ∧ n ∈ b := by
  obtain ⟨i, hi⟩ := List.getElem?_of_mem ha
  obtain ⟨j, hj⟩ := List.getElem?_of_mem hb
  have hilt := (List.getElem?_eq_some_iff.mp hi).1
  have hjlt := (List.getElem?_eq_some_iff.mp hj).1
  rcases Nat.lt_trichotomy i j with hlt | heq | hgt
  · refine ⟨meet b a, h.closed i j a b hlt hjlt hi hj ?_, fun n => ?_⟩
    · exact List.ne_nil_of_mem (mem_meet.mpr ⟨hwb, hwa⟩)
    · rw [mem_meet, and_comm]
  · subst heq
    obtain rfl : a = b := Option.some.inj (hi.symm.trans hj)
    exact ⟨a, ha, fun n => (and_self_iff).symm⟩
  · refine ⟨meet a b, h.closed j i b a hgt hilt hj hi ?_, fun n => mem_meet⟩
    exact List.ne_nil_of_mem (mem_meet.mpr ⟨hwa, hwb⟩)

/-! ### The subsets -/

variable {pairs : List (ℕ × ℕ)}

/-- The neighbourhoods, each once. -/
def neighbourSets (pairs : List (ℕ × ℕ)) : List (List ℕ) :=
  ((neighbourhoods pairs).map Prod.snd).foldl addNew []

theorem closing_neighbourSets (pairs : List (ℕ × ℕ)) :
    Closing (members (pairs.map Prod.snd)) 0 (neighbourSets pairs) ∧
      ∀ e ∈ neighbourhoods pairs, e.2 ∈ neighbourSets pairs := by
  have hhoods := hoods_neighbourhoods pairs
  have hempty : Family (members (pairs.map Prod.snd)) [] :=
    ⟨List.nodup_nil, fun set hset => absurd hset List.not_mem_nil,
      fun set hset => absurd hset List.not_mem_nil⟩
  obtain ⟨hfamily, -, hmem⟩ := hempty.foldl_addNew ((neighbourhoods pairs).map Prod.snd)
    (by
      rw [List.forall_mem_map]
      exact hhoods.sorted)
    (by
      rw [List.forall_mem_map]
      intro e he w hw
      exact mem_members.mpr (List.mem_map.mpr ⟨_, hhoods.sound e he w hw, rfl⟩))
  exact ⟨⟨hfamily, fun i j a b _ hj => absurd hj (Nat.not_lt_zero j)⟩,
    fun e he => hmem _ (List.mem_map_of_mem he)⟩

/-- The closed sets are what the closure of the neighbourhoods ends with. -/
theorem closes_closedSets (pairs : List (ℕ × ℕ)) : Closes 0 (neighbourSets pairs) (closedSets pairs) :=
  (closing_neighbourSets pairs).1.closes _ (Nat.le_add_left _ _)

theorem closing_closedSets (pairs : List (ℕ × ℕ)) :
    Closing (members (pairs.map Prod.snd)) (closedSets pairs).length (closedSets pairs) ∧
      ∀ e ∈ neighbourhoods pairs, e.2 ∈ closedSets pairs := by
  obtain ⟨hstart, hmem⟩ := closing_neighbourSets pairs
  obtain ⟨hclosed, hextends⟩ := (closes_closedSets pairs).closing hstart
  exact ⟨hclosed, fun e he => hextends.subset (hmem e he)⟩

theorem mem_subsetOf_first {second : List ℕ} {v : ℕ} :
    v ∈ (subsetOf pairs second).first ↔ ∃ ws, (v, ws) ∈ neighbourhoods pairs ∧ second ⊆ ws := by
  show v ∈ ascending (((neighbourhoods pairs).filter fun v => isWithin second v.2).map Prod.fst) ↔ _
  rw [mem_ascending, List.mem_map]
  simp only [List.mem_filter, isWithin, List.all_eq_true, List.contains_iff_mem]
  constructor
  · rintro ⟨⟨u, ws⟩, ⟨hmem, hsub⟩, rfl⟩
    exact ⟨ws, hmem, hsub⟩
  · rintro ⟨ws, hmem, hsub⟩
    exact ⟨(v, ws), ⟨hmem, hsub⟩, rfl⟩

/-- **Every pair inside a subset is one of the pairs.** -/
theorem mem_pairs_of_subset {S : NashSubset} (hS : S ∈ maximalNashSubsets pairs) {v w : ℕ}
    (hv : v ∈ S.first) (hw : w ∈ S.second) : (v, w) ∈ pairs := by
  obtain ⟨second, -, rfl⟩ := List.mem_map.mp hS
  obtain ⟨ws, hmem, hsub⟩ := mem_subsetOf_first.mp hv
  exact (hoods_neighbourhoods pairs).sound _ hmem w (hsub hw)

/-- The vertices that are paired with each of some vertices are one of the closed sets. -/
theorem exists_closedSet {vs : List ℕ} (hvs : vs ≠ []) {w : ℕ} (hw : ∀ v ∈ vs, (v, w) ∈ pairs) :
    ∃ set ∈ closedSets pairs, ∀ n, n ∈ set ↔ ∀ v ∈ vs, (v, n) ∈ pairs := by
  obtain ⟨hclosed, hhoods⟩ := closing_closedSets pairs
  have hone : ∀ v, (v, w) ∈ pairs → ∃ set ∈ closedSets pairs, ∀ n, n ∈ set ↔ (v, n) ∈ pairs := by
    intro v hvw
    obtain ⟨ws, hws⟩ := exists_neighbourhood hvw
    exact ⟨ws, hhoods _ hws, fun n => mem_neighbourhood_iff hws⟩
  induction vs with
  | nil => exact absurd rfl hvs
  | cons v vs ih =>
    obtain ⟨a, ha, hmem⟩ := hone v (hw v List.mem_cons_self)
    rcases eq_or_ne vs [] with rfl | hne
    · exact ⟨a, ha, fun n => by simp [hmem]⟩
    · obtain ⟨b, hb, hmem'⟩ := ih hne fun u hu => hw u (List.mem_cons_of_mem _ hu)
      obtain ⟨c, hc, hboth⟩ := hclosed.exists_meet ha hb
        ((hmem w).mpr (hw v List.mem_cons_self))
        ((hmem' w).mpr fun u hu => hw u (List.mem_cons_of_mem _ hu))
      exact ⟨c, hc, fun n => by rw [hboth, hmem, hmem', List.forall_mem_cons]⟩

/-- **Vertices that are all paired with each other are inside one subset.** -/
theorem exists_subset {V W : Set ℕ} (hV : V.Nonempty) (hW : W.Nonempty)
    (hall : ∀ v ∈ V, ∀ w ∈ W, (v, w) ∈ pairs) :
    ∃ S ∈ maximalNashSubsets pairs, (∀ v ∈ V, v ∈ S.first) ∧ ∀ w ∈ W, w ∈ S.second := by
  classical
  obtain ⟨w, hw⟩ := hW
  obtain ⟨vs, hvs⟩ : ∃ vs : List ℕ, ∀ v, v ∈ vs ↔ v ∈ V := by
    refine ⟨(pairs.map Prod.fst).filter fun v => decide (v ∈ V), fun v => ?_⟩
    rw [List.mem_filter, decide_eq_true_eq, and_iff_right_iff_imp]
    exact fun hv => List.mem_map.mpr ⟨_, hall v hv w hw, rfl⟩
  have hne : vs ≠ [] := by
    obtain ⟨v, hv⟩ := hV
    exact List.ne_nil_of_mem ((hvs v).mpr hv)
  obtain ⟨set, hset, hmem⟩ := exists_closedSet hne fun v hv => hall v ((hvs v).mp hv) w hw
  refine ⟨_, List.mem_map_of_mem hset, fun v hv => ?_, fun n hn => ?_⟩
  · obtain ⟨ns, hns⟩ := exists_neighbourhood (hall v hv w hw)
    refine mem_subsetOf_first.mpr ⟨ns, hns, fun n hn => ?_⟩
    exact (mem_neighbourhood_iff hns).mpr ((hmem n).mp hn v ((hvs v).mpr hv))
  · exact (hmem n).mpr fun v hv => hall v ((hvs v).mp hv) n hn

/-! ### No subset is empty -/

theorem neighbours_ne_nil {e : ℕ × List ℕ} (he : e ∈ neighbourhoods pairs) : e.2 ≠ [] := by
  induction pairs using List.reverseRecOn generalizing e with
  | nil => exact absurd he List.not_mem_nil
  | append_singleton pairs xy ih =>
    rw [neighbourhoods, List.foldl_append] at he
    rcases mem_addNeighbour he with he | rfl | ⟨ws, -, rfl⟩
    · exact ih he
    · exact List.cons_ne_nil _ _
    · exact List.ne_nil_of_mem (mem_insertMember.mpr (Or.inl rfl))

section Closure

variable {P : List ℕ → Prop}

theorem forall_mem_addNew (h : ∀ other ∈ sets, P other) (hset : P set) :
    ∀ other ∈ addNew sets set, P other := by
  unfold addNew
  split_ifs
  · exact h
  · exact List.forall_mem_append.mpr ⟨h, List.forall_mem_singleton.mpr hset⟩

theorem forall_mem_addMeets (hmeet : ∀ other, P other → meet set other ≠ [] → P (meet set other))
    (h : ∀ other ∈ sets, P other) {before : List (List ℕ)} (hbefore : ∀ other ∈ before, P other) :
    ∀ other ∈ addMeets set before sets, P other := by
  unfold addMeets
  induction before generalizing sets with
  | nil => exact h
  | cons b before ih =>
    obtain ⟨hb, hbefore⟩ := List.forall_mem_cons.mp hbefore
    rw [List.foldl_cons]
    refine ih ?_ hbefore
    by_cases hempty : (meet set b).isEmpty = true
    · simpa only [hempty, if_true] using h
    · simp only [hempty]
      exact forall_mem_addNew h (hmeet b hb (mt List.isEmpty_iff.mpr hempty))

theorem forall_mem_closeFrom
    (hmeet : ∀ set, P set → ∀ other, P other → meet set other ≠ [] → P (meet set other))
    (n cursor : ℕ)
    (h : ∀ other ∈ sets, P other) : ∀ other ∈ closeFrom cursor n sets, P other := by
  induction n generalizing cursor sets with
  | zero => exact h
  | succ n ih =>
    rw [closeFrom]
    split
    · exact h
    · next set hset =>
      exact ih _ (forall_mem_addMeets (hmeet set (h set (List.mem_of_getElem? hset))) h
        fun other hother => h other (List.mem_of_mem_take hother))

/-- **Induction on the closure**: what holds of the neighbourhoods and of the intersection of two
sets of which it holds, is true of all closed sets. -/
theorem forall_mem_closedSets (hhood : ∀ e ∈ neighbourhoods pairs, P e.2)
    (hmeet : ∀ set, P set → ∀ other, P other → meet set other ≠ [] → P (meet set other)) :
    ∀ set ∈ closedSets pairs, P set := by
  have hdistinct : ∀ (hoods sets : List (List ℕ)), (∀ hood ∈ hoods, P hood) →
      (∀ other ∈ sets, P other) → ∀ other ∈ hoods.foldl addNew sets, P other := by
    intro hoods
    induction hoods with
    | nil => exact fun sets _ h => h
    | cons hood hoods ih =>
      intro sets hhoods h
      obtain ⟨hhood, hhoods⟩ := List.forall_mem_cons.mp hhoods
      exact ih _ hhoods (forall_mem_addNew h hhood)
  refine forall_mem_closeFrom hmeet _ _ (hdistinct _ _ ?_ fun other hother =>
    absurd hother List.not_mem_nil)
  rw [List.forall_mem_map]
  exact hhood

end Closure

/-- A closed set is a non-empty part of a neighbourhood. -/
theorem closedSet_spec {set : List ℕ} (hset : set ∈ closedSets pairs) :
    set ≠ [] ∧ ∃ e ∈ neighbourhoods pairs, set ⊆ e.2 := by
  refine forall_mem_closedSets (P := fun set => set ≠ [] ∧ ∃ e ∈ neighbourhoods pairs, set ⊆ e.2)
    (fun e he => ⟨neighbours_ne_nil he, e, he, List.Subset.refl _⟩) ?_ set hset
  rintro set ⟨-, e, he, hsub⟩ other - hne
  exact ⟨hne, e, he, fun w hw => hsub (mem_meet.mp hw).1⟩

/-- **No subset is empty**, on either side. -/
theorem ne_nil_of_subset {S : NashSubset} (hS : S ∈ maximalNashSubsets pairs) :
    S.first ≠ [] ∧ S.second ≠ [] := by
  obtain ⟨second, hsecond, rfl⟩ := List.mem_map.mp hS
  obtain ⟨hne, e, he, hsub⟩ := closedSet_spec hsecond
  exact ⟨List.ne_nil_of_mem (mem_subsetOf_first.mpr ⟨e.2, he, hsub⟩), hne⟩

end Components

end Equilibria
