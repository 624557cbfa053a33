import Mathlib

/-!
# Lists grouped by a relation

A list may be grouped into the classes of a relation in many orders.  As sets of members the groups
are always the same:

* `Classes` — groups that are the classes of a relation on the members of a list;
* `Classes.map` — classes are carried along by a map that keeps the relation;
* `Classes.perm` — two groupings of the same members agree up to order;
* `reflTransGen_map_iff` — a map that keeps the steps of a relation keeps its chains;
* `eq_of_getElem?_eq`, `map_getD_range` — places in a list.
-/

namespace Equilibria

variable {α β : Type} {R : α → α → Prop} {R' : β → β → Prop} {whole whole' : List α}
  {groups groups' : List (List α)} {f : α → β}

/-- Groups that are the classes of a relation on the members of a list. -/
structure Classes (R : α → α → Prop) (whole : List α) (groups : List (List α)) : Prop where
  nodup : groups.flatten.Nodup
  nonempty : ∀ G ∈ groups, G ≠ []
  mem_flatten : ∀ a, a ∈ groups.flatten ↔ a ∈ whole
  related : ∀ G ∈ groups, ∀ a ∈ G, ∀ b, b ∈ G ↔ b ∈ whole ∧ R a b

theorem Classes.mem_whole (h : Classes R whole groups) {G : List α} (hG : G ∈ groups) {a : α}
    (ha : a ∈ G) : a ∈ whole :=
  (h.mem_flatten a).mp (List.mem_flatten.mpr ⟨G, hG, ha⟩)

/-- **Classes are carried along** by a map that keeps the members apart and the relation. -/
theorem Classes.map (h : Classes R whole groups)
    (hinj : ∀ a ∈ whole, ∀ b ∈ whole, f a = f b → a = b)
    (hR : ∀ a ∈ whole, ∀ b ∈ whole, R' (f a) (f b) ↔ R a b) :
    Classes R' (whole.map f) (groups.map (List.map f)) where
  nodup := by
    rw [← List.map_flatten, List.nodup_map_iff_inj_on h.nodup]
    exact fun a ha b hb => hinj a ((h.mem_flatten a).mp ha) b ((h.mem_flatten b).mp hb)
  nonempty := by
    rw [List.forall_mem_map]
    exact fun G hG => mt List.map_eq_nil_iff.mp (h.nonempty G hG)
  mem_flatten := by
    intro b
    rw [← List.map_flatten, List.mem_map, List.mem_map]
    exact exists_congr fun a => and_congr_left fun _ => h.mem_flatten a
  related := by
    rw [List.forall_mem_map]
    intro G hG
    rw [List.forall_mem_map]
    intro a ha b
    have ha' := h.mem_whole hG ha
    rw [List.mem_map, List.mem_map]
    constructor
    · rintro ⟨c, hc, rfl⟩
      obtain ⟨hwhole, hac⟩ := (h.related G hG a ha c).mp hc
      exact ⟨⟨c, hwhole, rfl⟩, (hR a ha' c hwhole).mpr hac⟩
    · rintro ⟨⟨c, hwhole, rfl⟩, hac⟩
      exact ⟨c, (h.related G hG a ha c).mpr ⟨hwhole, (hR a ha' c hwhole).mp hac⟩, rfl⟩

/-- A group is what is related with a member, each once. -/
theorem Classes.mem_multisets_iff (h : Classes R whole groups) {m : Multiset α} :
    m ∈ groups.map Multiset.ofList ↔
      ∃ a ∈ whole, m.Nodup ∧ ∀ b, b ∈ m ↔ b ∈ whole ∧ R a b := by
  have hnodup : ∀ G ∈ groups, G.Nodup := (List.nodup_flatten.mp h.nodup).1
  rw [List.mem_map]
  constructor
  · rintro ⟨G, hG, rfl⟩
    obtain ⟨a, ha⟩ := List.exists_mem_of_ne_nil _ (h.nonempty G hG)
    exact ⟨a, h.mem_whole hG ha, hnodup G hG, h.related G hG a ha⟩
  · rintro ⟨a, ha, hm, hmem⟩
    obtain ⟨G, hG, haG⟩ := List.mem_flatten.mp ((h.mem_flatten a).mpr ha)
    refine ⟨G, hG, (Multiset.Nodup.ext (Multiset.coe_nodup.mpr (hnodup G hG)) hm).mpr fun b => ?_⟩
    rw [hmem]
    exact h.related G hG a haG b

theorem Classes.nodup_multisets (h : Classes R whole groups) :
    (groups.map Multiset.ofList).Nodup := by
  rw [List.Nodup, List.pairwise_map]
  refine List.Pairwise.imp_of_mem ?_ (List.nodup_flatten.mp h.nodup).2
  intro G G' hG _ hdisjoint hsame
  obtain ⟨a, ha⟩ := List.exists_mem_of_ne_nil _ (h.nonempty G hG)
  exact hdisjoint ha ((Multiset.coe_eq_coe.mp hsame).mem_iff.mp ha)

/-- **Two groupings of the same members agree** up to the order of the groups and inside them. -/
theorem Classes.perm (h : Classes R whole groups) (h' : Classes R whole' groups')
    (hsame : ∀ a, a ∈ whole ↔ a ∈ whole') :
    (groups.map Multiset.ofList).Perm (groups'.map Multiset.ofList) := by
  rw [List.perm_ext_iff_of_nodup h.nodup_multisets h'.nodup_multisets]
  intro m
  rw [h.mem_multisets_iff, h'.mem_multisets_iff]
  simp only [hsame]

/-- **Chains are kept** by a map that keeps the steps, if all steps are between images. -/
theorem reflTransGen_map_iff {P : α → Prop} (hinj : ∀ a b, P a → P b → f a = f b → a = b)
    (hstep : ∀ a b, P a → P b → (R' (f a) (f b) ↔ R a b)) (hsource : ∀ a b, R a b → P a ∧ P b)
    (himage : ∀ c d, R' c d → ∃ a, P a ∧ f a = c) {a b : α} (ha : P a) (hb : P b) :
    Relation.ReflTransGen R' (f a) (f b) ↔ Relation.ReflTransGen R a b := by
  constructor
  · have hchain : ∀ d, Relation.ReflTransGen R' (f a) d →
        ∀ b, P b → f b = d → Relation.ReflTransGen R a b := by
      intro d hd
      induction hd with
      | refl =>
        intro b hb hbd
        rw [hinj b a hb ha hbd]
      | tail _ hlast ih =>
        intro b hb hbd
        obtain ⟨c, hc, rfl⟩ := himage _ _ hlast
        subst hbd
        exact (ih c hc rfl).tail ((hstep c b hc hb).mp hlast)
    exact fun h => hchain _ h b hb rfl
  · intro h
    induction h with
    | refl => exact Relation.ReflTransGen.refl
    | tail _ hlast ih =>
      obtain ⟨hc, hd⟩ := hsource _ _ hlast
      exact (ih hc).tail ((hstep _ _ hc hd).mpr hlast)

/-- A list without repetitions has a member at one place only. -/
theorem eq_of_getElem?_eq {as : List α} (hnodup : as.Nodup) {i j : ℕ} {a : α}
    (hi : as[i]? = some a) (hj : as[j]? = some a) : i = j :=
  (List.getElem?_inj (List.getElem?_eq_some_iff.mp hi).1 hnodup).mp (hi.trans hj.symm)

theorem map_getD_range (as : List α) (d : α) :
    (List.range as.length).map (fun i => as.getD i d) = as := by
  apply List.ext_getElem
  · rw [List.length_map, List.length_range]
  · intro i _ hi
    rw [List.getElem_map, List.getElem_range, List.getD_eq_getElem as d hi]

end Equilibria
