import Mathlib
import Equilibria.Proofs.DisjointClasses

/-!
# Classes linked by unions

Finding a root changes the forest while it runs, and calls of `find` and `union` come in any order.
From single numbers on, whatever the calls are:

* `DisjointSets.Turn` — one turn of the loop that finds a root, both of its look-ups within the list;
* `Descending.turn`, `Descending.turns_find` — a turn leads closer to the same answer, so that the loop
  comes to its end, at what `find` returns;
* `DisjointSets.InOneTree`, `Descending.isLeast_root` — trees as chains of parents, and their least
  members;
* `DisjointSets.Call`, `DisjointSets.Joined` — calls, and the chains of the unions among them;
* `Reflects.run`, `reflects_after` — one call, and any number of them: the trees are those chains;
* `finds_after` — finding ends, keeps the classes and returns the least member, after any calls.

Forests inside of a search count as well: no turn of the loop makes a parent larger than its child.
-/

namespace Equilibria

namespace DisjointSets

variable {s t : DisjointSets} {c : DisjointSets × ℕ} {x y z n : ℕ} {calls : List Call}

/-- What related numbers have in common is common to the ends of a chain of them. -/
theorem eq_of_eqvGen {f : ℕ → ℕ} {r : ℕ → ℕ → Prop} (h : ∀ a b, r a b → f a = f b)
    (hchain : Relation.EqvGen r y z) : f y = f z :=
  congrArg (Quot.lift f h) (Quot.eqvGen_sound hchain)

/-! ### The loop that finds a root -/

/-- **One turn of the loop.**  A number that is not its own parent is given its grandparent as parent,
and the loop goes on there.  A look-up outside of the list would end it without an answer. -/
inductive Turn : DisjointSets × ℕ → DisjointSets × ℕ → Prop
  | halve {s : DisjointSets} {x p g : ℕ} (hparent : s.parents[x]? = some p) (hmoves : p ≠ x)
      (hgrandparent : s.parents[p]? = some g) : Turn (s, x) (s.hang x g, g)

/-- Whether the loop has come to its end: the number is its own parent. -/
def AtRoot (c : DisjointSets × ℕ) : Prop := c.1.parents[c.2]? = some c.2

/-- The loop has no choice. -/
theorem turn_rightUnique : Relator.RightUnique Turn := by
  rintro _ _ _ ⟨hp, -, hg⟩ ⟨hp', -, hg'⟩
  obtain rfl := Option.some.inj (hp.symm.trans hp')
  obtain rfl := Option.some.inj (hg.symm.trans hg')
  rfl

/-- At its end the loop makes no turn. -/
theorem AtRoot.not_turn (h : AtRoot c) (c' : DisjointSets × ℕ) : ¬Turn c c' := by
  rintro ⟨hp, hmoves, -⟩
  exact hmoves (Option.some.inj (hp.symm.trans h))

/-- If the loop comes to its end once, it does so from wherever it gets to. -/
theorem AtRoot.ends {d e : DisjointSets × ℕ} (h : AtRoot e) (hend : Relation.ReflTransGen Turn c e)
    (hturns : Relation.ReflTransGen Turn c d) : Relation.ReflTransGen Turn d e := by
  rcases Relation.ReflTransGen.total_of_right_unique turn_rightUnique hend hturns with hbeyond | hbefore
  · rcases hbeyond.cases_head with rfl | ⟨c', hturn, -⟩
    · exact .refl
    · exact absurd hturn (h.not_turn c')
  · exact hbefore

theorem getElem?_parents (hx : x < s.parents.length) : s.parents[x]? = some (s.parent x) := by
  rw [parent, List.getD_eq_getElem _ _ hx, List.getElem?_eq_getElem hx]

theorem parent_eq_of_getElem? (h : s.parents[x]? = some y) : s.parent x = y := by
  rw [parent, List.getD_eq_getElem?_getD, h, Option.getD_some]

/-- **What a turn leads to**: a smaller number in a forest of the same kind, where the same is found. -/
theorem Descending.turn (h : s.Descending) (hturn : Turn (s, x) c) :
    c.1.Descending ∧ c.1.parents.length = s.parents.length ∧ c.2 < x ∧ c.1.find c.2 = s.find x := by
  obtain ⟨hparent, hmoves, hgrandparent⟩ := hturn
  obtain rfl := parent_eq_of_getElem? hparent
  obtain rfl := parent_eq_of_getElem? hgrandparent
  have hlt : s.parent x < x := (h x).lt_of_ne hmoves
  have hgrand : s.parent (s.parent x) < x := (h _).trans_lt hlt
  exact ⟨h.hang (lt_length_of_parent_lt hlt) hgrand.le, length_hang _ _ _, hgrand,
    (h.find_of_lt hlt).symm⟩

/-- **The loop comes to its end**, at what `find` returns. -/
theorem Descending.turns_find (h : s.Descending) (hx : x < s.parents.length) :
    Relation.ReflTransGen Turn (s, x) ((s.find x).2, (s.find x).1) := by
  induction x using Nat.strong_induction_on generalizing s with
  | _ x ih =>
    rcases (h x).lt_or_eq with hlt | heq
    · have hp : s.parent x < s.parents.length := hlt.trans hx
      have hturn : Turn (s, x) (s.hang x (s.parent (s.parent x)), s.parent (s.parent x)) :=
        .halve (getElem?_parents hx) hlt.ne (getElem?_parents hp)
      obtain ⟨hdescending, hlength, hless, hsame⟩ := h.turn hturn
      rw [← hsame]
      exact .head hturn (ih _ hless hdescending (by rw [hlength]; exact hless.trans hx))
    · rw [find_of_fixed heq]

/-- Wherever the loop gets to, the forest is of the same kind. -/
theorem Descending.of_turns (h : s.Descending) (hturns : Relation.ReflTransGen Turn (s, x) c) :
    c.1.Descending := by
  induction hturns with
  | refl => exact h
  | tail _ hturn ih => exact (Descending.turn ih hturn).1

theorem Descending.atRoot_find (h : s.Descending) (hx : x < s.parents.length) :
    AtRoot ((s.find x).2, (s.find x).1) := by
  obtain ⟨hfound, hcompressed⟩ := h.find x
  have hfixed : (s.find x).2.parent (s.find x).1 = (s.find x).1 := by
    rw [hfound, ← hcompressed.root]
    exact hcompressed.descending.parent_root x
  have hlt : (s.find x).1 < (s.find x).2.parents.length := by
    rw [hfound, hcompressed.length]
    exact (root_le s x).trans_lt hx
  exact (getElem?_parents hlt).trans (congrArg some hfixed)

/-! ### Trees as classes -/

/-- Whether two numbers are in one tree: a chain of parents and children leads from one to the other. -/
def InOneTree (s : DisjointSets) : ℕ → ℕ → Prop := Relation.EqvGen fun x p => s.parent x = p

theorem Descending.inOneTree_root (h : s.Descending) (x : ℕ) : s.InOneTree x (s.root x) := by
  induction x using Nat.strong_induction_on with
  | _ x ih =>
    rcases (h x).lt_or_eq with hlt | heq
    · rw [← h.root_parent]
      exact .trans _ _ _ (.rel _ _ rfl) (ih _ hlt)
    · rw [root_of_fixed heq]
      exact .refl x

/-- Each tree has one root. -/
theorem Descending.inOneTree_iff (h : s.Descending) : s.InOneTree x y ↔ s.root x = s.root y := by
  constructor
  · refine eq_of_eqvGen fun x p hparent => ?_
    rw [← hparent, h.root_parent]
  · intro hroot
    have hy := h.inOneTree_root y
    rw [← hroot] at hy
    exact .trans _ _ _ (h.inOneTree_root x) (.symm _ _ hy)

/-- **A root is the least member of its tree.** -/
theorem Descending.isLeast_root (h : s.Descending) (x : ℕ) :
    IsLeast {y | s.InOneTree x y} (s.root x) := by
  refine ⟨h.inOneTree_root x, fun y hy => ?_⟩
  rw [h.inOneTree_iff.mp hy]
  exact root_le s y

/-- What finding a number comes to. -/
structure Finds (s : DisjointSets) (x r : ℕ) (t : DisjointSets) : Prop where
  /-- From the start and from wherever the loop gets to, it goes on to the same end. -/
  ends : ∀ c, Relation.ReflTransGen Turn (s, x) c → Relation.ReflTransGen Turn c (t, r)
  /-- There it stops. -/
  atRoot : AtRoot (t, r)
  /-- No number has come to another tree. -/
  classes : ∀ y z, t.InOneTree y z ↔ s.InOneTree y z
  /-- The number found is the least one in the tree. -/
  least : IsLeast {y | s.InOneTree x y} r

theorem Descending.finds (h : s.Descending) (hx : x < s.parents.length) :
    Finds s x (s.find x).1 (s.find x).2 := by
  obtain ⟨hfound, hcompressed⟩ := h.find x
  refine ⟨fun c => (h.atRoot_find hx).ends (h.turns_find hx), h.atRoot_find hx, fun y z => ?_, ?_⟩
  · rw [hcompressed.descending.inOneTree_iff, h.inOneTree_iff, hcompressed.root, hcompressed.root]
  · rw [hfound]
    exact h.isLeast_root x

/-! ### Calls -/

/-- A call of one of the two operations. -/
inductive Call
  | find (x : ℕ)
  | union (a b : ℕ)
  deriving Repr, DecidableEq

/-- Whether the arguments of a call are below `n`. -/
def Call.Within (n : ℕ) : Call → Prop
  | find x => x < n
  | union a b => a < n ∧ b < n

/-- What a call leaves behind. -/
def Call.run (s : DisjointSets) : Call → DisjointSets
  | find x => (s.find x).2
  | union a b => s.union a b

/-- The forest after some calls, which begin with every number below `n` in a tree of its own. -/
def after (n : ℕ) (calls : List Call) : DisjointSets := calls.foldl Call.run (singletons n)

/-- Whether a chain of unions among the calls links two numbers. -/
def Joined (calls : List Call) : ℕ → ℕ → Prop := Relation.EqvGen fun a b => Call.union a b ∈ calls

/-- A forest of the numbers below `n` whose trees are the chains of unions. -/
structure Reflects (n : ℕ) (calls : List Call) (s : DisjointSets) : Prop where
  descending : s.Descending
  length : s.parents.length = n
  root_eq_iff : ∀ y z, s.root y = s.root z ↔ Joined calls y z

theorem joined_mono {calls' : List Call} (hsub : calls ⊆ calls') (h : Joined calls y z) :
    Joined calls' y z :=
  Relation.EqvGen.mono (fun _ _ hmem => hsub hmem) _ _ h

theorem reflects_singletons (n : ℕ) : Reflects n [] (singletons n) := by
  refine ⟨descending_singletons n, List.length_range, fun y z => ?_⟩
  rw [root_of_fixed (parent_singletons n y), root_of_fixed (parent_singletons n z)]
  constructor
  · rintro rfl
    exact .refl y
  · exact eq_of_eqvGen (f := id) fun _ _ hmem => absurd hmem List.not_mem_nil

/-- Finding adds no chain. -/
theorem joined_concat_find : Joined (calls ++ [.find x]) y z ↔ Joined calls y z := by
  unfold Joined
  simp

/-- **One call** makes the chains that it adds, and no others. -/
theorem Reflects.run (h : Reflects n calls s) {call : Call} (hcall : call.Within n) :
    Reflects n (calls ++ [call]) (call.run s) := by
  cases call with
  | find x =>
    obtain ⟨-, hcompressed⟩ := h.descending.find x
    refine ⟨hcompressed.descending, hcompressed.length.trans h.length, fun y z => ?_⟩
    rw [joined_concat_find, ← h.root_eq_iff]
    exact (hcompressed.root y).congr_left.trans (hcompressed.root z).congr_right
  | union a b =>
    have ha : a < s.parents.length := by rw [h.length]; exact hcall.1
    have hb : b < s.parents.length := by rw [h.length]; exact hcall.2
    obtain ⟨hdescending, hlength, -⟩ := h.descending.union ha hb
    have hroots := h.descending.root_union_eq_iff ha hb
    have hold : ∀ {y z}, s.root y = s.root z → Joined (calls ++ [.union a b]) y z :=
      fun hroot => joined_mono (List.subset_append_left _ _) ((h.root_eq_iff _ _).mp hroot)
    have hnew : Joined (calls ++ [.union a b]) a b := .rel _ _ (by simp)
    refine ⟨hdescending, hlength.trans h.length,
      fun y z => ⟨fun hroot => ?_, eq_of_eqvGen fun y z hmem => ?_⟩⟩
    · rcases (hroots y z).mp hroot with hyz | ⟨hy, hz⟩ | ⟨hy, hz⟩
      · exact hold hyz
      · exact .trans _ _ _ (hold hy) (.trans _ _ _ hnew (hold hz.symm))
      · exact .trans _ _ _ (hold hy) (.trans _ _ _ (.symm _ _ hnew) (hold hz.symm))
    · rcases List.mem_append.mp hmem with hmem | hmem
      · exact (hroots y z).mpr (Or.inl ((h.root_eq_iff y z).mpr (.rel _ _ hmem)))
      · obtain ⟨rfl, rfl⟩ := Call.union.inj (List.mem_singleton.mp hmem)
        exact (hroots y z).mpr (Or.inr (Or.inl ⟨rfl, rfl⟩))

/-- **Any number of calls.** -/
theorem reflects_after (hcalls : ∀ call ∈ calls, call.Within n) :
    Reflects n calls (after n calls) := by
  induction calls using List.reverseRecOn with
  | nil => exact reflects_singletons n
  | append_singleton calls call ih =>
    obtain ⟨hbefore, hlast⟩ := List.forall_mem_append.mp hcalls
    rw [after, List.foldl_concat]
    exact (ih hbefore).run (hlast _ (List.mem_singleton_self call))

/-- **Finding after any calls.**  No parent is larger than its child, neither between the calls nor
inside of a search; each search comes to its end, keeps the classes and returns the least member of
the class; and two searches, one after the other, return the same just for numbers that unions link.
The two searches of a union are among these, each after the calls before it. -/
theorem finds_after (n : ℕ) (calls : List Call) (hcalls : ∀ call ∈ calls, call.Within n) :
    (after n calls).Descending ∧ ∀ x < n,
      (∀ c, Relation.ReflTransGen Turn (after n calls, x) c → c.1.Descending) ∧
      Finds (after n calls) x ((after n calls).find x).1 ((after n calls).find x).2 ∧
      ∀ y < n, ((after n calls).find x).1 = (((after n calls).find x).2.find y).1 ↔
        Joined calls x y := by
  have h := reflects_after hcalls
  refine ⟨h.descending, fun x hx => ⟨fun c => h.descending.of_turns, ?_, fun y _ => ?_⟩⟩
  · exact h.descending.finds (by rwa [h.length])
  · obtain ⟨hfound, hcompressed⟩ := h.descending.find x
    obtain ⟨hfound', -⟩ := hcompressed.descending.find y
    rw [hfound, hfound', hcompressed.root, h.root_eq_iff]

/-- Two unions, after which the way from the largest number to its root has two steps. -/
def unions : List Call := [.union 2 3, .union 1 3]

theorem finds_after_unions :
    (∀ call ∈ unions, call.Within 4) ∧ (after 4 unions).Descending ∧ 3 < 4 ∧ 2 < 4 ∧
      (∀ c, Relation.ReflTransGen Turn (⟨[0, 1, 1, 2]⟩, 3) c → c.1.Descending) ∧
      Finds ⟨[0, 1, 1, 2]⟩ 3 1 ⟨[0, 1, 1, 1]⟩ ∧ Joined unions 3 2 := by
  have hcalls : ∀ call ∈ unions, call.Within 4 := by
    simp [unions, Call.Within]
  have hafter : after 4 unions = ⟨[0, 1, 1, 2]⟩ := by decide +kernel
  have hfind : (⟨[0, 1, 1, 2]⟩ : DisjointSets).find 3 = (1, ⟨[0, 1, 1, 1]⟩) := by decide +kernel
  obtain ⟨hdescending, hfinds⟩ := finds_after 4 unions hcalls
  obtain ⟨hturns, hfound, hjoined⟩ := hfinds 3 (by decide)
  rw [hafter] at hturns hfound hjoined
  rw [hfind] at hfound hjoined
  exact ⟨hcalls, hdescending, by decide, by decide, hturns, hfound,
    (hjoined 2 (by decide)).mp (by decide +kernel)⟩

end DisjointSets

end Equilibria
