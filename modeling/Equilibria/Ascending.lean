/-!
# Ascending lists of natural numbers

Labels, bases and sets of vertices are kept as ascending lists, so that two of them are the same
set exactly when they are the same list.

Main definitions:

* `insertAscending`, `ascending` — sorting by insertion, repetitions kept;
* `insertMember`, `members` — the same with repetitions dropped;
* `meet`, `isWithin` — intersection and inclusion of ascending lists as sets.

Main statements: `perm_insertAscending` and `perm_ascending`, sorting loses and adds nothing;
`mem_insertMember`, insertion adds exactly one member.
-/

namespace Equilibria

/-- Puts a number in front of the first one that is not smaller. -/
def insertAscending (n : Nat) : List Nat → List Nat
  | [] => [n]
  | m :: ms => if n ≤ m then n :: m :: ms else m :: insertAscending n ms

/-- The numbers of a list in ascending order. -/
def ascending : List Nat → List Nat
  | [] => []
  | n :: ns => insertAscending n (ascending ns)

/-- Insertion adds the number and nothing else. -/
theorem perm_insertAscending (n : Nat) (ms : List Nat) : (insertAscending n ms).Perm (n :: ms) := by
  induction ms with
  | nil => exact List.Perm.refl _
  | cons m ms ih =>
    by_cases h : n ≤ m
    · simp [insertAscending, h]
    · simp only [insertAscending, if_neg h]
      exact (ih.cons m).trans (List.Perm.swap n m ms)

/-- Sorting keeps every number as often as it stands. -/
theorem perm_ascending (ns : List Nat) : (ascending ns).Perm ns := by
  induction ns with
  | nil => exact List.Perm.refl _
  | cons n ns ih => exact (perm_insertAscending n _).trans (ih.cons n)

/-- Puts a number into an ascending list unless it is there. -/
def insertMember (n : Nat) : List Nat → List Nat
  | [] => [n]
  | m :: ms => if n < m then n :: m :: ms else if n = m then m :: ms else m :: insertMember n ms

/-- The numbers that occur in a list, ascending. -/
def members (ns : List Nat) : List Nat := ns.foldl (fun set n => insertMember n set) []

/-- The members after an insertion are those before and the new one. -/
theorem mem_insertMember {k n : Nat} {ms : List Nat} : k ∈ insertMember n ms ↔ k = n ∨ k ∈ ms := by
  induction ms with
  | nil => simp [insertMember]
  | cons m ms ih =>
    by_cases h : n < m
    · simp [insertMember, h]
    · by_cases e : n = m
      · simp [insertMember, e]
      · simp only [insertMember, if_neg h, if_neg e, List.mem_cons, ih]
        constructor
        · rintro (hk | hk | hk) <;> simp [hk]
        · rintro (hk | hk | hk) <;> simp [hk]

/-- The numbers that are in both lists, in the order of the first. -/
def meet (ms ns : List Nat) : List Nat := ms.filter fun m => ns.contains m

/-- Whether every number of the first list is in the second. -/
def isWithin (ms ns : List Nat) : Bool := ms.all fun m => ns.contains m

end Equilibria
